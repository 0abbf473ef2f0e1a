/-
# Cosmos.Query.Like — the table of LIKE against its meaning

`like_match_dp` fills its table from the last column to the first, and each column from the end
of the text.  A cell looks only at cells that are filled before it (`likeCell_iff`), so the table
is right wherever it is filled (`Filled`).
-/
import AzureSdk.Cosmos.Query.Eval

namespace AzureSdk.Cosmos.Query

open Theory List

/-- What a character means that is not an escape, before a pattern that means `rest`. -/
def charMeans (pc : Char) (rest : Text → Prop) (text : Text) : Prop :=
  if pc = '%' then ∃ more, more <:+ text ∧ rest more
  else if pc = '_' then ∃ c more, text = c :: more ∧ rest more
  else ∃ more, text = pc :: more ∧ rest more

/-- What a pattern means: an escape makes the next character literal, if there is one. -/
def LikeMeans (escape : Option Char) : (pattern text : Text) → Prop
  | [], text => text = []
  | [pc], text => charMeans pc (· = []) text
  | pc :: c :: rest, text =>
    if some pc = escape then ∃ more, text = c :: more ∧ LikeMeans escape rest more
    else charMeans pc (LikeMeans escape (c :: rest)) text

/-- Counting down from `n`. -/
theorem foldl_reverse_range {σ : Type} {f : σ → Nat → σ} {P : Nat → σ → Prop} :
    ∀ {n : Nat} {s : σ}, (∀ i < n, ∀ s, P (i + 1) s → P i (f s i)) → P n s →
      P 0 ((range n).reverse.foldl f s)
  | 0, _, _, h => h
  | n + 1, s, step, h => by
    rw [range_succ, reverse_append, foldl_append]
    exact foldl_reverse_range (fun i less => step i (by omega)) (step n (by omega) s h)

section Table

variable {text pattern : Text} {escape : Option Char} {dp : Nat → Nat → Bool} {ti pi : Nat}

/-- The table is right in the columns after `pi`, and in column `pi` from row `ti` on. -/
def Filled (text pattern : Text) (escape : Option Char) (dp : Nat → Nat → Bool) (pi ti : Nat) :
    Prop :=
  ∀ i ≤ text.length, ∀ j ≤ pattern.length, pi < j ∨ pi = j ∧ ti ≤ i →
    (dp i j = true ↔ LikeMeans escape (pattern.drop j) (text.drop i))

theorem likeMeans_drop (inside : pi < pattern.length) :
    LikeMeans escape (pattern.drop pi) =
      if h : some pattern[pi] = escape ∧ pi + 1 < pattern.length then fun text =>
        ∃ more, text = pattern[pi + 1] :: more ∧ LikeMeans escape (pattern.drop (pi + 2)) more
      else charMeans pattern[pi] (LikeMeans escape (pattern.drop (pi + 1))) := by
  funext text
  rw [drop_eq_getElem_cons inside]
  by_cases last : pi + 1 < pattern.length
  · rw [drop_eq_getElem_cons last, LikeMeans]
    split <;> simp [*]
  · rw [drop_eq_nil_of_le (by omega)]
    simp only [last, and_false, dite_false]
    rfl

/-- A cell that looks at right cells is right. -/
theorem likeCell_iff (filled : Filled text pattern escape dp pi (ti + 1))
    (row : ti ≤ text.length) (column : pi < pattern.length) :
    likeCell text pattern escape dp ti pi = true ↔
      LikeMeans escape (pattern.drop pi) (text.drop ti) := by
  have shape := @likeMeans_drop _ escape _ column
  have next := filled ti row (pi + 1) column (by omega)
  rw [shape, likeCell, getElem?_eq_getElem column]
  dsimp only
  cases left : text.drop ti with
  | nil =>
    have ended : ¬ ti < text.length := not_lt.mpr (drop_eq_nil_iff.mp left)
    rw [left] at next
    split
    · simp [ended]
    · unfold charMeans
      split <;> simp [ended, next]
  | cons c more =>
    have less : ti < text.length := by
      rw [← not_le, ← drop_eq_nil_iff, left]
      exact cons_ne_nil c more
    have char : text[ti]? = some c := by rw [← head?_drop, left, head?_cons]
    have rest : text.drop (ti + 1) = more := by rw [← tail_drop, left, tail_cons]
    have above := fun j inside order => filled (ti + 1) less j inside order
    rw [rest] at above
    rw [left] at next
    rw [char]
    split
    · next escapes => simp [escapes.2, less, above (pi + 2) escapes.2 (by omega)]
    · next plain =>
      have same := above pi (by omega) (by omega)
      rw [shape, dif_neg plain] at same
      have both := above (pi + 1) column (by omega)
      unfold charMeans at same ⊢
      split
      · next percent =>
        rw [if_pos percent] at same
        simp [less, next, same, suffix_cons_iff, or_and_right, exists_or]
      · simp [less, both]

theorem Filled.setCell (filled : Filled text pattern escape dp pi (ti + 1))
    (row : ti ≤ text.length) (column : pi < pattern.length) :
    Filled text pattern escape
      (setCell dp ti pi (likeCell text pattern escape dp ti pi)) pi ti := by
  intro i inside j within order
  unfold Query.setCell
  split
  · next here =>
    obtain ⟨rfl, rfl⟩ := here
    exact likeCell_iff filled row column
  · exact filled i inside j within (by omega)

theorem filled_start : Filled text pattern escape
    (fun i j => decide (i = text.length ∧ j = pattern.length)) pattern.length 0 := by
  intro i inside j within order
  obtain rfl : j = pattern.length := by omega
  simp [LikeMeans]
  omega

end Table

/-- `likeCell` with every access checked: `none` is a panic. -/
def likeCellChecked (text pattern : Text) (escape : Option Char) (dp : Nat → Nat → Option Bool)
    (ti pi : Nat) : Option Bool := do
  let pc ← pattern[pi]?
  if some pc = escape ∧ pi + 1 < pattern.length then
    if ti < text.length then
      if (← text[ti]?) = (← pattern[pi + 1]?) then dp (ti + 1) (pi + 2) else some false
    else some false
  else if pc = '%' then
    if ← dp ti (pi + 1) then some true
    else if ti < text.length then dp (ti + 1) pi else some false
  else if ti < text.length then
    if pc = '_' then dp (ti + 1) (pi + 1)
    else if (← text[ti]?) = pc then dp (ti + 1) (pi + 1) else some false
  else some false

/-- A table of `n + 1` rows and `m + 1` columns. -/
def bounded (n m : Nat) (dp : Nat → Nat → Bool) (i j : Nat) : Option Bool :=
  if i ≤ n ∧ j ≤ m then some (dp i j) else none

theorem likeCellChecked_eq {text pattern : Text} (escape : Option Char) (dp : Nat → Nat → Bool)
    {ti pi : Nat} (row : ti ≤ text.length) (column : pi < pattern.length) :
    likeCellChecked text pattern escape (bounded text.length pattern.length dp) ti pi =
      some (likeCell text pattern escape dp ti pi) := by
  unfold likeCellChecked likeCell bounded
  simp only [getElem?_eq_getElem column, Option.bind_eq_bind, Option.bind_some]
  by_cases less : ti < text.length
  · simp only [getElem?_eq_getElem less, Option.bind_some, Option.some_beq_some]
    split
    · next escapes =>
      simp only [getElem?_eq_getElem escapes.2, Option.bind_some, Option.some_beq_some]
      grind
    · grind
  · grind

/-- **LIKE is exact.**  The table decides the meaning of the pattern, and no cell is computed
from a place outside the text, the pattern or the table. -/
theorem like_exact (text pattern : Text) (escape : Option Char) :
    (likeMatchDp text pattern escape = true ↔ LikeMeans escape pattern text) ∧
      ∀ dp, ∀ pi < pattern.length, ∀ ti ≤ text.length,
        likeCellChecked text pattern escape (bounded text.length pattern.length dp) ti pi =
          some (likeCell text pattern escape dp ti pi) := by
  refine ⟨?_, fun dp pi column ti row => likeCellChecked_eq escape dp row column⟩
  have filled := foldl_reverse_range (P := fun pi dp => Filled text pattern escape dp pi 0)
    (fun pi column dp right => foldl_reverse_range (n := text.length + 1)
      (P := fun ti dp => Filled text pattern escape dp pi ti)
      (fun ti row dp filled => filled.setCell (Nat.le_of_lt_succ row) column)
      fun i inside j within order => right i inside j within (by omega))
    filled_start
  exact filled 0 (Nat.zero_le _) 0 (Nat.zero_le _) (.inr ⟨rfl, le_rfl⟩)

end AzureSdk.Cosmos.Query
