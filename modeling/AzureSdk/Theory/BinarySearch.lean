/-
# Theory.BinarySearch — `binary_search_by` and `partition_point` on lists

The two slice searches of the Rust standard library, as its implementation runs
them: a window `[base, base + size)` is halved until one element is left, and that
element decides between a hit and an insertion point.

The comparator sees elements only through their position, so a list is searched
through its probe `i ↦ f xs[i]`.  The contract needs one hypothesis, `Monotone`:
along the list the probe answers "less", then "equal", then "greater".
-/
import Mathlib.Data.List.Basic

namespace AzureSdk.Theory.BinarySearch

section Search

variable {α : Type}

/-- The comparator at a position; positions past the end compare greater. -/
def probe (f : α → Ordering) (xs : List α) (i : Nat) : Ordering :=
  match xs[i]? with
  | some x => f x
  | none => .gt

/-- The halving loop: `while size > 1`.  Each round removes `size / 2 ≥ 1` elements,
so `fuel = size` rounds are enough. -/
def halve (p : Nat → Ordering) : Nat → Nat → Nat → Nat
  | 0, base, _ => base
  | fuel + 1, base, size =>
    if size ≤ 1 then base
    else
      let half := size / 2
      let mid := base + half
      halve p fuel (if p mid = .gt then base else mid) (size - half)

/-- `slice::binary_search_by`: `ok i` is a position that compares equal, `error i`
the position where an equal element would go. -/
def binarySearchBy (f : α → Ordering) (xs : List α) : Except Nat Nat :=
  if xs.length = 0 then .error 0
  else
    let base := halve (probe f xs) xs.length 0 xs.length
    match probe f xs base with
    | .eq => .ok base
    | .lt => .error (base + 1)
    | .gt => .error base

/-- `slice::partition_point`: the length of the initial run on which `pred` holds. -/
def partitionPoint (pred : α → Bool) (xs : List α) : Nat :=
  match binarySearchBy (fun x => if pred x then .lt else .gt) xs with
  | .ok i => i
  | .error i => i

/-- The comparator answers less, then equal, then greater along the list. -/
def Monotone (p : Nat → Ordering) : Prop :=
  ∀ i j, i ≤ j → (p i = .gt → p j = .gt) ∧ (p j = .lt → p i = .lt)

variable {f : α → Ordering} {i : Nat} {xs : List α}

theorem probe_past (past : xs.length ≤ i) : probe f xs i = .gt := by
  simp [probe, List.getElem?_eq_none past]

theorem probe_of_getElem? {x : α} (here : xs[i]? = some x) : probe f xs i = f x := by
  simp [probe, here]

/-- The loop ends on the last position of the window that is not greater: everything
past it is greater, and it is not itself greater unless the loop never moved. -/
theorem halve_spec {p : Nat → Ordering} (mono : Monotone p) :
    ∀ {fuel base size : Nat}, size ≤ fuel → 1 ≤ size →
      (base = 0 ∨ p base ≠ .gt) → (∀ j, base + size ≤ j → p j = .gt) →
      (halve p fuel base size = 0 ∨ p (halve p fuel base size) ≠ .gt) ∧
        ∀ j, halve p fuel base size < j → p j = .gt
  | 0, _, size, enough, positive, _, _ => by omega
  | fuel + 1, base, size, enough, positive, below, above => by
    rw [halve]
    split
    · exact ⟨below, fun j hj => above j (by omega)⟩
    · by_cases mid : p (base + size / 2) = .gt
      · simp only [mid, if_true]
        refine halve_spec mono (by omega) (by omega) below fun j hj => ?_
        exact (mono _ j (by omega)).1 mid
      · simp only [mid, if_false]
        exact halve_spec mono (by omega) (by omega) (.inr mid) fun j hj => above j (by omega)

/-- **Contract of `binary_search_by`** on a monotone comparator: a hit compares
equal, a miss splits the list into a part below and a part above. -/
theorem binarySearchBy_spec (mono : Monotone (probe f xs)) : match binarySearchBy f xs with
    | .ok i => probe f xs i = .eq
    | .error i => (∀ j, j < i → probe f xs j = .lt) ∧ ∀ j, i ≤ j → probe f xs j = .gt := by
  by_cases empty : xs.length = 0
  · simp only [binarySearchBy, if_pos empty]
    exact ⟨fun j hj => absurd hj (by omega), fun j _ => probe_past (by omega)⟩
  · obtain ⟨low, high⟩ := @halve_spec _ mono xs.length 0 xs.length
      (Nat.le_refl _) (by omega) (.inl rfl) fun j hj => probe_past (by omega)
    simp only [binarySearchBy, if_neg empty]
    cases last : probe f xs (halve (probe f xs) xs.length 0 xs.length) with
    | eq => exact last
    | lt =>
      refine ⟨fun j hj => (mono j _ (by omega)).2 last, fun j hj => high j (by omega)⟩
    | gt =>
      -- the loop never moved, so every position is greater
      have zero := low.resolve_right (fun h => h last)
      refine ⟨fun j hj => absurd hj (by omega), fun j hj => ?_⟩
      exact (mono _ j hj).1 last

theorem halve_lt (p : Nat → Ordering) : ∀ {fuel base size : Nat}, 1 ≤ size →
    halve p fuel base size < base + size
  | 0, base, size, positive => by
    rw [halve]
    omega
  | fuel + 1, base, size, positive => by
    rw [halve]
    split
    · omega
    · have rest : 1 ≤ size - size / 2 := by omega
      have low := @halve_lt p fuel base _ rest
      have high := @halve_lt p fuel (base + size / 2) _ rest
      dsimp only
      split <;> omega

theorem partitionPoint_le (pred : α → Bool) : partitionPoint pred xs ≤ xs.length := by
  simp only [partitionPoint, binarySearchBy]
  generalize (fun x => if pred x then Ordering.lt else .gt) = f
  by_cases empty : xs.length = 0
  · simp [empty]
  · have inside := @halve_lt (probe f xs) xs.length 0 _ (Nat.one_le_iff_ne_zero.mpr empty)
    rw [if_neg empty]
    cases probe f xs (halve (probe f xs) xs.length 0 xs.length) <;> dsimp only <;> omega

/-- **Contract of `partition_point`**: `pred` holds exactly before the point. -/
theorem partitionPoint_spec {pred : α → Bool}
    (mono : ∀ (i j : Nat) (x y : α), i ≤ j → xs[i]? = some x → xs[j]? = some y →
      pred y = true → pred x = true) {x : α} (here : xs[i]? = some x) :
    pred x = true ↔ i < partitionPoint pred xs := by
  let f : α → Ordering := fun x => if pred x then .lt else .gt
  have monotone : Monotone (probe f xs) := by
    intro a b le
    unfold probe
    cases ha : xs[a]? with
    | none =>
      have past : xs.length ≤ b := Nat.le_trans (List.getElem?_eq_none_iff.mp ha) le
      simp [List.getElem?_eq_none past]
    | some x =>
      cases hb : xs[b]? with
      | none => simp
      | some y =>
        have step := mono a b x y le ha hb
        cases hx : pred x <;> cases hy : pred y <;> simp_all [f]
  have spec := binarySearchBy_spec monotone
  have probed := probe_of_getElem? (f := f) here
  unfold partitionPoint
  cases found : binarySearchBy f xs with
  | ok k =>
    -- this comparator never answers "equal"
    rw [found] at spec
    simp only [probe, f] at spec
    split at spec
    · split at spec <;> simp at spec
    · simp at spec
  | error k =>
    rw [found] at spec
    obtain ⟨low, high⟩ := spec
    by_cases lt : i < k
    · simp_all [f]
    · simp_all [f]

end Search

end AzureSdk.Theory.BinarySearch
