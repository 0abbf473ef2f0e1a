/-
# Theory.Text — splitting and trimming text

The string operations of the wire formats, on lists of characters: `trim`,
`split_once` and `split` (`List.splitOn`), with what reads back what was written.
-/
import Mathlib.Algebra.Order.Ring.Int
import Mathlib.Data.List.Basic

namespace AzureSdk.Theory

open List

abbrev Text := List Char

namespace Text

/-- The Unicode `White_Space` characters, which `trim` strips. -/
def isWhitespace (c : Char) : Bool :=
  (0x9 ≤ c.toNat && c.toNat ≤ 0xD) || c.toNat == 0x20 || c.toNat == 0x85 || c.toNat == 0xA0 ||
    c.toNat == 0x1680 || (0x2000 ≤ c.toNat && c.toNat ≤ 0x200A) || c.toNat == 0x2028 ||
    c.toNat == 0x2029 || c.toNat == 0x202F || c.toNat == 0x205F || c.toNat == 0x3000

def trim (s : Text) : Text :=
  ((s.dropWhile isWhitespace).reverse.dropWhile isWhitespace).reverse

/-- What stands before and after the first `sep`. -/
def splitOnce (sep : Char) : Text → Option (Text × Text)
  | [] => none
  | c :: cs => if c = sep then some ([], cs) else (splitOnce sep cs).map fun p => (c :: p.1, p.2)

variable {sep c : Char} {s : Text}

theorem splitOnce_append : ∀ {a : Text} (b : Text), sep ∉ a →
    splitOnce sep (a ++ sep :: b) = some (a, b)
  | [], b, _ => by simp [splitOnce]
  | c :: a, b, fresh => by
    have other : c ≠ sep := fun h => fresh (h ▸ mem_cons_self)
    have rest := splitOnce_append b fun h => fresh (.tail _ h)
    simp [splitOnce, other, rest]

theorem splitOnce_inv : ∀ {s a b : Text}, splitOnce sep s = some (a, b) →
    s = a ++ sep :: b ∧ sep ∉ a
  | [], _, _, h => by simp [splitOnce] at h
  | c :: cs, a, b, h => by
    unfold splitOnce at h
    split at h
    · rename_i same
      cases h
      simp [same]
    · rename_i other
      obtain ⟨⟨a', b'⟩, found, same⟩ := Option.map_eq_some_iff.mp h
      cases same
      obtain ⟨rfl, fresh⟩ := splitOnce_inv found
      exact ⟨rfl, by simp [fresh, Ne.symm other]⟩

theorem dropWhile_of_head {p : Char → Bool} (head : ∀ c, s.head? = some c → p c = false) :
    s.dropWhile p = s := by
  cases s with
  | nil => rfl
  | cons c cs => simp [head c rfl]

theorem trim_eq (start : ∀ c, s.head? = some c → isWhitespace c = false)
    (stop : ∀ c, s.getLast? = some c → isWhitespace c = false) : trim s = s := by
  unfold trim
  rw [dropWhile_of_head start, dropWhile_of_head, reverse_reverse]
  intro c hc
  rw [head?_reverse] at hc
  exact stop c hc

theorem head_trim (h : (trim s).head? = some c) : isWhitespace c = false := by
  unfold trim at h
  generalize started : s.dropWhile isWhitespace = t at h
  rw [head?_reverse] at h
  -- stripping the end keeps the first character, if anything is left
  have first : t.head? = some c := by
    obtain ⟨stripped, split⟩ : ∃ u, u ++ t.reverse.dropWhile isWhitespace = t.reverse :=
      ⟨t.reverse.takeWhile isWhitespace, takeWhile_append_dropWhile⟩
    have back := congrArg List.reverse split
    rw [reverse_append, reverse_reverse] at back
    rw [← back, head?_append, head?_reverse, h]
    rfl
  cases t with
  | nil => simp at first
  | cons d ds =>
    cases first
    have := head?_dropWhile_not isWhitespace s
    rw [started] at this
    simpa using this

theorem last_trim (h : (trim s).getLast? = some c) : isWhitespace c = false := by
  unfold trim at h
  rw [getLast?_reverse] at h
  have kept := head?_dropWhile_not isWhitespace (s.dropWhile isWhitespace).reverse
  rw [h] at kept
  simpa using kept

theorem trim_trim (s : Text) : trim (trim s) = trim s :=
  trim_eq (fun _ => head_trim) (fun _ => last_trim)

theorem mem_of_mem_trim (h : c ∈ trim s) : c ∈ s := by
  have h := (dropWhile_sublist _).mem (mem_reverse.mp h)
  exact (dropWhile_sublist _).mem (mem_reverse.mp h)

theorem not_mem_of_mem_splitOn : ∀ {s part : Text}, part ∈ s.splitOn sep → sep ∉ part
  | [], part, h => by
    rw [splitOn_nil, mem_singleton] at h
    simp [h]
  | c :: cs, part, h => by
    rw [splitOn_cons_eq_if_modifyHead] at h
    split at h
    · rcases mem_cons.mp h with rfl | h
      · simp
      · exact not_mem_of_mem_splitOn h
    · rename_i other
      cases parts : cs.splitOn sep with
      | nil => exact absurd parts (splitOn_ne_nil sep cs)
      | cons first rest =>
        have inner : ∀ part ∈ first :: rest, sep ∉ part := fun part hp =>
          not_mem_of_mem_splitOn (parts ▸ hp)
        rw [parts, modifyHead_cons] at h
        rcases mem_cons.mp h with rfl | h
        · have fresh := inner first (.head _)
          have apart : sep ≠ c := fun same => other (by simp [same])
          simp [fresh, apart]
        · exact inner part (.tail _ h)

theorem mem_intercalate : ∀ {parts : List Text}, c ∈ [sep].intercalate parts →
    c = sep ∨ ∃ part ∈ parts, c ∈ part
  | [], h => by simp [intercalate_nil] at h
  | [part], h => by
    rw [intercalate_singleton] at h
    exact .inr ⟨part, mem_singleton_self part, h⟩
  | first :: second :: rest, h => by
    rw [intercalate_cons_cons] at h
    rcases mem_append.mp h with h | h
    · rcases mem_append.mp h with h | h
      · exact .inr ⟨first, .head _, h⟩
      · exact .inl (mem_singleton.mp h)
    · rcases mem_intercalate h with h | ⟨part, hp, h⟩
      · exact .inl h
      · exact .inr ⟨part, .tail _ hp, h⟩

end Text

end AzureSdk.Theory
