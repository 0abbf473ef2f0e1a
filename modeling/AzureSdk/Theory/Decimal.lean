/-
# Theory.Decimal — fixed-width integers as decimal text

`FromStr` and `Display` of the machine integers: an optional sign, at least one
decimal digit, and a value inside the width.
-/
import AzureSdk.Theory.Text

namespace AzureSdk.Theory.Decimal

/-- The value of a nonempty run of decimal digits. -/
def parseDigits (s : Text) : Option Nat :=
  if s ≠ [] ∧ s.all Char.isDigit then some (Nat.ofDigitChars 10 s 0) else none

/-- A value, if it is below the bound. -/
def fit (bound n : Nat) : Option (Fin bound) := if h : n < bound then some ⟨n, h⟩ else none

/-- `FromStr` of an unsigned integer below `bound`: one leading `+` is allowed. -/
def parseUnsigned (bound : Nat) (s : Text) : Option (Fin bound) :=
  (parseDigits (match s with
    | '+' :: rest => rest
    | s => s)).bind (fit bound)

/-- `FromStr` of a two's-complement integer from `-bound` to `bound - 1`. -/
def parseSigned (bound : Nat) (s : Text) : Option Int :=
  match s with
  | '-' :: rest => ((parseDigits rest).filter (fun n => decide (n ≤ bound))).map fun n => -(n : Int)
  | s => (parseUnsigned bound s).map fun n => (n : Int)

/-- `Display` of an unsigned integer. -/
def display (n : Nat) : Text := Nat.toDigits 10 n

variable {c : Char} {n bound : Nat}

theorem display_isDigit (h : c ∈ display n) : c.isDigit = true :=
  Nat.isDigit_of_mem_toDigits (by decide) (by decide) h

theorem display_ne_nil : display n ≠ [] := Nat.toDigits_ne_nil

theorem not_mem_display (other : c.isDigit = false) : c ∉ display n := by
  intro h
  rw [display_isDigit h] at other
  exact absurd other (by decide)

theorem parseDigits_display (n : Nat) : parseDigits (display n) = some n := by
  have digits : (display n).all Char.isDigit = true :=
    List.all_eq_true.mpr fun c hc => display_isDigit hc
  rw [parseDigits, if_pos ⟨display_ne_nil, digits⟩]
  exact congrArg some (Nat.ofDigitChars_toDigits (by decide) (by decide))

theorem parseUnsigned_display_eq_fit (bound n : Nat) :
    parseUnsigned bound (display n) = fit bound n := by
  have unsigned : ∀ rest, display n ≠ '+' :: rest := by
    intro rest h
    exact not_mem_display (n := n) (c := '+') (by decide) (h ▸ List.mem_cons_self)
  unfold parseUnsigned
  split
  · rename_i rest h
    exact absurd h (unsigned rest)
  · rw [parseDigits_display]
    rfl

theorem fit_some {m : Fin bound} (h : fit bound n = some m) : m.val = n := by
  unfold fit at h
  split at h
  · cases h
    rfl
  · exact absurd h (by simp)

theorem parseUnsigned_display (n : Fin bound) : parseUnsigned bound (display n) = some n := by
  rw [parseUnsigned_display_eq_fit]
  simp [fit]

/-- Displayed values that are not negative read back as signed integers. -/
theorem parseSigned_display (n : Fin bound) : parseSigned bound (display n) = some (n : Int) := by
  unfold parseSigned
  split
  · rename_i rest h
    exact absurd (h ▸ List.mem_cons_self) (not_mem_display (n := n) (c := '-') (by decide))
  · rw [parseUnsigned_display]
    rfl

/-- `{:0width}`: zeros in front, up to the width. -/
def padded (width n : Nat) : Text :=
  List.replicate (width - (display n).length) '0' ++ display n

theorem ofDigitChars_padded (width n : Nat) : Nat.ofDigitChars 10 (padded width n) 0 = n := by
  unfold padded
  generalize width - (display n).length = zeros
  induction zeros with
  | zero => exact Nat.ofDigitChars_toDigits (by decide) (by decide)
  | succ zeros ih => exact ih

theorem padded_inj {width m : Nat} (same : padded width n = padded width m) : n = m := by
  rw [← ofDigitChars_padded width n, same, ofDigitChars_padded]

theorem display_inj {m : Nat} (same : display n = display m) : n = m := by
  apply Option.some.inj
  rw [← parseDigits_display, same, parseDigits_display]

theorem padded_isDigit {width : Nat} (h : c ∈ padded width n) : c.isDigit = true := by
  rcases List.mem_append.mp h with h | h
  · rw [List.eq_of_mem_replicate h]
    decide
  · exact display_isDigit h

theorem length_padded_two : ∀ n < 100, (padded 2 n).length = 2 := by decide

theorem fit_val (n : Fin bound) : fit bound n = some n := by
  simp [fit]

end AzureSdk.Theory.Decimal
