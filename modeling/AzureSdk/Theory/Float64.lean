/-
# Theory.Float64 — doubles by their bits

A double is its bit pattern.  Without the sign bit, patterns are ordered as the magnitudes
they stand for; the sign turns that order round, and the two zeros meet.  Two doubles are
equal, or less, if their keys are (`key`); a NaN is neither.

Integers are rounded to the nearest double, ties to the even one; doubles are cut off
towards zero and clamped.
-/
import Mathlib.Algebra.Order.Ring.Int

namespace AzureSdk.Theory

abbrev Float64 := UInt64

namespace Float64

/-- The bits without the sign. -/
def magnitude (x : Float64) : Nat := x.toNat % 2 ^ 63

def isNegative (x : Float64) : Bool := decide (2 ^ 63 ≤ x.toNat)

/-- The magnitude of the infinities; above it are the NaNs. -/
def infinity : Nat := 2047 * 2 ^ 52

def isNaN (x : Float64) : Bool := decide (infinity < x.magnitude)

def isFinite (x : Float64) : Bool := decide (x.magnitude < infinity)

/-- Where the number stands among all. -/
def key (x : Float64) : Int := if x.isNegative then -(x.magnitude : Int) else x.magnitude

/-- `==`. -/
def eq (a b : Float64) : Bool := !a.isNaN && !b.isNaN && a.key == b.key

/-- `partial_cmp`. -/
def cmp (a b : Float64) : Option Ordering :=
  if a.isNaN || b.isNaN then none else some (compare a.key b.key)

def neg (x : Float64) : Float64 := x ^^^ 0x8000000000000000

variable {a b : Float64} {n : Nat}

theorem eq_iff : eq a b = true ↔ a.isNaN = false ∧ b.isNaN = false ∧ a.key = b.key := by
  simp [eq, and_assoc]

theorem eq_refl {x : Float64} (finite : x.isFinite = true) : eq x x = true := by
  have below := of_decide_eq_true finite
  refine eq_iff.mpr ⟨?_, ?_, rfl⟩ <;> exact decide_eq_false (by omega)

theorem eq_symm (h : eq a b = true) : eq b a = true := by
  obtain ⟨ha, hb, same⟩ := eq_iff.mp h
  exact eq_iff.mpr ⟨hb, ha, same.symm⟩

theorem eq_trans {c : Float64} (ab : eq a b = true) (bc : eq b c = true) : eq a c = true := by
  obtain ⟨ha, _, left⟩ := eq_iff.mp ab
  obtain ⟨_, hc, right⟩ := eq_iff.mp bc
  exact eq_iff.mpr ⟨ha, hc, left.trans right⟩

/-! ## Integers -/

variable (x : Float64)

/-- The exponent field, and the significand with its hidden bit: the magnitude is
`significand * 2 ^ (scale - 1075)`. -/
def exponent : Nat := x.magnitude / 2 ^ 52

def significand : Nat :=
  if x.exponent = 0 then x.magnitude else 2 ^ 52 + x.magnitude % 2 ^ 52

def scale : Nat := max x.exponent 1

/-- `fract() == 0.0`. -/
def isIntegral : Bool :=
  x.isFinite && decide (x.significand % 2 ^ (1075 - x.scale) = 0)

/-- The integer part of a finite number. -/
def truncate : Int :=
  let whole : Nat := x.significand * 2 ^ (x.scale - 1075) / 2 ^ (1075 - x.scale)
  if x.isNegative then -(whole : Int) else whole

/-- `as`, to an integer type with these bounds. -/
def toInt (least greatest : Int) (x : Float64) : Int :=
  if x.isNaN then 0
  else if x.isFinite then max least (min x.truncate greatest)
  else if x.isNegative then least
  else greatest

/-- `as i64`. -/
def toI64 (x : Float64) : Int64 := Int64.ofInt (x.toInt (-2 ^ 63) (2 ^ 63 - 1))

/-- `as usize`. -/
def toUsize (x : Float64) : Nat := (x.toInt 0 (2 ^ 64 - 1)).toNat

/-- `n / 2 ^ shift`, to the nearest integer and ties to the even one. -/
def shiftRound (n shift : Nat) : Nat :=
  let q := n / 2 ^ shift
  let rest := 2 * (n % 2 ^ shift)
  if 2 ^ shift < rest ∨ (rest = 2 ^ shift ∧ q % 2 = 1) then q + 1 else q

/-- The nearest double; a carry of the significand goes on into the exponent. -/
def ofNat (n : Nat) : Float64 :=
  if n = 0 then 0
  else
    let high := Nat.log2 n
    let significand := if high ≤ 52 then n * 2 ^ (52 - high) else shiftRound n (high - 52)
    UInt64.ofNat ((high + 1023) * 2 ^ 52 + significand - 2 ^ 52)

def ofInt (i : Int) : Float64 := if i < 0 then (ofNat i.natAbs).neg else ofNat i.natAbs

/-! Rounding keeps the order of integers, and one of at most 53 bits is held exactly. -/

theorem significand_bounds (positive : n ≠ 0) (small : n < 2 ^ 53) :
    Nat.log2 n ≤ 52 ∧ 2 ^ 52 ≤ n * 2 ^ (52 - Nat.log2 n) ∧ n * 2 ^ (52 - Nat.log2 n) < 2 ^ 53 := by
  have low : 2 ^ Nat.log2 n ≤ n := Nat.log2_self_le positive
  have high : n < 2 ^ (Nat.log2 n + 1) := Nat.lt_log2_self
  have fits : Nat.log2 n ≤ 52 := by
    have := (Nat.log2_lt positive).mpr small
    omega
  have split : 2 ^ Nat.log2 n * 2 ^ (52 - Nat.log2 n) = 2 ^ 52 := by
    rw [← Nat.pow_add]
    congr 1
    omega
  have positive : 0 < 2 ^ (52 - Nat.log2 n) := Nat.pow_pos (by decide)
  refine ⟨fits, ?_, ?_⟩
  · rw [← split]
    exact Nat.mul_le_mul_right _ low
  · have := Nat.mul_lt_mul_of_pos_right high positive
    rw [Nat.pow_succ, Nat.mul_right_comm, split] at this
    omega

theorem shiftRound_le {m shift : Nat} (le : n ≤ m) : shiftRound n shift ≤ shiftRound m shift := by
  have whole := Nat.div_le_div_right (c := 2 ^ shift) le
  have left := Nat.div_add_mod n (2 ^ shift)
  have right := Nat.div_add_mod m (2 ^ shift)
  simp only [shiftRound]
  rcases Nat.lt_or_eq_of_le whole with less | same
  · split <;> split <;> omega
  · rw [same] at left ⊢
    have rest : n % 2 ^ shift ≤ m % 2 ^ shift := by omega
    split <;> split <;> omega

/-- The significand with its hidden bit; the carry makes it `2 ^ 53`. -/
def rounded (n : Nat) : Nat :=
  if Nat.log2 n ≤ 52 then n * 2 ^ (52 - Nat.log2 n) else shiftRound n (Nat.log2 n - 52)

theorem rounded_bounds (positive : n ≠ 0) : 2 ^ 52 ≤ rounded n ∧ rounded n ≤ 2 ^ 53 := by
  have low : 2 ^ Nat.log2 n ≤ n := Nat.log2_self_le positive
  have high : n < 2 ^ (Nat.log2 n + 1) := Nat.lt_log2_self
  unfold rounded
  split
  · have small : n < 2 ^ 53 := Nat.lt_of_lt_of_le high (Nat.pow_le_pow_right (by decide) (by omega))
    have bounds := significand_bounds positive small
    exact ⟨bounds.2.1, Nat.le_of_lt bounds.2.2⟩
  · obtain ⟨shift, is⟩ : ∃ shift, Nat.log2 n = 52 + shift := ⟨_, (Nat.add_sub_of_le (by omega)).symm⟩
    rw [is, Nat.add_sub_cancel_left]
    rw [is, Nat.pow_add] at low
    rw [is, Nat.add_right_comm, Nat.pow_add] at high
    have positive : 0 < 2 ^ shift := Nat.two_pow_pos shift
    have least := (Nat.le_div_iff_mul_le positive).mpr low
    have most := (Nat.div_lt_iff_lt_mul positive).mpr high
    simp only [shiftRound]
    split <;> omega

theorem toNat_ofNat_rounded (positive : n ≠ 0) (fits : n < 2 ^ 64) :
    (ofNat n).toNat = (Nat.log2 n + 1022) * 2 ^ 52 + rounded n := by
  have bounds := rounded_bounds positive
  have top := (Nat.log2_lt positive).mpr fits
  rw [ofNat, if_neg positive]
  show (UInt64.ofNat ((Nat.log2 n + 1023) * 2 ^ 52 + rounded n - 2 ^ 52)).toNat = _
  rw [UInt64.toNat_ofNat', Nat.mod_eq_of_lt (by omega)]
  omega

theorem toNat_ofNat (positive : n ≠ 0) (small : n < 2 ^ 53) :
    (ofNat n).toNat = (Nat.log2 n + 1022) * 2 ^ 52 + n * 2 ^ (52 - Nat.log2 n) := by
  obtain ⟨fits, low, high⟩ := significand_bounds positive small
  rw [toNat_ofNat_rounded positive (by omega), rounded, if_pos fits]

theorem toNat_ofNat_zero : (ofNat 0).toNat = 0 := rfl

theorem toNat_ofNat_lt (fits : n < 2 ^ 64) : (ofNat n).toNat < 1088 * 2 ^ 52 := by
  by_cases positive : n = 0
  · rw [positive, toNat_ofNat_zero]
    decide
  · have bounds := rounded_bounds positive
    have top := (Nat.log2_lt positive).mpr fits
    rw [toNat_ofNat_rounded positive fits]
    omega

theorem ofNat_le {m : Nat} (le : n ≤ m) (fits : m < 2 ^ 64) :
    (ofNat n).toNat ≤ (ofNat m).toNat := by
  by_cases zero : n = 0
  · rw [zero]
    exact Nat.zero_le _
  have positive : m ≠ 0 := by omega
  have left := rounded_bounds zero
  have right := rounded_bounds positive
  rw [toNat_ofNat_rounded zero (by omega), toNat_ofNat_rounded positive fits]
  rcases Nat.lt_or_ge (Nat.log2 n) (Nat.log2 m) with lower | same
  · omega
  · have equal : Nat.log2 n = Nat.log2 m := by
      have := (Nat.log2_lt zero (k := Nat.log2 m + 1)).mpr (Nat.lt_of_le_of_lt le Nat.lt_log2_self)
      omega
    have mono : rounded n ≤ rounded m := by
      unfold rounded
      rw [equal]
      split
      · exact Nat.mul_le_mul_right _ le
      · exact shiftRound_le le
    omega

theorem ofNat_lt {m : Nat} (less : n < m) (small : m < 2 ^ 53) :
    (ofNat n).toNat < (ofNat m).toNat := by
  have positive : m ≠ 0 := by omega
  obtain ⟨fits, low, high⟩ := significand_bounds positive small
  rw [toNat_ofNat positive small]
  by_cases zero : n = 0
  · rw [zero, toNat_ofNat_zero]
    omega
  · obtain ⟨fits', low', high'⟩ := significand_bounds zero (by omega)
    rw [toNat_ofNat zero (by omega)]
    rcases Nat.lt_or_ge (Nat.log2 n) (Nat.log2 m) with lower | same
    · omega
    · have equal : Nat.log2 n = Nat.log2 m := by
        have := (Nat.log2_lt zero (k := Nat.log2 m + 1)).mpr
          (Nat.lt_trans less Nat.lt_log2_self)
        omega
      rw [equal]
      have := Nat.mul_lt_mul_of_pos_right less (Nat.pow_pos (n := 52 - Nat.log2 m) (by decide : 0 < 2))
      omega

section

variable (fits : n < 2 ^ 64)

include fits

theorem magnitude_ofNat : (ofNat n).magnitude = (ofNat n).toNat := by
  have := toNat_ofNat_lt fits
  exact Nat.mod_eq_of_lt (by omega)

theorem isNegative_ofNat : (ofNat n).isNegative = false := by
  have := toNat_ofNat_lt fits
  exact decide_eq_false (by omega)

theorem key_ofNat : (ofNat n).key = (ofNat n).toNat := by
  rw [key, isNegative_ofNat fits, magnitude_ofNat fits]
  rfl

theorem isFinite_ofNat : (ofNat n).isFinite = true := by
  have := toNat_ofNat_lt fits
  refine decide_eq_true ?_
  rw [magnitude_ofNat fits, infinity]
  omega

end

theorem truncate_ofNat (small : n < 2 ^ 53) : (ofNat n).truncate = n := by
  by_cases zero : n = 0
  · have nothing : (ofNat 0).significand = 0 := rfl
    rw [zero, truncate, isNegative_ofNat (by decide), nothing, Nat.zero_mul, Nat.zero_div]
    rfl
  · obtain ⟨fits, low, high⟩ := significand_bounds zero small
    have bits := toNat_ofNat zero small
    have field : (ofNat n).exponent = Nat.log2 n + 1023 := by
      rw [exponent, magnitude_ofNat (by omega), bits]
      omega
    have full : (ofNat n).significand = n * 2 ^ (52 - Nat.log2 n) := by
      rw [significand, field, if_neg (by omega), magnitude_ofNat (by omega), bits]
      omega
    have placed : (ofNat n).scale = Nat.log2 n + 1023 := by
      rw [scale, field]
      omega
    have up : Nat.log2 n + 1023 - 1075 = 0 := by omega
    have down : 1075 - (Nat.log2 n + 1023) = 52 - Nat.log2 n := by
      rw [Nat.add_comm, ← Nat.sub_sub]
    rw [truncate, isNegative_ofNat (by omega)]
    simp only [full, placed, up, down, Nat.pow_zero, Nat.mul_one]
    rw [Nat.mul_div_cancel _ (Nat.two_pow_pos _)]
    rfl

/-- `i64 as f64`. -/
def ofI64 (i : Int64) : Float64 := ofInt i.toInt

theorem magnitude_neg : a.neg.magnitude = a.magnitude := by
  rw [magnitude, neg, UInt64.toNat_xor, Nat.xor_mod_two_pow]
  exact Nat.xor_zero _

theorem key_neg (positive : a.isNegative = false) : a.neg.key = -a.key := by
  have small : a.toNat < 2 ^ 63 := by simpa [isNegative] using positive
  have turned : a.neg.toNat / 2 ^ 63 = 1 := by
    rw [neg, UInt64.toNat_xor, Nat.xor_div_two_pow, Nat.div_eq_of_lt small]
    rfl
  have negative : a.neg.isNegative = true := decide_eq_true (by omega)
  rw [key, negative, if_pos rfl, key, positive, magnitude_neg]
  rfl

theorem isNaN_ofI64 (i : Int64) : (ofI64 i).isNaN = false := by
  have low := Int64.le_toInt i
  have high := Int64.toInt_lt i
  have same : (ofI64 i).magnitude = (ofNat i.toInt.natAbs).magnitude := by
    unfold ofI64 ofInt
    split
    · exact magnitude_neg
    · rfl
  have finite := of_decide_eq_true (isFinite_ofNat (n := i.toInt.natAbs) (by omega))
  exact decide_eq_false (by omega)

/-- Integers are ordered as the doubles they are rounded to, up to equality. -/
theorem key_ofI64_le {i j : Int64} (le : i.toInt ≤ j.toInt) : (ofI64 i).key ≤ (ofI64 j).key := by
  have low := Int64.le_toInt i
  have high := Int64.toInt_lt j
  unfold ofI64 ofInt
  split
  · rw [key_neg (isNegative_ofNat (by omega)), key_ofNat (by omega)]
    split
    · have := ofNat_le (n := j.toInt.natAbs) (m := i.toInt.natAbs) (by omega) (by omega)
      rw [key_neg (isNegative_ofNat (by omega)), key_ofNat (by omega)]
      omega
    · rw [key_ofNat (by omega)]
      omega
  · rw [if_neg (by omega), key_ofNat (by omega), key_ofNat (by omega)]
    have := ofNat_le (n := i.toInt.natAbs) (m := j.toInt.natAbs) (by omega) (by omega)
    omega

-- 1.0, -2.0, 2^53 + 1 rounds to 2^53, 2^53 + 3 to 2^53 + 4, and 1.5 is cut off
example : ofI64 1 = 0x3FF0000000000000 ∧ ofI64 (-2) = 0xC000000000000000 ∧
    ofI64 9007199254740993 = ofI64 9007199254740992 ∧
    ofI64 9007199254740995 = ofI64 9007199254740996 ∧
    toI64 0x3FF8000000000000 = 1 ∧ isIntegral 0x3FF8000000000000 = false ∧
    toI64 (ofI64 (-9007199254740992)) = -9007199254740992 := by
  decide +kernel

end Float64

end AzureSdk.Theory
