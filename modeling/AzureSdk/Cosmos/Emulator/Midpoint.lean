/-
# Cosmos.Emulator.Midpoint — where the emulator cuts EPK ranges

A fresh container divides the hash space evenly; an automatic split bisects its parent.  Both work on
numbers: 126-bit ones, written as sixteen bytes, for V2 and multi-hash containers, and 32-bit ones,
written as V1 numbers, for V1 containers.  The sentinels `MIN` and `MAX` stand for the ends.

The spelling of V1 numbers is read back (`readSeptets_spell`), and so are doubles of 32-bit integers.

Bisecting standard bounds that are two apart gives a key strictly between them
(`bisectable_midpoint`).  Nothing checks this: bounds one apart, or bounds of other widths, which an
explicit split can bring in, give keys on or outside the parent's bounds.
-/
import Mathlib.Data.List.GetD
import AzureSdk.Cosmos.PartitionKey
import AzureSdk.Cosmos.Emulator.Store

namespace AzureSdk.Cosmos.Emulator

open Theory Theory.Bytes List Float64 EffectivePartitionKey

/-! ## V1 numbers -/

/-- The loop of `decode_v1_number_hex_to_u32`: seven bits to a byte, until the payload is full. -/
def readSeptets : Nat → List UInt8 → Nat
  | k + 1, b :: bytes => b.toNat / 2 * 2 ^ (7 * k) + readSeptets k bytes
  | _, _ => 0

/-- Reverses `encode_double_as_uint64`. -/
def decodeUint64AsDouble (encoded : Nat) : Float64 :=
  UInt64.ofNat (if 2 ^ 63 ≤ encoded then encoded - 2 ^ 63 else (2 ^ 64 - encoded) % 2 ^ 64)

/-- The 32-bit hash of a finite double in range. -/
def u32OfDouble (value : Float64) : Option Nat :=
  if !value.isFinite then none
  else if value.key < 0 ∨ (ofNat (2 ^ 32 - 1)).key < value.key then none
  else some (value.toInt 0 (2 ^ 32 - 1)).toNat

/-- `decode_v1_number_hex_to_u32`, on the bytes of the text. -/
def decodeV1NumberHexToU32 (bytes : List UInt8) : Option Nat :=
  match bytes with
  | marker :: high :: rest =>
    if marker ≠ v1NumberMarker then none
    else u32OfDouble (decodeUint64AsDouble (high.toNat * 2 ^ 56 + readSeptets 8 rest))
  | _ => none

/-! ## Boundaries and midpoints -/

/-- `{:032X}` of a 128-bit number, read as a key. -/
def epkOfU128 (n : Nat) : Epk := ⟨beBytes 16 n⟩

/-- A 32-bit hash as the leading number of a V1 key. -/
def epkOfV1Hash (n : Nat) : Epk := ⟨writeNumberV1Binary (ofNat n)⟩

def v2Boundaries (n : Nat) : List Epk :=
  (List.range' 1 (n - 1)).map fun i => epkOfU128 (2 ^ 126 / n * i)

def v1Boundaries (n : Nat) : List Epk :=
  (List.range' 1 (n - 1)).map fun i => epkOfV1Hash (2 ^ 32 / n * i % 2 ^ 32)

def computePartitionBoundaries (n : Nat) (kind : PartitionKeyKind) (version : PartitionKeyVersion) :
    List Epk :=
  if n ≤ 1 then []
  else
    match kind, version with
    | .hash, .v1 => v1Boundaries n
    | _, _ => v2Boundaries n

def isEpkMin (epk : Epk) : Bool := epk.bytes.all fun b => b == 0

def isEpkMax (epk : Epk) : Bool :=
  epk.bytes == [0xFF] || epk.bytes == List.replicate 16 0xFF

/-- A bound as a 128-bit number; `None` where the text does not fit. -/
def parseV2Bound (epk : Epk) : Option Nat :=
  if isEpkMin epk then some 0
  else if isEpkMax epk then some (2 ^ 126)
  else if ofBe epk.bytes < 2 ^ 128 then some (ofBe epk.bytes)
  else none

def computeEpkMidpointV2 (min max : Epk) : Option Epk := do
  let minVal ← parseV2Bound min
  let maxVal ← parseV2Bound max
  -- halving first loses a bit where both are odd
  let mid := minVal / 2 + maxVal / 2 + (minVal % 2) * (maxVal % 2)
  return epkOfU128 mid

/-- A bound as a 32-bit hash. -/
def parseV1Bound (epk : Epk) : Option Nat :=
  if isEpkMin epk then some 0
  else if isEpkMax epk then some (2 ^ 32 - 1)
  else decodeV1NumberHexToU32 epk.bytes

def computeEpkMidpointV1 (min max : Epk) : Option Epk := do
  let minVal ← parseV1Bound min
  let maxVal ← parseV1Bound max
  if maxVal ≤ minVal then none
  else return epkOfV1Hash ((minVal + maxVal) / 2)

def computeEpkMidpoint (min max : Epk) (kind : PartitionKeyKind) (version : PartitionKeyVersion) :
    Option Epk :=
  match kind, version with
  | .hash, .v1 => computeEpkMidpointV1 min max
  | .hash, .v2 => computeEpkMidpointV2 min max
  | .multiHash, _ => computeEpkMidpointV2 min max
  | .range, _ => none

/-! ## The spelling of V1 numbers -/

variable {n m i : Nat} {e : Epk} {kind : PartitionKeyKind} {version : PartitionKeyVersion}

theorem readSeptets_spell : ∀ {k n : Nat}, n < 2 ^ (7 * k) → readSeptets k (spell k n) = n
  | 0, n, small => by
    have zero : n = 0 := by simpa using small
    rw [zero]
    rfl
  | k + 1, n, small => by
    have split := Nat.div_add_mod' n (2 ^ (7 * k))
    rw [spell]
    split
    · rw [readSeptets, toNat_even (group_lt small), Nat.mul_div_cancel_left _ (by decide)]
      cases k <;> simp only [readSeptets] <;> omega
    · rw [readSeptets, toNat_odd (group_lt small),
        readSeptets_spell (Nat.mod_lt n (Nat.two_pow_pos _))]
      have half : (2 * (n / 2 ^ (7 * k)) + 1) / 2 = n / 2 ^ (7 * k) := by omega
      rw [half]
      exact split

/-! ## Hashes as V1 numbers -/

theorem encodeDoubleAsUint64_ofNat (small : n < 2 ^ 32) :
    encodeDoubleAsUint64 (ofNat n) = (ofNat n).toNat + 2 ^ 63 ∧
      (ofNat n).toNat < 2 ^ 63 := by
  have bits := toNat_ofNat_lt (n := n) (by omega)
  have below : (ofNat n).toNat < 2 ^ 63 := by omega
  exact ⟨if_pos below, below⟩

theorem epkOfV1Hash_lt (less : n < m) (small : m < 2 ^ 32) : epkOfV1Hash n < epkOfV1Hash m := by
  obtain ⟨encN, belowN⟩ := encodeDoubleAsUint64_ofNat (Nat.lt_trans less small)
  obtain ⟨encM, belowM⟩ := encodeDoubleAsUint64_ofNat small
  have bits := ofNat_lt less (by omega)
  exact lt_of_below (writeNumberV1Binary_below (by omega))

theorem decodeUint64AsDouble_encode (small : n < 2 ^ 32) :
    decodeUint64AsDouble (encodeDoubleAsUint64 (ofNat n)) = ofNat n := by
  obtain ⟨enc, below⟩ := encodeDoubleAsUint64_ofNat small
  rw [enc, decodeUint64AsDouble, if_pos (Nat.le_add_left _ _), Nat.add_sub_cancel]
  exact UInt64.ofNat_toNat

theorem u32OfDouble_ofNat (small : n < 2 ^ 32) : u32OfDouble (ofNat n) = some n := by
  have exact : n < 2 ^ 53 := by omega
  have top : (ofNat n).toNat ≤ (ofNat (2 ^ 32 - 1)).toNat :=
    ofNat_le (Nat.le_sub_one_of_lt small) (by decide)
  have finite := isFinite_ofNat (n := n) (by omega)
  have inRange : ¬ ((ofNat n).key < 0 ∨
      (ofNat (2 ^ 32 - 1)).key < (ofNat n).key) := by
    rw [key_ofNat (by omega), key_ofNat (by decide)]
    omega
  have number : (ofNat n).isNaN = false := by
    have below := of_decide_eq_true finite
    exact decide_eq_false (by omega)
  have clamped : (ofNat n).toInt 0 (2 ^ 32 - 1) = n := by
    rw [Float64.toInt, number, finite, truncate_ofNat exact]
    simp only [Bool.false_eq_true, if_false, if_true]
    omega
  rw [u32OfDouble, finite, if_neg inRange, clamped]
  rfl

theorem decodeV1_epkOfV1Hash (small : n < 2 ^ 32) :
    decodeV1NumberHexToU32 (epkOfV1Hash n).bytes = some n := by
  obtain ⟨enc, below⟩ := encodeDoubleAsUint64_ofNat small
  have high : (UInt8.ofNat (encodeDoubleAsUint64 (ofNat n) / 2 ^ 56)).toNat =
      encodeDoubleAsUint64 (ofNat n) / 2 ^ 56 := toNat_ofNat_of_lt (by omega)
  have low := readSeptets_spell (Nat.mod_lt (encodeDoubleAsUint64 (ofNat n))
    (Nat.two_pow_pos (7 * 8)))
  unfold epkOfV1Hash
  rw [writeNumberV1Binary_eq, decodeV1NumberHexToU32, if_neg (not_not_intro rfl), high, low,
    Nat.div_add_mod', decodeUint64AsDouble_encode small, u32OfDouble_ofNat small]

/-! ## Even grids of keys -/

/-- Numbers up to `top` written as keys, in their order and below `MAX`. -/
structure Grid where
  key : Nat → Epk
  top : Nat
  increasing : ∀ {n m}, n < m → m ≤ top → key n < key m
  below : ∀ {n}, n ≤ top → key n < .MAX

/-- A bound that stands for a number: a sentinel, or the number's own key. -/
inductive Grid.Bound (grid : Grid) : Epk → Nat → Prop
  | min : grid.Bound .MIN 0
  | max : grid.Bound .MAX grid.top
  | key {n : Nat} (small : n ≤ grid.top) : grid.Bound (grid.key n) n

variable {grid : Grid}

theorem Grid.Bound.le_top (bound : grid.Bound e n) : n ≤ grid.top := by
  cases bound with
  | min => exact Nat.zero_le _
  | max => exact Nat.le_refl _
  | key small => exact small

theorem Grid.Bound.lt_key (bound : grid.Bound e n)
    (less : n < m) (small : m ≤ grid.top) : e < grid.key m := by
  cases bound with
  | min => exact Std.lt_of_le_of_lt (min_le _) (grid.increasing less small)
  | max => omega
  | key _ => exact grid.increasing less small

theorem Grid.Bound.key_lt (bound : grid.Bound e n) (less : m < n) : grid.key m < e := by
  cases bound with
  | min => omega
  | max => exact grid.below (Nat.le_of_lt less)
  | key small => exact grid.increasing less small

theorem beBytes_lt {width n m : Nat} (less : n < m) (small : m < 256 ^ width) :
    (⟨beBytes width n⟩ : Epk) < ⟨beBytes width m⟩ := by
  rw [lt_iff_ofBe (by simp), ofBe_beBytes small,
    ofBe_beBytes (Nat.lt_trans less small)]
  exact less

def v2Grid : Grid where
  key := epkOfU128
  top := 2 ^ 126
  increasing less small := beBytes_lt less (Nat.lt_of_le_of_lt small (by decide))
  below {n} small := by
    refine cons_lt_cons.mpr (.inl ?_)
    have first : n / 256 ^ 15 < 256 := by omega
    rw [toNat_ofNat_of_lt first]
    have : (0xFF : UInt8).toNat = 255 := rfl
    omega

def v1Grid : Grid where
  key := epkOfV1Hash
  top := 2 ^ 32 - 1
  increasing less small := epkOfV1Hash_lt less (by omega)
  below {n} small := by
    unfold epkOfV1Hash
    rw [writeNumberV1Binary_eq]
    exact cons_lt_cons.mpr (.inl (by decide))

theorem ofBe_zeros : ∀ {bytes : List UInt8}, bytes.all (fun b => b == 0) = true → ofBe bytes = 0
  | [], _ => rfl
  | b :: bytes, zeros => by
    rw [all_cons, Bool.and_eq_true, beq_iff_eq] at zeros
    rw [ofBe, zeros.1, ofBe_zeros zeros.2]
    exact Nat.zero_mul _

theorem parseV2Bound_of_bound (bound : v2Grid.Bound e n) : parseV2Bound e = some n := by
  cases bound with
  | min => rfl
  | max => rfl
  | key small =>
    have small : n ≤ 2 ^ 126 := small
    have value : ofBe (beBytes 16 n) = n := ofBe_beBytes (by omega)
    have notMax : isEpkMax (epkOfU128 n) = false := by
      refine Bool.or_eq_false_iff.mpr ⟨beq_false_of_ne fun same => ?_, beq_false_of_ne fun same => ?_⟩
      · have width := congrArg List.length same
        rw [epkOfU128, length_beBytes] at width
        exact absurd width (by decide)
      · have all : ofBe (replicate 16 0xFF) = 2 ^ 128 - 1 := by decide
        rw [epkOfU128] at same
        rw [← same, value] at all
        omega
    show parseV2Bound (epkOfU128 n) = some n
    rw [parseV2Bound, notMax]
    split
    · rename_i zeros
      have zero : ofBe (beBytes 16 n) = 0 := ofBe_zeros zeros
      rw [← value, zero]
    · rw [if_neg Bool.false_ne_true, epkOfU128, value, if_pos (by omega)]

theorem parseV1Bound_of_bound (bound : v1Grid.Bound e n) : parseV1Bound e = some n := by
  cases bound with
  | min => rfl
  | max => rfl
  | key small =>
    have small : n ≤ 2 ^ 32 - 1 := small
    have spelled := writeNumberV1Binary_eq (ofNat n)
    have notMin : isEpkMin (epkOfV1Hash n) = false := by
      simp [isEpkMin, epkOfV1Hash, spelled, v1NumberMarker]
    have notMax : isEpkMax (epkOfV1Hash n) = false := by
      simp [isEpkMax, epkOfV1Hash, spelled, v1NumberMarker, replicate_succ]
    show parseV1Bound (epkOfV1Hash n) = some n
    rw [parseV1Bound, notMin, notMax, if_neg Bool.false_ne_true, if_neg Bool.false_ne_true]
    exact decodeV1_epkOfV1Hash (by omega)

/-- The grid a container's partitions are cut along. -/
def gridOf : PartitionKeyKind → PartitionKeyVersion → Grid
  | .hash, .v1 => v1Grid
  | _, _ => v2Grid

/-- The numbers a fresh container divides. -/
def gridSpace : PartitionKeyKind → PartitionKeyVersion → Nat
  | .hash, .v1 => 2 ^ 32
  | _, _ => 2 ^ 126

/-- The lower bound of partition `i` of `n` fresh ones, and `MAX` after the last. -/
def freshCut (n : Nat) (kind : PartitionKeyKind) (version : PartitionKeyVersion) (i : Nat) : Epk :=
  if i = 0 then .MIN
  else if i = n then .MAX
  else (gridOf kind version).key (gridSpace kind version / n * i)

theorem gridSpace_le (kind : PartitionKeyKind) (version : PartitionKeyVersion) :
    2 ^ 32 ≤ gridSpace kind version ∧ gridSpace kind version - 1 ≤ (gridOf kind version).top := by
  cases kind <;> cases version <;> decide

theorem step_lt {space : Nat} (few : n ≤ space) (less : i < n) :
    0 < space / n ∧ space / n * i < space := by
  have step : 0 < space / n := Nat.div_pos few (Nat.zero_lt_of_lt less)
  refine ⟨step, Nat.lt_of_lt_of_le (Nat.mul_lt_mul_of_pos_left less step) ?_⟩
  exact Nat.div_mul_le_self space n

theorem getD_map_range' (f : Nat → Epk) (positive : 0 < i) (less : i < n)
    (default : Epk) : ((range' 1 (n - 1)).map f).getD (i - 1) default = f i := by
  have bound : i - 1 < ((range' 1 (n - 1)).map f).length := by
    rw [length_map, length_range']
    omega
  rw [getD_eq_getElem _ _ bound, getElem_map, getElem_range']
  congr 1
  omega

theorem boundaries_getD (positive : 0 < i) (less : i < n) (few : n ≤ 2 ^ 32) (default : Epk) :
    (computePartitionBoundaries n kind version).getD (i - 1) default = freshCut n kind version i := by
  have several : ¬ n ≤ 1 := by omega
  have v2 : (v2Boundaries n).getD (i - 1) default = epkOfU128 (2 ^ 126 / n * i) :=
    getD_map_range' _ positive less default
  have v1 : (v1Boundaries n).getD (i - 1) default = epkOfV1Hash (2 ^ 32 / n * i) := by
    have small := (step_lt few less).2
    rw [v1Boundaries, getD_map_range' _ positive less default, Nat.mod_eq_of_lt small]
  rw [freshCut, if_neg (Nat.ne_of_gt positive), if_neg (Nat.ne_of_lt less)]
  unfold computePartitionBoundaries
  rw [if_neg several]
  match kind, version with
  | .hash, .v1 => exact v1
  | .hash, .v2 => exact v2
  | .multiHash, .v1 => exact v2
  | .multiHash, .v2 => exact v2
  | .range, .v1 => exact v2
  | .range, .v2 => exact v2

theorem freshCut_lt (less : i < n) (few : n ≤ 2 ^ 32) :
    freshCut n kind version i < freshCut n kind version (i + 1) := by
  obtain ⟨wide, top⟩ := gridSpace_le kind version
  have few := Nat.le_trans few wide
  obtain ⟨step, small⟩ := step_lt few less
  have bound : (gridOf kind version).Bound (freshCut n kind version i)
      (gridSpace kind version / n * i) := by
    unfold freshCut
    by_cases zero : i = 0
    · rw [if_pos zero, zero, Nat.mul_zero]
      exact .min
    · rw [if_neg zero, if_neg (Nat.ne_of_lt less)]
      exact .key (by omega)
  by_cases last : i + 1 = n
  · have upper : freshCut n kind version (i + 1) = .MAX := by
      rw [freshCut, if_neg (Nat.succ_ne_zero i), if_pos last]
    rw [upper, freshCut]
    by_cases zero : i = 0
    · rw [if_pos zero]
      decide
    · rw [if_neg zero, if_neg (Nat.ne_of_lt less)]
      exact (gridOf kind version).below (by omega)
  · have more := (step_lt few (by omega : i + 1 < n)).2
    have upper : freshCut n kind version (i + 1) =
        (gridOf kind version).key (gridSpace kind version / n * (i + 1)) := by
      rw [freshCut, if_neg (Nat.succ_ne_zero i), if_neg last]
    rw [upper]
    exact bound.lt_key (Nat.mul_lt_mul_of_pos_left (Nat.lt_succ_self i) step) (by omega)

/-- Bounds on the grid that are at least two apart. -/
def Grid.Bisectable (grid : Grid) (min max : Epk) : Prop :=
  ∃ a b, grid.Bound min a ∧ grid.Bound max b ∧ a + 2 ≤ b

theorem half_sum (a b : Nat) : a / 2 + b / 2 + a % 2 * (b % 2) = (a + b) / 2 := by
  rcases Nat.mod_two_eq_zero_or_one a with even | odd
  · rw [even, Nat.zero_mul]
    omega
  · rw [odd, Nat.one_mul]
    omega

theorem computeEpkMidpoint_grid {min max : Epk} {a b : Nat} (supported : kind ≠ .range)
    (lower : (gridOf kind version).Bound min a) (upper : (gridOf kind version).Bound max b)
    (apart : a < b) :
    computeEpkMidpoint min max kind version = some ((gridOf kind version).key ((a + b) / 2)) := by
  have v2 : ∀ {lo hi : Epk}, v2Grid.Bound lo a → v2Grid.Bound hi b →
      computeEpkMidpointV2 lo hi = some (epkOfU128 ((a + b) / 2)) := by
    intro lo hi atLo atHi
    rw [computeEpkMidpointV2, parseV2Bound_of_bound atLo, parseV2Bound_of_bound atHi, ← half_sum]
    rfl
  match kind, version with
  | .hash, .v1 =>
    show computeEpkMidpointV1 min max = _
    rw [computeEpkMidpointV1, parseV1Bound_of_bound lower, parseV1Bound_of_bound upper]
    exact if_neg (Nat.not_le_of_lt apart)
  | .hash, .v2 => exact v2 lower upper
  | .multiHash, .v1 => exact v2 lower upper
  | .multiHash, .v2 => exact v2 lower upper
  | .range, _ => exact absurd rfl supported

theorem bisectable_midpoint {min max mid : Epk} (standard : (gridOf kind version).Bisectable min max)
    (found : computeEpkMidpoint min max kind version = some mid) : min < mid ∧ mid < max := by
  obtain ⟨a, b, lower, upper, apart⟩ := standard
  have supported : kind ≠ .range := by
    rintro rfl
    exact absurd found (by simp [computeEpkMidpoint])
  rw [computeEpkMidpoint_grid supported lower upper (by omega), Option.some.injEq] at found
  rw [← found]
  have top := upper.le_top
  exact ⟨lower.lt_key (by omega) (by omega), upper.key_lt (by omega)⟩

end AzureSdk.Cosmos.Emulator
