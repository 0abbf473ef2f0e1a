/-
# Cosmos.EffectivePartitionKey — hashed keys, their order and their hex form

An effective partition key (EPK) is a byte string.  Its derived equality is
bytewise, but its order is length-aware: `cmp` treats two keys as equal when one
is a prefix of the other and the remaining bytes are zero.  Order and equality
therefore disagree, and every proof about ranges has to live with the preorder.

What the order means is said by `zeroExtend`: at any width that holds both keys `cmp` is
the lexicographic comparison of the zero-padded bytes (`cmp_eq_compare`), and the preorder
laws are those of that comparison.

Continuation tokens carry keys as hex text; `ofHex_toHex` says nothing is lost.  A successor is
the next key of its width (`incrementBe_next`), unless the carry leaves the key.
-/
import AzureSdk.Theory.Bytes
import Mathlib.Data.List.Basic

namespace AzureSdk.Cosmos

open Theory.Bytes List Std

/-- `EffectivePartitionKey(Cow<[u8]>)`; equality is the derived, bytewise one. -/
structure EffectivePartitionKey where
  bytes : List UInt8
  deriving DecidableEq, Repr

namespace EffectivePartitionKey

/-- The start of the EPK space. -/
def MIN : EffectivePartitionKey := ⟨[]⟩

/-- The exclusive end of the EPK space. -/
def MAX : EffectivePartitionKey := ⟨[0xFF]⟩

/-! ## The length-aware order -/

/-- `Ord::cmp`: compare the common part, then look for a nonzero byte in the rest of
the longer key. -/
def cmp (self other : EffectivePartitionKey) : Ordering :=
  let a := self.bytes
  let b := other.bytes
  let common := min a.length b.length
  match compare (a.take common) (b.take common) with
  | .eq =>
    let tail := if b.length < a.length then a.drop common else b.drop common
    if tail.all (fun byte => byte == 0) then .eq
    else if b.length < a.length then .gt
    else .lt
  | other => other

instance : LE EffectivePartitionKey := ⟨fun a b => cmp a b ≠ .gt⟩
instance : LT EffectivePartitionKey := ⟨fun a b => cmp a b = .lt⟩

instance : DecidableLE EffectivePartitionKey := fun a b =>
  inferInstanceAs (Decidable (cmp a b ≠ .gt))
instance : DecidableLT EffectivePartitionKey := fun a b =>
  inferInstanceAs (Decidable (cmp a b = .lt))

/-- `cmp` by recursion on the bytes, as the proofs use it. -/
def cmpBytes : List UInt8 → List UInt8 → Ordering
  | a :: as, b :: bs => (compare a b).then (cmpBytes as bs)
  | as, [] => if as.all (fun byte => byte == 0) then .eq else .gt
  | [], bs => if bs.all (fun byte => byte == 0) then .eq else .lt

theorem cmp_eq_cmpBytes : ∀ as bs : List UInt8, cmp ⟨as⟩ ⟨bs⟩ = cmpBytes as bs
  | [], [] => rfl
  | [], b :: bs => by simp [cmp, cmpBytes]
  | a :: as, [] => by simp [cmp, cmpBytes]
  | a :: as, b :: bs => by
    rw [cmpBytes, ← cmp_eq_cmpBytes as bs]
    have common : min (as.length + 1) (bs.length + 1) = min as.length bs.length + 1 := by omega
    simp only [cmp, length_cons, common, take_succ_cons, List.compare_cons_cons,
      drop_succ_cons, Nat.add_lt_add_iff_right]
    cases compare a b <;> rfl

variable {as bs : List UInt8} {a b : EffectivePartitionKey}

/-- A key of width `w`: its bytes, right-padded with zeros. -/
def zeroExtend (w : Nat) (bytes : List UInt8) : List UInt8 :=
  bytes ++ List.replicate (w - bytes.length) 0

theorem zeroExtend_cons (w : Nat) (x : UInt8) :
    zeroExtend (w + 1) (x :: as) = x :: zeroExtend w as := by
  simp [zeroExtend]

theorem zeroExtend_nil (w : Nat) : zeroExtend (w + 1) [] = 0 :: zeroExtend w [] := by
  simp [zeroExtend, replicate_succ]

theorem zeroExtend_append {w m : Nat} (wide : as.length + m ≤ w) :
    zeroExtend w (as ++ replicate m 0) = zeroExtend w as := by
  simp only [zeroExtend, append_assoc, replicate_append_replicate, length_append,
    length_replicate]
  congr 2
  omega

/-- Induction on the width: one byte of each key at a time, zero where a key has ended. -/
theorem cmpBytes_zeroExtend : ∀ {w : Nat} {as bs : List UInt8}, as.length ≤ w → bs.length ≤ w →
    cmpBytes as bs = compare (zeroExtend w as) (zeroExtend w bs)
  | w, [], [], _, _ => by simp [cmpBytes]
  | w + 1, [], b :: bs, _, right => by
    rw [zeroExtend_cons, zeroExtend_nil, List.compare_cons_cons,
      ← cmpBytes_zeroExtend (Nat.zero_le w) (by simpa using right)]
    by_cases zero : b = 0
    · cases bs <;> simp [cmpBytes, zero]
    · have positive : (0 : UInt8) < b := UInt8.pos_iff_ne_zero.mpr zero
      simp [cmpBytes, zero, compare_eq_lt.mpr positive]
  | w + 1, a :: as, [], left, _ => by
    rw [zeroExtend_cons, zeroExtend_nil, List.compare_cons_cons,
      ← cmpBytes_zeroExtend (by simpa using left) (Nat.zero_le w)]
    by_cases zero : a = 0
    · cases as <;> simp [cmpBytes, zero]
    · have positive : (0 : UInt8) < a := UInt8.pos_iff_ne_zero.mpr zero
      simp [cmpBytes, zero, compare_eq_gt.mpr positive]
  | w + 1, a :: as, b :: bs, left, right => by
    rw [zeroExtend_cons, zeroExtend_cons, List.compare_cons_cons, cmpBytes,
      cmpBytes_zeroExtend (by simpa using left) (by simpa using right)]

theorem cmp_eq_compare {w : Nat} (left : a.bytes.length ≤ w) (right : b.bytes.length ≤ w) :
    cmp a b = compare (zeroExtend w a.bytes) (zeroExtend w b.bytes) := by
  rw [← cmpBytes_zeroExtend left right, ← cmp_eq_cmpBytes]

theorem cmp_swap (a b : EffectivePartitionKey) : cmp b a = (cmp a b).swap := by
  have left := Nat.le_max_left a.bytes.length b.bytes.length
  have right := Nat.le_max_right a.bytes.length b.bytes.length
  rw [cmp_eq_compare left right, cmp_eq_compare right left]
  exact Std.OrientedCmp.eq_swap

instance : Std.IsLinearPreorder EffectivePartitionKey where
  le_refl a := by
    intro above
    have back := cmp_swap a a
    rw [above] at back
    cases back
  le_trans a b c ab bc := by
    -- at a width that holds all three
    obtain ⟨w, ha, hb, hc⟩ : ∃ w, a.bytes.length ≤ w ∧ b.bytes.length ≤ w ∧ c.bytes.length ≤ w :=
      ⟨a.bytes.length + b.bytes.length + c.bytes.length, by omega, by omega, by omega⟩
    have first := Ordering.isLE_iff_ne_gt.mpr ab
    have second := Ordering.isLE_iff_ne_gt.mpr bc
    rw [cmp_eq_compare ha hb] at first
    rw [cmp_eq_compare hb hc] at second
    refine Ordering.isLE_iff_ne_gt.mp ?_
    rw [cmp_eq_compare ha hc]
    exact Std.TransCmp.isLE_trans first second
  le_total a b := by
    change cmp a b ≠ .gt ∨ cmp b a ≠ .gt
    rw [cmp_swap a b]
    cases cmp a b <;> decide

instance : Std.LawfulOrderLT EffectivePartitionKey where
  lt_iff a b := by
    change cmp a b = .lt ↔ cmp a b ≠ .gt ∧ ¬ cmp b a ≠ .gt
    rw [cmp_swap a b]
    cases cmp a b <;> decide

theorem cmp_eq_lt : cmp a b = .lt ↔ a < b := Iff.rfl

theorem cmp_eq_gt : cmp a b = .gt ↔ b < a := by
  change _ ↔ cmp b a = .lt
  rw [cmp_swap a b]
  cases cmp a b <;> decide

theorem cmp_eq_eq : cmp a b = .eq ↔ a ≤ b ∧ b ≤ a := by
  change _ ↔ cmp a b ≠ .gt ∧ cmp b a ≠ .gt
  rw [cmp_swap a b]
  cases cmp a b <;> decide

theorem min_le (e : EffectivePartitionKey) : MIN ≤ e := by
  change cmp ⟨[]⟩ ⟨e.bytes⟩ ≠ .gt
  rw [cmp_eq_cmpBytes]
  cases e.bytes with
  | nil => decide
  | cons b bs =>
    rw [cmpBytes]
    · split <;> decide
    · simp

theorem cons_lt_cons {a b : UInt8} : (⟨a :: as⟩ : EffectivePartitionKey) < ⟨b :: bs⟩ ↔
      a.toNat < b.toNat ∨ a.toNat = b.toNat ∧ (⟨as⟩ : EffectivePartitionKey) < ⟨bs⟩ := by
  change cmp _ _ = .lt ↔ _ ∨ _ ∧ cmp _ _ = .lt
  rw [cmp_eq_cmpBytes, cmp_eq_cmpBytes, cmpBytes, UInt8.compare_eq_toNat_compare_toNat,
    Ordering.then_eq_lt, Nat.compare_eq_lt, Nat.compare_eq_eq]

/-- Keys of one width are ordered as the numbers they spell. -/
theorem lt_iff_ofBe : ∀ {as bs : List UInt8}, as.length = bs.length →
    ((⟨as⟩ : EffectivePartitionKey) < ⟨bs⟩ ↔ ofBe as < ofBe bs)
  | [], [], _ => by decide
  | a :: as, b :: bs, same => by
    have width : as.length = bs.length := by simpa using same
    have left := ofBe_lt as
    have right := ofBe_lt bs
    rw [cons_lt_cons, lt_iff_ofBe width, ofBe, ofBe, width]
    rw [width] at left
    generalize 256 ^ bs.length = unit at left right
    -- a difference of the first bytes outweighs the rest
    rcases Nat.lt_trichotomy a.toNat b.toNat with less | equal | more
    · have := Nat.mul_le_mul_right unit less
      rw [Nat.succ_mul] at this
      omega
    · rw [equal]
      omega
    · have := Nat.mul_le_mul_right unit more
      rw [Nat.succ_mul] at this
      omega

/-! ## Truncated and full-width keys -/

/-- Written truncated or with further zero bytes, a key has the same place in the order. -/
theorem cmp_append_zeros (m n : Nat) :
    cmp ⟨a.bytes ++ replicate m 0⟩ ⟨b.bytes ++ replicate n 0⟩ = cmp a b := by
  obtain ⟨w, left, right⟩ : ∃ w, a.bytes.length + m ≤ w ∧ b.bytes.length + n ≤ w :=
    ⟨a.bytes.length + m + (b.bytes.length + n), Nat.le_add_right .., Nat.le_add_left ..⟩
  rw [cmp_eq_compare (by simpa using left) (by simpa using right), zeroExtend_append left,
    zeroExtend_append right]
  exact (cmp_eq_compare (by omega) (by omega)).symm

theorem cmp_zeroExtend_self (w : Nat) : cmp a ⟨zeroExtend w a.bytes⟩ = .eq := by
  have same := @cmp_append_zeros a a 0 (w - a.bytes.length)
  rw [replicate_zero, append_nil] at same
  exact same.trans (cmp_eq_eq.mpr ⟨le_refl a, le_refl a⟩)

theorem eq_up_to_zeros (ab : a ≤ b) (ba : b ≤ a) :
    ∃ m n, a.bytes ++ replicate m 0 = b.bytes ++ replicate n 0 := by
  have same := cmp_eq_eq.mpr ⟨ab, ba⟩
  rw [cmp_eq_compare (Nat.le_max_left _ b.bytes.length) (Nat.le_max_right _ _)] at same
  exact ⟨_, _, Std.LawfulEqOrd.eq_of_compare same⟩

/-- **The order of keys is comparison at full width.**  At every width that holds both keys
`cmp` is the lexicographic comparison of the zero-padded bytes.  It is therefore a total
preorder in which two keys are equal only up to trailing zeros, and a key may be replaced by a
longer or shorter spelling of it in any comparison. -/
theorem cmp_is_zero_extended_order (a b c : EffectivePartitionKey) (w : Nat)
    (left : a.bytes.length ≤ w) (right : b.bytes.length ≤ w) :
    cmp a b = compare (zeroExtend w a.bytes) (zeroExtend w b.bytes) ∧
    cmp a a = .eq ∧
    cmp b a = (cmp a b).swap ∧
    (a ≤ b → b ≤ a → ∃ m n, a.bytes ++ List.replicate m 0 = b.bytes ++ List.replicate n 0) ∧
    (a ≤ b → b ≤ c → a ≤ c) ∧
    (a ≤ b ∨ b ≤ a) ∧
    ∀ m n, cmp ⟨a.bytes ++ List.replicate m 0⟩ ⟨b.bytes ++ List.replicate n 0⟩ = cmp a b := by
  have padded := cmp_eq_compare left right
  exact ⟨padded, cmp_eq_eq.mpr ⟨Std.le_refl a, Std.le_refl a⟩, cmp_swap a b, eq_up_to_zeros,
    Std.le_trans, Std.le_total, cmp_append_zeros⟩

/-- A truncated key, its full-width spelling and `MAX`, at width four. -/
theorem truncated_below_max :
    cmp ⟨[0x06, 0xAB]⟩ MAX = compare [0x06, 0xAB, 0, 0] [0xFF, 0, 0, (0 : UInt8)] ∧
    cmp ⟨[0x06, 0xAB, 0, 0]⟩ MAX = .lt :=
  ⟨(cmp_is_zero_extended_order ⟨[0x06, 0xAB]⟩ MAX MIN 4 (by decide) (by decide)).1, by decide⟩

/-! ## The hex form -/

/-- One uppercase hex digit, as `{:02X}` writes it. -/
def hexDigit (n : Nat) : Char := Char.ofNat (if n < 10 then 48 + n else 55 + n)

/-- Two digits per byte, high half first. -/
def bytesToHexUpper (bytes : List UInt8) : List Char :=
  bytes.flatMap fun b => [hexDigit (b.toNat / 16), hexDigit (b.toNat % 16)]

/-- Both cases are accepted. -/
def hexNibble (c : Char) : Option Nat :=
  if '0' ≤ c ∧ c ≤ '9' then some (c.toNat - '0'.toNat)
  else if 'a' ≤ c ∧ c ≤ 'f' then some (c.toNat - 'a'.toNat + 10)
  else if 'A' ≤ c ∧ c ≤ 'F' then some (c.toNat - 'A'.toNat + 10)
  else none

/-- Reads digit pairs up to the first pair that is not hex and drops
an odd last digit.  The source reads UTF-8 bytes where this reads characters; a
character outside ASCII is no hex digit in either reading, so both stop there. -/
def hexToBytes : List Char → List UInt8
  | hi :: lo :: rest =>
    match hexNibble hi, hexNibble lo with
    | some h, some l => UInt8.ofNat (h * 16 + l) :: hexToBytes rest
    | _, _ => []
  | _ => []

def toHex (e : EffectivePartitionKey) : String := String.ofList (bytesToHexUpper e.bytes)

/-- `From<&str>`. -/
def ofHex (s : String) : EffectivePartitionKey := ⟨hexToBytes s.toList⟩

theorem hexNibble_hexDigit : ∀ n : Fin 16, hexNibble (hexDigit n) = some n.val := by decide

theorem hexToBytes_bytesToHexUpper : ∀ bytes : List UInt8,
    hexToBytes (bytesToHexUpper bytes) = bytes
  | [] => rfl
  | b :: bytes => by
    have size : b.toNat < 256 := b.toNat_lt
    have high := hexNibble_hexDigit ⟨b.toNat / 16, by omega⟩
    have low := hexNibble_hexDigit ⟨b.toNat % 16, by omega⟩
    have whole : b.toNat / 16 * 16 + b.toNat % 16 = b.toNat := by omega
    have rest := hexToBytes_bytesToHexUpper bytes
    unfold bytesToHexUpper at *
    simp only [flatMap_cons, cons_append, nil_append, hexToBytes] at *
    rw [high, low]
    simp [whole, rest]

@[simp] theorem ofHex_toHex (e : EffectivePartitionKey) : ofHex (toHex e) = e := by
  simp [ofHex, toHex, hexToBytes_bytesToHexUpper]

/-! ## Successors -/

/-- The carry of `increment_be`, on the bytes from the last to the first: a byte
`0xFF` becomes zero and carries on. -/
def incrementCarry : List UInt8 → Option (List UInt8)
  | [] => none
  | b :: rest =>
    if b ≠ 0xFF then some ((b + 1) :: rest)
    else (incrementCarry rest).map (0x00 :: ·)

def incrementBe (bytes : List UInt8) : EffectivePartitionKey :=
  if bytes.isEmpty then ofHex "00"
  else
    match incrementCarry bytes.reverse with
    | some carried => ofHex (String.ofList (bytesToHexUpper carried.reverse))
    | none => MAX

def successor (e : EffectivePartitionKey) : EffectivePartitionKey := incrementBe e.bytes

/-- Pads with zeros to the full width before incrementing. -/
def normalizedSuccessor (e : EffectivePartitionKey) (normalizedLenBytes : Nat) :
    EffectivePartitionKey :=
  incrementBe (e.bytes ++ List.replicate (normalizedLenBytes - e.bytes.length) 0x00)

theorem incrementCarry_none : ∀ {bytes : List UInt8},
    incrementCarry bytes = none ↔ ∀ b ∈ bytes, b = 0xFF
  | [] => by simp [incrementCarry]
  | b :: rest => by by_cases full : b = 0xFF <;> simp [incrementCarry, full, incrementCarry_none]

theorem incrementCarry_value : ∀ {bytes carried : List UInt8}, incrementCarry bytes = some carried →
    carried.length = bytes.length ∧ ofBe carried.reverse = ofBe bytes.reverse + 1
  | [], _, h => by cases h
  | b :: rest, carried, h => by
    rw [incrementCarry] at h
    rw [reverse_cons, ofBe_concat]
    split at h
    · next open_ =>
      cases h
      have last : b.toNat ≠ 255 := fun h => open_ (UInt8.toNat_inj.mp h)
      have size : b.toNat < 256 := b.toNat_lt
      have more : (b + 1).toNat = (b.toNat + 1) % 256 := UInt8.toNat_add b 1
      rw [reverse_cons, ofBe_concat]
      exact ⟨rfl, by omega⟩
    · next full =>
      obtain ⟨tail, carry, rfl⟩ := Option.map_eq_some_iff.mp h
      obtain ⟨width, value⟩ := incrementCarry_value carry
      rw [not_not.mp full, reverse_cons, ofBe_concat, value]
      have digits : (0 : UInt8).toNat = 0 ∧ (0xFF : UInt8).toNat = 255 := ⟨rfl, rfl⟩
      exact ⟨congrArg (· + 1) width, by omega⟩

/-- Where the carry does not leave the key, the incremented key is the next one of its width. -/
theorem incrementBe_next {bytes : List UInt8} {b : UInt8} (mem : b ∈ bytes) (other : b ≠ 0xFF) :
    (⟨bytes⟩ : EffectivePartitionKey) < incrementBe bytes ∧
    ∀ {z : EffectivePartitionKey}, z.bytes.length ≤ bytes.length → z < incrementBe bytes →
      z ≤ ⟨bytes⟩ := by
  cases carry : incrementCarry bytes.reverse with
  | none => exact absurd (incrementCarry_none.mp carry b (mem_reverse.mpr mem)) other
  | some carried =>
    obtain ⟨width, value⟩ := incrementCarry_value carry
    rw [length_reverse, ← length_reverse] at width
    rw [reverse_reverse] at value
    have made : incrementBe bytes = ⟨carried.reverse⟩ := by
      rw [incrementBe, carry, isEmpty_eq_false_iff.mpr (ne_nil_of_mem mem)]
      exact ofHex_toHex ⟨carried.reverse⟩
    rw [made]
    refine ⟨(lt_iff_ofBe width.symm).mpr (by omega), fun {z} fits less => ?_⟩
    obtain ⟨up, down⟩ := cmp_eq_eq.mp (@cmp_zeroExtend_self z bytes.length)
    have padded : (zeroExtend bytes.length z.bytes).length = bytes.length := by
      simp only [zeroExtend, length_append, length_replicate]
      omega
    have low := (lt_iff_ofBe (padded.trans width.symm)).mp (lt_of_le_of_lt down less)
    refine le_trans up (not_lt.mp fun more => ?_)
    have high := (lt_iff_ofBe padded.symm).mp more
    omega

/-- A key of `0xFF` bytes alone, and the empty one, are not below what they are incremented to. -/
theorem not_lt_incrementBe {bytes : List UInt8} (full : ∀ b ∈ bytes, b = 0xFF) :
    ¬ (⟨bytes⟩ : EffectivePartitionKey) < incrementBe bytes := by
  cases bytes with
  | nil => decide
  | cons b bytes =>
    have carry : incrementCarry (b :: bytes).reverse = none :=
      incrementCarry_none.mpr fun x mem => full x (mem_reverse.mp mem)
    rw [incrementBe, carry, full b (.head _)]
    change ¬ _ < MAX
    rw [MAX, cons_lt_cons]
    rintro (less | ⟨-, less⟩)
    · omega
    · exact not_lt.mpr (min_le _) less

/-- **The normalized successor is the least upper neighbour** of a key among the keys of the width,
unless the carry leaves the key: the keys from it up to the successor are those equal to it in the
order. -/
theorem normalizedSuccessor_least (x : EffectivePartitionKey) (n : Nat)
    (room : ∃ b ∈ zeroExtend n x.bytes, b ≠ 0xFF) :
    x < x.normalizedSuccessor n ∧
    (∀ y, y.bytes.length ≤ n → ¬ (x < y ∧ y < x.normalizedSuccessor n)) ∧
    ∀ y, y.bytes.length ≤ n → (x ≤ y ∧ y < x.normalizedSuccessor n ↔ cmp x y = .eq) := by
  obtain ⟨b, mem, other⟩ := room
  obtain ⟨above, least⟩ := incrementBe_next mem other
  obtain ⟨up, down⟩ := cmp_eq_eq.mp (@cmp_zeroExtend_self x n)
  have next : x < x.normalizedSuccessor n := Std.lt_of_le_of_lt up above
  have below : ∀ y, y.bytes.length ≤ n → y < x.normalizedSuccessor n → y ≤ x := by
    intro y fits less
    refine Std.le_trans (least ?_ less) down
    simp only [zeroExtend, length_append, length_replicate]
    omega
  refine ⟨next, fun y fits between => ?_, fun y fits => ?_⟩
  · exact Std.not_lt.mpr (below y fits between.2) between.1
  · rw [cmp_eq_eq]
    constructor
    · exact fun within => ⟨within.1, below y fits within.2⟩
    · exact fun same => ⟨same.1, Std.lt_of_le_of_lt same.2 next⟩

/-- A key without its last zero byte, at width two: the carry does not reach its first byte. -/
theorem trimmed_successor : normalizedSuccessor ⟨[0x3F]⟩ 2 = ⟨[0x3F, 0x01]⟩ ∧
    ¬ ((⟨[0x3F]⟩ : EffectivePartitionKey) < ⟨[0x3F, 0]⟩ ∧
      (⟨[0x3F, 0]⟩ : EffectivePartitionKey) < normalizedSuccessor ⟨[0x3F]⟩ 2) :=
  ⟨by decide, (normalizedSuccessor_least ⟨[0x3F]⟩ 2 ⟨0, by decide, by decide⟩).2.1 _ (by decide)⟩

end EffectivePartitionKey

end AzureSdk.Cosmos
