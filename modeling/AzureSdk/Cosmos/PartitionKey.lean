/-
# Cosmos.PartitionKey — from key values to effective partition keys

A V2 key is the 128-bit hash of the encoded values, with the two top bits cleared; a hierarchical
key is the hashes of its components one after the other; a V1 key is the 32-bit hash as a number,
followed by the values themselves.  The hash functions are parameters.

A V1 number is written seven bits to a byte, with the low bit set where more follows; the bytes stop
at the last nonzero group.  The spelling keeps the order of the numbers (`number_order_preserved`).
-/
import AzureSdk.Theory.Float64
import AzureSdk.Theory.Join
import AzureSdk.Cosmos.Dataflow.Node

namespace AzureSdk.Cosmos

open Theory Theory.Bytes List EffectivePartitionKey

/-! ## V1 numbers -/

/-- `component::NUMBER`. -/
def v1NumberMarker : UInt8 := 0x05

/-- Sets the clear sign bit, or negates. -/
def encodeDoubleAsUint64 (value : Float64) : Nat :=
  if value.toNat < 2 ^ 63 then value.toNat + 2 ^ 63 else 2 ^ 64 - value.toNat

/-- The loop of `write_number_v1_binary`, with the byte that waits for its low bit.  Ten shifts by
seven leave nothing of 64 bits. -/
def writeSeptets : Nat → Nat → Option Nat → List UInt8
  | 0, _, pending => [UInt8.ofNat (pending.getD 0 &&& 0xFE)]
  | fuel + 1, payload, pending =>
    if payload = 0 then [UInt8.ofNat (pending.getD 0 &&& 0xFE)]
    else
      let rest := writeSeptets fuel (payload * 2 ^ 7 % 2 ^ 64) (some (payload / 2 ^ 56 ||| 1))
      match pending with
      | some byte => UInt8.ofNat byte :: rest
      | none => rest

def writeNumberV1Binary (value : Float64) : List UInt8 :=
  let payload := encodeDoubleAsUint64 value
  v1NumberMarker :: UInt8.ofNat (payload / 2 ^ 56) :: writeSeptets 10 (payload * 2 ^ 8 % 2 ^ 64) none

/-- `k` groups of seven bits, up to the last nonzero one. -/
def spell : Nat → Nat → List UInt8
  | 0, _ => []
  | k + 1, n =>
    if n % 2 ^ (7 * k) = 0 then [UInt8.ofNat (2 * (n / 2 ^ (7 * k)))]
    else UInt8.ofNat (2 * (n / 2 ^ (7 * k)) + 1) :: spell k (n % 2 ^ (7 * k))

theorem or_one : ∀ g < 128, ∀ b < 2, (2 * g + b) ||| 1 = 2 * g + 1 := by decide

theorem and_fe : ∀ g < 128, (2 * g + 1) &&& 0xFE = 2 * g := by decide

variable {n m : Nat}

theorem group_lt {k : Nat} (small : n < 2 ^ (7 * (k + 1))) : n / 2 ^ (7 * k) < 128 := by
  refine Nat.div_lt_of_lt_mul ?_
  rwa [Nat.mul_succ, Nat.pow_add] at small

theorem septet_step {k : Nat} (short : k ≤ 7) (small : n < 2 ^ (7 * (k + 1))) :
    n * 2 ^ (64 - 7 * (k + 1)) / 2 ^ 56 ||| 1 = 2 * (n / 2 ^ (7 * k)) + 1 ∧
      n * 2 ^ (64 - 7 * (k + 1)) * 2 ^ 7 % 2 ^ 64 = n % 2 ^ (7 * k) * 2 ^ (64 - 7 * k) := by
  have split := Nat.div_add_mod n (2 ^ (7 * k))
  have rest : n % 2 ^ (7 * k) < 2 ^ (7 * k) := Nat.mod_lt _ (Nat.two_pow_pos _)
  have group := group_lt small
  generalize n / 2 ^ (7 * k) = g at *
  generalize n % 2 ^ (7 * k) = r at *
  have wide : 64 - 7 * (k + 1) + 7 * k = 57 := by omega
  have low : r * 2 ^ (64 - 7 * (k + 1)) < 2 ^ 57 := by
    have := Nat.mul_lt_mul_of_pos_right rest (Nat.two_pow_pos (64 - 7 * (k + 1)))
    rwa [← Nat.pow_add, Nat.add_comm (7 * k), wide] at this
  have whole : n * 2 ^ (64 - 7 * (k + 1)) = g * 2 ^ 57 + r * 2 ^ (64 - 7 * (k + 1)) := by
    rw [← split, Nat.add_mul, Nat.mul_right_comm, ← Nat.pow_add, Nat.add_comm (7 * k), wide,
      Nat.mul_comm]
  have shifted : 2 ^ (64 - 7 * k) = 2 ^ (64 - 7 * (k + 1)) * 2 ^ 7 := by
    rw [← Nat.pow_add]
    congr 1
    omega
  rw [whole, shifted, ← Nat.mul_assoc]
  generalize r * 2 ^ (64 - 7 * (k + 1)) = low' at *
  constructor
  · have top : (g * 2 ^ 57 + low') / 2 ^ 56 = 2 * g + low' / 2 ^ 56 := by omega
    rw [top]
    exact or_one g group _ (by omega)
  · omega

theorem writeSeptets_spell : ∀ (k fuel : Nat) {n : Nat} (pending : Option Nat), k ≤ 8 → k < fuel →
    n < 2 ^ (7 * k) →
    writeSeptets fuel (n * 2 ^ (64 - 7 * k)) pending =
      if n = 0 then [UInt8.ofNat (pending.getD 0 &&& 0xFE)]
      else (pending.map UInt8.ofNat).toList ++ spell k n
  | 0, fuel + 1, n, pending, _, _, small => by
    have zero : n = 0 := by simpa using small
    rw [if_pos zero, zero, writeSeptets, if_pos (Nat.zero_mul _)]
  | k + 1, fuel + 1, n, pending, short, enough, small => by
    by_cases zero : n = 0
    · rw [if_pos zero, zero, writeSeptets, if_pos (Nat.zero_mul _)]
    · have payload : n * 2 ^ (64 - 7 * (k + 1)) ≠ 0 :=
        Nat.mul_ne_zero zero (Nat.ne_of_gt (Nat.two_pow_pos _))
      obtain ⟨byte, rest⟩ := septet_step (by omega) small
      have inner := writeSeptets_spell k fuel (some (2 * (n / 2 ^ (7 * k)) + 1)) (by omega)
        (by omega) (Nat.mod_lt n (Nat.two_pow_pos (7 * k)))
      rw [writeSeptets, if_neg payload, if_neg zero, byte, rest, inner, spell]
      simp only [Option.getD_some, and_fe _ (group_lt small)]
      cases pending <;> rfl

theorem toNat_even {g : Nat} (small : g < 128) : (UInt8.ofNat (2 * g)).toNat = 2 * g :=
  toNat_ofNat_of_lt (by omega)

theorem toNat_odd {g : Nat} (small : g < 128) : (UInt8.ofNat (2 * g + 1)).toNat = 2 * g + 1 :=
  toNat_ofNat_of_lt (by omega)

/-- The spelling keeps the order: a number that goes on has its low bit set where the other stops. -/
theorem spell_below : ∀ {k n m : Nat}, n < m → m < 2 ^ (7 * k) → Below (spell k n) (spell k m)
  | 0, n, m, less, small => by
    omega
  | k + 1, n, m, less, small => by
    have groupN := group_lt (Nat.lt_trans less small)
    have groupM := group_lt small
    have splitN := Nat.div_add_mod n (2 ^ (7 * k))
    have splitM := Nat.div_add_mod m (2 ^ (7 * k))
    have order : n / 2 ^ (7 * k) ≤ m / 2 ^ (7 * k) := Nat.div_le_div_right (Nat.le_of_lt less)
    rcases Nat.lt_or_eq_of_le order with lower | same
    · unfold spell
      split <;> split <;> refine .inl (UInt8.lt_iff_toNat_lt.mpr ?_) <;>
        simp only [toNat_even, toNat_odd, groupN, groupM] <;> omega
    · have rest : n % 2 ^ (7 * k) < m % 2 ^ (7 * k) := by
        rw [same] at splitN
        omega
      have more : m % 2 ^ (7 * k) ≠ 0 := by omega
      rw [spell, spell, if_neg more]
      split
      · refine .inl (UInt8.lt_iff_toNat_lt.mpr ?_)
        rw [toNat_even groupN, toNat_odd groupM]
        omega
      · refine .inr ⟨by rw [same], ?_⟩
        exact spell_below rest (Nat.mod_lt m (Nat.two_pow_pos _))

/-- Nine turns and more write the eight groups below the top byte. -/
theorem writeSeptets_turns {turns : Nat} (enough : 8 < turns) (n : Nat) :
    writeSeptets turns (n * 2 ^ 8 % 2 ^ 64) none = spell 8 (n % 2 ^ 56) := by
  have payload : n * 2 ^ 8 % 2 ^ 64 = n % 2 ^ 56 * 2 ^ (64 - 7 * 8) := by omega
  rw [payload, writeSeptets_spell 8 turns none (by decide) enough (Nat.mod_lt _ (Nat.two_pow_pos _))]
  split
  · rename_i zero
    rw [zero]
    rfl
  · rfl

theorem writeNumberV1Binary_eq (value : Float64) :
    writeNumberV1Binary value =
      v1NumberMarker :: UInt8.ofNat (encodeDoubleAsUint64 value / 2 ^ 56) ::
        spell 8 (encodeDoubleAsUint64 value % 2 ^ 56) := by
  rw [writeNumberV1Binary, writeSeptets_turns (by decide)]

theorem lt_of_below : ∀ {as bs : List UInt8}, Below as bs → (⟨as⟩ : EffectivePartitionKey) < ⟨bs⟩
  | a :: as, b :: bs, h => by
    refine cons_lt_cons.mpr ?_
    rcases h with less | ⟨rfl, rest⟩
    · exact .inl (UInt8.lt_iff_toNat_lt.mp less)
    · exact .inr ⟨rfl, lt_of_below rest⟩

theorem encodeDoubleAsUint64_lt (value : Float64) : encodeDoubleAsUint64 value < 2 ^ 64 := by
  unfold encodeDoubleAsUint64
  split <;> omega

theorem writeNumberV1Binary_below {v w : Float64}
    (less : encodeDoubleAsUint64 v < encodeDoubleAsUint64 w) :
    Below (writeNumberV1Binary v) (writeNumberV1Binary w) := by
  have small := encodeDoubleAsUint64_lt w
  rw [writeNumberV1Binary_eq, writeNumberV1Binary_eq]
  generalize encodeDoubleAsUint64 v = a at *
  generalize encodeDoubleAsUint64 w = b at *
  refine .inr ⟨rfl, ?_⟩
  rcases Nat.lt_or_ge (a / 2 ^ 56) (b / 2 ^ 56) with lower | same
  · refine .inl (UInt8.lt_iff_toNat_lt.mpr ?_)
    rwa [toNat_ofNat_of_lt (by omega), toNat_ofNat_of_lt (by omega)]
  · exact .inr ⟨by rw [show a / 2 ^ 56 = b / 2 ^ 56 by omega],
      spell_below (by omega) (Nat.mod_lt _ (Nat.two_pow_pos _))⟩

theorem length_spell : ∀ {k n : Nat}, (spell k n).length ≤ k
  | 0, _ => Nat.le_refl 0
  | k + 1, n => by
    rw [spell]
    split
    · exact Nat.succ_le_succ (Nat.zero_le k)
    · exact Nat.succ_le_succ length_spell

/-- **The V1 encoding of numbers keeps their order and delimits itself.**  The bytes compare as the
payloads do, none is a proper initial part of another, and the loop ends after at most eight groups:
with more turns it writes nothing else. -/
theorem number_order_preserved (v w : Float64) :
    compare (writeNumberV1Binary v) (writeNumberV1Binary w) =
      compare (encodeDoubleAsUint64 v) (encodeDoubleAsUint64 w) ∧
    (writeNumberV1Binary v <+: writeNumberV1Binary w →
      writeNumberV1Binary v = writeNumberV1Binary w) ∧
    ∀ turns, 8 < turns →
      writeNumberV1Binary v = v1NumberMarker :: UInt8.ofNat (encodeDoubleAsUint64 v / 2 ^ 56) ::
        writeSeptets turns (encodeDoubleAsUint64 v * 2 ^ 8 % 2 ^ 64) none ∧
      (writeSeptets turns (encodeDoubleAsUint64 v * 2 ^ 8 % 2 ^ 64) none).length ≤ 8 := by
  refine ⟨?_, ?_, fun turns enough => ?_⟩
  · cases order : compare (encodeDoubleAsUint64 v) (encodeDoubleAsUint64 w) with
    | lt => exact (writeNumberV1Binary_below (Nat.compare_eq_lt.mp order)).compare_lt
    | gt =>
      have swapped : compare (writeNumberV1Binary v) (writeNumberV1Binary w) =
          (compare (writeNumberV1Binary w) (writeNumberV1Binary v)).swap := Std.OrientedCmp.eq_swap
      rw [swapped, (writeNumberV1Binary_below (Nat.compare_eq_gt.mp order)).compare_lt]
      rfl
    | eq =>
      rw [writeNumberV1Binary_eq, writeNumberV1Binary_eq, Nat.compare_eq_eq.mp order]
      exact Std.ReflCmp.compare_self
  · intro initial
    rcases Nat.lt_trichotomy (encodeDoubleAsUint64 v) (encodeDoubleAsUint64 w) with less | same | more
    · exact absurd initial (writeNumberV1Binary_below less).apart.1
    · rw [writeNumberV1Binary_eq, writeNumberV1Binary_eq, same]
    · exact absurd initial (writeNumberV1Binary_below more).apart.2
  · have loop := writeSeptets_turns enough (encodeDoubleAsUint64 v)
    rw [writeNumberV1Binary_eq, loop]
    exact ⟨rfl, length_spell⟩

/-! ## Encoding the values -/

def maxStringBytesToAppend : Nat := 100

/-- The UTF-8 bytes of a text. -/
def utf8Bytes (text : List Char) : List UInt8 := text.flatMap String.utf8EncodeChar

def writeForHashingCore (stringSuffix : UInt8) (truncate : Bool) : PartitionKeyValue → List UInt8
  | .bool true => [0x03]
  | .bool false => [0x02]
  | .null => [0x01]
  | .number bits => v1NumberMarker :: leBytes 8 bits.toNat
  | .string value =>
    let bytes := utf8Bytes value.toList
    0x08 :: (if truncate = true ∧ maxStringBytesToAppend < bytes.length then
      bytes.take maxStringBytesToAppend else bytes) ++ [stringSuffix]
  | .infinity => [0xFF]
  | .undefined => [0x00]

def writeForBinaryEncodingV1 : PartitionKeyValue → List UInt8
  | .bool true => [0x03]
  | .bool false => [0x02]
  | .infinity => [0xFF]
  | .number bits => writeNumberV1Binary bits
  | .string value =>
    let utf8 := utf8Bytes value.toList
    if utf8.length ≤ maxStringBytesToAppend then 0x08 :: utf8.map (· + 1) ++ [0x00]
    else 0x08 :: (utf8.take (maxStringBytesToAppend + 1)).map (· + 1)
  | .null => [0x01]
  | .undefined => [0x00]

/-- The slice `[..n]` of a text, by bytes; `None` where `n` is not between two characters. -/
def sliceTo : Nat → List Char → Option (List Char)
  | 0, _ => some []
  | _ + 1, [] => none
  | n + 1, c :: text =>
    if c.utf8Size ≤ n + 1 then (sliceTo (n + 1 - c.utf8Size) text).map (c :: ·) else none

/-- Slicing inside a character panics. -/
def truncatedForV1Encoding : PartitionKeyValue → Result PartitionKeyValue
  | .string value =>
    if maxStringBytesToAppend < (utf8Bytes value.toList).length then
      match sliceTo maxStringBytesToAppend value.toList with
      | some text => .ok (.string (String.ofList text))
      | none => .error (.panic "byte index 100 is not a char boundary")
    else .ok (.string value)
  | value => .ok value

/-- `murmurhash3_32` and `murmurhash3_128` with seed 0; only the widths of the results matter. -/
structure MurmurHash3 where
  hash32 : List UInt8 → UInt32
  hash128 : List UInt8 → Nat

section Compute

variable (hash : MurmurHash3)

def hashV2RawBytes (data : List UInt8) : List UInt8 :=
  (leBytes 16 (hash.hash128 data)).reverse.modifyHead (· &&& 0x3F)

/-- The hash of one component of a hierarchical key. -/
def componentHash (value : PartitionKeyValue) : List UInt8 :=
  hashV2RawBytes hash (writeForHashingCore 0xFF false value)

variable (pkValues : List PartitionKeyValue)

def effectivePartitionKeyV1Binary : Result (List UInt8) := do
  let hash32 := hash.hash32 (pkValues.flatMap (writeForHashingCore 0x00 true))
  let truncated ← pkValues.mapM truncatedForV1Encoding
  .ok (writeNumberV1Binary (Float64.ofNat hash32.toNat) ++
    truncated.flatMap writeForBinaryEncodingV1)

/-- `EffectivePartitionKey::compute`; the V2 encodings are written out. -/
def EffectivePartitionKey.compute (kind : PartitionKeyKind)
    (version : PartitionKeyVersion) : Result EffectivePartitionKey :=
  let v2 := hashV2RawBytes hash (pkValues.flatMap (writeForHashingCore 0xFF false))
  if pkValues.isEmpty then .ok .MIN
  else if pkValues = [.infinity] then .ok .MAX
  else
    match kind, version with
    | .hash, .v1 => (effectivePartitionKeyV1Binary hash pkValues).map .mk
    | .hash, .v2 => .ok ⟨v2⟩
    | .multiHash, .v1 => .error (.panic "MultiHash requires V2, got V1")
    | .multiHash, .v2 => .ok ⟨pkValues.flatMap (componentHash hash)⟩
    | .range, _ => .ok ⟨v2⟩

def EffectivePartitionKey.computeRange
    (definition : PartitionKeyDefinition) :
    Result (EffectivePartitionKey × EffectivePartitionKey) :=
  let count := pkValues.length
  let paths := definition.paths.length
  if pkValues.isEmpty then fail ⟨500, some 20211⟩ "compute_range called with empty pk_values"
  else if paths < count then
    fail ⟨400, some 20101⟩ ("more partition key components (" ++ toString count ++
      ") than definition paths (" ++ toString paths ++ ")")
  else do
    let epk ← compute hash pkValues definition.kind definition.version
    if definition.kind ≠ .multiHash ∧ count ≠ paths then
      fail ⟨400, some 20103⟩ ("non-MultiHash containers require exactly as many components (" ++
        toString count ++ ") as paths (" ++ toString paths ++ ")")
    else if definition.kind = .multiHash ∧ count < paths then .ok (epk, ⟨epk.bytes ++ [0xFF]⟩)
    else .ok (epk, epk)

end Compute

/-! ## When computing a key panics -/

/-- Byte `n` of the text is between two characters. -/
def CharBoundary (text : List Char) (n : Nat) : Prop :=
  ∃ before after, text = before ++ after ∧ (utf8Bytes before).length = n

theorem sliceTo_isSome : ∀ {n : Nat} {text : List Char},
    (sliceTo n text).isSome ↔ CharBoundary text n
  | 0, text => iff_of_true (by simp [sliceTo]) ⟨[], text, rfl, rfl⟩
  | n + 1, [] => by
    refine iff_of_false (by simp [sliceTo]) ?_
    rintro ⟨before, after, whole, size⟩
    rw [(append_eq_nil_iff.mp whole.symm).1] at size
    cases size
  | n + 1, c :: text => by
    have first (before : List Char) : (utf8Bytes (c :: before)).length =
        c.utf8Size + (utf8Bytes before).length := by
      simp [utf8Bytes]
    rw [sliceTo]
    split
    · rw [Option.isSome_map, sliceTo_isSome]
      constructor
      · rintro ⟨before, after, rfl, size⟩
        exact ⟨c :: before, after, rfl, by rw [first]; omega⟩
      · rintro ⟨_ | ⟨c', before⟩, after, whole, size⟩
        · cases size
        · cases whole
          rw [first] at size
          exact ⟨before, after, rfl, by omega⟩
    · refine iff_of_false (by simp) ?_
      rintro ⟨_ | ⟨c', before⟩, after, whole, size⟩
      · cases size
      · cases whole
        rw [first] at size
        omega

/-- A text that V1 can truncate. -/
def Truncates (value : PartitionKeyValue) : Prop :=
  ∀ text, value = .string text → maxStringBytesToAppend < (utf8Bytes text.toList).length →
    CharBoundary text.toList maxStringBytesToAppend

theorem truncatedForV1Encoding_cases (value : PartitionKeyValue) :
    (Truncates value ∧ ∃ short, truncatedForV1Encoding value = .ok short) ∨
    (¬ Truncates value ∧ ∃ message, truncatedForV1Encoding value = .error (.panic message)) := by
  cases value with
  | string text =>
    by_cases long : maxStringBytesToAppend < (utf8Bytes text.toList).length
    · have slice := @sliceTo_isSome maxStringBytesToAppend text.toList
      cases cut : sliceTo maxStringBytesToAppend text.toList <;>
        simp [truncatedForV1Encoding, Truncates, long, cut, ← slice]
    · exact .inl ⟨fun _ same => by cases same; exact fun h => absurd h long,
        .string text, by simp [truncatedForV1Encoding, long]⟩
  | null | number | bool | undefined | infinity => exact .inl ⟨nofun, _, rfl⟩

theorem truncated_cases : ∀ values : List PartitionKeyValue,
    ((∀ value ∈ values, Truncates value) ∧ ∃ short, values.mapM truncatedForV1Encoding = .ok short) ∨
    ((¬ ∀ value ∈ values, Truncates value) ∧
      ∃ message, values.mapM truncatedForV1Encoding = .error (.panic message))
  | [] => .inl ⟨nofun, [], rfl⟩
  | value :: values => by
    rw [mapM_cons, forall_mem_cons]
    rcases truncatedForV1Encoding_cases value with ⟨fits, short, made⟩ | ⟨cut, message, made⟩
    · rcases truncated_cases values with ⟨rest, shorts, all⟩ | ⟨rest, message, all⟩
      · exact .inl ⟨⟨fits, rest⟩, _, by rw [made, all]; rfl⟩
      · exact .inr ⟨fun h => rest h.2, message, by rw [made, all]; rfl⟩
    · exact .inr ⟨fun h => cut h.1, message, by rw [made]; rfl⟩

/-- **When computing a key panics.**  Under V1, exactly when a text of more than 100 bytes has a
character across byte 100; and for the combination of hierarchical keys with V1, which containers
do not have. -/
theorem compute_no_panic_iff (hash : MurmurHash3) (pkValues : List PartitionKeyValue)
    (kind : PartitionKeyKind) (version : PartitionKeyVersion) :
    NoPanic (compute hash pkValues kind version) ↔
      (kind = .hash → version = .v1 → ∀ text, .string text ∈ pkValues →
        maxStringBytesToAppend < (utf8Bytes text.toList).length →
        CharBoundary text.toList maxStringBytesToAppend) ∧
      (kind = .multiHash → version = .v1 → pkValues = [] ∨ pkValues = [.infinity]) := by
  by_cases none_ : pkValues = []
  · subst none_
    exact iff_of_true (noPanic_ok _) ⟨nofun, fun _ _ => .inl rfl⟩
  by_cases infinite : pkValues = [.infinity]
  · subst infinite
    exact iff_of_true (noPanic_ok _) ⟨fun _ _ text mem => by simp at mem, fun _ _ => .inr rfl⟩
  have reached : pkValues.isEmpty = false := by simpa using none_
  simp only [compute, reached, Bool.false_eq_true, if_false, if_neg infinite]
  cases kind <;> cases version
  case multiHash.v1 => simp [NoPanic, none_, infinite]
  case hash.v1 =>
    have each : (∀ value ∈ pkValues, Truncates value) ↔ ∀ text, .string text ∈ pkValues →
        maxStringBytesToAppend < (utf8Bytes text.toList).length →
        CharBoundary text.toList maxStringBytesToAppend :=
      ⟨fun h text mem => h _ mem text rfl, fun h value mem text same => h text (same ▸ mem)⟩
    unfold effectivePartitionKeyV1Binary
    rcases truncated_cases pkValues with ⟨fits, short, made⟩ | ⟨cut, message, made⟩ <;> rw [made]
    · exact iff_of_true (noPanic_ok _) ⟨fun _ _ => each.mp fits, nofun⟩
    · exact iff_of_false (fun safe => safe message rfl) fun h => cut (each.mpr (h.1 rfl rfl))
  all_goals exact iff_of_true (noPanic_ok _) ⟨nofun, nofun⟩

/-- 99 letters and an `é`: byte 100 is inside it. -/
def splitText : List Char := List.replicate 99 'a' ++ ['é']

theorem v1_text_panics :
    compute ⟨fun _ => 0, fun _ => 0⟩ [.string (String.ofList splitText)]
      .hash .v1 = .error (.panic "byte index 100 is not a char boundary") := by
  have long : maxStringBytesToAppend < (utf8Bytes splitText).length := by decide +kernel
  have cut : sliceTo maxStringBytesToAppend splitText = none := by decide +kernel
  simp [compute, effectivePartitionKeyV1Binary, truncatedForV1Encoding, long,
    cut, bind, Except.bind, Except.map]

/-! ## Hierarchical prefixes -/

section Hierarchical

variable {hash : MurmurHash3} {as bs xs ys : List UInt8}

/-- The bytes of one hashed component: sixteen, the first with its top bits cleared. -/
def Masked (bytes : List UInt8) : Prop := bytes.length = 16 ∧ ∀ b ∈ bytes.head?, b ≤ 0x3F

theorem masked_componentHash (value : PartitionKeyValue) : Masked (componentHash hash value) := by
  have low : ∀ b : UInt8, b &&& 0x3F ≤ 0x3F := fun b => by
    exact Nat.and_le_right
  simp [Masked, componentHash, hashV2RawBytes, head?_modifyHead, low]

theorem append_lt_append (same : as.length = bs.length) :
    (⟨as ++ xs⟩ : EffectivePartitionKey) < ⟨bs ++ ys⟩ ↔
      Below as bs ∨ as = bs ∧ (⟨xs⟩ : EffectivePartitionKey) < ⟨ys⟩ := by
  induction as generalizing bs with
  | nil => simp [eq_nil_of_length_eq_zero same.symm, Below]
  | cons a as ih =>
    obtain ⟨b, bs, rfl⟩ := exists_cons_of_length_eq_add_one same.symm
    rw [cons_append, cons_append, cons_lt_cons,
      ih (Nat.succ.inj same), ← UInt8.lt_iff_toNat_lt, UInt8.toNat_inj, cons.injEq, Below]
    tauto

/-- What starts with as many bytes as `as`, and goes on with a masked one, is in the range of the
keys that start with `as` exactly if it starts with `as`. -/
theorem mem_range_iff {b : UInt8} (same : bs.length = as.length) (masked : b ≤ 0x3F) :
    (⟨as⟩ : EffectivePartitionKey) ≤ ⟨bs ++ b :: xs⟩ ∧
      (⟨bs ++ b :: xs⟩ : EffectivePartitionKey) < ⟨as ++ [0xFF]⟩ ↔ bs = as := by
  have start : (⟨bs ++ b :: xs⟩ : EffectivePartitionKey) < ⟨as⟩ ↔ Below bs as := by
    have := @append_lt_append _ _ (b :: xs) [] same
    have least := min_le ⟨b :: xs⟩
    rw [append_nil] at this
    rw [this, or_iff_left]
    exact fun h => absurd h.2 (Std.not_lt.mpr least)
  have small : (⟨b :: xs⟩ : EffectivePartitionKey) < ⟨[0xFF]⟩ := by
    have := UInt8.le_iff_toNat_le.mp masked
    exact cons_lt_cons.mpr (.inl (Nat.lt_of_le_of_lt this (by decide)))
  rw [← Std.not_lt, start, append_lt_append same]
  constructor
  · rintro ⟨above, below | ⟨equal, -⟩⟩
    · exact absurd below above
    · exact equal
  · rintro rfl
    exact ⟨fun below => below.apart.1 (prefix_refl _), .inr ⟨rfl, small⟩⟩

theorem component_range_iff {pkValues : List PartitionKeyValue} {hashes : List (List UInt8)}
    (short : pkValues.length < hashes.length) (masked : ∀ h ∈ hashes, Masked h) :
    (⟨(pkValues.map (componentHash hash)).flatten⟩ : EffectivePartitionKey) ≤ ⟨hashes.flatten⟩ ∧
      (⟨hashes.flatten⟩ : EffectivePartitionKey) <
        ⟨(pkValues.map (componentHash hash)).flatten ++ [0xFF]⟩ ↔
      hashes.take pkValues.length = pkValues.map (componentHash hash) := by
  have lengths : (hashes.take pkValues.length).map List.length =
      (pkValues.map (componentHash hash)).map List.length := by
    trans replicate pkValues.length 16
    · refine eq_replicate_iff.mpr ⟨by simp; omega, fun n mem => ?_⟩
      obtain ⟨h, inside, rfl⟩ := mem_map.mp mem
      exact (masked h (mem_of_mem_take inside)).1
    · symm
      refine eq_replicate_iff.mpr ⟨by simp, fun n mem => ?_⟩
      simp only [map_map, mem_map] at mem
      obtain ⟨value, -, rfl⟩ := mem
      exact (masked_componentHash value).1
  -- the component after the prefix starts with a masked byte
  obtain ⟨h, tail, dropped⟩ : ∃ h tail, hashes.drop pkValues.length = h :: tail :=
    exists_cons_of_ne_nil (by simpa using short)
  obtain ⟨size, low⟩ := masked h (mem_of_mem_drop (dropped ▸ mem_cons_self))
  obtain ⟨b, xs, rfl⟩ := exists_cons_of_length_eq_add_one size
  have whole : hashes.flatten =
      (hashes.take pkValues.length).flatten ++ b :: (xs ++ tail.flatten) := by
    rw [← cons_append, ← flatten_cons, ← dropped, ← flatten_append,
      take_append_drop]
  rw [whole, mem_range_iff (by simp only [length_flatten, lengths]) (low b rfl),
    eq_iff_flatten_eq]
  exact (and_iff_left lengths).symm

/-- **A prefix range holds exactly the completions of the prefix.**  Of a container with hierarchical
keys, the range computed for a proper, nonempty part of the components holds the key of every
completion, and of all full keys those whose first hashes are the ones of the prefix. -/
theorem component_range_exact (hash : MurmurHash3) (definition : PartitionKeyDefinition)
    (kind : definition.kind = .multiHash) (version : definition.version = .v2)
    (pkValues : List PartitionKeyValue) (some_ : pkValues ≠ [])
    (short : pkValues.length < definition.paths.length)
    (finite : PartitionKeyValue.infinity ∉ pkValues) :
    ∃ start stop, computeRange hash pkValues definition = .ok (start, stop) ∧
      (∀ rest, (pkValues ++ rest).length = definition.paths.length →
        ∃ e, compute hash (pkValues ++ rest) definition.kind
          definition.version = .ok e ∧ start ≤ e ∧ e < stop) ∧
      ∀ hashes : List (List UInt8), hashes.length = definition.paths.length →
        (∀ h ∈ hashes, Masked h) →
        (start ≤ ⟨hashes.flatten⟩ ∧ (⟨hashes.flatten⟩ : EffectivePartitionKey) < stop ↔
          hashes.take pkValues.length = pkValues.map (componentHash hash)) := by
  have computed {values : List PartitionKeyValue} (some_ : values ≠ [])
      (finite : values ≠ [.infinity]) : compute hash values .multiHash .v2 =
        .ok ⟨(values.map (componentHash hash)).flatten⟩ := by
    simp [compute, some_, finite, flatMap_def]
  have range : computeRange hash pkValues definition =
      .ok (⟨(pkValues.map (componentHash hash)).flatten⟩,
        ⟨(pkValues.map (componentHash hash)).flatten ++ [0xFF]⟩) := by
    have notInfinite : pkValues ≠ [.infinity] := fun h => finite (h ▸ mem_singleton_self _)
    simp [computeRange, some_, Nat.not_lt.mpr (Nat.le_of_lt short), kind,
      version, computed some_ notInfinite, short, bind, Except.bind]
  have exact_ (hashes : List (List UInt8)) (count : hashes.length = definition.paths.length)
      (masked : ∀ h ∈ hashes, Masked h) :=
    @component_range_iff hash pkValues hashes (count ▸ short) masked
  refine ⟨_, _, range, fun rest full => ?_, exact_⟩
  have long : 1 < (pkValues ++ rest).length := by
    have := length_pos_iff.mpr some_
    omega
  rw [kind, version]
  refine ⟨_, computed (by simp [some_]) (fun h => by simp [h] at long), ?_⟩
  refine (exact_ _ (by simpa using full) fun h mem => ?_).mpr (by simp)
  obtain ⟨value, -, rfl⟩ := mem_map.mp mem
  exact masked_componentHash value

/-- The keys of two paths that start with `true`. -/
theorem true_range_exact :
    ∃ start stop, computeRange ⟨fun _ => 0, fun _ => 0⟩ [.bool true]
        ⟨["/a", "/b"], .multiHash, .v2⟩ = .ok (start, stop) ∧
      ∃ e, compute ⟨fun _ => 0, fun _ => 0⟩ [.bool true, .null] .multiHash .v2 =
        .ok e ∧ start ≤ e ∧ e < stop := by
  obtain ⟨start, stop, range, holds, -⟩ := component_range_exact ⟨fun _ => 0, fun _ => 0⟩
    ⟨["/a", "/b"], .multiHash, .v2⟩ rfl rfl [.bool true] (by decide) (by decide) (by decide)
  exact ⟨start, stop, range, holds [.null] rfl⟩

/-- The prefix of no components has no range. -/
theorem no_components_no_range :
    computeRange ⟨fun _ => 0, fun _ => 0⟩ [] ⟨["/a", "/b"], .multiHash, .v2⟩ =
      fail ⟨500, some 20211⟩ "compute_range called with empty pk_values" := rfl

end Hierarchical

/-! ## The V2 hash input -/

/-- The byte that ends a string is in no UTF-8 text. -/
theorem suffix_not_mem_utf8Bytes (text : List Char) : (0xFF : UInt8) ∉ utf8Bytes text := by
  intro mem
  obtain ⟨c, _, mem⟩ := mem_flatMap.mp mem
  have below : ∀ {n}, n < 255 → (0xFF : UInt8) ≠ UInt8.ofNat n := by
    intro n less same
    have : (255 : Nat) = n % 256 := (congrArg UInt8.toNat same).trans UInt8.toNat_ofNat'
    omega
  rw [String.utf8EncodeChar] at mem
  generalize c.val.toNat = v at mem
  split_ifs at mem <;> simp only [mem_cons, not_mem_nil, or_false] at mem
  · exact below (by omega) mem
  · exact mem.elim (below (by omega)) (below (by omega))
  · exact mem.elim (below (by omega)) fun mem => mem.elim (below (by omega)) (below (by omega))
  · rcases mem with mem | mem | mem | mem <;> exact below (by omega) mem

theorem utf8Bytes_inj {s t : String} (same : utf8Bytes s.toList = utf8Bytes t.toList) : s = t := by
  have encoded : s.toList.utf8Encode = t.toList.utf8Encode := congrArg List.toByteArray same
  rw [String.utf8Encode_toList, String.utf8Encode_toList] at encoded
  exact String.toByteArray_inj.mp encoded

/-- The first byte tells the kind, and the kind tells where the value ends. -/
theorem writeForHashingCore_ends {v w : PartitionKeyValue} {rest rest' : List UInt8}
    (same : writeForHashingCore 0xFF false v ++ rest = writeForHashingCore 0xFF false w ++ rest') :
    v = w ∧ rest = rest' := by
  rcases v with _ | text | bits | (_ | _) | _ | _ <;>
    rcases w with _ | text' | bits' | (_ | _) | _ | _ <;>
    obtain ⟨kind, same⟩ := cons.inj same <;> first
    | exact ⟨rfl, same⟩
    | exact absurd kind (by decide)
    | skip
  · simp only [Bool.false_eq_true, false_and, if_false, append_eq, append_assoc] at same
    obtain ⟨bytes, rest⟩ := append_cons_inj (suffix_not_mem_utf8Bytes _)
      (suffix_not_mem_utf8Bytes _) same
    exact ⟨congrArg _ (utf8Bytes_inj bytes), rest⟩
  · obtain ⟨bytes, rest⟩ := append_inj same (by simp)
    have value := congrArg ofLe bytes
    rw [ofLe_leBytes, ofLe_leBytes, Nat.mod_eq_of_lt (b := 256 ^ 8) bits.toNat_lt,
      Nat.mod_eq_of_lt (b := 256 ^ 8) bits'.toNat_lt] at value
    exact ⟨congrArg _ (UInt64.toNat_inj.mp value), rest⟩

/-- Different keys have different V2 hash inputs, so only a collision of the hash of these gives them
one effective partition key. -/
theorem hash_input_unambiguous (hash : MurmurHash3) :
    let input := fun values : List PartitionKeyValue => values.flatMap (writeForHashingCore 0xFF false)
    Function.Injective input ∧ ∀ vs ws, vs ≠ ws →
      EffectivePartitionKey.compute hash vs .hash .v2 =
        EffectivePartitionKey.compute hash ws .hash .v2 →
      input vs ≠ input ws ∧ hashV2RawBytes hash (input vs) = hashV2RawBytes hash (input ws) := by
  intro input
  have inj : Function.Injective input := fun vs ws =>
    flatMap_inj (fun v => by rcases v with _ | _ | _ | (_ | _) | _ | _ <;> exact cons_ne_nil _ _)
      writeForHashingCore_ends
  refine ⟨inj, fun vs ws other same => ⟨inj.ne other, ?_⟩⟩
  -- the first and the last key have no hash's width
  have width (data : List UInt8) : (hashV2RawBytes hash data).length = 16 := by simp [hashV2RawBytes]
  simp only [EffectivePartitionKey.compute, List.isEmpty_iff] at same
  grind [EffectivePartitionKey.MIN, EffectivePartitionKey.MAX]

end AzureSdk.Cosmos
