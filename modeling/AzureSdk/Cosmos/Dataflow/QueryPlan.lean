/-
# Cosmos.Dataflow.QueryPlan — the query plan of the gateway

A gateway sends the bounds of a plan's ranges as EPK hex text or as partition key components, which
are hashed here.  `resolve` sorts the ranges by the text of their lower bounds, and all that reads
them compares keys.  The two orders agree on hex texts (`lt_and_gt_iff_caseClash`) unless an
upper-case digit meets a lower-case one of a smaller value; `resolve_ascending_iff` says this of
resolved plans.
-/
import AzureSdk.Cosmos.PartitionKey
import AzureSdk.Cosmos.Dataflow.Planner
import AzureSdk.Cosmos.Query.Value

namespace AzureSdk.Cosmos.Dataflow

open Theory List

structure RawQueryRange where
  min : Json.Value
  max : Json.Value
  isMaxInclusive : Bool

structure RawQueryPlan where
  queryInfo : Option QueryInfo
  queryRanges : List RawQueryRange
  hasHybridSearchQueryInfo : Bool

def serializationResponseBodyInvalid : CosmosStatus := ⟨500, some 20020⟩

/-- The text of a member `type`. -/
def typeOf (members : Json.Members) : Option Text :=
  match members.get "type".toList with
  | some (.string t) => some t
  | _ => none

section Resolve

variable (print : Json.Value → String) (hash : MurmurHash3) (definition : PartitionKeyDefinition)

/-- `FiniteF64::new_strict`; a zero loses its sign. -/
def newStrict (value : Float64) : Result Float64 :=
  if Float64.isFinite value then .ok (if Float64.eq value 0 then 0 else value)
  else .error (.panic "FiniteF64 value must be finite")

/-- `pki_component_to_pk_value`; `print` writes the JSON of an error. -/
def pkiComponentToPkValue : Json.Value → Result PartitionKeyValue
  | .null => .ok .null
  | .bool b => .ok (.bool b)
  | .number n => (newStrict (Query.CosmosValue.asF64 n)).map .number
  | .string s => .ok (.string (String.ofList s))
  | .object members =>
    if typeOf members = some "Infinity".toList then .ok .infinity
    else if typeOf members = some "Undefined".toList then .ok .undefined
    else fail serializationResponseBodyInvalid
      ("queryRanges component object is not a recognized PartitionKeyInternal sentinel: " ++
        print (.object members))
  | .array _ =>
    fail serializationResponseBodyInvalid "queryRanges component cannot be a nested array"

def jsonTypeName : Json.Value → String
  | .null => "null"
  | .bool _ => "bool"
  | .number _ => "number"
  | .string _ => "string"
  | .array _ => "array"
  | .object _ => "object"

/-- The array is the sentinel `[{"type":"Infinity"}]`. -/
def isInfinity : List Json.Value → Bool
  | [.object members] => typeOf members = some "Infinity".toList
  | _ => false

def resolveEpkBound : Json.Value → Result String
  | .string s => .ok (if s = "Infinity".toList then "FF" else String.ofList s)
  | .array items =>
    if items.isEmpty then .ok ""
    else if isInfinity items then .ok "FF"
    else do
      let pkValues ← items.mapM (pkiComponentToPkValue print)
      let epk ← EffectivePartitionKey.compute hash pkValues definition.kind definition.version
      .ok epk.toHex
  | other => fail serializationResponseBodyInvalid
    ("queryRanges bound has unsupported shape (expected string or PartitionKeyInternal array, got " ++
      jsonTypeName other ++ ")")

/-- One turn of the loop of `resolve`. -/
def RawQueryRange.resolve (raw : RawQueryRange) : Result QueryRange := do
  let min ← resolveEpkBound print hash definition raw.min
  let max ← resolveEpkBound print hash definition raw.max
  .ok ⟨min, max, raw.isMaxInclusive⟩

def RawQueryPlan.resolve (raw : RawQueryPlan) : Result QueryPlan := do
  let queryRanges ← raw.queryRanges.mapM (RawQueryRange.resolve print hash definition)
  .ok ⟨raw.queryInfo, queryRanges.insertionSort fun a b => a.min ≤ b.min,
    raw.hasHybridSearchQueryInfo⟩

/-- The ranges come in the order of their keys. -/
def AscendingKeys (ranges : List QueryRange) : Prop :=
  ranges.Pairwise fun a b => EffectivePartitionKey.ofHex a.min ≤ .ofHex b.min

end Resolve

/-! ## Hex digits -/

section Digits

open EffectivePartitionKey (hexNibble hexToBytes bytesToHexUpper cmpBytes)

/-- A whole number of digit pairs. -/
def HexText : Text → Prop
  | [] => True
  | [_] => False
  | hi :: lo :: rest => (hexNibble hi).isSome ∧ (hexNibble lo).isSome ∧ HexText rest

def digit (c : Char) : UInt8 := UInt8.ofNat ((hexNibble c).getD 0)

/-- Where the texts first differ the first has an upper-case digit and the second a lower-case one, and
from there on, with zeros after the end, the digits of the first have the larger values. -/
def CaseClash : Text → Text → Prop
  | c :: s, d :: t =>
    if c = d then CaseClash s t
    else c.isUpper ∧ d.isLower ∧ cmpBytes ((c :: s).map digit) ((d :: t).map digit) = .gt
  | _, _ => False

instance : ∀ s t, Decidable (CaseClash s t)
  | c :: s, d :: t =>
    have := instDecidableCaseClash s t
    by unfold CaseClash; infer_instance
  | [], _ => .isFalse (by simp [CaseClash])
  | _ :: _, [] => .isFalse (by simp [CaseClash])

theorem HexText.isSome : ∀ {s : Text}, HexText s → ∀ c ∈ s, (hexNibble c).isSome
  | [], _, _, mem => absurd mem not_mem_nil
  | [_], hex, _, _ => hex.elim
  | hi :: lo :: rest, ⟨high, low, hex⟩, c, mem => by
    rcases mem_cons.mp mem with rfl | mem
    · exact high
    · rcases mem_cons.mp mem with rfl | mem
      · exact low
      · exact hex.isSome c mem

def hexDigits : Text :=
  ['0', '1', '2', '3', '4', '5', '6', '7', '8', '9', 'A', 'B', 'C', 'D', 'E', 'F',
    'a', 'b', 'c', 'd', 'e', 'f']

theorem mem_of_hexNibble {c : Char} (hex : (hexNibble c).isSome) : c ∈ hexDigits := by
  have code : c = Char.ofNat c.toNat := (Char.ofNat_toNat c).symm
  have small : c.toNat < 103 := by
    unfold hexNibble at hex
    change c.val.toNat < 103
    simp only [Char.le_def, UInt32.le_iff_toNat_le] at hex
    grind
  have all : ∀ n < 103, (hexNibble (Char.ofNat n)).isSome → Char.ofNat n ∈ hexDigits := by
    decide +kernel
  rw [code] at hex ⊢
  exact all _ small hex

theorem cases_of_lt {c d : Char} (hexC : (hexNibble c).isSome) (hexD : (hexNibble d).isSome) :
    (c < d ∧ digit d ≤ digit c ↔ c.isUpper ∧ d.isLower ∧ digit d ≤ digit c) := by
  have all : hexDigits.all fun c => hexDigits.all fun d =>
      decide (c < d ∧ digit d ≤ digit c ↔ c.isUpper ∧ d.isLower ∧ digit d ≤ digit c) := by
    decide +kernel
  have row := all_eq_true.mp all c (mem_of_hexNibble hexC)
  exact of_decide_eq_true (all_eq_true.mp row d (mem_of_hexNibble hexD))

theorem toNat_digit {c : Char} (hex : (hexNibble c).isSome) :
    hexNibble c = some (digit c).toNat ∧ (digit c).toNat < 16 := by
  have all : hexDigits.all fun c =>
      decide (hexNibble c = some (digit c).toNat ∧ (digit c).toNat < 16) := by
    decide +kernel
  exact of_decide_eq_true (all_eq_true.mp all c (mem_of_hexNibble hex))

/-- Two bytes compare as their halves do, the high one first. -/
theorem compare_halves {h l h' l' : UInt8} (fits : h.toNat < 16) (fitsL : l.toNat < 16)
    (fits' : h'.toNat < 16) (fitsL' : l'.toNat < 16) :
    compare (UInt8.ofNat (h.toNat * 16 + l.toNat)) (UInt8.ofNat (h'.toNat * 16 + l'.toNat)) =
      (compare h h').then (compare l l') := by
  simp only [UInt8.compare_eq_toNat_compare_toNat, UInt8.toNat_ofNat']
  rw [Nat.mod_eq_of_lt (by omega), Nat.mod_eq_of_lt (by omega)]
  rcases Nat.lt_trichotomy h.toNat h'.toNat with lt | same | gt
  · rw [Nat.compare_eq_lt.mpr lt, Nat.compare_eq_lt.mpr (by omega)]; rfl
  · rw [Nat.compare_eq_eq.mpr same, same, Ordering.eq_then]
    rcases Nat.lt_trichotomy l.toNat l'.toNat with lt | same | gt
    · rw [Nat.compare_eq_lt.mpr lt, Nat.compare_eq_lt.mpr (by omega)]
    · rw [Nat.compare_eq_eq.mpr same, Nat.compare_eq_eq.mpr (by omega)]
    · rw [Nat.compare_eq_gt.mpr gt, Nat.compare_eq_gt.mpr (by omega)]
  · rw [Nat.compare_eq_gt.mpr gt, Nat.compare_eq_gt.mpr (by omega)]; rfl

theorem hexToBytes_cons {hi lo : Char} (rest : Text) (high : (hexNibble hi).isSome)
    (low : (hexNibble lo).isSome) : hexToBytes (hi :: lo :: rest) =
      UInt8.ofNat ((digit hi).toNat * 16 + (digit lo).toNat) :: hexToBytes rest := by
  rw [hexToBytes, (toNat_digit high).1, (toNat_digit low).1]

theorem all_zero_hexToBytes : ∀ {s : Text}, HexText s →
    (hexToBytes s).all (· == 0) = (s.map digit).all (· == 0)
  | [], _ => rfl
  | [_], hex => hex.elim
  | hi :: lo :: rest, ⟨high, low, hex⟩ => by
    rw [hexToBytes_cons rest high low]
    simp only [map_cons, all_cons, all_zero_hexToBytes hex, ← Bool.and_assoc]
    congr 1
    have := (toNat_digit high).2
    have := (toNat_digit low).2
    rw [Bool.eq_iff_iff]
    simp only [beq_iff_eq, Bool.and_eq_true, ← UInt8.toNat_inj, UInt8.toNat_ofNat', UInt8.toNat_zero]
    omega

/-- **Keys are in the order of their hex digits.** -/
theorem cmpBytes_hexToBytes : ∀ {s t : Text}, HexText s → HexText t →
    cmpBytes (hexToBytes s) (hexToBytes t) = cmpBytes (s.map digit) (t.map digit)
  | [_], _, hex, _ | _, [_], _, hex => hex.elim
  | [], [], _, _ => rfl
  | [], hi :: lo :: t, _, hex => by
    have zeros := all_zero_hexToBytes hex
    obtain ⟨high, low, -⟩ := hex
    rw [hexToBytes_cons t high low] at zeros ⊢
    simp only [hexToBytes, cmpBytes, map_nil, zeros, map_cons]
  | hi :: lo :: s, [], hex, _ => by
    have zeros := all_zero_hexToBytes hex
    obtain ⟨high, low, -⟩ := hex
    rw [hexToBytes_cons s high low] at zeros ⊢
    simp only [hexToBytes, cmpBytes, map_nil, zeros, map_cons]
  | hi :: lo :: s, hi' :: lo' :: t, ⟨high, low, hex⟩, ⟨high', low', hex'⟩ => by
    rw [hexToBytes_cons s high low, hexToBytes_cons t high' low', cmpBytes,
      cmpBytes_hexToBytes hex hex', compare_halves (toNat_digit high).2 (toNat_digit low).2
        (toNat_digit high').2 (toNat_digit low').2]
    simp only [map_cons, cmpBytes, Ordering.then_assoc]

/-- **A hex text stands before another and its digits behind exactly if their cases clash.** -/
theorem lt_and_gt_iff_caseClash : ∀ {s t : Text}, (∀ c ∈ s, (hexNibble c).isSome) →
    (∀ c ∈ t, (hexNibble c).isSome) →
    (s < t ∧ cmpBytes (s.map digit) (t.map digit) = .gt ↔ CaseClash s t)
  | [], [], _, _ => by simp [CaseClash]
  | [], d :: t, _, _ => by
    simp only [map_nil, map_cons, cmpBytes, CaseClash, iff_false]
    split <;> simp
  | c :: s, [], _, _ => by simp [CaseClash]
  | c :: s, d :: t, hexS, hexT => by
    rw [CaseClash, cons_lt_cons_iff]
    split
    next same =>
      subst same
      rw [← lt_and_gt_iff_caseClash (fun c mem => hexS c (.tail _ mem)) fun c mem =>
        hexT c (.tail _ mem)]
      simp [cmpBytes]
    next differ =>
      have cases := cases_of_lt (hexS c (.head _)) (hexT d (.head _))
      -- the digits can stand behind only if the first one is not smaller
      have behind (gt : cmpBytes ((c :: s).map digit) ((d :: t).map digit) = .gt) :
          digit d ≤ digit c := by
        rw [← UInt8.not_lt]
        intro lt
        simp [cmpBytes, Std.compare_eq_lt.mpr lt] at gt
      simp only [differ, false_and, or_false]
      constructor
      · rintro ⟨lt, gt⟩
        obtain ⟨upper, lower, -⟩ := cases.mp ⟨lt, behind gt⟩
        exact ⟨upper, lower, gt⟩
      · rintro ⟨upper, lower, gt⟩
        exact ⟨(cases.mpr ⟨upper, lower, behind gt⟩).1, gt⟩

theorem hexText_bytesToHexUpper : ∀ bytes : List UInt8, HexText (bytesToHexUpper bytes)
  | [] => trivial
  | b :: bytes => by
    have size : b.toNat < 256 := b.toNat_lt
    have high := EffectivePartitionKey.hexNibble_hexDigit ⟨b.toNat / 16, by omega⟩
    have low := EffectivePartitionKey.hexNibble_hexDigit ⟨b.toNat % 16, by omega⟩
    have rest := hexText_bytesToHexUpper bytes
    exact ⟨by rw [high]; rfl, by rw [low]; rfl, rest⟩

end Digits

section Resolve

variable {print : Json.Value → String} {hash : MurmurHash3} {definition : PartitionKeyDefinition}

theorem hexText_resolveEpkBound {bound : Json.Value} {text : String}
    (hex : ∀ s, bound = .string s → s = "Infinity".toList ∨ HexText s)
    (resolved : resolveEpkBound print hash definition bound = .ok text) : HexText text.toList := by
  have ff : HexText "FF".toList := ⟨rfl, rfl, trivial⟩
  unfold resolveEpkBound at resolved
  split at resolved
  · next s =>
    cases resolved
    split
    · exact ff
    · next other => simpa using (hex s rfl).resolve_left other
  · next items =>
    split at resolved
    · cases resolved
      trivial
    · split at resolved
      · cases resolved
        exact ff
      · obtain ⟨values, -, rest⟩ := bind_ok resolved
        obtain ⟨epk, -, written⟩ := bind_ok rest
        cases written
        simpa [EffectivePartitionKey.toHex] using hexText_bytesToHexUpper epk.bytes
  · cases resolved

/-- Sorting by the texts sorts by the keys exactly if no text stands before one of a smaller key. -/
theorem ascendingKeys_insertionSort_iff {ranges : List QueryRange} :
    AscendingKeys (ranges.insertionSort fun a b => a.min ≤ b.min) ↔
      ∀ a ∈ ranges, ∀ b ∈ ranges, a.min < b.min →
        EffectivePartitionKey.ofHex a.min ≤ .ofHex b.min := by
  have perm := perm_insertionSort (fun a b : QueryRange => a.min ≤ b.min) ranges
  have sorted := pairwise_insertionSort (fun a b : QueryRange => a.min ≤ b.min) ranges
  refine ⟨fun ascending a ha b hb before => ?_, fun agree => sorted.imp_of_mem fun {a b} ha hb le => ?_⟩
  · obtain ⟨i, hi, rfl⟩ := getElem_of_mem (perm.mem_iff.mpr ha)
    obtain ⟨j, hj, rfl⟩ := getElem_of_mem (perm.mem_iff.mpr hb)
    rcases Nat.lt_or_ge i j with lt | ge
    · exact pairwise_iff_getElem.mp ascending i j hi hj lt
    · -- the later one is not before the earlier one
      rcases Nat.lt_or_eq_of_le ge with gt | same
      · exact absurd (pairwise_iff_getElem.mp sorted j i hj hi gt) (Std.not_le.mpr before)
      · subst same
        exact Std.le_refl _
  · by_cases same : a.min = b.min
    · rw [same]
      exact Std.le_refl _
    · exact agree a (perm.mem_iff.mp ha) b (perm.mem_iff.mp hb) (Std.lt_of_le_of_ne le same)

/-- Two hex texts stand in the order of their keys unless their cases clash. -/
theorem ofHex_le_iff {s t : String} (hexS : HexText s.toList) (hexT : HexText t.toList) :
    (s < t → EffectivePartitionKey.ofHex s ≤ .ofHex t) ↔ ¬ CaseClash s.toList t.toList := by
  rw [← lt_and_gt_iff_caseClash hexS.isSome hexT.isSome, ← cmpBytes_hexToBytes hexS hexT,
    ← EffectivePartitionKey.cmp_eq_cmpBytes, not_and]
  rfl

/-- **A resolved plan has the ranges it was sent, in the order of their keys exactly if the digits of
no two lower bounds, as sent or as hashed, clash in their cases.** -/
theorem resolve_ascending_iff (raw : RawQueryPlan) {ranges : List QueryRange}
    (sent : raw.queryRanges.mapM (RawQueryRange.resolve print hash definition) = .ok ranges)
    (hex : ∀ range ∈ raw.queryRanges, ∀ s, range.min = .string s →
      s = "Infinity".toList ∨ HexText s) :
    ∃ plan, raw.resolve print hash definition = .ok plan ∧ plan.queryRanges.Perm ranges ∧
      (AscendingKeys plan.queryRanges ↔
        ∀ a ∈ raw.queryRanges, ∀ b ∈ raw.queryRanges, ∀ s t,
          resolveEpkBound print hash definition a.min = .ok s →
          resolveEpkBound print hash definition b.min = .ok t → ¬ CaseClash s.toList t.toList) := by
  obtain ⟨forth, back⟩ := mapM_ok sent
  have lower {range : RawQueryRange} {r : QueryRange}
      (resolved : range.resolve print hash definition = .ok r) :
      resolveEpkBound print hash definition range.min = .ok r.min := by
    obtain ⟨min, resolvedMin, rest⟩ := bind_ok resolved
    obtain ⟨max, -, built⟩ := bind_ok rest
    cases built
    exact resolvedMin
  refine ⟨_, by rw [RawQueryPlan.resolve, sent]; rfl, perm_insertionSort _ _, ?_⟩
  rw [ascendingKeys_insertionSort_iff]
  constructor
  · intro agree a ha b hb s t textA textB
    obtain ⟨r, hr, resolvedA⟩ := forth a ha
    obtain ⟨q, hq, resolvedB⟩ := forth b hb
    cases (lower resolvedA).symm.trans textA
    cases (lower resolvedB).symm.trans textB
    exact (ofHex_le_iff (hexText_resolveEpkBound (hex a ha) textA)
      (hexText_resolveEpkBound (hex b hb) textB)).mp (agree r hr q hq)
  · intro apart r hr q hq
    obtain ⟨a, ha, resolvedA⟩ := back r hr
    obtain ⟨b, hb, resolvedB⟩ := back q hq
    exact (ofHex_le_iff (hexText_resolveEpkBound (hex a ha) (lower resolvedA))
      (hexText_resolveEpkBound (hex b hb) (lower resolvedB))).mpr
      (apart a ha b hb _ _ (lower resolvedA) (lower resolvedB))

end Resolve

/-- Resolves a plan whose bounds are texts: nothing is hashed. -/
def resolveTexts (raw : RawQueryPlan) : Result QueryPlan :=
  raw.resolve (fun _ => "") ⟨fun _ => 0, fun _ => 0⟩ ⟨[], .hash, .v2⟩

def adjacent (lo middle hi : Text) : RawQueryPlan :=
  ⟨none, [⟨.string lo, .string middle, false⟩, ⟨.string middle, .string hi, false⟩], false⟩

theorem rising_cases_in_order :
    ∃ plan, resolveTexts (adjacent ['0', 'A'] ['0', 'b'] ['0', 'C']) = .ok plan ∧
      AscendingKeys plan.queryRanges := by
  have hex : ∀ range ∈ (adjacent ['0', 'A'] ['0', 'b'] ['0', 'C']).queryRanges, ∀ s,
      range.min = .string s → s = "Infinity".toList ∨ HexText s := by
    rintro range (_ | ⟨_, _ | ⟨_, ⟨⟩⟩⟩) s ⟨⟩ <;> exact .inr ⟨rfl, rfl, trivial⟩
  obtain ⟨plan, resolved, _, ascending⟩ := resolve_ascending_iff
    (adjacent ['0', 'A'] ['0', 'b'] ['0', 'C']) rfl hex
  refine ⟨plan, resolved, ascending.mpr ?_⟩
  rintro a (_ | ⟨_, _ | ⟨_, ⟨⟩⟩⟩) b (_ | ⟨_, _ | ⟨_, ⟨⟩⟩⟩) s t ⟨⟩ ⟨⟩ <;> decide

theorem mixed_case_out_of_order :
    resolveTexts (adjacent ['0', 'b'] ['0', 'C'] ['0', 'D']) =
        .ok ⟨none, [⟨"0C", "0D", false⟩, ⟨"0b", "0C", false⟩], false⟩ ∧
      ¬ AscendingKeys [⟨"0C", "0D", false⟩, ⟨"0b", "0C", false⟩] := by
  unfold AscendingKeys
  decide

end AzureSdk.Cosmos.Dataflow
