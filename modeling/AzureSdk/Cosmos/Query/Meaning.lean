/-
# Cosmos.Query.Meaning — what a partition key filter says

A filter stands for the keys that start with one of its tuples.  An entry of a tuple
stands for the keys equal to its value; for a parameter without a usable value that is the
value it is run with.  Uniting filters keeps the keys of both, and intersecting them keeps
the keys they share, unless one has them by an open tuple only (`Kept`).
-/
import Mathlib.Algebra.Order.BigOperators.Ring.List
import Mathlib.Algebra.Order.Ring.Nat
import Mathlib.Data.List.DropRight
import Mathlib.Data.List.Forall2
import AzureSdk.Cosmos.Query.Eval
import AzureSdk.Cosmos.Query.Plan

namespace AzureSdk.Cosmos.Query

open Theory CosmosValue List Float64

/-- The evaluator finds the values equal; it compares them as the query writes them. -/
def Same (a b : CosmosValue) : Prop := (cosmosEq a b).isTrue = true ∨ (cosmosEq b a).isTrue = true

/-- The entry stands for the key; all parameters have a value. -/
def Stands (params : Params) : PartitionKeyValue → CosmosValue → Prop
  | .string s, key => key = .string s
  | .number n, key => ∃ k, asNumber key = some k ∧ Float64.eq k n = true
  | .bool b, key => key = .boolean b
  | .null, key => key = .null
  | .undefined, key => key = .undefined
  | .unboundParameter name, key | .invalidParameter name _, key =>
    ∃ value, resolveParameterValue params name = some value ∧ Same key (fromJson value)

def Starts (params : Params) : List PartitionKeyValue → List CosmosValue → Prop
  | [], _ => True
  | e :: tuple, key :: keys => Stands params e key ∧ Starts params tuple keys
  | _ :: _, [] => False

def Satisfied (params : Params) (keys : List CosmosValue) : PartitionKeyFilter → Prop
  | .equality tuple => Starts params tuple keys
  | .inList tuples => ∃ tuple ∈ tuples, Starts params tuple keys
  | .unconstrained | .notEvaluated => True
  | .contradictory => False

/-! ## Entries -/

namespace PartitionKeyValue

theorem beq_def (a b : PartitionKeyValue) : (a == b) = eq a b := rfl

end PartitionKeyValue

variable {params : Params} {a b e : PartitionKeyValue} {key : CosmosValue}

theorem Stands.of_beq (same : (a == b) = true) (h : Stands params b key) : Stands params a key := by
  rw [PartitionKeyValue.beq_def] at same
  cases a <;> cases b <;>
    simp only [PartitionKeyValue.eq, beq_iff_eq, Bool.and_eq_true, Bool.false_eq_true] at same
  case number.number x y =>
    obtain ⟨k, number, equal⟩ := h
    exact ⟨k, number, eq_trans equal (eq_symm same)⟩
  case invalidParameter.invalidParameter =>
    obtain ⟨rfl, rfl⟩ := same
    exact h
  case null.null | undefined.undefined => exact h
  all_goals
    subst same
    exact h

theorem Stands.unique (ha : Stands params a key) (hb : Stands params b key)
    (resolvedA : a.isUnresolved = false) (resolvedB : b.isUnresolved = false) :
    (a == b) = true := by
  rw [PartitionKeyValue.beq_def]
  cases a with
  | unboundParameter | invalidParameter => cases resolvedA
  | number x =>
    obtain ⟨k, number, left⟩ := ha
    cases b with
    | unboundParameter | invalidParameter => cases resolvedB
    | number y =>
      obtain ⟨k', number', right⟩ := hb
      rw [number] at number'
      cases number'
      exact eq_trans (eq_symm left) right
    | string | bool | null | undefined =>
      cases hb
      cases number
  | string | bool | null | undefined =>
    cases ha
    cases b with
    | unboundParameter | invalidParameter => cases resolvedB
    | number y =>
      obtain ⟨k, number, _⟩ := hb
      cases number
    | string | bool | null | undefined =>
      cases hb <;> simp [PartitionKeyValue.eq]

/-! ## Operands -/

variable {v : CosmosValue} {n : Float64}

theorem isTrue_iff : v.isTrue = true ↔ v = .boolean true := by
  cases v with
  | boolean b => cases b <;> simp [CosmosValue.isTrue]
  | null | number | integer | string | array | object | undefined => simp [CosmosValue.isTrue]

theorem not_same_undefined : ¬ Same .undefined v := by
  cases v <;> simp [Same, cosmosEq, CosmosValue.isTrue]

theorem Same.string {s : Text} (h : Same key (.string s)) : key = .string s := by
  cases key with
  | string t =>
    simp only [Same, cosmosEq, CosmosValue.isTrue, beq_iff_eq] at h
    rw [h.elim id Eq.symm]
  | null | boolean | number | integer | array | object | undefined =>
    simp [Same, cosmosEq, CosmosValue.isTrue] at h

theorem Same.boolean {x : Bool} (h : Same key (.boolean x)) : key = .boolean x := by
  cases key with
  | boolean y =>
    simp only [Same, cosmosEq, CosmosValue.isTrue, beq_iff_eq] at h
    rw [h.elim id Eq.symm]
  | null | string | number | integer | array | object | undefined =>
    simp [Same, cosmosEq, CosmosValue.isTrue] at h

theorem Same.null (h : Same key .null) : key = .null := by
  cases key <;> simp_all [Same, cosmosEq, CosmosValue.isTrue]

theorem Same.number (h : Same key (.number n)) :
    ∃ k, asNumber key = some k ∧ Float64.eq k n = true := by
  cases key with
  | number k => exact ⟨k, rfl, h.elim id eq_symm⟩
  | integer k => exact ⟨ofI64 k, rfl, h.elim id eq_symm⟩
  | null | boolean | string | array | object | undefined =>
    simp [Same, cosmosEq, CosmosValue.isTrue] at h

/-- Equal integers are equal doubles, if they are doubles at all. -/
theorem Same.integer {n : Int64} (h : Same key (.integer n))
    (finite : Float64.isFinite (ofI64 n) = true) :
    ∃ k, asNumber key = some k ∧ Float64.eq k (ofI64 n) = true := by
  cases key with
  | number k => exact ⟨k, rfl, h.elim id eq_symm⟩
  | integer k =>
    have same : k = n := by
      simp only [Same, cosmosEq, CosmosValue.isTrue, beq_iff_eq] at h
      exact h.elim id Eq.symm
    refine ⟨ofI64 k, rfl, ?_⟩
    rw [same]
    exact eq_refl finite
  | null | boolean | string | array | object | undefined =>
    simp [Same, cosmosEq, CosmosValue.isTrue] at h

theorem tryNumber_eq_some (h : PartitionKeyValue.tryNumber n = some e) :
    e = .number n ∧ Float64.isFinite n = true := by
  unfold PartitionKeyValue.tryNumber at h
  split at h
  · cases h
    exact ⟨rfl, by assumption⟩
  · cases h

theorem resolve_normalized (name : Text) :
    resolveParameterValue params (normalizeParameterName name) = resolveParameterValue params name := by
  unfold resolveParameterValue normalizeParameterName
  rw [dropWhile_idempotent]

theorem ofI64_ofNat {m : Nat} (small : m < 2 ^ 63) : ofI64 (Int64.ofNat m) = Float64.ofNat m := by
  unfold ofI64 Float64.ofInt
  rw [Int64.toInt_ofNat_of_lt small, if_neg (by omega), Int.natAbs_natCast]

/-- A JSON number as the evaluator and as the planner read it. -/
theorem Same.fromNumber {n : Json.Number} (h : Same key (fromNumber n))
    (finite : Float64.isFinite (asF64 n) = true) :
    ∃ k, asNumber key = some k ∧ Float64.eq k (asF64 n) = true := by
  unfold CosmosValue.fromNumber at h
  cases n with
  | posInt m =>
    rw [asI64] at h
    split at h
    · rename_i i some
      split at some
      · rename_i small
        cases some
        have same : asF64 (.posInt m) = ofI64 (Int64.ofNat m.toNat) :=
          (ofI64_ofNat small).symm
        rw [same] at finite ⊢
        exact h.integer finite
      · cases some
    · exact h.number
  | negInt m => exact h.integer finite
  | float bits => exact h.number

section Operands

variable {std : Intrinsics} {row : Json.Value} {evalAlias : Option Text} {fmt : Formatting}
variable {supplied assigned : Params}

/-- An operand that equals the key gives an entry that stands for it. -/
theorem stands_of_same {operand : SqlScalarExpression} {v : CosmosValue}
    (extracted : extractLiteralValue fmt supplied operand = some e)
    (evaluated : evalScalar std row evalAlias (supplied ++ assigned) operand = .ok v)
    (same : Same key v) : Stands (supplied ++ assigned) e key := by
  cases operand with
  | literal lit =>
    rw [evalScalar] at evaluated
    cases evaluated
    cases lit with
    | string s =>
      cases extracted
      exact same.string
    | number n =>
      obtain ⟨rfl, -⟩ := tryNumber_eq_some extracted
      exact same.number
    | integer n =>
      obtain ⟨rfl, finite⟩ := tryNumber_eq_some extracted
      exact same.integer finite
    | boolean b =>
      cases extracted
      exact same.boolean
    | null =>
      cases extracted
      exact same.null
    | undefined => exact absurd same.symm not_same_undefined
  | parameterRef name =>
    cases extracted
    rw [evalScalar] at evaluated
    -- the value the parameter is run with
    obtain ⟨value, bound, rfl⟩ : ∃ value, resolveParameterValue (supplied ++ assigned) name =
        some value ∧ fromJson value = v := by
      split at evaluated
      · cases evaluated
        exact ⟨_, by assumption, rfl⟩
      · cases evaluated
    have named : ∃ value, resolveParameterValue (supplied ++ assigned)
        (normalizeParameterName name) = some value ∧ Same key (fromJson value) :=
      ⟨value, (resolve_normalized name).trans bound, same⟩
    unfold resolvePkParameter
    cases given : resolveParameterValue supplied name with
    | none => exact named
    | some found =>
      have agree := (resolve_supplied given assigned).symm.trans bound
      cases agree
      cases value with
      | string s => exact same.string
      | bool b => exact same.boolean
      | null => exact same.null
      | array items => exact named
      | object members => exact named
      | number n =>
        show Stands _ ((PartitionKeyValue.tryNumber (asF64 n)).getD _) key
        cases number : PartitionKeyValue.tryNumber (asF64 n) with
        | none => exact named
        | some entry =>
          obtain ⟨rfl, finite⟩ := tryNumber_eq_some number
          exact same.fromNumber finite
  | propertyRef | memberRef | memberIndexer | binary | unary | functionCall | between | inItems | like
  | conditional | coalesce | existsQuery | subquery | array | arrayCreate | objectCreate | isNull =>
    cases extracted

end Operands

/-! ## Tuples and filters -/

variable {keys : List CosmosValue} {s t : List PartitionKeyValue}

theorem Starts.of_beq : ∀ {s t : List PartitionKeyValue} {keys : List CosmosValue}, (s == t) = true →
    Starts params t keys → Starts params s keys
  | [], _, _, _, _ => trivial
  | a :: s, b :: t, key :: keys, same, h => by
    rw [cons_beq_cons, Bool.and_eq_true] at same
    exact ⟨h.1.of_beq same.1, h.2.of_beq same.2⟩

theorem starts_singleton : Starts params [e] [key] ↔ Stands params e key := and_iff_left trivial

variable {compared : Compared}

section Dedupe

variable {deduped values : List (List PartitionKeyValue)}

theorem starts_dedupeStep (h : Starts params t keys)
    (mem : t ∈ deduped ++ [s]) : ∃ u ∈ dedupeStep compared deduped s, Starts params u keys := by
  unfold dedupeStep
  split
  · rename_i any
    rcases mem_append.mp mem with mem | mem
    · exact ⟨t, mem, h⟩
    · obtain ⟨seen, mem', same⟩ := any_eq_true.mp any
      rw [Bool.and_eq_true] at same
      rw [mem_singleton.mp mem] at h
      exact ⟨seen, mem', h.of_beq same.2⟩
  · exact ⟨t, mem, h⟩

theorem starts_foldl_dedupe (h : ∃ t ∈ deduped ++ values, Starts params t keys) :
    ∃ t ∈ values.foldl (dedupeStep compared) deduped, Starts params t keys := by
  induction values generalizing deduped with
  | nil =>
    rw [append_nil] at h
    exact h
  | cons value values ih =>
    obtain ⟨t, mem, h⟩ := h
    rw [foldl_cons]
    apply ih
    rw [← singleton_append, ← append_assoc] at mem
    rcases mem_append.mp mem with mem | mem
    · obtain ⟨u, mem, h⟩ : ∃ u ∈ dedupeStep compared deduped value, Starts params u keys :=
        starts_dedupeStep h mem
      exact ⟨u, mem_append_left _ mem, h⟩
    · exact ⟨t, mem_append_right _ mem, h⟩

theorem mem_dedupeStep (mem : t ∈ dedupeStep compared deduped s) : t ∈ deduped ++ [s] := by
  unfold dedupeStep at mem
  split at mem
  · exact mem_append_left _ mem
  · exact mem

theorem mem_foldl_dedupe
    (mem : t ∈ values.foldl (dedupeStep compared) deduped) : t ∈ deduped ++ values := by
  induction values generalizing deduped with
  | nil => exact mem_append_left _ mem
  | cons value values ih =>
    rw [foldl_cons] at mem
    rw [← singleton_append, ← append_assoc]
    rcases mem_append.mp (ih mem) with mem | mem
    · exact mem_append_left _ (mem_dedupeStep mem)
    · exact mem_append_right _ mem

end Dedupe

/-! ## Unions and intersections -/

section Algebra

variable {f g : PartitionKeyFilter}

def tuplesOf : PartitionKeyFilter → List (List PartitionKeyValue)
  | .equality t => [t]
  | .inList ts => ts
  | _ => []

theorem satisfied_of_mem (mem : t ∈ tuplesOf f) (h : Starts params t keys) :
    Satisfied params keys f := by
  cases f with
  | equality a => exact mem_singleton.mp mem ▸ h
  | inList list => exact ⟨t, mem, h⟩
  | unconstrained | notEvaluated | contradictory => cases mem

theorem tuplesOf_normalize (values : List (List PartitionKeyValue)) :
    tuplesOf (normalizePkUnion compared values) = dedupe compared values := by
  unfold normalizePkUnion
  split <;> simp [tuplesOf, *]

theorem satisfied_normalize {values : List (List PartitionKeyValue)}
    (h : ∃ t ∈ values, Starts params t keys) :
    Satisfied params keys (normalizePkUnion compared values) := by
  obtain ⟨t, mem, h⟩ : ∃ t ∈ dedupe compared values, Starts params t keys := starts_foldl_dedupe h
  rw [← tuplesOf_normalize] at mem
  exact satisfied_of_mem mem h

theorem satisfied_union (h : Satisfied params keys f ∨ Satisfied params keys g) :
    Satisfied params keys (unionPkFilters compared f g) := by
  cases f with
  | equality a | inList a =>
    cases g with
    | equality b | inList b =>
      refine satisfied_normalize ?_
      simp only [Satisfied, mem_append, mem_cons, not_mem_nil, or_false, or_and_right, exists_or,
        exists_eq_left] at h ⊢
      first
      | exact h
      | exact h.symm
    | contradictory => exact h.resolve_right id
    | unconstrained | notEvaluated => trivial
  | contradictory => exact h.resolve_left id
  | unconstrained | notEvaluated => cases g <;> trivial

/-- The keys start with both tuples, and one of these has a parameter left open. -/
def Meets (params : Params) (keys : List CosmosValue) (s t : List PartitionKeyValue) : Prop :=
  (s.any (·.isUnresolved) || t.any (·.isUnresolved)) = true ∧ Starts params s keys ∧
    Starts params t keys

/-- Where the intersection of two filters compares an open tuple, it loses no key of both. -/
def Kept (params : Params) : PartitionKeyFilter → PartitionKeyFilter → Prop
  | .equality eq, .inList list | .inList list, .equality eq =>
    eq.any (·.isUnresolved) = true ∨ list.contains eq = true ∨
      ∀ t ∈ list, ∀ keys, ¬ Meets params keys eq t
  | .inList list, .inList more =>
    ∀ s ∈ list, ∀ t ∈ more, ∀ keys, Meets params keys s t →
      ∃ u ∈ list, more.contains u = true ∧ Starts params u keys
  | _, _ => True

def Unary (f : PartitionKeyFilter) : Prop := ∀ t ∈ tuplesOf f, t.length = 1

theorem contains_of_beq {α : Type} [BEq α] {l : List α} {x y : α} (mem : y ∈ l)
    (same : (x == y) = true) : l.contains x = true := by
  rw [contains_eq_any_beq, any_eq_true]
  exact ⟨y, mem, same⟩

/-- Two tuples without open entries that start one key are the same. -/
theorem beq_of_not_meets (unaryS : s.length = 1) (unaryT : t.length = 1)
    (startsS : Starts params s keys) (startsT : Starts params t keys)
    (apart : ¬ Meets params keys s t) : (s == t) = true := by
  obtain ⟨a, rfl⟩ := length_eq_one_iff.mp unaryS
  obtain ⟨b, rfl⟩ := length_eq_one_iff.mp unaryT
  have resolved : a.isUnresolved = false ∧ b.isUnresolved = false := by
    simpa [Meets, startsS, startsT] using apart
  cases keys with
  | nil => exact startsS.elim
  | cons key keys =>
    rw [cons_beq_cons, startsS.1.unique startsT.1 resolved.1 resolved.2]
    rfl

theorem satisfied_narrow {eq : List PartitionKeyValue} {list : List (List PartitionKeyValue)}
    (unary : eq.length = 1) (each : ∀ t ∈ list, t.length = 1)
    (one : Starts params eq keys) (some : ∃ t ∈ list, Starts params t keys)
    (kept : eq.any (·.isUnresolved) = true ∨ list.contains eq = true ∨
      ∀ t ∈ list, ∀ keys, ¬ Meets params keys eq t) :
    Satisfied params keys (narrowToEquality compared eq list) := by
  unfold narrowToEquality
  split
  · exact satisfied_normalize some
  · rename_i resolved
    have inside : list.contains eq = true := by
      rcases kept with unresolved | inside | apart
      · exact absurd unresolved resolved
      · exact inside
      · obtain ⟨t, mem, starts⟩ := some
        exact contains_of_beq mem (beq_of_not_meets unary (each t mem) one starts (apart t mem keys))
    rw [if_pos inside]
    exact one

theorem tuplesOf_both (list more : List (List PartitionKeyValue)) :
    tuplesOf (intersectPkFilters compared (.inList list) (.inList more)) =
      list.filter fun item => more.contains item := by
  rw [intersectPkFilters]
  split <;> simp [tuplesOf, *]

theorem satisfied_both {list more : List (List PartitionKeyValue)}
    (unaryF : Unary (.inList list)) (unaryG : Unary (.inList more))
    (hf : Satisfied params keys (.inList list)) (hg : Satisfied params keys (.inList more))
    (kept : Kept params (.inList list) (.inList more)) :
    Satisfied params keys (intersectPkFilters compared (.inList list) (.inList more)) := by
  obtain ⟨s, mem, startsS⟩ := hf
  obtain ⟨t, mem', startsT⟩ := hg
  have shared : ∃ u ∈ list.filter fun item => more.contains item, Starts params u keys := by
    by_cases meets : Meets params keys s t
    · obtain ⟨u, inside, also, starts⟩ := kept s mem t mem' keys meets
      exact ⟨u, mem_filter.mpr ⟨inside, also⟩, starts⟩
    · have same := beq_of_not_meets (unaryF s mem) (unaryG t mem') startsS startsT meets
      exact ⟨s, mem_filter.mpr ⟨mem, contains_of_beq mem' same⟩, startsS⟩
  obtain ⟨u, inside, starts⟩ := shared
  rw [← tuplesOf_both] at inside
  exact satisfied_of_mem inside starts

/-- What both filters let pass, their intersection does. -/
theorem satisfied_intersect (unaryF : Unary f) (unaryG : Unary g) (hf : Satisfied params keys f)
    (hg : Satisfied params keys g) (kept : Kept params f g) :
    Satisfied params keys (intersectPkFilters compared f g) := by
  cases f with
  | unconstrained => exact hg
  | contradictory => exact hf.elim
  | notEvaluated =>
    cases g with
    | contradictory => exact hg.elim
    | equality | inList | unconstrained | notEvaluated => exact hg
  | equality a =>
    cases g with
    | unconstrained | notEvaluated => exact hf
    | contradictory => exact hg.elim
    | equality b =>
      rw [intersectPkFilters]
      cases openA : a.any (·.isUnresolved) with
      | true =>
        cases openB : b.any (·.isUnresolved) with
        | true => trivial
        | false => exact hg
      | false =>
        cases openB : b.any (·.isUnresolved) with
        | true => exact hf
        | false =>
          have same := beq_of_not_meets (unaryF a (.head _)) (unaryG b (.head _)) hf hg
            fun meets => by simp [Meets, openA, openB] at meets
          simp only [same, if_true]
          exact hf
    | inList list => exact satisfied_narrow (unaryF a (.head _)) unaryG hf hg kept
  | inList list =>
    cases g with
    | unconstrained | notEvaluated => exact hf
    | contradictory => exact hg.elim
    | equality b => exact satisfied_narrow (unaryG b (.head _)) unaryF hg hf kept
    | inList more => exact satisfied_both unaryF unaryG hf hg kept

theorem tuplesOf_normalize_subset {values : List (List PartitionKeyValue)} :
    tuplesOf (normalizePkUnion compared values) ⊆ values := by
  rw [tuplesOf_normalize]
  exact fun t mem => by simpa using mem_foldl_dedupe mem

theorem tuplesOf_narrow {eq : List PartitionKeyValue} {list : List (List PartitionKeyValue)} :
    tuplesOf (narrowToEquality compared eq list) ⊆ eq :: list := by
  unfold narrowToEquality
  split
  · exact fun t mem => .tail _ (tuplesOf_normalize_subset mem)
  · split
    · exact fun t mem => mem_singleton.mp mem ▸ .head _
    · exact nil_subset _

/-- Intersecting and uniting make no new tuples. -/
theorem tuplesOf_intersect :
    tuplesOf (intersectPkFilters compared f g) ⊆ tuplesOf f ++ tuplesOf g := by
  cases f with
  | unconstrained => exact subset_append_right _ _
  | contradictory | notEvaluated => cases g <;> simp [intersectPkFilters, tuplesOf]
  | equality a =>
    cases g with
    | unconstrained | notEvaluated | contradictory => simp [intersectPkFilters, tuplesOf]
    | equality b =>
      rw [intersectPkFilters]
      split <;> try split
      all_goals simp [tuplesOf]
    | inList list => exact tuplesOf_narrow
  | inList list =>
    cases g with
    | unconstrained | notEvaluated | contradictory => simp [intersectPkFilters, tuplesOf]
    | equality b =>
      intro t mem
      rcases mem_cons.mp (tuplesOf_narrow mem) with rfl | mem
      · exact mem_append_right _ (.head _)
      · exact mem_append_left _ mem
    | inList more =>
      rw [tuplesOf_both]
      exact fun t mem => mem_append_left _ (mem_filter.mp mem).1

theorem tuplesOf_union : tuplesOf (unionPkFilters compared f g) ⊆ tuplesOf f ++ tuplesOf g := by
  cases f with
  | unconstrained | notEvaluated => cases g <;> simp [unionPkFilters, tuplesOf]
  | contradictory => exact subset_append_right _ _
  | equality a =>
    cases g with
    | unconstrained | notEvaluated | contradictory => simp [unionPkFilters, tuplesOf]
    | equality b => exact tuplesOf_normalize_subset
    | inList list =>
      exact fun t mem => mem_append.mpr (mem_append.mp (tuplesOf_normalize_subset mem)).symm
  | inList list =>
    cases g with
    | unconstrained | notEvaluated | contradictory => simp [unionPkFilters, tuplesOf]
    | equality b | inList more => exact tuplesOf_normalize_subset

end Algebra

/-! ## Products -/

section Products

variable {components : List (List PartitionKeyValue)}

/-- A component holds an entry for its key. -/
def Holds (params : Params) (values : List PartitionKeyValue) (key : CosmosValue) : Prop :=
  ∃ e ∈ values, Stands params e key

theorem starts_of_forall₂ (h : List.Forall₂ (Stands params) t keys) (more : List CosmosValue) :
    Starts params t (keys ++ more) := by
  induction h with
  | nil => trivial
  | cons first _ ih => exact ⟨first, ih⟩

theorem foldl_cartesian {done : List CosmosValue} {tuples : List (List PartitionKeyValue)}
    (started : ∃ t ∈ tuples, List.Forall₂ (Stands params) t done)
    (h : List.Forall₂ (Holds params) components keys) :
    ∃ t ∈ components.foldl
        (fun tuples component => tuples.flatMap fun t => component.map fun v => t ++ [v]) tuples,
      List.Forall₂ (Stands params) t (done ++ keys) := by
  induction h generalizing done tuples with
  | nil =>
    rw [append_nil]
    exact started
  | @cons values key components keys holds _ ih =>
    obtain ⟨t, mem, before⟩ := started
    obtain ⟨e, mem', stands⟩ := holds
    rw [append_cons, foldl_cons]
    refine ih ⟨t ++ [e], ?_, rel_append before (.cons stands .nil)⟩
    exact mem_flatMap.mpr ⟨t, mem, mem_map_of_mem mem'⟩

theorem starts_cartesian (h : List.Forall₂ (Holds params) components keys)
    (more : List CosmosValue) : ∃ t ∈ cartesian components, Starts params t (keys ++ more) := by
  obtain ⟨t, mem, all⟩ : ∃ t ∈ cartesian components, List.Forall₂ (Stands params) t ([] ++ keys) :=
    foldl_cartesian ⟨[], mem_singleton_self [], .nil⟩ h
  exact ⟨t, mem, starts_of_forall₂ all more⟩

theorem prod_lengths_pos (some : ∀ values ∈ components, values ≠ []) :
    0 < (components.map List.length).prod := by
  refine CanonicallyOrderedAdd.list_prod_pos.mpr (forall_mem_map.mpr fun values inside => ?_)
  exact length_pos_of_ne_nil (some values inside)

theorem foldl_tupleCount {total : Nat} (some : ∀ values ∈ components, values ≠ [])
    (fits : total * (components.map List.length).prod < 2 ^ 64) :
    components.foldl (fun total component => total * component.length % 2 ^ 64) total =
      total * (components.map List.length).prod := by
  induction components generalizing total with
  | nil => simp
  | cons values components ih =>
    have positive := prod_lengths_pos fun rest mem => some rest (.tail _ mem)
    rw [map_cons, prod_cons, ← Nat.mul_assoc] at fits ⊢
    have small : total * values.length < 2 ^ 64 :=
      (Nat.le_mul_of_pos_right _ positive).trans_lt fits
    rw [foldl_cons, Nat.mod_eq_of_lt small]
    exact ih (fun rest mem => some rest (.tail _ mem)) fits

theorem ne_nil_of_holds (h : List.Forall₂ (Holds params) components keys) :
    ∀ values ∈ components, values ≠ [] := by
  induction h with
  | nil => nofun
  | cons holds _ ih =>
    obtain ⟨e, mem, _⟩ := holds
    exact forall_mem_cons.mpr ⟨ne_nil_of_mem mem, ih⟩

theorem satisfied_tupleFilter (h : List.Forall₂ (Holds params) components keys)
    (fits : (components.map List.length).prod < 2 ^ 64) (more : List CosmosValue) :
    Satisfied params (keys ++ more) (tupleFilter components) := by
  have some := ne_nil_of_holds h
  have count : tupleCount components = (components.map List.length).prod := by
    have folded : tupleCount components = 1 * (components.map List.length).prod :=
      foldl_tupleCount some (by rw [Nat.one_mul]; exact fits)
    rwa [Nat.one_mul] at folded
  have positive := Nat.ne_of_gt (prod_lengths_pos some)
  have found := starts_cartesian h more
  unfold tupleFilter
  rw [count, if_neg positive]
  split
  · trivial
  · split
    · rename_i tuple only
      rw [only] at found
      simpa [Satisfied] using found
    · exact found

end Products

end AzureSdk.Cosmos.Query
