/-
# Cosmos.Query.HierarchicalPk — the filter of a key with several paths

For each component the members of a conjunction leave one value, or a list of values, one
of which stands for the key.  The scan of the members keeps that (`Scanned`): it gives up
only where two members name values that are not the same, which no key has both of.  The
tuples of the leading components then start the key, unless their number does not fit.
-/
import AzureSdk.Cosmos.Query.SinglePk

namespace AzureSdk.Cosmos.Query

open Theory CosmosValue List

section Condition

variable (fmt : Formatting) (rootAlias : Option Text) (supplied assigned : Params)
  (faithful : SqlScalarExpression → Prop)

/-- Where a member meets what the scan has of a component, with a parameter left open, it loses no key
of both. -/
def ScanKept (pkPath : List Text) (component : Component) : SqlScalarExpression → Prop
  | .binary .equal left right =>
    ∀ existing v, component.equalValue = some existing →
      componentOperand fmt rootAlias supplied pkPath left right = some v →
      (existing == v) = true ∨ ∀ key, ¬ Meets (supplied ++ assigned) [key] [existing] [v]
  | .inItems expression items false =>
    isPkReference expression pkPath rootAlias = true →
      ∀ existing vs, component.inValues = some existing →
        items.mapM (extractLiteralValue fmt supplied) = some vs →
        ∀ e ∈ existing, ∀ v ∈ vs, ∀ key, Meets (supplied ++ assigned) [key] [e] [v] →
          ∃ u ∈ existing, vs.contains u = true ∧ Stands (supplied ++ assigned) u key
  | _ => True

/-- The same of the one value and the list that are left. -/
def ValuesKept (component : Component) : Prop :=
  ∀ eq list, component.equalValue = some eq → component.inValues = some list →
    list.contains eq = true ∨ ∀ e ∈ list, ∀ key, ¬ Meets (supplied ++ assigned) [key] [eq] [e]

/-- The loop over the members. -/
def ScansKept (pkPath : List Text) : Component → List SqlScalarExpression → Prop
  | component, [] => ValuesKept supplied assigned component
  | component, x :: members =>
    Trusted fmt rootAlias supplied faithful pkPath x ∧
      ScanKept fmt rootAlias supplied assigned pkPath component x ∧
      ∀ next, scanConjunct fmt rootAlias supplied pkPath component x = .ok next →
        ScansKept pkPath next members

/-- The loop over the components, and the product that is formed at its end. -/
def ComponentsKept (conjuncts : List SqlScalarExpression) :
    List (List Text) → List (List PartitionKeyValue) → Prop
  | [], done => (done.map List.length).prod < 2 ^ 64
  | pkPath :: pkSegments, done =>
    ScansKept fmt rootAlias supplied assigned faithful pkPath ⟨none, none⟩ conjuncts ∧
      ∀ component values,
        conjuncts.foldlM (scanConjunct fmt rootAlias supplied pkPath) ⟨none, none⟩ = .ok component →
        componentValues component = .ok values →
        match values with
        | some values => ComponentsKept conjuncts pkSegments (done ++ [values])
        | none => (done.map List.length).prod < 2 ^ 64

/-- What the extraction of a filter meets on its way is right. -/
inductive HierarchicalClear (pkSegments : List (List Text)) : SqlScalarExpression → Prop
  | conjunction {expr : SqlScalarExpression} (notOr : ∀ left right, expr ≠ .binary .or left right)
      (kept : ComponentsKept fmt rootAlias supplied assigned faithful (flattenAnd expr) pkSegments []) :
      HierarchicalClear pkSegments expr
  | or {left right : SqlScalarExpression}
      (members : ∀ x ∈ flattenOr (.binary .or left right), HierarchicalClear pkSegments x) :
      HierarchicalClear pkSegments (.binary .or left right)

end Condition

structure Scanned (params : Params) (key : CosmosValue) (component : Component) : Prop where
  equal : ∀ v, component.equalValue = some v → Stands params v key
  list : ∀ vs, component.inValues = some vs → Holds params vs key

theorem beq_of_apart {params : Params} {key : CosmosValue} {a b : PartitionKeyValue}
    (standsA : Stands params a key) (standsB : Stands params b key)
    (apart : ¬ Meets params [key] [a] [b]) : (a == b) = true := by
  simpa using beq_of_not_meets rfl rfl (starts_singleton.mpr standsA) (starts_singleton.mpr standsB)
    apart

namespace Reading

variable (r : Reading)

abbrev Scanned := Query.Scanned r.params r.key

abbrev scan := scanConjunct r.fmt r.rootAlias r.supplied r.pkPath

abbrev ScanKept := Query.ScanKept r.fmt r.rootAlias r.supplied r.assigned r.pkPath

abbrev ScansKept := Query.ScansKept r.fmt r.rootAlias r.supplied r.assigned r.faithful r.pkPath

variable {r} {component : Component} {v : PartitionKeyValue} {vs : List PartitionKeyValue}

theorem componentOperand_stands {left right : SqlScalarExpression}
    (trusted : r.Trusted (.binary .equal left right)) (holds : r.IsTrue (.binary .equal left right))
    (h : componentOperand r.fmt r.rootAlias r.supplied r.pkPath left right = some v) : r.Stands v := by
  unfold componentOperand at h
  split at h
  · rename_i isKey
    exact (equal_stands trusted holds).1 isKey h
  · obtain ⟨isKey, literal⟩ := operandIf_eq_some h
    exact (equal_stands trusted holds).2 isKey literal

theorem in_holds {expression : SqlScalarExpression} {items : List SqlScalarExpression}
    (trusted : r.Trusted (.inItems expression items false))
    (holds : r.IsTrue (.inItems expression items false)) (isKey : r.isKey expression = true)
    (literals : items.mapM r.literal = some vs) : Holds r.params vs r.key := by
  have forth := mapM_some literals
  obtain ⟨item, mem, stands⟩ := in_stands trusted holds isKey fun item mem => by
    obtain ⟨e, -, literal⟩ := forth item mem
    rw [literal]
    rfl
  obtain ⟨e, he, literal⟩ := forth item mem
  exact ⟨e, he, stands e literal⟩

theorem not_isEmpty_of_holds (holds : Holds r.params vs r.key) : ¬ vs.isEmpty = true := by
  obtain ⟨e, mem, -⟩ := holds
  rw [List.isEmpty_iff]
  exact ne_nil_of_mem mem

/-- Narrowing a list keeps a value for the key. -/
theorem holds_filter {existing : List PartitionKeyValue} (before : Holds r.params existing r.key)
    (holds : Holds r.params vs r.key)
    (kept : ∀ e ∈ existing, ∀ v ∈ vs, ∀ key, Meets r.params [key] [e] [v] →
      ∃ u ∈ existing, vs.contains u = true ∧ Query.Stands r.params u key) :
    Holds r.params (existing.filter fun v => vs.contains v) r.key := by
  obtain ⟨e, he, standsE⟩ := before
  obtain ⟨v, hv, standsV⟩ := holds
  by_cases meets : Meets r.params [r.key] [e] [v]
  · obtain ⟨u, inside, also, stands⟩ := kept e he v hv r.key meets
    exact ⟨u, mem_filter.mpr ⟨inside, also⟩, stands⟩
  · exact ⟨e, mem_filter.mpr ⟨he, contains_of_beq hv (beq_of_apart standsE standsV meets)⟩, standsE⟩

theorem scanConjunct_ok (scanned : r.Scanned component) (conjunct : SqlScalarExpression)
    (trusted : r.Trusted conjunct) (kept : r.ScanKept component conjunct)
    (holds : r.IsTrue conjunct) :
    ∃ next, r.scan component conjunct = .ok next ∧ r.Scanned next := by
  unfold scan scanConjunct
  split
  · rename_i left right
    cases operand : componentOperand r.fmt r.rootAlias r.supplied r.pkPath left right with
    | none => exact ⟨component, rfl, scanned⟩
    | some v =>
      have stands := componentOperand_stands trusted holds operand
      cases before : component.equalValue with
      | none =>
        refine ⟨_, rfl, fun w same => ?_, scanned.list⟩
        cases same
        exact stands
      | some existing =>
        have same : (existing == v) = true := (kept existing v before operand).elim id fun apart =>
          beq_of_apart (scanned.equal existing before) stands (apart r.key)
        exact ⟨component, if_pos same, scanned⟩
  · rename_i expression items
    split
    · rename_i isKey
      cases literals : items.mapM r.literal with
      | none => exact ⟨component, rfl, scanned⟩
      | some vs =>
        have listed := in_holds trusted holds isKey literals
        have next : ∀ {values}, Holds r.params values r.key →
            r.Scanned { component with inValues := some values } := by
          refine fun some => ⟨scanned.equal, fun ws same => ?_⟩
          cases same
          exact some
        cases before : component.inValues with
        | none => exact ⟨_, if_neg (not_isEmpty_of_holds listed), next listed⟩
        | some existing =>
          have narrowed := holds_filter (scanned.list existing before) listed
            (kept isKey existing vs before literals)
          exact ⟨_, if_neg (not_isEmpty_of_holds narrowed), next narrowed⟩
    · exact ⟨component, rfl, scanned⟩
  · exact ⟨component, rfl, scanned⟩

theorem foldlM_scanConjunct {members : List SqlScalarExpression} (scanned : r.Scanned component)
    (kept : r.ScansKept component members) (holds : ∀ x ∈ members, r.IsTrue x) :
    ∃ last, members.foldlM r.scan component = .ok last ∧ r.Scanned last ∧
      ValuesKept r.supplied r.assigned last := by
  induction members generalizing component with
  | nil => exact ⟨component, rfl, scanned, kept⟩
  | cons x members ih =>
    obtain ⟨trusted, here, further⟩ := kept
    obtain ⟨next, step, scanned⟩ := scanConjunct_ok scanned x trusted here (holds x (.head _))
    obtain ⟨last, run, found⟩ := ih scanned (further next step) fun y hy => holds y (.tail _ hy)
    refine ⟨last, ?_, found⟩
    rw [foldlM_cons, step]
    exact run

theorem componentValues_ok (scanned : r.Scanned component)
    (kept : ValuesKept r.supplied r.assigned component) :
    ∃ values, componentValues component = .ok values ∧
      ∀ vs, values = some vs → Holds r.params vs r.key := by
  obtain ⟨equalValue, inValues⟩ := component
  cases equalValue with
  | none =>
    cases inValues with
    | none => exact ⟨none, rfl, nofun⟩
    | some list => exact ⟨some list, rfl, fun vs same => scanned.list vs same⟩
  | some eq =>
    have stands := scanned.equal eq rfl
    have one : ∀ vs, some [eq] = some vs → Holds r.params vs r.key := by
      rintro vs ⟨⟩
      exact ⟨eq, mem_singleton_self eq, stands⟩
    cases inValues with
    | none => exact ⟨some [eq], rfl, one⟩
    | some list =>
      obtain ⟨e, he, standsE⟩ := scanned.list list rfl
      have inside : list.contains eq = true := (kept eq list rfl rfl).elim id fun apart =>
        contains_of_beq he (beq_of_apart stands standsE (apart e he r.key))
      exact ⟨some [eq], if_pos inside, one⟩

end Reading

/-! ## Components -/

namespace Setting

variable {s : Setting} {compared : Compared}
  {pkSegments : List (List Text)} {expr : SqlScalarExpression}

/-- The loop over the components gives values for the leading parts of the key. -/
theorem perComponent_sound {members : List SqlScalarExpression}
    {done : List (List PartitionKeyValue)} {front : List CosmosValue}
    (kept : ComponentsKept s.fmt s.rootAlias s.supplied s.assigned s.faithful members pkSegments done)
    (holds : ∀ x ∈ members, s.IsTrue x) (started : List.Forall₂ (Holds s.params) done front) :
    perComponent s.fmt s.rootAlias s.supplied members pkSegments done = .error .unconstrained ∨
    ∃ components leading rest, perComponent s.fmt s.rootAlias s.supplied members pkSegments done =
        .ok components ∧
      pkSegments.map s.keyOf = leading ++ rest ∧
      List.Forall₂ (Holds s.params) components (front ++ leading) ∧
      (components.map List.length).prod < 2 ^ 64 := by
  induction pkSegments generalizing done front with
  | nil =>
    refine .inr ⟨done, [], [], rfl, rfl, ?_, kept⟩
    rw [append_nil]
    exact started
  | cons pkPath pkSegments ih =>
    obtain ⟨scans, further⟩ := kept
    have start : (⟨s, pkPath⟩ : Reading).Scanned ⟨none, none⟩ := ⟨nofun, nofun⟩
    obtain ⟨component, scan, scanned, last⟩ := Reading.foldlM_scanConjunct start scans holds
    obtain ⟨values, read, found⟩ := Reading.componentValues_ok scanned last
    have kept := further component values scan read
    rw [perComponent, scan]
    change (componentValues component >>= _) = _ ∨ ∃ components leading rest,
      (componentValues component >>= _) = _ ∧ _
    rw [read]
    cases values with
    | none =>
      split
      · exact .inl rfl
      · refine .inr ⟨done, [], _, rfl, rfl, ?_, kept⟩
        rw [append_nil]
        exact started
    | some vs =>
      rcases ih kept (rel_append started (.cons (found vs rfl) .nil)) with
        nothing | ⟨components, leading, rest, run, split, all, fits⟩
      · exact .inl nothing
      · refine .inr ⟨components, s.keyOf pkPath :: leading, rest, run, ?_, ?_, fits⟩
        · rw [map_cons, split]
          rfl
        · rw [append_assoc] at all
          exact all

theorem conjunctionFilter_sound (kept : ComponentsKept s.fmt s.rootAlias s.supplied s.assigned
      s.faithful (flattenAnd expr) pkSegments [])
    (holds : s.IsTrue expr) :
    Satisfied s.params (pkSegments.map s.keyOf)
      (conjunctionFilter s.fmt s.rootAlias s.supplied pkSegments expr) := by
  unfold conjunctionFilter
  rcases perComponent_sound kept (isTrue_flattenAnd [expr] (by simpa using holds)) .nil with
    nothing | ⟨components, leading, rest, run, split, all, fits⟩
  · rw [nothing]
    trivial
  · rw [run, split]
    exact satisfied_tupleFilter all fits rest

theorem extractHierarchicalPk_sound
    (clear : HierarchicalClear s.fmt s.rootAlias s.supplied s.assigned s.faithful pkSegments expr)
    (holds : s.IsTrue expr) :
    Satisfied s.params (pkSegments.map s.keyOf)
      (extractHierarchicalPk s.fmt compared s.rootAlias s.supplied pkSegments expr) := by
  induction clear with
  | conjunction notOr kept =>
    rw [extractHierarchicalPk]
    · exact conjunctionFilter_sound kept holds
    · exact notOr
  | @or left right _ ih =>
    obtain ⟨x, mem, true⟩ := isTrue_flattenOr [.binary .or left right] ⟨_, by simp, holds⟩
    rw [extractHierarchicalPk, attach_map_val]
    exact satisfied_reduce_union ⟨_, mem_map_of_mem mem, ih x mem true⟩

end Setting

end AzureSdk.Cosmos.Query
