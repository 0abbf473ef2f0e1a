/-
# Cosmos.Query.SinglePk — the filter of a key with one path

Where a WHERE clause is true on a row, the key of the row passes the filter read off it.  The
references taken for the key have to read it (`Trusted`), and each intersection that is formed has to
keep its keys (`Kept`): a parameter without a usable value, in a list, may stand for a key that the
other side writes differently.
-/
import AzureSdk.Cosmos.Query.Truth

namespace AzureSdk.Cosmos.Query

open Theory CosmosValue List

section Condition

variable (fmt : Formatting) (compared : Compared) (rootAlias : Option Text)
  (supplied assigned : Params) (faithful : SqlScalarExpression → Prop) (pkPath : List Text)

/-- The references a leaf is read for the key by are ones that read it. -/
def Trusted : SqlScalarExpression → Prop
  | .binary .equal left right =>
    ((operandIf fmt rootAlias supplied pkPath left right).isSome → faithful left) ∧
      ((operandIf fmt rootAlias supplied pkPath right left).isSome → faithful right)
  | .inItems expression items false =>
    isPkReference expression pkPath rootAlias = true →
      (∀ item ∈ items, (extractLiteralValue fmt supplied item).isSome) → faithful expression
  | _ => True

/-- Each intersection of the fold keeps its keys. -/
def KeptAlong (params : Params) : PartitionKeyFilter → List PartitionKeyFilter → Prop
  | _, [] => True
  | f, g :: filters => Kept params f g ∧ KeptAlong params (intersectPkFilters compared f g) filters

/-- What the extraction of a filter meets on its way is right. -/
inductive SingleClear : SqlScalarExpression → Prop
  | leaf {expr : SqlScalarExpression} (notAnd : ∀ left right, expr ≠ .binary .and left right)
      (notOr : ∀ left right, expr ≠ .binary .or left right)
      (trusted : Trusted fmt rootAlias supplied faithful pkPath expr) : SingleClear expr
  | and {left right : SqlScalarExpression}
      (members : ∀ x ∈ flattenAnd (.binary .and left right), SingleClear x)
      (kept : ∀ first rest, (flattenAnd (.binary .and left right)).map
        (extractSinglePk fmt compared rootAlias supplied pkPath) = first :: rest →
          KeptAlong compared (supplied ++ assigned) first rest) : SingleClear (.binary .and left right)
  | or {left right : SqlScalarExpression}
      (members : ∀ x ∈ flattenOr (.binary .or left right), SingleClear x) :
      SingleClear (.binary .or left right)

end Condition

section

variable {fmt : Formatting} {rootAlias : Option Text} {supplied params : Params}
  {pkPath : List Text} {keys : List CosmosValue} {first : PartitionKeyFilter}
  {filters : List PartitionKeyFilter} {compared : Compared}

theorem extractSinglePk_and (left right : SqlScalarExpression) :
    extractSinglePk fmt compared rootAlias supplied pkPath (.binary .and left right) =
      reduceFilters (intersectPkFilters compared) ((flattenAnd (.binary .and left right)).map
        (extractSinglePk fmt compared rootAlias supplied pkPath)) := by
  rw [extractSinglePk, attach_map_val]

theorem extractSinglePk_or (left right : SqlScalarExpression) :
    extractSinglePk fmt compared rootAlias supplied pkPath (.binary .or left right) =
      reduceFilters (unionPkFilters compared) ((flattenOr (.binary .or left right)).map
        (extractSinglePk fmt compared rootAlias supplied pkPath)) := by
  rw [extractSinglePk, attach_map_val]

theorem satisfied_foldl_union
    (some : Satisfied params keys first ∨ ∃ f ∈ filters, Satisfied params keys f) :
    Satisfied params keys (filters.foldl (unionPkFilters compared) first) := by
  induction filters generalizing first with
  | nil => exact some.resolve_right (by simp)
  | cons f filters ih =>
    apply ih
    rcases some with h | ⟨g, mem, h⟩
    · exact .inl (satisfied_union (.inl h))
    · rcases mem_cons.mp mem with rfl | mem
      · exact .inl (satisfied_union (.inr h))
      · exact .inr ⟨g, mem, h⟩

theorem satisfied_reduce_union (some : ∃ f ∈ filters, Satisfied params keys f) :
    Satisfied params keys (reduceFilters (unionPkFilters compared) filters) := by
  cases filters with
  | nil => trivial
  | cons first rest =>
    obtain ⟨f, mem, h⟩ := some
    apply satisfied_foldl_union
    rcases mem_cons.mp mem with rfl | mem
    · exact .inl h
    · exact .inr ⟨f, mem, h⟩

theorem unary_foldl {op : PartitionKeyFilter → PartitionKeyFilter → PartitionKeyFilter}
    (sub : ∀ f g, tuplesOf (op f g) ⊆ tuplesOf f ++ tuplesOf g) (start : Unary first)
    (each : ∀ f ∈ filters, Unary f) : Unary (filters.foldl op first) := by
  induction filters generalizing first with
  | nil => exact start
  | cons f filters ih =>
    refine ih (fun t mem => ?_) fun g mem => each g (.tail _ mem)
    rcases mem_append.mp (sub first f mem) with mem | mem
    · exact start t mem
    · exact each f (.head _) t mem

theorem unary_reduce {op : PartitionKeyFilter → PartitionKeyFilter → PartitionKeyFilter}
    (sub : ∀ f g, tuplesOf (op f g) ⊆ tuplesOf f ++ tuplesOf g) (each : ∀ f ∈ filters, Unary f) :
    Unary (reduceFilters op filters) := by
  cases filters with
  | nil => exact fun t mem => absurd mem not_mem_nil
  | cons first rest =>
    exact unary_foldl sub (each first (.head _)) fun f mem => each f (.tail _ mem)

theorem extractSinglePk_unary (expr : SqlScalarExpression) :
    Unary (extractSinglePk fmt compared rootAlias supplied pkPath expr) := by
  induction expr using chain_induction with
  | leaf expr notAnd notOr =>
    unfold extractSinglePk
    split
    · split
      · simp [Unary, tuplesOf]
      · split <;> simp [Unary, tuplesOf]
    · split
      · dsimp only
        split
        · exact forall_mem_map.mpr fun e _ => rfl
        · simp [Unary, tuplesOf]
      · simp [Unary, tuplesOf]
    · exact absurd rfl (notAnd _ _)
    · exact absurd rfl (notOr _ _)
    · simp [Unary, tuplesOf]
  | and left right ih =>
    rw [extractSinglePk_and]
    exact unary_reduce (fun _ _ => tuplesOf_intersect) (forall_mem_map.mpr ih)
  | or left right ih =>
    rw [extractSinglePk_or]
    exact unary_reduce (fun _ _ => tuplesOf_union) (forall_mem_map.mpr ih)

theorem satisfied_foldl_intersect (unary : Unary first) (each : ∀ f ∈ filters, Unary f)
    (start : Satisfied params keys first) (all : ∀ f ∈ filters, Satisfied params keys f)
    (kept : KeptAlong compared params first filters) :
    Satisfied params keys (filters.foldl (intersectPkFilters compared) first) := by
  induction filters generalizing first with
  | nil => exact start
  | cons f filters ih =>
    have unaryF := each f (.head _)
    have next : Unary ([f].foldl (intersectPkFilters compared) first) :=
      unary_foldl (fun _ _ => tuplesOf_intersect) unary (forall_mem_singleton.mpr unaryF)
    exact ih next (fun g mem => each g (.tail _ mem))
      (satisfied_intersect unary unaryF start (all f (.head _)) kept.1)
      (fun g mem => all g (.tail _ mem)) kept.2

end

/-- What a filter is made of, and a row that it should let pass: references that can be relied on read
the value of their path or nothing. -/
structure Setting where
  std : Intrinsics
  row : Json.Value
  evalAlias : Option Text
  fmt : Formatting
  rootAlias : Option Text
  supplied : Params
  assigned : Params
  keyOf : List Text → CosmosValue
  faithful : SqlScalarExpression → Prop
  reads : ∀ pkPath reference, faithful reference → isPkReference reference pkPath rootAlias = true →
    ∀ v, evalScalar std row evalAlias (supplied ++ assigned) reference = .ok v →
      v = keyOf pkPath ∨ v = .undefined

abbrev Setting.params (s : Setting) := s.supplied ++ s.assigned

abbrev Setting.IsTrue (s : Setting) := Query.IsTrue s.std s.row s.evalAlias s.params

/-- A key that is compared on the row. -/
structure Reading extends Setting where
  pkPath : List Text

namespace Reading

variable (r : Reading)

abbrev key := r.keyOf r.pkPath

abbrev isKey (expr : SqlScalarExpression) := isPkReference expr r.pkPath r.rootAlias

abbrev literal := extractLiteralValue r.fmt r.supplied

abbrev Trusted := Query.Trusted r.fmt r.rootAlias r.supplied r.faithful r.pkPath

abbrev Stands (e : PartitionKeyValue) := Query.Stands r.params e r.key

abbrev Satisfied := Query.Satisfied r.params [r.key]

abbrev single (compared : Compared) := extractSinglePk r.fmt compared r.rootAlias r.supplied r.pkPath

variable {r} {compared : Compared} {e : PartitionKeyValue}

theorem operandIf_eq_some {reference operand : SqlScalarExpression}
    (h : operandIf r.fmt r.rootAlias r.supplied r.pkPath reference operand = some e) :
    r.isKey reference = true ∧ r.literal operand = some e := by
  unfold operandIf at h
  split at h
  · exact ⟨by assumption, h⟩
  · cases h

/-- A true equality gives an entry for the key, on either side. -/
theorem stands_of_equal {operand : SqlScalarExpression} {lv rv : CosmosValue}
    (read : lv = r.key ∨ lv = .undefined)
    (evaluated : evalScalar r.std r.row r.evalAlias r.params operand = .ok rv)
    (same : Same lv rv) (literal : r.literal operand = some e) : r.Stands e := by
  rcases read with rfl | rfl
  · exact stands_of_same literal evaluated same
  · exact absurd same not_same_undefined

theorem equal_stands {left right : SqlScalarExpression}
    (trusted : r.Trusted (.binary .equal left right)) (holds : r.IsTrue (.binary .equal left right)) :
    (r.isKey left = true → r.literal right = some e → r.Stands e) ∧
    (r.isKey right = true → r.literal left = some e → r.Stands e) := by
  obtain ⟨lv, rv, first, second, equal⟩ := evalBinary_true holds
  have same : (cosmosEq lv rv).isTrue = true := isTrue_iff.mpr equal
  have used {reference operand : SqlScalarExpression} (isKey : r.isKey reference = true)
      (literal : r.literal operand = some e) :
      (operandIf r.fmt r.rootAlias r.supplied r.pkPath reference operand).isSome := by
    rw [operandIf, if_pos isKey]
    exact Option.isSome_of_eq_some literal
  constructor
  · intro isKey literal
    have read := r.reads _ left (trusted.1 (used isKey literal)) isKey lv first
    exact stands_of_equal read second (.inl same) literal
  · intro isKey literal
    have read := r.reads _ right (trusted.2 (used isKey literal)) isKey rv second
    exact stands_of_equal read first (.inr same) literal

theorem in_stands {expression : SqlScalarExpression} {items : List SqlScalarExpression}
    (trusted : r.Trusted (.inItems expression items false))
    (holds : r.IsTrue (.inItems expression items false)) (isKey : r.isKey expression = true)
    (literals : ∀ item ∈ items, (r.literal item).isSome) :
    ∃ item ∈ items, ∀ e, r.literal item = some e → r.Stands e := by
  obtain ⟨val, first, h⟩ := bind_ok holds
  obtain ⟨found, second, h⟩ := bind_ok h
  have yes : found = true := by
    cases found with
    | true => rfl
    | false => cases h
  rw [yes] at second
  obtain ⟨item, mem, w, evaluated, same⟩ := evalIn_true second
  have read := r.reads _ expression (trusted isKey literals) isKey val first
  exact ⟨item, mem, fun e literal => stands_of_equal read evaluated (.inl same) literal⟩

theorem leaf_sound {expr : SqlScalarExpression} (notAnd : ∀ left right, expr ≠ .binary .and left right)
    (notOr : ∀ left right, expr ≠ .binary .or left right)
    (trusted : r.Trusted expr) (holds : r.IsTrue expr) : r.Satisfied (r.single compared expr) := by
  unfold single extractSinglePk
  split
  · split
    · rename_i val found
      obtain ⟨isKey, literal⟩ := operandIf_eq_some found
      exact starts_singleton.mpr ((equal_stands trusted holds).1 isKey literal)
    · split
      · rename_i val found
        obtain ⟨isKey, literal⟩ := operandIf_eq_some found
        exact starts_singleton.mpr ((equal_stands trusted holds).2 isKey literal)
      · trivial
  · rename_i expression items
    split
    · rename_i isKey
      dsimp only
      split
      · rename_i all
        have literals := filterMap_length_eq_length.mp all
        obtain ⟨item, mem, stands⟩ := in_stands trusted holds isKey literals
        obtain ⟨e, literal⟩ := Option.isSome_iff_exists.mp (literals item mem)
        exact ⟨[e], mem_map_of_mem (mem_filterMap.mpr ⟨item, mem, literal⟩),
          starts_singleton.mpr (stands e literal)⟩
      · trivial
    · trivial
  · exact absurd rfl (notAnd _ _)
  · exact absurd rfl (notOr _ _)
  · trivial

theorem extractSinglePk_sound {expr : SqlScalarExpression}
    (clear : SingleClear r.fmt compared r.rootAlias r.supplied r.assigned r.faithful r.pkPath expr)
    (holds : r.IsTrue expr) : r.Satisfied (r.single compared expr) := by
  induction clear with
  | leaf notAnd notOr trusted => exact leaf_sound notAnd notOr trusted holds
  | @and left right _ kept ih =>
    have true := isTrue_flattenAnd [.binary .and left right] (by simpa using holds)
    have each : ∀ f ∈ (flattenAnd (.binary .and left right)).map (r.single compared),
        Unary f ∧ r.Satisfied f :=
      forall_mem_map.mpr fun x mem => ⟨extractSinglePk_unary x, ih x mem (true x mem)⟩
    rw [single, extractSinglePk_and]
    cases filters : (flattenAnd (.binary .and left right)).map (r.single compared) with
    | nil => trivial
    | cons first rest =>
      rw [filters] at each
      obtain ⟨unary, start⟩ := each first (.head _)
      exact satisfied_foldl_intersect unary (fun f mem => (each f (.tail _ mem)).1) start
        (fun f mem => (each f (.tail _ mem)).2) (kept first rest filters)
  | @or left right _ ih =>
    obtain ⟨x, mem, true⟩ := isTrue_flattenOr [.binary .or left right] ⟨_, by simp, holds⟩
    rw [single, extractSinglePk_or]
    exact satisfied_reduce_union ⟨_, mem_map_of_mem mem, ih x mem true⟩

end Reading

end AzureSdk.Cosmos.Query
