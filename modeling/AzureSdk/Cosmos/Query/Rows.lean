/-
# Cosmos.Query.Rows — what a reference to the partition key reads

The planner takes a path for a reference to the partition key if it is the key's path, or
the root alias and then the key's path.  On a row that is the document, such a path reads
the key.  On a row of FROM rowVariables it reads what the variable of its first name is
bound to: the document, if the root alias stands for it and no join binds that name again;
and nothing, if no variable has the name (`Faithful`).
-/
import AzureSdk.Cosmos.Query.Eval
import AzureSdk.Cosmos.Query.Plan

namespace AzureSdk.Cosmos.Query

open Theory CosmosValue List Option

def pkValue (doc : Json.Value) (path : List Text) : CosmosValue :=
  path.foldl memberAccess (fromJson doc)

/-! ## Variables -/

def rowVariables : SqlCollectionExpression → List Text
  | .aliased collection aliasName => [boundName collection aliasName]
  | .arrayIterator identifier _ => [identifier]
  | .join left right => rowVariables left ++ rowVariables right

def leftmost : SqlCollectionExpression → SqlCollectionExpression
  | .join left _ => leftmost left
  | collection => collection

def joined : SqlCollectionExpression → List Text
  | .join left right => joined left ++ rowVariables right
  | _ => []

/-- On every row the reference reads the partition key or nothing. -/
def Faithful (collection : SqlCollectionExpression) (reference : SqlScalarExpression) : Prop :=
  ∀ first rest, resolvePropertyPath reference = some (first :: rest) →
    if getAliasFromCollection collection = some first then
      isPlainRootFrom (leftmost collection) = true ∧ first ∉ joined collection
    else first ∉ rowVariables collection

section Bindings

variable {name : Text} {doc : Json.Value}

theorem get_extend_of_none {bindings more : Json.Members}
    (none : Json.Members.get name more = none) :
    Json.Members.get name (extend bindings more) = Json.Members.get name bindings := by
  induction more generalizing bindings with
  | nil => rfl
  | cons p more ih =>
    obtain ⟨k, v⟩ := p
    rw [Json.Members.get] at none
    split at none
    · cases none
    · rename_i apart
      show Json.Members.get name (extend (Json.Members.insert k v bindings) more) = _
      rw [ih none, Json.Members.get_insert, if_neg (Ne.symm apart)]

/-- A row of a join is a row of its left side, extended by one of its right side. -/
theorem join_row {left right : SqlCollectionExpression} {bindings : Json.Members}
    {rows : List Json.Members} (expanded : expandFrom doc (.join left right) bindings = .ok rows)
    {row : Json.Members} (mem : row ∈ rows) : ∃ leftRow rightRow bindings',
      (∃ leftRows, expandFrom doc left bindings = .ok leftRows ∧ leftRow ∈ leftRows) ∧
      (∃ rightRows, expandFrom doc right bindings' = .ok rightRows ∧ rightRow ∈ rightRows) ∧
      extend leftRow rightRow = row := by
  obtain ⟨leftRows, first, h⟩ := bind_ok expanded
  obtain ⟨lists, second, h⟩ := bind_ok h
  cases h
  obtain ⟨list, inside, mem⟩ := mem_flatten.mp mem
  obtain ⟨leftRow, leftMem, h⟩ := (mapM_ok second).2 list inside
  obtain ⟨rightRows, third, h⟩ := bind_ok h
  cases h
  obtain ⟨rightRow, rightMem, same⟩ := mem_map.mp mem
  exact ⟨leftRow, rightRow, _, ⟨leftRows, first, leftMem⟩, ⟨rightRows, third, rightMem⟩, same⟩

theorem get_of_not_variable : ∀ {collection : SqlCollectionExpression} {bindings : Json.Members}
    {rows : List Json.Members}, expandFrom doc collection bindings = .ok rows →
    ∀ {row : Json.Members}, row ∈ rows → name ∉ rowVariables collection →
      Json.Members.get name row = none
  | .aliased collection aliasName, bindings, rows, expanded, row, mem, unbound => by
    obtain ⟨source, _, h⟩ := bind_ok expanded
    cases h
    rw [mem_singleton.mp mem, Json.Members.get, if_neg]
    · rfl
    · exact fun same => unbound (same ▸ mem_singleton_self _)
  | .arrayIterator identifier collection, bindings, rows, expanded, row, mem, unbound => by
    obtain ⟨arr, _, h⟩ := bind_ok expanded
    have apart : identifier ≠ name := fun same => unbound (same ▸ mem_singleton_self _)
    cases arr with
    | array items =>
      cases h
      obtain ⟨item, _, rfl⟩ := mem_map.mp mem
      rw [Json.Members.get, if_neg apart]
      rfl
    | null | bool | number | string | object =>
      cases h
      cases mem
  | .join left right, bindings, rows, expanded, row, mem, unbound => by
    obtain ⟨leftRow, rightRow, bindings', ⟨leftRows, first, leftMem⟩, ⟨rightRows, second, rightMem⟩,
      rfl⟩ := join_row expanded mem
    rw [get_extend_of_none]
    · exact get_of_not_variable first leftMem fun h => unbound (mem_append_left _ h)
    · exact get_of_not_variable second rightMem fun h => unbound (mem_append_right _ h)

/-- The root alias is bound to the document, unless a join binds the name again. -/
theorem get_root : ∀ {collection : SqlCollectionExpression} {rows : List Json.Members},
    expandFrom doc collection [] = .ok rows → ∀ {row : Json.Members}, row ∈ rows →
    isPlainRootFrom (leftmost collection) = true →
    getAliasFromCollection collection = some name → name ∉ joined collection →
      Json.Members.get name row = some doc
  | .aliased (.subquery query) aliasName, rows, _, row, _, plain, _, _ => by cases plain
  | .aliased (.path start path) aliasName, rows, expanded, row, mem, plain, root, _ => by
    have bound : boundName (.path start path) aliasName = name := by
      cases aliasName with
      | none | some given => exact some.inj root
    obtain ⟨source, resolved, h⟩ := bind_ok expanded
    cases h
    cases resolved
    rw [mem_singleton.mp mem]
    cases path with
    | nil => exact if_pos bound
    | cons segment path => cases plain
  | .arrayIterator identifier collection, rows, _, row, _, _, root, _ => by cases root
  | .join left right, rows, expanded, row, mem, plain, root, kept => by
    obtain ⟨leftRow, rightRow, bindings', ⟨leftRows, first, leftMem⟩, ⟨rightRows, second, rightMem⟩,
      rfl⟩ := join_row expanded mem
    rw [get_extend_of_none]
    · exact get_root first leftMem plain root fun h => kept (mem_append_left _ h)
    · exact get_of_not_variable second rightMem fun h => kept (mem_append_right _ h)

end Bindings

/-! ## References -/

section References

variable {std : Intrinsics} {row : Json.Value} {rootAlias : Option Text} {params : Params}

theorem resolvePropertyPath_ne_nil : ∀ {reference : SqlScalarExpression},
    resolvePropertyPath reference ≠ some []
  | .memberRef source member, h => by
    obtain ⟨path, _, same⟩ := map_eq_some_iff.mp h
    exact absurd same (by simp)

theorem eval_path : ∀ {reference : SqlScalarExpression} {first : Text} {rest : List Text},
    resolvePropertyPath reference = some (first :: rest) →
      evalScalar std row rootAlias params reference =
        .ok (rest.foldl memberAccess (evalProperty row rootAlias first))
  | .propertyRef name, first, rest, h => by
    cases h
    rfl
  | .memberRef source member, first, rest, h => by
    obtain ⟨path, resolved, same⟩ := map_eq_some_iff.mp h
    cases path with
    | nil => exact absurd resolved resolvePropertyPath_ne_nil
    | cons start path =>
      cases same
      rw [evalScalar, eval_path resolved]
      show _ = Except.ok (List.foldl memberAccess _ (path ++ [member]))
      rw [foldl_append]
      rfl

theorem foldl_memberAccess_undefined (path : List Text) :
    path.foldl memberAccess .undefined = .undefined := by
  induction path with
  | nil => rfl
  | cons name path ih => exact ih

variable {pkPath : List Text} {reference : SqlScalarExpression} {doc : Json.Value} {v : CosmosValue}

/-- What a path is that the planner takes for the partition key. -/
theorem isPkReference_path (h : isPkReference reference pkPath rootAlias = true) :
    ∃ first rest, resolvePropertyPath reference = some (first :: rest) ∧
      (rootAlias = some first ∧ rest = pkPath ∨ rootAlias ≠ some first ∧ first :: rest = pkPath) := by
  unfold isPkReference at h
  cases resolved : resolvePropertyPath reference with
  | none =>
    rw [resolved] at h
    cases h
  | some path =>
    rw [resolved] at h
    cases path with
    | nil => exact absurd resolved resolvePropertyPath_ne_nil
    | cons first rest =>
      refine ⟨first, rest, rfl, ?_⟩
      by_cases root : rootAlias = some first
      · left
        simp only [root, isSome_some, head?_cons, beq_self_eq_true, Bool.and_self,
          if_true, tail_cons, beq_iff_eq] at h
        exact ⟨root, h⟩
      · right
        have other : (List.head? (first :: rest) == rootAlias) = false :=
          beq_false_of_ne fun same => root same.symm
        simp only [other, Bool.and_false, Bool.false_eq_true, if_false, beq_iff_eq] at h
        exact ⟨root, h⟩

theorem plain_reference_value (isReference : isPkReference reference pkPath rootAlias = true)
    (evaluated : evalScalar std doc rootAlias params reference = .ok v) :
    v = pkValue doc pkPath := by
  obtain ⟨first, rest, resolved, ⟨root, same⟩ | ⟨other, same⟩⟩ := isPkReference_path isReference
  · rw [eval_path resolved, root, evalProperty, if_pos rfl, same] at evaluated
    cases evaluated
    rfl
  · rw [eval_path resolved, evalProperty, if_neg other, ← memberAccess_fromJson] at evaluated
    cases evaluated
    rw [← same]
    rfl

theorem bound_reference_value {collection : SqlCollectionExpression}
    {rows : List Json.Members} (expanded : expandFrom doc collection [] = .ok rows)
    {bindings : Json.Members} (mem : bindings ∈ rows)
    (isReference : isPkReference reference pkPath (getAliasFromCollection collection) = true)
    (faithful : Faithful collection reference)
    (evaluated : evalScalar std (.object bindings) none params reference = .ok v) :
    v = pkValue doc pkPath ∨ v = .undefined := by
  obtain ⟨first, rest, resolved, split⟩ := isPkReference_path isReference
  have reads := faithful first rest resolved
  rw [eval_path resolved] at evaluated
  cases evaluated
  have member : evalProperty (.object bindings) none first =
      ((Json.Members.get first bindings).map fromJson).getD .undefined := if_neg nofun
  rcases split with ⟨root, same⟩ | ⟨other, same⟩
  · rw [if_pos root] at reads
    rw [member, get_root expanded mem reads.1 root reads.2, same]
    exact .inl rfl
  · rw [if_neg other] at reads
    rw [member, get_of_not_variable expanded mem reads]
    exact .inr (foldl_memberAccess_undefined rest)

theorem reference_value {query : SqlQuery} {rows : List Json.Value}
    (expanded : expandRows query doc = .ok rows) (mem : row ∈ rows)
    (isReference : isPkReference reference pkPath (getRootAlias query) = true)
    (faithful : ∀ collection, query.fromClause = some collection →
      isPlainRootFrom collection = false → Faithful collection reference)
    (evaluated : evalScalar std row (evalAlias query) params reference = .ok v) :
    v = pkValue doc pkPath ∨ v = .undefined := by
  unfold expandRows at expanded
  cases start : query.fromClause with
  | none =>
    have direct : evalAlias query = getRootAlias query := by
      simp [evalAlias, useBindingContext, start]
    rw [start] at expanded
    cases expanded
    rw [direct, mem_singleton.mp mem] at evaluated
    exact .inl (plain_reference_value isReference evaluated)
  | some collection =>
    rw [start] at expanded
    cases plain : isPlainRootFrom collection with
    | true =>
      have direct : evalAlias query = getRootAlias query := by
        simp [evalAlias, useBindingContext, start, plain]
      simp only [plain, if_true] at expanded
      cases expanded
      rw [direct, mem_singleton.mp mem] at evaluated
      exact .inl (plain_reference_value isReference evaluated)
    | false =>
      have unaliased : evalAlias query = none := by
        simp [evalAlias, useBindingContext, start, plain]
      have root : getRootAlias query = getAliasFromCollection collection := by
        rw [getRootAlias, start]
        rfl
      simp only [plain, Bool.false_eq_true, if_false] at expanded
      obtain ⟨contexts, contextual, rfl⟩ := map_ok expanded
      obtain ⟨bindings, inside, rfl⟩ := mem_map.mp mem
      rw [unaliased] at evaluated
      rw [root] at isReference
      exact bound_reference_value contextual inside isReference (faithful collection start plain)
        evaluated

end References

end AzureSdk.Cosmos.Query
