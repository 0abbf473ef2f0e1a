/-
# Cosmos.Query.Truth — conjunctions and disjunctions that are true

Where a chain of ANDs is true on a row all its leaves are, and of a chain of ORs one.  A true IN list
has an item that equals the expression.
-/
import AzureSdk.Cosmos.Query.Meaning

namespace AzureSdk.Cosmos.Query

open Theory CosmosValue List

variable {std : Intrinsics} {row : Json.Value} {evalAlias : Option Text} {params : Params}

/-- The expression is true on the row. -/
def IsTrue (std : Intrinsics) (row : Json.Value) (evalAlias : Option Text) (params : Params)
    (expr : SqlScalarExpression) : Prop :=
  evalScalar std row evalAlias params expr = .ok (.boolean true)

variable {left right : SqlScalarExpression}

theorem evalBinary_true {op : SqlBinaryOp}
    (h : IsTrue std row evalAlias params (.binary op left right)) :
    ∃ lv rv, evalScalar std row evalAlias params left = .ok lv ∧
      evalScalar std row evalAlias params right = .ok rv ∧ evalBinary std op lv rv = .boolean true := by
  obtain ⟨lv, first, h⟩ := bind_ok h
  obtain ⟨rv, second, h⟩ := bind_ok h
  exact ⟨lv, rv, first, second, Except.ok.inj h⟩

theorem asBool_eq_some {a : CosmosValue} {x : Bool} (h : asBool a = some x) : a = .boolean x := by
  cases a <;> simp_all [asBool]

theorem evalAnd_true {a b : CosmosValue} (h : evalAnd a b = .boolean true) :
    a = .boolean true ∧ b = .boolean true := by
  unfold evalAnd at h
  split at h
  · cases h
  · cases h
  · exact ⟨asBool_eq_some ‹_›, asBool_eq_some ‹_›⟩
  · cases h

theorem evalOr_true {a b : CosmosValue} (h : evalOr a b = .boolean true) :
    a = .boolean true ∨ b = .boolean true := by
  unfold evalOr at h
  split at h
  · exact .inl (asBool_eq_some ‹_›)
  · exact .inr (asBool_eq_some ‹_›)
  · cases h
  · cases h

theorem isTrue_and (h : IsTrue std row evalAlias params (.binary .and left right)) :
    IsTrue std row evalAlias params left ∧ IsTrue std row evalAlias params right := by
  obtain ⟨lv, rv, first, second, both⟩ := evalBinary_true h
  obtain ⟨rfl, rfl⟩ := evalAnd_true both
  exact ⟨first, second⟩

theorem isTrue_or (h : IsTrue std row evalAlias params (.binary .or left right)) :
    IsTrue std row evalAlias params left ∨ IsTrue std row evalAlias params right := by
  obtain ⟨lv, rv, first, second, either⟩ := evalBinary_true h
  rcases evalOr_true either with rfl | rfl
  · exact .inl first
  · exact .inr second

theorem isTrue_flattenAnd (stack : List SqlScalarExpression)
    (all : ∀ node ∈ stack, IsTrue std row evalAlias params node) :
    ∀ leaf ∈ flattenChain .and stack, IsTrue std row evalAlias params leaf :=
  flattenChain_forall (fun _ _ => isTrue_and) all

theorem isTrue_flattenOr (stack : List SqlScalarExpression)
    (some : ∃ node ∈ stack, IsTrue std row evalAlias params node) :
    ∃ leaf ∈ flattenChain .or stack, IsTrue std row evalAlias params leaf := by
  fun_induction flattenChain .or stack with
  | case1 => exact some
  | case2 left right stack ih =>
    obtain ⟨node, mem, h⟩ := some
    apply ih
    rcases mem_cons.mp mem with rfl | mem
    · rcases isTrue_or h with h | h
      · exact ⟨left, by simp, h⟩
      · exact ⟨right, by simp, h⟩
    · exact ⟨node, by simp [mem], h⟩
  | case3 nodeOp left right stack other ih | case4 node stack other ih =>
    obtain ⟨node, mem, h⟩ := some
    rcases mem_cons.mp mem with rfl | mem
    · exact ⟨_, .head _, h⟩
    · obtain ⟨leaf, mem, h⟩ := ih ⟨node, mem, h⟩
      exact ⟨leaf, .tail _ mem, h⟩

theorem evalIn_true {val : CosmosValue} : ∀ {items : List SqlScalarExpression},
    evalIn std row evalAlias params val items = .ok true → ∃ item ∈ items, ∃ w,
      evalScalar std row evalAlias params item = .ok w ∧ (cosmosEq val w).isTrue = true
  | [], h => by
    cases h
  | item :: items, h => by
    obtain ⟨w, evaluated, h⟩ := bind_ok h
    split at h
    · exact ⟨item, .head _, w, evaluated, by assumption⟩
    · obtain ⟨item, mem, found⟩ := evalIn_true h
      exact ⟨item, .tail _ mem, found⟩

end AzureSdk.Cosmos.Query
