/-
# Cosmos.Query.Reports — what the analysis of a query reports

The walk over an expression against the expressions that stand below it. The walker ends in
a catch-all, so it does not look below a member access, an index or a null test, and it
stops at a subquery; below a call of a user-defined function it ignores aggregates.  The
report is that of the whole tree exactly if these places hide nothing
(`analyzeQuery_reports_iff`).
-/
import Mathlib.Algebra.Order.BigOperators.Group.List
import Mathlib.Algebra.Order.Group.Nat
import Mathlib.Logic.Relation
import AzureSdk.Cosmos.Query.Analysis

namespace AzureSdk.Cosmos.Query

open Theory List Relation

/-! ## The whole tree -/

/-- The expressions of the select list, WHERE, ORDER BY and GROUP BY. -/
def SqlQuery.expressions (query : SqlQuery) : List SqlScalarExpression :=
  (match query.select.spec with
    | .list items => items.map (·.expression)
    | .value expr => [expr]
    | .star => []) ++
  query.whereClause.toList ++ (query.orderBy.getD []).map (·.expression) ++ query.groupBy.getD []

def sourceQueries : SqlCollectionExpression → List SqlQuery
  | .aliased (.subquery query) _ | .arrayIterator _ (.subquery query) => [query]
  | .join left right => sourceQueries left ++ sourceQueries right
  | _ => []

/-- An expression of the query or of a query it reads from. -/
inductive QueryHolds : SqlQuery → SqlScalarExpression → Prop
  | own {query expr} : expr ∈ query.expressions → QueryHolds query expr
  | source {query sources inner expr} : query.fromClause = some sources →
      inner ∈ sourceQueries sources → QueryHolds inner expr → QueryHolds query expr

/-- One step down, into subqueries too. -/
def Inner (expr part : SqlScalarExpression) : Prop :=
  part ∈ parts expr ∨ ∃ query, nestedQuery expr = some query ∧ QueryHolds query part

/-- An expression with a property stands somewhere below. -/
def Occurs (P : SqlScalarExpression → Bool) (expr : SqlScalarExpression) : Prop :=
  ∃ x, ReflTransGen Inner expr x ∧ P x

def ownAggregate : SqlScalarExpression → List AggregateKind
  | .functionCall name _ false => (aggregateKind name).toList
  | _ => []

variable {P : SqlScalarExpression → Bool} {expr part : SqlScalarExpression}

theorem sizeOf_parts (mem : part ∈ parts expr) : sizeOf part < sizeOf expr :=
  Nat.lt_of_le_of_lt (single_le_sum (by simp) _ (mem_map_of_mem mem)) (sum_sizeOf_parts expr)

/-- The aggregates called in an expression, outside its subqueries, in the order they are
written in. -/
def aggregatesIn (expr : SqlScalarExpression) : List AggregateKind :=
  ownAggregate expr ++ (parts expr).attach.flatMap fun part => aggregatesIn part.1
  termination_by sizeOf expr
  decreasing_by exact sizeOf_parts part.2

theorem aggregatesIn_eq (expr : SqlScalarExpression) :
    aggregatesIn expr = ownAggregate expr ++ (parts expr).flatMap aggregatesIn := by
  rw [aggregatesIn]
  simp

/-! ## The walk -/

theorem visit_eq (info : LocalQueryInfo) (noAggregates : Bool) (expr : SqlScalarExpression) :
    visit info noAggregates expr =
      { info with
        hasUdf := info.hasUdf || isUdfCall expr
        hasSubquery := info.hasSubquery || isSubquery expr
        aggregates := info.aggregates ++ if noAggregates then [] else ownAggregate expr } := by
  cases expr with
  | functionCall name args isUdf =>
    cases isUdf <;> cases noAggregates <;>
      simp [visit, isUdfCall, isSubquery, nestedQuery, ownAggregate]
  | _ => simp [visit, isUdfCall, isSubquery, nestedQuery, ownAggregate]

/-- One step down where the walker looks. -/
def Looks (expr part : SqlScalarExpression) : Prop := skips expr = false ∧ part ∈ parts expr

/-- An expression with a property stands below, where the walker looks. -/
def Seen (P : SqlScalarExpression → Bool) (expr : SqlScalarExpression) : Prop :=
  ∃ x, ReflTransGen Looks expr x ∧ P x

theorem Seen.occurs : Seen P expr → Occurs P expr
  | ⟨x, path, holds⟩ => ⟨x, ReflTransGen.mono (fun _ _ looks => .inl looks.2) _ _ path, holds⟩

theorem seen_iff (noAggregates : Bool) :
    Seen P expr ↔ P expr ∨ ∃ entry ∈ children noAggregates expr, Seen P entry.1 := by
  have next : (∃ entry ∈ children noAggregates expr, Seen P entry.1) ↔
      ∃ part, Looks expr part ∧ Seen P part := by
    rw [children_eq]
    cases skip : skips expr <;> simp [Looks, skip]
  rw [next]
  constructor
  · rintro ⟨x, path, holds⟩
    obtain rfl | ⟨part, looks, path⟩ := path.cases_head
    · exact .inl holds
    · exact .inr ⟨part, looks, x, path, holds⟩
  · rintro (own | ⟨part, looks, x, path, holds⟩)
    · exact ⟨expr, .refl, own⟩
    · exact ⟨x, .head looks path, holds⟩

theorem walk_reports {field : LocalQueryInfo → Bool}
    (step : ∀ info noAggregates expr,
      field (visit info noAggregates expr) = (field info || P expr))
    (stack : List (SqlScalarExpression × Bool)) (info : LocalQueryInfo) :
    field (walkExprForInfo stack info) ↔ field info ∨ ∃ entry ∈ stack, Seen P entry.1 := by
  induction stack, info using walkExprForInfo.induct with
  | case1 info => simp [walkExprForInfo]
  | case2 info expr noAggregates stack ih =>
    have here := @seen_iff P expr noAggregates
    rw [walkExprForInfo, ih, step]
    simp only [Bool.or_eq_true, mem_append, or_and_right, exists_or, mem_cons, exists_eq_left,
      here, or_assoc]

/-! ## Aggregates -/

/-- No aggregate stands where the walker does not look for one. -/
def AggregatesShown (expr : SqlScalarExpression) : Prop :=
  ∀ x, ReflTransGen (fun expr part => part ∈ parts expr) expr x →
    skips x || isUdfCall x → aggregatesIn x = []

theorem aggregatesShown_iff : AggregatesShown expr ↔
    (skips expr || isUdfCall expr → aggregatesIn expr = []) ∧
      ∀ part ∈ parts expr, AggregatesShown part := by
  constructor
  · intro shown
    exact ⟨shown expr .refl, fun part mem x path => shown x (.head mem path)⟩
  · rintro ⟨own, below⟩ x path
    obtain rfl | ⟨part, mem, path⟩ := path.cases_head
    · exact own
    · exact below part mem x path

theorem aggregatesIn_eq_nil : aggregatesIn expr = [] ↔
    ownAggregate expr = [] ∧ ∀ part ∈ parts expr, aggregatesIn part = [] := by
  rw [aggregatesIn_eq, append_eq_nil_iff, flatMap_eq_nil_iff]

/-- Where there is no aggregate, none is hidden. -/
theorem aggregatesShown_of_nil (none : aggregatesIn expr = []) : AggregatesShown expr := by
  have below : ∀ x, ReflTransGen (fun expr part => part ∈ parts expr) expr x →
      aggregatesIn x = [] := by
    intro x path
    induction path with
    | refl => exact none
    | tail _ mem ih => exact (aggregatesIn_eq_nil.mp ih).2 _ mem
  exact fun x path _ => below x path

/-- The aggregates an entry of the work list stands for. -/
def entryAggregates (entry : SqlScalarExpression × Bool) : List AggregateKind :=
  if entry.2 then [] else aggregatesIn entry.1

/-- No aggregate of an entry is hidden. -/
def EntryShown (entry : SqlScalarExpression × Bool) : Prop :=
  entry.2 = false → AggregatesShown entry.1

theorem ownAggregate_eq_nil (hidden : skips expr || isUdfCall expr) : ownAggregate expr = [] := by
  cases expr <;> simp_all [skips, isUdfCall, isSubquery, nestedQuery, ownAggregate]

/-- What one step reports and what it leaves on the work list are aggregates of the entry, and all
of them exactly if the step hides none. -/
theorem visit_aggregates (expr : SqlScalarExpression) (noAggregates : Bool) :
    let left := (if noAggregates then [] else ownAggregate expr) ++
      (children noAggregates expr).flatMap entryAggregates
    left <+ entryAggregates (expr, noAggregates) ∧
      (EntryShown (expr, noAggregates) ↔ left = entryAggregates (expr, noAggregates) ∧
        ∀ entry ∈ children noAggregates expr, EntryShown entry) := by
  intro left
  by_cases hidden : (noAggregates || (skips expr || isUdfCall expr)) = true
  · -- nothing is reported, here or below
    have ignored : ∀ entry ∈ children noAggregates expr, entry.2 = true := by
      rw [children_eq]
      cases skip : skips expr <;> simp_all [or_comm]
    have nothing : left = [] := by
      simp only [left, append_eq_nil_iff, flatMap_eq_nil_iff]
      refine ⟨?_, fun entry mem => if_pos (ignored entry mem)⟩
      cases noAggregates with
      | true => rfl
      | false => exact ownAggregate_eq_nil hidden
    have rest : ∀ entry ∈ children noAggregates expr, EntryShown entry := fun entry mem off => by
      rw [ignored entry mem] at off
      cases off
    rw [nothing]
    refine ⟨nil_sublist _, ?_⟩
    cases noAggregates with
    | true => exact iff_of_true nofun ⟨rfl, rest⟩
    | false =>
      exact ⟨fun shown => ⟨(shown rfl expr .refl hidden).symm, rest⟩,
        fun none _ => aggregatesShown_of_nil none.1.symm⟩
  · simp only [Bool.or_eq_true, not_or, Bool.not_eq_true] at hidden
    obtain ⟨rfl, skip, udf⟩ := hidden
    have same : left = aggregatesIn expr := by
      simp [left, children_eq, skip, udf, flatMap_map, entryAggregates, ← aggregatesIn_eq]
    refine ⟨same ▸ .refl _, ?_⟩
    have shown : AggregatesShown expr ↔ _ := aggregatesShown_iff
    simp [EntryShown, shown, children_eq, skip, udf, same, entryAggregates]

/-- The walk reports aggregates of the entries, in their order, and all of them exactly if none is
hidden. -/
theorem walk_aggregates (stack : List (SqlScalarExpression × Bool)) (info : LocalQueryInfo) :
    (walkExprForInfo stack info).aggregates <+ info.aggregates ++ stack.flatMap entryAggregates ∧
      ((walkExprForInfo stack info).aggregates = info.aggregates ++ stack.flatMap entryAggregates ↔
        ∀ entry ∈ stack, EntryShown entry) := by
  induction stack, info using walkExprForInfo.induct with
  | case1 info => simp [walkExprForInfo]
  | case2 info expr noAggregates stack ih =>
    obtain ⟨sub, whole⟩ := visit_aggregates expr noAggregates
    obtain ⟨subs, all⟩ := ih
    rw [walkExprForInfo]
    have reported : (visit info noAggregates expr).aggregates =
        info.aggregates ++ if noAggregates then [] else ownAggregate expr := by rw [visit_eq]
    rw [reported, flatMap_append, append_assoc, ← append_assoc _ _ (stack.flatMap _)] at subs all
    generalize (if noAggregates then [] else ownAggregate expr) ++
      (children noAggregates expr).flatMap entryAggregates = left at sub whole subs all
    rw [flatMap_cons, forall_mem_cons, whole]
    refine ⟨subs.trans (.append_left (.append_right sub _) _), ?_, ?_⟩
    · intro same
      -- nothing is lost in this step, nor after it
      have lost := subs.length_le
      have less := sub.length_le
      rw [same] at lost
      simp only [length_append] at lost
      have here := sub.eq_of_length (by omega)
      rw [here] at all
      have rest := forall_mem_append.mp (all.mp same)
      exact ⟨⟨here, rest.1⟩, rest.2⟩
    · rintro ⟨⟨here, next⟩, rest⟩
      rw [← here]
      exact all.mpr (forall_mem_append.mpr ⟨next, rest⟩)

/-! ## The query -/

theorem walk_append (first rest : List (SqlScalarExpression × Bool)) (info : LocalQueryInfo) :
    walkExprForInfo (first ++ rest) info = walkExprForInfo rest (walkExprForInfo first info) := by
  induction first, info using walkExprForInfo.induct with
  | case1 info => simp [walkExprForInfo]
  | case2 info expr noAggregates stack ih =>
    rw [cons_append, walkExprForInfo, ← append_assoc, ih, ← walkExprForInfo]

variable {fmt : Formatting} {query : SqlQuery} {parameters : Params} {info : LocalQueryInfo}

/-- The expressions visited one after the other are one work list. -/
theorem foldl_visit (exprs : List SqlScalarExpression) (info : LocalQueryInfo) :
    exprs.foldl visitExprForInfo info = walkExprForInfo (exprs.map (·, false)) info := by
  induction exprs generalizing info with
  | nil => simp [walkExprForInfo]
  | cons expr exprs ih =>
    rw [foldl_cons, ih, visitExprForInfo, ← walk_append]
    rfl

theorem visits_eq (query : SqlQuery) (start : LocalQueryInfo) :
    (query.groupBy.getD []).foldl visitExprForInfo
      ((query.orderBy.getD []).foldl (fun info item => visitExprForInfo info item.expression)
        (query.whereClause.toList.foldl visitExprForInfo
          (visitSelectForInfo start query.select))) =
      walkExprForInfo (query.expressions.map (·, false)) start := by
  rw [← foldl_visit, SqlQuery.expressions, foldl_append, foldl_append, foldl_append, foldl_map,
    visitSelectForInfo]
  cases query.select.spec <;> simp [foldl_map]

theorem analyzeQuery_walk (ok : analyzeQuery fmt query parameters = .ok info) :
    ∃ start, walkExprForInfo (query.expressions.map (·, false)) start = info ∧
      start.hasUdf = false ∧ start.hasSubquery = false ∧ start.aggregates = [] := by
  obtain ⟨top, -, ok⟩ := bind_ok ok
  obtain ⟨offset, -, ok⟩ := bind_ok ok
  obtain ⟨limit, -, ok⟩ := bind_ok ok
  obtain ⟨orders, -, ok⟩ := bind_ok ok
  obtain ⟨groups, -, ok⟩ := bind_ok ok
  exact ⟨_, (visits_eq query _).symm.trans (Except.ok.inj ok), rfl, rfl, rfl⟩

/-- Where one with the property occurs, the walker sees one. -/
def Shown (P : SqlScalarExpression → Bool) (exprs : List SqlScalarExpression) : Prop :=
  (∃ expr ∈ exprs, Occurs P expr) → ∃ expr ∈ exprs, Seen P expr

/-- **The analysis reports what the whole query holds exactly if a user-defined function and a
subquery, where there is one, are seen at one place, and no aggregate is hidden.** -/
theorem analyzeQuery_reports_iff (ok : analyzeQuery fmt query parameters = .ok info) :
    ((info.hasUdf ↔ ∃ expr ∈ query.expressions, Occurs isUdfCall expr) ∧
      (info.hasSubquery ↔ ∃ expr ∈ query.expressions, Occurs isSubquery expr) ∧
      info.aggregates = query.expressions.flatMap aggregatesIn) ↔
    Shown isUdfCall query.expressions ∧ Shown isSubquery query.expressions ∧
      ∀ expr ∈ query.expressions, AggregatesShown expr := by
  obtain ⟨start, rfl, noUdf, noSubquery, noAggregate⟩ := analyzeQuery_walk ok
  have shown {P : SqlScalarExpression → Bool} : ((∃ expr ∈ query.expressions, Seen P expr) ↔
      ∃ expr ∈ query.expressions, Occurs P expr) ↔ Shown P query.expressions :=
    ⟨fun same => same.mpr, fun seen => ⟨fun ⟨expr, mem, s⟩ => ⟨expr, mem, s.occurs⟩, seen⟩⟩
  rw [walk_reports fun _ _ _ => by rw [visit_eq], walk_reports fun _ _ _ => by rw [visit_eq],
    ← shown, ← shown]
  have aggregates := (walk_aggregates (query.expressions.map (·, false)) start).2
  simpa [noUdf, noSubquery, noAggregate, flatMap_map, entryAggregates, EntryShown] using
    fun _ _ => aggregates

/-- `SELECT VALUE expr`. -/
def selectValue (expr : SqlScalarExpression) : SqlQuery :=
  ⟨⟨false, none, .value expr⟩, none, none, none, none, none⟩

/-- `udf.f()`. -/
def sampleCall : SqlScalarExpression := .functionCall ['f'] [] true

def sampleFormatting : Formatting := ⟨fun _ => "", fun _ => ""⟩

/-- `SUM(udf.f()) IN (EXISTS(SELECT VALUE (SELECT VALUE udf.f()).x))`. -/
def sampleSum : SqlScalarExpression :=
  .inItems (.functionCall ['S', 'u', 'm'] [sampleCall] false)
    [.existsQuery (selectValue (.memberRef (.subquery (selectValue sampleCall)) ['x']))] false

theorem analyzeQuery_reports_sum : ∃ info,
    analyzeQuery sampleFormatting (selectValue sampleSum) [] = .ok info ∧
      (info.hasUdf ↔ ∃ expr ∈ [sampleSum], Occurs isUdfCall expr) ∧
      (info.hasSubquery ↔ ∃ expr ∈ [sampleSum], Occurs isSubquery expr) ∧
      info.aggregates = [sampleSum].flatMap aggregatesIn := by
  refine ⟨_, rfl, (@analyzeQuery_reports_iff sampleFormatting (selectValue sampleSum) [] _ rfl).mpr
    ⟨fun _ => ?_, fun _ => ?_, ?_⟩⟩
  · have call : Looks sampleSum (.functionCall ['S', 'u', 'm'] [sampleCall] false) := ⟨rfl, .head _⟩
    exact ⟨sampleSum, .head _, sampleCall, .head call (.single ⟨rfl, .head _⟩), rfl⟩
  · exact ⟨sampleSum, .head _, _, .single ⟨rfl, .tail _ (.head _)⟩, rfl⟩
  · -- only the call of the function and the subquery are not looked at, and they hold none
    have call : AggregatesShown sampleCall :=
      aggregatesShown_of_nil (aggregatesIn_eq_nil.mpr ⟨rfl, nofun⟩)
    refine forall_mem_singleton.mpr (aggregatesShown_iff.mpr ⟨nofun, forall_mem_cons.mpr
      ⟨aggregatesShown_iff.mpr ⟨nofun, forall_mem_singleton.mpr call⟩, forall_mem_singleton.mpr ?_⟩⟩)
    exact aggregatesShown_of_nil (aggregatesIn_eq_nil.mpr ⟨rfl, nofun⟩)

/-- `SELECT VALUE udf.f().x` is said to call no user-defined function. -/
theorem member_of_call_unreported :
    (analyzeQuery sampleFormatting (selectValue (.memberRef sampleCall ['x'])) []).map (·.hasUdf) =
      .ok false ∧ Occurs isUdfCall (.memberRef sampleCall ['x']) := by
  refine ⟨?_, sampleCall, .single (.inl (mem_singleton_self _)), rfl⟩
  show Except.ok (visitExprForInfo _ _).hasUdf = _
  simp [visitExprForInfo, walkExprForInfo, children, visit]

end AzureSdk.Cosmos.Query
