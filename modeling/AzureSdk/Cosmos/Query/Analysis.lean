/-
# Cosmos.Query.Analysis — the structure of a query

What the local plan says of a query besides its partition keys: its counts, its orders and
groups as paths, and which aggregates, subqueries and user-defined functions occur in it.
Expressions are walked with a work list, each entry with whether aggregates are ignored
below it.
-/
import AzureSdk.Cosmos.Error
import AzureSdk.Cosmos.Query.Value

namespace AzureSdk.Cosmos.Query

open Theory List

inductive DistinctType
  | none | ordered | unordered
  deriving DecidableEq, Repr

inductive SortOrder
  | ascending | descending
  deriving DecidableEq, Repr

inductive AggregateKind
  | count | sum | avg | min | max
  deriving DecidableEq, Repr

structure LocalQueryInfo where
  distinctType : DistinctType := .none
  top : Option Int64 := Option.none
  offset : Option Int64 := Option.none
  limit : Option Int64 := Option.none
  orderBy : List SortOrder := []
  orderByExpressions : List Text := []
  groupByExpressions : List Text := []
  aggregates : List AggregateKind := []
  hasSelectValue : Bool := false
  hasJoin : Bool := false
  hasSubquery : Bool := false
  hasWhere : Bool := false
  hasUdf : Bool := false
  deriving DecidableEq, Repr

/-- How values and expressions are printed in messages. -/
structure Formatting where
  display : Json.Value → String
  debug : SqlScalarExpression → String

/-! ## Counts -/

def resolveNonNegativeIntegerParameter (fmt : Formatting) (parameters : Params) (name : Text) :
    Except String Int64 :=
  let needle := "@" ++ String.ofList (normalizeParameterName name)
  match resolveParameterValue parameters name with
  | none => .error ("query references parameter " ++ needle ++ " but no value was supplied")
  | some (.number n) =>
    match CosmosValue.asI64 n with
    | some i =>
      if i.toInt < 0 then
        .error ("parameter " ++ needle ++ " must be non-negative; got " ++ toString i.toInt)
      else .ok i
    | none =>
      .error ("parameter " ++ needle ++ " must be an integer; got " ++ fmt.display (.number n))
  | some other => .error ("parameter " ++ needle ++ " must be an integer; got " ++ fmt.display other)

def resolveIntegerParameter (fmt : Formatting) (parameters : Params) (name : Text) : Result Int64 :=
  match resolveNonNegativeIntegerParameter fmt parameters name with
  | .ok i => .ok i
  | .error msg =>
    fail .clientQueryPlanInvalidTopOffsetLimit (msg ++ " (TOP/OFFSET/LIMIT clause)")

def resolveCount (fmt : Formatting) (parameters : Params) : SqlCountSpec → Result Int64
  | .literal n => .ok n
  | .parameter name => resolveIntegerParameter fmt parameters name

/-! ## Paths -/

/-- `resolve_property_path` and `collect_path_parts`, which are the same. -/
def resolvePropertyPath : SqlScalarExpression → Option (List Text)
  | .propertyRef name => some [name]
  | .memberRef source member => (resolvePropertyPath source).map (· ++ [member])
  | _ => none

/-- `LocalPlanFallbackError::NEEDS_GATEWAY_FALLBACK`. -/
def needsGatewayFallback : String := "[NEEDS_GATEWAY_FALLBACK]"

def exprToPathString (fmt : Formatting) (expr : SqlScalarExpression) : Result Text :=
  match resolvePropertyPath expr with
  | some parts => .ok (['.'].intercalate parts)
  | none =>
    fail .clientQueryPlanComplexProjectionUnsupported
      (needsGatewayFallback ++ " GROUP BY / ORDER BY expression is not a property path; local plan " ++
        "generation cannot reproduce the Gateway's rewrite. Fall back to the Gateway query-plan " ++
        "endpoint. expression: " ++ fmt.debug expr)

/-! ## Expressions -/

mutual

def isConstantExpression : SqlScalarExpression → Bool
  | .literal _ => true
  | .arrayCreate items => allConstant items
  | .objectCreate props => allPropsConstant props
  | .unary _ operand => isConstantExpression operand
  | .binary _ left right => isConstantExpression left && isConstantExpression right
  | _ => false

def allConstant : List SqlScalarExpression → Bool
  | [] => true
  | item :: items => isConstantExpression item && allConstant items

def allPropsConstant : List (Text × SqlScalarExpression) → Bool
  | [] => true
  | (_, expr) :: props => isConstantExpression expr && allPropsConstant props

end

def aggregateKind (name : Text) : Option AggregateKind :=
  match String.ofList (name.map Char.toUpper) with
  | "COUNT" => some .count
  | "SUM" => some .sum
  | "AVG" => some .avg
  | "MIN" => some .min
  | "MAX" => some .max
  | _ => none

/-- What one expression of the work list adds. -/
def visit (info : LocalQueryInfo) (noAggregates : Bool) : SqlScalarExpression → LocalQueryInfo
  | .functionCall name _ isUdf =>
    if isUdf then { info with hasUdf := true }
    else if noAggregates then info
    else { info with aggregates := info.aggregates ++ (aggregateKind name).toList }
  | .existsQuery _ | .subquery _ | .array _ => { info with hasSubquery := true }
  | _ => info

/-- What is put on the work list, in the order it is taken off again. -/
def children (noAggregates : Bool) : SqlScalarExpression → List (SqlScalarExpression × Bool)
  | .functionCall _ args isUdf => args.map fun arg => (arg, isUdf || noAggregates)
  | .binary _ left right => [(left, noAggregates), (right, noAggregates)]
  | .unary _ operand => [(operand, noAggregates)]
  | .conditional condition ifTrue ifFalse =>
    [(condition, noAggregates), (ifTrue, noAggregates), (ifFalse, noAggregates)]
  | .coalesce left right => [(left, noAggregates), (right, noAggregates)]
  | .inItems expression items _ =>
    (expression, noAggregates) :: items.map fun item => (item, noAggregates)
  | .between expression low high _ =>
    [(expression, noAggregates), (low, noAggregates), (high, noAggregates)]
  | .like expression pattern _ _ => [(expression, noAggregates), (pattern, noAggregates)]
  | .arrayCreate items => items.map fun item => (item, noAggregates)
  | .objectCreate props => props.map fun prop => (prop.2, noAggregates)
  | _ => []

/-- The expressions directly below one, subqueries apart. -/
def parts : SqlScalarExpression → List SqlScalarExpression
  | .memberRef source _ => [source]
  | .memberIndexer source index => [source, index]
  | .binary _ left right | .coalesce left right => [left, right]
  | .unary _ operand => [operand]
  | .functionCall _ args _ => args
  | .between expression low high _ => [expression, low, high]
  | .inItems expression items _ => expression :: items
  | .like expression pattern _ _ => [expression, pattern]
  | .conditional condition ifTrue ifFalse => [condition, ifTrue, ifFalse]
  | .arrayCreate items => items
  | .objectCreate props => props.map (·.2)
  | .isNull expression _ => [expression]
  | .literal _ | .propertyRef _ | .parameterRef _ | .existsQuery _ | .subquery _ | .array _ => []

def nestedQuery : SqlScalarExpression → Option SqlQuery
  | .existsQuery query | .subquery query | .array query => some query
  | _ => none

def isUdfCall : SqlScalarExpression → Bool
  | .functionCall _ _ isUdf => isUdf
  | _ => false

def isSubquery (expr : SqlScalarExpression) : Bool := (nestedQuery expr).isSome

/-- The expressions the walker does not look below. -/
def skips : SqlScalarExpression → Bool
  | .memberRef _ _ | .memberIndexer _ _ | .isNull _ _ => true
  | expr => isSubquery expr

theorem children_eq (noAggregates : Bool) (expr : SqlScalarExpression) :
    children noAggregates expr =
      if skips expr then [] else (parts expr).map (·, isUdfCall expr || noAggregates) := by
  cases expr <;> simp [children, skips, parts, isUdfCall, isSubquery, nestedQuery]

noncomputable def workSize (stack : List (SqlScalarExpression × Bool)) : Nat :=
  (stack.map fun entry => sizeOf entry.1).sum

theorem sum_sizeOf_le : ∀ items : List SqlScalarExpression,
    (items.map fun item => sizeOf item).sum ≤ sizeOf items
  | [] => Nat.zero_le _
  | item :: items => by
    have rest := sum_sizeOf_le items
    simp only [map_cons, sum_cons, cons.sizeOf_spec]
    omega

theorem sum_sizeOf_props_le : ∀ props : List (Text × SqlScalarExpression),
    (props.map fun prop => sizeOf prop.2).sum ≤ sizeOf props
  | [] => Nat.zero_le _
  | (name, expr) :: props => by
    have rest := sum_sizeOf_props_le props
    simp only [map_cons, sum_cons, cons.sizeOf_spec, Prod.mk.sizeOf_spec]
    omega

theorem sum_sizeOf_parts (expr : SqlScalarExpression) :
    ((parts expr).map fun part => sizeOf part).sum < sizeOf expr := by
  cases expr with
  | functionCall _ items _ | arrayCreate items | inItems _ items _ =>
    have := sum_sizeOf_le items
    simp [parts] at *
    omega
  | objectCreate props =>
    have := sum_sizeOf_props_le props
    simp [parts, Function.comp_def] at *
    omega
  | _ => simp [parts] <;> omega

theorem workSize_children (noAggregates : Bool) (expr : SqlScalarExpression) :
    workSize (children noAggregates expr) < sizeOf expr := by
  have below := sum_sizeOf_parts expr
  rw [children_eq]
  split
  · exact Nat.zero_lt_of_lt below
  · rwa [workSize, map_map]

/-- The loop over the work list. -/
def walkExprForInfo (stack : List (SqlScalarExpression × Bool)) (info : LocalQueryInfo) :
    LocalQueryInfo :=
  match stack with
  | [] => info
  | (expr, noAggregates) :: stack =>
    walkExprForInfo (children noAggregates expr ++ stack) (visit info noAggregates expr)
  termination_by workSize stack
  decreasing_by
    have := workSize_children noAggregates expr
    simp only [workSize, map_append, sum_append, map_cons, sum_cons] at *
    omega

def visitExprForInfo (info : LocalQueryInfo) (expr : SqlScalarExpression) : LocalQueryInfo :=
  walkExprForInfo [(expr, false)] info

def visitSelectForInfo (info : LocalQueryInfo) (select : SqlSelectClause) : LocalQueryInfo :=
  match select.spec with
  | .list items => items.foldl (fun info item => visitExprForInfo info item.expression) info
  | .value expr => visitExprForInfo info expr
  | .star => info

/-! ## Queries -/

/-- The kind of DISTINCT; a constant is distinct without it. -/
def distinctTypeOf (query : SqlQuery) : DistinctType :=
  if !query.select.distinct then .none
  else if (match query.select.spec with
    | .value expr => isConstantExpression expr
    | _ => false) then .none
  else if query.orderBy.isSome then .ordered
  else .unordered

def sortOrderOf : SqlSortOrder → SortOrder
  | .descending => .descending
  | _ => .ascending

def hasJoin : SqlCollectionExpression → Bool
  | .join _ _ => true
  | _ => false

def analyzeQuery (fmt : Formatting) (query : SqlQuery) (parameters : Params) :
    Result LocalQueryInfo := do
  let top ← query.select.top.mapM (resolveCount fmt parameters)
  let offset ← query.offsetLimit.mapM fun ol => resolveCount fmt parameters ol.offset
  let limit ← query.offsetLimit.mapM fun ol => resolveCount fmt parameters ol.limit
  let orderItems := query.orderBy.getD []
  let orderByExpressions ← orderItems.mapM fun item => exprToPathString fmt item.expression
  let groupItems := query.groupBy.getD []
  let groupByExpressions ← groupItems.mapM (exprToPathString fmt)
  let info : LocalQueryInfo :=
    { distinctType := distinctTypeOf query
      top, offset, limit
      orderBy := orderItems.map fun item => sortOrderOf item.order
      orderByExpressions, groupByExpressions
      hasSelectValue := query.select.spec matches .value _
      hasJoin := query.fromClause.any hasJoin
      hasWhere := query.whereClause.isSome }
  let info := visitSelectForInfo info query.select
  let info := query.whereClause.toList.foldl visitExprForInfo info
  let info := orderItems.foldl (fun info item => visitExprForInfo info item.expression) info
  .ok (groupItems.foldl visitExprForInfo info)

end AzureSdk.Cosmos.Query
