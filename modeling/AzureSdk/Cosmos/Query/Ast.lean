/-
# Cosmos.Query.Ast — the syntax trees of queries

The trees the parser returns, with the root alias of a query and the parameters it is
run with.
-/
import AzureSdk.Theory.Float64
import AzureSdk.Theory.Json

namespace AzureSdk.Cosmos.Query

open Theory

inductive SqlLiteral
  | string (s : Text)
  | number (n : Float64)
  | integer (n : Int64)
  | boolean (b : Bool)
  | null
  | undefined
  deriving DecidableEq, Repr

inductive SqlBinaryOp
  | add | subtract | multiply | divide | modulo
  | equal | notEqual | lessThan | greaterThan | lessThanOrEqual | greaterThanOrEqual
  | and | or
  | bitwiseAnd | bitwiseOr | bitwiseXor | leftShift | rightShift | zeroFillRightShift
  | stringConcat
  deriving DecidableEq, Repr

inductive SqlUnaryOp
  | not | minus | plus | bitwiseNot
  deriving DecidableEq, Repr

inductive SqlPathSegment
  | identifier (name : Text)
  | index (i : Int64)
  | stringIndex (s : Text)
  deriving DecidableEq, Repr

/-- A count that is written out or a parameter. -/
inductive SqlCountSpec
  | literal (n : Int64)
  | parameter (name : Text)
  deriving DecidableEq, Repr

abbrev SqlTopSpec := SqlCountSpec
abbrev SqlOffsetSpec := SqlCountSpec
abbrev SqlLimitSpec := SqlCountSpec

inductive SqlSortOrder
  | unspecified | ascending | descending
  deriving DecidableEq, Repr

structure SqlOffsetLimitClause where
  offset : SqlOffsetSpec
  limit : SqlLimitSpec
  deriving DecidableEq, Repr

mutual

/-- An object property is its name and its expression. -/
inductive SqlScalarExpression
  | literal (lit : SqlLiteral)
  | propertyRef (name : Text)
  | memberRef (source : SqlScalarExpression) (member : Text)
  | memberIndexer (source index : SqlScalarExpression)
  | binary (op : SqlBinaryOp) (left right : SqlScalarExpression)
  | unary (op : SqlUnaryOp) (operand : SqlScalarExpression)
  | functionCall (name : Text) (args : List SqlScalarExpression) (isUdf : Bool)
  | between (expression low high : SqlScalarExpression) (not : Bool)
  | inItems (expression : SqlScalarExpression) (items : List SqlScalarExpression) (not : Bool)
  | like (expression pattern : SqlScalarExpression) (escape : Option Text) (not : Bool)
  | conditional (condition ifTrue ifFalse : SqlScalarExpression)
  | coalesce (left right : SqlScalarExpression)
  | existsQuery (query : SqlQuery)
  | subquery (query : SqlQuery)
  | array (query : SqlQuery)
  | arrayCreate (items : List SqlScalarExpression)
  | objectCreate (props : List (Text × SqlScalarExpression))
  | parameterRef (name : Text)
  | isNull (expression : SqlScalarExpression) (not : Bool)

structure SqlSelectItem where
  expression : SqlScalarExpression
  aliasName : Option Text

inductive SqlSelectSpec
  | star
  | list (items : List SqlSelectItem)
  | value (expr : SqlScalarExpression)

structure SqlSelectClause where
  distinct : Bool
  top : Option SqlTopSpec
  spec : SqlSelectSpec

inductive SqlCollection
  | path (root : Text) (path : List SqlPathSegment)
  | subquery (query : SqlQuery)

inductive SqlCollectionExpression
  | aliased (collection : SqlCollection) (aliasName : Option Text)
  | arrayIterator (identifier : Text) (collection : SqlCollection)
  | join (left right : SqlCollectionExpression)

structure SqlOrderByItem where
  expression : SqlScalarExpression
  order : SqlSortOrder

/-- A clause with one field is that field. -/
structure SqlQuery where
  select : SqlSelectClause
  fromClause : Option SqlCollectionExpression
  whereClause : Option SqlScalarExpression
  groupBy : Option (List SqlScalarExpression)
  orderBy : Option (List SqlOrderByItem)
  offsetLimit : Option SqlOffsetLimitClause

end

/-! ## The root alias -/

def getAliasFromCollection : SqlCollectionExpression → Option Text
  | .aliased (.path root _) aliasName => aliasName.or (some root)
  | .aliased (.subquery _) aliasName => aliasName
  | .join left _ => getAliasFromCollection left
  | .arrayIterator _ _ => none

def getRootAlias (query : SqlQuery) : Option Text :=
  query.fromClause.bind getAliasFromCollection

/-! ## Parameters -/

abbrev Params := List (Text × Json.Value)

def normalizeParameterName (name : Text) : Text := name.dropWhile (· == '@')

def resolveParameterValue (parameters : Params) (name : Text) : Option Json.Value :=
  (parameters.find? fun p => normalizeParameterName p.1 == normalizeParameterName name).map (·.2)

theorem resolve_supplied {supplied : Params} {name : Text} {value : Json.Value}
    (h : resolveParameterValue supplied name = some value) (assigned : Params) :
    resolveParameterValue (supplied ++ assigned) name = some value := by
  obtain ⟨p, found, rfl⟩ := Option.map_eq_some_iff.mp h
  unfold resolveParameterValue
  rw [List.find?_append, found]
  rfl

end AzureSdk.Cosmos.Query
