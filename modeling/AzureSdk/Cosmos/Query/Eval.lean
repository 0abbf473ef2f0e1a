/-
# Cosmos.Query.Eval — evaluating a query on documents

The evaluator of scalar expressions over a row, the rows a FROM clause expands a document
into, and the rows that a WHERE clause keeps.  A row is the document itself, or, where
FROM joins, iterates or selects a part, an object with a member for each variable; then
names are looked up in that object and there is no root alias.

The arithmetic of doubles and the built-in functions are parameters (`Intrinsics`): what is
proved of the evaluator holds whatever they compute.
-/
import AzureSdk.Theory.Except
import AzureSdk.Cosmos.Query.Value

namespace AzureSdk.Cosmos.Query

open Theory CosmosValue Float64 List

/-- `EvalError`, and a panic of a function. -/
inductive EvalError
  | unsupported (s : String)
  | unknownFunction (name : Text)
  | typeError (s : String)
  | parameterNotFound (name : Text)
  | panic (message : String)
  deriving DecidableEq, Repr, Inhabited

abbrev Evaluated (α : Type) := Except EvalError α

structure Intrinsics where
  add : Float64 → Float64 → Float64
  sub : Float64 → Float64 → Float64
  mul : Float64 → Float64 → Float64
  div : Float64 → Float64 → Float64
  rem : Float64 → Float64 → Float64
  evalFunction : Text → List CosmosValue → Evaluated CosmosValue

/-! ## LIKE -/

/-- One cell of the table: whether the text from `ti` matches the pattern from `pi`. -/
def likeCell (text pattern : Text) (escape : Option Char) (dp : Nat → Nat → Bool) (ti pi : Nat) :
    Bool :=
  match pattern[pi]? with
  | none => false
  | some pc =>
    if some pc = escape ∧ pi + 1 < pattern.length then
      decide (ti < text.length) && text[ti]? == pattern[pi + 1]? && dp (ti + 1) (pi + 2)
    else if pc = '%' then dp ti (pi + 1) || (decide (ti < text.length) && dp (ti + 1) pi)
    else if pc = '_' then decide (ti < text.length) && dp (ti + 1) (pi + 1)
    else decide (ti < text.length) && text[ti]? == some pc && dp (ti + 1) (pi + 1)

def setCell (dp : Nat → Nat → Bool) (ti pi : Nat) (b : Bool) : Nat → Nat → Bool :=
  fun i j => if i = ti ∧ j = pi then b else dp i j

/-- The table is filled from its end. -/
def likeMatchDp (text pattern : Text) (escape : Option Char) : Bool :=
  let start : Nat → Nat → Bool := fun i j => decide (i = text.length ∧ j = pattern.length)
  let column (dp : Nat → Nat → Bool) (pi : Nat) : Nat → Nat → Bool :=
    (List.range (text.length + 1)).reverse.foldl
      (fun dp ti => setCell dp ti pi (likeCell text pattern escape dp ti pi)) dp
  (List.range pattern.length).reverse.foldl column start 0 0

def sqlLikeMatch (text pattern : Text) (escape : Option Text) : Bool :=
  likeMatchDp text pattern (escape.bind List.head?)

/-! ## Operators -/

def evalLiteral : SqlLiteral → CosmosValue
  | .string s => .string s
  | .number n => .number n
  | .integer n => .integer n
  | .boolean b => .boolean b
  | .null => .null
  | .undefined => .undefined

def asNumber : CosmosValue → Option Float64
  | .number n => some n
  | .integer n => some (ofI64 n)
  | _ => none

def indexerAccess (source index : CosmosValue) : CosmosValue :=
  match source, index with
  | .array arr, .number n =>
    if Float64.cmp n 0 == some .lt || !isIntegral n then .undefined
    else (arr[toUsize n]?).getD .undefined
  | .array arr, .integer n =>
    if n.toInt < 0 then .undefined else (arr[n.toInt.toNat]?).getD .undefined
  | .object props, .string key => (findProp key props).getD .undefined
  | _, _ => .undefined

def asBool : CosmosValue → Option Bool
  | .boolean b => some b
  | _ => none

variable (left right : CosmosValue)

def evalAnd : CosmosValue :=
  match asBool left, asBool right with
  | some false, _ => .boolean false
  | _, some false => .boolean false
  | some true, some true => .boolean true
  | _, _ => .undefined

def evalOr : CosmosValue :=
  match asBool left, asBool right with
  | some true, _ => .boolean true
  | _, some true => .boolean true
  | some false, some false => .boolean false
  | _, _ => .undefined

def numericOp (f : Float64 → Float64 → Option Float64) : CosmosValue :=
  match asNumber left, asNumber right with
  | some a, some b => ((f a b).map .number).getD .undefined
  | _, _ => .undefined

/-- Only a finite result, and none by zero. -/
def guarded (f : Float64 → Float64 → Float64) (a b : Float64) : Option Float64 :=
  if eq b 0 then none else if isFinite (f a b) then some (f a b) else none

/-- The result of an integer operation, if it is in range. -/
def checkedI64 (i : Int) : Option Int64 :=
  if -2 ^ 63 ≤ i ∧ i < 2 ^ 63 then some (Int64.ofInt i) else none

def arithOp (intFn : Int → Int → Int)
    (floatFn : Float64 → Float64 → Float64) : CosmosValue :=
  match left, right with
  | .integer a, .integer b =>
    match checkedI64 (intFn a.toInt b.toInt) with
    | some r => .integer r
    | none =>
      let r := floatFn (ofI64 a) (ofI64 b)
      if isFinite r then .number r else .undefined
  | _, _ => numericOp left right fun a b => some (floatFn a b)

/-- The integer an operand of `int_op` stands for. -/
def toI64 : CosmosValue → Option Int64
  | .number n => some (Float64.toI64 n)
  | .integer n => some n
  | _ => none

def intOp (f : Int64 → Int64 → Int64) : CosmosValue :=
  match toI64 left, toI64 right with
  | some a, some b => .integer (f a b)
  | _, _ => .undefined

/-- A comparison: undefined where the values cannot be compared. -/
def comparison (holds : Ordering → Bool) : CosmosValue :=
  match cosmosCmp left right with
  | some order => .boolean (holds order)
  | none => .undefined

def evalBinary (std : Intrinsics) (op : SqlBinaryOp) (left right : CosmosValue) : CosmosValue :=
  match op with
  | .equal => cosmosEq left right
  | .notEqual =>
    match cosmosEq left right with
    | .boolean b => .boolean !b
    | other => other
  | .lessThan => comparison left right (· == .lt)
  | .greaterThan => comparison left right (· == .gt)
  | .lessThanOrEqual => comparison left right (· != .gt)
  | .greaterThanOrEqual => comparison left right (· != .lt)
  | .and => evalAnd left right
  | .or => evalOr left right
  | .add => arithOp left right (· + ·) std.add
  | .subtract => arithOp left right (· - ·) std.sub
  | .multiply => arithOp left right (· * ·) std.mul
  | .divide => numericOp left right (guarded std.div)
  | .modulo => numericOp left right (guarded std.rem)
  | .stringConcat =>
    match left, right with
    | .string a, .string b => .string (a ++ b)
    | _, _ => .undefined
  | .bitwiseAnd => intOp left right (· &&& ·)
  | .bitwiseOr => intOp left right (· ||| ·)
  | .bitwiseXor => intOp left right (· ^^^ ·)
  | .leftShift => intOp left right fun a b => a <<< (b &&& 0x3F)
  | .rightShift => intOp left right fun a b => a >>> (b &&& 0x3F)
  | .zeroFillRightShift => intOp left right fun a b => (a.toUInt64 >>> (b.toUInt64 &&& 0x3F)).toInt64

def evalUnary (op : SqlUnaryOp) (val : CosmosValue) : CosmosValue :=
  match op, val with
  | .not, .boolean b => .boolean !b
  | .minus, .number n => .number (Float64.neg n)
  | .minus, .integer n => .integer (-n)
  | .plus, .number n => .number n
  | .plus, .integer n => .integer n
  | .bitwiseNot, .number n =>
    if Float64.isIntegral n then .integer (~~~(Float64.toI64 n)) else .undefined
  | .bitwiseNot, .integer n => .integer (~~~n)
  | _, _ => .undefined

def inRange (val low high : CosmosValue) : Bool :=
  match cosmosCmp val low, cosmosCmp val high with
  | some lo, some hi => lo != .lt && hi != .gt
  | _, _ => false

/-- `LIKE`; an escape of more or less than one character is undefined. -/
def evalLike (val pattern : CosmosValue) (escape : Option Text) (negated : Bool) : CosmosValue :=
  if escape.any (·.length != 1) then .undefined
  else
    match val, pattern with
    | .string s, .string p => .boolean (sqlLikeMatch s p escape != negated)
    | _, _ => .undefined

/-! ## Expressions -/

section Scalars

variable (std : Intrinsics) (doc : Json.Value) (rootAlias : Option Text) (params : Params)

/-- A name on its own: the root alias, or a member of the row. -/
def evalProperty (name : Text) : CosmosValue :=
  if rootAlias = some name then fromJson doc
  else ((getMember doc name).map fromJson).getD .undefined

mutual

def evalScalar : SqlScalarExpression → Evaluated CosmosValue
  | .literal lit => .ok (evalLiteral lit)
  | .propertyRef name => .ok (evalProperty doc rootAlias name)
  | .memberRef source member => do
    let source ← evalScalar source
    .ok (memberAccess source member)
  | .memberIndexer source index => do
    let source ← evalScalar source
    let index ← evalScalar index
    .ok (indexerAccess source index)
  | .binary op left right => do
    let left ← evalScalar left
    let right ← evalScalar right
    .ok (evalBinary std op left right)
  | .unary op operand => do
    let operand ← evalScalar operand
    .ok (evalUnary op operand)
  | .functionCall name args isUdf =>
    if isUdf then .error (.unsupported "UDF calls")
    else do
      let args ← evalItems args
      std.evalFunction name args
  | .inItems expression items negated => do
    let val ← evalScalar expression
    let found ← evalIn val items
    .ok (.boolean (found != negated))
  | .between expression low high negated => do
    let val ← evalScalar expression
    let low ← evalScalar low
    let high ← evalScalar high
    .ok (.boolean (inRange val low high != negated))
  | .like expression pattern escape negated => do
    let val ← evalScalar expression
    let pattern ← evalScalar pattern
    .ok (evalLike val pattern escape negated)
  | .conditional condition ifTrue ifFalse => do
    let condition ← evalScalar condition
    match condition with
    | .boolean true => evalScalar ifTrue
    | .boolean false => evalScalar ifFalse
    | _ => .ok .undefined
  | .coalesce left right => do
    let left ← evalScalar left
    if left.isUndefined then evalScalar right else .ok left
  | .arrayCreate items => do
    let items ← evalItems items
    .ok (.array items)
  | .objectCreate props => do
    let props ← evalProps props
    .ok (.object props)
  | .parameterRef name =>
    match resolveParameterValue params name with
    | some value => .ok (fromJson value)
    | none => .error (.parameterNotFound name)
  | .isNull expression negated => do
    let val ← evalScalar expression
    .ok (.boolean ((val matches .null) != negated))
  | .existsQuery _ | .subquery _ | .array _ => .error (.unsupported "subqueries")

def evalItems : List SqlScalarExpression → Evaluated (List CosmosValue)
  | [] => .ok []
  | item :: items => do
    let item ← evalScalar item
    let items ← evalItems items
    .ok (item :: items)

def evalProps : List (Text × SqlScalarExpression) → Evaluated (List (Text × CosmosValue))
  | [] => .ok []
  | (name, expression) :: props => do
    let val ← evalScalar expression
    let props ← evalProps props
    .ok ((name, val) :: props)

/-- The loop of `IN`: items after the first equal one are not evaluated. -/
def evalIn (val : CosmosValue) : List SqlScalarExpression → Evaluated Bool
  | [] => .ok false
  | item :: items => do
    let item ← evalScalar item
    if (cosmosEq val item).isTrue then .ok true else evalIn val items

end

def evalWhere (whereClause : Option SqlScalarExpression) : Evaluated Bool :=
  match whereClause with
  | some expression => (evalScalar std doc rootAlias params expression).map isTrue
  | none => .ok true

end Scalars

/-! ## Rows -/

def isPlainRootFrom : SqlCollectionExpression → Bool
  | .aliased (.path _ path) _ => path.isEmpty
  | _ => false

/-- One segment of a collection path; what is missing is null. -/
def pathStep (val : Json.Value) (segment : SqlPathSegment) : Json.Value :=
  match segment, val with
  | .identifier name, _ => (getMember val name).getD .null
  | .index i, .array items => (items[i.toUInt64.toNat]?).getD .null
  | .index _, _ => .null
  | .stringIndex s, _ => (getMember val s).getD .null

def resolveCollectionPath (rootDocument : Json.Value) (bindings : Json.Members) :
    SqlCollection → Evaluated Json.Value
  | .path root path => .ok (path.foldl pathStep ((Json.Members.get root bindings).getD rootDocument))
  | .subquery _ => .error (.unsupported "FROM subqueries")

/-- `Map::extend`. -/
def extend (bindings more : Json.Members) : Json.Members :=
  more.foldl (fun bindings p => Json.Members.insert p.1 p.2 bindings) bindings

/-- The name an aliased collection is bound to. -/
def boundName (collection : SqlCollection) (aliasName : Option Text) : Text :=
  aliasName.getD
    (match collection with
    | .path root _ => root
    | .subquery _ => "c".toList)

def expandFrom (doc : Json.Value) : SqlCollectionExpression → Json.Members →
    Evaluated (List Json.Members)
  | .aliased collection aliasName, bindings => do
    let source ← resolveCollectionPath doc bindings collection
    .ok [[(boundName collection aliasName, source)]]
  | .join left right, bindings => do
    let leftBindings ← expandFrom doc left bindings
    let rows ← leftBindings.mapM fun leftCtx => do
      let rightBindings ← expandFrom doc right (extend bindings leftCtx)
      .ok (rightBindings.map (extend leftCtx))
    .ok rows.flatten
  | .arrayIterator identifier collection, bindings => do
    let arr ← resolveCollectionPath doc bindings collection
    match arr with
    | .array items => .ok (items.map fun item => [(identifier, item)])
    | _ => .ok []

/-- Names are looked up among the variables of FROM. -/
def useBindingContext (query : SqlQuery) : Bool :=
  query.fromClause.any fun collection => !isPlainRootFrom collection

def evalAlias (query : SqlQuery) : Option Text :=
  if useBindingContext query then none else getRootAlias query

def expandRows (query : SqlQuery) (doc : Json.Value) : Evaluated (List Json.Value) :=
  match query.fromClause with
  | some collection =>
    if isPlainRootFrom collection then .ok [doc]
    else (expandFrom doc collection []).map (·.map .object)
  | none => .ok [doc]

/-- The first step of `query_documents`: the rows of a document that WHERE keeps. -/
def filterRows (std : Intrinsics) (query : SqlQuery) (params : Params) (doc : Json.Value) :
    Evaluated (List Json.Value) := do
  let rows ← expandRows query doc
  rows.filterM fun row => evalWhere std row (evalAlias query) params query.whereClause

/-- FROM and WHERE accept the document: they keep a row of it. -/
def Accepts (std : Intrinsics) (query : SqlQuery) (params : Params) (doc : Json.Value) : Prop :=
  ∃ kept, filterRows std query params doc = .ok kept ∧ kept ≠ []

end AzureSdk.Cosmos.Query
