/-
# Cosmos.Query.Value — the values of the evaluator

Values with the equality and order of the query language: both are undefined between
different types, and equality of arrays and objects is by members.
-/
import AzureSdk.Cosmos.Query.Ast

namespace AzureSdk.Cosmos.Query

open Theory

inductive CosmosValue
  | null
  | boolean (b : Bool)
  | number (n : Float64)
  | integer (n : Int64)
  | string (s : Text)
  | array (items : List CosmosValue)
  | object (props : List (Text × CosmosValue))
  | undefined
  deriving Repr

namespace CosmosValue

def isTrue : CosmosValue → Bool
  | .boolean b => b
  | _ => false

def isUndefined : CosmosValue → Bool
  | .undefined => true
  | _ => false

/-- The value of the first property of the name. -/
def findProp (name : Text) : List (Text × CosmosValue) → Option CosmosValue
  | [] => none
  | (k, v) :: props => if k = name then some v else findProp name props

mutual

/-- Of one type and not handled before are only arrays and objects, which
`structural_eq` compares. -/
def cosmosEq : CosmosValue → CosmosValue → CosmosValue
  | .undefined, _ => .undefined
  | _, .undefined => .undefined
  | .null, .null => .boolean true
  | .boolean a, .boolean b => .boolean (a == b)
  | .number a, .number b => .boolean (Float64.eq a b)
  | .integer a, .integer b => .boolean (a == b)
  | .number a, .integer b => .boolean (Float64.eq a (Float64.ofI64 b))
  | .integer a, .number b => .boolean (Float64.eq (Float64.ofI64 a) b)
  | .string a, .string b => .boolean (a == b)
  | .array a, .array b => .boolean (itemsEq a b)
  | .object a, .object b => .boolean (a.length == b.length && propsEq a b)
  | _, _ => .undefined

/-- As many items, and each equal to its partner. -/
def itemsEq : List CosmosValue → List CosmosValue → Bool
  | [], [] => true
  | x :: a, y :: b => (cosmosEq x y).isTrue && itemsEq a b
  | _, _ => false

/-- Each property is one of the other object's too. -/
def propsEq : List (Text × CosmosValue) → List (Text × CosmosValue) → Bool
  | [], _ => true
  | (key, val) :: a, b =>
    match findProp key b with
    | some other => (cosmosEq val other).isTrue && propsEq a b
    | none => false

end

/-- Strings are ordered as their bytes, which is the order of their characters. -/
def cosmosCmp : CosmosValue → CosmosValue → Option Ordering
  | .null, .null => some .eq
  | .boolean a, .boolean b => some (compare a b)
  | .number a, .number b => Float64.cmp a b
  | .integer a, .integer b => some (compare a.toInt b.toInt)
  | .number a, .integer b => Float64.cmp a (Float64.ofI64 b)
  | .integer a, .number b => Float64.cmp (Float64.ofI64 a) b
  | .string a, .string b => some (compare (a.map Char.toNat) (b.map Char.toNat))
  | _, _ => none

/-- `as_i64` of a JSON number. -/
def asI64 : Json.Number → Option Int64
  | .posInt n => if n.toNat < 2 ^ 63 then some (Int64.ofNat n.toNat) else none
  | .negInt n => some n
  | .float _ => none

/-- `as_f64` of a JSON number. -/
def asF64 : Json.Number → Float64
  | .posInt n => Float64.ofNat n.toNat
  | .negInt n => Float64.ofI64 n
  | .float bits => bits

def fromNumber (n : Json.Number) : CosmosValue :=
  match asI64 n with
  | some i => .integer i
  | none => .number (asF64 n)

mutual

def fromJson : Json.Value → CosmosValue
  | .null => .null
  | .bool b => .boolean b
  | .number n => fromNumber n
  | .string s => .string s
  | .array items => .array (fromItems items)
  | .object members => .object (fromMembers members)

def fromItems : List Json.Value → List CosmosValue
  | [] => []
  | v :: items => fromJson v :: fromItems items

def fromMembers : List (Text × Json.Value) → List (Text × CosmosValue)
  | [] => []
  | (k, v) :: members => (k, fromJson v) :: fromMembers members

end

/-! ## Properties -/

def memberAccess (source : CosmosValue) (member : Text) : CosmosValue :=
  match source with
  | .object props => (findProp member props).getD .undefined
  | _ => .undefined

theorem findProp_fromMembers (name : Text) : ∀ members : Json.Members,
    findProp name (fromMembers members) = (Json.Members.get name members).map fromJson
  | [] => rfl
  | (k, v) :: members => by
    rw [fromMembers, findProp, Json.Members.get]
    split
    · rfl
    · exact findProp_fromMembers name members

/-- `Value::get` with a name. -/
def getMember (doc : Json.Value) (name : Text) : Option Json.Value :=
  match doc with
  | .object members => Json.Members.get name members
  | _ => none

theorem memberAccess_fromJson (doc : Json.Value) (name : Text) :
    memberAccess (fromJson doc) name = ((getMember doc name).map fromJson).getD .undefined := by
  cases doc with
  | object members =>
    show (findProp name (fromMembers members)).getD .undefined = _
    rw [findProp_fromMembers]
    rfl
  | null | bool | string | array => rfl
  | number n =>
    show memberAccess (fromNumber n) name = .undefined
    unfold fromNumber
    cases asI64 n with
    | some i => rfl
    | none => rfl

end CosmosValue

end AzureSdk.Cosmos.Query
