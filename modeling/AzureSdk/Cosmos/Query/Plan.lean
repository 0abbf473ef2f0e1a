/-
# Cosmos.Query.Plan — the partition keys a query can reach

From the WHERE clause of a query the planner takes a filter on the partition key: the
tuple, or the tuples, that the key of a matching document can start with.  Equalities and
IN lists over the key are its leaves; a conjunction intersects the filters of its members,
a disjunction unites them.  For a hierarchical key the members of a conjunction are
sorted by component first, and the values of the components multiplied.
-/
import AzureSdk.Cosmos.Query.Analysis

namespace AzureSdk.Cosmos.Query

open Theory List SqlScalarExpression

inductive PartitionKeyValue
  | string (s : Text)
  | number (n : Float64)
  | bool (b : Bool)
  | null
  | undefined
  | unboundParameter (name : Text)
  | invalidParameter (name : Text) (reason : String)
  deriving Repr

namespace PartitionKeyValue

/-- The derived `PartialEq`. -/
def eq : PartitionKeyValue → PartitionKeyValue → Bool
  | .string a, .string b => a == b
  | .number a, .number b => Float64.eq a b
  | .bool a, .bool b => a == b
  | .null, .null => true
  | .undefined, .undefined => true
  | .unboundParameter a, .unboundParameter b => a == b
  | .invalidParameter a r, .invalidParameter b q => a == b && r == q
  | _, _ => false

instance : BEq PartitionKeyValue := ⟨eq⟩

def tryNumber (n : Float64) : Option PartitionKeyValue :=
  if Float64.isFinite n then some (.number n) else none

/-- `is_unresolved_pk_value`. -/
def isUnresolved : PartitionKeyValue → Bool
  | .unboundParameter _ | .invalidParameter _ _ => true
  | _ => false

end PartitionKeyValue

inductive PartitionKeyFilter
  | equality (values : List PartitionKeyValue)
  | inList (tuples : List (List PartitionKeyValue))
  | unconstrained
  | contradictory
  | notEvaluated
  deriving Repr

/-! ## Leaves -/

section Leaves

variable (fmt : Formatting) (parameters : Params)

def resolvePkParameter (name : Text) : PartitionKeyValue :=
  let needle := normalizeParameterName name
  match resolveParameterValue parameters name with
  | none => .unboundParameter needle
  | some (.string s) => .string s
  | some (.number n) =>
    (PartitionKeyValue.tryNumber (CosmosValue.asF64 n)).getD
      (.invalidParameter needle ("number value `" ++ fmt.display (.number n) ++ "` is not a finite f64"))
  | some (.bool b) => .bool b
  | some .null => .null
  | some (.array _) => .invalidParameter needle "array values cannot be used as a partition key"
  | some (.object _) => .invalidParameter needle "object values cannot be used as a partition key"

def extractLiteralValue : SqlScalarExpression → Option PartitionKeyValue
  | .literal (.string s) => some (.string s)
  | .literal (.number n) => PartitionKeyValue.tryNumber n
  | .literal (.integer n) => PartitionKeyValue.tryNumber (Float64.ofI64 n)
  | .literal (.boolean b) => some (.bool b)
  | .literal .null => some .null
  | .literal .undefined => some .undefined
  | .parameterRef name => some (resolvePkParameter fmt parameters name)
  | _ => none

end Leaves

def isPkReference (expr : SqlScalarExpression) (pkPath : List Text) (rootAlias : Option Text) : Bool :=
  match resolvePropertyPath expr with
  | none => false
  | some path =>
    if rootAlias.isSome && path.head? == rootAlias then path.tail == pkPath else path == pkPath

/-- The loop over its stack. -/
def flattenChain (op : SqlBinaryOp) : List SqlScalarExpression → List SqlScalarExpression
  | [] => []
  | .binary nodeOp left right :: stack =>
    if nodeOp = op then flattenChain op (left :: right :: stack)
    else .binary nodeOp left right :: flattenChain op stack
  | other :: stack => other :: flattenChain op stack
  termination_by stack => (stack.map fun node => sizeOf node).sum
  decreasing_by
    · simp only [map_cons, sum_cons, binary.sizeOf_spec]
      omega
    · simp only [map_cons, sum_cons, binary.sizeOf_spec]
      omega
    · have := workSize_children false other
      simp only [map_cons, sum_cons]
      omega

def flattenAnd (expr : SqlScalarExpression) : List SqlScalarExpression := flattenChain .and [expr]

def flattenOr (expr : SqlScalarExpression) : List SqlScalarExpression := flattenChain .or [expr]

variable {op : SqlBinaryOp} {P : SqlScalarExpression → Prop}

/-- A leaf comes from a node of the stack, along a relation that goes down the chain. -/
theorem flattenChain_origin {R : SqlScalarExpression → SqlScalarExpression → Prop}
    (refl : ∀ x, R x x) (down : ∀ {x} left right, R x left ∨ R x right → R x (.binary op left right))
    (stack : List SqlScalarExpression) :
    ∀ leaf ∈ flattenChain op stack, ∃ node ∈ stack, R leaf node := by
  fun_induction flattenChain op stack with
  | case1 => nofun
  | case2 left right stack ih =>
    intro leaf mem
    obtain ⟨node, mem, rel⟩ := ih leaf mem
    rcases mem_cons.mp mem with rfl | mem
    · exact ⟨_, .head _, down _ right (.inl rel)⟩
    rcases mem_cons.mp mem with rfl | mem
    · exact ⟨_, .head _, down left _ (.inr rel)⟩
    · exact ⟨node, .tail _ mem, rel⟩
  | case3 nodeOp left right stack other ih | case4 node stack other ih =>
    refine forall_mem_cons.mpr ⟨⟨_, .head _, refl _⟩, fun leaf mem => ?_⟩
    obtain ⟨node, mem, rel⟩ := ih leaf mem
    exact ⟨node, .tail _ mem, rel⟩

/-- What a chain hands down to its parts holds of its leaves. -/
theorem flattenChain_forall (parts : ∀ left right, P (.binary op left right) → P left ∧ P right)
    {stack : List SqlScalarExpression} (each : ∀ node ∈ stack, P node) :
    ∀ leaf ∈ flattenChain op stack, P leaf := by
  intro leaf mem
  obtain ⟨node, inside, hands⟩ := flattenChain_origin (R := fun x y => P y → P x) (fun _ => id)
    (fun left right down h => down.elim (· (parts left right h).1) (· (parts left right h).2))
    stack leaf mem
  exact hands (each node inside)

theorem flattenChain_size (stack : List SqlScalarExpression) :
    ∀ leaf ∈ flattenChain op stack, ∃ node ∈ stack, sizeOf leaf ≤ sizeOf node := by
  refine flattenChain_origin (fun _ => Nat.le_refl _) (fun left right le => ?_) stack
  simp only [binary.sizeOf_spec]
  omega

theorem flattenChain_smaller {left right leaf : SqlScalarExpression}
    (mem : leaf ∈ flattenChain op [.binary op left right]) :
    sizeOf leaf < sizeOf (binary op left right) := by
  rw [flattenChain, if_pos rfl] at mem
  obtain ⟨node, mem, le⟩ := flattenChain_size _ leaf mem
  simp only [mem_cons, not_mem_nil, or_false] at mem
  simp only [binary.sizeOf_spec]
  rcases mem with rfl | rfl
  · omega
  · omega

/-- The induction of the extractors: over the leaves of chains. -/
theorem chain_induction (leaf : ∀ expr, (∀ left right, expr ≠ .binary .and left right) →
      (∀ left right, expr ≠ .binary .or left right) → P expr)
    (and : ∀ left right, (∀ x ∈ flattenAnd (.binary .and left right), P x) →
      P (.binary .and left right))
    (or : ∀ left right, (∀ x ∈ flattenOr (.binary .or left right), P x) →
      P (.binary .or left right))
    (expr : SqlScalarExpression) : P expr := by
  by_cases conjunction : ∃ left right, expr = .binary .and left right
  · obtain ⟨left, right, same⟩ := conjunction
    rw [same]
    exact and left right fun x mem => chain_induction leaf and or x
  · by_cases disjunction : ∃ left right, expr = .binary .or left right
    · obtain ⟨left, right, same⟩ := disjunction
      rw [same]
      exact or left right fun x mem => chain_induction leaf and or x
    · exact leaf expr (fun left right same => conjunction ⟨left, right, same⟩)
        fun left right same => disjunction ⟨left, right, same⟩
  termination_by sizeOf expr
  decreasing_by
    · rw [same]
      exact flattenChain_smaller mem
    · rw [same]
      exact flattenChain_smaller mem

/-! ## The algebra of filters -/

/-- Whether the hash set compares two tuples at all: that depends on their hashes, which tell `0`
from `-0`. -/
abbrev Compared := List PartitionKeyValue → List PartitionKeyValue → Bool

/-- A turn of the loop of `normalize_pk_union`. -/
def dedupeStep (compared : Compared) (deduped : List (List PartitionKeyValue))
    (value : List PartitionKeyValue) : List (List PartitionKeyValue) :=
  if deduped.any fun seen => compared seen value && seen == value then deduped
  else deduped ++ [value]

def dedupe (compared : Compared) (values : List (List PartitionKeyValue)) :
    List (List PartitionKeyValue) :=
  values.foldl (dedupeStep compared) []

section Algebra

variable (compared : Compared)

def normalizePkUnion (values : List (List PartitionKeyValue)) : PartitionKeyFilter :=
  match dedupe compared values with
  | [] => .unconstrained
  | [value] => .equality value
  | deduped => .inList deduped

def unionPkFilters : PartitionKeyFilter → PartitionKeyFilter → PartitionKeyFilter
  | .equality a, .equality b => normalizePkUnion compared [a, b]
  | .equality a, .inList list => normalizePkUnion compared (list ++ [a])
  | .inList list, .equality a => normalizePkUnion compared (list ++ [a])
  | .inList a, .inList b => normalizePkUnion compared (a ++ b)
  | .contradictory, other => other
  | other, .contradictory => other
  | _, _ => .unconstrained

/-- `Equality AND InList`. -/
def narrowToEquality (eq : List PartitionKeyValue) (list : List (List PartitionKeyValue)) :
    PartitionKeyFilter :=
  if eq.any (·.isUnresolved) then normalizePkUnion compared list
  else if list.contains eq then .equality eq
  else .contradictory

def intersectPkFilters : PartitionKeyFilter → PartitionKeyFilter → PartitionKeyFilter
  | .unconstrained, other => other
  | other, .unconstrained => other
  | .contradictory, _ => .contradictory
  | _, .contradictory => .contradictory
  | .equality a, .equality b =>
    match a.any (·.isUnresolved), b.any (·.isUnresolved) with
    | true, true => .unconstrained
    | true, false => .equality b
    | false, true => .equality a
    | false, false => if a == b then .equality a else .contradictory
  | .equality eq, .inList list => narrowToEquality compared eq list
  | .inList list, .equality eq => narrowToEquality compared eq list
  | .inList a, .inList b =>
    match a.filter fun item => b.contains item with
    | [] => .contradictory
    | [item] => .equality item
    | intersection => .inList intersection
  | .notEvaluated, other => other
  | other, .notEvaluated => other

/-- `reduce(f).unwrap_or(Unconstrained)`. -/
def reduceFilters (f : PartitionKeyFilter → PartitionKeyFilter → PartitionKeyFilter) :
    List PartitionKeyFilter → PartitionKeyFilter
  | [] => .unconstrained
  | first :: rest => rest.foldl f first

end Algebra

/-! ## Extraction -/

section Extraction

variable (fmt : Formatting) (compared : Compared)
variable (rootAlias : Option Text) (parameters : Params)

/-- The operand of a comparison with the key. -/
def operandIf (pkPath : List Text) (reference operand : SqlScalarExpression) :
    Option PartitionKeyValue :=
  if isPkReference reference pkPath rootAlias then extractLiteralValue fmt parameters operand
  else none

def extractSinglePk (pkPath : List Text) (expr : SqlScalarExpression) : PartitionKeyFilter :=
  match expr with
  | .binary .equal left right =>
    match operandIf fmt rootAlias parameters pkPath left right with
    | some val => .equality [val]
    | none =>
      match operandIf fmt rootAlias parameters pkPath right left with
      | some val => .equality [val]
      | none => .unconstrained
  | .inItems expression items false =>
    if isPkReference expression pkPath rootAlias then
      let values := items.filterMap (extractLiteralValue fmt parameters)
      if values.length = items.length then .inList (values.map ([·])) else .unconstrained
    else .unconstrained
  | .binary .and left right =>
    reduceFilters (intersectPkFilters compared)
      ((flattenAnd (.binary .and left right)).attach.map fun c => extractSinglePk pkPath c.1)
  | .binary .or left right =>
    reduceFilters (unionPkFilters compared)
      ((flattenOr (.binary .or left right)).attach.map fun d => extractSinglePk pkPath d.1)
  | _ => .unconstrained
  termination_by sizeOf expr
  decreasing_by
    · exact flattenChain_smaller c.2
    · exact flattenChain_smaller d.2

/-- What the members of a conjunction say of one component, so far. -/
structure Component where
  equalValue : Option PartitionKeyValue
  inValues : Option (List PartitionKeyValue)

/-- The operand of an equality with a component: only one side is tried. -/
def componentOperand (pkPath : List Text) (left right : SqlScalarExpression) :
    Option PartitionKeyValue :=
  if isPkReference left pkPath rootAlias then extractLiteralValue fmt parameters right
  else operandIf fmt rootAlias parameters pkPath right left

/-- One member of a conjunction; an error is the filter that is returned at once. -/
def scanConjunct (pkPath : List Text) (component : Component) (conjunct : SqlScalarExpression) :
    Except PartitionKeyFilter Component :=
  match conjunct with
  | .binary .equal left right =>
    match componentOperand fmt rootAlias parameters pkPath left right with
    | none => .ok component
    | some v =>
      match component.equalValue with
      | none => .ok { component with equalValue := some v }
      | some existing => if existing == v then .ok component else .error .contradictory
  | .inItems expression items false =>
    if isPkReference expression pkPath rootAlias then
      match items.mapM (extractLiteralValue fmt parameters) with
      | none => .ok component
      | some vs =>
        let inValues := match component.inValues with
          | none => vs
          | some existing => existing.filter fun v => vs.contains v
        if inValues.isEmpty then .error .contradictory
        else .ok { component with inValues := some inValues }
    else .ok component
  | _ => .ok component

/-- The values of a component, if it is constrained. -/
def componentValues (component : Component) :
    Except PartitionKeyFilter (Option (List PartitionKeyValue)) :=
  match component.equalValue, component.inValues with
  | some eq, some list => if list.contains eq then .ok (some [eq]) else .error .contradictory
  | some eq, none => .ok (some [eq])
  | none, some list => .ok (some list)
  | none, none => .ok none

/-- The loop over the components, up to the first one that is not constrained. -/
def perComponent (conjuncts : List SqlScalarExpression) :
    List (List Text) → List (List PartitionKeyValue) →
      Except PartitionKeyFilter (List (List PartitionKeyValue))
  | [], done => .ok done
  | pkPath :: pkSegments, done => do
    let component ← conjuncts.foldlM (scanConjunct fmt rootAlias parameters pkPath) ⟨none, none⟩
    let values ← componentValues component
    match values with
    | some values => perComponent conjuncts pkSegments (done ++ [values])
    | none => if done.isEmpty then .error .unconstrained else .ok done

def maxHpkTuples : Nat := 1024

variable (components : List (List PartitionKeyValue))

/-- The number of tuples, as a 64-bit product. -/
def tupleCount : Nat :=
  components.foldl (fun total component => total * component.length % 2 ^ 64) 1

def cartesian : List (List PartitionKeyValue) :=
  components.foldl (fun tuples component => tuples.flatMap fun t => component.map fun v => t ++ [v])
    [[]]

/-- The filter of the values of the leading components. -/
def tupleFilter : PartitionKeyFilter :=
  if tupleCount components = 0 then .contradictory
  else if maxHpkTuples < tupleCount components then .unconstrained
  else
    match cartesian components with
    | [tuple] => .equality tuple
    | tuples => .inList tuples

variable (pkSegments : List (List Text))

/-- `extract_hierarchical_pk`, of what is not a disjunction. -/
def conjunctionFilter (expr : SqlScalarExpression) :
    PartitionKeyFilter :=
  match perComponent fmt rootAlias parameters (flattenAnd expr) pkSegments [] with
  | .error filter => filter
  | .ok components => tupleFilter components

def extractHierarchicalPk (expr : SqlScalarExpression) :
    PartitionKeyFilter :=
  match expr with
  | .binary .or left right =>
    reduceFilters (unionPkFilters compared)
      ((flattenOr (.binary .or left right)).attach.map fun d =>
        extractHierarchicalPk d.1)
  | _ => conjunctionFilter fmt rootAlias parameters pkSegments expr
  termination_by sizeOf expr
  decreasing_by exact flattenChain_smaller d.2

def extractPkFromExpression (expr : SqlScalarExpression) :
    PartitionKeyFilter :=
  match pkSegments with
  | [pkPath] => extractSinglePk fmt compared rootAlias parameters pkPath expr
  | _ => extractHierarchicalPk fmt compared rootAlias parameters pkSegments expr

end Extraction

structure QueryPlan where
  pkFilters : PartitionKeyFilter
  queryInfo : LocalQueryInfo

def pkSegmentsOf (path : Text) : List Text :=
  (match path with
  | '/' :: rest => rest
  | path => path).splitOn '/'

def generateQueryPlanWithParameters (fmt : Formatting) (compared : Compared) (query : SqlQuery)
    (pkPaths : List Text) (parameters : Params) : Result QueryPlan := do
  let queryInfo ← analyzeQuery fmt query parameters
  let pkFilters :=
    if pkPaths.isEmpty then PartitionKeyFilter.notEvaluated
    else
      match query.whereClause with
      | some expression =>
        extractPkFromExpression fmt compared (getRootAlias query) parameters
          (pkPaths.map pkSegmentsOf) expression
      | none => .unconstrained
  .ok { pkFilters, queryInfo }

end AzureSdk.Cosmos.Query
