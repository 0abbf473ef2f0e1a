/-
# Cosmos.Patch.Eval — applying patch operations to a document

Paths are JSON Pointers.  The evaluator walks to the parent of a path, by member names
in objects and by indices in arrays, and edits the parent there (`editParent`); every
operation is one such edit, a move is two.
-/
import AzureSdk.Theory.Except
import AzureSdk.Theory.Decimal
import AzureSdk.Theory.Json

namespace AzureSdk.Cosmos.Patch

open Theory Theory.Json Members

/-- A float is its bit pattern. -/
inductive CosmosNumber
  | int (n : Int64)
  | float (bits : UInt64)
  deriving DecidableEq, Repr

inductive PatchOperation
  | add (path : Text) (value : Value)
  | set (path : Text) (value : Value)
  | replace (path : Text) (value : Value)
  | remove (path : Text)
  | increment (path : Text) (value : CosmosNumber)
  | move (source path : Text)

def PatchOperation.path : PatchOperation → Text
  | .add path _ | .set path _ | .replace path _ | .remove path | .increment path _
  | .move _ path => path

inductive PatchEvalError
  | invalidPath (path : Text)
  | missingParent (path : Text)
  | missingTarget (path : Text)
  | invalidArrayIndex (token path : Text)
  | arrayIndexOutOfRange (index len : Nat) (path : Text)
  | typeMismatch (expected actual : String) (path : Text)
  | cannotRemoveRoot
  | invalidMove (message : Text)
  deriving DecidableEq, Repr

abbrev Evaluated (α : Type) := Except PatchEvalError α

/-! ## Pointers -/

/-- `unescape_token`: `~0` is `~` and `~1` is `/`; the error names the whole token. -/
def unescapeChars (raw : Text) : Text → Evaluated Text
  | [] => .ok []
  | '~' :: '0' :: rest => (unescapeChars raw rest).map ('~' :: ·)
  | '~' :: '1' :: rest => (unescapeChars raw rest).map ('/' :: ·)
  | '~' :: _ => .error (.invalidPath raw)
  | c :: rest => (unescapeChars raw rest).map (c :: ·)

def unescapeToken (raw : Text) : Evaluated Text := unescapeChars raw raw

def parsePointer : Text → Evaluated (List Text)
  | [] => .ok []
  | '/' :: rest => (rest.splitOn '/').mapM unescapeToken
  | path => .error (.invalidPath path)

def jsonTypeName : Value → String
  | .null => "null"
  | .bool _ => "boolean"
  | .number _ => "number"
  | .string _ => "string"
  | .array _ => "array"
  | .object _ => "object"

def parseArrayIndex (token fullPath : Text) (len : Nat) (allowAppend : Bool) : Evaluated Nat :=
  if token = ['-'] then
    if allowAppend then .ok len else .error (.invalidArrayIndex token fullPath)
  else
    match Decimal.parseUnsigned (2 ^ 64) token with
    | none => .error (.invalidArrayIndex token fullPath)
    | some idx =>
      if !allowAppend && len == 0 then .error (.arrayIndexOutOfRange idx len fullPath)
      else if idx.val > (if allowAppend then len else len - 1) then
        .error (.arrayIndexOutOfRange idx len fullPath)
      else .ok idx

def indexBound (len : Nat) (allowAppend : Bool) : Nat := if allowAppend then len + 1 else len

variable {idx len : Nat} {path token : Text}

/-- `-` is the end, for appending; any other index is a number within its bound. -/
theorem parseArrayIndex_eq_ok {allowAppend : Bool} :
    parseArrayIndex token path len allowAppend = .ok idx ↔
      (token = ['-'] ∧ allowAppend = true ∧ idx = len) ∨
      (token ≠ ['-'] ∧ (∃ i, Decimal.parseUnsigned (2 ^ 64) token = some i ∧ i.val = idx) ∧
        idx < indexBound len allowAppend) := by
  unfold parseArrayIndex
  by_cases append : token = ['-']
  · cases allowAppend <;> simp [append, eq_comm]
  · rw [if_neg append]
    cases Decimal.parseUnsigned (2 ^ 64) token with
    | none => simp [append]
    | some i =>
      have checked : (if !allowAppend && len == 0 then
            .error (.arrayIndexOutOfRange i len path)
          else if i.val > (if allowAppend then len else len - 1) then
            .error (.arrayIndexOutOfRange i len path)
          else .ok i.val : Evaluated Nat) =
          if i.val < indexBound len allowAppend then .ok i.val
          else .error (.arrayIndexOutOfRange i len path) := by
        cases allowAppend
        · by_cases empty : len = 0
          · simp [indexBound, empty]
          · have within : i.val > len - 1 ↔ ¬ i.val < len := by omega
            simp only [Bool.not_false, Bool.true_and, beq_iff_eq, empty, if_false,
              Bool.false_eq_true, within, ite_not, indexBound]
        · have within : i.val > len ↔ ¬ i.val < len + 1 := by omega
          simp only [Bool.not_true, Bool.false_and, Bool.false_eq_true, if_false, if_true, within,
            ite_not, indexBound]
      refine (Eq.congr_left checked).trans ?_
      split
      · next bound =>
        constructor
        · rintro ⟨⟩
          exact .inr ⟨append, ⟨i, rfl, rfl⟩, bound⟩
        · rintro (⟨same, _⟩ | ⟨_, ⟨_, ⟨⟩, rfl⟩, _⟩)
          · contradiction
          · rfl
      · next beyond =>
        refine ⟨nofun, ?_⟩
        rintro (⟨same, _⟩ | ⟨_, ⟨_, ⟨⟩, rfl⟩, bound⟩)
        · contradiction
        · contradiction

theorem parseArrayIndex_lt (h : parseArrayIndex token path len false = .ok idx) : idx < len := by
  rcases parseArrayIndex_eq_ok.mp h with ⟨_, append, _⟩ | ⟨_, _, bound⟩
  · cases append
  · exact bound

theorem parseArrayIndex_le (h : parseArrayIndex token path len true = .ok idx) : idx ≤ len := by
  rcases parseArrayIndex_eq_ok.mp h with ⟨_, _, rfl⟩ | ⟨_, _, bound⟩
  · exact Nat.le_refl _
  · exact Nat.le_of_lt_succ bound

/-! ## Editing the parent of a path -/

/-- An edit of a parent at a name or index, with what it takes out. -/
abbrev Edit (α : Type) := Value → Text → Evaluated (Value × α)

/-- `navigate_parent_mut` and the edit of what it returns: `step_into` along the tokens before
the last one, each node put back where it was taken from. -/
def editParent {α : Type} (edit : Edit α) (path : Text) : List Text → Value → Evaluated (Value × α)
  | [], _ => .error (.invalidPath path)
  | [last], parent => edit parent last
  | token :: next :: rest, .object members =>
    match get token members with
    | none => .error (.missingParent path)
    | some child => do
      let (child, out) ← editParent edit path (next :: rest) child
      .ok (.object (insert token child members), out)
  | token :: next :: rest, .array items => do
    let idx ← parseArrayIndex token path items.length false
    match items[idx]? with
    | none => .error (.missingParent path)
    | some child => do
      let (child, out) ← editParent edit path (next :: rest) child
      .ok (.array (items.set idx child), out)
  | _ :: _ :: _, _ => .error (.missingParent path)

/-- The parent is neither an object nor an array. -/
def notAContainer {α : Type} (path : Text) (parent : Value) : Evaluated α :=
  .error (.typeMismatch "object or array" (jsonTypeName parent) path)

inductive AddOrSet
  | add
  | set
  deriving DecidableEq, Repr

/-- `arr[idx] = value`; the index is in bounds. -/
def assignItem (items : List Value) (idx : Nat) (value : Value) : Value := .array (items.set idx value)

def addOrSetIn (path : Text) (value : Value) (mode : AddOrSet) : Edit Unit
  | .object members, last => .ok (.object (insert last value members), ())
  | .array items, last =>
    if mode = .set ∧ last ≠ ['-'] then do
      let idx ← parseArrayIndex last path items.length false
      .ok (assignItem items idx value, ())
    else do
      let idx ← parseArrayIndex last path items.length true
      .ok (.array (items.insertIdx idx value), ())
  | other, _ => notAContainer path other

/-- A root path replaces the document. -/
def addOrSet (doc : Value) (path : Text) (value : Value) (mode : AddOrSet) : Evaluated Value := do
  let tokens ← parsePointer path
  if tokens = [] then .ok value
  else do
    let (doc, _) ← editParent (addOrSetIn path value mode) path tokens doc
    .ok doc

def replaceIn (path : Text) (value : Value) : Edit Unit
  | .object members, last =>
    if (get last members).isNone then .error (.missingTarget path)
    else .ok (.object (insert last value members), ())
  | .array items, last => do
    let idx ← parseArrayIndex last path items.length false
    .ok (assignItem items idx value, ())
  | other, _ => notAContainer path other

def replace (doc : Value) (path : Text) (value : Value) : Evaluated Value := do
  let tokens ← parsePointer path
  if tokens = [] then .ok value
  else do
    let (doc, _) ← editParent (replaceIn path value) path tokens doc
    .ok doc

def removeIn (path : Text) : Edit Value
  | .object members, last =>
    match get last members with
    | none => .error (.missingTarget path)
    | some value => .ok (.object (remove last members), value)
  | .array items, last => do
    let idx ← parseArrayIndex last path items.length false
    match items[idx]? with
    | none => .error (.missingTarget path)
    | some value => .ok (.array (items.eraseIdx idx), value)
  | other, _ => notAContainer path other

/-- The document and the value taken out of it. -/
def remove (doc : Value) (path : Text) : Evaluated (Value × Value) := do
  let tokens ← parsePointer path
  if tokens = [] then .error .cannotRemoveRoot
  else editParent (removeIn path) path tokens doc

/-! ## Numbers -/

/-- `Number::as_i64`. -/
def asI64 : Number → Option Int64
  | .posInt n => if n.toNat < 2 ^ 63 then some (.ofNat n.toNat) else none
  | .negInt n => some n
  | .float _ => none

/-- `Number::as_f64`. -/
def asF64 : Number → Float
  | .posInt n => n.toFloat
  | .negInt n => n.toFloat
  | .float bits => .ofBits bits

/-- `Number::from(i64)`. -/
def numberOfI64 (n : Int64) : Number :=
  if n < 0 then .negInt n else .posInt n.toUInt64

/-- `Number::from_f64`, which takes finite numbers only. -/
def numberOfF64 (path : Text) (x : Float) : Evaluated Value :=
  if x.isFinite then .ok (.number (.float x.toBits))
  else .error (.typeMismatch "finite number" "non-finite" path)

/-- The sum `increment` stores. -/
def incremented (path : Text) (delta : CosmosNumber) (target : Number) : Evaluated Value :=
  match delta, asI64 target with
  | .int d, some n =>
    let sum := n.toInt + d.toInt
    if -2 ^ 63 ≤ sum ∧ sum < 2 ^ 63 then .ok (.number (numberOfI64 (.ofInt sum)))
    else .error (.typeMismatch "i64 (within range)" "i64 (overflow)" path)
  | .int _, none => .error (.typeMismatch "integer number" "fractional number" path)
  | .float d, some n =>
    if n.toInt.natAbs > 2 ^ 53 then
      .error (.typeMismatch "integer target within ±2^53 for fractional Increment"
        "integer outside ±2^53" path)
    else numberOfF64 path (n.toFloat + .ofBits d)
  | .float d, none => numberOfF64 path (asF64 target + .ofBits d)

/-- The leaf of `increment` has to be a number. -/
def incrementLeaf (path : Text) (delta : CosmosNumber) : Value → Evaluated Value
  | .number target => incremented path delta target
  | other => .error (.typeMismatch "number" (jsonTypeName other) path)

def incrementIn (path : Text) (delta : CosmosNumber) : Edit Unit
  | .object members, last =>
    match get last members with
    | none => .error (.missingTarget path)
    | some leaf => do
      let value ← incrementLeaf path delta leaf
      .ok (.object (insert last value members), ())
  | .array items, last => do
    let idx ← parseArrayIndex last path items.length false
    match items[idx]? with
    | none => .error (.missingTarget path)
    | some leaf => do
      let value ← incrementLeaf path delta leaf
      .ok (assignItem items idx value, ())
  | other, _ => notAContainer path other

def increment (doc : Value) (path : Text) (delta : CosmosNumber) : Evaluated Value := do
  let tokens ← parsePointer path
  if tokens = [] then .error (.missingTarget path)
  else do
    let (doc, _) ← editParent (incrementIn path delta) path tokens doc
    .ok doc

/-! ## Operations -/

/-- Out of a copy and into it, and the copy is kept when both succeed. -/
def moveValue (doc : Value) (source path : Text) : Evaluated Value :=
  if source = path then .ok doc
  else do
    let fromTokens ← parsePointer source
    let toTokens ← parsePointer path
    if toTokens.length > fromTokens.length ∧ toTokens.take fromTokens.length = fromTokens then
      .error (.invalidMove ("destination '".toList ++ path ++ "' is a descendant of source '".toList ++
        source ++ "'".toList))
    else do
      let (staged, value) ← remove doc source
      addOrSet staged path value .add

def applyOne (doc : Value) : PatchOperation → Evaluated Value
  | .add path value => addOrSet doc path value .add
  | .set path value => addOrSet doc path value .set
  | .replace path value => replace doc path value
  | .remove path => do
    let (doc, _) ← remove doc path
    .ok doc
  | .increment path value => increment doc path value
  | .move source path => moveValue doc source path

def applyPatchOps (doc : Value) (ops : List PatchOperation) : Evaluated Value :=
  ops.foldlM applyOne doc

end AzureSdk.Cosmos.Patch
