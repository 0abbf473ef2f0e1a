/-
# Cosmos.Patch.InPlace — a patch is applied in place

The evaluator gets the document by mutable reference: when an operation fails, the caller is left
with whatever the document is by then.  Here each function returns how it ended together with the
document, and indexing, inserting and removing out of bounds panics.

`commit` is the evaluation of `Patch.Eval` made in place: the document is replaced where it succeeds
and is left alone where it fails, and nothing panics.  Every operation is such a commit
(`applyOne_eq_commit`), so a list of operations stops at the first one that fails, with the document
as the operations before it leave it (`failed_patch_keeps_applied`).
-/
import AzureSdk.Theory.Run
import AzureSdk.Theory.Location
import AzureSdk.Cosmos.Patch.Eval

namespace AzureSdk.Cosmos.Patch.InPlace

open Theory Theory.Json Members List

variable {α β : Type}

inductive Ended (α : Type)
  | returned (value : α)
  | failed (error : PatchEvalError)
  | panicked

/-- How a call ends, and what it leaves behind the reference. -/
abbrev Ran (α : Type) := Ended α × Value

/-- The `?` operator: the node is left as it is. -/
def orFail (node : Value) (x : Evaluated β) (next : β → Ran α) : Ran α :=
  match x with
  | .ok value => next value
  | .error e => (.failed e, node)

/-! ## Arrays -/

/-- `arr[idx] = value`. -/
def storeItem (items : List Value) (idx : Nat) (value : Value) : Ran Unit :=
  if idx < items.length then (.returned (), .array (items.set idx value))
  else (.panicked, .array items)

/-- `arr.insert(idx, value)`. -/
def insertItem (items : List Value) (idx : Nat) (value : Value) : Ran Unit :=
  if idx ≤ items.length then (.returned (), .array (items.insertIdx idx value))
  else (.panicked, .array items)

/-- `arr.remove(idx)`. -/
def removeItem (items : List Value) (idx : Nat) : Ran Value :=
  match items[idx]? with
  | some value => (.returned value, .array (items.eraseIdx idx))
  | none => (.panicked, .array items)

/-! ## Navigation -/

/-- The child, and the node once there is another value behind the reference to the
child. -/
def stepInto (node : Value) (token fullPath : Text) : Evaluated (Value × (Value → Value)) :=
  match node with
  | .object members =>
    match get token members with
    | some child => .ok (child, fun child => .object (insert token child members))
    | none => .error (.missingParent fullPath)
  | .array items => do
    let idx ← parseArrayIndex token fullPath items.length false
    match items[idx]? with
    | some child => .ok (child, fun child => .array (items.set idx child))
    | none => .error (.missingParent fullPath)
  | _ => .error (.missingParent fullPath)

/-- `navigate_parent_mut`, and what is done with the parent and the last token. -/
def navigateParentMut (edit : Value → Text → Ran α) (path : Text) : List Text → Value → Ran α
  | [], doc => (.failed (.invalidPath path), doc)
  | [last], parent => edit parent last
  | token :: next :: rest, node =>
    orFail node (stepInto node token path) fun (child, write) =>
      let (ended, child) := navigateParentMut edit path (next :: rest) child
      (ended, write child)

/-! ## Operations -/

def typeMismatch (path : Text) (parent : Value) : Ran α :=
  (.failed (.typeMismatch "object or array" (jsonTypeName parent) path), parent)

def addOrSetIn (path : Text) (value : Value) (mode : AddOrSet) (parent : Value) (last : Text) :
    Ran Unit :=
  match parent with
  | .object members => (.returned (), .object (insert last value members))
  | .array items =>
    if mode = .set ∧ last ≠ ['-'] then
      orFail parent (parseArrayIndex last path items.length false) fun idx =>
        storeItem items idx value
    else
      orFail parent (parseArrayIndex last path items.length true) fun idx =>
        if idx = items.length then (.returned (), .array (items ++ [value]))
        else insertItem items idx value
  | other => typeMismatch path other

def addOrSet (doc : Value) (path : Text) (value : Value) (mode : AddOrSet) : Ran Unit :=
  orFail doc (parsePointer path) fun tokens =>
    if tokens = [] then (.returned (), value)
    else navigateParentMut (addOrSetIn path value mode) path tokens doc

def replaceIn (path : Text) (value : Value) (parent : Value) (last : Text) : Ran Unit :=
  match parent with
  | .object members =>
    if (get last members).isNone then (.failed (.missingTarget path), parent)
    else (.returned (), .object (insert last value members))
  | .array items =>
    orFail parent (parseArrayIndex last path items.length false) fun idx =>
      storeItem items idx value
  | other => typeMismatch path other

def replace (doc : Value) (path : Text) (value : Value) : Ran Unit :=
  orFail doc (parsePointer path) fun tokens =>
    if tokens = [] then (.returned (), value)
    else navigateParentMut (replaceIn path value) path tokens doc

def removeIn (path : Text) (parent : Value) (last : Text) : Ran Value :=
  match parent with
  | .object members =>
    match Members.get last members with
    | some value => (.returned value, .object (Members.remove last members))
    | none => (.failed (.missingTarget path), parent)
  | .array items =>
    orFail parent (parseArrayIndex last path items.length false) fun idx =>
      if items.isEmpty then (.failed (.missingTarget path), parent)
      else removeItem items idx
  | other => typeMismatch path other

def remove (doc : Value) (path : Text) : Ran Value :=
  orFail doc (parsePointer path) fun tokens =>
    if tokens = [] then (.failed .cannotRemoveRoot, doc)
    else navigateParentMut (removeIn path) path tokens doc

/-- `increment`, from the leaf on: it is written last. -/
def incrementLeaf (path : Text) (delta : CosmosNumber) (leaf : Value) : Ran Unit :=
  orFail leaf (Patch.incrementLeaf path delta leaf) fun value => (.returned (), value)

def incrementIn (path : Text) (delta : CosmosNumber) (parent : Value) (last : Text) : Ran Unit :=
  match parent with
  | .object members =>
    match get last members with
    | some leaf =>
      let (ended, leaf) := incrementLeaf path delta leaf
      (ended, .object (insert last leaf members))
    | none => (.failed (.missingTarget path), parent)
  | .array items =>
    orFail parent (parseArrayIndex last path items.length false) fun idx =>
      match items[idx]? with
      | some leaf =>
        let (ended, leaf) := incrementLeaf path delta leaf
        (ended, .array (items.set idx leaf))
      | none => (.failed (.missingTarget path), parent)
  | other => typeMismatch path other

def increment (doc : Value) (path : Text) (delta : CosmosNumber) : Ran Unit :=
  orFail doc (parsePointer path) fun tokens =>
    if tokens = [] then (.failed (.missingTarget path), doc)
    else navigateParentMut (incrementIn path delta) path tokens doc

/-- Both steps are made on a copy, which is stored at the end. -/
def moveValue (doc : Value) (source path : Text) : Ran Unit :=
  if source = path then (.returned (), doc)
  else
    orFail doc (parsePointer source) fun fromTokens =>
      orFail doc (parsePointer path) fun toTokens =>
        if toTokens.length > fromTokens.length ∧ toTokens.take fromTokens.length = fromTokens then
          (.failed (.invalidMove ("destination '".toList ++ path ++
            "' is a descendant of source '".toList ++ source ++ "'".toList)), doc)
        else
          match remove doc source with
          | (.returned value, staged) =>
            match addOrSet staged path value .add with
            | (.returned (), staged) => (.returned (), staged)
            | (.failed e, _) => (.failed e, doc)
            | (.panicked, _) => (.panicked, doc)
          | (.failed e, _) => (.failed e, doc)
          | (.panicked, _) => (.panicked, doc)

def applyOne (doc : Value) : PatchOperation → Ran Unit
  | .add path value => addOrSet doc path value .add
  | .set path value => addOrSet doc path value .set
  | .replace path value => replace doc path value
  | .remove path =>
    match remove doc path with
    | (.returned _, doc) => (.returned (), doc)
    | (.failed e, doc) => (.failed e, doc)
    | (.panicked, doc) => (.panicked, doc)
  | .increment path value => increment doc path value
  | .move source path => moveValue doc source path

def applyPatchOps (doc : Value) : List PatchOperation → Ran Unit
  | [] => (.returned (), doc)
  | op :: ops =>
    match applyOne doc op with
    | (.returned (), doc) => applyPatchOps doc ops
    | stopped => stopped

/-! ## Every operation is committed or has no effect -/

/-- An evaluation made in place: a document that is not replaced is left alone. -/
def commit (doc : Value) : Evaluated (Value × α) → Ran α
  | .ok (doc', out) => (.returned out, doc')
  | .error e => (.failed e, doc)

theorem orFail_commit (doc : Value) (x : Evaluated β) (next : β → Evaluated (Value × α)) :
    (orFail doc x fun value => commit doc (next value)) = commit doc (x >>= next) := by
  cases x <;> rfl

theorem orFail_congr {doc : Value} {x : Evaluated β} {next next' : β → Ran α}
    (h : ∀ value, x = .ok value → next value = next' value) :
    orFail doc x next = orFail doc x next' := by
  cases x with
  | ok value => exact h value rfl
  | error e => rfl

theorem storeItem_eq_commit {items : List Value} {idx : Nat} (bound : idx < items.length)
    (value : Value) : storeItem items idx value =
      commit (.array items) (.ok (assignItem items idx value, ())) := by
  rw [storeItem, if_pos bound]
  rfl

theorem addOrSetIn_eq_commit (path : Text) (value : Value) (mode : AddOrSet) (parent : Value)
    (last : Text) :
    addOrSetIn path value mode parent last =
      commit parent (Patch.addOrSetIn path value mode parent last) := by
  cases parent with
  | object members => rfl
  | array items =>
    rw [addOrSetIn, Patch.addOrSetIn]
    split
    · rw [← orFail_commit]
      refine orFail_congr fun idx parsed => ?_
      exact storeItem_eq_commit (parseArrayIndex_lt parsed) value
    · rw [← orFail_commit]
      refine orFail_congr fun idx parsed => ?_
      split
      · next atEnd =>
        rw [atEnd, insertIdx_length_self]
        rfl
      · rw [insertItem, if_pos (parseArrayIndex_le parsed)]
        rfl
  | null | bool | number | string => rfl

theorem replaceIn_eq_commit (path : Text) (value parent : Value) (last : Text) :
    replaceIn path value parent last = commit parent (Patch.replaceIn path value parent last) := by
  cases parent with
  | object members =>
    rw [replaceIn, Patch.replaceIn]
    split <;> rfl
  | array items =>
    rw [replaceIn, Patch.replaceIn, ← orFail_commit]
    refine orFail_congr fun idx parsed => ?_
    exact storeItem_eq_commit (parseArrayIndex_lt parsed) value
  | null | bool | number | string => rfl

theorem removeIn_eq_commit (path : Text) (parent : Value) (last : Text) :
    removeIn path parent last = commit parent (Patch.removeIn path parent last) := by
  cases parent with
  | object members =>
    simp only [removeIn, Patch.removeIn]
    cases get last members <;> rfl
  | array items =>
    rw [removeIn, Patch.removeIn, ← orFail_commit]
    refine orFail_congr fun idx parsed => ?_
    have bound := parseArrayIndex_lt parsed
    have filled : items.isEmpty = false := by
      cases items with
      | nil => exact absurd bound (Nat.not_lt_zero _)
      | cons => rfl
    simp only [filled, Bool.false_eq_true, if_false, removeItem, getElem?_eq_getElem bound]
    rfl
  | null | bool | number | string => rfl

theorem incrementLeaf_eq_commit (path : Text) (delta : CosmosNumber) (leaf : Value) :
    incrementLeaf path delta leaf =
      commit leaf ((Patch.incrementLeaf path delta leaf).map fun value => (value, ())) := by
  unfold incrementLeaf
  cases Patch.incrementLeaf path delta leaf <;> rfl

theorem incrementIn_eq_commit (path : Text) (delta : CosmosNumber) (parent : Value) (last : Text) :
    incrementIn path delta parent last =
      commit parent (Patch.incrementIn path delta parent last) := by
  cases parent with
  | object members =>
    simp only [incrementIn, Patch.incrementIn]
    cases found : get last members with
    | none => rfl
    | some leaf =>
      simp only [incrementLeaf_eq_commit]
      cases Patch.incrementLeaf path delta leaf with
      | ok value => rfl
      | error e =>
        simp only [commit, Except.map]
        rw [insert_get found]
        rfl
  | array items =>
    rw [incrementIn, Patch.incrementIn, ← orFail_commit]
    refine orFail_congr fun idx parsed => ?_
    have bound := parseArrayIndex_lt parsed
    simp only [getElem?_eq_getElem bound, incrementLeaf_eq_commit]
    cases Patch.incrementLeaf path delta items[idx] with
    | ok value => rfl
    | error e =>
      simp only [commit, Except.map]
      rw [set_getElem_self]
      rfl
  | null | bool | number | string => rfl

/-- The nodes on the way are put back: with the new child, or as they were. -/
theorem navigateParentMut_eq_commit {edit : Value → Text → Ran α} {edit' : Edit α}
    (commits : ∀ parent last, edit parent last = commit parent (edit' parent last)) (path : Text) :
    ∀ (tokens : List Text) (doc : Value),
      navigateParentMut edit path tokens doc = commit doc (editParent edit' path tokens doc)
  | [], doc => rfl
  | [last], parent => commits parent last
  | token :: next :: rest, .object members => by
    simp only [navigateParentMut, stepInto, editParent]
    cases found : get token members with
    | none => rfl
    | some child =>
      simp only [orFail, navigateParentMut_eq_commit commits path (next :: rest) child]
      cases editParent edit' path (next :: rest) child with
      | ok edited => rfl
      | error e =>
        simp only [commit]
        rw [insert_get found]
        rfl
  | token :: next :: rest, .array items => by
    rw [navigateParentMut, stepInto, editParent]
    cases parsed : parseArrayIndex token path items.length false with
    | error e => rfl
    | ok idx =>
      have bound := parseArrayIndex_lt parsed
      simp only [bind, Except.bind, getElem?_eq_getElem bound, orFail,
        navigateParentMut_eq_commit commits path (next :: rest) items[idx]]
      cases editParent edit' path (next :: rest) items[idx] with
      | ok edited => rfl
      | error e =>
        simp only [commit]
        rw [set_getElem_self]
  | _ :: _ :: _, .null | _ :: _ :: _, .bool _ | _ :: _ :: _, .number _ | _ :: _ :: _, .string _ => rfl

/-- An evaluation that returns the document only. -/
def silent (x : Evaluated Value) : Evaluated (Value × Unit) := x.map fun doc => (doc, ())

/-- An operation at a pointer, from its tokens on: the root, or an edit of a parent. -/
theorem atPointer_eq_commit {edit : Value → Text → Ran Unit} {edit' : Edit Unit}
    (commits : ∀ parent last, edit parent last = commit parent (edit' parent last)) (doc : Value)
    (path : Text) (root : Evaluated Value) :
    (orFail doc (parsePointer path) fun tokens =>
        if tokens = [] then commit doc (silent root)
        else navigateParentMut edit path tokens doc) =
      commit doc (silent (do
        let tokens ← parsePointer path
        if tokens = [] then root
        else do
          let (doc, _) ← editParent edit' path tokens doc
          .ok doc)) := by
  cases parsePointer path with
  | error e => rfl
  | ok tokens =>
    simp only [orFail, bind, Except.bind]
    split
    · rfl
    · rw [navigateParentMut_eq_commit commits]
      cases editParent edit' path tokens doc <;> rfl

theorem addOrSet_eq_commit (doc : Value) (path : Text) (value : Value) (mode : AddOrSet) :
    addOrSet doc path value mode = commit doc (silent (Patch.addOrSet doc path value mode)) :=
  atPointer_eq_commit (addOrSetIn_eq_commit path value mode) doc path (.ok value)

theorem remove_eq_commit (doc : Value) (path : Text) :
    remove doc path = commit doc (Patch.remove doc path) := by
  unfold remove Patch.remove
  cases parsePointer path with
  | error e => rfl
  | ok tokens =>
    simp only [orFail, bind, Except.bind]
    split
    · rfl
    · exact navigateParentMut_eq_commit (removeIn_eq_commit path) path tokens doc

theorem moveValue_eq_commit (doc : Value) (source path : Text) :
    moveValue doc source path = commit doc (silent (Patch.moveValue doc source path)) := by
  unfold moveValue Patch.moveValue
  split
  · rfl
  cases parsePointer source with
  | error e => rfl
  | ok fromTokens =>
    cases parsePointer path with
    | error e => rfl
    | ok toTokens =>
      simp only [orFail, bind, Except.bind]
      split
      · rfl
      rw [remove_eq_commit]
      cases Patch.remove doc source with
      | error e => rfl
      | ok removed =>
        simp only [commit, addOrSet_eq_commit]
        cases Patch.addOrSet removed.1 path removed.2 .add <;> rfl

/-- Each operation replaces the document by what it evaluates to or leaves it alone. -/
theorem applyOne_eq_commit (doc : Value) (op : PatchOperation) :
    applyOne doc op = commit doc (silent (Patch.applyOne doc op)) := by
  cases op with
  | add path value => exact addOrSet_eq_commit doc path value .add
  | set path value => exact addOrSet_eq_commit doc path value .set
  | replace path value =>
    exact atPointer_eq_commit (replaceIn_eq_commit path value) doc path (.ok value)
  | remove path =>
    simp only [applyOne, Patch.applyOne, remove_eq_commit]
    cases Patch.remove doc path <;> rfl
  | increment path value =>
    exact atPointer_eq_commit (incrementIn_eq_commit path value) doc path
      (.error (.missingTarget path))
  | move source path => exact moveValue_eq_commit doc source path

/-! ## A list of operations -/

/-- An operation that succeeds. -/
def Applied (doc : Value) (op : PatchOperation) (doc' : Value) : Prop :=
  applyOne doc op = (.returned (), doc')

/-- Either all operations are applied one after another, or the first that fails leaves the document
as those before it have made it; none panics. -/
theorem failed_patch_keeps_applied (doc : Value) (ops : List PatchOperation) :
    (∃ doc', applyPatchOps doc ops = (.returned (), doc') ∧ Run Applied doc ops doc') ∨
    (∃ k op e doc', ops[k]? = some op ∧ applyPatchOps doc ops = (.failed e, doc') ∧
      Run Applied doc (ops.take k) doc' ∧ applyOne doc' op = (.failed e, doc')) := by
  induction ops generalizing doc with
  | nil => exact .inl ⟨doc, rfl, .nil doc⟩
  | cons op ops ih =>
    have first := applyOne_eq_commit doc op
    cases result : Patch.applyOne doc op with
    | error e =>
      rw [result] at first
      refine .inr ⟨0, op, e, doc, rfl, ?_, .nil doc, first⟩
      rw [applyPatchOps, first]
      rfl
    | ok next =>
      rw [result] at first
      have applied : Applied doc op next := first
      have rest : applyPatchOps doc (op :: ops) = applyPatchOps next ops := by
        rw [applyPatchOps, applied]
      rw [rest]
      rcases ih next with ⟨doc', all, run⟩ | ⟨k, op', e, doc', here, stopped, run, failed⟩
      · exact .inl ⟨doc', all, .cons applied run⟩
      · exact .inr ⟨k + 1, op', e, doc', here, stopped, .cons applied run, failed⟩

end AzureSdk.Cosmos.Patch.InPlace
