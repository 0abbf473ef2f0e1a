/-
# Theory.Location — locations in a JSON value

A location is a path of member names and array indices.  `get` reads the value at a location and
`put` writes it; a member need not be there before, an array index must be.  Reading after writing
gives what was written (`get_put`), writing twice is writing once (`put_put`), writing what is there
changes nothing (`put_get`), and other locations keep their values (`get_put_of_apart`).
-/
import AzureSdk.Theory.Json

namespace AzureSdk.Theory.Json

open List Option

/-! ## Members and items -/

namespace Members

variable {name : Text} {value : Value}

theorem insert_get : ∀ {members : Members},
    get name members = some value → insert name value members = members
  | [], h => by cases h
  | (k, v) :: members, h => by
    rw [get] at h
    rw [insert]
    split at h
    · next same =>
      cases h
      rw [if_pos same, same]
    · next other => rw [if_neg other, insert_get h]

theorem insert_insert (name : Text) (value value' : Value) : ∀ members : Members,
    insert name value (insert name value' members) = insert name value members
  | [] => by simp [insert]
  | (k, v) :: members => by
    by_cases same : k = name
    · simp [insert, same]
    · simp [insert, same, insert_insert name value value' members]

theorem remove_insert : ∀ {members : Members},
    get name members = none → remove name (insert name value members) = members
  | [], _ => by simp [insert, remove]
  | (k, v) :: members, h => by
    rw [get] at h
    split at h
    · cases h
    · next other =>
      have rest : remove name (insert name value members) = members := remove_insert h
      rw [remove] at rest
      rw [insert, if_neg other, remove, filter_cons_of_pos (by simpa using other), rest]

end Members

/-! ## Steps -/

/-- A step into an object or an array. -/
inductive Step
  | key (name : Text)
  | index (i : Nat)
  deriving DecidableEq, Repr

namespace Value

def child : Value → Step → Option Value
  | .object members, .key name => Members.get name members
  | .array items, .index i => items[i]?
  | _, _ => none

/-- The value with another one where a step leads to. -/
def setChild : Value → Step → Value → Value
  | .object members, .key name, value => .object (Members.insert name value members)
  | .array items, .index i, value => .array (items.set i value)
  | v, _, _ => v

/-- A value can be set there: any member of an object, or an item of an array. -/
def Settable : Value → Step → Prop
  | .object _, .key _ => True
  | .array items, .index i => i < items.length
  | _, _ => False

variable {step : Step} {v : Value}

theorem settable_of_child {c : Value} (h : v.child step = some c) : v.Settable step := by
  unfold child at h
  split at h
  · trivial
  · exact (List.getElem?_eq_some_iff.mp h).1
  · cases h

theorem child_setChild (settable : v.Settable step) (w : Value) :
    (v.setChild step w).child step = some w := by
  unfold Settable at settable
  split at settable
  · simp [setChild, child, Members.get_insert]
  · simp [setChild, child, settable]
  · cases settable

theorem child_setChild_of_ne {other : Step} (ne : other ≠ step) (v w : Value) :
    (v.setChild step w).child other = v.child other := by
  cases v <;> cases step <;> cases other <;> try rfl
  · next items i j =>
    have apart : i ≠ j := fun same => ne (by rw [same])
    exact getElem?_set_ne apart
  · next members name name' =>
    have apart : name' ≠ name := fun same => ne (by rw [same])
    simp only [setChild, child, Members.get_insert, if_neg apart]

theorem setChild_child {c : Value} (h : v.child step = some c) : v.setChild step c = v := by
  unfold child at h
  split at h
  · rw [setChild, Members.insert_get h]
  · next items i =>
    obtain ⟨lt, rfl⟩ := List.getElem?_eq_some_iff.mp h
    rw [setChild, set_getElem_self]
  · cases h

theorem setChild_setChild (v : Value) (step : Step) (w w' : Value) :
    (v.setChild step w').setChild step w = v.setChild step w := by
  cases v <;> cases step <;> try rfl
  · simp [setChild]
  · simp [setChild, Members.insert_insert]

/-- A new member, or a new item before which the others are moved on. -/
def addChild : Value → Step → Value → Value
  | .object members, .key name, value => .object (Members.insert name value members)
  | .array items, .index i, value => .array (items.insertIdx i value)
  | v, _, _ => v

/-- Without a member, or without an item after which the others are moved up. -/
def removeChild : Value → Step → Value
  | .object members, .key name => .object (Members.remove name members)
  | .array items, .index i => .array (items.eraseIdx i)
  | v, _ => v

/-- Something can be added there: any member of an object, or before or after any item. -/
def Addable : Value → Step → Prop
  | .object _, .key _ => True
  | .array items, .index i => i ≤ items.length
  | _, _ => False

theorem child_addChild (addable : v.Addable step) (w : Value) :
    (v.addChild step w).child step = some w := by
  unfold Addable at addable
  split at addable
  · simp [addChild, child, Members.get_insert]
  · next items i =>
    simp only [addChild, child]
    rw [getElem?_insertIdx_self, if_pos addable]
  · cases addable

theorem removeChild_addChild (addable : v.Addable step)
    (fresh : ∀ name, step = .key name → v.child step = none) (w : Value) :
    (v.addChild step w).removeChild step = v := by
  unfold Addable at addable
  split at addable
  · next members name =>
    simp only [addChild, removeChild, Members.remove_insert (fresh name rfl)]
  · simp only [addChild, removeChild, eraseIdx_insertIdx_self]
  · cases addable

end Value

/-! ## Locations -/

abbrev Location := List Step

namespace Value

def get : Value → Location → Option Value
  | v, [] => some v
  | v, step :: rest => (v.child step).bind (get · rest)

/-- The value with another one at a location. -/
def put : Value → Location → Value → Value
  | _, [], w => w
  | v, step :: rest, w => v.setChild step (put ((v.child step).getD .null) rest w)

variable {v u w : Value} {step : Step} {rest : Location}

theorem get_cons (child : v.child step = some u) : v.get (step :: rest) = u.get rest := by
  rw [get, child, bind_some]

theorem put_cons (child : v.child step = some u) :
    v.put (step :: rest) w = v.setChild step (u.put rest w) := by
  rw [put, child, getD_some]

theorem child_of_get (h : v.get (step :: rest) = some w) :
    ∃ c, v.child step = some c ∧ c.get rest = some w :=
  bind_eq_some_iff.mp h

theorem get_append (v : Value) (above below : Location) :
    v.get (above ++ below) = (v.get above).bind (·.get below) := by
  induction above generalizing v with
  | nil => rfl
  | cons step above ih =>
    rw [cons_append, get, get, bind_assoc]
    exact congrArg _ (funext ih)

variable {above : Location}

theorem get_put (h : v.get above = some u) : (v.put above w).get above = some w := by
  induction above generalizing v with
  | nil => rfl
  | cons step above ih =>
    obtain ⟨c, child, below⟩ := child_of_get h
    rw [put_cons child, get_cons (child_setChild (settable_of_child child) _)]
    exact ih below

theorem put_put (h : v.get above = some u) (w w' : Value) :
    (v.put above w').put above w = v.put above w := by
  induction above generalizing v with
  | nil => rfl
  | cons step above ih =>
    obtain ⟨c, child, below⟩ := child_of_get h
    rw [put_cons child, put_cons (child_setChild (settable_of_child child) _),
      setChild_setChild, ih below, put_cons child]

theorem put_get (h : v.get above = some u) : v.put above u = v := by
  induction above generalizing v with
  | nil => cases h; rfl
  | cons step above ih =>
    obtain ⟨c, child, below⟩ := child_of_get h
    rw [put_cons child, ih below, setChild_child child]

theorem put_append (h : v.get above = some u) (below : Location) :
    v.put (above ++ below) w = v.put above (u.put below w) := by
  induction above generalizing v with
  | nil => cases h; rfl
  | cons step above ih =>
    obtain ⟨c, child, under⟩ := child_of_get h
    rw [cons_append, put_cons child, put_cons child, ih under]

variable {other : Location}

theorem get_put_of_apart (found : v.get above = some u)
    (notBelow : ¬ above <+: other) (notAbove : ¬ other <+: above) :
    (v.put above w).get other = v.get other := by
  induction above generalizing v other with
  | nil => exact absurd nil_prefix notBelow
  | cons step above ih =>
    cases other with
    | nil => exact absurd nil_prefix notAbove
    | cons step' other =>
      obtain ⟨c, child, under⟩ := child_of_get found
      rw [put_cons child]
      by_cases same : step' = step
      · subst same
        rw [get_cons (child_setChild (settable_of_child child) _), get_cons child]
        exact ih under (fun le => notBelow (cons_prefix_cons.mpr ⟨rfl, le⟩))
          (fun le => notAbove (cons_prefix_cons.mpr ⟨rfl, le⟩))
      · rw [get, get, child_setChild_of_ne same]

theorem get_put_step_of_apart (found : v.get above = some u)
    (notBelow : ¬ above ++ [step] <+: other) (notAbove : ¬ other <+: above ++ [step]) :
    (v.put (above ++ [step]) w).get other = v.get other := by
  rw [put_append found]
  by_cases through : above <+: other
  · obtain ⟨below, rfl⟩ := through
    cases below with
    | nil => exact absurd (by simp) notAbove
    | cons step' below =>
      have other : step' ≠ step := by
        rintro rfl
        exact notBelow ⟨below, by simp⟩
      rw [get_append, get_append, get_put found, found, bind_some, bind_some, get,
        get, put, child_setChild_of_ne other]
  · refine get_put_of_apart found through fun le => notAbove ?_
    exact le.trans (prefix_append _ _)

theorem get_put_step (found : v.get above = some u)
    (settable : u.Settable step) : (v.put (above ++ [step]) w).get (above ++ [step]) = some w := by
  rw [put_append found, get_append, get_put found, bind_some, put,
    get_cons (child_setChild settable _)]
  rfl

end Value

end AzureSdk.Theory.Json
