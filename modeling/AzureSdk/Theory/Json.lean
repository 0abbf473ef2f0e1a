/-
# Theory.Json — JSON values

Values as a program holds them after parsing.  The members of an object are a map:
a lookup finds the first member of a name, and only lookups tell two objects apart.
-/
import AzureSdk.Theory.Text

namespace AzureSdk.Theory.Json

/-- A number as it was parsed: an unsigned or a negative integer, or a float by its bits. -/
inductive Number
  | posInt (n : UInt64)
  | negInt (n : Int64)
  | float (bits : UInt64)
  deriving DecidableEq, Repr

inductive Value
  | null
  | bool (b : Bool)
  | number (n : Number)
  | string (s : Text)
  | array (items : List Value)
  | object (members : List (Text × Value))
  deriving Repr

abbrev Members := List (Text × Value)

namespace Members

def get (name : Text) : Members → Option Value
  | [] => none
  | (k, v) :: members => if k = name then some v else get name members

/-- Sets the member of the name, at the end where there was none. -/
def insert (name : Text) (value : Value) : Members → Members
  | [] => [(name, value)]
  | (k, v) :: members =>
    if k = name then (name, value) :: members else (k, v) :: insert name value members

def remove (name : Text) (members : Members) : Members :=
  members.filter fun p => decide (p.1 ≠ name)

theorem get_insert (name other : Text) (value : Value) (members : Members) :
    get other (insert name value members) = if other = name then some value else get other members := by
  induction members with
  | nil =>
    by_cases same : other = name
    · simp [insert, get, same]
    · simp [insert, get, same, Ne.symm same]
  | cons p members ih =>
    obtain ⟨k, v⟩ := p
    by_cases here : k = name
    · by_cases same : other = name
      · simp [insert, get, here, same]
      · simp [insert, get, here, same, Ne.symm same]
    · by_cases there : k = other
      · have apart : other ≠ name := fun same => here (there.trans same)
        simp [insert, get, there, apart]
      · simp [insert, get, here, there, ih]

theorem get_remove_of_ne {name other : Text} (apart : other ≠ name) (members : Members) :
    get other (remove name members) = get other members := by
  induction members with
  | nil => rfl
  | cons p members ih =>
    obtain ⟨k, v⟩ := p
    by_cases here : k = name
    · have there : k ≠ other := fun same => apart (same.symm.trans here)
      have dropped : remove name ((k, v) :: members) = remove name members := by
        simp [remove, here]
      rw [dropped, ih, get, if_neg there]
    · have kept : remove name ((k, v) :: members) = (k, v) :: remove name members := by
        simp [remove, here]
      rw [kept, get, get, ih]

end Members

end AzureSdk.Theory.Json
