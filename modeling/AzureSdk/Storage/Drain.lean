/-
# Storage.Drain — items that come out of order and leave in order

A `SequentialBoundedDrain` has a window of positions from its cursor on, as many as its ring
buffer has slots; an item is pushed at a position of the window, and popped when the cursor gets
to it.  Positions share slots, but no two positions of one window do.  So the drain is a partial
map on positions (`get`): a push sets one of them (`push_get`), and a pop takes the one at the
cursor (`pop_get`).
-/
import AzureSdk.Core.Error
import Mathlib.Data.Nat.ModEq
import Mathlib.Data.List.Basic

namespace AzureSdk.Storage

open Core List

/-- `usize::MAX + 1`. -/
def usizeModulus : Nat := 2 ^ 64

def isizeMax : Nat := 2 ^ 63 - 1

structure SequentialBoundedDrain (α : Type) where
  ringBuf : List (Option α)
  cursor : Nat

namespace SequentialBoundedDrain

variable {α : Type}

/-- `new`, where a slot takes so many bytes; a vector of more than `isize::MAX` bytes panics. -/
def new (slot capacity : Nat) : Option (SequentialBoundedDrain α) :=
  if capacity * slot ≤ isizeMax then some ⟨List.replicate capacity none, 0⟩ else none

variable (d : SequentialBoundedDrain α)

def capacity : Nat := d.ringBuf.length

/-- `currently_accepting().contains(&index)`. -/
def accepts (index : Nat) : Bool :=
  decide (d.cursor ≤ index) && decide (index < d.cursor + d.capacity)

def push (index : Nat) (item : α) : Result (SequentialBoundedDrain α) :=
  if index < d.cursor then
    .error ⟨.other, "Received item for position " ++ toString index ++
      ", but drain has already progressed to position " ++ toString d.cursor ++ "."⟩
  else if d.cursor + d.capacity ≤ index then
    .error ⟨.other, "Received item for position " ++ toString index ++
      ", but drain has no room for items of range `" ++ toString (d.cursor + d.capacity) ++ "..`."⟩
  else .ok { d with ringBuf := d.ringBuf.set (index % d.capacity) (some item) }

def pop : Option (α × SequentialBoundedDrain α) :=
  match d.ringBuf[d.cursor % d.capacity]? with
  | some (some item) =>
    some (item, ⟨d.ringBuf.set (d.cursor % d.capacity) none, d.cursor + 1⟩)
  | _ => none

/-- The item at a position of the window. -/
def get (index : Nat) : Option α :=
  if d.accepts index then (d.ringBuf[index % d.capacity]?).join else none

variable {d : SequentialBoundedDrain α} {index : Nat} {item : α}

theorem accepts_iff : d.accepts index = true ↔ d.cursor ≤ index ∧ index < d.cursor + d.capacity := by
  simp [accepts]

theorem slot_inj {start width i j : Nat} (hi : start ≤ i ∧ i < start + width)
    (hj : start ≤ j ∧ j < start + width) (same : i % width = j % width) : i = j := by
  have forward : ∀ {i j : Nat}, i ≤ j → j < i + width → i % width = j % width → i = j := by
    intro i j le near same
    have divides : width ∣ j - i := (Nat.modEq_iff_dvd' le).mp same
    have none : j - i = 0 := Nat.eq_zero_of_dvd_of_lt divides (by omega)
    omega
  rcases Nat.le_total i j with le | le
  · exact forward le (by omega) same
  · exact (forward le (by omega) same.symm).symm

theorem get_new {slot capacity : Nat} (h : new slot capacity = some d) (i : Nat) :
    d.cursor = 0 ∧ d.capacity = capacity ∧ d.get i = none := by
  unfold new at h
  split at h
  · cases h
    refine ⟨rfl, length_replicate, ?_⟩
    unfold get
    split
    · rw [getElem?_replicate]
      split <;> rfl
    · rfl
  · cases h

theorem push_ok (accepted : d.accepts index = true) (item : α) :
    d.push index item = .ok { d with ringBuf := d.ringBuf.set (index % d.capacity) (some item) } := by
  obtain ⟨low, high⟩ := accepts_iff.mp accepted
  rw [push, if_neg (by omega), if_neg (by omega)]

theorem get_inside (inside : d.cursor ≤ index ∧ index < d.cursor + d.capacity) :
    d.get index = (d.ringBuf[index % d.capacity]?).join :=
  if_pos (accepts_iff.mpr inside)

theorem get_outside (outside : ¬ (d.cursor ≤ index ∧ index < d.cursor + d.capacity)) :
    d.get index = none :=
  if_neg fun accepted => outside (accepts_iff.mp accepted)

/-- A drain with one slot set and the cursor moved. -/
def setSlot (d : SequentialBoundedDrain α) (position cursor : Nat) (slot : Option α) :
    SequentialBoundedDrain α :=
  ⟨d.ringBuf.set (position % d.capacity) slot, cursor⟩

theorem capacity_setSlot (position cursor : Nat) (slot : Option α) :
    (d.setSlot position cursor slot).capacity = d.capacity :=
  length_set

theorem get_setSlot {position cursor i : Nat} {slot : Option α}
    (inside : cursor ≤ i ∧ i < cursor + d.capacity) :
    (d.setSlot position cursor slot).get i =
      if i % d.capacity = position % d.capacity then slot
      else (d.ringBuf[i % d.capacity]?).join := by
  have slots : position % d.capacity < d.ringBuf.length := Nat.mod_lt _ (by show 0 < d.capacity; omega)
  rw [get_inside (by rw [capacity_setSlot]; exact inside), capacity_setSlot]
  show ((d.ringBuf.set (position % d.capacity) slot)[i % d.capacity]?).join = _
  by_cases same : i % d.capacity = position % d.capacity
  · rw [same, getElem?_set_self slots, if_pos rfl]
    rfl
  · rw [getElem?_set_ne (Ne.symm same), if_neg same]

variable {after : SequentialBoundedDrain α}

theorem push_get (pushed : d.push index item = .ok after) :
    d.accepts index = true ∧ after.cursor = d.cursor ∧ after.capacity = d.capacity ∧
      ∀ i, after.get i = if i = index then some item else d.get i := by
  have accepted : d.accepts index = true := by
    rw [accepts_iff]
    unfold push at pushed
    split at pushed
    · cases pushed
    · split at pushed
      · cases pushed
      · omega
  have window := accepts_iff.mp accepted
  rw [push_ok accepted] at pushed
  obtain rfl : d.setSlot index d.cursor (some item) = after := Except.ok.inj pushed
  refine ⟨accepted, rfl, capacity_setSlot _ _ _, fun i => ?_⟩
  by_cases inside : d.cursor ≤ i ∧ i < d.cursor + d.capacity
  · rw [get_setSlot inside, get_inside inside]
    exact if_congr ⟨slot_inj inside window, fun same => by rw [same]⟩ rfl rfl
  · have other : i ≠ index := fun same => inside (same ▸ window)
    rw [if_neg other, get_outside inside, get_outside]
    rw [capacity_setSlot]
    exact inside

theorem pop_get (popped : d.pop = some (item, after)) :
    d.get d.cursor = some item ∧ after.cursor = d.cursor + 1 ∧ after.capacity = d.capacity ∧
      ∀ i, after.get i = if i = d.cursor then none else d.get i := by
  unfold pop at popped
  split at popped
  · next item' found =>
    cases popped
    have positive : 0 < d.capacity := by
      obtain ⟨slot, _⟩ := List.getElem?_eq_some_iff.mp found
      exact Nat.lt_of_le_of_lt (Nat.zero_le _) slot
    have first : d.get d.cursor = some item := by
      rw [get_inside ⟨Nat.le_refl _, by omega⟩, found]
      rfl
    refine ⟨first, rfl, capacity_setSlot _ _ _, fun i => ?_⟩
    show (d.setSlot d.cursor (d.cursor + 1) none).get i = _
    by_cases inside : d.cursor + 1 ≤ i ∧ i < d.cursor + 1 + d.capacity
    · rw [get_setSlot inside, if_neg (show i ≠ d.cursor by omega)]
      by_cases last : i = d.cursor + d.capacity
      · -- the position that has just come into the window has the slot that was popped
        rw [if_pos (by rw [last, Nat.add_mod_right]), get_outside (by omega)]
      · have window : d.cursor ≤ i ∧ i < d.cursor + d.capacity := by omega
        rw [if_neg, get_inside window]
        intro shared
        have same := slot_inj window ⟨Nat.le_refl _, by omega⟩ shared
        omega
    · rw [get_outside (by rw [capacity_setSlot]; exact inside)]
      split
      · rfl
      · rw [get_outside (by omega)]
  · cases popped

theorem pop_none (positive : 0 < d.capacity) : d.pop = none ↔ d.get d.cursor = none := by
  rw [get_inside ⟨Nat.le_refl _, by omega⟩, pop]
  split
  · next found => simp [found]
  · next other =>
    refine iff_of_true rfl ?_
    cases slot : d.ringBuf[d.cursor % d.capacity]? with
    | none => rfl
    | some content =>
      cases content with
      | none => rfl
      | some item => exact absurd slot (other item)

end SequentialBoundedDrain

end AzureSdk.Storage
