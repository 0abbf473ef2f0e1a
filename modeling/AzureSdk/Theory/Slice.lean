/-
# Theory.Slice — parts of a list

`l.extract start stop` is a part of a list; parts that meet make one part (`extract_append`), so
the parts along a tiling of a range make the part over the range (`Tiles.flatten_extract`).
`writeAt` writes over the part of a list from an offset on.
-/
import Mathlib.Data.List.Basic
import Mathlib.Data.Nat.Basic

namespace AzureSdk.Theory

open List

variable {α : Type}

/-! ## Parts that meet -/

variable {start stop : Nat}

theorem extract_append (l : List α) {middle : Nat} (low : start ≤ middle) (high : middle ≤ stop) :
    l.extract start middle ++ l.extract middle stop = l.extract start stop := by
  obtain ⟨m, rfl⟩ := Nat.exists_eq_add_of_le low
  obtain ⟨n, rfl⟩ := Nat.exists_eq_add_of_le high
  simp only [extract_eq_take_drop]
  rw [Nat.add_sub_cancel_left, Nat.add_sub_cancel_left, Nat.add_assoc, Nat.add_sub_cancel_left,
    take_add, drop_drop]

theorem length_extract {l : List α} (start : Nat) (inside : stop ≤ l.length) :
    (l.extract start stop).length = stop - start := by
  rw [extract_eq_take_drop, length_take, length_drop]
  omega

theorem getElem?_extract (l : List α) {i : Nat} (inside : i < stop - start) :
    (l.extract start stop)[i]? = l[start + i]? := by
  rw [extract_eq_take_drop, getElem?_take_of_lt inside, getElem?_drop]

theorem extract_extract (l : List α) {first last : Nat} (low : first ≤ start) (high : stop ≤ last) :
    (l.extract first last).extract (start - first) (stop - first) = l.extract start stop := by
  simp only [extract_eq_take_drop]
  rw [drop_take, drop_drop, take_take, Nat.add_sub_cancel' low]
  congr 1
  omega

/-- The ranges, each from where the last one stopped, go from `start` to `stop`. -/
inductive Tiles (stop : Nat) : Nat → List (Nat × Nat) → Prop
  | nil : Tiles stop stop []
  | cons {start next : Nat} {rest : List (Nat × Nat)} (lt : start < next) (le : next ≤ stop)
    (more : Tiles stop next rest) : Tiles stop start ((start, next) :: rest)

namespace Tiles

variable {start stop : Nat} {ranges : List (Nat × Nat)}

theorem within (tiles : Tiles stop start ranges) :
    ∀ range ∈ ranges, start ≤ range.1 ∧ range.1 < range.2 ∧ range.2 ≤ stop := by
  induction tiles with
  | nil => simp
  | @cons start next rest lt le _ ih =>
    intro range mem
    rcases mem_cons.mp mem with rfl | mem
    · exact ⟨Nat.le_refl _, lt, le⟩
    · obtain ⟨low, inside, high⟩ := ih range mem
      exact ⟨Nat.le_trans (Nat.le_of_lt lt) low, inside, high⟩

theorem pairwise (tiles : Tiles stop start ranges) : ranges.Pairwise fun a b => a.2 ≤ b.1 := by
  induction tiles with
  | nil => exact .nil
  | cons _ _ more ih => exact .cons (fun range mem => (more.within range mem).1) ih

theorem covers_iff (tiles : Tiles stop start ranges) (i : Nat) :
    (∃ range ∈ ranges, range.1 ≤ i ∧ i < range.2) ↔ start ≤ i ∧ i < stop := by
  induction tiles with
  | nil =>
    simp only [not_mem_nil, false_and, exists_false, false_iff]
    omega
  | cons lt le _ ih =>
    simp only [mem_cons, or_and_right, exists_or, exists_eq_left, ih]
    omega

theorem flatten_extract (l : List α) (tiles : Tiles stop start ranges) :
    (ranges.map fun range => l.extract range.1 range.2).flatten = l.extract start stop := by
  induction tiles with
  | nil => simp
  | cons lt le _ ih =>
    rw [map_cons, flatten_cons, ih]
    exact extract_append l (Nat.le_of_lt lt) le

theorem eq_nil_iff (tiles : Tiles stop start ranges) : ranges = [] ↔ start = stop := by
  cases tiles with
  | nil => simp
  | cons lt le _ =>
    refine iff_of_false (by simp) ?_
    omega

end Tiles

/-- A range cut every `step`. -/
def cutRange (start stop step : Nat) : List (Nat × Nat) :=
  (List.range' start ((stop - start + step - 1) / step) step).map fun i => (i, min (i + step) stop)

theorem cutRange_le {step : Nat} :
    ∀ range ∈ cutRange start stop step, range.2 - range.1 ≤ step := by
  simp only [cutRange, forall_mem_map]
  omega

theorem tiles_cutRange {step : Nat} (positive : 0 < step) (le : start ≤ stop) :
    Tiles stop start (cutRange start stop step) := by
  unfold cutRange
  generalize pieces : (stop - start + step - 1) / step = n
  induction n generalizing start with
  | zero =>
    have none : stop - start + step - 1 < step := by
      rcases Nat.div_eq_zero_iff.mp pieces with zero | lt
      · omega
      · exact lt
    obtain rfl : start = stop := by omega
    exact .nil
  | succ n ih =>
    have some : start < stop := by
      apply Nat.lt_of_le_of_ne le
      rintro rfl
      rw [Nat.sub_self, Nat.zero_add, Nat.div_eq_of_lt (by omega)] at pieces
      cases pieces
    rw [range'_succ, map_cons]
    by_cases last : stop ≤ start + step
    · have zero : n = 0 := by
        have one : stop - start + step - 1 = (stop - start - 1) + step := by omega
        rw [one, Nat.add_div_right _ positive, Nat.div_eq_of_lt (by omega)] at pieces
        omega
      subst zero
      rw [Nat.min_eq_right last]
      exact .cons some (Nat.le_refl _) .nil
    · have fewer : (stop - (start + step) + step - 1) / step = n := by
        have one : stop - start + step - 1 = (stop - (start + step) + step - 1) + step := by omega
        rw [one, Nat.add_div_right _ positive] at pieces
        omega
      rw [Nat.min_eq_left (by omega)]
      exact .cons (by omega) (by omega) (ih (by omega) fewer)

/-! ## Writing over a part -/

/-- The list with `new` in place of what it had from the offset on. -/
def writeAt (l : List α) (offset : Nat) (new : List α) : List α :=
  l.take offset ++ new ++ l.drop (offset + new.length)

section WriteAt

variable {l new : List α} {offset : Nat}

theorem length_writeAt (room : offset + new.length ≤ l.length) :
    (writeAt l offset new).length = l.length := by
  simp only [writeAt, length_append, length_take, length_drop]
  omega

theorem getElem?_writeAt (room : offset + new.length ≤ l.length) (i : Nat) :
    (writeAt l offset new)[i]? =
      if offset ≤ i ∧ i < offset + new.length then new[i - offset]? else l[i]? := by
  have start : (l.take offset).length = offset := by
    rw [length_take]
    omega
  have upto : (l.take offset ++ new).length = offset + new.length := by
    rw [length_append, start]
  unfold writeAt
  by_cases before : i < offset
  · rw [if_neg (by omega), getElem?_append_left (by omega), getElem?_append_left (by omega),
      getElem?_take_of_lt before]
  · by_cases inside : i < offset + new.length
    · rw [if_pos (by omega), getElem?_append_left (by omega),
        getElem?_append_right (by omega), start]
    · rw [if_neg (by omega), getElem?_append_right (by omega), upto, getElem?_drop]
      congr 1
      omega

theorem writeAt_nil (l : List α) (offset : Nat) : writeAt l offset [] = l := by
  simp [writeAt]

theorem writeAt_append (room : offset + new.length ≤ l.length) (next : List α) :
    writeAt (writeAt l offset new) (offset + new.length) next = writeAt l offset (new ++ next) := by
  have start : (l.take offset).length = offset := by
    rw [length_take]
    omega
  have upto : (l.take offset ++ new).length = offset + new.length := by
    rw [length_append, start]
  have kept : (writeAt l offset new).take (offset + new.length) = l.take offset ++ new :=
    take_left' upto
  have beyond : (writeAt l offset new).drop (offset + new.length + next.length) =
      l.drop (offset + (new ++ next).length) := by
    rw [← drop_drop, writeAt, drop_left' upto, drop_drop, length_append,
      Nat.add_assoc]
  rw [writeAt, kept, beyond, writeAt, append_assoc (l.take offset)]

theorem take_append_writeAt (l : List α) (offset : Nat) (new : List α) :
    l.take offset ++ writeAt (l.drop offset) 0 new = writeAt l offset new := by
  simp only [writeAt, take_zero, nil_append, Nat.zero_add, drop_drop,
    append_assoc]

/-- A list that has the bytes of another one where that one has them starts with it. -/
theorem eq_append_drop {target : List α}
    (same : ∀ i < target.length, l[i]? = target[i]?) : l = target ++ l.drop target.length := by
  apply ext_getElem?
  intro i
  by_cases inside : i < target.length
  · rw [getElem?_append_left inside, same i inside]
  · rw [getElem?_append_right (by omega), getElem?_drop]
    congr 1
    omega

end WriteAt

end AzureSdk.Theory
