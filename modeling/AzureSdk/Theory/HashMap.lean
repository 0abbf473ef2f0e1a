/-
# Theory.HashMap — hash maps and their iteration order

A hash map is an extensional finite map: two maps with the same bindings are the
same map, so nothing can depend on how it was filled.  What a program may observe
beyond the bindings is the order in which iteration visits them; that order is
unspecified, and `IterationOrder` stands for any choice of it.
-/
import Mathlib.Data.List.Perm.Basic

namespace AzureSdk.Theory

set_option linter.unusedSectionVars false

/-- A finite map, as far as lookups can tell. -/
abbrev HashMap (κ ν : Type) [Ord κ] := Std.ExtTreeMap κ ν compare

/-- One possible iteration order: some permutation of the entries. -/
structure IterationOrder (α : Type) where
  arrange : List α → List α
  perm : ∀ l, (arrange l).Perm l

/-- The order in which the entries are listed. -/
def IterationOrder.asListed (α : Type) : IterationOrder α := ⟨id, fun l => List.Perm.refl l⟩

namespace HashMap

variable {κ ν : Type} [Ord κ] [Std.TransOrd κ] [Std.LawfulEqOrd κ]

/-- Inserts the entries left to right; a later entry replaces an earlier one. -/
def insertAll (m : HashMap κ ν) (entries : List (κ × ν)) : HashMap κ ν :=
  entries.foldl (fun m p => m.insert p.1 p.2) m

variable {k : κ} {v : ν} {m : HashMap κ ν}

/-- A binding after `insertAll` is a new entry or was there before. -/
theorem getElem?_insertAll : ∀ {entries : List (κ × ν)} {m : HashMap κ ν},
    (insertAll m entries)[k]? = some v → (k, v) ∈ entries ∨ m[k]? = some v
  | [], _, h => .inr h
  | (k', v') :: entries, m, h => by
    rcases getElem?_insertAll (m := m.insert k' v') h with h | h
    · exact .inl (.tail _ h)
    · rw [Std.ExtTreeMap.getElem?_insert] at h
      split at h
      · rename_i same
        cases h
        exact .inl (by rw [Std.LawfulEqOrd.eq_of_compare same]; exact .head _)
      · exact .inr h

theorem getElem?_filter_some {f : κ → ν → Bool}
    (h : (m.filter f)[k]? = some v) : m[k]? = some v := by
  rw [Std.ExtTreeMap.getElem?_filter] at h
  exact (Option.pfilter_eq_some_iff.mp h).choose

/-- The bound values (`into_values`), in key order; a program sees them in an
`IterationOrder` of its own. -/
def intoValues (m : HashMap κ ν) : List ν := m.toList.map Prod.snd

theorem mem_intoValues (h : v ∈ intoValues m) : ∃ k : κ, m[k]? = some v := by
  obtain ⟨⟨k, v'⟩, mem, rfl⟩ := List.mem_map.mp h
  exact ⟨k, Std.ExtTreeMap.mem_toList_iff_getElem?_eq_some.mp mem⟩

def Distinct (entries : List (κ × ν)) : Prop := entries.Pairwise fun p q => p.1 ≠ q.1

theorem distinct_toList (m : HashMap κ ν) : Distinct m.toList :=
  Std.ExtTreeMap.ordered_keys_toList.imp fun {p q} lt same => by
    rw [same, (Std.ReflCmp.compare_self : compare q.1 q.1 = .eq)] at lt
    exact absurd lt (by decide)

theorem mem_toList : (k, v) ∈ m.toList ↔ m[k]? = some v :=
  Std.ExtTreeMap.mem_toList_iff_getElem?_eq_some

theorem getElem?_insert (m : HashMap κ ν) (k k' : κ) (v : ν) [DecidableEq κ] :
    (m.insert k v)[k']? = if k = k' then some v else m[k']? := by
  rw [Std.ExtTreeMap.getElem?_insert]
  exact if_congr Std.LawfulEqOrd.compare_eq_iff_eq rfl rfl

theorem getElem?_erase (m : HashMap κ ν) (k k' : κ) [DecidableEq κ] :
    (m.erase k)[k']? = if k = k' then none else m[k']? := by
  rw [Std.ExtTreeMap.getElem?_erase]
  exact if_congr Std.LawfulEqOrd.compare_eq_iff_eq rfl rfl

/-- The binding of `k` among distinct entries. -/
def lookup [DecidableEq κ] (entries : List (κ × ν)) (k : κ) : Option ν :=
  (entries.find? fun p => decide (p.1 = k)).map Prod.snd

section Lookup

variable [DecidableEq κ]

theorem lookup_cons (p : κ × ν) (entries : List (κ × ν)) (k : κ) :
    lookup (p :: entries) k = if p.1 = k then some p.2 else lookup entries k := by
  unfold lookup
  by_cases h : p.1 = k <;> simp [h]

variable {entries : List (κ × ν)}

theorem lookup_eq_some (distinct : Distinct entries) {k : κ} {v : ν} :
    lookup entries k = some v ↔ (k, v) ∈ entries := by
  induction entries with
  | nil => simp [lookup]
  | cons p entries ih =>
    obtain ⟨first, rest⟩ := List.pairwise_cons.mp distinct
    rw [lookup_cons, List.mem_cons]
    by_cases h : p.1 = k
    · rw [if_pos h]
      constructor
      · intro same
        cases same
        exact .inl (by rw [← h])
      · rintro (same | later)
        · rw [← same]
        · exact absurd h (first _ later)
    · rw [if_neg h, ih rest]
      refine ⟨.inr, ?_⟩
      rintro (same | later)
      · exact absurd (congrArg Prod.fst same).symm h
      · exact later

theorem lookup_toList (m : HashMap κ ν) (k : κ) : lookup m.toList k = m[k]? := by
  ext v
  rw [lookup_eq_some (distinct_toList m), mem_toList]

theorem lookup_none {p : κ × ν} (first : ∀ q ∈ entries, p.1 ≠ q.1) : lookup entries p.1 = none := by
  unfold lookup
  rw [Option.map_eq_none_iff, List.find?_eq_none]
  intro q hq
  simpa using (first q hq).symm

theorem getElem?_insertAll_distinct : ∀ {entries : List (κ × ν)} (start : HashMap κ ν),
    Distinct entries → ∀ k, (insertAll start entries)[k]? = (lookup entries k).or start[k]?
  | [], _, _, _ => rfl
  | p :: entries, start, distinct, k => by
    obtain ⟨first, rest⟩ := List.pairwise_cons.mp distinct
    change (insertAll (start.insert p.1 p.2) entries)[k]? = _
    rw [getElem?_insertAll_distinct _ rest, getElem?_insert, lookup_cons]
    by_cases h : p.1 = k
    · subst h
      simp [lookup_none first]
    · simp [h]

/-- Inserting the entries of a map into the empty map gives it back. -/
theorem insertAll_empty_toList (m : HashMap κ ν) : insertAll ∅ m.toList = m := by
  refine Std.ExtTreeMap.ext_getElem? fun k => ?_
  rw [getElem?_insertAll_distinct ∅ (distinct_toList m), lookup_toList]
  simp

end Lookup

end HashMap

end AzureSdk.Theory
