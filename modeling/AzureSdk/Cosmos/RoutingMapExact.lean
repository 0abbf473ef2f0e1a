/-
# Cosmos.RoutingMapExact — which lists of ranges make a routing map

`try_create` is meant to accept exactly the lists whose remaining ranges partition the EPK
space.  It compares each lower bound with the previous upper bound by the order of keys, never
the two bounds of one range, and the last upper bound with `MAX` byte by byte.
`tryCreate_exact_iff` says for which lists that makes a difference.

An incremental refresh sees only the ranges that survived the last one.  For nonempty ranges it
ends with the same map as a full listing (`tryCombine_equals_tryCreate`): both keep the same
ranges, and at most one arrangement of nonempty ranges is contiguous (`sort_eq_of_perm`).
-/
import AzureSdk.Cosmos.RoutingMapRefresh

namespace AzureSdk.Cosmos.ContainerRoutingMap

open Theory Theory.Interval List PartitionKeyRange HashMap Std

/-! ## What validation accepts -/

/-- Nonempty ranges that cover the EPK space, each starting where the one before it ended. -/
def ExactPartition (ranges : List PartitionKeyRange) : Prop :=
  Tiles .MIN ((byStart ranges).map span) .MAX

variable {lo hi : EffectivePartitionKey} {ranges : List PartitionKeyRange} {m : ContainerRoutingMap}
  {etag next : Option String}

theorem follow_unique : ∀ {lo hi last : EffectivePartitionKey} {ranges : List PartitionKeyRange},
    Follow lo ranges hi → Follow lo ranges last → last = hi
  | _, _, _, [], first, second => second.symm.trans first
  | _, _, _, _ :: _, first, second => follow_unique first.2 second.2

/-- A partition whose remaining ranges, sorted, follow each other. -/
theorem exactPartition_iff : ExactPartition ranges ↔ AllProper ranges ∧
    ∃ last, Follow .MIN (byStart ranges) last ∧ last ≤ .MAX ∧ .MAX ≤ last := by
  have members : AllProper (byStart ranges) ↔ AllProper ranges := by
    simp [AllProper, byStart, mem_insertionSort]
  rw [ExactPartition, tiles_iff_follow, members]

/-- **Where validation is exact.**  `try_create` returns a map exactly for the lists whose
remaining ranges partition the EPK space, except in two situations.  Ranges that follow each
other from `MIN` to `FF` pass although one of them is empty or inverted; and a partition is
turned down when its last bound is `FF` followed by zero bytes. -/
theorem tryCreate_exact_iff (ranges : List PartitionKeyRange) (etag next : Option String) :
    ((∃ m, tryCreate ranges etag next = .ok (some m) ∧ m.orderedRanges ≠ []) ↔
      ExactPartition (remaining ranges)) ↔
    ¬ (Follow .MIN (byStart (remaining ranges)) .MAX ∧
        ∃ r ∈ remaining ranges, ¬ r.minInclusive < r.maxExclusive) ∧
      ¬ (AllProper (remaining ranges) ∧ ∃ last, last ≠ .MAX ∧ last ≤ .MAX ∧ .MAX ≤ last ∧
          Follow .MIN (byStart (remaining ranges)) last) := by
  have accepted : (∃ m, tryCreate ranges etag next = .ok (some m) ∧ m.orderedRanges ≠ []) ↔
      Follow .MIN (byStart (remaining ranges)) .MAX := by
    constructor
    · rintro ⟨m, created, -⟩
      exact (tryCreate_iff.mp created).1
    · intro follow
      refine ⟨_, tryCreate_iff.mpr ⟨follow, rfl⟩, fun empty => ?_⟩
      rw [show byStart (remaining ranges) = [] from empty] at follow
      exact not_follow_nil follow
  rw [accepted, exactPartition_iff]
  constructor
  · intro exact_
    constructor
    · rintro ⟨follow, r, mem, improper⟩
      exact improper ((exact_.mp follow).1 r mem)
    · rintro ⟨proper, last, other, below, above, follow⟩
      exact other (follow_unique (exact_.mpr ⟨proper, last, follow, below, above⟩) follow)
  · rintro ⟨noEmpty, noSpelling⟩
    constructor
    · intro follow
      refine ⟨fun r mem => ?_, .MAX, follow, Std.le_refl _, Std.le_refl _⟩
      by_contra improper
      exact noEmpty ⟨follow, r, mem, improper⟩
    · rintro ⟨proper, last, follow, below, above⟩
      by_contra rejected
      refine noSpelling ⟨proper, last, fun same => ?_, below, above, follow⟩
      rw [same] at follow
      exact rejected follow

/-- `[80, 80)` between the two ranges of a partition is accepted, and a partition whose last
bound is `FF00` is not. -/
theorem empty_range_accepted :
    (∃ m, tryCreate [.new "0" .MIN ⟨[0x80]⟩, .new "1" ⟨[0x80]⟩ ⟨[0x80]⟩, .new "2" ⟨[0x80]⟩ .MAX]
        none none = .ok (some m) ∧ m.orderedRanges ≠ []) ∧
    ¬ ExactPartition (remaining
        [.new "0" .MIN ⟨[0x80]⟩, .new "1" ⟨[0x80]⟩ ⟨[0x80]⟩, .new "2" ⟨[0x80]⟩ .MAX]) ∧
    (tryCreate [.new "0" .MIN ⟨[0xFF, 0x00]⟩] none none).toOption = none ∧
    ExactPartition (remaining [.new "0" .MIN ⟨[0xFF, 0x00]⟩]) := by
  refine ⟨⟨_, eq_produced (by decide), by decide⟩, fun partition => ?_, by decide,
    ⟨by decide, by decide⟩, by decide, by decide, by decide⟩
  have proper := (exactPartition_iff.mp partition).1 (.new "1" ⟨[0x80]⟩ ⟨[0x80]⟩) (by decide)
  exact absurd proper (by decide)

/-! ## Incremental and full refresh -/

def DistinctIds (ranges : List PartitionKeyRange) : Prop := ranges.Pairwise fun a b => a.id ≠ b.id

/-- A listing overridden, id by id, by a later one. -/
def overridden (ranges newRanges : List PartitionKeyRange) : List PartitionKeyRange :=
  (ranges.filter fun r => !(newRanges.any fun new => new.id == r.id)) ++ newRanges

variable {newRanges : List PartitionKeyRange} {r : PartitionKeyRange} {id : String}

section

variable (distinct : DistinctIds ranges)

include distinct

theorem DistinctIds.entries :
    HashMap.Distinct (ranges.map fun r => (r.id, r)) :=
  pairwise_map.mpr distinct

theorem DistinctIds.nodup : ranges.Nodup :=
  distinct.imp fun differ same => differ (congrArg _ same)

theorem lookup_byId :
    lookup (ranges.map fun r => (r.id, r)) id = some r ↔ r ∈ ranges ∧ r.id = id := by
  rw [lookup_eq_some distinct.entries, mem_map]
  constructor
  · rintro ⟨r', mem, same⟩
    cases same
    exact ⟨mem, rfl⟩
  · rintro ⟨mem, rfl⟩
    exact ⟨r, mem, rfl⟩

theorem indexed_byId {gone : List String} :
    (indexed ranges gone etag next).rangeById[id]? = some r ↔ r ∈ ranges ∧ r.id = id := by
  simp only [indexed]
  rw [getElem?_insertAll_distinct ∅ distinct.entries, ← lookup_byId distinct]
  simp

theorem DistinctIds.byStart : DistinctIds (byStart ranges) :=
  (perm_insertionSort _ ranges).pairwise_iff (fun differ same => differ same.symm) |>.mpr
    distinct

end

theorem mem_parentIds : id ∈ parentIds ranges ↔
    ∃ r ∈ ranges, ∃ parents, r.parents = some parents ∧ id ∈ parents := by
  simp only [parentIds, mem_flatten, mem_filterMap]
  constructor
  · rintro ⟨parents, ⟨r, mem, named⟩, inside⟩
    exact ⟨r, mem, parents, named, inside⟩
  · rintro ⟨r, mem, parents, named, inside⟩
    exact ⟨parents, ⟨r, mem, named⟩, inside⟩

theorem mem_overridden : r ∈ overridden ranges newRanges ↔
    (r ∈ ranges ∧ ∀ new ∈ newRanges, new.id ≠ r.id) ∨ r ∈ newRanges := by
  simp [overridden]

/-- Where no range changes its parents, the overridden listing names the parents of both. -/
theorem parentIds_overridden
    (kept : ∀ r ∈ ranges, ∀ new ∈ newRanges, new.id = r.id → new.parents = r.parents) :
    id ∈ parentIds (overridden ranges newRanges) ↔
      id ∈ parentIds newRanges ∨ id ∈ parentIds ranges := by
  simp only [mem_parentIds, mem_overridden]
  constructor
  · rintro ⟨r, ⟨mem, -⟩ | mem, named⟩
    · exact .inr ⟨r, mem, named⟩
    · exact .inl ⟨r, mem, named⟩
  · rintro (⟨r, mem, named⟩ | ⟨r, mem, named⟩)
    · exact ⟨r, .inr mem, named⟩
    · by_cases replaced : ∃ new ∈ newRanges, new.id = r.id
      · obtain ⟨new, newMem, same⟩ := replaced
        exact ⟨new, .inr newMem, by rwa [kept r mem new newMem same]⟩
      · exact ⟨r, .inl ⟨mem, fun new newMem same => replaced ⟨new, newMem, same⟩⟩, named⟩

theorem distinct_overridden (distinct : DistinctIds ranges) (distinctNew : DistinctIds newRanges) :
    DistinctIds (overridden ranges newRanges) := by
  refine pairwise_append.mpr ⟨distinct.filter _, distinctNew, fun a inOld b inNew same => ?_⟩
  have absent := (mem_filter.mp inOld).2
  simp only [Bool.not_eq_true', any_eq_false, beq_iff_eq] at absent
  exact absent b inNew same.symm

section Refresh

variable (created : tryCreate ranges etag next = .ok (some m)) (distinct : DistinctIds ranges)
  (distinctNew : DistinctIds newRanges)
  (kept : ∀ r ∈ ranges, ∀ new ∈ newRanges, new.id = r.id → new.parents = r.parents)
include created distinct distinctNew kept

/-- The merged map holds the remaining ranges of the overridden listing. -/
theorem mergedRanges_spec : (mergedRanges m newRanges)[id]? = some r ↔
    r ∈ remaining (overridden ranges newRanges) ∧ r.id = id := by
  obtain ⟨-, rfl⟩ := tryCreate_iff.mp created
  have survivors : DistinctIds (byStart (remaining ranges)) :=
    DistinctIds.byStart (distinct.filter _)
  have fresh (p : PartitionKeyRange → Bool) : DistinctIds (newRanges.filter p) :=
    distinctNew.filter _
  have absent {p : PartitionKeyRange → Bool} :
      lookup ((newRanges.filter p).map fun r => (r.id, r)) id = none ↔
        ∀ new ∈ newRanges, p new = true → new.id ≠ id := by
    simp [Option.eq_none_iff_forall_ne_some, lookup_byId (fresh p)]
  rw [mergedRanges, getElem?_insertAll_distinct _ (fresh _).entries,
    Option.or_eq_some_iff, lookup_byId (fresh _), absent, Std.ExtTreeMap.getElem?_filter',
    Option.filter_eq_some_iff, indexed_byId survivors]
  simp only [indexed, remaining, byStart, mem_filter, mem_insertionSort, mem_overridden,
    Bool.not_eq_true', contains_eq_mem, decide_eq_false_iff_not, mem_append,
    parentIds_overridden kept]
  constructor
  · rintro (⟨⟨mem, here⟩, rfl⟩ | ⟨other, ⟨⟨mem, -⟩, rfl⟩, here⟩)
    · exact ⟨⟨.inr mem, here⟩, rfl⟩
    · exact ⟨⟨.inl ⟨mem, fun new newMem same => other new newMem (same ▸ here) same⟩, here⟩, rfl⟩
  · rintro ⟨⟨⟨mem, other⟩ | mem, here⟩, rfl⟩
    · exact .inr ⟨fun new newMem _ => other new newMem,
        ⟨⟨mem, fun parent => here (.inr parent)⟩, rfl⟩, here⟩
    · exact .inl ⟨⟨mem, here⟩, rfl⟩

theorem mergedRanges_perm : (intoValues (mergedRanges m newRanges)).Perm
    (remaining (overridden ranges newRanges)) := by
  have spec {id : String} {r : PartitionKeyRange} :
      (mergedRanges m newRanges)[id]? = some r ↔
        r ∈ remaining (overridden ranges newRanges) ∧ r.id = id :=
    mergedRanges_spec created distinct distinctNew kept
  have ids : DistinctIds (intoValues (mergedRanges m newRanges)) := by
    refine pairwise_map.mpr ((distinct_toList _).imp_of_mem fun {p q} hp hq differ => ?_)
    rwa [(spec.mp (mem_toList.mp hp)).2, (spec.mp (mem_toList.mp hq)).2]
  refine (perm_ext_iff_of_nodup ids.nodup
    (DistinctIds.nodup ((distinct_overridden distinct distinctNew).filter _))).mpr fun r => ?_
  constructor
  · intro mem
    obtain ⟨id, bound⟩ := mem_intoValues mem
    exact (spec.mp bound).1
  · intro mem
    exact mem_map.mpr ⟨(r.id, r), mem_toList.mpr (spec.mpr ⟨mem, rfl⟩), rfl⟩

end Refresh

/-- Nonempty ranges that follow each other can be arranged in no other way. -/
theorem sort_eq_of_perm {others : List PartitionKeyRange} (same : ranges.Perm others)
    (proper : AllProper ranges) (follow : Follow .MIN (byStart ranges) .MAX) :
    byStart ranges = byStart others := by
  have sorted (l : List PartitionKeyRange) : (byStart l).Pairwise startsBefore :=
    pairwise_insertionSort _ l
  have perm (l : List PartitionKeyRange) : (byStart l).Perm l := perm_insertionSort _ l
  have tiles : ExactPartition ranges :=
    exactPartition_iff.mpr ⟨proper, .MAX, follow, le_refl _, le_refl _⟩
  have apart := pairwise_map.mp (tiles_pairwise tiles)
  refine List.Perm.eq_of_pairwise (fun a b inLeft inRight ab ba => ?_) (sorted _) (sorted _)
    (((perm _).trans same).trans (perm _).symm)
  have member : b ∈ byStart ranges :=
    (((perm _).trans same).trans (perm _).symm).mem_iff.mpr inRight
  have nonempty {r : PartitionKeyRange} (mem : r ∈ byStart ranges) :
      r.minInclusive < r.maxExclusive := proper r ((perm _).mem_iff.mp mem)
  -- of two ranges at different places one ends before the other starts
  have strict {x y : PartitionKeyRange} {i j : Nat} (hx : (byStart ranges)[i]? = some x)
      (hy : (byStart ranges)[j]? = some y) (lt : i < j) : x.minInclusive < y.minInclusive :=
    lt_of_lt_of_le (nonempty (mem_of_getElem? hx)) (pairwise_getElem? apart lt hx hy)
  obtain ⟨i, ha⟩ := mem_iff_getElem?.mp inLeft
  obtain ⟨j, hb⟩ := mem_iff_getElem?.mp member
  rcases Nat.lt_trichotomy i j with before | rfl | after
  · exact absurd ba (not_le.mpr (strict ha hb before))
  · exact Option.some.inj (ha.symm.trans hb)
  · exact absurd ab (not_le.mpr (strict hb ha after))

/-- **An incremental refresh equals a full one.**  For nonempty ranges `try_combine` succeeds
exactly when `try_create` of the overridden listing does, in whatever order the merged ranges
come out of the hash map, and both maps hold the same ranges. -/
theorem tryCombine_equals_tryCreate (ranges newRanges : List PartitionKeyRange)
    (etag next next' : Option String) (m : ContainerRoutingMap)
    (order : IterationOrder PartitionKeyRange)
    (created : tryCreate ranges etag next = .ok (some m)) (distinct : DistinctIds ranges)
    (distinctNew : DistinctIds newRanges)
    (kept : ∀ r ∈ ranges, ∀ new ∈ newRanges, new.id = r.id → new.parents = r.parents)
    (proper : AllProper (overridden ranges newRanges)) :
    ((∃ m', tryCombine order m newRanges next' = .ok (some m')) ↔
      ∃ full, tryCreate (overridden ranges newRanges) etag next' = .ok (some full)) ∧
    ∀ m' full, tryCombine order m newRanges next' = .ok (some m') →
      tryCreate (overridden ranges newRanges) etag next' = .ok (some full) →
      m'.orderedRanges = full.orderedRanges := by
  have same := (order.perm _).trans (mergedRanges_perm created distinct distinctNew kept)
  have properFull : AllProper (remaining (overridden ranges newRanges)) :=
    fun r mem => proper r (mem_of_mem_filter mem)
  have properMerged := fun r mem => properFull r (same.mem_iff.mp mem)
  simp only [tryCombine_iff, tryCreate_iff]
  refine ⟨⟨?_, ?_⟩, ?_⟩
  · rintro ⟨m', follow, -⟩
    rw [sort_eq_of_perm same properMerged follow] at follow
    exact ⟨_, follow, rfl⟩
  · rintro ⟨full, follow, -⟩
    rw [sort_eq_of_perm same.symm properFull follow] at follow
    exact ⟨_, follow, rfl⟩
  · rintro m' full ⟨follow, rfl⟩ ⟨-, rfl⟩
    exact sort_eq_of_perm same properMerged follow

/-- The split of a range, refreshed both ways. -/
theorem split_refreshes_agree :
    ∃ m' full, tryCombine (.asListed _) twoRangesMap splitChildren none = .ok (some m') ∧
      tryCreate (overridden twoRanges splitChildren) none none = .ok (some full) ∧
      m'.orderedRanges = full.orderedRanges := by
  have created : tryCreate twoRanges none none = .ok (some twoRangesMap) := eq_produced (by decide)
  obtain ⟨agree, same⟩ := tryCombine_equals_tryCreate twoRanges splitChildren none none none
    twoRangesMap (.asListed _) created (by simp [DistinctIds, twoRanges, new])
    (by simp [DistinctIds, splitChildren]) (by decide) (by unfold AllProper; decide)
  have full := eq_produced (x := tryCreate (overridden twoRanges splitChildren) none none)
    (by decide +kernel)
  obtain ⟨m', combined⟩ := agree.mpr ⟨_, full⟩
  exact ⟨m', _, combined, full, same _ _ combined full⟩

/-- An empty range that starts with another one passes or fails by the order in which the two
come to the sort: first out of the hash map, last in the listing. -/
theorem empty_range_splits_refreshes :
    ∃ ranges newRanges : List PartitionKeyRange, ∃ m,
      tryCreate ranges none none = .ok (some m) ∧ DistinctIds ranges ∧ DistinctIds newRanges ∧
      (∀ r ∈ ranges, ∀ new ∈ newRanges, new.id = r.id → new.parents = r.parents) ∧
      (∃ m', tryCombine (.asListed _) m newRanges none = .ok (some m')) ∧
      ¬ ∃ full, tryCreate (overridden ranges newRanges) none none = .ok (some full) := by
  refine ⟨[.new "1" .MIN ⟨[0x80]⟩, .new "2" ⟨[0x80]⟩ .MAX], [.new "0" ⟨[0x80]⟩ ⟨[0x80]⟩], _,
    eq_produced (by decide), by simp [DistinctIds, new], by simp [DistinctIds],
    by decide, ⟨_, eq_produced (by decide +kernel)⟩, ?_⟩
  rintro ⟨full, accepted⟩
  have rejected : (tryCreate (overridden [.new "1" .MIN ⟨[0x80]⟩, .new "2" ⟨[0x80]⟩ .MAX]
    [.new "0" ⟨[0x80]⟩ ⟨[0x80]⟩]) none none).toOption = none := by decide
  rw [accepted] at rejected
  cases rejected

end AzureSdk.Cosmos.ContainerRoutingMap
