/-
# Cosmos.RoutingMap — which partition key range owns a key

`ContainerRoutingMap` keeps the partition key ranges of a container sorted by
their lower bound and finds the owner of a key by binary search.  `try_create`
builds it from a full listing, `try_combine` from a previous map and an
incremental listing; both drop the parents of splits and accept the rest only if
each range starts where the previous one ended.

The invariant is `Valid`: the ranges tile the EPK space.  It holds of every map
the two constructors produce (`built_valid`), and the lookups are specified by it:
`findRangeIndex_spec`, `getRange_spec`, `getOverlappingRanges_spec`.
-/
import AzureSdk.Theory.BinarySearch
import AzureSdk.Theory.Decimal
import AzureSdk.Theory.HashMap
import AzureSdk.Cosmos.FeedRange

namespace AzureSdk.Cosmos

open Theory Theory.Interval Theory.BinarySearch List EffectivePartitionKey HashMap

inductive PartitionKeyRangeStatus
  | online
  | splitting
  | offline
  | split
  deriving DecidableEq, Repr

/-- `PartitionKeyRange`, without the throughput fraction that routing never reads. -/
structure PartitionKeyRange where
  id : String
  minInclusive : EffectivePartitionKey
  maxExclusive : EffectivePartitionKey
  status : PartitionKeyRangeStatus
  parents : Option (List String)
  deriving DecidableEq, Repr

namespace PartitionKeyRange

def new (id : String) (minInclusive maxExclusive : EffectivePartitionKey) : PartitionKeyRange :=
  ⟨id, minInclusive, maxExclusive, .online, none⟩

def span (r : PartitionKeyRange) : Span EffectivePartitionKey := ⟨r.minInclusive, r.maxExclusive⟩

/-- `Ord for PartitionKeyRange`: by lower bound only, so `sort` is a stable sort on it. -/
def startsBefore (a b : PartitionKeyRange) : Prop := a.minInclusive ≤ b.minInclusive

instance : DecidableRel startsBefore := fun a b =>
  inferInstanceAs (Decidable (a.minInclusive ≤ b.minInclusive))

end PartitionKeyRange

inductive RoutingMapError
  | overlappingRanges
  | incompleteRanges
  deriving DecidableEq, Repr

structure ContainerRoutingMap where
  rangeById : HashMap String PartitionKeyRange
  orderedRanges : List PartitionKeyRange
  goneRanges : List String
  highestNonOfflinePkRangeId : Int
  etag : Option String
  changeFeedNextIfNoneMatch : Option String

def invalidPkRangeId : Int := -1

namespace ContainerRoutingMap

/-! ## Construction -/

def empty : ContainerRoutingMap := ⟨∅, [], [], invalidPkRangeId, none, none⟩

/-- The ids that some range names as a parent. -/
def parentIds (ranges : List PartitionKeyRange) : List String :=
  (ranges.filterMap (·.parents)).flatten

/-- The loop of `validate_and_build_index`: every range must start where the previous
one ended.  Returns the end of the last range. -/
def validateContiguous : EffectivePartitionKey → List PartitionKeyRange →
    Except RoutingMapError EffectivePartitionKey
  | expectedMin, [] => .ok expectedMin
  | expectedMin, range :: rest =>
    match range.minInclusive.cmp expectedMin with
    | .gt => .error .incompleteRanges
    | .lt => .error .overlappingRanges
    | .eq => validateContiguous range.maxExclusive rest

/-- The numeric ids of the ranges that are not offline; `-1` when there is none. -/
def highestNonOffline (sorted : List PartitionKeyRange) : Int :=
  let ids := sorted.filterMap fun r =>
    if r.status ≠ .offline then Decimal.parseSigned (2 ^ 31) r.id.toList else none
  (ids.max?).getD invalidPkRangeId

/-- `validate_and_build_index`.  The end test is bytewise, as `!=` is. -/
def validateAndBuildIndex (sorted : List PartitionKeyRange) :
    Except RoutingMapError (Int × HashMap String PartitionKeyRange) :=
  match validateContiguous .MIN sorted with
  | .error e => .error e
  | .ok expectedMin =>
    if expectedMin ≠ .MAX then .error .incompleteRanges
    else .ok (highestNonOffline sorted,
      insertAll ∅ (sorted.map fun r => (r.id, r)))

def tryCreate (ranges : List PartitionKeyRange) (etag changeFeedNextIfNoneMatch : Option String) :
    Except RoutingMapError (Option ContainerRoutingMap) :=
  if ranges.isEmpty then .ok none
  else
    let gone := parentIds ranges
    let filtered := ranges.filter fun r => !gone.contains r.id
    if filtered.isEmpty then .ok none
    else
      let sorted := filtered.insertionSort PartitionKeyRange.startsBefore
      match validateAndBuildIndex sorted with
      | .error e => .error e
      | .ok (highest, rangeById) =>
        .ok (some ⟨rangeById, sorted, gone, highest, etag, changeFeedNextIfNoneMatch⟩)

/-- `try_combine`.  `order` is the order in which the merged map yields its values. -/
def tryCombine (order : IterationOrder PartitionKeyRange) (self : ContainerRoutingMap)
    (newRanges : List PartitionKeyRange) (changeFeedNextIfNoneMatch : Option String) :
    Except RoutingMapError (Option ContainerRoutingMap) :=
  let combinedGone := parentIds newRanges ++ self.goneRanges
  let kept := self.rangeById.filter fun id _ => !combinedGone.contains id
  let merged := insertAll kept
    ((newRanges.filter fun r => !combinedGone.contains r.id).map fun r => (r.id, r))
  let sorted :=
    (order.arrange (intoValues merged)).insertionSort PartitionKeyRange.startsBefore
  if sorted.isEmpty then .ok none
  else
    match validateAndBuildIndex sorted with
    | .ok (highest, rangeById) =>
      .ok (some ⟨rangeById, sorted, combinedGone, highest, self.etag, changeFeedNextIfNoneMatch⟩)
    | .error .incompleteRanges => .ok none
    | .error e => .error e

/-! ## What the constructors return -/

variable (ranges : List PartitionKeyRange)

/-- The ranges that no range names as a parent. -/
def remaining : List PartitionKeyRange :=
  ranges.filter fun r => !(parentIds ranges).contains r.id

/-- The ranges in the order of their lower bounds. -/
def byStart : List PartitionKeyRange :=
  ranges.insertionSort PartitionKeyRange.startsBefore

/-- Neither empty nor inverted. -/
def AllProper : Prop :=
  ∀ r ∈ ranges, r.minInclusive < r.maxExclusive

/-- Ranges that follow each other from `lo` on and end with the bound `hi`.  Nothing is said of
the two bounds of one range. -/
def Follow : EffectivePartitionKey → List PartitionKeyRange → EffectivePartitionKey → Prop
  | lo, [], hi => lo = hi
  | lo, r :: rest, hi =>
    (lo ≤ r.minInclusive ∧ r.minInclusive ≤ lo) ∧ Follow r.maxExclusive rest hi

variable {hi : EffectivePartitionKey} {ranges : List PartitionKeyRange} {m m' : ContainerRoutingMap}
  {etag next : Option String}

theorem validateContiguous_iff : ∀ {lo : EffectivePartitionKey} {ranges : List PartitionKeyRange},
    validateContiguous lo ranges = .ok hi ↔ Follow lo ranges hi
  | lo, [] => by simp [validateContiguous, Follow]
  | lo, r :: rest => by
    rw [validateContiguous, Follow, and_comm (a := lo ≤ _), ← cmp_eq_eq,
      ← validateContiguous_iff]
    cases r.minInclusive.cmp lo <;> simp

/-- A partition is a list of nonempty ranges that follow each other; its end may be spelled
with trailing zeros. -/
theorem tiles_iff_follow : ∀ {lo : EffectivePartitionKey} {ranges : List PartitionKeyRange},
    Tiles lo (ranges.map PartitionKeyRange.span) hi ↔
      AllProper ranges ∧ ∃ last, Follow lo ranges last ∧ last ≤ hi ∧ hi ≤ last
  | lo, [] => by simp [Interval.Tiles, AllProper, Follow]
  | lo, r :: rest => by
    simp only [map_cons, Interval.Tiles, tiles_iff_follow, AllProper, forall_mem_cons, Follow,
      PartitionKeyRange.span]
    constructor
    · rintro ⟨start, proper, properRest, last, follow, atEnd⟩
      exact ⟨⟨proper, properRest⟩, last, ⟨start, follow⟩, atEnd⟩
    · rintro ⟨⟨proper, properRest⟩, last, ⟨start, follow⟩, atEnd⟩
      exact ⟨start, proper, properRest, last, follow, atEnd⟩

/-- The map of a validated list. -/
def indexed (sorted : List PartitionKeyRange) (gone : List String)
    (etag next : Option String) : ContainerRoutingMap :=
  ⟨insertAll ∅ (sorted.map fun r => (r.id, r)), sorted, gone, highestNonOffline sorted,
    etag, next⟩

theorem validateAndBuildIndex_cases (ranges : List PartitionKeyRange) :
    (Follow .MIN ranges .MAX ∧ validateAndBuildIndex ranges = .ok
      (highestNonOffline ranges, insertAll ∅ (ranges.map fun r => (r.id, r)))) ∨
    (¬ Follow .MIN ranges .MAX ∧ ∃ e, validateAndBuildIndex ranges = .error e) := by
  rw [← validateContiguous_iff]
  unfold validateAndBuildIndex
  cases validateContiguous .MIN ranges with
  | error e => simp
  | ok last => by_cases atEnd : last = .MAX <;> simp [atEnd]

theorem not_follow_nil : ¬ Follow .MIN [] .MAX := by
  change ¬ EffectivePartitionKey.MIN = .MAX
  decide

/-- `try_create` returns the map of the sorted remaining ranges, exactly when they follow each
other from `MIN` to the byte `FF`. -/
theorem tryCreate_iff : tryCreate ranges etag next = .ok (some m) ↔
    Follow .MIN (byStart (remaining ranges)) .MAX ∧
      indexed (byStart (remaining ranges)) (parentIds ranges) etag next = m := by
  have rest : ranges.filter (fun r => !(parentIds ranges).contains r.id) = remaining ranges := rfl
  have sort : (remaining ranges).insertionSort PartitionKeyRange.startsBefore =
      byStart (remaining ranges) := rfl
  simp only [tryCreate, rest, sort]
  by_cases none_ : (remaining ranges).isEmpty = true
  · have nothing : byStart (remaining ranges) = [] := by rw [isEmpty_iff.mp none_]; rfl
    simp [none_, nothing, not_follow_nil]
  · have some_ : ¬ ranges.isEmpty = true := by
      intro empty
      rw [isEmpty_iff.mp empty] at none_
      exact none_ rfl
    rw [if_neg some_, if_neg none_]
    rcases validateAndBuildIndex_cases (byStart (remaining ranges)) with
      ⟨follow, index⟩ | ⟨fails, e, index⟩
    · simp [index, follow, indexed]
    · simp [index, fails]

/-- The ranges `try_combine` keeps, by id. -/
def mergedRanges (self : ContainerRoutingMap) (newRanges : List PartitionKeyRange) :
    HashMap String PartitionKeyRange :=
  let gone := parentIds newRanges ++ self.goneRanges
  insertAll (self.rangeById.filter fun id _ => !gone.contains id)
    ((newRanges.filter fun r => !gone.contains r.id).map fun r => (r.id, r))

variable {order : IterationOrder PartitionKeyRange}

theorem tryCombine_iff :
    tryCombine order m ranges next = .ok (some m') ↔
      Follow .MIN (byStart (order.arrange (intoValues (mergedRanges m ranges)))) .MAX ∧
        indexed (byStart (order.arrange (intoValues (mergedRanges m ranges))))
          (parentIds ranges ++ m.goneRanges) m.etag next = m' := by
  simp only [tryCombine, mergedRanges, byStart]
  generalize insertionSort PartitionKeyRange.startsBefore _ = sorted
  cases sorted with
  | nil => simp [not_follow_nil]
  | cons r rest =>
    rcases validateAndBuildIndex_cases (r :: rest) with ⟨follow, index⟩ | ⟨fails, e, index⟩
    · simp [index, follow, indexed]
    · cases e <;> simp [index, fails]

/-! ## Lookup -/

variable (self : ContainerRoutingMap)

/-- The last branch is the source's `unreachable!`. -/
def findRangeIndex (epk : EffectivePartitionKey) : Result Nat :=
  match binarySearchBy (fun r => r.minInclusive.cmp epk) self.orderedRanges with
  | .ok i => .ok i
  | .error (i + 1) => .ok i
  | .error 0 => .error
    (.panic "EPK before first range; constructor guarantees full coverage")

/-- Indexing `self.ordered_ranges[idx]`. -/
def rangeAt (idx : Nat) : Result PartitionKeyRange :=
  match self.orderedRanges[idx]? with
  | some r => .ok r
  | none => .error (.panic "index out of bounds")

def getRangeByEffectivePartitionKey (epk : EffectivePartitionKey) :
    Result (Option PartitionKeyRange) :=
  if self.orderedRanges.isEmpty then .ok none
  else if epk.bytes.isEmpty then (self.rangeAt 0).map some
  else do
    let idx ← self.findRangeIndex epk
    let range ← self.rangeAt idx
    if range.minInclusive ≤ epk ∧ epk < range.maxExclusive then .ok (some range) else .ok none

def overlappingRangeBounds (start stop : EffectivePartitionKey) :
    Result (Option (Nat × Nat)) :=
  if self.orderedRanges.isEmpty then .ok none
  else do
    let startIdx ← self.findRangeIndex start
    let endIdx := partitionPoint (fun r => decide (r.minInclusive < stop))
      (self.orderedRanges.drop startIdx) + startIdx
    .ok (some (startIdx, endIdx))

def getOverlappingRanges (start stop : EffectivePartitionKey) :
    Result (List PartitionKeyRange) := do
  match ← self.overlappingRangeBounds start stop with
  | none => .ok []
  | some (startIdx, endIdx) => .ok ((self.orderedRanges.drop startIdx).take (endIdx - startIdx))

/-- `single_overlapping_range_id`.  `debugAssertions` tells whether the build checks
`debug_assert!`. -/
def singleOverlappingRangeId (debugAssertions : Bool) (self : ContainerRoutingMap)
    (start stop : EffectivePartitionKey) : Result (Option String) := do
  match ← self.overlappingRangeBounds start stop with
  | none => .ok none
  | some (startIdx, endIdx) =>
    match endIdx - startIdx with
    | 0 => .ok none
    | 1 => (self.rangeAt startIdx).map fun r => some r.id
    | count =>
      if debugAssertions then
        .error (.panic ("feed range mapped to " ++ toString count ++
          " physical partitions; expected exactly one at the operation pipeline" ++
          " (stale routing map / partition-split race)"))
      else .ok none

/-! ## The invariant -/

/-- The ranges tile the EPK space, and the index by id holds no other range. -/
structure Valid (m : ContainerRoutingMap) : Prop where
  tiles : Tiles .MIN (m.orderedRanges.map PartitionKeyRange.span) .MAX
  indexed : ∀ (id : String) (r : PartitionKeyRange), m.rangeById[id]? = some r →
    r ∈ m.orderedRanges

theorem indexed_valid {gone : List String} (proper : AllProper ranges)
    (follow : Follow .MIN ranges .MAX) : Valid (indexed ranges gone etag next) := by
  refine ⟨tiles_iff_follow.mpr ⟨proper, .MAX, follow, Std.le_refl _, Std.le_refl _⟩,
    fun id r bound => ?_⟩
  rcases getElem?_insertAll bound with entry | before
  · obtain ⟨r', mem, eq⟩ := mem_map.mp entry
    cases eq
    exact mem
  · exact absurd before (by simp)

theorem tryCreate_valid (h : tryCreate ranges etag next = .ok (some m))
    (proper : ∀ r ∈ ranges, r.minInclusive < r.maxExclusive) : Valid m := by
  obtain ⟨follow, rfl⟩ := tryCreate_iff.mp h
  exact indexed_valid (fun r hr => proper r
    (mem_of_mem_filter ((mem_insertionSort _).mp hr))) follow

theorem tryCombine_valid (valid : Valid m) (h : tryCombine order m ranges next = .ok (some m'))
    (proper : ∀ r ∈ ranges, r.minInclusive < r.maxExclusive) : Valid m' := by
  obtain ⟨follow, rfl⟩ := tryCombine_iff.mp h
  refine indexed_valid (fun r hr => ?_) follow
  have merged := (order.perm _).mem_iff.mp ((mem_insertionSort _).mp hr)
  obtain ⟨id, bound⟩ := mem_intoValues merged
  rcases getElem?_insertAll bound with entry | before
  · obtain ⟨r', mem, eq⟩ := mem_map.mp entry
    cases eq
    exact proper r (mem_of_mem_filter mem)
  · -- an old range is one of the tiles
    have old := valid.indexed id r (getElem?_filter_some before)
    exact tiles_proper valid.tiles r.span (mem_map_of_mem old)

/-- The maps a program can hold: one `try_create`, then any number of `try_combine`s,
each listing nonempty ranges. -/
inductive Built : ContainerRoutingMap → Prop
  | create {ranges : List PartitionKeyRange} {etag next : Option String}
    {m : ContainerRoutingMap} (proper : ∀ r ∈ ranges, r.minInclusive < r.maxExclusive)
    (created : tryCreate ranges etag next = .ok (some m)) : Built m
  | combine {order : IterationOrder PartitionKeyRange} {m m' : ContainerRoutingMap}
    {newRanges : List PartitionKeyRange} {next : Option String} (before : Built m)
    (proper : ∀ r ∈ newRanges, r.minInclusive < r.maxExclusive)
    (combined : tryCombine order m newRanges next = .ok (some m')) : Built m'

theorem built_valid (built : Built m) : Valid m := by
  induction built with
  | create proper created => exact tryCreate_valid created proper
  | combine _ proper combined ih => exact tryCombine_valid ih combined proper

/-! ## What the lookups return -/

theorem rangeAt_ok {i : Nat} {r : PartitionKeyRange}
    (here : m.orderedRanges[i]? = some r) : m.rangeAt i = .ok r := by
  simp [rangeAt, here]

theorem filter_eq_take {α : Type} {p : α → Bool} : ∀ {xs : List α} {k : Nat},
    (∀ (j : Nat) (x : α), xs[j]? = some x → (p x = true ↔ j < k)) → xs.filter p = xs.take k
  | [], _, _ => by simp
  | x :: xs, 0, h => by
    have first := h 0 x rfl
    have rest : xs.filter p = xs.take 0 := filter_eq_take fun j y hy => by
      simpa using h (j + 1) y hy
    simpa [first] using rest
  | x :: xs, k + 1, h => by
    have first := h 0 x rfl
    have rest : xs.filter p = xs.take k := filter_eq_take fun j y hy => by
      simpa using h (j + 1) y hy
    simp [first, rest]

section Lookups

variable {m : ContainerRoutingMap} (valid : Valid m)
include valid

theorem Valid.nonempty : m.orderedRanges ≠ [] := by
  intro empty
  have tiles := valid.tiles
  rw [empty] at tiles
  exact absurd tiles.2 (by decide)

theorem Valid.pairwise :
    m.orderedRanges.Pairwise fun a b => a.maxExclusive ≤ b.minInclusive :=
  pairwise_map.mp (tiles_pairwise valid.tiles)

variable {r : PartitionKeyRange} {epk start stop : EffectivePartitionKey}

theorem Valid.proper (mem : r ∈ m.orderedRanges) : r.minInclusive < r.maxExclusive :=
  tiles_proper valid.tiles r.span (mem_map_of_mem mem)

theorem Valid.below_max (mem : r ∈ m.orderedRanges) : r.maxExclusive ≤ .MAX :=
  (tiles_within valid.tiles r.span (mem_map_of_mem mem)).2

theorem Valid.starts_lt {i j : Nat} {a b : PartitionKeyRange} (lt : i < j)
    (ha : m.orderedRanges[i]? = some a) (hb : m.orderedRanges[j]? = some b) :
    a.minInclusive < b.minInclusive := by
  have before := pairwise_getElem? valid.pairwise lt ha hb
  have proper := valid.proper (mem_of_getElem? ha)
  grind

theorem Valid.monotone (epk : EffectivePartitionKey) :
    Monotone (probe (fun r => r.minInclusive.cmp epk) m.orderedRanges) := by
  intro i j le
  rcases Nat.eq_or_lt_of_le le with rfl | lt
  · exact ⟨id, id⟩
  · cases hj : m.orderedRanges[j]? with
    | none => simp [probe, hj]
    | some b =>
      have inside : i < m.orderedRanges.length :=
        Nat.lt_trans lt (List.getElem?_eq_some_iff.mp hj).choose
      have ha := List.getElem?_eq_getElem inside
      have starts := valid.starts_lt lt ha hj
      rw [probe_of_getElem? ha, probe_of_getElem? hj]
      simp only [cmp_eq_gt, cmp_eq_lt]
      grind

/-- **The search never panics**: it returns the last range that starts at or before
the key. -/
theorem findRangeIndex_spec (epk : EffectivePartitionKey) :
    ∃ i r, m.findRangeIndex epk = .ok i ∧ m.orderedRanges[i]? = some r ∧
      r.minInclusive ≤ epk ∧
      ∀ (j : Nat) (u : PartitionKeyRange), i < j → m.orderedRanges[j]? = some u →
        epk < u.minInclusive := by
  have spec := binarySearchBy_spec (valid.monotone epk)
  unfold findRangeIndex
  cases found : binarySearchBy (fun r => r.minInclusive.cmp epk) m.orderedRanges with
  | ok i =>
    rw [found] at spec
    cases here : m.orderedRanges[i]? with
    | none => simp [probe, here] at spec
    | some r =>
      simp only [probe_of_getElem? here] at spec
      obtain ⟨below, above⟩ := cmp_eq_eq.mp spec
      refine ⟨i, r, rfl, here, below, fun j u lt hu => ?_⟩
      have := valid.starts_lt lt here hu
      grind
  | error i =>
    rw [found] at spec
    obtain ⟨low, high⟩ := spec
    cases i with
    | zero =>
      -- the first range starts at the minimum key, so it is not above `epk`
      exfalso
      cases ranges : m.orderedRanges with
      | nil => exact valid.nonempty ranges
      | cons r rest =>
        have first : m.orderedRanges[0]? = some r := by rw [ranges]; rfl
        have above := high 0 (Nat.le_refl 0)
        rw [probe_of_getElem? first, cmp_eq_gt] at above
        have tiles := valid.tiles
        rw [ranges] at tiles
        have start : r.minInclusive ≤ .MIN := tiles.1.2
        have := min_le epk
        grind
    | succ i =>
      have here := low i (Nat.lt_succ_self i)
      cases hr : m.orderedRanges[i]? with
      | none => simp [probe, hr] at here
      | some r =>
        rw [probe_of_getElem? hr, cmp_eq_lt] at here
        refine ⟨i, r, rfl, hr, Std.le_of_lt here, fun j u lt hu => ?_⟩
        have above := high j lt
        rwa [probe_of_getElem? hu, cmp_eq_gt] at above

theorem last_has (inside : epk < .MAX) {i : Nat} (here : m.orderedRanges[i]? = some r)
    (start : r.minInclusive ≤ epk)
    (later : ∀ (j : Nat) (u : PartitionKeyRange), i < j → m.orderedRanges[j]? = some u →
      epk < u.minInclusive) : r.span.Has epk := by
  refine has_of_last_start valid.tiles (epkSpace_has.mpr inside) (i := i)
    (by simp [here]) start fun j u lt hu => ?_
  rw [getElem?_map, Option.map_eq_some_iff] at hu
  obtain ⟨u', hu', rfl⟩ := hu
  exact later j u' lt hu'

theorem getRange_spec (inside : epk < .MAX) :
    ∃ r ∈ m.orderedRanges, r.span.Has epk ∧
      m.getRangeByEffectivePartitionKey epk = .ok (some r) := by
  have notEmpty : m.orderedRanges.isEmpty = false := by
    simpa using valid.nonempty
  unfold getRangeByEffectivePartitionKey
  simp only [notEmpty, Bool.false_eq_true, if_false]
  by_cases bytes : epk.bytes.isEmpty = true
  · -- the minimum key is in the first range
    rw [if_pos bytes]
    match ranges : m.orderedRanges with
    | [] => exact absurd ranges valid.nonempty
    | r :: rest =>
      refine ⟨r, .head _, ?_, ?_⟩
      · have tiles := valid.tiles
        rw [ranges] at tiles
        obtain ⟨⟨_, start⟩, proper, _⟩ := tiles
        have minimal : epk = .MIN := by
          cases epk
          simpa [EffectivePartitionKey.MIN] using bytes
        rw [minimal]
        exact ⟨start, Std.lt_of_le_of_lt (min_le _) proper⟩
      · rw [rangeAt_ok (r := r) (by rw [ranges]; rfl)]
        rfl
  · rw [if_neg bytes]
    obtain ⟨i, r, found, here, start, later⟩ := findRangeIndex_spec valid epk
    have has := last_has valid inside here start later
    refine ⟨r, mem_of_getElem? here, has, ?_⟩
    have bounds : r.minInclusive ≤ epk ∧ epk < r.maxExclusive := has
    simp [found, rangeAt_ok here, bounds, bind, Except.bind]

theorem getRange_none (outside : .MAX ≤ epk) :
    m.getRangeByEffectivePartitionKey epk = .ok none := by
  have notEmpty : m.orderedRanges.isEmpty = false := by simpa using valid.nonempty
  have filled : epk.bytes.isEmpty = false := by
    cases epk with
    | mk bytes => cases bytes with
      | nil => exact absurd outside (by decide)
      | cons => rfl
  obtain ⟨i, r, found, here, _⟩ := findRangeIndex_spec valid epk
  have below := valid.below_max (mem_of_getElem? here)
  have apart : ¬ epk < r.maxExclusive := by grind
  simp [getRangeByEffectivePartitionKey, notEmpty, filled, found, rangeAt_ok here, apart, bind,
    Except.bind]

/-- The interval lookup starts at the last range that starts at or before `start` and takes
those that start before `stop`. -/
theorem overlappingRangeBounds_spec (start stop : EffectivePartitionKey) :
    ∃ i r count, m.orderedRanges[i]? = some r ∧ r.minInclusive ≤ start ∧
      (∀ (j : Nat) (u : PartitionKeyRange), i < j → m.orderedRanges[j]? = some u →
        start < u.minInclusive) ∧
      m.overlappingRangeBounds start stop = .ok (some (i, count + i)) ∧
      count ≤ (m.orderedRanges.drop i).length ∧
      m.getOverlappingRanges start stop = .ok ((m.orderedRanges.drop i).take count) ∧
      (m.orderedRanges.drop i).take count =
        (m.orderedRanges.drop i).filter fun r => decide (r.minInclusive < stop) := by
  have notEmpty : m.orderedRanges.isEmpty = false := by simpa using valid.nonempty
  obtain ⟨i, r, found, here, below, later⟩ := findRangeIndex_spec valid start
  refine ⟨i, r, partitionPoint (fun r => decide (r.minInclusive < stop)) (m.orderedRanges.drop i),
    here, below, later, ?_, partitionPoint_le _, ?_, (filter_eq_take fun j u hu => ?_).symm⟩
  · simp [overlappingRangeBounds, notEmpty, found, bind, Except.bind]
  · simp [getOverlappingRanges, overlappingRangeBounds, notEmpty, found, bind, Except.bind]
  · have mono : ∀ (a b : Nat) (x y : PartitionKeyRange), a ≤ b →
        (m.orderedRanges.drop i)[a]? = some x → (m.orderedRanges.drop i)[b]? = some y →
        decide (y.minInclusive < stop) = true → decide (x.minInclusive < stop) = true := by
      intro a b x y le hx hy below
      rcases Nat.eq_or_lt_of_le le with rfl | lt
      · rw [hx] at hy
        cases hy
        exact below
      · rw [getElem?_drop] at hx hy
        have := valid.starts_lt (Nat.add_lt_add_left lt i) hx hy
        exact decide_eq_true (by grind)
    exact partitionPoint_spec mono hu

/-- The interval lookup returns exactly the ranges that overlap `[start, stop)`. -/
theorem getOverlappingRanges_spec (inside : start < .MAX) :
    m.getOverlappingRanges start stop = .ok (m.orderedRanges.filter fun r =>
      decide (r.minInclusive < stop ∧ start < r.maxExclusive)) := by
  obtain ⟨i, owner, count, here, below, later, _, _, slice, taken⟩ :=
    overlappingRangeBounds_spec valid start stop
  have has := last_has valid inside here below later
  -- ranges before the first one end at or before its start, hence before `start`
  have early : (m.orderedRanges.take i).filter
      (fun r => decide (r.minInclusive < stop ∧ start < r.maxExclusive)) = [] := by
    rw [filter_eq_nil_iff]
    intro r hr overlap
    obtain ⟨j, hj⟩ := mem_iff_getElem?.mp hr
    rw [getElem?_take] at hj
    split at hj
    · rename_i lt
      have before : r.maxExclusive ≤ owner.minInclusive :=
        pairwise_getElem? valid.pairwise lt hj here
      grind
    · exact absurd hj (by simp)
  have late : ∀ r ∈ m.orderedRanges.drop i, start < r.maxExclusive := by
    intro r hr
    obtain ⟨j, hj⟩ := mem_iff_getElem?.mp hr
    rw [getElem?_drop] at hj
    rcases Nat.eq_zero_or_pos j with rfl | positive
    · cases here.symm.trans hj
      exact has.2
    · have := valid.proper (mem_of_getElem? hj)
      grind
  rw [slice, taken]
  conv => rhs; rw [← take_append_drop i m.orderedRanges]
  rw [filter_append, early, nil_append]
  exact congrArg Except.ok (filter_congr fun r hr => by simp [late r hr])

theorem singleOverlappingRangeId_spec {debugAssertions : Bool}
    {ranges : List PartitionKeyRange} (scan : m.getOverlappingRanges start stop = .ok ranges)
    (id : String) :
    m.singleOverlappingRangeId debugAssertions start stop = .ok (some id) ↔
      ∃ r, ranges = [r] ∧ r.id = id := by
  obtain ⟨i, _, count, _, _, _, bounds, inside, slice, _⟩ :=
    overlappingRangeBounds_spec valid start stop
  obtain rfl : ranges = (m.orderedRanges.drop i).take count := by
    rw [scan] at slice
    exact Except.ok.inj slice
  have size : ((m.orderedRanges.drop i).take count).length = count := by
    rw [length_take]
    omega
  simp only [singleOverlappingRangeId, bounds, bind, Except.bind, Nat.add_sub_cancel]
  match count, inside, size with
  | 0, _, _ => simp
  | 1, inside, _ =>
    obtain ⟨r, rest, here⟩ := exists_cons_of_length_pos (Nat.lt_of_lt_of_le Nat.one_pos inside)
    have first : m.orderedRanges[i]? = some r := by
      have := congrArg (·[0]?) here
      simpa [getElem?_drop] using this
    simp [rangeAt_ok first, here, Except.map]
  | count + 2, _, size =>
    have several : ¬ ∃ r, (m.orderedRanges.drop i).take (count + 2) = [r] ∧ r.id = id := by
      rintro ⟨r, single, -⟩
      rw [single] at size
      simp at size
    refine iff_of_false (fun answer => ?_) several
    split at answer
    · omega
    · omega
    · split at answer <;> cases answer

end Lookups

/-- **The interval lookups equal a scan.**  In every map a program can hold and for every
interval that starts in the EPK space, the two binary searches return the ranges that a filter
of the whole list returns, in ascending order, and the single lookup has an answer exactly when
one range overlaps the interval. -/
theorem overlapping_lookups_equal_scan {m : ContainerRoutingMap} (built : Built m)
    (debugAssertions : Bool) (start stop : EffectivePartitionKey) (inside : start < .MAX) :
    ∃ scan, scan = m.orderedRanges.filter (fun r =>
        decide (r.minInclusive < stop ∧ start < r.maxExclusive)) ∧
      m.getOverlappingRanges start stop = .ok scan ∧
      scan.Pairwise (fun a b => a.minInclusive < b.minInclusive) ∧
      ∀ id, m.singleOverlappingRangeId debugAssertions start stop = .ok (some id) ↔
        ∃ r, scan = [r] ∧ r.id = id := by
  have valid := built_valid built
  have equal := @getOverlappingRanges_spec m valid start stop inside
  have ascending : m.orderedRanges.Pairwise fun a b => a.minInclusive < b.minInclusive :=
    pairwise_iff_getElem.mpr fun i j hi hj lt =>
      valid.starts_lt lt (List.getElem?_eq_getElem hi) (List.getElem?_eq_getElem hj)
  exact ⟨_, rfl, equal, ascending.filter _, singleOverlappingRangeId_spec valid equal⟩

/-- **Every EPK has exactly one owner.**  In every map a program can hold, exactly one
range holds each key of the EPK space, the point lookup returns that range, and the
binary search finds an index instead of reaching its `unreachable!` branch. -/
theorem built_exactly_one_owner {m : ContainerRoutingMap} (built : Built m)
    (e : EffectivePartitionKey) (inside : e < .MAX) :
    ∃ r, m.orderedRanges.filter (fun r => decide (r.minInclusive ≤ e ∧ e < r.maxExclusive)) = [r] ∧
      m.getRangeByEffectivePartitionKey e = .ok (some r) ∧
      ∃ i, m.findRangeIndex e = .ok i := by
  have valid := built_valid built
  obtain ⟨r, owner⟩ := filter_tiles PartitionKeyRange.span valid.tiles (epkSpace_has.mpr inside)
  obtain ⟨r', mem, has, lookup⟩ := getRange_spec valid inside
  obtain ⟨i, _, found, _⟩ := findRangeIndex_spec valid e
  have same : r' = r := by
    have : r' ∈ m.orderedRanges.filter (fun x => decide (x.span.Has e)) :=
      mem_filter.mpr ⟨mem, decide_eq_true has⟩
    rw [owner] at this
    exact mem_singleton.mp this
  exact ⟨r, owner, same ▸ lookup, i, found⟩

/-- Two ranges, and the split of the second one. -/
def twoRanges : List PartitionKeyRange :=
  [.new "1" ⟨[0x80]⟩ .MAX, .new "0" .MIN ⟨[0x80, 0x00]⟩]

def splitChildren : List PartitionKeyRange :=
  [⟨"2", ⟨[0x80]⟩, ⟨[0xC0]⟩, .online, some ["1"]⟩, ⟨"3", ⟨[0xC0]⟩, .MAX, .online, some ["1"]⟩]

/-- The map a construction produced; `empty` stands in where it produced none. -/
def produced (x : Except RoutingMapError (Option ContainerRoutingMap)) : ContainerRoutingMap :=
  x.toOption.join.getD empty

theorem eq_produced {x : Except RoutingMapError (Option ContainerRoutingMap)}
    (success : x.toOption.join.isSome = true) : x = .ok (some (produced x)) := by
  match x with
  | .ok (some m) => rfl
  | .ok none => exact absurd success (by simp [Except.toOption])
  | .error e => exact absurd success (by simp [Except.toOption])

def twoRangesMap : ContainerRoutingMap := produced (tryCreate twoRanges none none)

theorem twoRangesMap_valid : twoRangesMap.Valid :=
  built_valid (.create (by decide) (eq_produced (by decide)))

def splitMap : ContainerRoutingMap :=
  produced (tryCombine (.asListed _) twoRangesMap splitChildren none)

theorem splitMap_built : Built splitMap :=
  .combine (.create (by decide) (eq_produced (by decide))) (by decide) (eq_produced (by decide +kernel))

/-- After the split the key `90` belongs to the first child alone. -/
theorem split_key_has_one_owner :
    ∃ r, splitMap.orderedRanges.filter
        (fun r => decide (r.minInclusive ≤ ⟨[0x90]⟩ ∧ ⟨[0x90]⟩ < r.maxExclusive)) = [r] ∧
      splitMap.getRangeByEffectivePartitionKey ⟨[0x90]⟩ = .ok (some r) ∧
      ∃ i, splitMap.findRangeIndex ⟨[0x90]⟩ = .ok i :=
  built_exactly_one_owner splitMap_built ⟨[0x90]⟩ (by decide)

/-- `[10, 90)` overlaps the first range and one child of the split. -/
theorem split_lookups_equal_scan :
    ∃ scan, scan = splitMap.orderedRanges.filter (fun r =>
        decide (r.minInclusive < ⟨[0x90]⟩ ∧ ⟨[0x10]⟩ < r.maxExclusive)) ∧
      splitMap.getOverlappingRanges ⟨[0x10]⟩ ⟨[0x90]⟩ = .ok scan ∧
      scan.Pairwise (fun a b => a.minInclusive < b.minInclusive) ∧
      ∀ id, splitMap.singleOverlappingRangeId false ⟨[0x10]⟩ ⟨[0x90]⟩ = .ok (some id) ↔
        ∃ r, scan = [r] ∧ r.id = id :=
  overlapping_lookups_equal_scan splitMap_built false ⟨[0x10]⟩ ⟨[0x90]⟩ (by decide)

end ContainerRoutingMap

end AzureSdk.Cosmos
