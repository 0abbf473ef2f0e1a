/-
# Cosmos.Dataflow.FreshPlan — a fresh plan reads its scope once

The planner reads a query range as a half-open window: from its lower bound to its upper one, and
for a closed point to the point's successor, which keeps the point and no other key of its width
(`point_range_exact_iff`).  A closed range that is not a point loses its upper bound that way.

Where the windows are sorted and disjoint, `plan_fresh` succeeds within every scope inside the EPK
space (of more than one key) and on every complete topology: its leaves are nonempty slices of one
physical partition each, in ascending order, and they hold exactly the keys of the windows in the
scope (`plan_fresh_tiles`).
-/
import AzureSdk.Cosmos.Dataflow.Workload

namespace AzureSdk.Cosmos.Dataflow

open Theory Theory.Interval List FeedRange
open ContainerRoutingMap (twoRangesMap twoRangesMap_valid)

/-- The half-open window a query range is read as. -/
def QueryRange.window (queryRange : QueryRange) (normalizedLen : Option Nat) :
    Span EffectivePartitionKey :=
  let min := EffectivePartitionKey.ofHex queryRange.min
  let max := EffectivePartitionKey.ofHex queryRange.max
  if queryRange.isMaxInclusive = true ∧ min = max then
    match normalizedLen with
    | some len => ⟨min, max.normalizedSuccessor len⟩
    | none => ⟨min, max.successor⟩
  else ⟨min, max⟩

def QueryRange.Holds (queryRange : QueryRange) (e : EffectivePartitionKey) : Prop :=
  .ofHex queryRange.min ≤ e ∧
    (e < .ofHex queryRange.max ∨ queryRange.isMaxInclusive = true ∧ e = .ofHex queryRange.max)

def QueryPlan.windows (plan : QueryPlan) (operation : CosmosOperation) :
    List (Span EffectivePartitionKey) :=
  plan.queryRanges.map fun q => q.window (operation.container.bind normalizedEpkLen)

/-- What a fresh plan of `windows` within `scope` is on a topology. -/
structure FreshPlan (m : ContainerRoutingMap) (operation : CosmosOperation)
    (windows : List (Span EffectivePartitionKey)) (scope : FeedRange) (leaves : List Request) :
    Prop where
  /-- a leaf is a nonempty slice of one physical partition, to be read from the start -/
  leaf : ∀ n ∈ leaves, ∃ r ∈ m.orderedRanges, ∃ whole range, whole.span = r.span ∧
    n = pieceLeaf operation none (⟨r.id, whole⟩, range) ∧
    range.minInclusive < range.maxExclusive ∧ range.span.Within r.span
  ascending : Ascending (ledger leaves)
  keys : ∀ e, Owned (ledger leaves) e ↔ (∃ w ∈ windows, w.Has e) ∧ scope.Key e

theorem queryRangeToFeedRange_window {queryRange : QueryRange} {normalizedLen : Option Nat}
    (ordered : (queryRange.window normalizedLen).lo ≤ (queryRange.window normalizedLen).hi) :
    ∃ range, queryRangeToFeedRange queryRange normalizedLen = .ok range ∧
      range.span = queryRange.window normalizedLen := by
  have made : queryRangeToFeedRange queryRange normalizedLen =
      new (queryRange.window normalizedLen).lo (queryRange.window normalizedLen).hi := by
    unfold queryRangeToFeedRange QueryRange.window
    cases normalizedLen <;> simp only <;> split <;> rfl
  exact ⟨_, made.trans (new_ok ordered), rfl⟩

variable {operation : CosmosOperation} {feedRange : FeedRange} {m : ContainerRoutingMap}

theorem planRanges_windows {plan : QueryPlan}
    (ordered : ∀ w ∈ plan.windows operation, w.lo ≤ w.hi) :
    ∃ ranges, planRanges plan operation = .ok ranges ∧
      ranges.map FeedRange.span = plan.windows operation := by
  unfold planRanges QueryPlan.windows at *
  generalize plan.queryRanges = queryRanges at ordered ⊢
  induction queryRanges with
  | nil => exact ⟨[], rfl, rfl⟩
  | cons queryRange queryRanges ih =>
    obtain ⟨range, made, span⟩ :=
      queryRangeToFeedRange_window (ordered _ (.head _))
    obtain ⟨ranges, rest, spans⟩ := ih fun w hw => ordered w (.tail _ hw)
    refine ⟨range :: ranges, ?_, ?_⟩
    · rw [emitAll, made, rest]
      rfl
    · rw [map_cons, map_cons, span, spans]

theorem overFeedRange_fresh (valid : m.Valid) (operation : CosmosOperation)
    (proper : feedRange.minInclusive < feedRange.maxExclusive)
    (inside : feedRange.minInclusive < .MAX) :
    ∃ nodes, overFeedRange (some m) (freshLeaf operation) feedRange = .ok nodes := by
  have each : ∀ {c : ResolvedRange × FeedRange}, intersectFeedRanges c.1.range feedRange = some c.2 →
      ∃ out, freshLeaf operation feedRange c.1 = .ok out ∧ True := fun piece =>
    ⟨_, by unfold freshLeaf; rw [clipResolved_ok piece]; rfl, trivial⟩
  obtain ⟨_, _, _, made, _⟩ := overFeedRange_ok valid proper inside each
  exact ⟨_, made⟩

theorem overFeedRange_leaf {nodes : List Request}
    (h : overFeedRange (some m) (freshLeaf operation) feedRange = .ok nodes) :
    ∀ n ∈ nodes, ∃ r ∈ m.orderedRanges, ∃ whole range, whole.span = r.span ∧
      n = pieceLeaf operation none (⟨r.id, whole⟩, range) ∧
      range.minInclusive < range.maxExclusive ∧ range.span.Within r.span := by
  obtain ⟨resolved, found, h⟩ := bind_ok h
  obtain ⟨cuts, rfl, pieces, rfl⟩ := freshLeaves_inv h
  intro n hn
  obtain ⟨⟨⟨id, whole⟩, range⟩, hc, rfl⟩ := mem_map.mp hn
  obtain ⟨r, hr, rfl, same⟩ := (resolveRanges_partitions found).2 _ (mem_map_of_mem hc)
  have piece := pieces _ hc
  refine ⟨r, hr, whole, range, same, rfl, (intersectFeedRanges_some piece).1, ?_⟩
  rw [← same]
  exact (intersectFeedRanges_within piece).1

section Fresh

variable {m : ContainerRoutingMap} (valid : m.Valid) {plan : QueryPlan}
  {operation : CosmosOperation} {scope : FeedRange} (target : operation.target = some scope)
  (inside : scope.maxExclusive ≤ .MAX)
  (ordered : ∀ w ∈ plan.windows operation, w.lo ≤ w.hi)
  (sorted : (plan.windows operation).Pairwise fun a b => a.Before b)

theorem clipped_inside (ranges : List FeedRange) (target : operation.target = some scope)
    (inside : scope.maxExclusive ≤ .MAX) :
    ∀ r ∈ ranges.filterMap (clipToScope operation.target),
      r.minInclusive < r.maxExclusive ∧ r.maxExclusive ≤ .MAX := by
  intro r hr
  obtain ⟨planRange, -, clipped⟩ := mem_filterMap.mp hr
  rw [target, clipToScope] at clipped
  have within := (intersectFeedRanges_within clipped).1
  exact ⟨(intersectFeedRanges_some clipped).1, Std.le_trans within.2 inside⟩

theorem clipped_has {ranges : List FeedRange} (target : operation.target = some scope)
    (e : EffectivePartitionKey) :
    (∃ r ∈ ranges.filterMap (clipToScope operation.target), r.span.Has e) ↔
      (∃ w ∈ ranges.map FeedRange.span, w.Has e) ∧ scope.span.Has e := by
  rw [target]
  constructor
  · rintro ⟨r, hr, has⟩
    obtain ⟨planRange, mem, clipped⟩ := mem_filterMap.mp hr
    obtain ⟨inScope, inRange⟩ := ((intersectFeedRanges_some clipped).2 e).mp has
    exact ⟨⟨_, mem_map_of_mem mem, inRange⟩, inScope⟩
  · rintro ⟨⟨w, hw, inRange⟩, inScope⟩
    obtain ⟨planRange, mem, rfl⟩ := mem_map.mp hw
    obtain ⟨r, clipped⟩ := intersectFeedRanges_isSome inScope inRange
    refine ⟨r, mem_filterMap.mpr ⟨planRange, mem, by rw [clipToScope, clipped]⟩, ?_⟩
    exact ((intersectFeedRanges_some clipped).2 e).mpr ⟨inScope, inRange⟩

include valid target inside ordered sorted

/-- The leaves, with the scope as a half-open interval. -/
theorem planFresh_leaves :
    ∃ leaves, planFresh plan (some m) operation = .ok leaves ∧
      (∀ n ∈ leaves, ∃ r ∈ m.orderedRanges, ∃ whole range, whole.span = r.span ∧
        n = pieceLeaf operation none (⟨r.id, whole⟩, range) ∧
        range.minInclusive < range.maxExclusive ∧ range.span.Within r.span) ∧
      Ascending (ledger leaves) ∧
      ∀ e, Owned (ledger leaves) e ↔ (∃ w ∈ plan.windows operation, w.Has e) ∧ scope.span.Has e := by
  obtain ⟨ranges, converted, spans⟩ := planRanges_windows ordered
  have within := clipped_inside ranges target inside
  have each : ∀ r ∈ ranges.filterMap (clipToScope operation.target),
      overFeedRange (some m) (freshLeaf operation) r =
        .ok (emitted (overFeedRange (some m) (freshLeaf operation)) r) := by
    intro r hr
    obtain ⟨proper, below⟩ := within r hr
    obtain ⟨nodes, planned⟩ :=
      overFeedRange_fresh valid operation proper (Std.lt_of_lt_of_le proper below)
    rw [planned, emitted, planned]
  have planned := overQueryRanges_ok converted each
  have apart : ranges.Pairwise fun a b => a.span.Before b.span := by
    rw [← spans] at sorted
    exact pairwise_map.mp sorted
  obtain ⟨work, -⟩ := planFresh_workload valid converted apart planned
  refine ⟨_, planned, ?_, work.ascending, fun e => ?_⟩
  · intro n hn
    obtain ⟨r, hr, here⟩ := mem_flatMap.mp hn
    exact overFeedRange_leaf (each r hr) n here
  · rw [freshLeaves_owned_iff valid each, ← spans, ← clipped_has target]
    refine ⟨And.left, fun holds => ⟨holds, ?_⟩⟩
    obtain ⟨r, hr, has⟩ := holds
    exact Std.lt_of_lt_of_le has.2 (within r hr).2

/-- A fresh plan of sorted, disjoint windows reads their keys in a scope that is not a single key, each
from one partition and in ascending order. -/
theorem plan_fresh_tiles (proper : scope.minInclusive < scope.maxExclusive) :
    ∃ leaves, planFresh plan (some m) operation = .ok leaves ∧
      FreshPlan m operation (plan.windows operation) scope leaves := by
  obtain ⟨leaves, planned, leaf, ascending, owned⟩ :=
    planFresh_leaves valid target inside ordered sorted
  refine ⟨leaves, planned, leaf, ascending, fun e => ?_⟩
  have keys : scope.Key e ↔ scope.span.Has e :=
    and_congr_right fun _ => or_iff_left_of_imp fun at_ => Std.lt_of_le_of_lt at_ proper
  rw [owned, keys]

end Fresh

/-! ## A closed range and a closed point -/

/-- A query over all keys of a container without a fixed EPK width. -/
def fullQuery : CosmosOperation := ⟨some .full, none, false, none, none, none⟩

def pointThenBand : QueryPlan := ⟨none, [⟨"10", "10", true⟩, ⟨"20", "C0", false⟩], false⟩

theorem point_then_band_tiles :
    ∃ leaves, planFresh pointThenBand (some twoRangesMap) fullQuery = .ok leaves ∧
      FreshPlan twoRangesMap fullQuery (pointThenBand.windows fullQuery) full leaves :=
  plan_fresh_tiles twoRangesMap_valid rfl (by decide) (by decide) (by decide) (by decide)

def closedBand : QueryPlan := ⟨none, [⟨"10", "20", true⟩], false⟩

/-- The upper bound of a closed range is in the scope and not planned. -/
theorem closed_range_loses_end :
    ∃ leaves, planFresh closedBand (some twoRangesMap) fullQuery = .ok leaves ∧
      (∃ q ∈ closedBand.queryRanges, q.Holds ⟨[0x20]⟩) ∧ full.span.Has ⟨[0x20]⟩ ∧
      ¬ Owned (ledger leaves) ⟨[0x20]⟩ := by
  obtain ⟨leaves, planned, -, -, owned⟩ : ∃ leaves,
      planFresh closedBand (some twoRangesMap) fullQuery = .ok leaves ∧ _ :=
    planFresh_leaves twoRangesMap_valid rfl (by decide) (by decide) (by decide)
  refine ⟨leaves, planned, ⟨_, .head _, ?_⟩, ?_, ?_⟩
  · exact ⟨by decide, .inr ⟨rfl, by decide⟩⟩
  · exact ⟨by decide, by decide⟩
  · rw [owned]
    rintro ⟨⟨w, hw, -, below⟩, -⟩
    rw [mem_singleton.mp hw] at below
    exact absurd below (by decide)

/-! ## Closed points -/

section Points

open EffectivePartitionKey

/-- A key at the width of the container's keys; where that is unknown, at its own. -/
def atWidth (definition : PartitionKeyDefinition) (key : EffectivePartitionKey) : List UInt8 :=
  zeroExtend ((normalizedEpkLen definition).getD 0) key.bytes

theorem queryRangeToFeedRange_point {point : QueryRange} {key : EffectivePartitionKey}
    (definition : PartitionKeyDefinition) (closed : point.isMaxInclusive = true)
    (min : ofHex point.min = key) (max : ofHex point.max = key) :
    queryRangeToFeedRange point (normalizedEpkLen definition) =
      new key (incrementBe (atWidth definition key)) := by
  simp only [queryRangeToFeedRange, min, max, closed, and_self, if_true]
  unfold atWidth
  cases normalizedEpkLen definition with
  | some len => rfl
  | none => simp [successor, zeroExtend]

/-- **A closed point keeps its point** where its key, at the width of the container's keys, has
a byte other than `0xFF`: the feed range is nonempty, holds the key, and of the keys of that
width only those equal to it in the order. -/
theorem point_range_exact_iff (definition : PartitionKeyDefinition) (point : QueryRange)
    (key : EffectivePartitionKey) (closed : point.isMaxInclusive = true)
    (min : ofHex point.min = key) (max : ofHex point.max = key) :
    (∃ range, queryRangeToFeedRange point (normalizedEpkLen definition) = .ok range ∧
      range.minInclusive < range.maxExclusive ∧ range.span.Has key ∧
      ∀ z : EffectivePartitionKey, z.bytes.length ≤ (atWidth definition key).length →
        range.span.Has z → z ≤ key ∧ key ≤ z) ↔
    ∃ b ∈ atWidth definition key, b ≠ 0xFF := by
  rw [queryRangeToFeedRange_point definition closed min max]
  have same : key ≤ ⟨atWidth definition key⟩ ∧ ⟨atWidth definition key⟩ ≤ key :=
    cmp_eq_eq.mp (cmp_zeroExtend_self _)
  generalize atWidth definition key = bytes at same ⊢
  constructor
  · rintro ⟨range, made, proper, -⟩
    obtain ⟨lo, hi⟩ := new_inv made
    by_contra full
    have below : (⟨bytes⟩ : EffectivePartitionKey) < incrementBe bytes := by grind
    exact not_lt_incrementBe (by simpa using full) below
  · rintro ⟨b, mem, other⟩
    obtain ⟨above, least⟩ := incrementBe_next mem other
    have proper : key < incrementBe bytes := by grind
    refine ⟨_, new_ok (Std.le_of_lt proper), proper, ⟨Std.le_refl key, proper⟩, ?_⟩
    intro z fits held
    have low : z ≤ ⟨bytes⟩ := least fits held.2
    exact ⟨by grind, held.1⟩

/-- A trimmed key of a V2 container, at its 16 bytes. -/
theorem trimmed_point_exact :
    ∃ range, queryRangeToFeedRange ⟨"05C1", "05c1", true⟩ (normalizedEpkLen ⟨["pk"], .hash, .v2⟩) =
        .ok range ∧
      range.minInclusive < range.maxExclusive ∧ range.span.Has ⟨[0x05, 0xC1]⟩ ∧
      ∀ z : EffectivePartitionKey, z.bytes.length ≤ 16 →
        range.span.Has z → z ≤ ⟨[0x05, 0xC1]⟩ ∧ ⟨[0x05, 0xC1]⟩ ≤ z :=
  (point_range_exact_iff ⟨["pk"], .hash, .v2⟩ ⟨"05C1", "05c1", true⟩ ⟨[0x05, 0xC1]⟩ rfl
    (by decide) (by decide)).mpr ⟨0x05, by decide, by decide⟩

/-- The empty key of a V1 container: its successor `00` is the same key. -/
theorem empty_point_vanishes :
    ∃ range, queryRangeToFeedRange ⟨"", "", true⟩ (normalizedEpkLen ⟨["pk"], .hash, .v1⟩) =
      .ok range ∧ ¬ range.minInclusive < range.maxExclusive :=
  ⟨⟨none, ⟨[]⟩, ⟨[0]⟩, by decide⟩, by decide, by decide⟩

end Points

end AzureSdk.Cosmos.Dataflow
