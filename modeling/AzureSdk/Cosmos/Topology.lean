/-
# Cosmos.Topology — resolving a feed range against the physical partitions

`CachedTopologyProvider::resolve_ranges` asks the routing map for the ranges that
overlap a feed range.  Everything the dataflow layer does with a topology goes
through one fact about that answer, `resolveRanges_cuts`: on a complete routing
map and a nonempty feed range inside the EPK space, each resolved range meets the
feed range in a nonempty piece, the pieces come in order, and they hold exactly
the keys of the feed range that lie in the EPK space (`Cuts`).
-/
import AzureSdk.Cosmos.RoutingMap

namespace AzureSdk.Cosmos

open Theory Theory.Interval List ContainerRoutingMap FeedRange Option Std

/-- A physical partition's id and EPK range. -/
structure ResolvedRange where
  partitionKeyRangeId : String
  range : FeedRange
  deriving DecidableEq

/-- `PartitionKeyRangeCache::resolve_overlapping_ranges` on the routing map that the
cache lookup produced.  A point range is looked up as a key, because `X..X` is
empty for the interval lookup. -/
def resolveOverlappingRanges (m : ContainerRoutingMap) (start stop : EffectivePartitionKey) :
    Result (List PartitionKeyRange) :=
  if start = stop then do
    let owner ← m.getRangeByEffectivePartitionKey start
    .ok owner.toList
  else m.getOverlappingRanges start stop

/-- `FeedRange::new` over the resolved ranges, stopping at the first failure. -/
def toResolvedRanges : List PartitionKeyRange → Result (List ResolvedRange)
  | [] => .ok []
  | pkr :: rest => do
    let range ← new pkr.minInclusive pkr.maxExclusive
    let resolved ← toResolvedRanges rest
    .ok (⟨pkr.id, range⟩ :: resolved)

/-- `CachedTopologyProvider::resolve_ranges`.  `routingMap` is what the cache lookup
returned for the container; an empty map counts as no map. -/
def resolveRanges (routingMap : Option ContainerRoutingMap) (range : FeedRange) :
    Result (List ResolvedRange) := do
  let unresolved : Result (List ResolvedRange) :=
    fail .clientTopologyResolutionFailed
      "failed to resolve partition key ranges from topology cache"
  match routingMap with
  | none => unresolved
  | some m =>
    if m.orderedRanges.isEmpty then unresolved
    else
      match ← resolveOverlappingRanges m range.minInclusive range.maxExclusive with
      | [] => unresolved
      | pkRanges => toResolvedRanges pkRanges

theorem toResolvedRanges_inv : ∀ {ranges : List PartitionKeyRange} {resolved : List ResolvedRange},
    toResolvedRanges ranges = .ok resolved → resolved.length = ranges.length ∧
      ∀ c ∈ resolved, ∃ r ∈ ranges, c.partitionKeyRangeId = r.id ∧ c.range.span = r.span
  | [], resolved, h => by
    cases h
    simp
  | r :: rest, resolved, h => by
    obtain ⟨range, made, h⟩ := bind_ok h
    obtain ⟨others, tail, h⟩ := bind_ok h
    cases h
    obtain ⟨length, members⟩ := toResolvedRanges_inv tail
    refine ⟨by simp [length], forall_mem_cons.mpr ⟨?_, fun c hc => ?_⟩⟩
    · obtain ⟨lo, hi⟩ := FeedRange.new_inv made
      exact ⟨r, .head _, rfl, by rw [FeedRange.span, lo, hi]; rfl⟩
    · obtain ⟨q, hq, eq⟩ := members c hc
      exact ⟨q, .tail _ hq, eq⟩

variable {m : ContainerRoutingMap} {r : PartitionKeyRange} {range : FeedRange}

theorem rangeAt_mem {i : Nat} (h : m.rangeAt i = .ok r) : r ∈ m.orderedRanges := by
  unfold rangeAt at h
  split at h
  · rename_i here
    cases h
    exact mem_of_getElem? here
  · exact absurd h (by simp)

theorem getRange_mem {epk : EffectivePartitionKey}
    (h : m.getRangeByEffectivePartitionKey epk = .ok (some r)) :
    r ∈ m.orderedRanges := by
  unfold getRangeByEffectivePartitionKey at h
  split at h
  · exact absurd h (by simp)
  split at h
  · cases first : m.rangeAt 0 with
    | error fault => simp [first, Except.map] at h
    | ok q =>
      simp only [first, Except.map, Except.ok.injEq, some.injEq] at h
      exact h ▸ rangeAt_mem first
  · obtain ⟨i, _, h⟩ := bind_ok h
    obtain ⟨q, here, h⟩ := bind_ok h
    split at h
    · cases h
      exact rangeAt_mem here
    · exact absurd h (by simp)

theorem resolveOverlappingRanges_mem
    {start stop : EffectivePartitionKey} {ranges : List PartitionKeyRange}
    (h : resolveOverlappingRanges m start stop = .ok ranges) :
    ∀ r ∈ ranges, r ∈ m.orderedRanges := by
  intro r hr
  unfold resolveOverlappingRanges at h
  split at h
  · obtain ⟨owner, lookup, h⟩ := bind_ok h
    cases h
    rw [mem_toList] at hr
    exact getRange_mem (hr ▸ lookup)
  · obtain ⟨bounds, _, h⟩ := bind_ok h
    cases bounds with
    | none =>
      cases h
      simp at hr
    | some b =>
      cases h
      exact mem_of_mem_drop (mem_of_mem_take hr)

variable {resolved : List ResolvedRange} {cuts : List (ResolvedRange × FeedRange)}

/-- Whatever range is asked for, an answer is not empty and is of partitions of the map. -/
theorem resolveRanges_partitions (h : resolveRanges (some m) range = .ok resolved) :
    resolved ≠ [] ∧ ∀ c ∈ resolved, ∃ r ∈ m.orderedRanges,
      c.partitionKeyRangeId = r.id ∧ c.range.span = r.span := by
  unfold resolveRanges at h
  simp only at h
  split at h
  · exact absurd h (by simp [fail])
  · obtain ⟨ranges, found, h⟩ := bind_ok h
    split at h
    · exact absurd h (by simp [fail])
    · rename_i some
      obtain ⟨length, members⟩ := toResolvedRanges_inv h
      constructor
      · intro empty
        rw [empty] at length
        exact some (length_eq_zero_iff.mp length.symm)
      · intro c hc
        obtain ⟨r, hr, same⟩ := members c hc
        exact ⟨r, resolveOverlappingRanges_mem found r hr, same⟩

theorem resolveRanges_inv (valid : m.Valid) (h : resolveRanges (some m) range = .ok resolved) :
    resolved ≠ [] ∧ ∀ c ∈ resolved, c.range.maxExclusive ≤ .MAX := by
  obtain ⟨nonempty, members⟩ := resolveRanges_partitions h
  refine ⟨nonempty, fun c hc => ?_⟩
  obtain ⟨r, hr, -, same⟩ := members c hc
  have stop : c.range.maxExclusive = r.maxExclusive := congrArg Span.hi same
  rw [stop]
  exact valid.below_max hr

/-- If every resolved range meets the asked range, the latter is a nonempty part of the
EPK space. -/
theorem resolveRanges_inside (valid : m.Valid)
    (found : resolveRanges (some m) range = .ok (cuts.map Prod.fst))
    (pieces : ∀ c ∈ cuts, intersectFeedRanges c.1.range range = some c.2) :
    range.minInclusive < range.maxExclusive ∧ range.minInclusive < .MAX := by
  obtain ⟨nonempty, below⟩ := resolveRanges_inv valid found
  obtain ⟨c, hc⟩ := exists_mem_of_ne_nil cuts (by simpa using nonempty)
  obtain ⟨proper, _⟩ := intersectFeedRanges_some (pieces c hc)
  obtain ⟨resolvedBounds, rangeBounds⟩ := intersectFeedRanges_within (pieces c hc)
  unfold Span.Within at resolvedBounds rangeBounds
  simp only [span_lo, span_hi] at resolvedBounds rangeBounds
  constructor <;> grind

/-! ## What a complete topology answers -/

/-- `cuts` are the pieces of `range` along a complete topology: each resolved range
with its intersection, in order, together holding the keys of `range` in the EPK
space.  `owners` says so for whatever the pieces are used to build. -/
structure Cuts (range : FeedRange) (cuts : List (ResolvedRange × FeedRange)) : Prop where
  piece : ∀ c ∈ cuts, intersectFeedRanges c.1.range range = some c.2
  ordered : cuts.Pairwise fun a b => a.2.span.Before b.2.span
  owners : ∀ {β : Type} {e : EffectivePartitionKey} {X : List β}
    (f : ResolvedRange × FeedRange → List β),
    (∀ c ∈ cuts, f c = if c.2.span.Has e then X else []) →
    cuts.flatMap f = if range.span.Has e ∧ e < .MAX then X else []

theorem Cuts.has_iff (exact : Cuts range cuts) (e : EffectivePartitionKey) :
    (∃ c ∈ cuts, c.2.span.Has e) ↔ range.span.Has e ∧ e < .MAX := by
  have owners := exact.owners (e := e) (X := [()])
    (fun c => if c.2.span.Has e then [()] else []) fun _ _ => rfl
  by_cases held : range.span.Has e ∧ e < .MAX
  · rw [if_pos held] at owners
    obtain ⟨c, hc, h⟩ := mem_flatMap.mp (owners ▸ mem_singleton_self ())
    refine iff_of_true ⟨c, hc, ?_⟩ held
    by_contra outside
    simp [outside] at h
  · rw [if_neg held] at owners
    refine iff_of_false ?_ held
    rintro ⟨c, hc, has⟩
    have := flatMap_eq_nil_iff.mp owners c hc
    simp [has] at this

def PartitionKeyRange.feedRange (r : PartitionKeyRange) : FeedRange :=
  if ordered : r.minInclusive ≤ r.maxExclusive then ⟨none, r.minInclusive, r.maxExclusive, ordered⟩
  else .full

/-- A partition key range as resolved, and its part of `range`. -/
def cutOf (range : FeedRange) (r : PartitionKeyRange) : ResolvedRange × FeedRange :=
  (⟨r.id, r.feedRange⟩, (intersectFeedRanges r.feedRange range).getD range)

def overlapping (m : ContainerRoutingMap) (range : FeedRange) : List PartitionKeyRange :=
  m.orderedRanges.filter fun r =>
    decide (r.minInclusive < range.maxExclusive ∧ range.minInclusive < r.maxExclusive)

theorem mem_overlapping : r ∈ overlapping m range ↔ r ∈ m.orderedRanges ∧
      r.minInclusive < range.maxExclusive ∧ range.minInclusive < r.maxExclusive := by
  rw [overlapping, mem_filter, decide_eq_true_iff]

theorem toResolvedRanges_ok (range : FeedRange) : ∀ {ranges : List PartitionKeyRange},
    (∀ r ∈ ranges, r.minInclusive ≤ r.maxExclusive) →
    toResolvedRanges ranges = .ok ((ranges.map (cutOf range)).map Prod.fst)
  | [], _ => rfl
  | r :: rest, ordered => by
    have first := ordered r (.head _)
    have tail := toResolvedRanges_ok range fun q hq => ordered q (.tail _ hq)
    simp [toResolvedRanges, new_ok first, tail, bind, Except.bind, cutOf,
      PartitionKeyRange.feedRange, first]

section Complete

variable {m : ContainerRoutingMap} (valid : m.Valid) {range : FeedRange}
include valid

variable {r : PartitionKeyRange}

theorem feedRange_span_of_mem (mem : r ∈ m.orderedRanges) : r.feedRange.span = r.span := by
  simp [PartitionKeyRange.feedRange, le_of_lt (valid.proper mem), FeedRange.span,
    PartitionKeyRange.span]

variable (proper : range.minInclusive < range.maxExclusive)

include proper

theorem overlapping_ne_nil (inside : range.minInclusive < .MAX) : overlapping m range ≠ [] := by
  obtain ⟨r, mem, has, _⟩ := getRange_spec valid inside
  have starts : r.minInclusive ≤ range.minInclusive := has.1
  refine ne_nil_of_mem (mem_overlapping.mpr ⟨mem, ?_, has.2⟩)
  exact lt_of_le_of_lt starts proper

theorem cutOf_piece (hit : r ∈ overlapping m range) :
    intersectFeedRanges r.feedRange range = some (cutOf range r).2 := by
  obtain ⟨mem, starts, ends⟩ := mem_overlapping.mp hit
  have own := valid.proper mem
  have span := feedRange_span_of_mem valid mem
  obtain ⟨piece, hp⟩ : ∃ piece, intersectFeedRanges r.feedRange range = some piece := by
    -- the later of the two starts lies in both
    by_cases first : range.minInclusive ≤ r.minInclusive
    · refine intersectFeedRanges_isSome (e := r.minInclusive) ?_ ⟨first, starts⟩
      rw [span]
      exact ⟨le_refl _, own⟩
    · refine intersectFeedRanges_isSome (e := range.minInclusive) ?_ ⟨le_refl _, proper⟩
      rw [span]
      exact ⟨by simp only [PartitionKeyRange.span]; grind, ends⟩
  simp [cutOf, hp]

theorem cutOf_within (hit : r ∈ overlapping m range) : (cutOf range r).2.span.Within r.span := by
  have within := (intersectFeedRanges_within (cutOf_piece valid proper hit)).1
  rwa [feedRange_span_of_mem valid (mem_overlapping.mp hit).1] at within

/-- The pieces hold exactly the keys of the range that lie in the EPK space. -/
theorem cutOf_owners {β : Type}
    {e : EffectivePartitionKey} {X : List β} (f : ResolvedRange × FeedRange → List β)
    (each : ∀ r ∈ overlapping m range,
      f (cutOf range r) = if (cutOf range r).2.span.Has e then X else []) :
    (overlapping m range).flatMap (fun r => f (cutOf range r)) =
      if range.span.Has e ∧ e < .MAX then X else [] := by
  -- partitions that do not overlap hold no key of the range, so they may join the sum
  rw [overlapping, flatMap_filter, @flatMap_tiles _ _ _ _ _ _ _ _ _ e
    (if range.span.Has e then X else []) PartitionKeyRange.span _ _ _ _ valid.tiles]
  · have space : (Span.mk EffectivePartitionKey.MIN .MAX).Has e ↔ e < .MAX := epkSpace_has
    by_cases held : range.span.Has e <;> by_cases below : e < .MAX <;> simp [held, below, space]
  · intro r hr
    by_cases overlap : r.minInclusive < range.maxExclusive ∧ range.minInclusive < r.maxExclusive
    · have hit := mem_overlapping.mpr ⟨hr, overlap⟩
      have keys := (intersectFeedRanges_some (cutOf_piece valid proper hit)).2 e
      rw [feedRange_span_of_mem valid hr] at keys
      rw [if_pos (decide_eq_true overlap), each r hit]
      by_cases own : r.span.Has e <;> by_cases held : range.span.Has e <;> simp [keys, own, held]
    · rw [if_neg (by simpa using overlap)]
      by_cases own : r.span.Has e
      · have free : ¬ range.span.Has e := by
          intro held
          unfold Span.Has at own held
          simp only [PartitionKeyRange.span, span_lo, span_hi] at own held
          grind
        simp [free]
      · simp [own]

omit proper

/-- What is looked up for a range without keys in the EPK space: nothing for a point past its
end and for two spellings of the key a partition starts at, one partition otherwise. -/
theorem resolveOverlappingRanges_empty {start stop : EffectivePartitionKey} (ordered : start ≤ stop)
    (empty : ¬ (start < stop ∧ start < .MAX)) :
    ∃ ranges, resolveOverlappingRanges m start stop = .ok ranges ∧ (ranges = [] ↔
      start = stop ∧ .MAX ≤ start ∨ start ≠ stop ∧ stop ≤ start ∧
        ∃ r ∈ m.orderedRanges, start ≤ r.minInclusive ∧ r.minInclusive ≤ start) := by
  unfold resolveOverlappingRanges
  by_cases same : start = stop
  · subst same
    rw [if_pos rfl]
    by_cases inside : start < .MAX
    · obtain ⟨r, _, _, found⟩ := getRange_spec valid inside
      have short : ¬ EffectivePartitionKey.MAX ≤ start := by grind
      exact ⟨[r], by rw [found]; rfl, by simp [short]⟩
    · have past := not_lt.mp inside
      exact ⟨[], by rw [getRange_none valid past]; rfl, by simp [past]⟩
  · rw [if_neg same]
    obtain ⟨i, r, count, here, below, later, _, _, slice, taken⟩ :=
      overlappingRangeBounds_spec valid start stop
    have behind : ∀ u ∈ m.orderedRanges.drop i, u = r ∨ start < u.minInclusive := by
      intro u hu
      obtain ⟨j, hj⟩ := mem_iff_getElem?.mp hu
      rw [getElem?_drop] at hj
      rcases Nat.eq_zero_or_pos j with rfl | positive
      · exact .inl (some.inj (hj.symm.trans here))
      · exact .inr (later (i + j) u (by omega) hj)
    have first : r ∈ m.orderedRanges.drop i := mem_of_getElem? (i := 0) (by simpa using here)
    refine ⟨_, slice, ?_⟩
    rw [taken, filter_eq_nil_iff]
    constructor
    · intro none
      exact .inr ⟨same, by grind, r, mem_of_getElem? here, by grind, below⟩
    · rintro (⟨equal, _⟩ | ⟨_, back, u, hu, low, high⟩) x hx less
      · exact same equal
      · rcases behind x hx with rfl | above
        · -- the partition that starts at `start` is not behind the last one that starts by then
          obtain ⟨j, hj⟩ := mem_iff_getElem?.mp hu
          rcases Nat.lt_trichotomy j i with lt | rfl | gt
          · have := valid.starts_lt lt hj here
            grind
          · grind
          · grind
        · grind

/-- **A complete topology cuts every range exactly.** -/
theorem resolveRanges_cuts (proper : range.minInclusive < range.maxExclusive)
    (inside : range.minInclusive < .MAX) :
    ∃ cuts, Cuts range cuts ∧ resolveRanges (some m) range = .ok (cuts.map Prod.fst) := by
  refine ⟨(overlapping m range).map (cutOf range), ⟨?_, ?_, ?_⟩, ?_⟩
  · exact forall_mem_map.mpr fun r hr => cutOf_piece valid proper hr
  · rw [pairwise_map]
    refine (List.Pairwise.filter _ valid.pairwise).imp_of_mem fun {a b} ha hb before => ?_
    have wa := cutOf_within valid proper ha
    have wb := cutOf_within valid proper hb
    simp only [Span.Within, Span.Before, PartitionKeyRange.span] at *
    grind
  · intro β e X f each
    rw [flatMap_map]
    exact cutOf_owners valid proper f fun r hr => each _ (mem_map_of_mem hr)
  · have nonempty := overlapping_ne_nil valid proper inside
    have notEmpty : m.orderedRanges.isEmpty = false := by simpa using valid.nonempty
    have differ : range.minInclusive ≠ range.maxExclusive := by
      intro same
      grind
    have found : resolveOverlappingRanges m range.minInclusive range.maxExclusive =
        .ok (overlapping m range) := by
      rw [resolveOverlappingRanges, if_neg differ]
      exact getOverlappingRanges_spec valid inside
    rw [← toResolvedRanges_ok range fun r hr =>
      le_of_lt (valid.proper (mem_overlapping.mp hr).1)]
    simp [resolveRanges, notEmpty, found, bind, Except.bind]

theorem cuts_of_pieces {cuts : List (ResolvedRange × FeedRange)}
    (found : resolveRanges (some m) range = .ok (cuts.map Prod.fst))
    (pieces : ∀ c ∈ cuts, intersectFeedRanges c.1.range range = some c.2) : Cuts range cuts := by
  obtain ⟨proper, inside⟩ := resolveRanges_inside valid found pieces
  obtain ⟨cuts', exact, found'⟩ := resolveRanges_cuts valid proper inside
  rw [found, Except.ok.injEq] at found'
  have same : cuts = cuts' := by
    refine ext_getElem? fun i => ?_
    have fsts := congrArg (fun l : List ResolvedRange => l[i]?) found'
    simp only [getElem?_map] at fsts
    cases left : cuts[i]? with
    | none => simpa [left] using fsts
    | some c =>
      cases right : cuts'[i]? with
      | none => simp [left, right] at fsts
      | some c' =>
        simp only [left, right, map_some, some.injEq] at fsts
        have mine := pieces c (mem_of_getElem? left)
        have theirs := exact.piece c' (mem_of_getElem? right)
        rw [fsts, theirs, some.injEq] at mine
        rw [Prod.ext fsts mine.symm]
  exact same ▸ exact

end Complete

end AzureSdk.Cosmos
