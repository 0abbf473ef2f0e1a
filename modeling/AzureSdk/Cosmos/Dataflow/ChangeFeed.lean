/-
# Cosmos.Dataflow.ChangeFeed — a resumed change feed is where it was

A change feed is an `UnorderedMerge` of one leaf per partition, each with the server
token it has reached.  Its leaves are never drained, so they own the feed range for
good (`FeedWork`): pages move tokens, splits cut slices (`feedReachable_work`).

A snapshot saves the tokens with their slices and the start position.  Resuming sweeps
the saved tokens over every partition of the new topology; `sweepTokens_sweep` shows
that this is the library's `Sweep`, and `change_feed_resumes_in_place` that every key
of the feed range gets back the token it had, or the start position if it had none.
-/
import AzureSdk.Cosmos.Dataflow.Resume
import AzureSdk.Cosmos.Dataflow.UnorderedMerge

namespace AzureSdk.Cosmos.Dataflow

open Theory Theory.Interval List FeedRange Request ContainerRoutingMap Std

/-! ## Building the merge -/

/-- `validate_unordered_merge_tokens`, after the entry with range `prev`. -/
def validateUnorderedMergeTokens :
    Option FeedRange → List RangedToken → Result (List SavedActiveToken) :=
  parseEntries (fun min max =>
    if max ≤ min then
      fail .clientContinuationTokenInvalidEpkRange
        ("continuation token has invalid active_tokens entry (min `" ++ min.toHex ++
          "` >= max `" ++ max.toHex ++ "`)")
    else .ok ())
    " overlaps "

variable (operation : CosmosOperation)

/-- The leaf for a slice without a saved token, if the slice is not empty. -/
def freshSlice (resolvedRange : ResolvedRange)
    (lo hi : EffectivePartitionKey) : Result (List Request) :=
  if lo < hi then do
    let slice ← new lo hi
    .ok [pieceLeaf operation none (resolvedRange, slice)]
  else .ok []

/-- The sweep over the saved tokens within one partition. -/
def sweepTokens (resolvedRange : ResolvedRange) (range : FeedRange) :
    EffectivePartitionKey → List SavedActiveToken → Result (List Request)
  | cursor, [] => freshSlice operation resolvedRange cursor range.maxExclusive
  | cursor, token :: rest =>
    match intersectFeedRanges token.range range with
    | none => sweepTokens resolvedRange range cursor rest
    | some slice => do
      let gap ← freshSlice operation resolvedRange cursor slice.minInclusive
      let later ← sweepTokens resolvedRange range slice.maxExclusive rest
      .ok (gap ++ pieceLeaf operation (some token.serverContinuation) (resolvedRange, slice) ::
        later)

/-- The leaves for one resolved partition. -/
def changeFeedPartition (tokens : List SavedActiveToken)
    (feedRange : FeedRange) (resolvedRange : ResolvedRange) : Result (List Request) :=
  match intersectFeedRanges resolvedRange.range feedRange with
  | none => .error (.panic "topology provider must return ranges that overlap the feed range")
  | some range => sweepTokens operation resolvedRange range range.minInclusive tokens

/-- The part of `build_unordered_merge` after the token is read. -/
def mergeOver (feedRange : FeedRange) (topology : Option ContainerRoutingMap)
    (operation : CosmosOperation) (tokens : List SavedActiveToken)
    (startMarker : Option ChangeFeedStartFrom) : Result Pipeline := do
  let nodes ← overFeedRange topology (changeFeedPartition operation tokens) feedRange
  if nodes.isEmpty then
    fail .clientQueryPlanProducedEmptyRanges "change feed produced no partition ranges to query"
  else .ok (.unorderedMerge nodes startMarker)

/-- The operation with a start position, if there is one. -/
def CosmosOperation.startedAt (operation : CosmosOperation) (start : Option ChangeFeedStartFrom) :
    CosmosOperation :=
  match start with
  | some marker => operation.withChangeFeedStart marker
  | none => operation

def buildUnorderedMerge (feedRange : FeedRange) (topology : Option ContainerRoutingMap)
    (operation : CosmosOperation) (resume : Option PipelineNodeState) : Result Pipeline :=
  match resume with
  | none => mergeOver feedRange topology operation [] operation.changeFeedStart
  | some .drained => .ok .drainedLeaf
  | some (.unorderedMerge activeTokens startFrom) => do
    let tokens ← validateUnorderedMergeTokens none activeTokens
    mergeOver feedRange topology (operation.startedAt startFrom) tokens startFrom
  | some other =>
    fail .clientContinuationTokenShapeMismatch
      ("continuation token shape " ++ snapshotKind other ++
        " does not match a change feed operation")

/-! ## The sweep inside one partition -/

section OnePartition

variable (operation : CosmosOperation) (resolvedRange : ResolvedRange)

/-- A leaf that a change feed builds: live, with a nonempty slice, running `operation`. -/
structure FeedLeaf (n : Request) : Prop where
  slice : ∃ range, n.feedRange = some range ∧ range.minInclusive < range.maxExclusive
  live : n.state ≠ .drained
  runs : n.operation = operation

theorem feedLeaf_piece (continuation : Option String) {c : ResolvedRange × FeedRange}
    (proper : c.2.minInclusive < c.2.maxExclusive) :
    FeedLeaf operation (pieceLeaf operation continuation c) where
  slice := ⟨c.2, pieceLeaf_feedRange _ _ _, proper⟩
  live := Request.new_live _ _ _
  runs := by simp [pieceLeaf, Request.new]

theorem ledger_piece (continuation : Option String) (c : ResolvedRange × FeedRange)
    (rest : List Request) :
    ledger (pieceLeaf operation continuation c :: rest) = (c.2.span, continuation) :: ledger rest := by
  rw [ledger_cons (pieceLeaf_feedRange operation continuation c)]
  simp [pieceLeaf]

theorem freshSlice_ok (lo hi : EffectivePartitionKey) :
    ∃ nodes, freshSlice operation resolvedRange lo hi = .ok nodes ∧
      (∀ rest, ledger (nodes ++ rest) = gapTo lo hi ++ ledger rest) ∧
      ∀ n ∈ nodes, FeedLeaf operation n := by
  unfold freshSlice gapTo
  by_cases room : lo < hi
  · rw [if_pos room, if_pos room, new_ok (le_of_lt room)]
    refine ⟨_, rfl, fun rest => ledger_piece operation none _ rest, fun n hn => ?_⟩
    rw [mem_singleton.mp hn]
    exact feedLeaf_piece operation none room
  · rw [if_neg room, if_neg room]
    exact ⟨[], rfl, fun rest => rfl, by simp⟩

/-- The sweep of the source is the library's: the cursor is the start of the partition or
at most the start of every token that is left. -/
theorem sweepTokens_sweep {range : FeedRange} (wide : range.minInclusive < range.maxExclusive) :
    ∀ {tokens : List SavedActiveToken} {cursor : EffectivePartitionKey}, WellSaved tokens →
    range.minInclusive ≤ cursor →
    (cursor ≤ range.minInclusive ∨ ∀ t ∈ tokens, cursor ≤ t.range.minInclusive) →
    ∃ nodes, sweepTokens operation resolvedRange range cursor tokens = .ok nodes ∧
      Sweep range.maxExclusive cursor (tokenLedger tokens) (ledger nodes) ∧
      ∀ n ∈ nodes, FeedLeaf operation n
  | [], cursor, _, _, _ => by
    obtain ⟨nodes, made, gap, leaves⟩ :=
      freshSlice_ok operation resolvedRange cursor range.maxExclusive
    have whole : ledger nodes = gapTo cursor range.maxExclusive := by simpa [ledger] using gap []
    exact ⟨nodes, made, whole ▸ .rest, leaves⟩
  | token :: rest, cursor, saved, above, front => by
    have proper := saved.proper token (.head _)
    have later : ∀ t ∈ rest, token.range.maxExclusive ≤ t.range.minInclusive :=
      (pairwise_cons.mp saved.ascending).1
    have frontRest : cursor ≤ range.minInclusive ∨ ∀ t ∈ rest, cursor ≤ t.range.minInclusive :=
      front.imp_right fun h t ht => h t (.tail _ ht)
    rw [sweepTokens]
    cases overlap : intersectFeedRanges token.range range with
    | none =>
      obtain ⟨nodes, swept, sweep, leaves⟩ := sweepTokens_sweep wide saved.tail above frontRest
      refine ⟨nodes, swept, .skip ?_ sweep, leaves⟩
      have apart := intersectFeedRanges_none overlap
      change token.range.maxExclusive ≤ cursor ∨ range.maxExclusive ≤ token.range.minInclusive
      have left := apart token.range.minInclusive
      have right := apart range.minInclusive
      simp only [has_iff] at left right
      grind
    | some slice =>
      obtain ⟨start, stop⟩ := intersectFeedRanges_bounds overlap
      have narrow := (intersectFeedRanges_some overlap).1
      unfold laterMin at start
      unfold earlierMax at stop
      have inner : slice.maxExclusive ≤ token.range.maxExclusive := by grind
      have below : slice.maxExclusive ≤ range.maxExclusive := by grind
      have full : token.range.maxExclusive ≤ slice.maxExclusive ∨
          range.maxExclusive ≤ slice.maxExclusive := by grind
      have behind : cursor ≤ slice.minInclusive := by grind
      have onward : range.minInclusive ≤ slice.maxExclusive := by grind
      have ahead : slice.maxExclusive ≤ range.minInclusive ∨
          ∀ t ∈ rest, slice.maxExclusive ≤ t.range.minInclusive :=
        .inr fun t ht => le_trans inner (later t ht)
      obtain ⟨nodes, swept, sweep, leaves⟩ := sweepTokens_sweep wide saved.tail onward ahead
      obtain ⟨before, made, gap, fresh⟩ :=
        freshSlice_ok operation resolvedRange cursor slice.minInclusive
      dsimp only
      rw [made, swept]
      refine ⟨_, rfl, ?_, forall_mem_append.mpr
        ⟨fresh, forall_mem_cons.mpr ⟨feedLeaf_piece operation _ narrow, leaves⟩⟩⟩
      rw [gap, ledger_piece]
      refine .overlap (s := token.range.span) ?_ behind ?_ narrow inner below full
        (forall_mem_map.mpr later) sweep
      · change token.range.minInclusive ≤ slice.minInclusive
        grind
      · change slice.minInclusive ≤ cursor ∨ slice.minInclusive ≤ token.range.minInclusive
        grind

end OnePartition

/-! ## A whole feed range -/

/-- The invariant of a change feed: live leaves that run `operation`, in order, and together
they own the feed range. -/
structure FeedWork (feedRange : FeedRange) (operation : CosmosOperation)
    (children : List Request) : Prop where
  leaf : ∀ n ∈ children, FeedLeaf operation n
  ascending : Ascending (ledger children)
  owned : ∀ e, Owned (ledger children) e ↔ feedRange.span.Has e ∧ e < .MAX

section WholeRange

variable {feedRange : FeedRange} {operation : CosmosOperation} {m : ContainerRoutingMap}
  {tokens : List SavedActiveToken}

theorem changeFeedPartition_ok (operation : CosmosOperation) (saved : WellSaved tokens)
    {c : ResolvedRange × FeedRange} (piece : intersectFeedRanges c.1.range feedRange = some c.2) :
    ∃ nodes, changeFeedPartition operation tokens feedRange c.1 = .ok nodes ∧
      Sweep c.2.maxExclusive c.2.minInclusive (tokenLedger tokens) (ledger nodes) ∧
      ∀ n ∈ nodes, FeedLeaf operation n := by
  unfold changeFeedPartition
  rw [piece]
  exact sweepTokens_sweep operation c.1 (intersectFeedRanges_some piece).1 saved (le_refl _)
    (.inl (le_refl _))

/-- Sweeping the saved tokens over a complete topology gives every key of the feed range
one leaf, with the saved token that holds the key. -/
theorem mergeOver_ok (complete : m.Valid) (proper : feedRange.minInclusive < feedRange.maxExclusive)
    (inSpace : feedRange.minInclusive < .MAX) (operation : CosmosOperation)
    (saved : WellSaved tokens) (marker : Option ChangeFeedStartFrom) :
    ∃ nodes, mergeOver feedRange (some m) operation tokens marker =
        .ok (.unorderedMerge nodes marker) ∧ FeedWork feedRange operation nodes ∧
      ∀ e, ownersAt (ledger nodes) e = if feedRange.span.Has e ∧ e < .MAX then
        [(ownersAt (tokenLedger tokens) e).head?] else [] := by
  obtain ⟨cuts, exact, emit, made, each⟩ :=
    overFeedRange_ok complete proper inSpace (changeFeedPartition_ok operation saved)
  have owners : ∀ e, ownersAt (ledger (cuts.flatMap emit)) e =
      if feedRange.span.Has e ∧ e < .MAX then
        [(ownersAt (tokenLedger tokens) e).head?] else [] := by
    intro e
    rw [ledger_flatMap, ownersAt_flatMap]
    exact exact.owners _ fun c hc => (each c hc).1.ownersAt e
  have owned : ∀ e, Owned (ledger (cuts.flatMap emit)) e ↔
      feedRange.span.Has e ∧ e < .MAX := by
    intro e
    rw [← not_iff_not, ← ownersAt_eq_nil, owners e]
    by_cases held : feedRange.span.Has e ∧ e < .MAX <;> simp [held]
  have some_ : cuts.flatMap emit ≠ [] := by
    intro none
    have first := (owned feedRange.minInclusive).mpr ⟨⟨le_refl _, proper⟩, inSpace⟩
    rw [none] at first
    obtain ⟨_, member, _⟩ := first
    simp at member
  refine ⟨cuts.flatMap emit, ?_, ⟨?_, ?_, owned⟩, owners⟩
  · unfold mergeOver
    rw [made]
    simp [bind, Except.bind, List.isEmpty_iff, some_]
  · intro n hn
    obtain ⟨c, hc, hn⟩ := mem_flatMap.mp hn
    exact (each c hc).2 n hn
  · rw [ledger_flatMap]
    refine ascending_flatMap (fun c : ResolvedRange × FeedRange => c.2.span) _ exact.ordered ?_ ?_
    · exact fun c hc p hp => ((each c hc).1.within p hp).2
    · exact fun c hc => (each c hc).1.ascending

theorem mergeOver_inSpace (complete : m.Valid) {marker : Option ChangeFeedStartFrom} {P : Pipeline}
    (built : mergeOver feedRange (some m) operation tokens marker = .ok P) :
    feedRange.minInclusive < feedRange.maxExclusive ∧ feedRange.minInclusive < .MAX := by
  obtain ⟨nodes, emitted, _⟩ := bind_ok built
  obtain ⟨resolved, found, emitted⟩ := bind_ok emitted
  obtain ⟨each, _⟩ := emitAll_inv emitted
  have overlap : ∀ r ∈ resolved, ∃ slice, intersectFeedRanges r.range feedRange = some slice := by
    intro r hr
    have made := each r hr
    unfold changeFeedPartition at made
    cases h : intersectFeedRanges r.range feedRange with
    | none => simp [h] at made
    | some slice => exact ⟨slice, rfl⟩
  let cuts := resolved.map fun r => (r, (intersectFeedRanges r.range feedRange).getD r.range)
  have resolvedCuts : resolveRanges (some m) feedRange = .ok (cuts.map Prod.fst) := by
    simpa [cuts, Function.comp_def] using found
  refine resolveRanges_inside complete resolvedCuts fun c hc => ?_
  obtain ⟨r, hr, rfl⟩ := mem_map.mp hc
  obtain ⟨slice, h⟩ := overlap r hr
  simp [h]

end WholeRange

/-! ## Planning without a panic -/

section Planning

variable {feedRange : FeedRange} {operation : CosmosOperation} {m : ContainerRoutingMap}
  {tokens : List SavedActiveToken}

theorem noPanic_emitAll {α β : Type} {f : α → Result (List β)} : ∀ {xs : List α},
    (∀ x ∈ xs, NoPanic (f x)) → NoPanic (emitAll f xs)
  | [], _ => noPanic_ok []
  | x :: xs, each => by
    refine (each x (.head _)).bind fun first _ => ?_
    exact (noPanic_emitAll fun y hy => each y (.tail _ hy)).bind fun rest _ => noPanic_ok _

theorem noPanic_sweepTokens (operation : CosmosOperation) (resolvedRange : ResolvedRange)
    (range : FeedRange) : ∀ (tokens : List SavedActiveToken) (cursor : EffectivePartitionKey),
    NoPanic (sweepTokens operation resolvedRange range cursor tokens)
  | [], cursor => by
    obtain ⟨nodes, made, _⟩ := freshSlice_ok operation resolvedRange cursor range.maxExclusive
    rw [sweepTokens, made]
    exact noPanic_ok nodes
  | token :: rest, cursor => by
    rw [sweepTokens]
    split
    · exact noPanic_sweepTokens operation resolvedRange range rest cursor
    · next slice _ =>
      obtain ⟨gap, made, _⟩ := freshSlice_ok operation resolvedRange cursor slice.minInclusive
      rw [made]
      exact (noPanic_sweepTokens operation resolvedRange range rest _).bind fun _ _ => noPanic_ok _

/-- The feed range has keys in the EPK space, or the topology finds nothing for it: it is a point
past the space, or two spellings of the key a partition starts at. -/
def Plannable (m : ContainerRoutingMap) (feedRange : FeedRange) : Prop :=
  (feedRange.minInclusive < feedRange.maxExclusive ∧ feedRange.minInclusive < .MAX) ∨
    feedRange.minInclusive = feedRange.maxExclusive ∧ .MAX ≤ feedRange.minInclusive ∨
    feedRange.minInclusive ≠ feedRange.maxExclusive ∧
      feedRange.maxExclusive ≤ feedRange.minInclusive ∧ ∃ r ∈ m.orderedRanges,
        feedRange.minInclusive ≤ r.minInclusive ∧ r.minInclusive ≤ feedRange.minInclusive

theorem noPanic_mergeOver_iff (complete : m.Valid) (marker : Option ChangeFeedStartFrom) :
    NoPanic (mergeOver feedRange (some m) operation tokens marker) ↔ Plannable m feedRange := by
  by_cases keys : feedRange.minInclusive < feedRange.maxExclusive ∧ feedRange.minInclusive < .MAX
  · obtain ⟨cuts, exact, resolved⟩ := resolveRanges_cuts complete keys.1 keys.2
    refine ⟨fun _ => .inl keys, fun _ => ?_⟩
    unfold mergeOver overFeedRange
    rw [resolved]
    refine NoPanic.bind (noPanic_emitAll (forall_mem_map.mpr fun c hc => ?_)) fun nodes _ => ?_
    · rw [changeFeedPartition, exact.piece c hc]
      exact noPanic_sweepTokens operation c.1 c.2 tokens _
    · split
      · exact noPanic_fail _ _
      · exact noPanic_ok _
  · obtain ⟨ranges, found, none⟩ := resolveOverlappingRanges_empty complete feedRange.ordered keys
    have notEmpty : m.orderedRanges.isEmpty = false := by simpa using complete.nonempty
    rw [Plannable, or_iff_right keys, ← none]
    cases ranges with
    | nil =>
      refine ⟨fun _ => rfl, fun _ message h => ?_⟩
      simp [mergeOver, overFeedRange, resolveRanges, notEmpty, found, bind, Except.bind, fail] at h
    | cons r rest =>
      -- a partition is found, but no key of it is in the feed range
      have inside := resolveOverlappingRanges_mem found
      have mem := inside r (.head _)
      have ranges := toResolvedRanges_ok feedRange fun u hu =>
        le_of_lt (complete.proper (inside u hu))
      have apart : intersectFeedRanges r.feedRange feedRange = Option.none := by
        cases overlap : intersectFeedRanges r.feedRange feedRange with
        | none => rfl
        | some slice =>
          have proper := (intersectFeedRanges_some overlap).1
          obtain ⟨left, right⟩ := intersectFeedRanges_within overlap
          rw [feedRange_span_of_mem complete mem] at left
          have below := complete.below_max mem
          simp only [Span.Within, span_lo, span_hi, PartitionKeyRange.span]
            at left right
          exact absurd ⟨by grind, by grind⟩ keys
      refine iff_of_false (fun never => never
        "topology provider must return ranges that overlap the feed range" ?_) (by simp)
      simp [mergeOver, overFeedRange, resolveRanges, notEmpty, found, ranges, emitAll,
        changeFeedPartition, cutOf, apart, bind, Except.bind]

/-- A change feed starts afresh, or goes on from saved tokens that pass their checks. -/
def Validated : Option PipelineNodeState → Prop
  | none => True
  | some (.unorderedMerge activeTokens _) =>
    ∃ tokens, validateUnorderedMergeTokens none activeTokens = .ok tokens
  | some _ => False

/-- **Planning a change feed panics where a partition is found for a feed range without keys.** -/
theorem change_feed_planning_no_panic_iff (complete : m.Valid) (feedRange : FeedRange)
    (operation : CosmosOperation) (resume : Option PipelineNodeState)
    (validated : Validated resume) :
    NoPanic (buildUnorderedMerge feedRange (some m) operation resume) ↔ Plannable m feedRange := by
  match resume, validated with
  | none, _ => exact noPanic_mergeOver_iff complete _
  | some (.unorderedMerge activeTokens start), ⟨tokens, valid⟩ =>
    simp only [buildUnorderedMerge, valid, bind, Except.bind]
    exact noPanic_mergeOver_iff complete _

/-- A change feed of the whole container. -/
def wholeFeed : CosmosOperation := ⟨none, none, true, none, none, none⟩

theorem full_feed_planned :
    NoPanic (buildUnorderedMerge .full (some .twoRangesMap) wholeFeed none) :=
  (change_feed_planning_no_panic_iff twoRangesMap_valid .full wholeFeed none
    trivial).mpr (.inl (by decide))

/-- A logical partition's range as text has equal bounds. -/
theorem point_feed_panics :
    buildUnorderedMerge ⟨none, ⟨[0x40]⟩, ⟨[0x40]⟩, Std.le_refl _⟩ (some .twoRangesMap) wholeFeed none =
      .error (.panic "topology provider must return ranges that overlap the feed range") := rfl

end Planning

/-! ## Running -/

section Running

variable {feedRange : FeedRange} {operation : CosmosOperation}

theorem poll_operation (w : Poll) (n : Request) : (poll w n).after.operation = n.operation := by
  obtain ⟨state, kept⟩ := poll_kept w n
  rw [kept]

variable {n : Request} {children : List Request}

/-- A change feed leaf never ends: a poll leaves it live, and it never reports `Drained`. -/
theorem poll_changeFeed {w : Poll} (feed : n.operation.isChangeFeed = true)
    (live : n.state ≠ .drained) :
    (poll w n).after.state ≠ .drained ∧ (poll w n).report ≠ .ok .drained := by
  change (nextPage w n).2.state ≠ _ ∧ (nextPage w n).1 ≠ _
  have cases := nextPage_cases w n
  generalize (nextPage w n).1 = report at cases
  generalize (nextPage w n).2 = after at cases
  cases cases with
  | failed | split => exact ⟨live, by simp⟩
  | drained done => exact absurd done live
  | page response =>
    unfold handleResponse
    rw [if_pos feed]
    refine ⟨?_, by simp⟩
    cases response.etag with
    | none => exact live
    | some token => simp

theorem FeedLeaf.polled (leaf : FeedLeaf operation n)
    (feed : operation.isChangeFeed = true) (w : Poll) :
    FeedLeaf operation (poll w n).after ∧ (poll w n).report ≠ .ok .drained := by
  obtain ⟨range, slice, proper⟩ := leaf.slice
  have kept := poll_changeFeed (w := w) (leaf.runs ▸ feed) leaf.live
  exact ⟨⟨⟨range, poll_kept_feedRange.trans slice, proper⟩, kept.1,
    (poll_operation w n).trans leaf.runs⟩, kept.2⟩

theorem FeedWork.replace {nodes : List Request} {i : Nat} {child : Request}
    (work : FeedWork feedRange operation children) (here : children[i]? = some child)
    (fills : Refills child nodes) (leaf : ∀ n ∈ nodes, FeedLeaf operation n) :
    FeedWork feedRange operation (children.take i ++ (nodes ++ children.drop (i + 1))) := by
  have split := split_at here
  generalize children.take i = before at split ⊢
  generalize children.drop (i + 1) = after at split ⊢
  subst split
  obtain ⟨left, right⟩ := forall_mem_append.mp work.leaf
  refine ⟨?_, fills.inOrder work.ascending, fun e => ?_⟩
  · exact forall_mem_append.mpr
      ⟨left, forall_mem_append.mpr ⟨leaf, (forall_mem_cons.mp right).2⟩⟩
  · have owned := work.owned e
    refine ⟨fun h => owned.mp (fills.owned_of h), fun h => ?_⟩
    exact (fills.owned_iff h.2).mpr (owned.mpr h)

theorem rotates_feedWork (feed : operation.isChangeFeed = true) {children' : List Request}
    {t : Turn Request} (work : FeedWork feedRange operation children)
    (turn : Rotates Poll.Complete children t children') :
    FeedWork feedRange operation children' := by
  cases turn with
  | @stayed w _ i child _ here _ =>
    have leaf := work.leaf child (mem_of_getElem? here)
    have leaf' := (leaf.polled feed w).1
    obtain ⟨range, slice, _⟩ := leaf.slice
    rw [set_at here]
    exact work.replace here (refills_kept slice w) (by simpa using leaf')
  | @drained w _ i child _ here done =>
    exact absurd done ((work.leaf child (mem_of_getElem? here)).polled feed w).2
  | @replaced w _ nodes i child complete here split =>
    have leaf := work.leaf child (mem_of_getElem? here)
    obtain ⟨range, cuts, slice, exact, rfl⟩ := poll_split_cuts complete split
    rw [append_assoc]
    refine work.replace here (refills_cuts slice exact _ _) (forall_mem_map.mpr fun c hc => ?_)
    have same := leaf.runs
    rw [same]
    exact feedLeaf_piece operation _ (intersectFeedRanges_some (exact.piece c hc)).1

end Running

/-! ## Saving and resuming -/

theorem mergeSnapshotLoop_ok (total : Nat) : ∀ {children : List Request} (idx : Nat),
    (∀ c ∈ children, c.feedRange.isSome = true) → (∀ c ∈ children, c.state ≠ .drained) →
    mergeSnapshotLoop total idx children =
      .ok ((activeOf children).map SavedActiveToken.toRanged)
  | [], _, _, _ => rfl
  | c :: rest, idx, sliced, live => by
    obtain ⟨range, slice⟩ := Option.isSome_iff_exists.mp (sliced c (.head _))
    have later := mergeSnapshotLoop_ok total (idx + 1)
      (fun d hd => sliced d (.tail _ hd))
      (fun d hd => live d (.tail _ hd))
    have feed : PipelineNode.feedRange c = some range := slice
    unfold mergeSnapshotLoop
    rw [feed]
    simp only [snapshotState_live (live c (.head _)), bind, Except.bind, intoChildContribution, later]
    cases carried : c.state.continuation <;>
      simp [activeOf, slice, carried, SavedActiveToken.toRanged, explicitRange]

theorem validateUnorderedMergeTokens_toRanged {tokens : List SavedActiveToken}
    (saved : WellSaved tokens) :
    validateUnorderedMergeTokens none (tokens.map SavedActiveToken.toRanged) = .ok tokens :=
  parseEntries_toRanged _ (fun min max proper => if_neg (by grind)) none saved (by simp)

section Resuming

variable {feedRange : FeedRange} {base : CosmosOperation} {start : Option ChangeFeedStartFrom}

theorem startedAt_spec (base : CosmosOperation) (start : Option ChangeFeedStartFrom) :
    (base.startedAt start).startedAt start = base.startedAt start ∧
      (base.changeFeedStart = none → (base.startedAt start).changeFeedStart = start) ∧
      (base.startedAt start).isChangeFeed = base.isChangeFeed := by
  cases start with
  | none => exact ⟨rfl, id, rfl⟩
  | some marker => cases marker <;> exact ⟨rfl, fun _ => rfl, rfl⟩

variable {operation again : CosmosOperation} {self : UnorderedMerge Request}

theorem FeedWork.snapshot (work : FeedWork feedRange operation self.children)
    (proper : feedRange.minInclusive < feedRange.maxExclusive)
    (inSpace : feedRange.minInclusive < .MAX) :
    mergeSnapshotState self = .ok (.unorderedMerge
      ((activeOf self.children).map SavedActiveToken.toRanged) self.startMarker) := by
  have some_ : self.children.isEmpty = false := by
    obtain ⟨p, hp, _⟩ := (work.owned _).mpr ⟨⟨le_refl _, proper⟩, inSpace⟩
    obtain ⟨n, hn, _⟩ := mem_ledger.mp hp
    cases h : self.children with
    | nil => simp [h] at hn
    | cons => rfl
  have sliced : ∀ c ∈ self.children, c.feedRange.isSome = true := by
    intro c hc
    obtain ⟨range, slice, _⟩ := (work.leaf c hc).slice
    rw [slice]
    rfl
  unfold mergeSnapshotState
  rw [some_, if_neg (by simp), mergeSnapshotLoop_ok _ 0 sliced fun c hc => (work.leaf c hc).live]
  rfl

theorem FeedWork.resume {children : List Request}
    {m : ContainerRoutingMap} (work : FeedWork feedRange operation children) (complete : m.Valid)
    (proper : feedRange.minInclusive < feedRange.maxExclusive)
    (inSpace : feedRange.minInclusive < .MAX) (same : again.startedAt start = operation) :
    ∃ nodes, buildUnorderedMerge feedRange (some m) again (some (.unorderedMerge
        ((activeOf children).map SavedActiveToken.toRanged) start)) =
          .ok (.unorderedMerge nodes start) ∧
      FeedWork feedRange operation nodes ∧
      ∀ e, ownersAt (ledger nodes) e = ownersAt (ledger children) e := by
  have saved := activeOf_wellSaved (fun c hc => (work.leaf c hc).slice) work.ascending
  obtain ⟨nodes, built, resumed, owners⟩ :=
    mergeOver_ok complete proper inSpace operation saved start
  refine ⟨nodes, ?_, resumed, fun e => ?_⟩
  · simp only [buildUnorderedMerge, validateUnorderedMergeTokens_toRanged saved,
      same, bind, Except.bind, built]
  · rw [owners e, ownersAt_activeOf]
    by_cases held : feedRange.span.Has e ∧ e < .MAX
    · obtain ⟨p, hp, has⟩ := (work.owned e).mpr held
      rw [if_pos held, ownersAt_eq_singleton work.ascending (mem_ownersAt.mpr ⟨p, hp, has, rfl⟩)]
      cases p.2 <;> rfl
    · rw [if_neg held, ownersAt_eq_nil.mpr (mt (work.owned e).mp held)]

/-- The merges a program can hold for a change feed of `base` from `start`: built fresh or
from a snapshot over a complete topology, with or without the start position repeated,
then any number of calls in which every refreshed topology is complete. -/
inductive FeedReachable (feedRange : FeedRange) (base : CosmosOperation)
    (start : Option ChangeFeedStartFrom) : UnorderedMerge Request → Prop
  | built {m : ContainerRoutingMap} {children : List Request}
    {marker : Option ChangeFeedStartFrom} (valid : m.Valid)
    (made : buildUnorderedMerge feedRange (some m) (base.startedAt start) none =
      .ok (.unorderedMerge children marker)) :
    FeedReachable feedRange base start ⟨children, 0, marker⟩
  | called {self : UnorderedMerge Request} {answers : List Poll}
    (before : FeedReachable feedRange base start self) (complete : ∀ w ∈ answers, w.Complete) :
    FeedReachable feedRange base start (mergeNextPage answers self).merge
  | resumed {self : UnorderedMerge Request} {S : PipelineNodeState} {again : CosmosOperation}
    {m : ContainerRoutingMap} {children : List Request} {marker : Option ChangeFeedStartFrom}
    (before : FeedReachable feedRange base start self) (saved : mergeSnapshotState self = .ok S)
    (repeated : again = base ∨ again = base.startedAt start) (valid : m.Valid)
    (made : buildUnorderedMerge feedRange (some m) again (some S) =
      .ok (.unorderedMerge children marker)) :
    FeedReachable feedRange base start ⟨children, 0, marker⟩

theorem startedAt_repeated (repeated : again = base ∨ again = base.startedAt start) :
    again.startedAt start = base.startedAt start := by
  rcases repeated with rfl | rfl
  · rfl
  · exact (startedAt_spec base start).1

theorem feedReachable_work (feed : base.isChangeFeed = true) (unstarted : base.changeFeedStart = none)
    (reached : FeedReachable feedRange base start self) :
    (feedRange.minInclusive < feedRange.maxExclusive ∧ feedRange.minInclusive < .MAX) ∧
      FeedWork feedRange (base.startedAt start) self.children ∧ self.startMarker = start := by
  induction reached with
  | built valid made =>
    obtain ⟨proper, inSpace⟩ := mergeOver_inSpace valid made
    obtain ⟨nodes, built, work, _⟩ := mergeOver_ok valid proper inSpace (base.startedAt start)
      ⟨by simp, by simp, List.Pairwise.nil⟩ (base.startedAt start).changeFeedStart
    cases built.symm.trans made
    exact ⟨⟨proper, inSpace⟩, work, (startedAt_spec base start).2.1 unstarted⟩
  | @called self answers _ complete ih =>
    obtain ⟨inside, work, marker⟩ := ih
    refine ⟨inside, ?_, (mergeNextPage_startMarker answers self).trans marker⟩
    exact (mergeNextPage_rotates complete).invariant
      (rotates_feedWork ((startedAt_spec base start).2.2.trans feed)) work
  | @resumed self S again m children marker _ saved repeated valid made ih =>
    obtain ⟨⟨proper, inSpace⟩, work, started⟩ := ih
    rw [work.snapshot proper inSpace, started] at saved
    cases saved
    obtain ⟨nodes, built, resumed, _⟩ :=
      work.resume valid proper inSpace (startedAt_repeated repeated)
    cases built.symm.trans made
    exact ⟨⟨proper, inSpace⟩, resumed, rfl⟩

/-- **A change feed resumes in place.**  For every merge a change feed can hold and every
complete topology `m`: the snapshot and the resumed pipeline exist, its leaves run the
feed's operation from its start position, come in order and own exactly the feed range,
and every key has one leaf before and after, with the same server token or none. -/
theorem change_feed_resumes_in_place (feed : base.isChangeFeed = true)
    (unstarted : base.changeFeedStart = none) {self : UnorderedMerge Request}
    (reached : FeedReachable feedRange base start self) {m : ContainerRoutingMap}
    (complete : m.Valid) {again : CosmosOperation}
    (repeated : again = base ∨ again = base.startedAt start) :
    ∃ S P, mergeSnapshotState self = .ok S ∧
      buildUnorderedMerge feedRange (some m) again (some S) = .ok P ∧
      (∀ n ∈ P.leaves, n.feedRange.isSome = true ∧ n.operation = base.startedAt start) ∧
      Ascending (ledger P.leaves) ∧
      (∀ e, e < .MAX → (Owned (ledger P.leaves) e ↔ feedRange.span.Has e)) ∧
      ∀ e, e < .MAX → feedRange.span.Has e → ∃ token : Option String,
        ownersAt (ledger self.children) e = [token] ∧ ownersAt (ledger P.leaves) e = [token] := by
  obtain ⟨⟨proper, inSpace⟩, work, started⟩ := feedReachable_work feed unstarted reached
  obtain ⟨nodes, built, resumed, owners⟩ :=
    work.resume complete proper inSpace (startedAt_repeated repeated)
  have saved := work.snapshot proper inSpace
  rw [started] at saved
  refine ⟨_, _, saved, built, ?_, resumed.ascending, ?_, ?_⟩
  · intro n hn
    obtain ⟨range, slice, _⟩ := (resumed.leaf n hn).slice
    exact ⟨by rw [slice]; rfl, (resumed.leaf n hn).runs⟩
  · intro e below
    exact (resumed.owned e).trans (and_iff_left below)
  · intro e below held
    obtain ⟨p, hp, has⟩ := (work.owned e).mpr ⟨held, below⟩
    have before := ownersAt_eq_singleton work.ascending (mem_ownersAt.mpr ⟨p, hp, has, rfl⟩)
    exact ⟨p.2, before, (owners e).trans before⟩

end Resuming

/-- Its merge over two partitions after the first has answered with the token `t`. -/
def wholeFeedMerge : UnorderedMerge Request :=
  let made := buildUnorderedMerge .full (some .twoRangesMap) (wholeFeed.startedAt (some .now)) none
  let gone : Except CosmosError CosmosResponse := .error ⟨⟨410, some 1002⟩, "gone"⟩
  (mergeNextPage [⟨.ok ⟨[], none, some "t"⟩, gone, none⟩]
    ⟨(made.toOption.map Pipeline.leaves).getD [], 0, some .now⟩).merge

theorem wholeFeedMerge_reachable : FeedReachable .full wholeFeed (some .now) wholeFeedMerge := by
  refine .called (.built (m := .twoRangesMap) ?_ rfl) ?_
  · exact twoRangesMap_valid
  · intro w hw m topology
    rw [mem_singleton.mp hw] at topology
    exact absurd topology (by simp)

/-- After a split of the other partition the key `10` still has the token `t`, and the key
`90` has none and starts from now. -/
theorem wholeFeed_resumes :
    ∃ S P, mergeSnapshotState wholeFeedMerge = .ok S ∧
      buildUnorderedMerge .full (some .splitMap) wholeFeed (some S) = .ok P ∧
      ownersAt (ledger P.leaves) ⟨[0x10]⟩ = [some "t"] ∧
      ownersAt (ledger P.leaves) ⟨[0x90]⟩ = [none] ∧
      ∀ n ∈ P.leaves, n.operation = wholeFeed.startedAt (some .now) := by
  obtain ⟨S, P, saved, built, leaves, _, _, same⟩ := change_feed_resumes_in_place rfl rfl
    wholeFeedMerge_reachable
    (built_valid splitMap_built) (.inl rfl)
  obtain ⟨t, before, after⟩ := same ⟨[0x10]⟩ (by decide) (by decide)
  obtain ⟨u, before', after'⟩ := same ⟨[0x90]⟩ (by decide) (by decide)
  have first : ownersAt (ledger wholeFeedMerge.children) ⟨[0x10]⟩ = [some "t"] := by decide
  have second : ownersAt (ledger wholeFeedMerge.children) ⟨[0x90]⟩ = [none] := by decide
  exact ⟨S, P, saved, built, after.trans (before.symm.trans first),
    after'.trans (before'.symm.trans second), fun n hn => (leaves n hn).2⟩

end AzureSdk.Cosmos.Dataflow
