/-
# Cosmos.Dataflow.Resume — a resumed query has the work that was left

A snapshot keeps only a cursor and the slices in progress, and resuming cuts those
along a topology that may have split and merged since.  `resume_preserves_status`
says that the work status of every key survives that.

The argument has three parts: what a snapshot saves of a workload
(`validateSavedSnapshot_workload`), what the walk over the saved entries emits inside
one partition (`walkTokens_sweep`, an instance of the library's `Sweep`), and how the
partitions of a feed range and the feed ranges of a plan fit together
(`planResume_ok`).
-/
import AzureSdk.Cosmos.Dataflow.Workload

namespace AzureSdk.Cosmos.Dataflow

open Theory Theory.Interval List SavedActiveToken FeedRange Std

/-! ## What a snapshot saves -/

/-- The bounds of a range without its logical key: what a token keeps of it. -/
def explicitRange (r : FeedRange) : FeedRange := ⟨none, r.minInclusive, r.maxExclusive, r.ordered⟩

/-- The slices in progress with their continuations. -/
def activeOf (children : List Request) : List SavedActiveToken :=
  children.filterMap fun n => n.feedRange.bind fun range =>
    n.state.continuation.map fun token => ⟨explicitRange range, token⟩

/-- An entry as a snapshot writes it. -/
def SavedActiveToken.toRanged (t : SavedActiveToken) : RangedToken :=
  ⟨t.range.minInclusive.toHex, t.range.maxExclusive.toHex, t.serverContinuation⟩

/-- Saved entries in the order a snapshot needs: nonempty explicit ranges, ascending. -/
structure WellSaved (tokens : List SavedActiveToken) : Prop where
  explicit : ∀ t ∈ tokens, t.range.partitionKey = none
  proper : ∀ t ∈ tokens, t.range.minInclusive < t.range.maxExclusive
  ascending : tokens.Pairwise fun a b => a.range.span.Before b.range.span

variable {t : SavedActiveToken} {range : FeedRange}

theorem WellSaved.tail {tokens : List SavedActiveToken}
    (saved : WellSaved (t :: tokens)) : WellSaved tokens :=
  ⟨fun u hu => saved.explicit u (.tail _ hu),
    fun u hu => saved.proper u (.tail _ hu),
    (pairwise_cons.mp saved.ascending).2⟩

theorem notOverlapping {prev : Option FeedRange} {start : EffectivePartitionKey}
    (after : ∀ p, prev = some p → p.maxExclusive ≤ start) :
    prev.filter (fun prev => decide (start < prev.maxExclusive)) = none := by
  rw [Option.filter_eq_none_iff]
  intro p hp overlaps
  grind

/-- The entries of a snapshot are read back, if entries that are not empty pass the check of their
bounds. -/
theorem parseEntries_toRanged
    {bounds : EffectivePartitionKey → EffectivePartitionKey → Result Unit} (overlaps : String)
    (pass : ∀ min max, min < max → bounds min max = .ok ()) :
    ∀ (prev : Option FeedRange) {tokens : List SavedActiveToken}, WellSaved tokens →
    (∀ p, prev = some p → ∀ t ∈ tokens, p.maxExclusive ≤ t.range.minInclusive) →
    parseEntries bounds overlaps prev (tokens.map toRanged) = .ok tokens
  | _, [], _, _ => rfl
  | prev, t :: tokens, saved, after => by
    have first := (pairwise_cons.mp saved.ascending).1
    have rest := parseEntries_toRanged overlaps pass (some t.range) saved.tail
      (fun p hp u hu => by cases hp; exact first u hu)
    simp only [map_cons, parseEntries, toRanged, EffectivePartitionKey.ofHex_toHex,
      pass _ _ (saved.proper t (.head _)), new_self (saved.explicit t (.head _)), bind, Except.bind]
    rw [notOverlapping fun p hp => after p hp t (.head _)]
    simp only [rest]

theorem parseSavedTokens_toRanged {tokens : List SavedActiveToken} (saved : WellSaved tokens) :
    parseSavedTokens none (tokens.map toRanged) = .ok tokens :=
  parseEntries_toRanged _ (fun min max proper => (if_neg (by grind)).trans (if_neg (by grind))) none
    saved (by simp)

theorem snapshotState_live {c : Request} (live : c.state ≠ .drained) :
    PipelineNode.snapshotState c = .ok (.request c.state.continuation) := by
  change Request.snapshotState c = _
  unfold Request.snapshotState
  cases state : c.state with
  | drained => exact absurd state live
  | initial => rfl
  | continuing token => rfl

/-- The loop of the snapshot over live leaves: the first slice's start and the slices in
progress. -/
theorem drainSnapshotLoop_ok {total : Nat} : ∀ {children : List Request} {idx : Nat}
    {cursor : Option String} {tokens : List RangedToken},
    (∀ c ∈ children, c.feedRange.isSome = true) → (∀ c ∈ children, c.state ≠ .drained) →
    drainSnapshotLoop total idx cursor tokens children =
      .ok (cursor.or ((children.head?.bind (·.feedRange)).map (·.minInclusive.toHex)),
        tokens ++ (activeOf children).map toRanged)
  | [], _, cursor, _, _, _ => by simp [drainSnapshotLoop, activeOf]
  | c :: rest, idx, cursor, tokens, sliced, live => by
    obtain ⟨range, slice⟩ := Option.isSome_iff_exists.mp (sliced c (.head _))
    have alive := live c (.head _)
    have slicedRest := fun d hd => sliced d (.tail _ hd)
    have liveRest := fun d hd => live d (.tail _ hd)
    have feed : PipelineNode.feedRange c = some range := slice
    have settled : ∀ hex : String, ∀ later, (cursor.or (some hex)).or later = cursor.or (some hex) := by
      intro hex later
      cases cursor <;> rfl
    unfold drainSnapshotLoop
    rw [feed]
    simp only [snapshotState_live alive, bind, Except.bind, intoChildContribution]
    rw [drainSnapshotLoop_ok slicedRest liveRest, settled]
    cases carried : c.state.continuation <;>
      simp [activeOf, slice, carried, toRanged, explicitRange]

theorem mem_activeOf {children : List Request} :
    t ∈ activeOf children ↔ ∃ n ∈ children, ∃ range, n.feedRange = some range ∧
      ∃ token, n.state.continuation = some token ∧ t = ⟨explicitRange range, token⟩ := by
  simp only [activeOf, mem_filterMap, Option.bind_eq_some_iff, Option.map_eq_some_iff,
    @eq_comm _ t]

section Saved

variable {scope : EffectivePartitionKey → Prop} {children : List Request}

theorem activeOf_wellSaved (sliced : ∀ c ∈ children, ∃ range, c.feedRange = some range ∧
      range.minInclusive < range.maxExclusive) (ascending : Ascending (ledger children)) :
    WellSaved (activeOf children) := by
  refine ⟨?_, ?_, ?_⟩
  · intro t ht
    obtain ⟨n, _, range, _, token, _, rfl⟩ := mem_activeOf.mp ht
    rfl
  · intro t ht
    obtain ⟨n, hn, range, slice, token, _, rfl⟩ := mem_activeOf.mp ht
    obtain ⟨range', slice', proper⟩ := sliced n hn
    rw [slice, Option.some.injEq] at slice'
    exact slice' ▸ proper
  · unfold Ascending ledger at ascending
    unfold activeOf
    rw [pairwise_filterMap] at ascending ⊢
    refine ascending.imp fun {a b} before t ht u hu => ?_
    obtain ⟨range, slice, ht⟩ := Option.bind_eq_some_iff.mp ht
    obtain ⟨token, _, rfl⟩ := Option.map_eq_some_iff.mp ht
    obtain ⟨range', slice', hu⟩ := Option.bind_eq_some_iff.mp hu
    obtain ⟨token', _, rfl⟩ := Option.map_eq_some_iff.mp hu
    exact before _ (by rw [slice]; rfl) _ (by rw [slice']; rfl)

theorem Workload.wellSaved (work : Workload scope children) : WellSaved (activeOf children) :=
  activeOf_wellSaved work.sliced work.ascending

variable {first : Request} {range : FeedRange} {rest : List Request}

section

variable (work : Workload scope (first :: rest))

include work

theorem Workload.first_le (slice : first.feedRange = some range)
    {e : EffectivePartitionKey} (owned : Owned (ledger (first :: rest)) e) :
    range.minInclusive ≤ e := by
  have ascending := work.ascending
  rw [ledger_cons slice, ascending_cons] at ascending
  rw [ledger_cons slice, owned_cons] at owned
  rcases owned with here | ⟨p, hp, has⟩
  · exact here.1
  · exact le_trans range.ordered (le_trans (ascending.1 p hp) has.1)

/-- A workload's snapshot: the start of its first slice and its slices in progress. -/
theorem drainSnapshotState_workload (slice : first.feedRange = some range) :
    drainSnapshotState (first :: rest) = .ok (.sequentialDrain range.minInclusive.toHex
      ((activeOf (first :: rest)).map toRanged)) := by
  have sliced : ∀ c ∈ first :: rest, c.feedRange.isSome = true := by
    intro c hc
    obtain ⟨r, hr, _⟩ := work.sliced c hc
    rw [hr]
    rfl
  unfold drainSnapshotState
  rw [drainSnapshotLoop_ok sliced work.live]
  simp [slice, bind, Except.bind]

theorem validateSavedSnapshot_workload (slice : first.feedRange = some range) :
    validateSavedSnapshot range.minInclusive.toHex
      ((activeOf (first :: rest)).map toRanged) =
      .ok ⟨range.minInclusive, activeOf (first :: rest)⟩ := by
  have clear : (activeOf (first :: rest)).head?.filter
      (fun t => decide (t.range.minInclusive < range.minInclusive)) = none := by
    rw [Option.filter_eq_none_iff]
    intro t ht past
    obtain ⟨n, hn, slot, owned, _, _, rfl⟩ := mem_activeOf.mp (mem_of_mem_head? ht)
    obtain ⟨slot', owned', proper⟩ := work.sliced n hn
    rw [owned, Option.some.injEq] at owned'
    subst owned'
    have above := work.first_le slice (e := slot.minInclusive)
      ⟨_, mem_ledger.mpr ⟨n, hn, slot, owned, rfl⟩, le_refl _, proper⟩
    simp only [explicitRange] at past
    grind
  unfold validateSavedSnapshot
  rw [parseSavedTokens_toRanged work.wellSaved]
  simp only [EffectivePartitionKey.ofHex_toHex, bind, Except.bind]
  rw [clear]

end

end Saved

/-! ## The walk over the saved entries inside one partition -/

/-- The saved entries as a ledger of themselves. -/
def savedLedger (entries : List (SavedActiveToken × Nat)) :
    Ledger EffectivePartitionKey (SavedActiveToken × Nat) :=
  entries.map fun t => (t.1.range.span, t)

/-- The emitted pieces as a ledger of the entries they continue. -/
def pieceLedger (pieces : List ResumePiece) :
    Ledger EffectivePartitionKey (Option (SavedActiveToken × Nat)) :=
  pieces.map fun p => (p.range.span, p.entry)

/-- The leaf of a piece is live, owns the piece's range and carries its entry's
continuation. -/
structure ResumePiece.Sound (p : ResumePiece) : Prop where
  slice : p.leaf.feedRange = some p.range
  live : p.leaf.state ≠ .drained
  carries : p.leaf.state.continuation = p.entry.map fun t => t.1.serverContinuation

section Walk

variable {operation : CosmosOperation} {resolvedRange : ResolvedRange}
  {lo hi leafMax : EffectivePartitionKey}

theorem gapPiece_ok (operation : CosmosOperation) (resolvedRange : ResolvedRange)
    (lo hi : EffectivePartitionKey) :
    ∃ pieces, gapPiece operation resolvedRange lo hi = .ok pieces ∧
      pieceLedger pieces = gapTo lo hi ∧ ∀ p ∈ pieces, p.Sound := by
  unfold gapPiece gapTo
  by_cases room : lo < hi
  · rw [if_pos room, if_pos room, new_ok (le_of_lt room)]
    refine ⟨_, rfl, rfl, fun p hp => ?_⟩
    rw [mem_singleton.mp hp]
    exact ⟨pieceLeaf_feedRange _ _ _, Request.new_live _ _ _, Request.new_continuation _ _ _⟩
  · rw [if_neg room, if_neg room]
    exact ⟨[], rfl, rfl, by simp⟩

/-- The walk is a sweep.  Past the end of the partition the cursor stops there, and no
later entry reaches below it. -/
theorem walkTokens_sweep (operation : CosmosOperation) (resolvedRange : ResolvedRange) :
    ∀ {entries : List (SavedActiveToken × Nat)}
    {cursor : EffectivePartitionKey},
    entries.Pairwise (fun a b => a.1.range.span.Before b.1.range.span) →
    (∀ t ∈ entries, t.1.range.minInclusive < t.1.range.maxExclusive) →
    (cursor < leafMax ∨
      leafMax ≤ cursor ∧ ∀ t ∈ entries, leafMax ≤ t.1.range.minInclusive) →
    ∃ pieces, walkTokens operation resolvedRange leafMax cursor entries = .ok pieces ∧
      Sweep leafMax cursor (savedLedger entries) (pieceLedger pieces) ∧ ∀ p ∈ pieces, p.Sound
  | [], cursor, _, _, _ => by
    obtain ⟨pieces, made, gap, sound⟩ := gapPiece_ok operation resolvedRange cursor leafMax
    exact ⟨pieces, made, gap ▸ .rest, sound⟩
  | (entry, idx) :: rest, cursor, ordered, proper, room => by
    obtain ⟨first, orderedRest⟩ := pairwise_cons.mp ordered
    have properRest := fun t ht => proper t (.tail _ ht)
    have wide := proper (entry, idx) (.head _)
    have later : ∀ t ∈ rest, entry.range.maxExclusive ≤ t.1.range.minInclusive := first
    unfold walkTokens
    by_cases passed : entry.range.maxExclusive ≤ cursor
    · rw [if_pos passed]
      have roomRest : cursor < leafMax ∨
          leafMax ≤ cursor ∧ ∀ t ∈ rest, leafMax ≤ t.1.range.minInclusive :=
        room.imp_right fun h => ⟨h.1, fun t ht => h.2 t (.tail _ ht)⟩
      obtain ⟨pieces, walked, sweep, sound⟩ :=
        walkTokens_sweep operation resolvedRange orderedRest properRest roomRest
      exact ⟨pieces, walked, .skip (.inl passed) sweep, sound⟩
    rw [if_neg passed]
    by_cases beyond : leafMax ≤ entry.range.minInclusive
    · rw [if_pos beyond]
      obtain ⟨pieces, made, gap, sound⟩ := gapPiece_ok operation resolvedRange cursor leafMax
      refine ⟨pieces, made, Sweep.skipAll ?_ (gap ▸ .rest), sound⟩
      refine forall_mem_map.mpr (forall_mem_cons.mpr ⟨.inr beyond, fun t ht => .inr ?_⟩)
      change leafMax ≤ t.1.range.minInclusive
      grind
    rw [if_neg beyond]
    have short : cursor < leafMax := by
      rcases room with short | ⟨_, above⟩
      · exact short
      · exact absurd (above (entry, idx) (.head _)) beyond
    -- the entry reaches into what is left of the partition, from `lo` up to `top`
    generalize loEq : (if cursor < entry.range.minInclusive then entry.range.minInclusive
      else cursor) = lo
    generalize topEq : (if entry.range.maxExclusive < leafMax then entry.range.maxExclusive
      else leafMax) = top
    have inner : top ≤ entry.range.maxExclusive := by grind
    have full : entry.range.maxExclusive ≤ top ∨ leafMax ≤ top := by grind
    have proper : lo < top := by grind
    have roomRest : top < leafMax ∨
        leafMax ≤ top ∧ ∀ t ∈ rest, leafMax ≤ t.1.range.minInclusive := by
      by_cases reached : leafMax ≤ top
      · exact .inr ⟨reached, fun t ht => by have := later t ht; grind⟩
      · exact .inl (by grind)
    obtain ⟨pieces, walked, sweep, sound⟩ :=
      walkTokens_sweep operation resolvedRange orderedRest properRest roomRest
    obtain ⟨before, made, gap, fresh⟩ := gapPiece_ok operation resolvedRange cursor lo
    dsimp only
    rw [made, new_ok (le_of_lt proper), walked]
    refine ⟨_, rfl, ?_, forall_mem_append.mpr ⟨fresh, forall_mem_cons.mpr
      ⟨⟨pieceLeaf_feedRange _ _ _, Request.new_live _ _ _, Request.new_continuation _ _ _⟩, sound⟩⟩⟩
    rw [pieceLedger, map_append, ← pieceLedger, gap]
    refine .overlap (s := entry.range.span) ?_ (by grind) ?_ proper inner (by grind) full
      (forall_mem_map.mpr later) sweep
    · change entry.range.minInclusive ≤ lo
      grind
    · change lo ≤ cursor ∨ lo ≤ entry.range.minInclusive
      grind

end Walk

/-! ## Partitions and feed ranges together -/

/-- What resuming emits for the keys `held`: from the cursor on every key once, with the
saved entry that holds it, and every piece inside the entry it continues. -/
structure Resumed (saved : SavedSnapshot) (held : EffectivePartitionKey → Prop)
    (pieces : List ResumePiece) : Prop where
  sound : ∀ p ∈ pieces, p.Sound
  proper : ∀ p ∈ pieces, p.range.minInclusive < p.range.maxExclusive
  ascending : Ascending (pieceLedger pieces)
  owner : ∀ e, held e → saved.cursor ≤ e →
    (ownersAt (savedLedger saved.activeTokens.zipIdx) e).head? ∈ ownersAt (pieceLedger pieces) e
  inside : ∀ e, Owned (pieceLedger pieces) e → held e ∧ saved.cursor ≤ e
  entry : ∀ p ∈ pieces, ∀ t, p.entry = some t →
    t ∈ saved.activeTokens.zipIdx ∧ p.range.span.Within t.1.range.span

variable {pieces : List ResumePiece}

theorem mem_pieceLedger {q} : q ∈ pieceLedger pieces ↔ ∃ p ∈ pieces, (p.range.span, p.entry) = q :=
  mem_map

theorem pieceLedger_flatMap {γ : Type} (xs : List γ) (f : γ → List ResumePiece) :
    pieceLedger (xs.flatMap f) = xs.flatMap fun x => pieceLedger (f x) := by
  simp [pieceLedger, map_flatMap]

section Together

variable {saved : SavedSnapshot}

theorem Resumed.congr {held held' : EffectivePartitionKey → Prop} {pieces : List ResumePiece}
    (resumed : Resumed saved held pieces) (same : ∀ e, held e ↔ held' e) :
    Resumed saved held' pieces := by
  have : held = held' := funext fun e => propext (same e)
  exact this ▸ resumed

/-- Parts whose spans come in order resume together what each resumes. -/
theorem Resumed.flatMap {γ : Type} {xs : List γ} (span : γ → Span EffectivePartitionKey)
    {held : γ → EffectivePartitionKey → Prop} {f : γ → List ResumePiece}
    (ordered : xs.Pairwise fun x y => (span x).Before (span y))
    (within : ∀ x ∈ xs, ∀ q ∈ pieceLedger (f x), q.1.Within (span x))
    (each : ∀ x ∈ xs, Resumed saved (held x) (f x)) :
    Resumed saved (fun e => ∃ x ∈ xs, held x e) (xs.flatMap f) where
  sound p hp := by
    obtain ⟨x, hx, hp⟩ := mem_flatMap.mp hp
    exact (each x hx).sound p hp
  proper p hp := by
    obtain ⟨x, hx, hp⟩ := mem_flatMap.mp hp
    exact (each x hx).proper p hp
  ascending := by
    rw [pieceLedger_flatMap]
    exact ascending_flatMap span _ ordered within fun x hx => (each x hx).ascending
  owner e here above := by
    obtain ⟨x, hx, here⟩ := here
    rw [pieceLedger_flatMap, ownersAt_flatMap]
    exact mem_flatMap.mpr ⟨x, hx, (each x hx).owner e here above⟩
  inside e owned := by
    rw [pieceLedger_flatMap] at owned
    obtain ⟨x, hx, owned⟩ := owned_flatMap.mp owned
    obtain ⟨here, above⟩ := (each x hx).inside e owned
    exact ⟨⟨x, hx, here⟩, above⟩
  entry p hp := by
    obtain ⟨x, hx, hp⟩ := mem_flatMap.mp hp
    exact (each x hx).entry p hp

theorem WellSaved.pairs {tokens : List SavedActiveToken} (well : WellSaved tokens) :
    tokens.zipIdx.Pairwise (fun a b => a.1.range.span.Before b.1.range.span) ∧
      ∀ t ∈ tokens.zipIdx, t.1.range.minInclusive < t.1.range.maxExclusive := by
  refine ⟨?_, fun t ht => well.proper t.1 ?_⟩
  · have ordered := well.ascending
    rw [← zipIdx_map_fst 0 tokens, pairwise_map] at ordered
    exact ordered
  · rw [← zipIdx_map_fst 0 tokens]
    exact mem_map_of_mem ht

/-- One partition: nothing if it ends at or before the cursor, else a sweep from the
cursor or from its start. -/
theorem resumePartition_ok (operation : CosmosOperation) (well : WellSaved saved.activeTokens)
    {feedRange : FeedRange} {c : ResolvedRange × FeedRange}
    (piece : intersectFeedRanges c.1.range feedRange = some c.2) :
    ∃ pieces, resumePartition operation saved feedRange c.1 = .ok pieces ∧
      Resumed saved c.2.span.Has pieces ∧ ∀ q ∈ pieceLedger pieces, q.1.Within c.2.span := by
  have wide := (intersectFeedRanges_some piece).1
  unfold resumePartition
  rw [clipResolved_ok piece]
  simp only [bind, Except.bind]
  by_cases passed : c.2.maxExclusive ≤ saved.cursor
  · rw [if_pos passed]
    refine ⟨[], rfl, ⟨by simp, by simp, List.Pairwise.nil, ?_, by simp [Owned, pieceLedger], by simp⟩,
      by simp [pieceLedger]⟩
    intro e held above
    have := held.2
    change e < c.2.maxExclusive at this
    grind
  rw [if_neg passed]
  generalize startEq : (if c.2.minInclusive < saved.cursor then saved.cursor
    else c.2.minInclusive) = start
  have room : start < c.2.maxExclusive := by grind
  have within : c.2.minInclusive ≤ start := by grind
  have above : saved.cursor ≤ start := by grind
  have least : ∀ e, c.2.minInclusive ≤ e → saved.cursor ≤ e → start ≤ e := by grind
  rw [new_ok (le_of_lt room)]
  obtain ⟨ordered, proper⟩ := well.pairs
  obtain ⟨pieces, walked, sweep, sound⟩ := walkTokens_sweep operation c.1 ordered proper
    (.inl room)
  have bounded := sweep.within
  have owners := sweep.ownersAt
  refine ⟨pieces, walked, ⟨sound, ?_, sweep.ascending, ?_, ?_, ?_⟩, ?_⟩
  · intro p hp
    exact (bounded _ (mem_pieceLedger.mpr ⟨p, hp, rfl⟩)).1
  · intro e held past
    have here : (Span.mk start c.2.maxExclusive).Has e := ⟨least e held.1 past, held.2⟩
    rw [owners, if_pos here]
    exact .head _
  · rintro e ⟨q, hq, has⟩
    obtain ⟨_, lower, upper⟩ := bounded q hq
    have from_ : start ≤ e := le_trans lower has.1
    refine ⟨⟨le_trans within from_, ?_⟩, le_trans above from_⟩
    exact lt_of_lt_of_le has.2 upper
  · intro p hp t ht
    obtain ⟨s, hs, inner⟩ := sweep.within_saved _ (mem_pieceLedger.mpr ⟨p, hp, rfl⟩) t ht
    obtain ⟨t', ht', same⟩ := mem_map.mp hs
    cases same
    exact ⟨ht', inner⟩
  · intro q hq
    obtain ⟨_, lower, upper⟩ := bounded q hq
    exact ⟨le_trans within lower, upper⟩

variable {m : ContainerRoutingMap} (complete : m.Valid)

include complete

theorem resumeFeedRange_ok (operation : CosmosOperation) (well : WellSaved saved.activeTokens)
    {r : FeedRange} (proper : r.minInclusive < r.maxExclusive) (inSpace : r.minInclusive < .MAX) :
    ∃ pieces, overFeedRange (some m) (resumePartition operation saved) r = .ok pieces ∧
      Resumed saved (fun e => r.span.Has e ∧ e < .MAX) pieces ∧
      ∀ q ∈ pieceLedger pieces, q.1.Within r.span := by
  obtain ⟨cuts, exact, f, made, each⟩ :=
    overFeedRange_ok complete proper inSpace (resumePartition_ok operation well)
  refine ⟨cuts.flatMap f, made, ?_, ?_⟩
  · have all := Resumed.flatMap (fun c : ResolvedRange × FeedRange => c.2.span) exact.ordered
      (fun c hc => (each c hc).2) (fun c hc => (each c hc).1)
    exact all.congr exact.has_iff
  · intro q hq
    rw [pieceLedger_flatMap] at hq
    obtain ⟨c, hc, hq⟩ := mem_flatMap.mp hq
    have inner := (each c hc).2 q hq
    have outer := (intersectFeedRanges_within (exact.piece c hc)).2
    exact ⟨le_trans outer.1 inner.1, le_trans inner.2 outer.2⟩

theorem resumeRanges_ok (saved : SavedSnapshot) {plan : QueryPlan} {operation : CosmosOperation}
    {ranges : List FeedRange} (well : WellSaved saved.activeTokens)
    (converted : planRanges plan operation = .ok ranges)
    (ordered : ranges.Pairwise fun a b => a.span.Before b.span)
    (proper : ∀ r ∈ ranges.filterMap (clipToScope operation.target),
      r.minInclusive < r.maxExclusive ∧ r.minInclusive < .MAX) :
    ∃ pieces, overQueryRanges plan (some m) operation (resumePartition operation saved) =
        .ok pieces ∧
      Resumed saved (Scope (ranges.filterMap (clipToScope operation.target))) pieces := by
  let g := emitted (overFeedRange (some m) (resumePartition operation saved))
  have each : ∀ r ∈ ranges.filterMap (clipToScope operation.target),
      overFeedRange (some m) (resumePartition operation saved) r = .ok (g r) ∧
      Resumed saved (fun e => r.span.Has e ∧ e < .MAX) (g r) ∧
      ∀ q ∈ pieceLedger (g r), q.1.Within r.span := fun r hr =>
    emitted_ok (resumeFeedRange_ok complete operation well (proper r hr).1 (proper r hr).2)
  refine ⟨_, overQueryRanges_ok converted fun r hr => (each r hr).1, ?_⟩
  have all := Resumed.flatMap span (clipped_pairwise ordered)
    (fun r hr => (each r hr).2.2) (fun r hr => (each r hr).2.1)
  refine all.congr fun e => ?_
  constructor
  · rintro ⟨r, hr, has, below⟩
    exact ⟨⟨r, hr, has⟩, below⟩
  · rintro ⟨⟨r, hr, has⟩, below⟩
    exact ⟨r, hr, has, below⟩

end Together

/-! ## The coverage check -/

theorem zipIdx_eq_of_snd {γ : Type} {xs : List γ} {t t' : γ × Nat} (ht : t ∈ xs.zipIdx)
    (ht' : t' ∈ xs.zipIdx) (same : t.2 = t'.2) : t = t' := by
  obtain ⟨x, i⟩ := t
  rw [mk_mem_zipIdx_iff_getElem?] at ht ht'
  cases same
  rw [ht, Option.some.injEq] at ht'
  rw [ht']

theorem mem_coverage {idx : Nat} : range ∈ coverage pieces idx ↔
      ∃ p ∈ pieces, ∃ t, p.entry = some t ∧ t.2 = idx ∧ p.range = range := by
  simp only [coverage, mem_map, mem_filter, beq_iff_eq, Option.map_eq_some_iff]
  constructor
  · rintro ⟨p, ⟨hp, t, ht, index⟩, rfl⟩
    exact ⟨p, hp, t, ht, index, rfl⟩
  · rintro ⟨p, hp, t, ht, index, rfl⟩
    exact ⟨p, ⟨hp, t, ht, index⟩, rfl⟩

section Coverage

variable {saved : SavedSnapshot} {held : EffectivePartitionKey → Prop}
  {pieces : List ResumePiece}

/-- A saved entry whose keys are all held at or after the cursor is covered. -/
theorem Resumed.covers (resumed : Resumed saved held pieces) (well : WellSaved saved.activeTokens)
    {t : SavedActiveToken × Nat} (ht : t ∈ saved.activeTokens.zipIdx)
    (reach : ∀ e, t.1.range.span.Has e → held e ∧ saved.cursor ≤ e) :
    rangeFullyCovered t.1.range (coverage pieces t.2) = true := by
  obtain ⟨ordered, proper⟩ := well.pairs
  have ascending : Ascending (savedLedger saved.activeTokens.zipIdx) := by
    unfold Ascending savedLedger
    rw [pairwise_map]
    exact ordered
  have covering : ∀ e, t.1.range.span.Has e →
      ∃ range ∈ coverage pieces t.2, range.span.Has e := by
    intro e has
    obtain ⟨here, above⟩ := reach e has
    have mine : t ∈ ownersAt (savedLedger saved.activeTokens.zipIdx) e :=
      mem_ownersAt.mpr ⟨_, mem_map_of_mem ht, has, rfl⟩
    have owner := resumed.owner e here above
    rw [ownersAt_eq_singleton ascending mine] at owner
    obtain ⟨q, hq, hasPiece, entry⟩ := mem_ownersAt.mp owner
    obtain ⟨p, hp, rfl⟩ := mem_pieceLedger.mp hq
    exact ⟨p.range, mem_coverage.mpr ⟨p, hp, t, entry, rfl, rfl⟩, hasPiece⟩
  obtain ⟨some_, member, _⟩ := covering t.1.range.minInclusive ⟨le_refl _, proper t ht⟩
  have filled : (coverage pieces t.2).isEmpty = false := by
    cases h : coverage pieces t.2 with
    | nil => simp [h] at member
    | cons => rfl
  unfold rangeFullyCovered
  rw [filled, if_neg (by simp)]
  refine coverWalk_of_covering (pairwise_map.mpr (pairwise_insertionSort _ _)) ?_ ?_
  · refine forall_mem_map.mpr fun range hrange => ?_
    have hrange := (mem_insertionSort _).mp hrange
    obtain ⟨p, hp, t', entry, index, rfl⟩ := mem_coverage.mp hrange
    obtain ⟨ht', within⟩ := resumed.entry p hp t' entry
    obtain rfl := zipIdx_eq_of_snd ht' ht index
    exact lt_of_lt_of_le (resumed.proper p hp) within.2
  · intro e lower upper
    obtain ⟨range, hrange, has⟩ := covering e ⟨lower, upper⟩
    exact ⟨range.span, mem_map_of_mem ((mem_insertionSort _).mpr hrange), has⟩

theorem checkCoverage_ok : ∀ {entries : List (SavedActiveToken × Nat)},
    (∀ t ∈ entries, rangeFullyCovered t.1.range (coverage pieces t.2) = true) →
      checkCoverage pieces entries = .ok ()
  | [], _ => rfl
  | (entry, idx) :: rest, covered => by
    rw [checkCoverage, if_pos (covered (entry, idx) (.head _))]
    exact checkCoverage_ok fun t ht => covered t (.tail _ ht)

end Coverage

/-! ## Before and after -/

theorem ownersAt_pieces (e : EffectivePartitionKey) (sound : ∀ p ∈ pieces, p.Sound) :
    ownersAt (ledger (pieces.map (·.leaf))) e =
      (ownersAt (pieceLedger pieces) e).map (Option.map fun t => t.1.serverContinuation) := by
  induction pieces with
  | nil => rfl
  | cons p pieces ih =>
    have here := sound p (.head _)
    have rest := ih fun q hq => sound q (.tail _ hq)
    rw [map_cons, ledger_cons here.slice, ownersAt_cons, rest]
    change _ = (ownersAt ((p.range.span, p.entry) :: pieceLedger pieces) e).map _
    rw [ownersAt_cons, here.carries]
    by_cases has : p.range.span.Has e <;> simp [has]

/-- Saved entries as a ledger of their continuations. -/
def tokenLedger (tokens : List SavedActiveToken) : Ledger EffectivePartitionKey String :=
  tokens.map fun t => (t.range.span, t.serverContinuation)

theorem ownersAt_activeOf (e : EffectivePartitionKey) : ∀ children : List Request,
    ownersAt (tokenLedger (activeOf children)) e = (ownersAt (ledger children) e).filterMap id
  | [] => rfl
  | c :: rest => by
    have later := ownersAt_activeOf e rest
    cases slice : c.feedRange with
    | none =>
      have same : activeOf (c :: rest) = activeOf rest := by simp [activeOf, slice]
      have skip : ledger (c :: rest) = ledger rest := by simp [ledger, slice]
      rw [same, skip, later]
    | some range =>
      rw [ledger_cons slice, ownersAt_cons]
      cases carried : c.state.continuation with
      | none =>
        have same : activeOf (c :: rest) = activeOf rest := by
          simp [activeOf, slice, carried]
        rw [same, later]
        by_cases has : range.span.Has e <;> simp [has]
      | some token =>
        have more : activeOf (c :: rest) = ⟨explicitRange range, token⟩ :: activeOf rest := by
          simp [activeOf, slice, carried]
        rw [more]
        change ownersAt ((range.span, token) :: tokenLedger (activeOf rest)) e = _
        rw [ownersAt_cons, later]
        by_cases has : range.span.Has e <;> simp [has]

theorem ownersAt_savedLedger (e : EffectivePartitionKey) : ∀ (tokens : List SavedActiveToken)
    (idx : Nat), (ownersAt (savedLedger (tokens.zipIdx idx)) e).map
      (fun t => t.1.serverContinuation) = ownersAt (tokenLedger tokens) e
  | [], _ => rfl
  | t :: tokens, idx => by
    have later := ownersAt_savedLedger e tokens (idx + 1)
    change (ownersAt ((t.range.span, (t, idx)) :: savedLedger (tokens.zipIdx (idx + 1))) e).map _ =
      ownersAt ((t.range.span, t.serverContinuation) :: tokenLedger tokens) e
    rw [ownersAt_cons, ownersAt_cons, ← later]
    by_cases has : t.range.span.Has e <;> simp [has]

/-- Resuming a workload's snapshot gives every key the owners it had. -/
theorem Resumed.owners_eq {scope : EffectivePartitionKey → Prop} {first : Request}
    {rest : List Request}
    (work : Workload scope (first :: rest)) (slice : first.feedRange = some range)
    (resumed : Resumed ⟨range.minInclusive, activeOf (first :: rest)⟩ scope pieces)
    (e : EffectivePartitionKey) :
    ownersAt (ledger (pieces.map (·.leaf))) e = ownersAt (ledger (first :: rest)) e := by
  rw [ownersAt_pieces e resumed.sound]
  by_cases owned : Owned (ledger (first :: rest)) e
  · have owner := resumed.owner e (work.inside e owned) (work.first_le slice owned)
    have inProgress := (ownersAt_savedLedger e (activeOf (first :: rest)) 0).trans
      (ownersAt_activeOf e (first :: rest))
    obtain ⟨p, hp, has⟩ := owned
    have before := ownersAt_eq_singleton work.ascending (mem_ownersAt.mpr ⟨p, hp, has, rfl⟩)
    rw [before] at inProgress ⊢
    rw [ownersAt_eq_singleton resumed.ascending owner, map_singleton, ← head?_map,
      inProgress]
    cases p.2 <;> rfl
  · have gone : ¬ Owned (pieceLedger pieces) e := by
      intro emitted
      obtain ⟨inScope, above⟩ := resumed.inside e emitted
      obtain ⟨range', slice', proper⟩ := work.sliced first (.head _)
      rw [slice, Option.some.injEq] at slice'
      subst slice'
      -- the cursor's own key is left, and with it every later key of the scope
      have cursor : Owned (ledger (first :: rest)) range.minInclusive := by
        rw [ledger_cons slice, owned_cons]
        exact .inl ⟨le_refl _, proper⟩
      exact owned (work.upward _ e cursor above inScope)
    rw [ownersAt_eq_nil.mpr gone, ownersAt_eq_nil.mpr owned]
    rfl

section ResumePlan

variable {plan : QueryPlan} {operation : CosmosOperation} {ranges : List FeedRange}
  {m : ContainerRoutingMap}

/-- Planning from the snapshot of a workload over the plan's scope succeeds. -/
theorem planResume_ok (complete : m.Valid) (converted : planRanges plan operation = .ok ranges)
    (ordered : ranges.Pairwise fun a b => a.span.Before b.span)
    (proper : ∀ r ∈ ranges.filterMap (clipToScope operation.target),
      r.minInclusive < r.maxExclusive ∧ r.minInclusive < .MAX)
    {first : Request} {rest : List Request} {range : FeedRange}
    (work : Workload (Scope (ranges.filterMap (clipToScope operation.target))) (first :: rest))
    (slice : first.feedRange = some range) :
    ∃ pieces, planResumeFromSavedSnapshot plan (some m) operation
        ⟨range.minInclusive, activeOf (first :: rest)⟩ = .ok (pieces.map (·.leaf)) ∧
      Resumed ⟨range.minInclusive, activeOf (first :: rest)⟩
        (Scope (ranges.filterMap (clipToScope operation.target))) pieces := by
  obtain ⟨pieces, emitted, resumed⟩ := resumeRanges_ok complete
    ⟨range.minInclusive, activeOf (first :: rest)⟩ work.wellSaved converted ordered proper
  refine ⟨pieces, ?_, resumed⟩
  have covered : checkCoverage pieces (activeOf (first :: rest)).zipIdx = .ok () := by
    refine checkCoverage_ok fun t ht => resumed.covers work.wellSaved ht fun e has => ?_
    obtain ⟨n, hn, slot, owned, token, _, same⟩ := mem_activeOf.mp (fst_mem_of_mem_zipIdx ht)
    have left : Owned (ledger (first :: rest)) e := by
      refine ⟨_, mem_ledger.mpr ⟨n, hn, slot, owned, rfl⟩, ?_⟩
      rw [same] at has
      exact has
    exact ⟨work.inside e left, work.first_le slice left⟩
  unfold planResumeFromSavedSnapshot
  rw [emitted]
  simp only [bind, Except.bind, covered]

end ResumePlan

/-- **A resumed query has the work that was left.**  For every drain reachable from a
fresh plan over sorted disjoint ranges, and every complete topology `m`: the snapshot
succeeds, resuming it succeeds, every key has the status it had, no key is read twice,
and nothing outside the query's ranges is read. -/
theorem resume_preserves_status {plan : QueryPlan} {operation : CosmosOperation}
    {ranges : List FeedRange} (converted : planRanges plan operation = .ok ranges)
    (sorted : ranges.Pairwise fun a b => a.span.Before b.span) {children : List Request}
    (reached : Reachable plan operation children) {m : ContainerRoutingMap} (complete : m.Valid) :
    ∃ S P, drainSnapshotState children = .ok S ∧
      buildSequentialDrain plan (some m) operation (some S) = .ok P ∧
      (∀ e, workStatus P.leaves e = workStatus children e ∧
        workStatus children e ≠ .duplicated) ∧
      ∀ e, (∀ r ∈ ranges, ¬ r.span.Has e) → ∀ n ∈ P.leaves, n.ownsKey e = false := by
  obtain ⟨validated, work, proper⟩ := reachable_workload converted sorted reached
  have single : ∀ e, workStatus children e ≠ .duplicated := by
    intro e
    rw [workStatus_eq work.live, ownersAt_eq_head? work.ascending e]
    rcases (ownersAt (ledger children) e).head? with _ | _ | token <;> simp [statusOf]
  cases children with
  | nil =>
    refine ⟨.drained, .drainedLeaf, rfl, ?_, fun e => ⟨rfl, single e⟩, by simp [Pipeline.leaves]⟩
    simp [buildSequentialDrain, validated, bind, Except.bind]
  | cons first rest =>
    obtain ⟨range, slice, _⟩ := work.sliced first (.head _)
    obtain ⟨pieces, planned, resumed⟩ :=
      planResume_ok complete converted sorted proper work slice
    have sameOwners := resumed.owners_eq work slice
    have live : ∀ n ∈ pieces.map (·.leaf), n.state ≠ .drained :=
      forall_mem_map.mpr fun p hp => (resumed.sound p hp).live
    have built : ∃ P, buildSequentialDrain plan (some m) operation (some (.sequentialDrain
          range.minInclusive.toHex ((activeOf (first :: rest)).map toRanged))) =
          .ok P ∧ P.leaves = pieces.map (·.leaf) := by
      simp only [buildSequentialDrain, validated, validateSavedSnapshot_workload work slice,
        planned, bind, Except.bind]
      by_cases none : (pieces.map (·.leaf)).isEmpty
      · exact ⟨.drainedLeaf, by rw [if_pos none], (isEmpty_iff.mp none).symm⟩
      · exact ⟨.sequentialDrain (pieces.map (·.leaf)), by rw [if_neg none], rfl⟩
    obtain ⟨P, built, leaves⟩ := built
    refine ⟨_, P, drainSnapshotState_workload work slice, built, fun e => ⟨?_, single e⟩, ?_⟩
    · rw [leaves, workStatus_eq live, workStatus_eq work.live, sameOwners]
    · intro e outside n hn
      by_contra owns
      rw [leaves] at hn
      obtain ⟨p, hp, rfl⟩ := mem_map.mp hn
      have has : p.range.span.Has e := by
        simpa [Request.ownsKey, (resumed.sound p hp).slice] using owns
      obtain ⟨⟨⟨r, hr, inRange⟩, _⟩, _⟩ :=
        resumed.inside e ⟨_, mem_pieceLedger.mpr ⟨p, hp, rfl⟩, has⟩
      obtain ⟨planRange, hplan, clipped⟩ := mem_filterMap.mp hr
      have within := clipToScope_within clipped
      exact outside planRange hplan
        ⟨Std.le_trans within.1 inRange.1, Std.lt_of_lt_of_le inRange.2 within.2⟩

/-- A query over two ranges with a hole between them. -/
def gapQuery : QueryPlan := ⟨none, [⟨"", "80", false⟩, ⟨"90", "FF", false⟩], false⟩

/-- Its operation, without a range of its own. -/
def gapOperation : CosmosOperation := ⟨none, none, false, none, none, none⟩

/-- Its fresh plan over two physical ranges, after the first leaf got a page. -/
def gapQueryLeaves : List Request :=
  let planned := buildSequentialDrain gapQuery (some .twoRangesMap) gapOperation none
  let gone : Except CosmosError CosmosResponse := .error ⟨⟨410, some 1002⟩, "gone"⟩
  (drainNextPage [⟨.ok ⟨[], some "t", none⟩, gone, none⟩]
    ((planned.toOption.map Pipeline.leaves).getD [])).children

theorem gapQueryLeaves_reachable : Reachable gapQuery gapOperation gapQueryLeaves := by
  refine .called (.planned (m := .twoRangesMap) ?_ ?_) ?_
  · exact ContainerRoutingMap.twoRangesMap_valid
  · rfl
  · intro w hw m topology
    rw [mem_singleton.mp hw] at topology
    exact absurd topology (by simp)

/-- The key `10` is to be read from `t` before and after resuming over three ranges. -/
theorem gapQuery_resumes :
    ∃ S P, drainSnapshotState gapQueryLeaves = .ok S ∧
      buildSequentialDrain gapQuery (some .splitMap) gapOperation (some S) = .ok P ∧
      workStatus gapQueryLeaves ⟨[0x10]⟩ = .continuing "t" ∧
      workStatus P.leaves ⟨[0x10]⟩ = .continuing "t" ∧
      ∀ n ∈ P.leaves, n.ownsKey ⟨[0x85]⟩ = false := by
  have converted : planRanges gapQuery gapOperation =
      .ok [⟨none, ⟨[]⟩, ⟨[0x80]⟩, by decide⟩, ⟨none, ⟨[0x90]⟩, ⟨[0xFF]⟩, by decide⟩] := rfl
  obtain ⟨S, P, saved, built, same, outside⟩ := resume_preserves_status converted (by decide)
    gapQueryLeaves_reachable (ContainerRoutingMap.built_valid ContainerRoutingMap.splitMap_built)
  have before : workStatus gapQueryLeaves ⟨[0x10]⟩ = .continuing "t" := by decide
  exact ⟨S, P, saved, built, before, (same _).1.trans before, outside ⟨[0x85]⟩ (by decide)⟩

end AzureSdk.Cosmos.Dataflow
