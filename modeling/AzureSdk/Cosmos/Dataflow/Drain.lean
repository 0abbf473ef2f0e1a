/-
# Cosmos.Dataflow.Drain — one child after the other

`SequentialDrain` polls its first child until that child is done, splices in the
replacements when the child has to split, and moves on.  It never looks at a later
child, so its snapshot is a cursor plus the continuations of the children that
have one.

The loop of `next_page` is read as a run of `DrainStep`s (`drainLoop_run`), and
the step lemma `drainStep_keySpace` carries the invariant: children in ascending
order, owning what was owned at the start minus what finished children owned.
-/
import AzureSdk.Theory.Run
import AzureSdk.Cosmos.Dataflow.Request

namespace AzureSdk.Cosmos.Dataflow

open Theory Theory.Interval List Request

def maxSplitRetries : Nat := 10

/-- A call of a composite node: how it ended, the children it leaves, and what the
children it polled reported. -/
structure Call (ν : Type) where
  outcome : Outcome ν
  children : List ν
  polled : List (Polled ν)

/-- Adds an earlier poll to the record of a call. -/
def Call.after {ν : Type} (p : Polled ν) (c : Call ν) : Call ν :=
  { c with polled := p :: c.polled }

/-- The child has nothing left: it reported `Drained` or emitted its last page. -/
def Polled.Finished {ν : Type} (p : Polled ν) : Prop :=
  p.report = .ok .drained ∨ ∃ response, p.report = .ok (.page response true)

section Drain

variable {ω ν : Type} [PipelineNode ω ν]

/-- The loop of `SequentialDrain::next_page`, with the number of splits so far.  It
takes one answer of the outside world per poll; without a further answer the call
is still waiting. -/
def drainLoop : Nat → List ω → List ν → Call ν
  | _, _, [] => ⟨.returned (.ok .drained), [], []⟩
  | _, [], children => ⟨.pending, children, []⟩
  | splitRetries, w :: answers, current :: rest =>
    let p := poll w current
    match p.report with
    | .error fault => ⟨.returned (.error fault), p.after :: rest, [p]⟩
    | .ok (.page response true) =>
      ⟨.returned (.ok (.page response rest.isEmpty)), rest, [p]⟩
    | .ok (.page response false) =>
      ⟨.returned (.ok (.page response false)), p.after :: rest, [p]⟩
    | .ok .drained => (drainLoop splitRetries answers rest).after p
    | .ok (.splitRequired replacementNodes) =>
      if maxSplitRetries < splitRetries + 1 then
        ⟨.returned (fail .clientSplitRetriesExhausted
          "exceeded maximum split retries (10) in SequentialDrain"), p.after :: rest, [p]⟩
      else (drainLoop (splitRetries + 1) answers (replacementNodes ++ rest)).after p

/-- `SequentialDrain::next_page`. -/
def drainNextPage (answers : List ω) (children : List ν) : Call ν := drainLoop 0 answers children

/-- Any number of calls, one after the other. -/
def drainCalls : List (List ω) → List ν → List ν × List (Polled ν)
  | [], children => (children, [])
  | answers :: calls, children =>
    let call := drainNextPage answers children
    let later := drainCalls calls call.children
    (later.1, call.polled ++ later.2)

/-- The loop of `SequentialDrain::snapshot_state`, from child `idx` on. -/
def drainSnapshotLoop (total : Nat) : Nat → Option String → List RangedToken → List ν →
    Result (Option String × List RangedToken)
  | _, cursor, activeTokens, [] => .ok (cursor, activeTokens)
  | idx, cursor, activeTokens, child :: rest =>
    match PipelineNode.feedRange child with
    | none => fail .clientContinuationTokenUnexpectedNestedShape
      ("SequentialDrain child " ++ toString idx ++ " of " ++ toString total ++
        " has no feed_range; cannot snapshot continuation state safely")
    | some range => do
      let childState ← PipelineNode.snapshotState child
      match ← intoChildContribution "SequentialDrain" idx total childState with
      | .drained =>
        if cursor.isSome then
          fail .clientContinuationTokenUnexpectedNestedShape
            ("SequentialDrain child " ++ toString idx ++ " of " ++ toString total ++
              " is Drained after the cursor was already set; drained children must be " ++
              "popped before non-drained ones")
        else drainSnapshotLoop total (idx + 1) cursor activeTokens rest
      | .pending serverContinuation =>
        drainSnapshotLoop total (idx + 1) (cursor.or (some range.minInclusive.toHex))
          (match serverContinuation with
          | some token => activeTokens ++
            [⟨range.minInclusive.toHex, range.maxExclusive.toHex, token⟩]
          | none => activeTokens) rest

/-- `SequentialDrain::snapshot_state`. -/
def drainSnapshotState (children : List ν) : Result PipelineNodeState :=
  if children.isEmpty then .ok .drained
  else do
    let (cursor, activeTokens) ← drainSnapshotLoop children.length 0 none [] children
    match cursor with
    | some leftMostUndrainedEpk => .ok (.sequentialDrain leftMostUndrainedEpk activeTokens)
    | none => .ok .drained

/-! ## The loop as a run of steps -/

/-- One poll of the drain: the first child stays, leaves, or is replaced.  `admits`
restricts what the outside world answers. -/
inductive DrainStep (admits : ω → Prop) : List ν → Polled ν → List ν → Prop
  | kept {w : ω} {current : ν} {rest : List ν} (admitted : admits w)
    (unfinished : ¬ (poll w current).Finished) :
    DrainStep admits (current :: rest) (poll w current) ((poll w current).after :: rest)
  | finished {w : ω} {current : ν} {rest : List ν} (admitted : admits w)
    (done : (poll w current).Finished) :
    DrainStep admits (current :: rest) (poll w current) rest
  | split {w : ω} {current : ν} {rest nodes : List ν} (admitted : admits w)
    (replaced : (poll w current).report = .ok (.splitRequired nodes)) :
    DrainStep admits (current :: rest) (poll w current) (nodes ++ rest)

variable {admits : ω → Prop}

theorem drainLoop_run : ∀ {splitRetries : Nat} {answers : List ω}
    {children : List ν}, (∀ w ∈ answers, admits w) →
    Run (DrainStep admits) children (drainLoop splitRetries answers children).polled
      (drainLoop splitRetries answers children).children
  | _, _, [], _ => by
    rw [drainLoop]
    exact .nil []
  | _, [], current :: rest, _ => by
    rw [drainLoop]
    · exact .nil _
    · simp
  | splitRetries, w :: answers, current :: rest, admitted => by
    have head := admitted w (.head _)
    have tail := fun v hv => admitted v (.tail _ hv)
    rw [drainLoop]
    split
    · rename_i report
      exact .single (.kept head (by simp [Polled.Finished, report]))
    · rename_i report
      exact .single (.finished head (.inr ⟨_, report⟩))
    · rename_i report
      exact .single (.kept head (by simp [Polled.Finished, report]))
    · rename_i report
      exact .cons (.finished head (.inl report)) (drainLoop_run tail)
    · rename_i report
      split
      · exact .single (.kept head (by simp [Polled.Finished, report]))
      · exact .cons (.split head report) (drainLoop_run tail)

theorem drainCalls_run : ∀ {calls : List (List ω)} {children : List ν},
    (∀ answers ∈ calls, ∀ w ∈ answers, admits w) →
    Run (DrainStep admits) children (drainCalls calls children).2 (drainCalls calls children).1
  | [], children, _ => .nil children
  | answers :: calls, children, admitted => by
    exact (drainLoop_run (admitted answers (.head _))).append
      (drainCalls_run fun later hl => admitted later (.tail _ hl))

end Drain

/-! ## Key space of a drain over request leaves -/

def Request.OwnsKey (n : Request) (e : EffectivePartitionKey) : Prop :=
  ∃ range, n.feedRange = some range ∧ range.span.Has e

/-- What a drain keeps: every child owns a slice, the slices ascend, and together they
hold the keys held at the `start`, minus those of the children that finished. -/
structure KeySpace (start children : List Request) (past : List (Polled Request)) : Prop where
  sliced : ∀ c ∈ children, c.feedRange.isSome = true
  ascending : Ascending (ledger children)
  owned : ∀ e, e < .MAX → (Owned (ledger children) e ↔
    Owned (ledger start) e ∧ ¬ ∃ p ∈ past, p.Finished ∧ p.child.OwnsKey e)

variable {cuts : List (ResolvedRange × FeedRange)} {range : FeedRange}
  {past : List (Polled Request)} {current : Request} {start children children' : List Request}

theorem cuts_within
    (exact : Cuts range cuts) (operation : CosmosOperation) (continuation : Option String) :
    ∀ p ∈ ledger (cuts.map (pieceLeaf operation continuation)), p.1.Within range.span := by
  rw [ledger_pieceLeaf]
  exact forall_mem_map.mpr fun c hc => (intersectFeedRanges_within (exact.piece c hc)).2

theorem cuts_owned_iff
    (exact : Cuts range cuts) (operation : CosmosOperation) (continuation : Option String)
    (e : EffectivePartitionKey) :
    Owned (ledger (cuts.map (pieceLeaf operation continuation))) e ↔
      range.span.Has e ∧ e < .MAX := by
  rw [← exact.has_iff e, ledger_pieceLeaf, Owned]
  simp

variable {p : Polled Request} {nodes : List Request}

theorem finished_snoc_of_not (unfinished : ¬ p.Finished) (e : EffectivePartitionKey) :
    (∃ q ∈ past ++ [p], q.Finished ∧ q.child.OwnsKey e) ↔
      ∃ q ∈ past, q.Finished ∧ q.child.OwnsKey e := by
  constructor
  · rintro ⟨q, hq, done, owns⟩
    rcases mem_append.mp hq with hq | hq
    · exact ⟨q, hq, done, owns⟩
    · rw [mem_singleton.mp hq] at done
      exact absurd done unfinished
  · rintro ⟨q, hq, rest⟩
    exact ⟨q, mem_append_left _ hq, rest⟩

/-- A poll changes the state of a leaf only. -/
theorem poll_kept (w : Poll) (current : Request) :
    ∃ state, (poll w current).after = { current with state } := by
  change ∃ state, (nextPage w current).2 = _
  have cases := nextPage_cases w current
  generalize (nextPage w current).1 = report at cases
  generalize (nextPage w current).2 = after at cases
  cases cases with
  | failed | drained | split => exact ⟨_, rfl⟩
  | page response => exact handleResponse_kept current response

theorem poll_kept_feedRange {w : Poll} : (poll w current).after.feedRange = current.feedRange := by
  obtain ⟨state, kept⟩ := poll_kept w current
  rw [kept]
  rfl

/-- The replacements of a split child are the leaves of its slice's cut. -/
theorem poll_split_cuts {w : Poll} (complete : w.Complete)
    (replaced : (poll w current).report = .ok (.splitRequired nodes)) :
    ∃ range cuts, current.feedRange = some range ∧ Cuts range cuts ∧
      nodes = cuts.map (pieceLeaf current.operation current.state.continuation) := by
  have cases := nextPage_cases w current
  change (nextPage w current).1 = _ at replaced
  rw [replaced] at cases
  generalize (nextPage w current).2 = after at cases
  generalize shape : (Except.ok (PageResult.splitRequired nodes) : Result (PageResult Request)) =
    report at cases
  cases cases with
  | failed | drained => exact absurd shape (by simp)
  | page response live =>
    obtain ⟨terminal, page, _⟩ := handleResponse_page current response live
    rw [page] at shape
    exact absurd shape (by simp)
  | split range resolved nodes' live owned found replaced =>
    cases shape
    obtain ⟨cuts, exact, eq⟩ := split_cuts complete found replaced
    exact ⟨range, cuts, owned, exact, eq⟩

/-- The leaves lie in order in the slice of a leaf, and hold the keys it holds in the EPK space. -/
structure Refills (current : Request) (nodes : List Request) : Prop where
  ascending : Ascending (ledger nodes)
  slice : ∃ range, current.feedRange = some range ∧
    (∀ q ∈ ledger nodes, q.1.Within range.span) ∧
    ∀ e, e < .MAX → range.span.Has e → Owned (ledger nodes) e

theorem refills_kept (slice : current.feedRange = some range) (w : Poll) :
    Refills current [(poll w current).after] := by
  have slice' : (poll w current).after.feedRange = some range := poll_kept_feedRange.trans slice
  constructor
  · rw [ledger_cons slice']
    exact pairwise_singleton _ _
  · refine ⟨range, slice, fun q hq => ?_, fun e _ has => ?_⟩
    · rw [ledger_cons slice', ledger_nil, mem_singleton] at hq
      rw [hq]
      exact ⟨Std.le_refl _, Std.le_refl _⟩
    · rw [ledger_cons slice', owned_cons]
      exact .inl has

theorem refills_cuts (slice : current.feedRange = some range) (exact : Cuts range cuts)
    (operation : CosmosOperation) (continuation : Option String) :
    Refills current (cuts.map (pieceLeaf operation continuation)) :=
  ⟨(cuts_ledger exact _ _).2, range, slice, cuts_within exact _ _,
    fun e inside has => (cuts_owned_iff exact _ _ e).mpr ⟨has, inside⟩⟩

section Refilling

variable {current : Request} {l r : List Request}

theorem Refills.inOrder (fills : Refills current nodes)
    (asc : Ascending (ledger (l ++ current :: r))) : Ascending (ledger (l ++ (nodes ++ r))) := by
  obtain ⟨range, slice, within, _⟩ := fills.slice
  rw [ledger_append, ledger_cons slice] at asc
  rw [ledger_append, ledger_append]
  exact ascending_refill asc fills.ascending within

variable {e : EffectivePartitionKey}

theorem Refills.owned_of (fills : Refills current nodes)
    (owned : Owned (ledger (l ++ (nodes ++ r))) e) : Owned (ledger (l ++ current :: r)) e := by
  obtain ⟨range, slice, within, _⟩ := fills.slice
  rw [ledger_append, ledger_append, owned_append, owned_append] at owned
  rw [ledger_append, ledger_cons slice, owned_append, owned_cons]
  exact owned.imp_right (.imp_left fun ⟨q, hq, has⟩ => (within q hq).has has)

theorem Refills.owned_iff (fills : Refills current nodes) (inside : e < .MAX) :
    Owned (ledger (l ++ (nodes ++ r))) e ↔ Owned (ledger (l ++ current :: r)) e := by
  refine ⟨fills.owned_of, fun owned => ?_⟩
  obtain ⟨range, slice, _, full⟩ := fills.slice
  rw [ledger_append, ledger_cons slice, owned_append, owned_cons] at owned
  rw [ledger_append, ledger_append, owned_append, owned_append]
  exact owned.imp_right (.imp_left (full e inside))

end Refilling

theorem KeySpace.refill {rest : List Request} (before : KeySpace start (current :: rest) past)
    (fills : Refills current nodes) (sliced : ∀ c ∈ nodes, c.feedRange.isSome = true)
    (unfinished : ¬ p.Finished) : KeySpace start (nodes ++ rest) (past ++ [p]) where
  sliced := forall_mem_append.mpr ⟨sliced, (forall_mem_cons.mp before.sliced).2⟩
  ascending := fills.inOrder (l := []) before.ascending
  owned e inside := by
    rw [finished_snoc_of_not unfinished, ← before.owned e inside]
    exact fills.owned_iff (l := []) inside

/-- **Step lemma.**  One poll keeps the key space. -/
theorem drainStep_keySpace (before : KeySpace start children past)
    (step : DrainStep Poll.Complete children p children') :
    KeySpace start children' (past ++ [p]) := by
  cases step with
  | @kept w current rest complete unfinished =>
    obtain ⟨range, slice⟩ := Option.isSome_iff_exists.mp (before.sliced _ (.head _))
    refine before.refill (refills_kept slice w) (fun c hc => ?_) unfinished
    rw [mem_singleton.mp hc, poll_kept_feedRange, slice]
    rfl
  | @finished w current rest complete done =>
    obtain ⟨range, slice⟩ := Option.isSome_iff_exists.mp (before.sliced _ (.head _))
    have asc := before.ascending
    have owned := before.owned
    rw [ledger_cons slice] at asc owned
    obtain ⟨first, asc⟩ := ascending_cons.mp asc
    refine ⟨fun c hc => before.sliced c (.tail _ hc), asc,
      fun e inside => ?_⟩
    have owner : (poll w current).child.OwnsKey e ↔ range.span.Has e := by
      refine ⟨?_, fun has => ⟨range, slice, has⟩⟩
      rintro ⟨range', slice', has⟩
      have : some range = some range' := slice.symm.trans slice'
      cases this
      exact has
    -- later children hold none of the keys of the child that left
    have apart : Owned (ledger children') e → ¬ range.span.Has e := by
      rintro ⟨q, hq, has⟩ held
      exact Span.not_both (first q hq) held has
    have old := owned e inside
    rw [owned_cons] at old
    constructor
    · intro later
      obtain ⟨started, unfinished⟩ := old.mp (.inr later)
      refine ⟨started, ?_⟩
      rintro ⟨q, hq, finished, owns⟩
      rcases mem_append.mp hq with hq | hq
      · exact unfinished ⟨q, hq, finished, owns⟩
      · rw [mem_singleton.mp hq] at owns
        exact apart later (owner.mp owns)
    · rintro ⟨started, unfinished⟩
      rcases old.mpr ⟨started, fun ⟨q, hq, h⟩ => unfinished ⟨q, mem_append_left _ hq, h⟩⟩
        with held | later
      · exact absurd ⟨_, mem_append_right _ (.head _), done,
          owner.mpr held⟩ unfinished
      · exact later
  | @split w current rest nodes complete replaced =>
    obtain ⟨range, cuts, slice, exact, rfl⟩ := poll_split_cuts complete replaced
    refine before.refill (refills_cuts slice exact _ _) (fun c hc => ?_)
      (by simp [Polled.Finished, replaced])
    obtain ⟨piece, _, rfl⟩ := mem_map.mp hc
    simp

theorem drainStep_split_continuation (step : DrainStep Poll.Complete children p children')
    (replaced : p.report = .ok (.splitRequired nodes)) :
    ∀ n ∈ nodes, n.state.continuation = p.child.state.continuation := by
  have polled : ∃ w current, w.Complete ∧ p = poll w current := by
    cases step with
    | kept complete | finished complete | split complete => exact ⟨_, _, complete, rfl⟩
  obtain ⟨w, current, complete, rfl⟩ := polled
  obtain ⟨range, cuts, _, _, rfl⟩ := poll_split_cuts complete replaced
  exact forall_mem_map.mpr fun c _ => new_continuation _ _ _

/-- **A live drain never loses or duplicates key space.**  After any calls, with any
answers of the service and any refreshed topologies that are complete, the remaining
children own ascending disjoint slices, their union is the initial scope minus the
slices of the children that finished, and every replacement carries the
continuation of the child it replaced. -/
theorem drain_keeps_key_space (start : List Request)
    (sliced : ∀ c ∈ start, c.feedRange.isSome = true) (ascending : Ascending (ledger start))
    (calls : List (List Poll)) (complete : ∀ answers ∈ calls, ∀ w ∈ answers, w.Complete) :
    (∀ c ∈ (drainCalls calls start).1, c.feedRange.isSome = true) ∧
    Ascending (ledger (drainCalls calls start).1) ∧
    (∀ e, e < .MAX → (Owned (ledger (drainCalls calls start).1) e ↔
      Owned (ledger start) e ∧
        ¬ ∃ p ∈ (drainCalls calls start).2, p.Finished ∧ p.child.OwnsKey e)) ∧
    ∀ p ∈ (drainCalls calls start).2, ∀ nodes, p.report = .ok (.splitRequired nodes) →
      ∀ n ∈ nodes, n.state.continuation = p.child.state.continuation := by
  have run : Run (DrainStep Poll.Complete) start (drainCalls calls start).2
      (drainCalls calls start).1 := drainCalls_run complete
  have initial : KeySpace start start [] := ⟨sliced, ascending, fun e _ => by simp⟩
  have final := run.history (fun before step => drainStep_keySpace before step) initial
  refine ⟨final.sliced, final.ascending, final.owned, fun p hp nodes replaced => ?_⟩
  have carried := run.forall_label (Q := fun p => ∀ nodes, p.report = .ok (.splitRequired nodes) →
    ∀ n ∈ nodes, n.state.continuation = p.child.state.continuation)
    fun step _ replaced => drainStep_split_continuation step replaced
  exact carried p hp nodes replaced

/-- A scan of the whole container by one leaf. -/
def wholeScan : List Request :=
  [pieceLeaf ⟨none, none, false, none, none, none⟩ none (⟨"1", .full⟩, .full)]

/-- The leaf gets a page, then its partition is gone and a complete topology of two
ranges is found; the first replacement finishes with its first page. -/
def pageThenSplit : List (List Poll) :=
  let gone : Except CosmosError CosmosResponse := .error ⟨⟨410, some 1002⟩, "gone"⟩
  [[⟨.ok ⟨[], some "t", none⟩, gone, none⟩],
    [⟨gone, gone, some (some ContainerRoutingMap.splitMap)⟩, ⟨.ok ⟨[], none, none⟩, gone, none⟩]]

theorem pageThenSplit_complete : ∀ answers ∈ pageThenSplit, ∀ w ∈ answers, w.Complete := by
  have valid := ContainerRoutingMap.built_valid ContainerRoutingMap.splitMap_built
  intro answers ha w hw m topology
  simp only [pageThenSplit, mem_cons, not_mem_nil, or_false] at ha
  rcases ha with rfl | rfl <;> simp only [mem_cons, not_mem_nil, or_false] at hw
  · rw [hw] at topology
    exact absurd topology (by simp)
  · rcases hw with rfl | rfl
    · cases topology
      exact valid
    · exact absurd topology (by simp)

/-- After a page, a split and a finished replacement the rest of the scan is in order. -/
theorem split_scan_keeps_key_space :
    Ascending (ledger (drainCalls pageThenSplit wholeScan).1) ∧
    (Owned (ledger (drainCalls pageThenSplit wholeScan).1) ⟨[0x90]⟩ ↔
      Owned (ledger wholeScan) ⟨[0x90]⟩ ∧ ¬ ∃ p ∈ (drainCalls pageThenSplit wholeScan).2,
        p.Finished ∧ p.child.OwnsKey ⟨[0x90]⟩) := by
  have kept := drain_keeps_key_space wholeScan (by decide) (pairwise_singleton _ _)
    pageThenSplit pageThenSplit_complete
  exact ⟨kept.2.1, kept.2.2.1 ⟨[0x90]⟩ (by decide)⟩

end AzureSdk.Cosmos.Dataflow
