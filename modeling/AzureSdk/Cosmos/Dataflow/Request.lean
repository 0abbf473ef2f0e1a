/-
# Cosmos.Dataflow.Request — the leaf that sends one request per page

A `Request` owns an EPK slice and walks through the pages of that slice.  When the
service answers that the physical partition is gone, the leaf resolves its slice
against the refreshed topology and asks its parent to replace it by one leaf per
physical partition, each with the continuation the leaf had.

`nextPage_cases` says once what a poll can do to a leaf; `split_cuts` says what the
replacement leaves own.
-/
import AzureSdk.Cosmos.Dataflow.Node

namespace AzureSdk.Cosmos.Dataflow

open Theory.Interval List

inductive RequestTarget
  | nonPartitioned
  | logicalPartitionKey (partitionKey : PartitionKey)
  | effectivePartitionKeyRange (range : Option FeedRange) (partitionKeyRangeId : String)
    (partitionKeyRange : FeedRange)
  deriving DecidableEq

/-- `RequestTarget::effective_partition_key_range`: the slice is left out when it is the
whole physical partition. -/
def RequestTarget.ofEffectivePartitionKeyRange (range : FeedRange) (partitionKeyRangeId : String)
    (partitionKeyRange : FeedRange) : RequestTarget :=
  .effectivePartitionKeyRange (if range = partitionKeyRange then none else some range)
    partitionKeyRangeId partitionKeyRange

def RequestTarget.ownedRange : RequestTarget → Option FeedRange
  | .effectivePartitionKeyRange range _ partitionKeyRange => some (range.getD partitionKeyRange)
  | _ => none

@[simp] theorem RequestTarget.ownedRange_of (range : FeedRange) (id : String) (whole : FeedRange) :
    (ofEffectivePartitionKeyRange range id whole).ownedRange = some range := by
  by_cases same : range = whole <;> simp [ofEffectivePartitionKeyRange, ownedRange, same]

inductive RequestState
  | initial
  | continuing (continuation : String)
  | drained
  deriving DecidableEq, Repr

def RequestState.continuation : RequestState → Option String
  | .continuing token => some token
  | _ => none

structure Request where
  operation : CosmosOperation
  target : RequestTarget
  state : RequestState
  deriving DecidableEq

/-- What the outside world answers while a leaf is polled: the reply to its request, the
reply to the one retry of a logical-partition request, and the routing map that a
forced refresh finds.  `topology` is `none` when the plan has no topology provider. -/
structure Poll where
  reply : Except CosmosError CosmosResponse
  retry : Except CosmosError CosmosResponse
  topology : Option (Option ContainerRoutingMap)

/-- `PipelineContext::resolve_ranges`. -/
def contextResolveRanges (topology : Option (Option ContainerRoutingMap)) (range : FeedRange) :
    Result (List ResolvedRange) :=
  match topology with
  | none => fail .clientTopologyProviderMissing
    "topology resolution requested for a plan that was not given a topology provider"
  | some routingMap => resolveRanges routingMap range

namespace Request

def new (operation : CosmosOperation) (target : RequestTarget)
    (initialContinuation : Option String) : Request :=
  ⟨operation, target,
    match initialContinuation with
    | some token => .continuing token
    | none => .initial⟩

variable (self : Request)

/-- The first branch is `handle_change_feed_response`, where the
ETag is the continuation and no page is terminal. -/
def handleResponse (response : CosmosResponse) : PageResult Request × Request :=
  if self.operation.isChangeFeed then
    (.page response false,
      match response.etag with
      | some token => { self with state := .continuing token }
      | none => self)
  else
    match response.continuation with
    | some token => (.page response false, { self with state := .continuing token })
    | none => (.page response true, { self with state := .drained })

/-- The replacement leaves of `split_for_topology_change`; a resolved range that misses
the slice is the source's `expect`. -/
def replacementNodes (range : FeedRange) : List ResolvedRange →
    Result (List Request)
  | [] => .ok []
  | resolved :: rest =>
    match intersectFeedRanges resolved.range range with
    | none => .error (.panic
      "topology provider must return ranges that overlap the request's owned EPK range")
    | some ownedRange => do
      let nodes ← replacementNodes range rest
      .ok (.new self.operation
        (.ofEffectivePartitionKeyRange ownedRange resolved.partitionKeyRangeId resolved.range)
        self.state.continuation :: nodes)

def splitForTopologyChange (w : Poll) (range : FeedRange) :
    Result (PageResult Request) := do
  let resolved ← contextResolveRanges w.topology range
  let nodes ← self.replacementNodes range resolved
  .ok (.splitRequired nodes)

def handlePartitionTopologyChange (w : Poll) (error : CosmosError) :
    Result (PageResult Request) × Request :=
  match self.target with
  | .nonPartitioned => (.error (.error error), self)
  | .logicalPartitionKey _ =>
    match w.retry with
    | .ok response => ((.ok (self.handleResponse response).1), (self.handleResponse response).2)
    | .error e => (.error (.error e), self)
  | .effectivePartitionKeyRange range _ partitionKeyRange =>
    (self.splitForTopologyChange w (range.getD partitionKeyRange), self)

def nextPage (w : Poll) (self : Request) : Result (PageResult Request) × Request :=
  match self.state with
  | .drained => (.ok .drained, self)
  | _ =>
    match w.reply with
    | .ok response => ((.ok (self.handleResponse response).1), (self.handleResponse response).2)
    | .error error =>
      if error.status.isPartitionTopologyChange then
        self.handlePartitionTopologyChange w error
      else (.error (.error error), self)

def snapshotState : Result PipelineNodeState :=
  match self.state with
  | .initial => .ok (.request none)
  | .continuing continuation => .ok (.request (some continuation))
  | .drained => .ok .drained

def feedRange : Option FeedRange := self.target.ownedRange

instance : PipelineNode Poll Request := ⟨nextPage, snapshotState, feedRange⟩

/-! ## What a poll can do -/

/-- One poll of a leaf.  A fault or a split leaves the leaf as it was; a page moves its
state; only a drained leaf reports `Drained`. -/
inductive PollCase (w : Poll) (self : Request) : Result (PageResult Request) → Request → Prop
  | failed (fault : Fault) : PollCase w self (.error fault) self
  | drained (done : self.state = .drained) : PollCase w self (.ok .drained) self
  | page (response : CosmosResponse) (live : self.state ≠ .drained) :
    PollCase w self (.ok (self.handleResponse response).1) (self.handleResponse response).2
  | split (range : FeedRange) (resolved : List ResolvedRange) (nodes : List Request)
    (live : self.state ≠ .drained) (owned : self.feedRange = some range)
    (found : contextResolveRanges w.topology range = .ok resolved)
    (replaced : self.replacementNodes range resolved = .ok nodes) :
    PollCase w self (.ok (.splitRequired nodes)) self

theorem handlePartitionTopologyChange_cases (w : Poll) (self : Request) (error : CosmosError)
    (live : self.state ≠ .drained) :
    PollCase w self (self.handlePartitionTopologyChange w error).1
      (self.handlePartitionTopologyChange w error).2 := by
  unfold handlePartitionTopologyChange
  split
  · exact .failed _
  · split
    · exact .page _ live
    · exact .failed _
  · rename_i range id whole target
    have owned : self.feedRange = some (range.getD whole) := by
      simp [feedRange, RequestTarget.ownedRange, target]
    unfold splitForTopologyChange
    cases found : contextResolveRanges w.topology (range.getD whole) with
    | error fault => exact .failed fault
    | ok resolved =>
      cases replaced : self.replacementNodes (range.getD whole) resolved with
      | error fault =>
        simp only [bind, Except.bind, replaced]
        exact .failed fault
      | ok nodes =>
        simp only [bind, Except.bind, replaced]
        exact .split _ resolved nodes live owned found replaced

theorem nextPage_cases (w : Poll) (self : Request) :
    PollCase w self (nextPage w self).1 (nextPage w self).2 := by
  unfold nextPage
  split
  · rename_i done
    exact .drained done
  · rename_i live
    split
    · exact .page _ live
    · split
      · exact handlePartitionTopologyChange_cases w self _ live
      · exact .failed _

theorem handleResponse_kept (self : Request) (response : CosmosResponse) :
    ∃ state, (self.handleResponse response).2 = { self with state } := by
  unfold handleResponse
  split
  · split <;> exact ⟨_, rfl⟩
  · split <;> exact ⟨_, rfl⟩

theorem handleResponse_page (self : Request) (response : CosmosResponse)
    (live : self.state ≠ .drained) :
    ∃ terminal, (self.handleResponse response).1 = .page response terminal ∧
      (terminal = true ↔ (self.handleResponse response).2.state = .drained) := by
  unfold handleResponse
  split
  · split
    · simp
    · simpa using live
  · split
    · exact ⟨false, rfl, by simp⟩
    · exact ⟨true, rfl, by simp⟩

@[simp] theorem new_continuation (operation : CosmosOperation) (target : RequestTarget)
    (initial : Option String) : (new operation target initial).state.continuation = initial := by
  cases initial <;> rfl

theorem new_live (operation : CosmosOperation) (target : RequestTarget)
    (initial : Option String) : (new operation target initial).state ≠ .drained := by
  cases initial <;> simp [new]

end Request

/-! ## The ledger of a list of leaves -/

/-- Who owns what: the slice of every leaf, with the continuation it would send. -/
def ledger (nodes : List Request) : Ledger EffectivePartitionKey (Option String) :=
  nodes.filterMap fun n => n.feedRange.map fun range => (range.span, n.state.continuation)

@[simp] theorem ledger_nil : ledger [] = [] := rfl

@[simp] theorem ledger_append (l r : List Request) : ledger (l ++ r) = ledger l ++ ledger r := by
  simp [ledger]

variable {range : FeedRange}

theorem ledger_cons {n : Request} (owned : n.feedRange = some range) (rest : List Request) :
    ledger (n :: rest) = (range.span, n.state.continuation) :: ledger rest := by
  simp [ledger, owned]

variable {nodes : List Request} {self : Request}

theorem mem_ledger {p : Span EffectivePartitionKey × Option String} :
    p ∈ ledger nodes ↔ ∃ n ∈ nodes, ∃ range, n.feedRange = some range ∧
      p = (range.span, n.state.continuation) := by
  simp only [ledger, mem_filterMap, Option.map_eq_some_iff, @eq_comm _ p]

variable (operation : CosmosOperation)

def pieceLeaf (continuation : Option String)
    (c : ResolvedRange × FeedRange) : Request :=
  .new operation (.ofEffectivePartitionKeyRange c.2 c.1.partitionKeyRangeId c.1.range) continuation

@[simp] theorem pieceLeaf_feedRange (continuation : Option String) (c : ResolvedRange × FeedRange) :
    (pieceLeaf operation continuation c).feedRange = some c.2 := by
  simp [pieceLeaf, Request.feedRange, Request.new]

theorem ledger_pieceLeaf (continuation : Option String) :
    ∀ cuts : List (ResolvedRange × FeedRange),
      ledger (cuts.map (pieceLeaf operation continuation)) =
        cuts.map fun c => (c.2.span, continuation)
  | [] => rfl
  | c :: cuts => by
    rw [map_cons, ledger_cons (pieceLeaf_feedRange operation continuation c),
      ledger_pieceLeaf continuation cuts]
    simp [pieceLeaf]

/-- Along a cut, leaves of one continuation own the keys of the range, each once. -/
theorem cuts_ledger {cuts : List (ResolvedRange × FeedRange)}
    (exact : Cuts range cuts) (operation : CosmosOperation) (continuation : Option String) :
    (∀ e, ownersAt (ledger (cuts.map (pieceLeaf operation continuation))) e =
      if range.span.Has e ∧ e < .MAX then [continuation] else []) ∧
    Ascending (ledger (cuts.map (pieceLeaf operation continuation))) := by
  rw [ledger_pieceLeaf]
  constructor
  · intro e
    rw [ownersAt_map]
    exact exact.owners _ fun c _ => rfl
  · rw [Ascending, pairwise_map]
    exact exact.ordered

/-- A successful split resolves nonempty pieces, so the slice was a proper part of the
EPK space and the replacements are the leaves of its cut. -/
theorem replacementNodes_eq :
    ∀ {resolved : List ResolvedRange} {nodes : List Request},
      self.replacementNodes range resolved = .ok nodes →
      ∃ cuts : List (ResolvedRange × FeedRange), cuts.map Prod.fst = resolved ∧
        (∀ c ∈ cuts, intersectFeedRanges c.1.range range = some c.2) ∧
        nodes = cuts.map (pieceLeaf self.operation self.state.continuation)
  | [], nodes, h => by
    cases h
    exact ⟨[], rfl, by simp, rfl⟩
  | r :: rest, nodes, h => by
    rw [Request.replacementNodes] at h
    split at h
    · exact absurd h (by simp)
    · rename_i owned piece
      cases tail : self.replacementNodes range rest with
      | error fault => simp [tail, bind, Except.bind] at h
      | ok others =>
        obtain ⟨cuts, fsts, pieces, rfl⟩ := replacementNodes_eq tail
        simp only [tail, bind, Except.bind, Except.ok.injEq] at h
        refine ⟨(r, owned) :: cuts, by simp [fsts], ?_, h.symm⟩
        exact forall_mem_cons.mpr ⟨piece, pieces⟩

/-- A refreshed topology, if there is one, is a complete partition of the EPK space. -/
def Poll.Complete (w : Poll) : Prop :=
  ∀ m, w.topology = some (some m) → m.Valid

/-- **A split keeps the slice and its position.**  The replacements of a split are the
leaves of the slice's cut, each with the operation and continuation of the split
leaf. -/
theorem split_cuts {w : Poll} (complete : w.Complete) {resolved : List ResolvedRange}
    (found : contextResolveRanges w.topology range = .ok resolved)
    (replaced : self.replacementNodes range resolved = .ok nodes) :
    ∃ cuts, Cuts range cuts ∧
      nodes = cuts.map (pieceLeaf self.operation self.state.continuation) := by
  obtain ⟨cuts, rfl, pieces, rfl⟩ := replacementNodes_eq replaced
  unfold contextResolveRanges at found
  split at found
  · exact absurd found (by simp [fail])
  · rename_i routingMap topology
    cases routingMap with
    | none => exact absurd found (by simp [resolveRanges, fail])
    | some m => exact ⟨cuts, cuts_of_pieces (complete m topology) found pieces, rfl⟩

end AzureSdk.Cosmos.Dataflow
