/-
# Cosmos.Dataflow.Planner — cross-partition plans, fresh and resumed

`build_sequential_drain` turns the EPK ranges of a query plan into request leaves.
A fresh plan has one leaf per query range and physical partition.  A resumed plan
walks the current topology above the saved cursor and re-attaches the saved server
continuations to the slices they belong to; slices without one start afresh.

The definitions follow the source function by function.  Its running vectors are
read off the emitted pieces: a piece records which saved entry it continues, so the
leaves and the coverage of every entry are two views of one list.
-/
import AzureSdk.Cosmos.Dataflow.Drain

namespace AzureSdk.Cosmos.Dataflow

open Theory.Interval EffectivePartitionKey FeedRange

inductive DistinctType
  | none
  | ordered
  | unordered
  deriving DecidableEq, Repr

inductive SortOrder
  | ascending
  | descending
  deriving DecidableEq, Repr

/-- `QueryInfo`, with the fields that are checked for unsupported features. -/
structure QueryInfo where
  distinctType : DistinctType
  top : Option Nat
  limit : Option Nat
  orderBy : List SortOrder
  groupByExpressions : List String
  aggregates : List String
  deriving DecidableEq, Repr

/-- Bounds in hex; only the upper inclusivity flag is read. -/
structure QueryRange where
  min : String
  max : String
  isMaxInclusive : Bool
  deriving DecidableEq, Repr

/-- Of a hybrid search only its presence matters here. -/
structure QueryPlan where
  queryInfo : Option QueryInfo
  queryRanges : List QueryRange
  hasHybridSearchQueryInfo : Bool
  deriving DecidableEq, Repr

def clientUnsupportedQueryFeature : CosmosStatus := ⟨400, some 20113⟩

def unsupportedFeature (feature : String) : Result Unit :=
  fail clientUnsupportedQueryFeature ("unsupported query feature: " ++ feature)

def validateQueryInfo (info : QueryInfo) : Result Unit :=
  if info.top.isSome then unsupportedFeature "TOP clause in cross-partition queries"
  else if info.limit.isSome then unsupportedFeature "LIMIT clause in cross-partition queries"
  else if info.orderBy ≠ [] then unsupportedFeature "ORDER BY in cross-partition queries"
  else if info.aggregates ≠ [] then unsupportedFeature "aggregates in cross-partition queries"
  else if info.groupByExpressions ≠ [] then unsupportedFeature "GROUP BY in cross-partition queries"
  else if info.distinctType ≠ .none then unsupportedFeature "DISTINCT in cross-partition queries"
  else .ok ()

def validateQueryPlan (plan : QueryPlan) : Result Unit :=
  if plan.hasHybridSearchQueryInfo then unsupportedFeature "hybrid search queries"
  else
    match plan.queryInfo with
    | some info => validateQueryInfo info
    | none => .ok ()

/-- A closed point becomes the window up to its successor,
every other range is taken as it stands. -/
def queryRangeToFeedRange (queryRange : QueryRange) (normalizedLen : Option Nat) :
    Result FeedRange :=
  let min := ofHex queryRange.min
  let max := ofHex queryRange.max
  let max :=
    if queryRange.isMaxInclusive = true ∧ min = max then
      match normalizedLen with
      | some len => max.normalizedSuccessor len
      | none => max.successor
    else max
  new min max

def renderFeedRangeForError (range : FeedRange) : String :=
  "range [" ++ range.minInclusive.toHex ++ ", " ++ range.maxExclusive.toHex ++ ")"

/-- The piece of a resolved partition that lies in the query range, or
`topology_range_not_overlapping_error`. -/
def clipResolved (resolved query : FeedRange) : Result FeedRange :=
  match intersectFeedRanges resolved query with
  | some range => .ok range
  | none => fail .clientQueryPlanRangeNotCoveredByTopology
    ("resolved topology " ++ renderFeedRangeForError resolved ++
      " does not overlap query plan EPK " ++ renderFeedRangeForError query)

/-- Runs an action on every element and concatenates what it emits. -/
def emitAll {α β : Type} (f : α → Result (List β)) : List α → Result (List β)
  | [] => .ok []
  | x :: xs => do
    let first ← f x
    let rest ← emitAll f xs
    .ok (first ++ rest)

/-- The clip of a query range to the operation's scope. -/
def clipToScope (scope : Option FeedRange) (planRange : FeedRange) : Option FeedRange :=
  match scope with
  | some scope => intersectFeedRanges scope planRange
  | none => some planRange

/-- Resolves a feed range and handles every resolved partition. -/
def overFeedRange {β : Type} (topology : Option ContainerRoutingMap)
    (emit : FeedRange → ResolvedRange → Result (List β)) (feedRange : FeedRange) :
    Result (List β) := do
  let resolved ← resolveRanges topology feedRange
  emitAll (emit feedRange) resolved

/-- The loop body that `plan_fresh` and `plan_resume_from_saved_snapshot` share: a query
range becomes a feed range, is clipped to the operation's scope, and is resolved
against the topology; `emit` handles one resolved partition. -/
def overQueryRange {β : Type} (topology : Option ContainerRoutingMap)
    (operation : CosmosOperation) (emit : FeedRange → ResolvedRange → Result (List β))
    (queryRange : QueryRange) : Result (List β) := do
  let planRange ← queryRangeToFeedRange queryRange (operation.container.bind normalizedEpkLen)
  match clipToScope operation.target planRange with
  | none => .ok []
  | some feedRange => overFeedRange topology emit feedRange

def overQueryRanges {β : Type} (plan : QueryPlan) (topology : Option ContainerRoutingMap)
    (operation : CosmosOperation) (emit : FeedRange → ResolvedRange → Result (List β)) :
    Result (List β) :=
  emitAll (overQueryRange topology operation emit) plan.queryRanges

/-- The body of the `plan_fresh` loop for one resolved partition. -/
def freshLeaf (operation : CosmosOperation) (feedRange : FeedRange)
    (resolvedRange : ResolvedRange) : Result (List Request) := do
  let range ← clipResolved resolvedRange.range feedRange
  .ok [pieceLeaf operation none (resolvedRange, range)]

def planFresh (plan : QueryPlan) (topology : Option ContainerRoutingMap)
    (operation : CosmosOperation) : Result (List Request) :=
  overQueryRanges plan topology operation (freshLeaf operation)

/-! ## Saved snapshots -/

structure SavedActiveToken where
  range : FeedRange
  serverContinuation : String
  deriving DecidableEq

structure SavedSnapshot where
  cursor : EffectivePartitionKey
  activeTokens : List SavedActiveToken
  deriving DecidableEq

/-- `[min, max)` in hex. -/
def renderBounds (range : FeedRange) : String :=
  "[" ++ range.minInclusive.toHex ++ ", " ++ range.maxExclusive.toHex ++ ")"

/-- The loop over the saved entries, after the entry with range `prev`.  A drain and a change feed
check the bounds of an entry, and word an overlap, in their own ways. -/
def parseEntries (bounds : EffectivePartitionKey → EffectivePartitionKey → Result Unit)
    (overlaps : String) : Option FeedRange → List RangedToken → Result (List SavedActiveToken)
  | _, [] => .ok []
  | prev, entry :: rest => do
    bounds (ofHex entry.minEpk) (ofHex entry.maxEpk)
    let range ← new (ofHex entry.minEpk) (ofHex entry.maxEpk)
    match prev.filter (fun prev => decide (range.minInclusive < prev.maxExclusive)) with
    | some prev =>
      fail .clientContinuationTokenInvalidEpkRange
        ("continuation token active_tokens must be sorted and non-overlapping; entry " ++
          renderBounds range ++ overlaps ++ renderBounds prev)
    | none => do
      let parsed ← parseEntries bounds overlaps (some range) rest
      .ok (⟨range, entry.serverContinuation⟩ :: parsed)

/-- The loop of `validate_saved_snapshot`. -/
def parseSavedTokens : Option FeedRange → List RangedToken → Result (List SavedActiveToken) :=
  parseEntries (fun min max =>
    if max < min then
      fail .clientContinuationTokenInvalidEpkRange
        ("continuation token has invalid active_tokens entry (min `" ++ min.toHex ++
          "` > max `" ++ max.toHex ++ "`)")
    else if min = max then
      fail .clientContinuationTokenInvalidEpkRange
        ("continuation token has zero-width active_tokens entry (min == max == `" ++
          min.toHex ++ "`); zero-width entries cannot carry remaining work")
    else .ok ())
    " is out of order or overlaps the previous entry "

def validateSavedSnapshot (leftMostUndrainedEpk : String) (activeTokens : List RangedToken) :
    Result SavedSnapshot := do
  let cursor := ofHex leftMostUndrainedEpk
  let parsed ← parseSavedTokens none activeTokens
  match parsed.head?.filter (fun first => decide (first.range.minInclusive < cursor)) with
  | some first =>
    fail .clientContinuationTokenInvalidEpkRange
      ("continuation token cursor `" ++ cursor.toHex ++
        "` is past the first active_tokens entry " ++ renderBounds first.range ++
        "; cursor must be at or before every active range")
  | none => .ok ⟨cursor, parsed⟩

/-! ## Resuming -/

/-- A leaf of a resumed plan, its slice, and the saved entry it continues with the
entry's index. -/
structure ResumePiece where
  range : FeedRange
  leaf : Request
  entry : Option (SavedActiveToken × Nat)

variable (operation : CosmosOperation)

/-- A slice without saved continuation, if it is not empty. -/
def gapPiece (resolvedRange : ResolvedRange)
    (lo hi : EffectivePartitionKey) : Result (List ResumePiece) :=
  if lo < hi then do
    let gap ← new lo hi
    .ok [⟨gap, pieceLeaf operation none (resolvedRange, gap), none⟩]
  else .ok []

/-- The walk over the saved entries within one partition, up to `leafMax`. -/
def walkTokens (resolvedRange : ResolvedRange)
    (leafMax : EffectivePartitionKey) :
    EffectivePartitionKey → List (SavedActiveToken × Nat) → Result (List ResumePiece)
  | cursorWithinLeaf, [] => gapPiece operation resolvedRange cursorWithinLeaf leafMax
  | cursorWithinLeaf, (entry, idx) :: rest =>
    if entry.range.maxExclusive ≤ cursorWithinLeaf then
      walkTokens resolvedRange leafMax cursorWithinLeaf rest
    else if leafMax ≤ entry.range.minInclusive then
      -- `break`: what is left of the partition is a trailing gap
      gapPiece operation resolvedRange cursorWithinLeaf leafMax
    else do
      let overlapMin :=
        if cursorWithinLeaf < entry.range.minInclusive then entry.range.minInclusive
        else cursorWithinLeaf
      let overlapMax :=
        if entry.range.maxExclusive < leafMax then entry.range.maxExclusive else leafMax
      let before ← gapPiece operation resolvedRange cursorWithinLeaf overlapMin
      let intersection ← new overlapMin overlapMax
      let later ← walkTokens resolvedRange leafMax overlapMax rest
      .ok (before ++ ⟨intersection, pieceLeaf operation (some entry.serverContinuation)
        (resolvedRange, intersection), some (entry, idx)⟩ :: later)

/-- The body of the resume loop for one resolved partition. -/
def resumePartition (saved : SavedSnapshot) (feedRange : FeedRange)
    (resolvedRange : ResolvedRange) : Result (List ResumePiece) := do
  let leafScope ← clipResolved resolvedRange.range feedRange
  if leafScope.maxExclusive ≤ saved.cursor then .ok []
  else do
    let effectiveMin :=
      if leafScope.minInclusive < saved.cursor then saved.cursor else leafScope.minInclusive
    let effectiveLeaf ← new effectiveMin leafScope.maxExclusive
    walkTokens operation resolvedRange effectiveLeaf.maxExclusive effectiveLeaf.minInclusive
      saved.activeTokens.zipIdx

/-- `sort_by` on the lower bounds. -/
def sortByMin (pieces : List FeedRange) : List FeedRange :=
  pieces.insertionSort fun a b => a.minInclusive ≤ b.minInclusive

def rangeFullyCovered (range : FeedRange) (pieces : List FeedRange) : Bool :=
  if pieces.isEmpty then false
  else coverWalk range.maxExclusive range.minInclusive ((sortByMin pieces).map span)

/-- The slices that were emitted for the saved entry `idx`. -/
def coverage (pieces : List ResumePiece) (idx : Nat) : List FeedRange :=
  (pieces.filter fun p => p.entry.map Prod.snd == some idx).map (·.range)

/-- The coverage as the error message renders it: at most eight pieces. -/
def coverageSummary (pieces : List FeedRange) : String :=
  if pieces.isEmpty then "(no overlapping topology ranges)"
  else
    let rendered := " + ".intercalate (((sortByMin pieces).take 8).map renderBounds)
    if 8 < pieces.length then
      rendered ++ " + ... (" ++ toString pieces.length ++ " total ranges)"
    else rendered

/-- The final check: every saved entry is covered by what was emitted for it. -/
def checkCoverage (pieces : List ResumePiece) : List (SavedActiveToken × Nat) → Result Unit
  | [] => .ok ()
  | (entry, idx) :: rest =>
    if rangeFullyCovered entry.range (coverage pieces idx) then checkCoverage pieces rest
    else fail .clientContinuationTokenSavedRangeUnhonored
      ("continuation token active range " ++ renderBounds entry.range ++
        " could not be fully covered by the current topology above the cursor (covered: " ++
        coverageSummary (coverage pieces idx) ++ "); the query cannot be safely resumed")

def planResumeFromSavedSnapshot (plan : QueryPlan) (topology : Option ContainerRoutingMap)
    (operation : CosmosOperation) (saved : SavedSnapshot) : Result (List Request) := do
  let pieces ← overQueryRanges plan topology operation (resumePartition operation saved)
  checkCoverage pieces saved.activeTokens.zipIdx
  .ok (pieces.map (·.leaf))

/-- The pipelines that the planner builds. -/
inductive Pipeline
  | drainedLeaf
  | sequentialDrain (children : List Request)
  | unorderedMerge (children : List Request) (startMarker : Option ChangeFeedStartFrom)
  deriving DecidableEq

def Pipeline.leaves : Pipeline → List Request
  | .drainedLeaf => []
  | .sequentialDrain children => children
  | .unorderedMerge children _ => children

def buildSequentialDrain (plan : QueryPlan) (topology : Option ContainerRoutingMap)
    (operation : CosmosOperation) (resume : Option PipelineNodeState) : Result Pipeline := do
  validateQueryPlan plan
  match resume with
  | none => do
    let nodes ← planFresh plan topology operation
    if nodes.isEmpty then
      fail .clientQueryPlanProducedEmptyRanges "query plan produced no partition ranges to query"
    else .ok (.sequentialDrain nodes)
  | some .drained => .ok .drainedLeaf
  | some (.sequentialDrain leftMostUndrainedEpk activeTokens) => do
    let saved ← validateSavedSnapshot leftMostUndrainedEpk activeTokens
    let nodes ← planResumeFromSavedSnapshot plan topology operation saved
    if nodes.isEmpty then .ok .drainedLeaf else .ok (.sequentialDrain nodes)
  | some other =>
    fail .clientContinuationTokenShapeMismatch
      ("continuation token shape " ++ snapshotKind other ++
        " does not match a cross-partition operation")

end AzureSdk.Cosmos.Dataflow
