/-
# Cosmos.Session.Helpers — the latest session token of a feed range

`get_latest_session_token` merges tokens that callers kept per feed range.  Tokens
of one range are merged first (`mergeSameRanges`).  Then a worklist, largest range
first, compares each range with the ranges inside it (`mergeSubsetsLoop`): a parent
that is ahead drops its children, children that together make up the parent
replace it, and else both stay.  What is left is merged by partition key range id.
-/
import AzureSdk.Theory.Erase
import AzureSdk.Cosmos.FeedRange
import AzureSdk.Cosmos.Session.Segment

namespace AzureSdk.Cosmos.Session

open Theory SessionTokenSegment

/-- A feed range and its session token. -/
abbrev RangeToken := FeedRange × Text

def canMerge (a b : FeedRange) : Bool :=
  if a.isLogicalPartition || b.isLogicalPartition then false
  else a.overlaps b || decide (a.maxExclusive = b.minInclusive) ||
    decide (b.maxExclusive = a.minInclusive)

/-- Of equal bounds, `min` takes the left one and `max` the right one. -/
def mergeRanges (a b : FeedRange) : Result FeedRange :=
  let min := if b.minInclusive < a.minInclusive then b.minInclusive else a.minInclusive
  let max := if b.maxExclusive < a.maxExclusive then a.maxExclusive else b.maxExclusive
  match FeedRange.new min max with
  | .ok merged => .ok merged
  | .error _ => .error (.panic "min_inclusive <= max_exclusive after merge")

def isCompound (token : Text) : Bool := token.contains ','

/-- A segment is ahead of another and not the other way round. -/
def strictlyNewer (a b : SessionTokenSegment) : Bool := a.isAsRecentAs b && !b.isAsRecentAs a

/-! ## Tokens of one range -/

/-- The segment of `merge_tokens_same_range`: the id of the second one if that is newer. -/
def mergeSegmentsSameRange (seg1 seg2 : SessionTokenSegment) : SessionTokenSegment :=
  let seg1 :=
    if seg1.pkRangeId ≠ seg2.pkRangeId ∧ strictlyNewer seg2 seg1 then
      { seg1 with pkRangeId := seg2.pkRangeId }
    else seg1
  (seg1.mergeValue seg2).1

def mergeTokensSameRange (token1 token2 : Text) : Result Text := do
  let seg1 ← parse token1
  let seg2 ← parse token2
  .ok (mergeSegmentsSameRange seg1 seg2).display

/-- The test of the inner loop of `merge_same_ranges`. -/
def sameRange (a b : RangeToken) : Bool :=
  !isCompound a.2 && !isCompound b.2 && decide (a.1 = b.1)

/-- The first positions `i < j`, row by row, that the loops of `merge_same_ranges` merge. -/
def nextPair : List RangeToken → Option (Nat × Nat)
  | [] => none
  | first :: rest =>
    match rest.findIdx? (sameRange first) with
    | some j => some (0, j + 1)
    | none => (nextPair rest).map fun p => (p.1 + 1, p.2 + 1)

/-- `merge_same_ranges`: after every merge the scan starts over, with the merged token at
the end.  Each merge shortens the list, so its length bounds the rounds. -/
def mergeSameRangesLoop : Nat → List RangeToken → Result (List RangeToken)
  | 0, overlapping => .ok overlapping
  | fuel + 1, overlapping =>
    match nextPair overlapping with
    | none => .ok overlapping
    | some (i, j) =>
      match overlapping[i]?, overlapping[j]? with
      | some (range, token1), some (_, token2) => do
        let merged ← mergeTokensSameRange token1 token2
        mergeSameRangesLoop fuel (((overlapping.eraseIdx j).eraseIdx i) ++ [(range, merged)])
      | _, _ => .ok overlapping

def mergeSameRanges (overlapping : List RangeToken) : Result (List RangeToken) :=
  mergeSameRangesLoop overlapping.length overlapping

/-! ## Ranges inside ranges -/

/-- A range inside the current one, with its position behind it. -/
structure Subset where
  index : Nat
  range : FeedRange
  token : Text

inductive MergeAction
  | none
  | keepParent (childrenIndices : List Nat)
  | replaceParent (childrenIndices : List Nat) (compound : RangeToken)
  | addCompound (childrenIndices : List Nat) (compound : RangeToken)

/-- `tokens.join(",")`. -/
def joinTokens (tokens : List Text) : Text := [','].intercalate tokens

/-- One subset of the inner loop of `analyze_subsets`: it is taken in where it touches what
is merged so far. -/
def takeIn (mergedRange : FeedRange) (members : List Subset) (subset : Subset) :
    Result (FeedRange × List Subset) :=
  if canMerge mergedRange subset.range then do
    let merged ← mergeRanges mergedRange subset.range
    .ok (merged, members ++ [subset])
  else .ok (mergedRange, members)

/-- The inner loop of `analyze_subsets`: takes in the other subsets, in order, until the
parent's range is reached. -/
def combineSubsets (parentRange : FeedRange) :
    FeedRange → List Subset → List Subset → Result (Option (FeedRange × List Subset))
  | _, _, [] => .ok none
  | mergedRange, members, subset :: others => do
    let next ← takeIn mergedRange members subset
    if parentRange = next.1 then .ok (some next)
    else combineSubsets parentRange next.1 next.2 others

/-- What `analyze_subsets` does with children that make up the parent. -/
def actionFor (parentSeg : SessionTokenSegment) (parentToken : Text) (mergedRange : FeedRange)
    (members : List Subset) : Result MergeAction := do
  let segments ← members.mapM fun child => parse child.token
  let indices := members.map (·.index)
  let tokens := members.map (·.token)
  if segments.all fun child => !strictlyNewer parentSeg child then
    .ok (.replaceParent indices (mergedRange, joinTokens tokens))
  else if segments.all fun child => strictlyNewer parentSeg child then
    .ok (.keepParent indices)
  else
    .ok (.addCompound indices (mergedRange, joinTokens (tokens ++ [parentToken])))

/-- The outer loop of `analyze_subsets`: every subset is tried as the first one, with the
ones before and behind it in their order. -/
def tryStarts (parentRange : FeedRange) (parentSeg : SessionTokenSegment) (parentToken : Text)
    (before : List Subset) : List Subset → Result MergeAction
  | [] => .ok .none
  | start :: others => do
    match ← combineSubsets parentRange start.range [start] (before ++ others) with
    | some (mergedRange, members) => actionFor parentSeg parentToken mergedRange members
    | none => tryStarts parentRange parentSeg parentToken (before ++ [start]) others

/-- `analyze_subsets`; `sort_by` is stable, as is insertion sort. -/
def analyzeSubsets (parentRange : FeedRange) (parentSeg : SessionTokenSegment) (parentToken : Text)
    (subsets : List Subset) : Result MergeAction :=
  tryStarts parentRange parentSeg parentToken []
    (subsets.insertionSort fun a b => a.range.minInclusive ≤ b.range.minInclusive)

/-- From the last index to the first. -/
def removeIndices (overlapping : List RangeToken) (indices : List Nat) : List RangeToken :=
  Erase.eraseAll overlapping indices

/-- The non-compound ranges behind the current one that lie inside it. -/
def subsetsOf (rangeCmp : FeedRange) (rest : List RangeToken) : List Subset :=
  (rest.zipIdx.filter fun p => !isCompound p.1.2 && p.1.1.isSubsetOf rangeCmp).map
    fun p => ⟨p.2, p.1.1, p.1.2⟩

/-- What is left and what is processed after an action. -/
def MergeAction.after (current : RangeToken) (rest processed : List RangeToken) :
    MergeAction → List RangeToken × List RangeToken
  | .none => (rest, processed ++ [current])
  | .keepParent indices => (removeIndices rest indices, processed ++ [current])
  | .replaceParent indices compound => (removeIndices rest indices ++ [compound], processed)
  | .addCompound indices compound =>
    (removeIndices rest indices ++ [compound], processed ++ [current])

/-- One round of the loop of `merge_ranges_with_subsets`; positions are counted behind the current
range, which the source keeps at index 0. -/
def roundOf (current : RangeToken) (rest processed : List RangeToken) :
    Result (List RangeToken × List RangeToken) :=
  if isCompound current.2 then .ok (rest, processed ++ [current])
  else do
    let segCmp ← parse current.2
    match subsetsOf current.1 rest with
    | [] => .ok (rest, processed ++ [current])
    | [child] => do
      let childSeg ← parse child.token
      if strictlyNewer segCmp childSeg then .ok (rest.eraseIdx child.index, processed ++ [current])
      else .ok (rest, processed ++ [current])
    | subsets => do
      let action ← analyzeSubsets current.1 segCmp current.2 subsets
      .ok (action.after current rest processed)

/-- The loop.  Every round shortens the worklist. -/
def mergeSubsetsLoop : Nat → List RangeToken → List RangeToken → Result (List RangeToken)
  | 0, _, processed => .ok processed
  | _, [], processed => .ok processed
  | fuel + 1, current :: rest, processed => do
    let after ← roundOf current rest processed
    mergeSubsetsLoop fuel after.1 after.2

/-- The order of the worklist: larger ranges first. -/
def largerFirst (a b : RangeToken) : Bool :=
  if b.1.maxExclusive < a.1.maxExclusive then true
  else if a.1.maxExclusive < b.1.maxExclusive then false
  else decide (a.1.minInclusive ≤ b.1.minInclusive)

def mergeRangesWithSubsets (overlapping : List RangeToken) : Result (List RangeToken) :=
  mergeSubsetsLoop overlapping.length (overlapping.insertionSort fun a b => largerFirst a b = true) []

/-! ## The whole merge -/

def splitCompoundTokens (rangesAndTokens : List RangeToken) : List Text :=
  rangesAndTokens.flatMap fun p => headerParts p.2

/-- No token at all is an index out of bounds. -/
def mergeTokensByPartition : List Text → Result Text
  | [] => .error (.panic "index out of bounds: the len is 0 but the index is 0")
  | first :: rest => rest.foldlM SessionToken.merge first

/-- The last two steps of `get_latest_session_token`. -/
def finish (processed : List RangeToken) : Result Text :=
  match splitCompoundTokens processed with
  | [only] => .ok only
  | remaining => mergeTokensByPartition remaining

def getLatestSessionToken (feedRangesToSessionTokens : List RangeToken)
    (targetFeedRange : FeedRange) : Result Text :=
  match feedRangesToSessionTokens.filter fun p => targetFeedRange.overlaps p.1 with
  | [] => fail .clientNoOverlappingFeedRangesForSessionToken
    "no overlapping feed ranges with the target feed range"
  | overlapping => do
    let overlapping ← mergeSameRanges overlapping
    let processed ← mergeRangesWithSubsets overlapping
    finish processed

end AzureSdk.Cosmos.Session
