/-
# Cosmos.Dataflow.Node — operations, pages and snapshot states

The vocabulary of the dataflow pipeline: what an operation asks for, what a node
answers when it is polled for a page, and what a node saves in a continuation
token.  A node type is described by the three methods that other nodes call
(`PipelineNode`), so the composite nodes can be verified for any children.
-/
import AzureSdk.Cosmos.Topology

namespace AzureSdk.Cosmos

inductive PartitionKeyKind
  | hash
  | multiHash
  | range
  deriving DecidableEq, Repr

inductive PartitionKeyVersion
  | v1
  | v2
  deriving DecidableEq, Repr

structure PartitionKeyDefinition where
  paths : List String
  kind : PartitionKeyKind
  version : PartitionKeyVersion
  deriving DecidableEq, Repr

/-- The fixed EPK width of a definition, if it has one. -/
def normalizedEpkLen (definition : PartitionKeyDefinition) : Option Nat :=
  match definition.version, definition.kind with
  | .v2, .hash => some (16 * max definition.paths.length 1)
  | .v2, .multiHash => some (16 * max definition.paths.length 1)
  | _, _ => none

namespace Dataflow

/-- A point in time is its timestamp. -/
inductive ChangeFeedStartFrom
  | beginning
  | now
  | pointInTime (timestamp : Nat)
  deriving DecidableEq, Repr

/-- The two conditional headers. -/
inductive Precondition
  | ifMatch (etag : String)
  | ifNoneMatch (etag : String)
  deriving DecidableEq, Repr

/-- `CosmosOperation`, with the fields the pipeline reads.  `container` is the
partition key definition of the operation's container; `ifModifiedSince` is the
timestamp that is written to the header in RFC 1123 form. -/
structure CosmosOperation where
  target : Option FeedRange
  container : Option PartitionKeyDefinition
  isChangeFeed : Bool
  changeFeedStart : Option ChangeFeedStartFrom
  precondition : Option Precondition
  ifModifiedSince : Option Nat
  deriving DecidableEq

/-- Records the start position and sets its header. -/
def CosmosOperation.withChangeFeedStart (op : CosmosOperation) (start : ChangeFeedStartFrom) :
    CosmosOperation :=
  match start with
  | .beginning => { op with changeFeedStart := some start }
  | .now =>
    { op with precondition := some (.ifNoneMatch "*"), changeFeedStart := some start }
  | .pointInTime timestamp =>
    { op with ifModifiedSince := some timestamp, changeFeedStart := some start }

/-- `CosmosResponse`, with the headers the pipeline reads. -/
structure CosmosResponse where
  body : List UInt8
  continuation : Option String
  etag : Option String
  deriving DecidableEq, Repr

/-- A server continuation and the EPK range it belongs to. -/
structure RangedToken where
  minEpk : String
  maxEpk : String
  serverContinuation : String
  deriving DecidableEq, Repr

/-- What a node saves in a continuation token. -/
inductive PipelineNodeState
  | drained
  | request (serverContinuation : Option String)
  | sequentialDrain (leftMostUndrainedEpk : String) (activeTokens : List RangedToken)
  | unorderedMerge (activeTokens : List RangedToken) (startFrom : Option ChangeFeedStartFrom)
  deriving DecidableEq, Repr

def snapshotKind : PipelineNodeState → String
  | .drained => "Drained"
  | .request _ => "Request"
  | .sequentialDrain _ _ => "SequentialDrain"
  | .unorderedMerge _ _ => "UnorderedMerge"

inductive ChildSnapshotContribution
  | drained
  | pending (serverContinuation : Option String)
  deriving DecidableEq, Repr

def intoChildContribution (parent : String) (idx total : Nat) :
    PipelineNodeState → Result ChildSnapshotContribution
  | .drained => .ok .drained
  | .request serverContinuation => .ok (.pending serverContinuation)
  | other => fail .clientContinuationTokenUnexpectedNestedShape
    (parent ++ " child " ++ toString idx ++ " of " ++ toString total ++
      " produced an unsupported snapshot shape: " ++ snapshotKind other)

/-- A page, the end of the node, or the nodes that replace it. -/
inductive PageResult (ν : Type)
  | page (response : CosmosResponse) (isTerminal : Bool)
  | drained
  | splitRequired (replacementNodes : List ν)

/-- `PipelineNode`: polling changes the node, so `nextPage` returns it as well.  `ω` is
what the outside world answers during one poll. -/
class PipelineNode (ω : outParam Type) (ν : Type) where
  nextPage : ω → ν → Result (PageResult ν) × ν
  snapshotState : ν → Result PipelineNodeState
  feedRange : ν → Option FeedRange

/-- One poll of a child: the child that was polled, what it reported, and the child
after the poll. -/
structure Polled (ν : Type) where
  child : ν
  report : Result (PageResult ν)
  after : ν

def poll {ω ν : Type} [PipelineNode ω ν] (w : ω) (child : ν) : Polled ν :=
  ⟨child, (PipelineNode.nextPage w child).1, (PipelineNode.nextPage w child).2⟩

/-- How a `next_page` call of a composite node ends: with a result, or dropped while
it waits for a child. -/
inductive Outcome (ν : Type)
  | returned (result : Result (PageResult ν))
  | pending

end Dataflow

end AzureSdk.Cosmos
