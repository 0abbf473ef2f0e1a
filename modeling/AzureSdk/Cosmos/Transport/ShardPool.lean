/-
# Cosmos.Transport.ShardPool — the connections of one endpoint

An endpoint has a pool of shards, each an HTTP/2 client.  A request selects one: it looks
at the list, tries to add a shard where all are at capacity, and otherwise takes the
least loaded one that is not marked for eviction.  A health sweep marks failing shards,
removes marked ones that are idle and overflow that has been idle for long, and builds
replacements.

The list is swapped as a whole and read without a lock; only changes of the list are
serialised.  The steps of a selection and of a sweep are therefore separate steps, with
requests starting and finishing between them, and a selection looks at a list that may have been
replaced since it was loaded.  While a sweep is between its snapshots and
the new list it holds the write lock, and no shard is created.
-/
import Mathlib.Algebra.Order.Ring.Int
import Mathlib.Data.List.MinMax
import Mathlib.Data.Prod.Lex
import Mathlib.Logic.Function.Basic
import AzureSdk.Cosmos.Error

namespace AzureSdk.Cosmos.Transport

/-- `ConnectionPoolOptions`, by what the pool reads and its builder has checked. -/
structure ConnectionPoolOptions where
  maxStreams : Nat
  minConnections : Nat
  maxConnections : Nat
  failureThreshold : Nat
  gracePeriod : Nat
  idleTimeout : Nat
  maxStreams_pos : 1 ≤ maxStreams
  maxConnections_pos : 1 ≤ maxConnections
  min_le_max : minConnections ≤ maxConnections

abbrev ShardId := Nat

/-- Instants are numbers of nanoseconds. -/
structure ClientShard where
  inflight : Nat
  markedForEviction : Bool
  lastRequestAt : Nat
  lastSuccessAt : Option Nat
  consecutiveFailures : Nat
  totalRequests : Nat
  totalFailures : Nat
  totalCancellations : Nat
  deriving DecidableEq, Repr

namespace ClientShard

def new (now : Nat) : ClientShard := ⟨0, false, now, none, 0, 0, 0, 0⟩

def startRequest (now : Nat) (s : ClientShard) : ClientShard :=
  { s with
    inflight := s.inflight + 1
    totalRequests := s.totalRequests + 1
    lastRequestAt := now }

def recordRequestOutcome (now : Nat) (isOk : Bool) (s : ClientShard) : ClientShard :=
  if isOk then
    { s with
      inflight := s.inflight - 1
      lastRequestAt := now
      lastSuccessAt := some now
      consecutiveFailures := 0 }
  else
    { s with
      inflight := s.inflight - 1
      lastRequestAt := now
      consecutiveFailures := s.consecutiveFailures + 1
      totalFailures := s.totalFailures + 1 }

/-- `decrement_inflight`, where the request was cancelled. -/
def decrementInflight (s : ClientShard) : ClientShard :=
  { s with
    inflight := s.inflight - 1
    totalCancellations := s.totalCancellations + 1 }

def markForEviction (s : ClientShard) : ClientShard := { s with markedForEviction := true }

def isIdleFor (s : ClientShard) (now idleTimeout : Nat) : Bool :=
  s.inflight == 0 && decide (idleTimeout ≤ now - s.lastRequestAt)

end ClientShard

/-- The shards there have been, by their ids. -/
abbrev Heap := ShardId → ClientShard

/-! ## Selection -/

def isSelectable (heap : Heap) (excluded : Option ShardId) (x : ShardId) : Bool :=
  excluded != some x && !(heap x).markedForEviction

variable (options : ConnectionPoolOptions)

def activeShardCount (heap : Heap) (excluded : Option ShardId)
    (shards : List ShardId) : Nat :=
  let selectable := shards.filter (isSelectable heap excluded)
  let totalInflight := (selectable.map fun x => (heap x).inflight).sum
  if selectable.length = 0 then 0
  else
    let needed := (totalInflight + 1 + options.maxStreams - 1) / options.maxStreams
    max (min (max needed options.minConnections) selectable.length) 1

/-- The shard with the fewest requests in flight, the first of several. -/
def leastLoaded (heap : Heap) (shards : List ShardId) : Option ShardId :=
  shards.argmin fun x => (heap x).inflight

def selectFromShards (heap : Heap) (shards : List ShardId)
    (excluded preferred : Option ShardId) : Option ShardId :=
  let reused := preferred.bind fun preferredId =>
    (shards.find? fun x => x == preferredId && isSelectable heap excluded x).filter
      fun x => decide ((heap x).inflight < options.maxStreams)
  match reused with
  | some x => some x
  | none =>
    leastLoaded heap
      (((shards.filter (isSelectable heap excluded)).take
        (activeShardCount options heap excluded shards)).filter
          fun x => decide ((heap x).inflight < options.maxStreams))

/-- The fallback of `select_shard`: the least loaded of all selectable shards. -/
def selectOverCapacity (heap : Heap) (shards : List ShardId) (excluded : Option ShardId) :
    Option ShardId :=
  leastLoaded heap (shards.filter (isSelectable heap excluded))

/-! ## Health -/

/-- `ClientShardHealthSnapshot`. -/
structure HealthSnapshot where
  id : ShardId
  inflight : Nat
  lastRequestAt : Nat
  lastSuccessAt : Option Nat
  consecutiveFailures : Nat
  totalRequests : Nat
  totalFailures : Nat
  markedForEviction : Bool
  deriving DecidableEq, Repr

def snapshot (heap : Heap) (x : ShardId) : HealthSnapshot where
  id := x
  inflight := (heap x).inflight
  lastRequestAt := (heap x).lastRequestAt
  lastSuccessAt := (heap x).lastSuccessAt
  consecutiveFailures := (heap x).consecutiveFailures
  totalRequests := (heap x).totalRequests
  totalFailures := (heap x).totalFailures
  markedForEviction := (heap x).markedForEviction

def HealthSnapshot.hasRecentSuccess (s : HealthSnapshot) (now gracePeriod : Nat) : Bool :=
  match s.lastSuccessAt with
  | some lastSuccessAt => decide (now - lastSuccessAt ≤ gracePeriod)
  | none => false

/-- Below the failure threshold, or with a recent success. -/
def HealthSnapshot.isHealthy (now : Nat) (s : HealthSnapshot) :
    Bool :=
  decide (s.consecutiveFailures < options.failureThreshold) ||
    s.hasRecentSuccess now options.gracePeriod

/-- The key of `pick_probe_candidate`; `Reverse` is the dual order. -/
def HealthSnapshot.probeKey (s : HealthSnapshot) : Nat ×ₗ Natᵒᵈ ×ₗ Nat ×ₗ Natᵒᵈ ×ₗ Nat :=
  toLex (s.consecutiveFailures,
    toLex (OrderDual.toDual (s.lastSuccessAt.getD s.lastRequestAt),
      toLex (s.totalFailures, toLex (OrderDual.toDual s.totalRequests, s.inflight))))

/-- `pick_probe_candidate`; `max_by_key` takes the last of several. -/
def pickProbeCandidate (now : Nat)
    (snapshots : List HealthSnapshot) : Option ShardId :=
  let unmarked := snapshots.filter fun s => !s.markedForEviction
  if unmarked.any (·.isHealthy options now) || unmarked.isEmpty then none
  else (unmarked.reverse.argmax (·.probeKey)).map (·.id)

def shouldMark (now : Nat) (snapshots : List HealthSnapshot)
    (s : HealthSnapshot) : Bool :=
  match pickProbeCandidate options now snapshots with
  | some probeId => s.id == probeId
  | none =>
    (snapshots.any fun p => !p.markedForEviction && p.isHealthy options now) &&
      decide (options.failureThreshold ≤ s.consecutiveFailures) && !s.markedForEviction &&
      !s.hasRecentSuccess now options.gracePeriod

/-- The tail of the list is given up while it has more than `least` entries and its last one can
go; on the reversed list. -/
def giveUp (least : Nat) (canGo : ShardId → Bool) : List ShardId → List ShardId
  | [] => []
  | x :: rest =>
    if least < rest.length + 1 ∧ canGo x = true then giveUp least canGo rest else x :: rest

/-- The list a sweep keeps: without marked shards that are idle, and without overflow. -/
def keptShards (heap : Heap) (now : Nat)
    (shards : List ShardId) : List ShardId :=
  let kept := shards.filter fun x => !((heap x).markedForEviction && (heap x).inflight == 0)
  (giveUp options.minConnections
    (fun x => !(heap x).markedForEviction && (heap x).isIdleFor now options.idleTimeout)
    kept.reverse).reverse

def shardsNeeded (needsProbeReplacement : Bool) (len : Nat) :
    Nat :=
  let needed := if needsProbeReplacement && decide (len < options.maxConnections) then 1 else 0
  needed + (options.minConnections - (len + needed))

/-! ## The pool and its steps -/

/-- Where a call of `select_shard`, and the request after it, is. -/
inductive CallPhase
  | idle
  /-- About to load the list. -/
  | loading (excluded preferred : Option ShardId)
  /-- About to look for a shard with room in the list that was loaded. -/
  | looking (excluded preferred : Option ShardId) (loaded : List ShardId)
  /-- About to try to create a shard. -/
  | creating (excluded : Option ShardId)
  /-- No shard was created; about to load the list again. -/
  | falling (excluded : Option ShardId)
  /-- About to choose from the list that was loaded. -/
  | choosing (excluded : Option ShardId) (loaded : List ShardId)
  | selected (x : ShardId)
  | sending (x : ShardId)
  /-- `TRANSPORT_GENERATED_503`: the pool has no available shards. -/
  | failed (excluded : Option ShardId)
  deriving DecidableEq, Repr

inductive SweepPhase
  | resting
  /-- The write lock is taken and the snapshots are. -/
  | evaluating (now : Nat) (snapshots : List HealthSnapshot)
  /-- Shards are marked; the new list is to be stored. -/
  | storing (now : Nat) (needsProbeReplacement : Bool)
  /-- The write lock is released; replacements are to be built. -/
  | building (shardsNeeded : Nat)
  /-- The replacements are to be put into the list. -/
  | inserting (newShards : List ShardId)
  deriving DecidableEq, Repr

/-- `EndpointShardPool`, with the clock, the calls and the sweep. -/
structure Pool (ι : Type) where
  shards : List ShardId
  heap : Heap
  nextShardId : ShardId
  now : Nat
  call : ι → CallPhase
  sweep : SweepPhase

inductive Outcome
  | ok
  | error
  | cancelled
  deriving DecidableEq, Repr

inductive Event (ι : Type)
  | begin (c : ι) (excluded preferred : Option ShardId)
  | load (c : ι)
  | look (c : ι)
  | create (c : ι)
  | fallBack (c : ι)
  | choose (c : ι)
  /-- The caller only wanted to know the shard. -/
  | release (c : ι)
  | start (c : ι)
  | finish (c : ι) (outcome : Outcome)
  | sweepEvaluate
  | sweepMark
  | sweepStore
  | sweepBuild
  | sweepInsert
  | tick (elapsed : Nat)
  deriving DecidableEq, Repr

namespace Pool

variable {ι : Type}

/-- `EndpointShardPool::new`; the client factory succeeds, here and below. -/
def new (options : ConnectionPoolOptions) (now : Nat) : Pool ι where
  shards := List.range' 1 options.minConnections
  heap := fun _ => .new now
  nextShardId := 1 + options.minConnections
  now := now
  call := fun _ => .idle
  sweep := .resting

/-- The sweep holds the write lock. -/
def isLocked (s : Pool ι) : Bool :=
  match s.sweep with
  | .evaluating _ _ | .storing _ _ => true
  | _ => false

/-- `build_shard`, so often: the new ids, with a new shard under each. -/
def build (s : Pool ι) (count : Nat) : Pool ι × List ShardId :=
  ({ s with
      heap := fun x =>
        if s.nextShardId ≤ x ∧ x < s.nextShardId + count then .new s.now else s.heap x
      nextShardId := s.nextShardId + count },
    List.range' s.nextShardId count)

def mark (options : ConnectionPoolOptions) (now : Nat) (snapshots : List HealthSnapshot)
    (heap : Heap) : Heap :=
  fun x =>
    if snapshots.any fun p => p.id == x && shouldMark options now snapshots p then
      (heap x).markForEviction
    else heap x

variable [DecidableEq ι]

def goTo (s : Pool ι) (c : ι) (p : CallPhase) : Pool ι :=
  { s with call := Function.update s.call c p }

def modify (s : Pool ι) (x : ShardId) (f : ClientShard → ClientShard) : Pool ι :=
  { s with heap := Function.update s.heap x (f (s.heap x)) }

/-- `try_create_shard`, and the selection around it. -/
def tryCreate (options : ConnectionPoolOptions) (s : Pool ι) (c : ι) (excluded : Option ShardId) :
    Pool ι :=
  if options.maxConnections ≤ s.shards.length then s.goTo c (.falling excluded)
  else
    { (s.build 1).1 with shards := s.shards ++ (s.build 1).2 }.goTo c (.selected s.nextShardId)

/-- One step; where it cannot happen, the pool stays as it is.  A shard that is marked stays so:
that a choice reads all marks at once, at its end, hides no failure. -/
def step (options : ConnectionPoolOptions) (s : Pool ι) : Event ι → Pool ι
  | .begin c excluded preferred =>
    match s.call c with
    | .idle => s.goTo c (.loading excluded preferred)
    | _ => s
  | .load c =>
    match s.call c with
    | .loading excluded preferred => s.goTo c (.looking excluded preferred s.shards)
    | _ => s
  | .look c =>
    match s.call c with
    | .looking excluded preferred loaded =>
      match selectFromShards options s.heap loaded excluded preferred with
      | some x => s.goTo c (.selected x)
      | none => s.goTo c (.creating excluded)
    | _ => s
  | .create c =>
    match s.call c with
    | .creating excluded => if s.isLocked then s else s.tryCreate options c excluded
    | _ => s
  | .fallBack c =>
    match s.call c with
    | .falling excluded => s.goTo c (.choosing excluded s.shards)
    | _ => s
  | .choose c =>
    match s.call c with
    | .choosing excluded loaded =>
      match selectOverCapacity s.heap loaded excluded with
      | some x => s.goTo c (.selected x)
      | none => s.goTo c (.failed excluded)
    | _ => s
  | .release c =>
    match s.call c with
    | .selected _ => s.goTo c .idle
    | _ => s
  | .start c =>
    match s.call c with
    | .selected x => (s.modify x (·.startRequest s.now)).goTo c (.sending x)
    | _ => s
  | .finish c outcome =>
    match s.call c with
    | .sending x =>
      match outcome with
      | .ok => (s.modify x (·.recordRequestOutcome s.now true)).goTo c .idle
      | .error => (s.modify x (·.recordRequestOutcome s.now false)).goTo c .idle
      | .cancelled => (s.modify x (·.decrementInflight)).goTo c .idle
    | _ => s
  | .sweepEvaluate =>
    match s.sweep with
    | .resting =>
      if s.shards = [] then { s with sweep := .building options.minConnections }
      else { s with sweep := .evaluating s.now (s.shards.map (snapshot s.heap)) }
    | _ => s
  | .sweepMark =>
    match s.sweep with
    | .evaluating now snapshots =>
      { s with
        heap := mark options now snapshots s.heap
        sweep := .storing now (pickProbeCandidate options now snapshots).isSome }
    | _ => s
  | .sweepStore =>
    match s.sweep with
    | .storing now needsProbeReplacement =>
      let kept := keptShards options s.heap now s.shards
      { s with
        shards := kept
        sweep := .building (shardsNeeded options needsProbeReplacement kept.length) }
    | _ => s
  | .sweepBuild =>
    match s.sweep with
    | .building count => { (s.build count).1 with sweep := .inserting (s.build count).2 }
    | _ => s
  | .sweepInsert =>
    match s.sweep with
    | .inserting newShards =>
      { s with
        shards := s.shards ++ newShards.take (options.maxConnections - s.shards.length)
        sweep := .resting }
    | _ => s
  | .tick elapsed => { s with now := s.now + elapsed }

end Pool

end AzureSdk.Cosmos.Transport
