/-
# Cosmos.Pipeline.Components — the retry state of an operation

An operation carries its retry state from attempt to attempt: how many retries of each
kind it has used, the limits, and what routing reads.  Counters are guarded by their
limits before they advance; the 449 retries are limited by the time they have waited.
-/
import AzureSdk.Cosmos.Error
import AzureSdk.Cosmos.Models

namespace AzureSdk.Cosmos.Pipeline

/-- `std::time::Duration`, in nanoseconds. -/
abbrev Duration := Nat

namespace Duration

def fromMillis (n : Nat) : Duration := n * 1000000

def fromSecs (n : Nat) : Duration := n * 1000000000

end Duration

/-- `CosmosEndpoint`, by its region and gateway address. -/
structure CosmosEndpoint where
  region : Option String
  gatewayUrl : String
  deriving DecidableEq, Repr

inductive UnavailableReason
  | writeForbidden | databaseAccountNotFound | serviceUnavailable | requestTimeout
  | internalServerError | transportError
  deriving DecidableEq, Repr

structure UnavailablePartition where
  partitionKeyRangeId : Option String
  region : Option String
  isRead : Bool
  isPartitionedResource : Bool
  deriving DecidableEq, Repr

inductive LocationEffect
  | markEndpointUnavailable (endpoint : CosmosEndpoint) (reason : UnavailableReason)
  | markPartitionUnavailable (partition : UnavailablePartition)
  | refreshAccountProperties
  | cacheHubRegion (partitionKeyRangeId : String) (hubEndpoint : CosmosEndpoint)
  | advanceHubRegionDiscovery (partitionKeyRangeId : String) (failedEndpoint : CosmosEndpoint)
  deriving DecidableEq, Repr

structure LocationIndex where
  index : Nat
  generation : Nat
  deriving DecidableEq, Repr

inductive SessionRetryRouting
  | preferredEndpoints
  | preferredWriteEndpoints
  deriving DecidableEq, Repr

/-- `MAX_BACKEND_FAILOVER_RETRIES`. -/
def maxBackendFailoverRetriesDefault : Nat := 120

def backendFailoverRetryInterval : Duration := .fromMillis 1000

def maxDtxCoordinatorRetries : Nat := 10

def maxDtxInfraRetries : Nat := 9

def dtxCoordinatorRetryInterval : Duration := .fromSecs 1

/-! ## Retries after 449 -/

/-- `Duration::mul_f64(f64::powi(factor, attempt))` of the standard library: the delay, the
bits of the factor and the attempt. -/
abbrev Scaling := Duration → UInt64 → Nat → Duration

/-- The backoff factor is the bit pattern of its `f64`. -/
structure RetryWithRetryState where
  attemptCount : Nat
  cumulativeDelay : Duration
  initialDelay : Duration
  maxPerRetryDelay : Duration
  maxTotalWait : Duration
  backoffFactor : UInt64
  saltMaxMillis : Nat
  deriving DecidableEq, Repr

namespace RetryWithRetryState

/-- `RetryWithRetryState::new`; `0x4000000000000000` is `2.0`. -/
def new : RetryWithRetryState where
  attemptCount := 0
  cumulativeDelay := 0
  initialDelay := .fromMillis 10
  maxPerRetryDelay := .fromSecs 1
  maxTotalWait := .fromSecs 30
  backoffFactor := 0x4000000000000000
  saltMaxMillis := 5

def baseDelay (scaling : Scaling) (self : RetryWithRetryState) : Duration :=
  min (scaling self.initialDelay self.backoffFactor self.attemptCount) self.maxPerRetryDelay

/-- `next_delay`; `random` is what `rand::random` returned. -/
def nextDelay (scaling : Scaling) (random : Nat) (self : RetryWithRetryState) : Duration :=
  if self.saltMaxMillis = 0 then self.baseDelay scaling
  else min (self.baseDelay scaling + .fromMillis (random % self.saltMaxMillis))
    self.maxPerRetryDelay

def canRetry (self : RetryWithRetryState) (delay : Duration) : Bool :=
  decide (self.cumulativeDelay + delay ≤ self.maxTotalWait)

def advanceWithDelay (self : RetryWithRetryState) (delay : Duration) : RetryWithRetryState :=
  { self with
    attemptCount := self.attemptCount + 1
    cumulativeDelay := self.cumulativeDelay + delay }

end RetryWithRetryState

/-! ## The retry state -/

/-- The shared latch is the value of its atomic. -/
structure OperationRetryState where
  location : LocationIndex
  failoverRetryCount : Nat
  sessionTokenRetryCount : Nat
  retryWithState : Option RetryWithRetryState
  backendFailoverRetryCount : Nat
  dtxCoordinatorRetryCount : Nat
  dtxInfraRetryCount : Nat
  maxFailoverRetries : Nat
  maxBackendFailoverRetries : Nat
  maxSessionRetries : Nat
  canUseMultipleWriteLocations : Bool
  isDataplane : Bool
  hubRegionProcessingOnly : Bool
  sharedHubRegionLatch : Option Bool
  excludedRegions : List String
  sessionRetryRouting : SessionRetryRouting
  partitionKeyRangeId : Option String
  ppafWriteRetryAllowed : Bool
  ppcbActive : Bool
  pendingWriteEffects : List LocationEffect
  hedgeAlreadyFired : Bool
  deriving DecidableEq, Repr

namespace OperationRetryState

def initial (generation : Nat) (canUseMultipleWriteLocations : Bool)
    (excludedRegions : List String) (maxFailoverRetries maxSessionRetries : Nat) :
    OperationRetryState where
  location := ⟨0, generation⟩
  failoverRetryCount := 0
  sessionTokenRetryCount := 0
  retryWithState := none
  backendFailoverRetryCount := 0
  dtxCoordinatorRetryCount := 0
  dtxInfraRetryCount := 0
  maxFailoverRetries := maxFailoverRetries
  maxBackendFailoverRetries := maxBackendFailoverRetriesDefault
  maxSessionRetries := maxSessionRetries
  canUseMultipleWriteLocations := canUseMultipleWriteLocations
  isDataplane := false
  hubRegionProcessingOnly := false
  sharedHubRegionLatch := none
  excludedRegions := excludedRegions
  sessionRetryRouting := .preferredEndpoints
  partitionKeyRangeId := none
  ppafWriteRetryAllowed := false
  ppcbActive := false
  pendingWriteEffects := []
  hedgeAlreadyFired := false

variable (self : OperationRetryState)

def canRetryFailover : Bool :=
  decide (self.failoverRetryCount < self.maxFailoverRetries)

def canRetryBackendFailover : Bool :=
  decide (self.backendFailoverRetryCount < self.maxBackendFailoverRetries)

def canRetryDtxCoordinator : Bool :=
  decide (self.dtxCoordinatorRetryCount < maxDtxCoordinatorRetries)

def canRetryDtxInfra : Bool :=
  decide (self.dtxInfraRetryCount < maxDtxInfraRetries)

def canRetrySession : Bool :=
  decide (self.sessionTokenRetryCount < self.maxSessionRetries)

def advanceFailover : OperationRetryState :=
  { self with
    failoverRetryCount := self.failoverRetryCount + 1
    sessionRetryRouting := .preferredEndpoints }

def advanceBackendFailover : OperationRetryState :=
  { self with
    backendFailoverRetryCount := self.backendFailoverRetryCount + 1
    sessionRetryRouting := .preferredEndpoints }

def advanceDtxCoordinatorRetry : OperationRetryState :=
  { self with dtxCoordinatorRetryCount := self.dtxCoordinatorRetryCount + 1 }

def advanceDtxInfraRetry : OperationRetryState :=
  { self with dtxInfraRetryCount := self.dtxInfraRetryCount + 1 }

def advanceSessionRetry : OperationRetryState :=
  { self with
    sessionTokenRetryCount := self.sessionTokenRetryCount + 1
    sessionRetryRouting :=
      if self.canUseMultipleWriteLocations then .preferredEndpoints else .preferredWriteEndpoints }

/-- The 449 state, at its start where there was no 449 yet. -/
def retryWith : RetryWithRetryState :=
  self.retryWithState.getD .new

def advanceRetryWithDelay (delay : Duration) : OperationRetryState :=
  { self with retryWithState := some (self.retryWith.advanceWithDelay delay) }

end OperationRetryState

end AzureSdk.Cosmos.Pipeline
