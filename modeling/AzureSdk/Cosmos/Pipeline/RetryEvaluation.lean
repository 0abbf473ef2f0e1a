/-
# Cosmos.Pipeline.RetryEvaluation — what follows an attempt

`evaluateTransportResult` looks at the outcome of one attempt and at the retry state,
and decides: complete, abort, or retry with a new state.  An HTTP error walks a chain
of handlers, of which the first that recognises the status and has budget left answers.
-/
import Mathlib.Algebra.Order.Ring.Int
import AzureSdk.Cosmos.Pipeline.Components

namespace AzureSdk.Cosmos.Pipeline

inductive RequestSentStatus
  | sent
  | notSent
  | unknown
  deriving DecidableEq, Repr

def RequestSentStatus.definitelyNotSent : RequestSentStatus → Bool
  | .notSent => true
  | _ => false

/-- `CosmosResponseHeaders`, by the header the evaluation reads. -/
structure CosmosResponseHeaders where
  retryAfterMs : Option Nat
  deriving DecidableEq, Repr

inductive TransportOutcome
  | success (status : CosmosStatus) (headers : CosmosResponseHeaders) (body : List UInt8)
  | httpError (status : CosmosStatus) (headers : CosmosResponseHeaders) (body : List UInt8)
    (requestSent : RequestSentStatus)
  | transportError (status : CosmosStatus) (error : CosmosError) (requestSent : RequestSentStatus)
  | deadlineExceeded (requestSent : RequestSentStatus)
  deriving DecidableEq, Repr

/-- The error an operation aborts with, by what it is built from. -/
inductive AbortError
  /-- `build_service_error`. -/
  | service (status : CosmosStatus) (headers : CosmosResponseHeaders) (body : List UInt8)
  /-- `build_transport_error`. -/
  | transport (status : CosmosStatus) (error : CosmosError)
  /-- The client's own end-to-end timeout. -/
  | timeout (error : CosmosError)
  deriving DecidableEq, Repr

/-- `OperationAction`, without the hedge that the pipeline makes of a retry. -/
inductive OperationAction
  | complete (outcome : TransportOutcome)
  | failoverRetry (newState : OperationRetryState) (delay : Option Duration)
  | inRegionRetry (newState : OperationRetryState) (delay : Duration)
  | sessionRetry (newState : OperationRetryState)
  | dtxRetry (newState : OperationRetryState) (delay : Duration)
  | abort (error : AbortError)
  deriving DecidableEq, Repr

abbrev Evaluation := OperationAction × List LocationEffect

/-- One attempt: where it went, what came of it, and the random number a 449 draws. -/
structure Attempt where
  endpoint : CosmosEndpoint
  outcome : TransportOutcome
  random : Nat

section Handlers

variable (operation : CosmosOperation) (endpoint : CosmosEndpoint)
  (retryState : OperationRetryState) (status : CosmosStatus)

def isPpcbManaged : Bool :=
  retryState.ppcbActive && operation.isPartitioned &&
    (operation.isReadOnly || retryState.canUseMultipleWriteLocations)

def makePartitionUnavailable (isRead : Bool) : UnavailablePartition where
  partitionKeyRangeId := retryState.partitionKeyRangeId
  region := endpoint.region
  isRead := isRead
  isPartitionedResource := operation.isPartitioned

/-- The endpoint is marked unless the circuit breaker of the partition decides. -/
def markEndpoint (reason : UnavailableReason) : List LocationEffect :=
  if isPpcbManaged operation retryState then []
  else [.markEndpointUnavailable endpoint reason]

def tryHandleWriteForbidden : Option Evaluation :=
  if !status.isWriteForbidden then none
  else if retryState.hubRegionProcessingOnly && operation.isReadOnly &&
      !retryState.canUseMultipleWriteLocations then
    if !retryState.canRetryFailover then none
    else
      let effects := match retryState.partitionKeyRangeId with
        | some pkRangeId => [.advanceHubRegionDiscovery pkRangeId endpoint]
        | none => []
      some (.failoverRetry retryState.advanceFailover none, effects)
  else
    let effects :=
      [.refreshAccountProperties,
        .markPartitionUnavailable (makePartitionUnavailable operation endpoint retryState false)] ++
      markEndpoint operation endpoint retryState .writeForbidden
    if retryState.canUseMultipleWriteLocations then
      if !retryState.canRetryBackendFailover then none
      else some (.failoverRetry retryState.advanceBackendFailover
        (some backendFailoverRetryInterval), effects)
    else if !retryState.canRetryFailover then none
    else some (.failoverRetry retryState.advanceFailover none, effects)

def tryHandleDatabaseAccountNotFound : Option Evaluation :=
  if !status.isDatabaseAccountNotFound then none
  else if !retryState.canRetryBackendFailover then none
  else some (.failoverRetry retryState.advanceBackendFailover (some backendFailoverRetryInterval),
    [.refreshAccountProperties,
      .markPartitionUnavailable
        (makePartitionUnavailable operation endpoint retryState operation.isReadOnly)] ++
    markEndpoint operation endpoint retryState .databaseAccountNotFound)

/-- The first session retry of a single-master data-plane
operation latches the hub-region header. -/
def buildSessionRetryState : OperationRetryState :=
  let newState := retryState.advanceSessionRetry
  if retryState.isDataplane && !retryState.canUseMultipleWriteLocations &&
      retryState.sessionTokenRetryCount == 0 && !retryState.hubRegionProcessingOnly then
    { newState with
      hubRegionProcessingOnly := true
      sharedHubRegionLatch := newState.sharedHubRegionLatch.map fun _ => true }
  else newState

def tryHandleReadSessionNotAvailable (headers : CosmosResponseHeaders) (body : List UInt8) :
    Option Evaluation :=
  if !(status.isReadSessionNotAvailable && retryState.canRetrySession) then none
  else if !retryState.canUseMultipleWriteLocations && 2 ≤ retryState.sessionTokenRetryCount then
    some (.abort (.service status headers body), [])
  else some (.sessionRetry (buildSessionRetryState retryState), [])

/-- `try_handle_retry_trigger_group`: 503, 410 without a topology change, 408 and 429/3092. -/
def tryHandleRetryTriggerGroup (requestSent : RequestSentStatus) : Option Evaluation :=
  let isSystemResourceUnavailable := status.isThrottled && status.subStatus == some 3092
  let isServiceUnavailable := status.statusCode == 503
  let isGone := status.isGone && !status.isPartitionTopologyChange
  let isRequestTimeout := status.statusCode == 408
  let inTriggerGroup :=
    isSystemResourceUnavailable || isServiceUnavailable || isGone || isRequestTimeout
  if !(inTriggerGroup && retryState.canRetryFailover) then none
  else if requestSent.definitelyNotSent then
    some (.failoverRetry retryState.advanceFailover none, [])
  else
    let unavailableReason :=
      if isRequestTimeout then .requestTimeout else .serviceUnavailable
    some (.failoverRetry retryState.advanceFailover none,
      [.markPartitionUnavailable
        (makePartitionUnavailable operation endpoint retryState operation.isReadOnly)] ++
      markEndpoint operation endpoint retryState unavailableReason)

/-- `try_handle_retry_with`: 449, in the same region after a delay. -/
def tryHandleRetryWith (scaling : Scaling) (random : Nat) : Option Evaluation :=
  if !status.isRetryWith then none
  else
    let delay := retryState.retryWith.nextDelay scaling random
    if !retryState.retryWith.canRetry delay then none
    else some (.inRegionRetry (retryState.advanceRetryWithDelay delay) delay, [])

def tryHandleServerError : Option Evaluation :=
  if !((status.isServerError || status.statusCode == 408) && retryState.canRetryFailover) then none
  else some (.failoverRetry retryState.advanceFailover none,
    [.markPartitionUnavailable
      (makePartitionUnavailable operation endpoint retryState operation.isReadOnly)] ++
    markEndpoint operation endpoint retryState .internalServerError)

/-! ## Distributed transactions -/

/-- `is_dtx_bodyless_coordinator_retriable`: 408, or 449 for a coordinator race. -/
def isDtxBodylessCoordinatorRetriable : Bool :=
  status.statusCode == 408 || (status.statusCode == 449 && status.subStatus == some 5352)

def isDtxBodylessInfraRetriable : Bool :=
  status.statusCode == 500 &&
    (status.subStatus == some 5411 || status.subStatus == some 5412 ||
      status.subStatus == some 5413)

/-- `dtx_infra_retry_delay`: 100 ms doubled up to six times, at most 5 s. -/
def dtxInfraRetryDelay (attempt : Nat) : Duration :=
  min (Duration.fromMillis 100 * 2 ^ min attempt 6) (.fromSecs 5)

def tryDtxBodylessRetry (headers : CosmosResponseHeaders) :
    Option (OperationRetryState × Duration) :=
  if isDtxBodylessCoordinatorRetriable status then
    if !retryState.canRetryDtxCoordinator then none
    else some (retryState.advanceDtxCoordinatorRetry,
      (headers.retryAfterMs.map Duration.fromMillis).getD dtxCoordinatorRetryInterval)
  else if isDtxBodylessInfraRetriable status then
    if !retryState.canRetryDtxInfra then none
    else some (retryState.advanceDtxInfraRetry, dtxInfraRetryDelay retryState.dtxInfraRetryCount)
  else none

/-- What is not retried is delivered up as it is. -/
def evaluateDtxHttpOutcome (headers : CosmosResponseHeaders) (body : List UInt8) : Evaluation :=
  let deliver : Evaluation := (.complete (.success status headers body), [])
  if body.isEmpty then
    match tryDtxBodylessRetry retryState status headers with
    | some (newState, delay) => (.dtxRetry newState delay, [])
    | none => deliver
  else deliver

/-! ## The evaluation -/

def evaluateHttpOutcome (scaling : Scaling) (random : Nat) (headers : CosmosResponseHeaders)
    (body : List UInt8) (requestSent : RequestSentStatus) : Evaluation :=
  match tryHandleWriteForbidden operation endpoint retryState status with
  | some result => result
  | none =>
  match tryHandleDatabaseAccountNotFound operation endpoint retryState status with
  | some result => result
  | none =>
  if operation.resourceType = .distributedTransactionBatch then
    evaluateDtxHttpOutcome retryState status headers body
  else
  match tryHandleReadSessionNotAvailable retryState status headers body with
  | some result => result
  | none =>
  match tryHandleRetryTriggerGroup operation endpoint retryState status requestSent with
  | some result => result
  | none =>
  match tryHandleRetryWith retryState status scaling random with
  | some result => result
  | none =>
  match tryHandleServerError operation endpoint retryState status with
  | some result => result
  | none => (.abort (.service status headers body), [])

/-- A request that may have been sent is retried like
one that was not; what differs is the mark. -/
def evaluateTransportLayerOutcome (error : CosmosError) (requestSent : RequestSentStatus) :
    Evaluation :=
  let effects :=
    if requestSent.definitelyNotSent then [.markEndpointUnavailable endpoint .transportError]
    else [.markPartitionUnavailable
      (makePartitionUnavailable operation endpoint retryState operation.isReadOnly)]
  if retryState.canRetryFailover then
    (.failoverRetry retryState.advanceFailover none, effects)
  else (.abort (.transport status error), effects)

def evaluateDeadlineExceededOutcome (requestSent : RequestSentStatus) : Evaluation :=
  (.abort (.timeout ⟨⟨408, some 20008⟩,
    if requestSent.definitelyNotSent then
      "end-to-end operation timeout exceeded before request was sent"
    else "end-to-end operation timeout exceeded"⟩), [])

end Handlers

def evaluateTransportResult (scaling : Scaling) (operation : CosmosOperation)
    (attempt : Attempt) (retryState : OperationRetryState) : Evaluation :=
  match attempt.outcome with
  | .success status headers body => (.complete (.success status headers body), [])
  | .httpError status headers body requestSent =>
    evaluateHttpOutcome operation attempt.endpoint retryState status scaling attempt.random
      headers body requestSent
  | .transportError status error requestSent =>
    evaluateTransportLayerOutcome operation attempt.endpoint retryState status error requestSent
  | .deadlineExceeded requestSent => evaluateDeadlineExceededOutcome requestSent

end AzureSdk.Cosmos.Pipeline
