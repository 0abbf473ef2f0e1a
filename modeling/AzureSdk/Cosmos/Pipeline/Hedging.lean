/-
# Cosmos.Pipeline.Hedging — a hedge leg is judged as a plain attempt is

`evaluateHedgeLegEffects` walks the handlers of `evaluateHttpOutcome` a second time, for
their effects alone, and leaves two of them out.  The two have no effects and answer
statuses, 404/1002 and 449, that no handler after them answers.
-/
import AzureSdk.Cosmos.Pipeline.RetryBound

namespace AzureSdk.Cosmos.Pipeline

open OperationRetryState CosmosStatus OperationAction Option

structure HedgeLegEvaluation where
  effects : List LocationEffect := []
  observedSessionUnavailable : Bool := false
  deriving DecidableEq, Repr

section Leg

variable (operation : CosmosOperation) (endpoint : CosmosEndpoint)
  (s : OperationRetryState)

/-- The handlers that a leg walks: the first that answers. -/
def legAnswer (status : CosmosStatus) (requestSent : RequestSentStatus) : Option Evaluation :=
  (tryHandleWriteForbidden operation endpoint s status).or <|
  (tryHandleDatabaseAccountNotFound operation endpoint s status).or <|
  (tryHandleRetryTriggerGroup operation endpoint s status requestSent).or <|
  tryHandleServerError operation endpoint s status

def evaluateHedgeLegEffects : TransportOutcome → HedgeLegEvaluation
  | .success .. => {}
  | .httpError status _ _ requestSent =>
    { observedSessionUnavailable :=
        status.isReadSessionNotAvailable && s.canRetrySession && s.isDataplane &&
          !s.canUseMultipleWriteLocations && s.sessionTokenRetryCount == 0 &&
          !s.hubRegionProcessingOnly
      effects := ((legAnswer operation endpoint s status requestSent).map (·.2)).getD [] }
  | .transportError _ _ requestSent =>
    { effects :=
        if requestSent.definitelyNotSent then [.markEndpointUnavailable endpoint .transportError]
        else [.markPartitionUnavailable
          (makePartitionUnavailable operation endpoint s operation.isReadOnly)] }
  | .deadlineExceeded _ => {}

end Leg

section HttpError

variable (scaling : Scaling) (operation : CosmosOperation) (endpoint : CosmosEndpoint)
  (s : OperationRetryState) (status : CosmosStatus) (headers : CosmosResponseHeaders)
  (body : List UInt8) (requestSent : RequestSentStatus) (random : Nat)

/-- The handlers that only a plain attempt walks. -/
def plainAnswer : Option Evaluation :=
  (tryHandleReadSessionNotAvailable s status headers body).or
    (tryHandleRetryWith s status scaling random)

variable {scaling operation endpoint s status headers body requestSent random}

theorem plainAnswer_alone {e : Evaluation}
    (answered : plainAnswer scaling s status headers body random = some e) :
    legAnswer operation endpoint s status requestSent = none ∧ e.2 = [] := by
  have own : (status.statusCode = 404 ∨ status.statusCode = 449) ∧ e.2 = [] := by
    simp only [plainAnswer, tryHandleReadSessionNotAvailable, tryHandleRetryWith,
      isReadSessionNotAvailable, isRetryWith] at answered
    grind
  refine ⟨?_, own.2⟩
  rcases own.1 with code | code <;>
    simp [legAnswer, tryHandleWriteForbidden, tryHandleDatabaseAccountNotFound,
      tryHandleRetryTriggerGroup, tryHandleServerError, isWriteForbidden,
      isDatabaseAccountNotFound, isThrottled, isGone,
      isServerError, code]

theorem evaluateHttpOutcome_eq (notDtx : operation.resourceType ≠ .distributedTransactionBatch) :
    evaluateHttpOutcome operation endpoint s status scaling random headers body requestSent =
      ((plainAnswer scaling s status headers body random).or
        (legAnswer operation endpoint s status requestSent)).getD
          (.abort (.service status headers body), []) := by
  cases answered : plainAnswer scaling s status headers body random with
  | none =>
    obtain ⟨session, retryWith⟩ := or_eq_none_iff.mp answered
    simp only [evaluateHttpOutcome, if_neg notDtx, session, retryWith, legAnswer]
    cases tryHandleWriteForbidden operation endpoint s status <;>
      cases tryHandleDatabaseAccountNotFound operation endpoint s status <;>
      cases tryHandleRetryTriggerGroup operation endpoint s status requestSent <;>
      cases tryHandleServerError operation endpoint s status <;>
      rfl
  | some e =>
    have silent := (@plainAnswer_alone _ operation endpoint _ _ _ _ requestSent _ _ answered).1
    simp only [legAnswer, or_eq_none_iff] at silent
    rw [← answered, plainAnswer]
    simp only [evaluateHttpOutcome, if_neg notDtx, silent, legAnswer]
    cases tryHandleReadSessionNotAvailable s status headers body <;>
      cases tryHandleRetryWith s status scaling random <;>
      rfl

/-- No handler but that of 404/1002 sets the latch. -/
theorem latch_kept {e : Evaluation} {s' : OperationRetryState}
    (answered : (tryHandleRetryWith s status scaling random).or
      (legAnswer operation endpoint s status requestSent) = some e)
    (new : e.1.newState = some s') : s'.hubRegionProcessingOnly = s.hubRegionProcessingOnly := by
  simp only [legAnswer, or_eq_some_iff] at answered
  rcases answered with h | ⟨-, h | ⟨-, h | ⟨-, h | ⟨-, h⟩⟩⟩⟩
  · unfold tryHandleRetryWith at h
    grind [newState, advanceRetryWithDelay]
  · unfold tryHandleWriteForbidden at h
    grind [newState, advanceFailover, advanceBackendFailover]
  · unfold tryHandleDatabaseAccountNotFound at h
    grind [newState, advanceBackendFailover]
  · unfold tryHandleRetryTriggerGroup at h
    grind [newState, advanceFailover]
  · unfold tryHandleServerError at h
    grind [newState, advanceFailover]

theorem httpError_latch (notDtx : operation.resourceType ≠ .distributedTransactionBatch)
    (off : s.hubRegionProcessingOnly = false) :
    (evaluateHedgeLegEffects operation endpoint s
      (.httpError status headers body requestSent)).observedSessionUnavailable = true ↔
    ∃ s', (evaluateHttpOutcome operation endpoint s status scaling random headers body
      requestSent).1.newState = some s' ∧ s'.hubRegionProcessingOnly = true := by
  rw [evaluateHttpOutcome_eq notDtx, plainAnswer, Option.or_assoc]
  cases can : status.isReadSessionNotAvailable && s.canRetrySession with
  | false =>
    simp only [evaluateHedgeLegEffects, tryHandleReadSessionNotAvailable, can, Bool.false_and,
      Bool.not_false, if_true, none_or, Bool.false_eq_true, false_iff]
    rintro ⟨s', new, on⟩
    cases answered : (tryHandleRetryWith s status scaling random).or
        (legAnswer operation endpoint s status requestSent) with
    | none =>
      rw [answered] at new
      cases new
    | some e =>
      rw [answered] at new
      rw [latch_kept answered new, off] at on
      cases on
  | true =>
    -- The abort comes at the third retry, the latch at the first.
    simp only [evaluateHedgeLegEffects, tryHandleReadSessionNotAvailable, can, off,
      Bool.not_true, Bool.false_eq_true, if_false]
    split
    · simp_all [newState]
      omega
    · simp only [buildSessionRetryState, off]
      split <;> simp_all [newState, advanceSessionRetry]

end HttpError

/-- **A hedge leg has the effects of the plain attempt, and reports the session exactly when
the plain attempt would have set the hub-region latch.** -/
theorem hedgeLeg_mirrors (scaling : Scaling) (operation : CosmosOperation) (attempt : Attempt)
    (retryState : OperationRetryState)
    (plain : operation.resourceType ≠ .distributedTransactionBatch) :
    (evaluateHedgeLegEffects operation attempt.endpoint retryState attempt.outcome).effects =
        (evaluateTransportResult scaling operation attempt retryState).2 ∧
      ((evaluateHedgeLegEffects operation attempt.endpoint retryState
          attempt.outcome).observedSessionUnavailable = true ↔
        retryState.hubRegionProcessingOnly = false ∧
        ∃ newState, (evaluateTransportResult scaling operation attempt retryState).1.newState =
          some newState ∧ newState.hubRegionProcessingOnly = true) := by
  obtain ⟨endpoint, outcome, random⟩ := attempt
  cases outcome with
  | success => simp [evaluateHedgeLegEffects, evaluateTransportResult, newState]
  | httpError status headers body requestSent =>
    constructor
    · simp only [evaluateHedgeLegEffects, evaluateTransportResult, evaluateHttpOutcome_eq plain]
      cases answered : plainAnswer scaling retryState status headers body random with
      | none => cases legAnswer operation endpoint retryState status requestSent <;> rfl
      | some e =>
        obtain ⟨silent, none⟩ : legAnswer operation endpoint retryState status requestSent = none ∧
            e.2 = [] := plainAnswer_alone answered
        rw [silent]
        exact none.symm
    · cases off : retryState.hubRegionProcessingOnly with
      | true => simp [evaluateHedgeLegEffects, off]
      | false =>
        simp only [true_and]
        exact httpError_latch plain off
  | transportError =>
    simp only [evaluateHedgeLegEffects, evaluateTransportResult, evaluateTransportLayerOutcome]
    cases retryState.canRetryFailover <;> simp [newState, advanceFailover]
  | deadlineExceeded =>
    simp [evaluateHedgeLegEffects, evaluateTransportResult, evaluateDeadlineExceededOutcome,
      newState]

/-- A first 404/1002 of a single-master read. -/
theorem hedgeLeg_mirrors_session :
    ∃ newState, (evaluateTransportResult doubling ⟨.document, .read⟩
        ⟨⟨none, "r1"⟩, .httpError ⟨404, some 1002⟩ ⟨none⟩ [] .sent, 0⟩
        { OperationRetryState.initial 0 false [] 3 1 with isDataplane := true }).1.newState =
      some newState ∧ newState.hubRegionProcessingOnly = true :=
  ((hedgeLeg_mirrors doubling ⟨.document, .read⟩
    ⟨⟨none, "r1"⟩, .httpError ⟨404, some 1002⟩ ⟨none⟩ [] .sent, 0⟩
    { OperationRetryState.initial 0 false [] 3 1 with isDataplane := true }
    (by decide)).2.mp (by decide)).2

end AzureSdk.Cosmos.Pipeline
