/-
# Cosmos.Pipeline.RetryBound — every operation stops retrying

A retry spends one of six budgets.  `Spent` lists how, and `evaluate_spends` walks the
handlers once to show that a returned state has spent one of them.  `Remaining` is what
is left of each: no retry increases any of it, and the sum decreases, since a 449 waits
at least the initial delay of its schedule.  So an operation ends within the sum.
-/
import AzureSdk.Theory.Run
import AzureSdk.Cosmos.Pipeline.RetryEvaluation

namespace AzureSdk.Cosmos.Pipeline

open Theory OperationRetryState

def OperationAction.newState : OperationAction → Option OperationRetryState
  | .failoverRetry newState _ | .inRegionRetry newState _ | .sessionRetry newState
  | .dtxRetry newState _ => some newState
  | .complete _ | .abort _ => none

def OperationAction.Ends : OperationAction → Prop
  | .complete _ | .abort _ => True
  | _ => False

theorem OperationAction.ends_iff {action : OperationAction} :
    action.Ends ↔ action.newState = none := by
  cases action <;> simp [Ends, newState]

/-! ## What a retry does to the state -/

section Spending

variable {scaling : Scaling} {operation : CosmosOperation} {endpoint : CosmosEndpoint}
  {s s' : OperationRetryState} {status : CosmosStatus}

/-- A retry has budget left and advances it. -/
inductive Spent (scaling : Scaling) (s : OperationRetryState) : OperationRetryState → Prop
  | failover (can : s.canRetryFailover = true) : Spent scaling s s.advanceFailover
  | backendFailover (can : s.canRetryBackendFailover = true) :
    Spent scaling s s.advanceBackendFailover
  | session (can : s.canRetrySession = true) : Spent scaling s (buildSessionRetryState s)
  | dtxCoordinator (can : s.canRetryDtxCoordinator = true) :
    Spent scaling s s.advanceDtxCoordinatorRetry
  | dtxInfra (can : s.canRetryDtxInfra = true) : Spent scaling s s.advanceDtxInfraRetry
  | retryWith (random : Nat)
    (can : s.retryWith.canRetry (s.retryWith.nextDelay scaling random) = true) :
    Spent scaling s (s.advanceRetryWithDelay (s.retryWith.nextDelay scaling random))

/-- What the evaluation answers is an end or a retry that has spent. -/
def Spends (scaling : Scaling) (s : OperationRetryState) (e : Evaluation) : Prop :=
  ∀ s', e.1.newState = some s' → Spent scaling s s'

theorem spends_failover (can : s.canRetryFailover = true) (delay : Option Duration)
    (effects : List LocationEffect) :
    Spends scaling s (.failoverRetry s.advanceFailover delay, effects) := by
  intro s' h
  cases h
  exact .failover can

theorem spends_backendFailover (can : s.canRetryBackendFailover = true) (delay : Option Duration)
    (effects : List LocationEffect) :
    Spends scaling s (.failoverRetry s.advanceBackendFailover delay, effects) := by
  intro s' h
  cases h
  exact .backendFailover can

theorem spends_complete (outcome : TransportOutcome) (effects : List LocationEffect) :
    Spends scaling s (.complete outcome, effects) := by
  intro s' h
  cases h

theorem spends_abort (error : AbortError) (effects : List LocationEffect) :
    Spends scaling s (.abort error, effects) := by
  intro s' h
  cases h

variable {e : Evaluation}

theorem writeForbidden_spends
    (h : tryHandleWriteForbidden operation endpoint s status = some e) : Spends scaling s e := by
  unfold tryHandleWriteForbidden at h
  split at h
  · cases h
  split at h
  · split at h
    · cases h
    · rename_i can
      cases h
      exact spends_failover (by simpa using can) _ _
  · split at h
    · split at h
      · cases h
      · rename_i can
        cases h
        exact spends_backendFailover (by simpa using can) _ _
    · split at h
      · cases h
      · rename_i can
        cases h
        exact spends_failover (by simpa using can) _ _

theorem databaseAccountNotFound_spends
    (h : tryHandleDatabaseAccountNotFound operation endpoint s status = some e) :
    Spends scaling s e := by
  unfold tryHandleDatabaseAccountNotFound at h
  split at h
  · cases h
  split at h
  · cases h
  · rename_i can
    cases h
    exact spends_backendFailover (by simpa using can) _ _

theorem readSessionNotAvailable_spends {headers : CosmosResponseHeaders} {body : List UInt8}
    (h : tryHandleReadSessionNotAvailable s status headers body = some e) :
    Spends scaling s e := by
  unfold tryHandleReadSessionNotAvailable at h
  split at h
  · cases h
  split at h
  · cases h
    exact spends_abort _ _
  · cases h
    intro s' h
    cases h
    exact .session (by simp_all)

theorem retryTriggerGroup_spends {requestSent : RequestSentStatus}
    (h : tryHandleRetryTriggerGroup operation endpoint s status requestSent = some e) :
    Spends scaling s e := by
  unfold tryHandleRetryTriggerGroup at h
  dsimp only at h
  split at h
  · cases h
  have can : s.canRetryFailover = true := by simp_all
  split at h
  · cases h
    exact spends_failover can _ _
  · cases h
    exact spends_failover can _ _

theorem retryWith_spends {random : Nat}
    (h : tryHandleRetryWith s status scaling random = some e) : Spends scaling s e := by
  unfold tryHandleRetryWith at h
  split at h
  · cases h
  dsimp only at h
  split at h
  · cases h
  · rename_i can
    cases h
    intro s' h
    cases h
    exact .retryWith random (by simpa using can)

theorem serverError_spends
    (h : tryHandleServerError operation endpoint s status = some e) : Spends scaling s e := by
  unfold tryHandleServerError at h
  split at h
  · cases h
  · cases h
    exact spends_failover (by simp_all) _ _

theorem dtx_spends (headers : CosmosResponseHeaders) (body : List UInt8) :
    Spends scaling s (evaluateDtxHttpOutcome s status headers body) := by
  unfold evaluateDtxHttpOutcome
  split
  · split
    · rename_i newState delay retried
      intro s' h
      cases h
      unfold tryDtxBodylessRetry at retried
      split at retried
      · split at retried
        · cases retried
        · rename_i can
          cases retried
          exact .dtxCoordinator (by simpa using can)
      · split at retried
        · split at retried
          · cases retried
          · rename_i can
            cases retried
            exact .dtxInfra (by simpa using can)
        · cases retried
    · exact spends_complete _ _
  · exact spends_complete _ _

theorem httpOutcome_spends (random : Nat) (headers : CosmosResponseHeaders) (body : List UInt8)
    (requestSent : RequestSentStatus) :
    Spends scaling s (evaluateHttpOutcome operation endpoint s status scaling random headers body
      requestSent) := by
  unfold evaluateHttpOutcome
  split
  · exact writeForbidden_spends (by assumption)
  split
  · exact databaseAccountNotFound_spends (by assumption)
  split
  · exact dtx_spends headers body
  split
  · exact readSessionNotAvailable_spends (by assumption)
  split
  · exact retryTriggerGroup_spends (by assumption)
  split
  · exact retryWith_spends (by assumption)
  split
  · exact serverError_spends (by assumption)
  · exact spends_abort _ _

theorem evaluate_spends (attempt : Attempt) :
    Spends scaling s (evaluateTransportResult scaling operation attempt s) := by
  unfold evaluateTransportResult
  split
  · exact spends_complete _ _
  · exact httpOutcome_spends _ _ _ _
  · unfold evaluateTransportLayerOutcome
    dsimp only
    split
    · exact spends_failover (by assumption) _ _
    · exact spends_abort _ _
  · exact spends_abort _ _

end Spending

/-! ## What is left -/

/-- A retry after 449 waits at least the initial delay: the schedule has a positive initial
delay below the cap of a single one, and scaling does not shrink it. -/
structure RetryWithRetryState.Waits (scaling : Scaling) (r : RetryWithRetryState) : Prop where
  positive : 0 < r.initialDelay
  capped : r.initialDelay ≤ r.maxPerRetryDelay
  grows : ∀ attempt, r.initialDelay ≤ scaling r.initialDelay r.backoffFactor attempt

variable {scaling : Scaling} {s s' : OperationRetryState}

theorem RetryWithRetryState.Waits.le_nextDelay {r : RetryWithRetryState}
    (waits : r.Waits scaling) (random : Nat) : r.initialDelay ≤ r.nextDelay scaling random := by
  have base : r.initialDelay ≤ r.baseDelay scaling :=
    Nat.le_min.mpr ⟨waits.grows r.attemptCount, waits.capped⟩
  unfold RetryWithRetryState.nextDelay
  split
  · exact base
  · exact Nat.le_min.mpr ⟨Nat.le_add_right_of_le base, waits.capped⟩

/-- What is left of each budget; of the 449 time, in initial delays. -/
structure Remaining where
  failover : Nat
  backendFailover : Nat
  session : Nat
  dtxCoordinator : Nat
  dtxInfra : Nat
  retryWith : Nat
  deriving DecidableEq, Repr

namespace Remaining

def total (r : Remaining) : Nat :=
  r.failover + r.backendFailover + r.session + r.dtxCoordinator + r.dtxInfra + r.retryWith

/-- No budget is larger. -/
def Within (a b : Remaining) : Prop :=
  a.failover ≤ b.failover ∧ a.backendFailover ≤ b.backendFailover ∧ a.session ≤ b.session ∧
    a.dtxCoordinator ≤ b.dtxCoordinator ∧ a.dtxInfra ≤ b.dtxInfra ∧ a.retryWith ≤ b.retryWith

end Remaining

def OperationRetryState.remaining (s : OperationRetryState) : Remaining where
  failover := s.maxFailoverRetries - s.failoverRetryCount
  backendFailover := s.maxBackendFailoverRetries - s.backendFailoverRetryCount
  session := s.maxSessionRetries - s.sessionTokenRetryCount
  dtxCoordinator := maxDtxCoordinatorRetries - s.dtxCoordinatorRetryCount
  dtxInfra := maxDtxInfraRetries - s.dtxInfraRetryCount
  retryWith := (s.retryWith.maxTotalWait - s.retryWith.cumulativeDelay) / s.retryWith.initialDelay

theorem remaining_session (s : OperationRetryState) :
    (buildSessionRetryState s).remaining = { s.remaining with
      session := s.maxSessionRetries - (s.sessionTokenRetryCount + 1) } := by
  unfold buildSessionRetryState
  split <;> rfl

theorem div_sub_lt {left delay unit : Nat} (positive : 0 < unit) (atLeast : unit ≤ delay)
    (fits : delay ≤ left) : (left - delay) / unit < left / unit := by
  have one : (left - delay) / unit + 1 = (left - delay + unit) / unit :=
    (Nat.add_div_right _ positive).symm
  have le : (left - delay + unit) / unit ≤ left / unit := Nat.div_le_div_right (by omega)
  omega

theorem remaining_retryWith {random : Nat} (waits : s.retryWith.Waits scaling)
    (can : s.retryWith.canRetry (s.retryWith.nextDelay scaling random) = true) :
    (s.advanceRetryWithDelay (s.retryWith.nextDelay scaling random)).remaining.retryWith <
      s.remaining.retryWith := by
  have fits : s.retryWith.cumulativeDelay + s.retryWith.nextDelay scaling random ≤
    s.retryWith.maxTotalWait := of_decide_eq_true can
  have atLeast := waits.le_nextDelay random
  show (s.retryWith.maxTotalWait - (s.retryWith.cumulativeDelay + s.retryWith.nextDelay scaling
    random)) / s.retryWith.initialDelay < (s.retryWith.maxTotalWait - s.retryWith.cumulativeDelay) /
      s.retryWith.initialDelay
  rw [Nat.sub_add_eq]
  exact div_sub_lt waits.positive atLeast (Nat.le_sub_of_add_le' fits)

theorem spent_waits (waits : s.retryWith.Waits scaling) (spent : Spent scaling s s') :
    s'.retryWith.Waits scaling := by
  cases spent with
  | failover | backendFailover | dtxCoordinator | dtxInfra => exact waits
  | session =>
    have same : (buildSessionRetryState s).retryWith = s.retryWith := by
      unfold buildSessionRetryState
      split <;> rfl
    rw [same]
    exact waits
  | retryWith random _ => exact ⟨waits.positive, waits.capped, waits.grows⟩

theorem spent_remaining (waits : s.retryWith.Waits scaling) (spent : Spent scaling s s') :
    s'.remaining.Within s.remaining ∧ s'.remaining.total < s.remaining.total := by
  unfold Remaining.Within Remaining.total
  cases spent with
  | failover can =>
    have room : s.failoverRetryCount < s.maxFailoverRetries := of_decide_eq_true can
    simp only [remaining, advanceFailover,
      retryWith]
    omega
  | backendFailover can =>
    have room : s.backendFailoverRetryCount < s.maxBackendFailoverRetries := of_decide_eq_true can
    simp only [remaining, advanceBackendFailover,
      retryWith]
    omega
  | session can =>
    have room : s.sessionTokenRetryCount < s.maxSessionRetries := of_decide_eq_true can
    rw [remaining_session]
    simp only [remaining]
    omega
  | dtxCoordinator can =>
    have room : s.dtxCoordinatorRetryCount < maxDtxCoordinatorRetries := of_decide_eq_true can
    simp only [remaining, advanceDtxCoordinatorRetry,
      retryWith]
    omega
  | dtxInfra can =>
    have room : s.dtxInfraRetryCount < maxDtxInfraRetries := of_decide_eq_true can
    simp only [remaining, advanceDtxInfraRetry,
      retryWith]
    omega
  | retryWith random can =>
    have less := remaining_retryWith waits can
    have same : ∀ delay, (s.advanceRetryWithDelay delay).remaining = { s.remaining with
        retryWith := (s.advanceRetryWithDelay delay).remaining.retryWith } := fun _ => rfl
    rw [same]
    dsimp only
    omega

/-! ## Runs of attempts -/

/-- One turn of the operation loop: the state to retry with. -/
def retryStep (scaling : Scaling) (operation : CosmosOperation) (attempt : Attempt)
    (s : OperationRetryState) : Option OperationRetryState :=
  (evaluateTransportResult scaling operation attempt s).1.newState

theorem retryStep_spent {operation : CosmosOperation} {attempt : Attempt}
    (h : retryStep scaling operation attempt s = some s') :
    Spent scaling s s' := evaluate_spends attempt s' h

/-- **Every operation stops retrying.**  Whatever the attempts end in, an evaluation within
the total of the remaining budgets completes or aborts, no retry comes after that many, and no
retry increases a remaining budget. -/
theorem retries_are_bounded (scaling : Scaling) (operation : CosmosOperation)
    (attempts : Nat → Attempt) (s : OperationRetryState) (waits : s.retryWith.Waits scaling) :
    (∃ n ≤ s.remaining.total, ∃ t, feed (retryStep scaling operation) attempts s n = some t ∧
      (evaluateTransportResult scaling operation (attempts n) t).1.Ends) ∧
    (∀ n t, feed (retryStep scaling operation) attempts s n = some t →
      n ≤ s.remaining.total) ∧
    ∀ n t t', feed (retryStep scaling operation) attempts s n = some t →
      retryStep scaling operation (attempts n) t = some t' →
      t'.remaining.Within t.remaining ∧ t'.remaining.total < t.remaining.total := by
  have preserved : ∀ {i t t'}, t.retryWith.Waits scaling →
      retryStep scaling operation i t = some t' → t'.retryWith.Waits scaling :=
    fun waits h => spent_waits waits (retryStep_spent h)
  have decreases : ∀ {i t t'}, t.retryWith.Waits scaling →
      retryStep scaling operation i t = some t' → t'.remaining.total < t.remaining.total :=
    fun waits h => (spent_remaining waits (retryStep_spent h)).2
  refine ⟨?_, fun n t h => ?_, fun n t t' h next => ?_⟩
  · obtain ⟨n, le, t, h, stops⟩ := feed_stops preserved decreases waits
    exact ⟨n, le, t, h, OperationAction.ends_iff.mpr stops⟩
  · have spent := feed_measure preserved decreases waits h
    omega
  · have still : t.retryWith.Waits scaling := feed_invariant preserved waits h
    exact spent_remaining still (retryStep_spent next)

/-- Doubling, as `mul_f64` and `powi` compute it for the default factor. -/
def doubling : Scaling := fun delay _ attempt => delay * 2 ^ attempt

theorem doubling_waits : RetryWithRetryState.new.Waits doubling where
  positive := by decide
  capped := by decide
  grows attempt := Nat.le_mul_of_pos_right _ (Nat.two_pow_pos attempt)

/-- A replace with the default budgets, in a region that always answers 449. -/
theorem always449_stops :
    ∃ n ≤ 3143, ∃ t, feed (retryStep doubling ⟨.document, .replace⟩)
        (fun _ => ⟨⟨none, "r1"⟩, .httpError ⟨449, none⟩ ⟨none⟩ [] .sent, 3⟩)
        (.initial 0 false [] 3 1) n = some t ∧
      (evaluateTransportResult doubling ⟨.document, .replace⟩
        ⟨⟨none, "r1"⟩, .httpError ⟨449, none⟩ ⟨none⟩ [] .sent, 3⟩ t).1.Ends :=
  (retries_are_bounded doubling ⟨.document, .replace⟩
    (fun _ => ⟨⟨none, "r1"⟩, .httpError ⟨449, none⟩ ⟨none⟩ [] .sent, 3⟩)
    (.initial 0 false [] 3 1) doubling_waits).1

end AzureSdk.Cosmos.Pipeline
