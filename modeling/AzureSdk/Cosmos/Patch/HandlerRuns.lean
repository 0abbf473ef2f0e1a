/-
# Cosmos.Patch.HandlerRuns — how often a patch takes effect

The versions one call has written are counted along every run.  A replace is conditional
on the version it was computed from, so each version of the call is the operations
applied to the version right before it.  The count is one for the answer the call
returns, and one for every commit whose answer was lost: the pipeline sends such a
replace again, the item refuses it, and the handler takes the refusal for a conflict and
applies the operations to its own result (`lost_answer_increments_twice`).
-/
import AzureSdk.Cosmos.Patch.Handler

namespace AzureSdk.Cosmos.Patch

open Theory Theory.Json Cosmos.Pipeline Register List Option

/-! ## What the evaluation makes of an outcome -/

/-- The evaluation of an error of the service retries or passes the error on. -/
def Answers (status : CosmosStatus) (headers : CosmosResponseHeaders) (body : List UInt8)
    (e : Evaluation) : Prop :=
  e.1.newState ≠ none ∨ e.1 = .abort (.service status headers body)

section Evaluation

variable {scaling : Scaling} {operation : CosmosOperation} {endpoint : CosmosEndpoint}
  {s : OperationRetryState} {status : CosmosStatus} {headers : CosmosResponseHeaders}
  {body : List UInt8} {e : Evaluation}

theorem readSessionNotAvailable_answers
    (h : tryHandleReadSessionNotAvailable s status headers body = some e) :
    Answers status headers body e := by
  unfold tryHandleReadSessionNotAvailable at h
  split at h
  · cases h
  split at h
  · cases h
    exact .inr rfl
  · cases h
    exact .inl nofun

variable {requestSent : RequestSentStatus}

/-- Every handler but that of sessions retries what it handles. -/
theorem handled_answers (random : Nat) (handled : Option Evaluation) (e : Evaluation)
    (h : handled = some e)
    (handler : handled ∈ [tryHandleWriteForbidden operation endpoint s status,
      tryHandleDatabaseAccountNotFound operation endpoint s status,
      tryHandleRetryTriggerGroup operation endpoint s status requestSent,
      tryHandleRetryWith s status scaling random,
      tryHandleServerError operation endpoint s status]) : Answers status headers body e := by
  simp only [mem_cons, not_mem_nil, or_false] at handler
  rcases handler with rfl | rfl | rfl | rfl | rfl
  all_goals
    simp only [tryHandleWriteForbidden, tryHandleDatabaseAccountNotFound,
      tryHandleRetryTriggerGroup, tryHandleRetryWith, tryHandleServerError] at h
    repeat' split at h
    all_goals
      cases h
      try exact .inl nofun

theorem httpOutcome_answers {random : Nat}
    (notDtx : operation.resourceType ≠ .distributedTransactionBatch) :
    Answers status headers body (evaluateHttpOutcome operation endpoint s status scaling random
      headers body requestSent) := by
  have handled :=
    @handled_answers scaling operation endpoint s status headers body requestSent random
  unfold evaluateHttpOutcome
  split
  · exact handled _ _ (by assumption) (by simp)
  split
  · exact handled _ _ (by assumption) (by simp)
  rw [if_neg notDtx]
  split
  · exact readSessionNotAvailable_answers (by assumption)
  split
  · exact handled _ _ (by assumption) (by simp)
  split
  · exact handled _ _ (by assumption) (by simp)
  split
  · exact handled _ _ (by assumption) (by simp)
  · exact .inr rfl

variable {attempt : Attempt}

/-- An outcome that is not the item's answer neither completes the replace nor is taken for a
conflict. -/
theorem evaluate_foreign (foreign : isForeign attempt.outcome = true) :
    (evaluateTransportResult scaling replaceOperation attempt s).1.newState ≠ none ∨
    ∃ error, (evaluateTransportResult scaling replaceOperation attempt s).1 = .abort error ∧
      isPreconditionFailed error = false := by
  unfold evaluateTransportResult
  cases h : attempt.outcome with
  | success status headers body =>
    rw [h] at foreign
    cases foreign
  | httpError status headers body requestSent =>
    rw [h] at foreign
    have answered : Answers status headers body (evaluateHttpOutcome replaceOperation
        attempt.endpoint s status scaling attempt.random headers body requestSent) :=
      httpOutcome_answers (by decide)
    rcases answered with retries | abort
    · exact .inl retries
    · refine .inr ⟨_, abort, ?_⟩
      simpa [isForeign, isPreconditionFailed] using foreign
  | transportError status error requestSent =>
    simp only [evaluateTransportLayerOutcome]
    split
    · exact .inl nofun
    · exact .inr ⟨_, rfl, rfl⟩
  | deadlineExceeded requestSent => exact .inr ⟨_, rfl, rfl⟩

end Evaluation

/-! ## Transmissions -/

/-- A commit whose answer is lost. -/
def Delivery.losesCommit : Delivery → Bool
  | .committed _ _ (some _) => true
  | _ => false

def Event.losesCommit : Event → Bool
  | .replaceSent delivery _ _ _ => delivery.losesCommit
  | _ => false

def lostCommits (events : List Event) : Nat := events.countP Event.losesCommit

/-- What a transmission did to the item and what the client saw, by whether it committed and
whether the client learned of it. -/
inductive Delivered (item : Register Etag Value) (op : ReplaceOp) (delivery : Delivery) :
    Register Etag Value → TransportOutcome → Prop
  | unanswered {outcome : TransportOutcome} (foreign : isForeign outcome = true)
    (keeps : delivery.losesCommit = false) : Delivered item op delivery item outcome
  | refused (subStatus : Option Nat) (keeps : delivery.losesCommit = false) :
    Delivered item op delivery item (.httpError ⟨412, subStatus⟩ ⟨none⟩ [] .sent)
  | lost {item' : Register Etag Value} {outcome : TransportOutcome} (tag : Etag)
    (swapped : item.swap op.ifMatch ⟨.own, tag, op.body⟩ = some item')
    (foreign : isForeign outcome = true) (loses : delivery.losesCommit = true) :
    Delivered item op delivery item' outcome
  | answered {item' : Register Etag Value} (tag : Etag)
    (swapped : item.swap op.ifMatch ⟨.own, tag, op.body⟩ = some item')
    (keeps : delivery.losesCommit = false) :
    Delivered item op delivery item' (.success ⟨200, none⟩ ⟨none⟩ [])

variable {outcome : TransportOutcome} {item : Register Etag Value}

theorem observed_some {answer seen : TransportOutcome}
    (h : observed answer (some outcome) = some seen) : isForeign seen = true := by
  rw [observed] at h
  split at h
  · cases h
    assumption
  · cases h

theorem deliver_delivered {item' : Register Etag Value} {op : ReplaceOp} {delivery : Delivery}
    (h : deliver item op delivery = some (item', outcome)) :
    Delivered item op delivery item' outcome := by
  cases delivery with
  | unprocessed seen =>
    rw [deliver] at h
    split at h
    · cases h
      exact .unanswered (by assumption) rfl
    · cases h
  | refused subStatus sessionToken lost =>
    rw [deliver] at h
    split at h
    · cases h
    obtain ⟨seen, observe, h⟩ := map_eq_some_iff.mp h
    cases h
    cases lost with
    | none =>
      cases observe
      exact .refused subStatus rfl
    | some foreign => exact .unanswered (observed_some observe) rfl
  | committed tag contentResponse lost =>
    obtain ⟨after, swapped, h⟩ := bind_eq_some_iff.mp h
    obtain ⟨seen, observe, h⟩ := bind_eq_some_iff.mp h
    cases h
    cases lost with
    | none =>
      cases observe
      exact .answered tag swapped rfl
    | some foreign => exact .lost tag swapped (observed_some observe) rfl

/-! ## The count along a run -/

variable (operations : List PatchOperation)

/-- The operations lead from one body to the next. -/
def Patched (before after : Value) : Prop :=
  applyPatchOps before operations = .ok after

/-- The versions the call has written, by its phase and by the answers lost so far; a replace
under way was computed from a version of the item. -/
def Counted (item : Register Etag Value) (lost : Nat) :
    Phase → Prop
  | .reading _ => item.owned = lost
  | .replacing _ op _ => item.owned = lost ∧
    ∃ v ∈ item.versions, v.tag = op.ifMatch ∧ Patched operations v.body op.body
  | .finished (.ok _) => item.owned = 1 + lost
  | .finished (.error _) => item.owned = lost

structure Sound (w : World) (lost : Nat) : Prop where
  derived : w.item.Derived (Patched operations)
  counted : Counted operations w.item lost w.phase

section Counting

variable {operations : List PatchOperation} {item item' : Register Etag Value} {lost : Nat}

variable {token : Option Text}

theorem counted_nextAttempt {attempts left : Nat}
    {last412 : Option AbortError} (owned : item.owned = lost) :
    Counted operations item lost (nextAttempt attempts left token last412) := by
  cases left with
  | zero => exact owned
  | succ left => exact owned

theorem counted_otherCommit {tag : Etag} {body : Value} {phase : Phase}
    (committed : item.commit ⟨.other, tag, body⟩ = some item')
    (counted : Counted operations item lost phase) : Counted operations item' lost phase := by
  have owned : item'.owned = item.owned := commit_owned committed
  cases phase with
  | reading loop => exact owned.trans counted
  | replacing loop op retryState =>
    obtain ⟨count, v, mem, tag, patched⟩ := counted
    refine ⟨owned.trans count, v, ?_, tag, patched⟩
    rw [commit_versions committed]
    exact .tail _ mem
  | finished result =>
    cases result with
    | ok response | error failure => exact owned.trans counted

variable {loop : Loop} {op : ReplaceOp} {call : PatchCall} {delivery : Delivery}
  {rerouting : Rerouting} {s : OperationRetryState} {scaling : Scaling}

theorem mergeRead_eq_ok {loop' : Loop} {response : ReadResponse}
    (h : mergeRead operations loop response = .ok (loop', op)) :
    ∃ value, response.etag = some op.ifMatch ∧ response.body = .ok value ∧
      Patched operations value op.body := by
  obtain ⟨etag, tagged, h⟩ := bind_ok h
  obtain ⟨value, read, h⟩ := bind_ok h
  obtain ⟨merged, applied, h⟩ := bind_ok h
  cases h
  refine ⟨value, ?_, ?_, ?_⟩
  · unfold ReadResponse.requireEtag at tagged
    split at tagged
    · cases tagged
    · cases tagged
      assumption
  · unfold ReadResponse.value at read
    split at read
    · cases read
    · cases read
    · cases read
      assumption
  · unfold merge at applied
    split at applied
    · cases applied
    · cases applied
      assumption

theorem counted_afterRead {v : Version Etag Value}
    {hasEtag : Bool} {unreadable : Option UnreadableBody}
    {retryState : OperationRetryState} (mem : v ∈ item.versions) (owned : item.owned = lost) :
    Counted call.operations item lost
      (afterRead call loop (readResponse v hasEtag unreadable token) retryState) := by
  unfold afterRead
  split
  · exact owned
  · rename_i loop' op merged
    obtain ⟨value, tagged, read, patched⟩ := mergeRead_eq_ok merged
    have tag : v.tag = op.ifMatch := by
      cases hasEtag with
      | true => exact some.inj tagged
      | false => cases tagged
    have body : v.body = value := by
      cases unreadable with
      | none => exact Except.ok.inj read
      | some fault => cases read
    exact ⟨owned, v, mem, tag, body ▸ patched⟩

/-- A retry keeps the replace, whatever state it continues with. -/
theorem afterReplace_retries {action : OperationAction} (retries : action.newState ≠ none) :
    ∃ retryState, afterReplace call loop op delivery rerouting action =
      .replacing loop op retryState := by
  cases action with
  | complete outcome | abort error => exact absurd rfl retries
  | failoverRetry | inRegionRetry | sessionRetry | dtxRetry => exact ⟨_, rfl⟩

/-- An outcome that is not the item's answer: the call fails or sends the replace again. -/
theorem afterReplace_foreign (attempt : Attempt) (foreign : isForeign attempt.outcome = true) :
    let phase := afterReplace call loop op delivery rerouting
      (evaluateTransportResult scaling replaceOperation attempt s).1
    (∃ retryState, phase = .replacing loop op retryState) ∨
      ∃ failure, phase = .finished (.error failure) := by
  rcases evaluate_foreign foreign with retries | ⟨error, aborts, notConflict⟩
  · exact .inl (afterReplace_retries retries)
  · refine .inr ⟨.subOperation error, ?_⟩
    rw [aborts]
    show (if isPreconditionFailed error then _ else _) = _
    rw [if_neg (by rw [notConflict]; decide)]

theorem counted_foreign (attempt : Attempt) (foreign : isForeign attempt.outcome = true)
    (counted : Counted operations item lost (.replacing loop op s)) :
    Counted operations item lost (afterReplace call loop op delivery rerouting
      (evaluateTransportResult scaling replaceOperation attempt s).1) := by
  obtain ⟨retryState, phase⟩ | ⟨failure, phase⟩ := afterReplace_foreign attempt foreign
  · rw [phase]
    exact counted
  · rw [phase]
    exact counted.1

/-- A commit of the call follows the version it was computed from. -/
theorem sound_ownCommit {tag : Etag}
    (swapped : item.swap op.ifMatch ⟨.own, tag, op.body⟩ = some item')
    (sound : Sound operations ⟨item, .replacing loop op s⟩ lost) :
    Sound operations ⟨item', .replacing loop op s⟩ (lost + 1) := by
  obtain ⟨derived, owned, v, mem, named, patched⟩ := sound
  obtain ⟨current, committed⟩ := swap_eq_some swapped
  have same : v = item.current := eq_current mem (current.trans named.symm)
  refine ⟨?_, ?_, v, ?_, named, patched⟩
  · exact derived_of_commit derived committed fun _ => same ▸ patched
  · have count : item'.owned = item.owned + 1 := commit_owned committed
    show item'.owned = lost + 1
    rw [count, owned]
  · show v ∈ item'.versions
    rw [commit_versions committed]
    exact .tail _ mem

theorem sound_replaceSent {outcome : TransportOutcome} {endpoint : CosmosEndpoint} {random : Nat}
    (delivered : Delivered item op delivery item' outcome)
    (sound : Sound call.operations ⟨item, .replacing loop op s⟩ lost) :
    Sound call.operations ⟨item', afterReplace call loop op delivery rerouting
      (evaluateTransportResult scaling replaceOperation ⟨endpoint, outcome, random⟩ s).1⟩
      (lost + if delivery.losesCommit then 1 else 0) := by
  obtain ⟨derived, counted⟩ := sound
  cases delivered with
  | unanswered foreign keeps =>
    rw [keeps]
    exact ⟨derived, counted_foreign ⟨endpoint, outcome, random⟩ foreign counted⟩
  | refused subStatus keeps =>
    rw [keeps]
    refine ⟨derived, ?_⟩
    exact counted_nextAttempt counted.1
  | lost tag swapped foreign loses =>
    obtain ⟨derived, counted⟩ := sound_ownCommit swapped ⟨derived, counted⟩
    rw [loses]
    exact ⟨derived, counted_foreign ⟨endpoint, outcome, random⟩ foreign counted⟩
  | answered tag swapped keeps =>
    obtain ⟨derived, owned, _⟩ := sound_ownCommit swapped ⟨derived, counted⟩
    rw [keeps]
    exact ⟨derived, owned.trans (Nat.add_comm lost 1)⟩

end Counting

theorem step_sound {scaling : Scaling} {call : PatchCall} {w w' : World} {e : Event} {lost : Nat}
    (sound : Sound call.operations w lost) (h : step scaling call w e = some w') :
    Sound call.operations w' (lost + if e.losesCommit then 1 else 0) := by
  obtain ⟨item, phase⟩ := w
  cases e with
  | otherCommit tag body =>
    obtain ⟨item', committed, h⟩ := bind_eq_some_iff.mp h
    cases h
    exact ⟨derived_of_commit sound.derived committed nofun,
      counted_otherCommit committed sound.counted⟩
  | readAnswered index hasEtag unreadable token retryState =>
    cases phase with
    | reading loop =>
      obtain ⟨version, found, h⟩ := bind_eq_some_iff.mp h
      cases h
      exact ⟨sound.derived, counted_afterRead (mem_of_getElem? found) sound.counted⟩
    | replacing | finished => cases h
  | readFailed error =>
    cases phase with
    | reading loop =>
      cases h
      exact ⟨sound.derived, sound.counted⟩
    | replacing | finished => cases h
  | replaceSent delivery endpoint random rerouting =>
    cases phase with
    | replacing loop op retryState =>
      obtain ⟨⟨item', outcome⟩, delivered, h⟩ := bind_eq_some_iff.mp h
      cases h
      exact sound_replaceSent (deliver_delivered delivered) sound
    | reading | finished => cases h
  | replaceGivenUp fault =>
    cases phase with
    | replacing loop op retryState =>
      cases h
      exact ⟨sound.derived, sound.counted.1⟩
    | reading | finished => cases h

theorem begin_sound (call : PatchCall) (foreign : item.Foreign) :
    Sound call.operations (begin call item) 0 := by
  refine ⟨follows_of_foreign foreign, ?_⟩
  unfold begin
  split
  · exact foreign.owned
  · exact counted_nextAttempt foreign.owned

/-! ## Results -/

/-- **How often a patch takes effect.**  Along every run of a call, with other writers and
losses at any point, each version the call has written is the operations applied to the version
right before it.  A call that returns a response has written one version more than commits of it
whose answer was lost, and a call that fails as many. -/
theorem patch_version_count (scaling : Scaling) (call : PatchCall) (item : Register Etag Value)
    (foreign : item.Foreign) (events : List Event) (w : World)
    (h : run scaling call (begin call item) events = some w) :
    w.item.Derived (Patched call.operations) ∧
    (∀ response, w.phase = .finished (.ok response) → w.item.owned = 1 + lostCommits events) ∧
    ∀ failure, w.phase = .finished (.error failure) → w.item.owned = lostCommits events := by
  have sound : Sound call.operations w (lostCommits ([] ++ events)) := by
    refine Run.history (P := fun w past => Sound call.operations w (lostCommits past))
      (fun {s past e s'} sound next => ?_) (Run.of_foldlM h) (begin_sound call foreign)
    have more : lostCommits (past ++ [e]) = lostCommits past + if e.losesCommit then 1 else 0 := by
      rw [lostCommits, List.countP_append, List.countP_singleton]
      rfl
    rw [more]
    exact step_sound sound next
  obtain ⟨derived, counted⟩ := sound
  refine ⟨derived, fun response phase => ?_, fun failure phase => ?_⟩
  · rw [phase] at counted
    exact counted
  · rw [phase] at counted
    exact counted

section Increment

/-- An item with a counter, and a patch that increments it. -/
def counterItem (n : UInt64) : Value := .object [("n".toList, natural n)]

def counter : Register Etag Value := ⟨⟨.other, "e0", counterItem 0⟩, [], by simp⟩

def incrementCall : PatchCall where
  precondition := none
  body := .instructions [.increment "/n".toList (.int 1)]
  pkPaths := some ["/pk".toList]
  sessionToken := none
  maxAttempts := none

/-- The current version is read, and the replace starts with three failover retries. -/
def readsCurrent : Event := .readAnswered 0 true none none (.initial 0 false [] 3 1)

def sends (delivery : Delivery) : Event :=
  .replaceSent delivery ⟨none, "r1"⟩ 0 ⟨⟨0, 0⟩, none, []⟩

/-- The connection breaks after the request was sent. -/
def connectionLost : TransportOutcome := .transportError ⟨503, none⟩ ⟨⟨503, none⟩, "reset"⟩ .sent

/-- The replace commits and its answer is lost; sent again it is refused; and the counter is
read and incremented once more. -/
def lostAnswer : List Event :=
  [readsCurrent, sends (.committed "e1" true (some connectionLost)),
    sends (.refused none none none), readsCurrent]

/-- After a lost answer a call that increments a counter by one returns the counter incremented
by two, and a call that fails has incremented it by two. -/
theorem lost_answer_increments_twice :
    (∃ w, run doubling incrementCall (begin incrementCall counter)
        (lostAnswer ++ [sends (.committed "e2" true none)]) = some w ∧
      w.phase = .finished (.ok ⟨some "e2", counterItem 2⟩) ∧ w.item.owned = 2) ∧
    ∃ w error, run doubling incrementCall (begin incrementCall counter)
        (lostAnswer ++ [sends (.committed "e2" true (some (.deadlineExceeded .sent)))]) = some w ∧
      w.phase = .finished (.error error) ∧ w.item.owned = 2 :=
  ⟨⟨_, rfl, rfl, rfl⟩, ⟨_, _, rfl, rfl, rfl⟩⟩

/-- Another writer commits between the read and the replace. -/
def conflict : List Event :=
  [readsCurrent, .otherCommit "e1" (counterItem 5), sends (.refused none none none), readsCurrent,
    sends (.committed "e2" true none)]

theorem conflict_increments_once :
    ∃ w, run doubling incrementCall (begin incrementCall counter) conflict = some w ∧
      w.phase = .finished (.ok ⟨some "e2", counterItem 6⟩) ∧ w.item.owned = 1 := by
  have foreign : counter.Foreign := by
    intro v mem
    rw [List.mem_singleton.mp mem]
    rfl
  refine ⟨_, rfl, rfl, ?_⟩
  exact (patch_version_count doubling incrementCall counter foreign conflict _ rfl).2.1 _ rfl

end Increment

end AzureSdk.Cosmos.Patch
