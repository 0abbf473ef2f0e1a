/-
# Core.Poller — awaiting and streaming a long-running operation

A `Poller` asks its callback again until the operation is done.  Both of its uses run the same
inner stream (`Polling.next`): streaming checks the status code of every response, and awaiting
takes the inner stream as it is and then the target.  They agree exactly on the operations whose
responses all pass that check.
-/
import AzureSdk.Theory.Run

namespace AzureSdk.Core.Poller

open Theory List

variable {α β ε κ : Type}

structure Response (α : Type) where
  status : Nat
  body : α

/-- What the callback makes of a response; the target is what its future ends with. -/
inductive PollerResult (α β ε κ : Type)
  | inProgress (response : Response α) (continuation : κ)
  | succeeded (response : Response α) (target : Except ε β)
  | done (response : Response α)

/-- An error, by where it comes from: the callback, the check of a response, the target, or an
operation that is done without one. -/
inductive PollerError (α ε : Type)
  | request (error : ε)
  | httpResponse (response : Response α)
  | target (error : ε)
  | noTarget

inductive State (κ : Type)
  | init
  | inProgress (continuation : κ)
  | done

/-- The inner stream, with the number of its requests, and the target it has sent. -/
structure Polling (β ε κ : Type) where
  state : State κ
  requests : Nat
  sent : Option (Except ε β)

def Polling.new : Polling β ε κ := ⟨.init, 0, none⟩

/-- What the callback answers to each request. -/
abbrev Answers (α β ε κ : Type) := Nat → Except ε (PollerResult α β ε κ)

variable (answers : Answers α β ε κ)

/-- One item of the stream of `create_poller_stream`. -/
def Polling.next (s : Polling β ε κ) :
    Option (Except (PollerError α ε) (Response α) × Polling β ε κ) :=
  match s.state with
  | .done => none
  | _ =>
    match answers s.requests with
    | .error e => some (.error (.request e), ⟨.done, s.requests + 1, s.sent⟩)
    | .ok (.inProgress response continuation) =>
      some (.ok response, ⟨.inProgress continuation, s.requests + 1, s.sent⟩)
    | .ok (.done response) => some (.ok response, ⟨.done, s.requests + 1, s.sent⟩)
    | .ok (.succeeded response target) =>
      some (.ok response, ⟨.done, s.requests + 1, some target⟩)

/-- The status codes that `check_status_code` lets pass. -/
def Passes (response : Response α) : Prop := response.status ∈ [200, 202, 201, 204]

instance (response : Response α) : Decidable (Passes response) :=
  inferInstanceAs (Decidable (_ ∈ _))

def checkStatusCode (response : Response α) : Except (PollerError α ε) (Response α) :=
  if Passes response then .ok response else .error (.httpResponse response)

variable (s : Polling β ε κ)

/-- An item of the poller as a stream. -/
def Polling.pollNext :
    Option (Except (PollerError α ε) (Response α) × Polling β ε κ) :=
  (s.next answers).map fun p => (p.1.bind checkStatusCode, p.2)

/-- The callback answers with a response. -/
def Polled (response : Response α) (s' : Polling β ε κ) : Prop :=
  s.next answers = some (.ok response, s')

/-- The poller, as a stream, yields an item. -/
def Yields (item : Except (PollerError α ε) (Response α))
    (s' : Polling β ε κ) : Prop :=
  s.pollNext answers = some (item, s')

/-- Awaiting a poller that has no response left returns this. -/
def Returns (result : Except (PollerError α ε) β) : Prop :=
  match s.next answers with
  | some (.error e, _) => result = .error e
  | some (.ok _, _) => False
  | none => result =
    (s.sent.map fun target => target.mapError .target).getD (.error .noTarget)

/-- Awaiting the poller returns this. -/
def Awaits (result : Except (PollerError α ε) β) : Prop :=
  ∃ responses s', Run (Polled answers) s responses s' ∧ Returns answers s' result

/-- Awaiting agrees with streaming: where it returns a value no item is an error, and the first
error of the stream is what it returns. -/
structure Agree : Prop where
  ok : ∀ {value items s'}, Awaits answers s (.ok value) → Run (Yields answers) s items s' →
    ∀ item ∈ items, item.isOk = true
  error : ∀ {items e s'}, Run (Yields answers) s (items ++ [.error e]) s' →
    (∀ item ∈ items, item.isOk = true) → Awaits answers s (.error e)

def AllPass : Prop :=
  ∀ {responses s'}, Run (Polled answers) s responses s' → ∀ r ∈ responses, Passes r

section Runs

variable {answers} {s s' : Polling β ε κ} {response : Response α}
  {result : Except (PollerError α ε) β}

theorem AllPass.cons (pass : AllPass answers s) (polled : Polled answers s response s') :
    Passes response ∧ AllPass answers s' := by
  refine ⟨pass (.single polled) response (.head _), fun run r mem => ?_⟩
  exact pass (.cons polled run) r (.tail _ mem)

/-- Where all responses pass, the check changes nothing. -/
theorem pollNext_eq (pass : AllPass answers s) : s.pollNext answers = s.next answers := by
  unfold Polling.pollNext
  cases next : s.next answers with
  | none => rfl
  | some p =>
    obtain ⟨_ | response, s'⟩ := p
    · rfl
    · simp [Except.bind, checkStatusCode, (pass.cons next).1]

/-- A response that is polled comes first in awaiting, too. -/
theorem awaits_cons (polled : Polled answers s response s') :
    Awaits answers s result ↔ Awaits answers s' result := by
  constructor
  · rintro ⟨_, last, run, returns⟩
    cases run with
    | nil => simp [Returns, show s.next answers = _ from polled] at returns
    | cons first rest =>
      cases polled.symm.trans first
      exact ⟨_, last, rest, returns⟩
  · rintro ⟨_, last, run, returns⟩
    exact ⟨_, last, .cons polled run, returns⟩

theorem awaits_error {e : PollerError α ε} : ∀ {items s s'}, AllPass answers s →
    Run (Yields answers) s (items ++ [.error e]) s' → (∀ item ∈ items, item.isOk = true) →
    Awaits answers s (.error e)
  | [], s, _, pass, .cons next _, _ => by
    refine ⟨[], s, .nil s, ?_⟩
    simp [Returns, (pollNext_eq pass).symm.trans next]
  | .error _ :: _, _, _, _, _, fine => by cases fine _ (.head _)
  | .ok response :: items, s, _, pass, .cons next rest, fine => by
    have polled : Polled answers s response _ := (pollNext_eq pass).symm.trans next
    refine (awaits_cons polled).mpr (awaits_error (pass.cons polled).2 rest ?_)
    exact fun item mem => fine item (.tail _ mem)

theorem items_ok {value : β} {items : List (Except (PollerError α ε) (Response α))}
    (run : Run (Yields answers) s items s') : AllPass answers s → Awaits answers s (.ok value) →
      ∀ item ∈ items, item.isOk = true := by
  induction run with
  | nil => simp
  | @cons s _ _ item _ first _ ih =>
    intro pass awaits
    have next := (pollNext_eq pass).symm.trans first
    cases item with
    | ok response =>
      exact forall_mem_cons.mpr ⟨rfl, ih (pass.cons next).2 ((awaits_cons next).mp awaits)⟩
    | error e =>
      -- awaiting would have returned the error
      obtain ⟨_, last, run, returns⟩ := awaits
      cases run with
      | nil => simp [Returns, next] at returns
      | cons polled _ => cases next.symm.trans polled

/-- Awaiting never returns an error of the check. -/
theorem not_awaits_checked : ¬ Awaits answers s (.error (.httpResponse response)) := by
  rintro ⟨_, last, _, returns⟩
  unfold Returns Polling.next at returns
  split at returns
  · rename_i next
    cases returns
    split at next
    · cases next
    · split at next <;> cases next
  · exact returns
  · rcases sent : last.sent with _ | _ | _ <;> simp [sent, Except.mapError] at returns

theorem allPass_of_error (agree : ∀ {items e s'}, Run (Yields answers) s (items ++ [.error e]) s' →
    (∀ item ∈ items, item.isOk = true) → Awaits answers s (.error e)) : AllPass answers s := by
  intro responses last run
  induction run with
  | nil => simp
  | @cons s s' _ response _ first _ ih =>
    have checked : s.pollNext answers = some (checkStatusCode response, s') := by
      simp [Polling.pollNext, show s.next answers = _ from first, Except.bind]
    have passes : Passes response := by
      by_contra bad
      rw [checkStatusCode, if_neg bad] at checked
      exact not_awaits_checked (@agree [] _ _ (.single checked) (by simp))
    rw [checkStatusCode, if_pos passes] at checked
    refine forall_mem_cons.mpr ⟨passes, ih fun items fine => ?_⟩
    exact (awaits_cons first).mp
      (agree (.cons checked items) (forall_mem_cons.mpr ⟨rfl, fine⟩))

end Runs

/-- **Awaiting a poller agrees with streaming it exactly if every response passes the check of
the stream.** -/
theorem await_agrees_iff (answers : Answers α β ε κ) : Agree answers .new ↔ AllPass answers .new :=
  ⟨fun agree => allPass_of_error agree.error, fun pass =>
    ⟨fun awaits run => items_ok run pass awaits, awaits_error pass⟩⟩

/-- The first response says 404 and that the operation has succeeded: streaming yields an error,
and awaiting returns the target. -/
theorem unchecked_status_awaited :
    let answers : Answers Unit Nat Unit Unit := fun _ => .ok (.succeeded ⟨404, ()⟩ (.ok 1))
    (∃ s, Run (Yields answers) .new [.error (.httpResponse ⟨404, ()⟩)] s) ∧
      Awaits answers .new (.ok 1) := by
  intro answers
  constructor
  · exact ⟨_, .single rfl⟩
  · exact ⟨_, _, .single rfl, rfl⟩

end AzureSdk.Core.Poller
