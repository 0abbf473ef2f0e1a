/-
# EventHubs.Authorizer — authorizations and the connection they belong to

`authorize_path` and the refresher let go of the lock on the authorized paths while they ask the
credential and the service, and store what they have got afterwards.  Meanwhile `clear` may
forget all paths, because the connection has been replaced.

Each stored authorization is marked here with the number of clears before its request to the
service was started; `Current` says that this is the number of clears so far.  That can fail
where a clear falls between the start of a request and the moment its outcome is stored
(`authorization_outlives_clear`), and nowhere else (`authorizations_current`).
-/
import AzureSdk.EventHubs.TokenRefresh

namespace AzureSdk.EventHubs.Authorizer

open Core Theory List

/-- A request to the service for a path, with the number of clears when it was started. -/
structure Request where
  path : String
  token : AccessToken
  clears : Nat
  deriving DecidableEq, Repr

/-- Where a call of `authorize_path` is: over, or at one of its awaits. -/
inductive Call
  | ended
  | fetching (path : String)
  | authorizing (request : Request)
  | storing (request : Request)
  deriving DecidableEq, Repr

/-- Where the refresher is: not started, before a pass, in a pass with the paths still to refresh
and the requests that have been granted, or stopped. -/
inductive Refresher
  | unstarted
  | looping
  | fetching (todo : List (String × Int)) (updated : List Request)
  | authorizing (request : Request) (todo : List (String × Int)) (updated : List Request)
  | stopped
  deriving DecidableEq, Repr

/-- What may happen.  The credential returns a token or fails, the service grants a request or
does not, and a pass collects the tokens at some moment with some bias. -/
inductive Event
  | clear
  | authorizePath (call : Nat) (path : String)
  | fetched (call : Nat) (token : AccessToken)
  | granted (call : Nat)
  | failed (call : Nat)
  | stored (call : Nat)
  | collected (order : IterationOrder (String × AccessToken)) (now bias : Int)
  | refreshed (token : AccessToken)
  | refreshGranted
  | refreshFailed
  | updated
  | connectionDropped

/-- The authorizer with its calls; `since` has the number of clears of the request of each
path. -/
structure State where
  scopes : AuthorizationScopes := ∅
  since : String → Nat := fun _ => 0
  nonRefreshable : List String := []
  clears : Nat := 0
  calls : Nat → Call := fun _ => .ended
  refresher : Refresher := .unstarted

namespace State

variable (s : State)

def setCall (call : Nat) (phase : Call) : State :=
  { s with calls := fun n => if n = call then phase else s.calls n }

/-- `scopes.insert(url, token)`. -/
def insert (request : Request) : State :=
  { s with
    scopes := s.scopes.insert request.path request.token
    since := fun path => if path = request.path then request.clears else s.since path }

/-- `scopes.entry(path).or_insert(token)`. -/
def orInsert (request : Request) : State :=
  if s.scopes.contains request.path then s else s.insert request

/-- `authorization_refresher.get_or_init`. -/
def startRefresher : State :=
  { s with refresher := if s.refresher = .unstarted then .looping else s.refresher }

def step : Event → Option State
  | .clear => some { s with scopes := ∅, clears := s.clears + 1 }
  | .authorizePath call path =>
    match s.calls call with
    | .ended => if s.scopes.contains path then some s else some (s.setCall call (.fetching path))
    | _ => none
  | .fetched call token =>
    match s.calls call with
    | .fetching path => some (s.setCall call (.authorizing ⟨path, token, s.clears⟩))
    | _ => none
  | .granted call =>
    match s.calls call with
    | .authorizing request => some (s.setCall call (.storing request))
    | _ => none
  | .failed call =>
    match s.calls call with
    | .fetching _ | .authorizing _ => some (s.setCall call .ended)
    | _ => none
  | .stored call =>
    match s.calls call with
    | .storing request => some ((s.orInsert request).startRefresher.setCall call .ended)
    | _ => none
  | .collected order now bias =>
    match s.refresher with
    | .looping =>
      some { s with
        refresher := .fetching (tokensToRefresh order s.scopes s.nonRefreshable now bias) [] }
    | _ => none
  | .refreshed newToken =>
    match s.refresher with
    | .fetching ((path, previous) :: todo) updated =>
      if newToken.expiresOn ≤ previous then
        some { s with
          nonRefreshable := s.nonRefreshable ++ [path], refresher := .fetching todo updated }
      else some { s with refresher := .authorizing ⟨path, newToken, s.clears⟩ todo updated }
    | _ => none
  | .refreshGranted =>
    match s.refresher with
    | .authorizing request todo updated =>
      some { s with refresher := .fetching todo (updated ++ [request]) }
    | _ => none
  | .refreshFailed =>
    match s.refresher with
    | .fetching (_ :: todo) updated | .authorizing _ todo updated =>
      some { s with refresher := .fetching todo updated }
    | _ => none
  | .updated =>
    match s.refresher with
    | .fetching [] updated => some { updated.foldl insert s with refresher := .looping }
    | _ => none
  | .connectionDropped =>
    match s.refresher with
    | .fetching (_ :: _) _ => some { s with refresher := .stopped }
    | _ => none

/-- Every authorized path has been authorized by a request started after the last clear. -/
def Current : Prop := ∀ path : String, s.scopes[path]? ≠ none → s.since path = s.clears

end State

/-- The requests of a call that have been started and not been stored. -/
def Call.requests : Call → List Request
  | .authorizing request | .storing request => [request]
  | _ => []

/-- The requests of the refresher that have been started and not been stored. -/
def Refresher.requests : Refresher → List Request
  | .fetching _ updated => updated
  | .authorizing request _ updated => request :: updated
  | _ => []

/-- A clear comes while no request is between its start and the moment its outcome is stored. -/
def State.Safe (s : State) : Event → Prop
  | .clear => (∀ call, (s.calls call).requests = []) ∧ s.refresher.requests = []
  | _ => True

/-! ## The invariant -/

/-- Neither a stored authorization nor a request under way is older than the last clear. -/
structure Inv (s : State) : Prop where
  current : s.Current
  calls : ∀ call, ∀ request ∈ (s.calls call).requests, request.clears = s.clears
  refresher : ∀ request ∈ s.refresher.requests, request.clears = s.clears

section Steps

variable {s s' : State}

theorem Inv.setCall (inv : Inv s) (call : Nat) {phase : Call}
    (fresh : ∀ request ∈ phase.requests, request.clears = s.clears) : Inv (s.setCall call phase) where
  current := inv.current
  calls other := by
    show ∀ request ∈ (if other = call then phase else s.calls other).requests, _
    split
    · exact fresh
    · exact inv.calls other
  refresher := inv.refresher

theorem Inv.setRefresher (inv : Inv s) {refresher : Refresher} {nonRefreshable : List String}
    (fresh : ∀ request ∈ refresher.requests, request.clears = s.clears) :
    Inv { s with nonRefreshable, refresher } where
  current := inv.current
  calls := inv.calls
  refresher := fresh

theorem Inv.insert (inv : Inv s) {request : Request} (fresh : request.clears = s.clears) :
    Inv (s.insert request) where
  current path there := by
    show (if path = request.path then request.clears else s.since path) = s.clears
    split
    · exact fresh
    · next other =>
      apply inv.current path
      simpa [State.insert, HashMap.getElem?_insert, Ne.symm other] using there
  calls := inv.calls
  refresher := inv.refresher

theorem Inv.insertAll (inv : Inv s) {requests : List Request}
    (fresh : ∀ request ∈ requests, request.clears = s.clears) :
    Inv (requests.foldl State.insert s) := by
  induction requests generalizing s with
  | nil => exact inv
  | cons request requests ih =>
    apply ih (inv.insert (fresh request (.head _)))
    intro other mem
    exact fresh other (.tail _ mem)

theorem Inv.startRefresher (inv : Inv s) : Inv s.startRefresher := by
  apply inv.setRefresher
  intro request mem
  split at mem
  · cases mem
  · exact inv.refresher request mem

/-- **One step.**  A clear at a safe moment keeps the invariant, as does every other step. -/
theorem inv_step {e : Event} (inv : Inv s) (safe : s.Safe e) (step : s.step e = some s') : Inv s' := by
  have refresher := inv.refresher
  -- an event that does not fit is refused
  cases e <;> simp only [State.step] at step
  case clear =>
    cases step
    obtain ⟨noCall, noRefresh⟩ := safe
    refine ⟨fun path there => ?_, fun call request mem => ?_, fun request mem => ?_⟩
    · simp at there
    · rw [show _ = [] from noCall call] at mem
      cases mem
    · rw [show _ = [] from noRefresh] at mem
      cases mem
  case authorizePath call path =>
    split at step
    · split at step <;> cases step
      · exact inv
      · exact inv.setCall call nofun
    · cases step
  case fetched call token =>
    split at step <;> cases step
    apply inv.setCall
    intro request mem
    cases mem_singleton.mp mem
    rfl
  case granted call =>
    split at step <;> cases step
    next request at_ =>
      apply inv.setCall
      have fresh := inv.calls call
      rwa [at_] at fresh
  case failed call =>
    split at step <;> cases step <;> exact inv.setCall call nofun
  case stored call =>
    split at step <;> cases step
    next request at_ =>
      have fresh : request.clears = s.clears := by
        apply inv.calls call
        rw [at_]
        exact mem_singleton.mpr rfl
      have inserted : Inv (s.orInsert request) := by
        unfold State.orInsert
        split
        · exact inv
        · exact inv.insert fresh
      exact inserted.startRefresher.setCall call nofun
  case collected order now bias =>
    split at step <;> cases step
    exact inv.setRefresher nofun
  case refreshed token =>
    split at step
    · next at_ =>
      rw [at_] at refresher
      split at step <;> cases step
      · exact inv.setRefresher refresher
      · exact inv.setRefresher (forall_mem_cons.mpr ⟨rfl, refresher⟩)
    · cases step
  case refreshGranted =>
    split at step <;> cases step
    next at_ =>
      rw [at_] at refresher
      obtain ⟨first, others⟩ := forall_mem_cons.mp refresher
      exact inv.setRefresher (forall_mem_append.mpr ⟨others, forall_mem_singleton.mpr first⟩)
  case refreshFailed =>
    split at step <;> cases step
    all_goals
      rename_i at_
      rw [at_] at refresher
      apply inv.setRefresher
    · exact refresher
    · intro other mem
      exact refresher other (.tail _ mem)
  case updated =>
    split at step <;> cases step
    next at_ =>
      rw [at_] at refresher
      exact (inv.insertAll refresher).setRefresher nofun
  case connectionDropped =>
    split at step <;> cases step
    exact inv.setRefresher nofun

end Steps

/-! ## Runs -/

def SafeStep (s : State) (e : Event) (s' : State) : Prop := s.Safe e ∧ s.step e = some s'

/-- **Where no clear comes between the start of a request and the moment its outcome is stored,
every authorized path has been authorized by a request started after the last clear.** -/
theorem authorizations_current {events : List Event} {s : State} (run : Run SafeStep {} events s) :
    s.Current := by
  have start : Inv {} := ⟨fun path there => absurd (by simp) there, nofun, nofun⟩
  have inv : Inv s := run.invariant (P := Inv) (fun inv step => inv_step inv step.1 step.2) start
  exact inv.current

/-- A path is authorized, the connection is replaced, and the path is authorized again. -/
def reconnects : List Event :=
  [.authorizePath 0 "path", .fetched 0 ⟨"token", 1⟩, .granted 0, .stored 0, .clear,
    .authorizePath 0 "path", .fetched 0 ⟨"token", 1⟩, .granted 0, .stored 0]

theorem authorizations_current_again :
    ∃ s : State, Run SafeStep {} reconnects s ∧ s.scopes["path"]? = some ⟨"token", 1⟩ ∧
      s.Current := by
  obtain ⟨s, run, there⟩ : ∃ s : State, Run SafeStep {} reconnects s ∧
      s.scopes["path"]? = some ⟨"token", 1⟩ := by
    refine ⟨_, .cons ⟨trivial, rfl⟩ <| .cons ⟨trivial, rfl⟩ <| .cons ⟨trivial, rfl⟩ <|
      .cons ⟨trivial, rfl⟩ <| .cons ⟨⟨fun call => ?_, rfl⟩, rfl⟩ <| .cons ⟨trivial, rfl⟩ <|
      .cons ⟨trivial, rfl⟩ <| .cons ⟨trivial, rfl⟩ <| .single ⟨trivial, rfl⟩, rfl⟩
    by_cases first : call = 0
    · simp [State.setCall, first, Call.requests]
    · simp [State.setCall, State.startRefresher, State.orInsert, State.insert, first, Call.requests]
  exact ⟨s, run, there, authorizations_current run⟩

/-- The connection is replaced while the service is asked; the old authorization is stored. -/
theorem authorization_outlives_clear :
    ∃ s : State, Run (fun s e s' => s.step e = some s') {}
      [.authorizePath 0 "path", .fetched 0 ⟨"token", 1⟩, .clear, .granted 0, .stored 0] s ∧
      ¬ s.Current := by
  refine ⟨_, Run.of_foldlM rfl, fun current => ?_⟩
  exact absurd (current "path" (Option.some_ne_none _)) (by decide)

end AzureSdk.EventHubs.Authorizer
