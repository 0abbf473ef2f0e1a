/-
# Core.BearerToken — requests that share a bearer token

A policy authorizes all its requests with one cached token, behind a read-write lock.  An
`authorize` call looks at the token, fetches one under the write lock if there is none or it is to
be refreshed, lets go of the lock, and takes the token that is then there.  A request that was
answered with 401 invalidates the cache before its challenge is handled.

The cached token is marked here with the scopes and options it was fetched for.  `Bound` says of
the outcome of a call that its token was fetched for its own scopes and options, or that a fetch
of its own has failed.  `outcomes_bound` has it for all runs in which a call starts only with
the scopes and options of the cached token and of the calls under way, and the cache is invalidated
while none is; `outcomes_unbound` has runs of other kinds in which it fails.
-/
import AzureSdk.Core.Credentials
import AzureSdk.Core.Error
import AzureSdk.Theory.Run

namespace AzureSdk.Core.BearerToken

open Theory List

variable {ω : Type}

/-- What a token is asked for: `scopes` and `TokenRequestOptions`. -/
structure TokenRequest (ω : Type) where
  scopes : List String
  options : ω
  deriving DecidableEq, Repr

/-- A cached token, with what it was fetched for. -/
structure Cached (ω : Type) where
  request : TokenRequest ω
  token : AccessToken
  deriving DecidableEq, Repr

/-- Where an `authorize` call is: before its first look at the token, before it has the write lock
(with the expiry of the token it has seen), in its fetch with the lock, or before it takes the
token. -/
inductive Stage
  | looking
  | filling
  | refreshing (expiresOn : Int)
  | fetching (expiresOn : Option Int)
  | taking
  deriving DecidableEq, Repr

/-- The first look at the token. -/
def look (now : Int) : Option (Cached ω) → Stage
  | none => .filling
  | some cached =>
    if shouldRefresh now cached.token then .refreshing cached.token.expiresOn else .taking

/-- With the write lock: a token is fetched unless another call has done so. -/
def locked (cached : Option (Cached ω)) : Stage → Option Stage
  | .filling => some (if cached.isNone then .fetching none else .taking)
  | .refreshing expiresOn =>
    some (if cached.all fun c => c.token.expiresOn = expiresOn then .fetching (some expiresOn)
      else .taking)
  | _ => none

/-- An error of the fetch is returned, unless the token that was to be refreshed is still valid. -/
def propagates (now : Int) (cached : Option (Cached ω)) : Option Int → Bool
  | none => true
  | some expiresOn => cached.isNone || decide (expiresOn ≤ now)

/-- What `authorize` puts in the header. -/
def take : Option (Cached ω) → Result (Cached ω)
  | some cached => .ok cached
  | none => .error ⟨.credential,
    "The request failed due to an error while fetching the access token."⟩

/-- An `authorize` call under way; `failed` says that its fetch has failed, `retry` that it
belongs to a challenge. -/
structure Call (ω : Type) where
  request : TokenRequest ω
  stage : Stage := .looking
  failed : Bool := false
  retry : Bool

/-- Where a request is in `send`: in `on_request` or `on_challenge` (with `retry`), in an
`authorize` call of it, sent, answered with 401, or over. -/
inductive Phase (ω : Type)
  | idle
  | callback (retry : Bool)
  | authorizing (call : Call ω)
  | sent (retry : Bool)
  | rejected
  | ended

/-- What may happen.  Callbacks authorize as often as they like, with scopes and options of their
own; the credential returns a token or fails; a request may be dropped. -/
inductive Event (ω : Type)
  | request (i : Nat)
  | authorize (i : Nat) (request : TokenRequest ω)
  | look (i : Nat) (now : Int)
  | lock (i : Nat)
  | fetched (i : Nat) (token : AccessToken)
  | fetchFailed (i : Nat) (error : Error) (now : Int)
  | take (i : Nat)
  | callbackReturned (i : Nat) (ok : Bool)
  | response (i : Nat) (unauthorized : Bool)
  | invalidate (i : Nat) (challenge : Bool)
  | drop (i : Nat)

/-- The outcome of an `authorize` call. -/
structure Outcome (ω : Type) where
  request : TokenRequest ω
  result : Result (Cached ω)
  failed : Bool

/-- The token was fetched for what is asked for, and an error comes from a fetch that failed. -/
def Outcome.Bound (o : Outcome ω) : Prop :=
  match o.result with
  | .ok cached => cached.request = o.request
  | .error _ => o.failed = true

/-- The authorizer with its requests; `writer` holds the write lock. -/
structure State (ω : Type) where
  cached : Option (Cached ω) := none
  writer : Option Nat := none
  phases : Nat → Phase ω := fun _ => .idle
  log : List (Outcome ω) := []

namespace State

variable (s : State ω)

def set (i : Nat) (phase : Phase ω) : State ω :=
  { s with phases := fun j => if j = i then phase else s.phases j }

/-- The lock is let go of by the call that has it. -/
def release (i : Nat) : State ω :=
  { s with writer := if s.writer = some i then none else s.writer }

/-- The call returns to its callback. -/
def finish (i : Nat) (call : Call ω) (result : Result (Cached ω)) (failed : Bool) : State ω :=
  { s.set i (.callback call.retry) with log := s.log ++ [⟨call.request, result, failed⟩] }

end State

inductive Step : State ω → Event ω → State ω → Prop
  | requests {s : State ω} {i : Nat} (idle : s.phases i = .idle) :
    Step s (.request i) (s.set i (.callback false))
  | authorizes {s : State ω} {i : Nat} {retry : Bool} {request : TokenRequest ω}
    (running : s.phases i = .callback retry) :
    Step s (.authorize i request) (s.set i (.authorizing { request, retry }))
  | looks {s : State ω} {i : Nat} {call : Call ω} {now : Int}
    (running : s.phases i = .authorizing call) (stage : call.stage = .looking)
    (free : s.writer = none) :
    Step s (.look i now) (s.set i (.authorizing { call with stage := look now s.cached }))
  | locks {s : State ω} {i : Nat} {call : Call ω} {expiresOn : Option Int}
    (running : s.phases i = .authorizing call) (free : s.writer = none)
    (next : locked s.cached call.stage = some (.fetching expiresOn)) :
    Step s (.lock i)
      ({ s with writer := some i }.set i
        (.authorizing { call with stage := .fetching expiresOn }))
  | skips {s : State ω} {i : Nat} {call : Call ω} (running : s.phases i = .authorizing call)
    (free : s.writer = none) (next : locked s.cached call.stage = some .taking) :
    Step s (.lock i) (s.set i (.authorizing { call with stage := .taking }))
  | fetches {s : State ω} {i : Nat} {call : Call ω} {expiresOn : Option Int} {token : AccessToken}
    (running : s.phases i = .authorizing call) (stage : call.stage = .fetching expiresOn) :
    Step s (.fetched i token)
      (({ s with cached := some ⟨call.request, token⟩ }.release i).set i
        (.authorizing { call with stage := .taking }))
  | fails {s : State ω} {i : Nat} {call : Call ω} {expiresOn : Option Int} {error : Error} {now : Int}
    (running : s.phases i = .authorizing call) (stage : call.stage = .fetching expiresOn)
    (propagated : propagates now s.cached expiresOn = true) :
    Step s (.fetchFailed i error now) ((s.release i).finish i call (.error error) true)
  | ignores {s : State ω} {i : Nat} {call : Call ω} {expiresOn : Option Int} {error : Error}
    {now : Int} (running : s.phases i = .authorizing call)
    (stage : call.stage = .fetching expiresOn)
    (ignored : propagates now s.cached expiresOn = false) :
    Step s (.fetchFailed i error now)
      ((s.release i).set i (.authorizing { call with stage := .taking, failed := true }))
  | takes {s : State ω} {i : Nat} {call : Call ω} (running : s.phases i = .authorizing call)
    (stage : call.stage = .taking) (free : s.writer = none) :
    Step s (.take i) (s.finish i call (take s.cached) call.failed)
  | returns {s : State ω} {i : Nat} {retry ok : Bool} (running : s.phases i = .callback retry) :
    Step s (.callbackReturned i ok) (s.set i (if ok then .sent retry else .ended))
  | responds {s : State ω} {i : Nat} {retry unauthorized : Bool} (sent : s.phases i = .sent retry) :
    Step s (.response i unauthorized)
      (s.set i (if unauthorized && !retry then .rejected else .ended))
  | invalidates {s : State ω} {i : Nat} {challenge : Bool} (rejected : s.phases i = .rejected)
    (free : s.writer = none) :
    Step s (.invalidate i challenge)
      ({ s with cached := none }.set i (if challenge then .callback true else .ended))
  | drops {s : State ω} {i : Nat} : Step s (.drop i) ((s.release i).set i .ended)

/-- A call starts with the scopes and options of the cached token and of the calls under way, and
the cache is invalidated while none is under way. -/
def State.Alone (s : State ω) : Event ω → Prop
  | .authorize _ request =>
    (∀ i call, s.phases i = .authorizing call → call.request = request) ∧
      ∀ cached, s.cached = some cached → cached.request = request
  | .invalidate _ _ => ∀ i call, s.phases i ≠ .authorizing call
  | _ => True

/-! ## The invariant -/

/-- The calls under way and the cached token have one request, and a call that takes the token
finds one. -/
structure Inv (s : State ω) : Prop where
  same : ∀ i j c d, s.phases i = .authorizing c → s.phases j = .authorizing d →
    c.request = d.request
  cached : ∀ token, s.cached = some token → ∀ i call, s.phases i = .authorizing call →
    call.request = token.request
  taking : ∀ i call, s.phases i = .authorizing call → call.stage = .taking → s.cached ≠ none
  bound : ∀ outcome ∈ s.log, outcome.Bound

section Steps

variable {s s' : State ω} {i : Nat} {call : Call ω}

variable {phase : Phase ω} {failed : Bool} {stage : Stage}

theorem phases_set {i j : Nat} {c : Call ω} (at_ : (s.set i phase).phases j = .authorizing c) :
    phase = .authorizing c ∨ s.phases j = .authorizing c := by
  change (if j = i then phase else s.phases j) = _ at at_
  split at at_
  · exact .inl at_
  · exact .inr at_

section

variable (inv : Inv s)

include inv

theorem Inv.setCall (i : Nat) {call : Call ω}
    (same : ∀ j c, s.phases j = .authorizing c → c.request = call.request)
    (cached : ∀ token, s.cached = some token → token.request = call.request)
    (taking : call.stage = .taking → s.cached ≠ none) : Inv (s.set i (.authorizing call)) := by
  have request : ∀ j c, (s.set i (.authorizing call)).phases j = .authorizing c →
      c.request = call.request := by
    intro j c at_
    rcases phases_set at_ with new | old
    · cases new
      rfl
    · exact same j c old
  refine ⟨?_, ?_, ?_, inv.bound⟩
  · intro j k c d left right
    rw [request j c left, request k d right]
  · intro token there j c at_
    rw [request j c at_, cached token there]
  · intro j c at_ last
    rcases phases_set at_ with new | old
    · cases new
      exact taking last
    · exact inv.taking j c old last

theorem Inv.setOther (i : Nat)
    (other : ∀ call, phase ≠ .authorizing call) : Inv (s.set i phase) := by
  have before : ∀ j c, (s.set i phase).phases j = .authorizing c → s.phases j = .authorizing c := by
    intro j c at_
    exact (phases_set at_).resolve_left (other c)
  refine ⟨?_, ?_, ?_, inv.bound⟩
  · intro j k c d left right
    exact inv.same j k c d (before j c left) (before k d right)
  · intro token there j c at_
    exact inv.cached token there j c (before j c at_)
  · intro j c at_ last
    exact inv.taking j c (before j c at_) last

theorem Inv.setWriter (writer : Option Nat) : Inv { s with writer } :=
  ⟨inv.same, inv.cached, inv.taking, inv.bound⟩

theorem Inv.release (i : Nat) : Inv (s.release i) := inv.setWriter _

theorem Inv.nextStage (running : s.phases i = .authorizing call)
    (taking : stage = .taking → s.cached ≠ none) :
    Inv (s.set i (.authorizing { call with stage, failed })) := by
  apply inv.setCall i
  · intro j c at_
    exact inv.same j i c call at_ running
  · intro token there
    exact (inv.cached token there i call running).symm
  · exact taking

theorem Inv.finish {result : Result (Cached ω)}
    (bound : (⟨call.request, result, failed⟩ : Outcome ω).Bound) :
    Inv (s.finish i call result failed) := by
  have quiet : Inv (s.set i (.callback call.retry)) := inv.setOther i nofun
  exact { quiet with
    bound := forall_mem_append.mpr ⟨inv.bound, forall_mem_singleton.mpr bound⟩ }

theorem Inv.store (running : s.phases i = .authorizing call) (token : AccessToken) :
    Inv { s with cached := some ⟨call.request, token⟩ } := by
  refine ⟨inv.same, ?_, fun _ _ _ _ => Option.some_ne_none _, inv.bound⟩
  intro cached there j c at_
  cases there
  exact inv.same j i c call at_ running

end

variable {cached : Option (Cached ω)}

theorem look_taking {now : Int} (h : look now cached = .taking) : cached ≠ none := by
  rintro rfl
  cases h

theorem locked_taking (h : locked cached stage = some .taking) : cached ≠ none := by
  rintro rfl
  cases stage <;> cases h

theorem propagates_none {now : Int} {expiresOn : Option Int}
    (h : propagates now cached expiresOn = false) : cached ≠ none := by
  rintro rfl
  cases expiresOn <;> cases h

theorem inv_step {e : Event ω} (inv : Inv s) (alone : s.Alone e) (step : Step s e s') : Inv s' := by
  cases step with
  | requests idle => exact inv.setOther _ nofun
  | authorizes running =>
    obtain ⟨calls, cached⟩ := alone
    exact inv.setCall _ calls cached nofun
  | looks running stage free => exact inv.nextStage running look_taking
  | @locks i call expiresOn running free next =>
    refine (inv.setWriter (some i)).nextStage running ?_
    exact nofun
  | skips running free next => exact inv.nextStage running fun _ => locked_taking next
  | @fetches i call expiresOn token running stage =>
    exact ((inv.store running token).release i).nextStage running fun _ => Option.some_ne_none _
  | fails running stage propagated => exact (inv.release _).finish rfl
  | ignores running stage ignored =>
    exact (inv.release _).nextStage running fun _ => propagates_none ignored
  | @takes i call running stage free =>
    apply inv.finish
    obtain ⟨token, there⟩ := Option.ne_none_iff_exists'.mp (inv.taking i call running stage)
    rw [there]
    exact (inv.cached token there i call running).symm
  | @returns i retry ok running =>
    apply inv.setOther
    cases ok <;> exact nofun
  | @responds i retry unauthorized sent =>
    apply inv.setOther
    split <;> exact nofun
  | @invalidates i challenge rejected free =>
    have quiet : Inv { s with cached := none } :=
      ⟨inv.same, nofun, fun j c at_ => absurd at_ (alone j c), inv.bound⟩
    apply quiet.setOther
    cases challenge <;> exact nofun
  | drops => exact (inv.release _).setOther _ nofun

end Steps

/-! ## Runs -/

def AloneStep (s : State ω) (e : Event ω) (s' : State ω) : Prop := s.Alone e ∧ Step s e s'

/-- **Where calls under way, the cached token and a call that starts have the same scopes and
options, and the cache is invalidated while no call is under way, every outcome is bound.** -/
theorem outcomes_bound {events : List (Event ω)} {s : State ω} (run : Run AloneStep {} events s) :
    ∀ outcome ∈ s.log, outcome.Bound := by
  have start : Inv ({} : State ω) := ⟨nofun, nofun, nofun, nofun⟩
  have inv : Inv s := run.invariant (P := Inv) (fun inv step => inv_step inv step.1 step.2) start
  exact inv.bound

def ask (scope : String) : TokenRequest (Option String) := ⟨[scope], none⟩

/-- A scope with the claims of a challenge. -/
def askWith (scope claims : String) : TokenRequest (Option String) := ⟨[scope], some claims⟩

def token (text : String) : AccessToken := ⟨text, seconds 3600⟩

/-- Two requests share a token; it is invalidated, and the first one is authorized with claims. -/
def sharedToken : List (Event (Option String)) :=
  [.request 0, .authorize 0 (ask "vault"), .look 0 0, .lock 0, .fetched 0 (token "A"), .take 0,
    .request 1, .authorize 1 (ask "vault"), .look 1 0, .take 1, .callbackReturned 0 true,
    .response 0 true, .invalidate 0 true, .authorize 0 (askWith "vault" "claims"), .look 0 0,
    .lock 0, .fetched 0 (token "B"), .take 0]

theorem outcomes_bound_shared : ∃ s : State (Option String), Run AloneStep {} sharedToken s ∧
    s.log.length = 3 ∧ ∀ outcome ∈ s.log, outcome.Bound := by
  obtain ⟨s, run, three⟩ : ∃ s : State (Option String), Run AloneStep {} sharedToken s ∧
      s.log.length = 3 := by
    refine ⟨_, .cons ⟨trivial, .requests rfl⟩ <| .cons ⟨⟨?first, nofun⟩, .authorizes rfl⟩ <|
      .cons ⟨trivial, .looks rfl rfl rfl⟩ <| .cons ⟨trivial, .locks rfl rfl rfl⟩ <|
      .cons ⟨trivial, .fetches rfl rfl⟩ <| .cons ⟨trivial, .takes rfl rfl rfl⟩ <|
      .cons ⟨trivial, .requests rfl⟩ <|
      .cons ⟨⟨?second, fun _ there => by cases there; rfl⟩, .authorizes rfl⟩ <|
      .cons ⟨trivial, .looks rfl rfl rfl⟩ <| .cons ⟨trivial, .takes rfl rfl rfl⟩ <|
      .cons ⟨trivial, .returns rfl⟩ <| .cons ⟨trivial, .responds rfl⟩ <|
      .cons ⟨?idle, .invalidates rfl rfl⟩ <| .cons ⟨⟨?third, nofun⟩, .authorizes rfl⟩ <|
      .cons ⟨trivial, .looks rfl rfl rfl⟩ <| .cons ⟨trivial, .locks rfl rfl rfl⟩ <|
      .cons ⟨trivial, .fetches rfl rfl⟩ <| .single ⟨trivial, .takes rfl rfl rfl⟩, rfl⟩
    all_goals
      rintro (_ | _ | i) call running <;> cases running
  exact ⟨s, run, three, outcomes_bound run⟩

/-- Claims were asked for, and the token was fetched without them. -/
def withoutClaims : Outcome (Option String) :=
  ⟨askWith "vault" "claims", .ok ⟨ask "vault", token "B"⟩, false⟩

/-- There was no token, and no fetch has failed. -/
def withoutToken : Outcome (Option String) := ⟨ask "vault", take none, false⟩

/-- A challenge asks for claims, but another request has fetched a token without them in the
meantime; and a request finds no token, because another one has invalidated it. -/
theorem outcomes_unbound :
    (∃ (events : List (Event (Option String))) (s : State (Option String)), Run Step {} events s ∧
      withoutClaims ∈ s.log ∧ ¬ withoutClaims.Bound) ∧
    (∃ (events : List (Event (Option String))) (s : State (Option String)), Run Step {} events s ∧
      withoutToken ∈ s.log ∧ ¬ withoutToken.Bound) := by
  constructor
  · refine ⟨[.request 0, .authorize 0 (ask "vault"), .look 0 0, .lock 0, .fetched 0 (token "A"),
      .take 0, .callbackReturned 0 true, .response 0 true, .invalidate 0 true,
      .request 1, .authorize 1 (ask "vault"), .look 1 0, .lock 1, .fetched 1 (token "B"),
      .authorize 0 (askWith "vault" "claims"), .look 0 0, .take 0], _,
      .cons (.requests rfl) <| .cons (.authorizes rfl) <| .cons (.looks rfl rfl rfl) <|
      .cons (.locks rfl rfl rfl) <| .cons (.fetches rfl rfl) <| .cons (.takes rfl rfl rfl) <|
      .cons (.returns rfl) <| .cons (.responds rfl) <| .cons (.invalidates rfl rfl) <|
      .cons (.requests rfl) <| .cons (.authorizes rfl) <| .cons (.looks rfl rfl rfl) <|
      .cons (.locks rfl rfl rfl) <| .cons (.fetches rfl rfl) <|
      .cons (.authorizes rfl) <| .cons (.looks rfl rfl rfl) <| .single (.takes rfl rfl rfl), ?_, nofun⟩
    exact .tail _ (.head _)
  · refine ⟨[.request 0, .authorize 0 (ask "vault"), .look 0 0, .lock 0, .fetched 0 (token "A"),
      .take 0, .callbackReturned 0 true, .response 0 true,
      .request 1, .authorize 1 (ask "vault"), .look 1 0, .invalidate 0 false, .take 1], _,
      .cons (.requests rfl) <| .cons (.authorizes rfl) <| .cons (.looks rfl rfl rfl) <|
      .cons (.locks rfl rfl rfl) <| .cons (.fetches rfl rfl) <| .cons (.takes rfl rfl rfl) <|
      .cons (.returns rfl) <| .cons (.responds rfl) <|
      .cons (.requests rfl) <| .cons (.authorizes rfl) <| .cons (.looks rfl rfl rfl) <|
      .cons (.invalidates rfl rfl) <| .single (.takes rfl rfl rfl), ?_, nofun⟩
    exact .tail _ (.head _)

end AzureSdk.Core.BearerToken
