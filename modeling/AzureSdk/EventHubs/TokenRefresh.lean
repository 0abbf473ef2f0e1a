/-
# EventHubs.TokenRefresh — the token refresher against the clock

The authorizer keeps a token for each authorized path.  Its refresher works in passes: it sleeps
until shortly before the first token expires, collects the tokens that are about to expire, asks
the credential for new ones, and stores them.  A path whose new token does not expire later is
not refreshed any more.

The credential hands out the token it has cached while that has more than five minutes to go.  So
a refresher that wakes up at most five minutes before a token expires keeps every path authorized
(`refresher_keeps_tokens`); one that wakes up earlier, as it does by default, gets the same token
again and gives the path up (`default_times_give_up`).

Calls of the credential and of the service take no time and do not fail, and time passes only
while the refresher sleeps, which it does exactly as long as it wants to.
-/
import AzureSdk.Core.Credentials
import AzureSdk.Theory.HashMap
import AzureSdk.Theory.Run

namespace AzureSdk.EventHubs

open Core Theory List

/-- The jitter is drawn from a range of whole milliseconds that is not
empty. -/
structure TokenRefreshTimes where
  beforeExpirationRefreshTime : Int
  jitterMin : Int
  jitterMax : Int
  range : wholeMilliseconds jitterMin < wholeMilliseconds jitterMax

def tokenRefreshBias : Int := seconds (6 * 60)

def TokenRefreshTimes.default : TokenRefreshTimes where
  beforeExpirationRefreshTime := tokenRefreshBias
  jitterMin := seconds (-5)
  jitterMax := seconds 5
  range := by decide

/-- The bias with a jitter of so many milliseconds. -/
def TokenRefreshTimes.bias (times : TokenRefreshTimes) (jitter : Int) : Int :=
  times.beforeExpirationRefreshTime + milliseconds jitter

/-- `authorization_scopes`, by the text of the URL. -/
abbrev AuthorizationScopes := HashMap String AccessToken

/-- The paths a pass looks at. -/
def refreshable (scopes : AuthorizationScopes) (nonRefreshable : List String) :
    List (String × AccessToken) :=
  scopes.toList.filter fun p => !nonRefreshable.contains p.1

/-- `expiration_times`, sorted. -/
def expirationTimes (scopes : AuthorizationScopes) (nonRefreshable : List String) : List Int :=
  ((refreshable scopes nonRefreshable).map (·.2.expiresOn)).mergeSort fun a b => decide (a ≤ b)

/-- `tokens_to_refresh`, with the expiry of each. -/
def tokensToRefresh (order : IterationOrder (String × AccessToken)) (scopes : AuthorizationScopes)
    (nonRefreshable : List String) (now bias : Int) : List (String × Int) :=
  ((order.arrange (refreshable scopes nonRefreshable)).filter fun p =>
    !decide (now + bias ≤ p.2.expiresOn)).map fun p => (p.1, p.2.expiresOn)

variable {nonRefreshable : List String} {path : String} {scopes : AuthorizationScopes}
  {token : AccessToken}

theorem mem_refreshable : (path, token) ∈ refreshable scopes nonRefreshable ↔
      scopes[path]? = some token ∧ path ∉ nonRefreshable := by
  simp [refreshable]

theorem mem_tokensToRefresh {order : IterationOrder (String × AccessToken)} {now bias : Int}
    {previous : Int} (h : (path, previous) ∈ tokensToRefresh order scopes nonRefreshable now bias) :
    ∃ token, scopes[path]? = some token ∧ token.expiresOn = previous ∧ previous < now + bias := by
  obtain ⟨⟨path', token⟩, mem, same⟩ := mem_map.mp h
  obtain ⟨mem, soon⟩ := mem_filter.mp mem
  rw [(order.perm _).mem_iff] at mem
  cases same
  refine ⟨token, (mem_refreshable.mp mem).1, rfl, ?_⟩
  simpa using soon

theorem mem_expirationTimes (there : scopes[path]? = some token)
    (refreshed : path ∉ nonRefreshable) : token.expiresOn ∈ expirationTimes scopes nonRefreshable := by
  rw [expirationTimes, mem_mergeSort]
  exact mem_map.mpr ⟨(path, token), mem_refreshable.mpr ⟨there, refreshed⟩, rfl⟩

theorem expirationTimes_first
    {first : Int} (h : (expirationTimes scopes nonRefreshable).head? = some first)
    (there : scopes[path]? = some token) (refreshed : path ∉ nonRefreshable) :
    first ≤ token.expiresOn := by
  have sorted : (expirationTimes scopes nonRefreshable).Pairwise fun a b => decide (a ≤ b) = true := by
    apply pairwise_mergeSort
    · intro a b c ab bc
      simp only [decide_eq_true_eq] at *
      omega
    · intro a b
      simp only [Bool.or_eq_true, decide_eq_true_eq]
      omega
  have mem := mem_expirationTimes there refreshed
  cases times : expirationTimes scopes nonRefreshable with
  | nil =>
    rw [times] at mem
    cases mem
  | cons time later =>
    rw [times] at sorted mem h
    cases h
    rcases mem_cons.mp mem with same | later
    · omega
    · simpa using (pairwise_cons.mp sorted).1 _ later

namespace Refresher

/-- Where the refresher is: not started, at the head of its loop, asleep until a moment with or
without tokens to refresh, or in a pass: before it collects the tokens, and while it asks for
them one after the other. -/
inductive Phase
  | unstarted
  | looping
  | idling (wake : Int)
  | sleeping (bias wake : Int)
  | collecting (bias : Int)
  | refreshing (todo : List (String × Int)) (updated : List (String × AccessToken))
  deriving DecidableEq, Repr

/-- What may happen; a call of the credential comes with the token it would fetch. -/
inductive Event
  | tick (now : Int)
  | authorizePath (path : String) (fresh : AccessToken)
  | plan (jitter : Int)
  | wake
  | collect (order : IterationOrder (String × AccessToken))
  | refresh (fresh : AccessToken)
  | update

/-- The authorizer, its refresher and the credential, at a moment. -/
structure State where
  now : Int
  cached : Option AccessToken
  scopes : AuthorizationScopes := ∅
  nonRefreshable : List String := []
  phase : Phase := .unstarted

namespace State

variable (s : State)

def asked (fresh : AccessToken) : State := { s with cached := some (getToken s.now s.cached fresh) }

/-- The first authorized path starts the refresher. -/
def authorizePath (path : String) (fresh : AccessToken) : State :=
  match s.scopes[path]? with
  | some _ => s
  | none =>
    { s.asked fresh with
      scopes := s.scopes.insert path (getToken s.now s.cached fresh)
      phase := if s.phase = .unstarted then .looping else s.phase }

/-- The head of the loop: how long to sleep. -/
def plan (times : TokenRefreshTimes) (jitter : Int) : State :=
  match (expirationTimes s.scopes s.nonRefreshable).head? with
  | none => { s with phase := .idling (s.now + tokenRefreshBias) }
  | some mostRecentRefresh =>
    let refreshTime := mostRecentRefresh - times.bias jitter
    if s.now < refreshTime then { s with phase := .sleeping (times.bias jitter) refreshTime }
    else { s with phase := .collecting (times.bias jitter) }

/-- One path of a pass. -/
def refresh (path : String) (previous : Int) (todo : List (String × Int))
    (updated : List (String × AccessToken)) (fresh : AccessToken) : State :=
  let newToken := getToken s.now s.cached fresh
  if newToken.expiresOn ≤ previous then
    { s.asked fresh with
      nonRefreshable := s.nonRefreshable ++ [path], phase := .refreshing todo updated }
  else { s.asked fresh with phase := .refreshing todo (updated ++ [(path, newToken)]) }

end State

inductive Step (times : TokenRefreshTimes) : State → Event → State → Prop
  | waits {s : State} {now : Int} (before : s.phase = .unstarted) (later : s.now < now) :
    Step times s (.tick now) { s with now }
  | idles {s : State} {wake now : Int} (asleep : s.phase = .idling wake) (later : s.now < now)
    (within : now ≤ wake) : Step times s (.tick now) { s with now }
  | sleeps {s : State} {bias wake now : Int} (asleep : s.phase = .sleeping bias wake)
    (later : s.now < now) (within : now ≤ wake) : Step times s (.tick now) { s with now }
  | authorizes {s : State} (path : String) {fresh : AccessToken}
    (new : Fresh s.now s.cached fresh) :
    Step times s (.authorizePath path fresh) (s.authorizePath path fresh)
  | plans {s : State} {jitter : Int} (looping : s.phase = .looping)
    (low : wholeMilliseconds times.jitterMin ≤ jitter)
    (high : jitter < wholeMilliseconds times.jitterMax) :
    Step times s (.plan jitter) (s.plan times jitter)
  | wakesIdle {s : State} (asleep : s.phase = .idling s.now) :
    Step times s .wake { s with phase := .looping }
  | wakes {s : State} {bias : Int} (asleep : s.phase = .sleeping bias s.now) :
    Step times s .wake { s with phase := .collecting bias }
  | collects {s : State} {bias : Int} (order : IterationOrder (String × AccessToken))
    (collecting : s.phase = .collecting bias) :
    Step times s (.collect order) { s with
      phase := .refreshing (tokensToRefresh order s.scopes s.nonRefreshable s.now bias) [] }
  | refreshes {s : State} {path : String} {previous : Int} {todo : List (String × Int)}
    {updated : List (String × AccessToken)} {fresh : AccessToken}
    (refreshing : s.phase = .refreshing ((path, previous) :: todo) updated)
    (new : Fresh s.now s.cached fresh) :
    Step times s (.refresh fresh) (s.refresh path previous todo updated fresh)
  | updates {s : State} {updated : List (String × AccessToken)}
    (refreshing : s.phase = .refreshing [] updated) :
    Step times s .update { s with
      scopes := HashMap.insertAll s.scopes updated, phase := .looping }

/-! ## The invariant -/

/-- The refresher wakes up before a token expires, and at most five minutes before. -/
structure Late (times : TokenRefreshTimes) : Prop where
  positive : 0 < times.bias (wholeMilliseconds times.jitterMin)
  within : times.bias (wholeMilliseconds times.jitterMax - 1) ≤ seconds 300

theorem Late.bias {times : TokenRefreshTimes} (late : Late times) {jitter : Int}
    (low : wholeMilliseconds times.jitterMin ≤ jitter)
    (high : jitter < wholeMilliseconds times.jitterMax) :
    0 < times.bias jitter ∧ times.bias jitter ≤ seconds 300 := by
  have positive := late.positive
  have within := late.within
  unfold TokenRefreshTimes.bias milliseconds at *
  omega

/-- The credential has had a token that expires no earlier. -/
def Known (cached : Option AccessToken) (expiresOn : Int) : Prop :=
  ∃ token, cached = some token ∧ expiresOn ≤ token.expiresOn

/-- Some path is authorized. -/
def Started (scopes : AuthorizationScopes) : Prop :=
  ∃ (path : String) (token : AccessToken), scopes[path]? = some token

def Phase.Fits (s : State) : Phase → Prop
  | .unstarted => ∀ path : String, s.scopes[path]? = none
  | .looping => Started s.scopes
  | .idling _ => False
  | .sleeping bias wake =>
    Started s.scopes ∧ bias ≤ seconds 300 ∧ s.now ≤ wake ∧
      ∀ (path : String) (token : AccessToken), s.scopes[path]? = some token → wake < token.expiresOn
  | .collecting bias => Started s.scopes ∧ bias ≤ seconds 300
  | .refreshing todo updated =>
    Started s.scopes ∧
      (∀ p ∈ todo, p.2 ≤ s.now + seconds 300 ∧ Known s.cached p.2) ∧
      ∀ p ∈ updated, s.now < p.2.expiresOn ∧ Known s.cached p.2.expiresOn

/-- Every path is refreshed, and no token has expired. -/
structure Inv (s : State) : Prop where
  refreshed : s.nonRefreshable = []
  known : ∀ (path : String) (token : AccessToken), s.scopes[path]? = some token →
    Known s.cached token.expiresOn
  alive : ∀ (path : String) (token : AccessToken), s.scopes[path]? = some token →
    s.now < token.expiresOn
  phase : s.phase.Fits s

section Steps

variable {s : State} {fresh : AccessToken}

theorem Known.asked {expiresOn : Int} (known : Known s.cached expiresOn)
    (new : Fresh s.now s.cached fresh) : Known (s.asked fresh).cached expiresOn := by
  obtain ⟨token, there, le⟩ := known
  have ge := getToken_ge new there
  exact ⟨_, rfl, by omega⟩

theorem known_asked (s : State) (fresh : AccessToken) :
    Known (s.asked fresh).cached (getToken s.now s.cached fresh).expiresOn :=
  ⟨_, rfl, Int.le_refl _⟩

theorem started_insertAll {scopes : AuthorizationScopes} (started : Started scopes)
    (updated : List (String × AccessToken)) : Started (HashMap.insertAll scopes updated) := by
  induction updated generalizing scopes with
  | nil => exact started
  | cons p updated ih => exact ih ⟨p.1, p.2, by simp⟩

theorem started_insert (scopes : AuthorizationScopes) (path : String) (token : AccessToken) :
    Started (scopes.insert path token) :=
  ⟨path, token, by simp⟩

/-- An authorized path has a token that has not expired, and expires after the refresher wakes
up. -/
theorem Inv.authorizes (inv : Inv s) (path : String) (new : Fresh s.now s.cached fresh) :
    Inv (s.authorizePath path fresh) := by
  unfold State.authorizePath
  cases there : s.scopes[path]? with
  | some token => exact inv
  | none =>
    have stored : ∀ (path' : String) (token : AccessToken),
        (s.scopes.insert path (getToken s.now s.cached fresh))[path']? = some token →
        token = getToken s.now s.cached fresh ∨ s.scopes[path']? = some token := by
      intro path' token h
      rw [HashMap.getElem?_insert] at h
      split at h
      · exact .inl (Option.some.inj h).symm
      · exact .inr h
    refine ⟨inv.refreshed, ?_, ?_, ?_⟩
    · intro path' token h
      rcases stored path' token h with rfl | old
      · exact known_asked s fresh
      · exact (inv.known path' token old).asked new
    · intro path' token h
      rcases stored path' token h with rfl | old
      · exact getToken_unexpired new
      · exact inv.alive path' token old
    · have fits := inv.phase
      have some := started_insert s.scopes path (getToken s.now s.cached fresh)
      cases phase : s.phase with
      | unstarted => exact some
      | looping => exact some
      | idling wake =>
        rw [phase] at fits
        exact fits.elim
      | sleeping bias wake =>
        rw [phase] at fits
        obtain ⟨⟨path', token', authorized⟩, short, later, each⟩ := fits
        refine ⟨some, short, later, fun path'' token h => ?_⟩
        rcases stored path'' token h with rfl | old
        · -- the credential's token expires no earlier than the one already stored
          obtain ⟨token, cached, le⟩ := inv.known path' token' authorized
          have wakes := each path' token' authorized
          have ge := getToken_ge new cached
          omega
        · exact each path'' token old
      | collecting bias =>
        rw [phase] at fits
        exact ⟨some, fits.2⟩
      | refreshing todo updated =>
        rw [phase] at fits
        refine ⟨some, fun p mem => ?_, fun p mem => ?_⟩
        · exact ⟨(fits.2.1 p mem).1, (fits.2.1 p mem).2.asked new⟩
        · exact ⟨(fits.2.2 p mem).1, (fits.2.2 p mem).2.asked new⟩

variable {jitter : Int} {times : TokenRefreshTimes}

theorem Inv.plans (inv : Inv s) (looping : s.phase = .looping) (positive : 0 < times.bias jitter)
    (short : times.bias jitter ≤ seconds 300) : Inv (s.plan times jitter) := by
  have started : Started s.scopes := by
    have fits := inv.phase
    rwa [looping] at fits
  have earliest : ∀ first, (expirationTimes s.scopes s.nonRefreshable).head? = some first →
      ∀ (path : String) (token : AccessToken), s.scopes[path]? = some token →
        first ≤ token.expiresOn := by
    intro first h path token there
    apply expirationTimes_first h there
    simp [inv.refreshed]
  unfold State.plan
  cases first : (expirationTimes s.scopes s.nonRefreshable).head? with
  | none =>
    -- some path is authorized, and none is given up
    obtain ⟨path, token, there⟩ := started
    have kept : path ∉ s.nonRefreshable := by simp [inv.refreshed]
    have mem := mem_expirationTimes there kept
    rw [head?_eq_none_iff.mp first] at mem
    cases mem
  | some time =>
    dsimp only
    split
    · next later =>
      refine ⟨inv.refreshed, inv.known, inv.alive, started, short, Int.le_of_lt later, ?_⟩
      intro path token there
      have le := earliest time first path token there
      omega
    · exact ⟨inv.refreshed, inv.known, inv.alive, started, short⟩

theorem plan_first {first : Int} (h : expirationTimes s.scopes s.nonRefreshable = [first]) :
    s.plan times jitter =
      if s.now < first - times.bias jitter then
        { s with phase := .sleeping (times.bias jitter) (first - times.bias jitter) }
      else { s with phase := .collecting (times.bias jitter) } := by
  rw [State.plan, h]
  rfl

theorem plan_nothing (h : expirationTimes s.scopes s.nonRefreshable = []) :
    s.plan times jitter = { s with phase := .idling (s.now + tokenRefreshBias) } := by
  rw [State.plan, h]
  rfl

theorem Inv.collects (inv : Inv s) {bias : Int} (collecting : s.phase = .collecting bias)
    (order : IterationOrder (String × AccessToken)) :
    Inv { s with
      phase := .refreshing (tokensToRefresh order s.scopes s.nonRefreshable s.now bias) [] } := by
  have fits := inv.phase
  rw [collecting] at fits
  refine ⟨inv.refreshed, inv.known, inv.alive, fits.1, ?_, by simp⟩
  rintro ⟨path, previous⟩ mem
  obtain ⟨token, there, rfl, soon⟩ := mem_tokensToRefresh mem
  have short := fits.2
  refine ⟨?_, inv.known path token there⟩
  show token.expiresOn ≤ s.now + seconds 300
  omega

variable {updated : List (String × AccessToken)}

theorem Inv.refreshes (inv : Inv s) {path : String} {previous : Int} {todo : List (String × Int)}
    (refreshing : s.phase = .refreshing ((path, previous) :: todo) updated)
    (new : Fresh s.now s.cached fresh) : Inv (s.refresh path previous todo updated fresh) := by
  have fits := inv.phase
  rw [refreshing] at fits
  obtain ⟨started, soon, stored⟩ := fits
  obtain ⟨short, token, cached, le⟩ := soon (path, previous) (.head _)
  have later : previous < (getToken s.now s.cached fresh).expiresOn :=
    getToken_later new cached le short
  unfold State.refresh
  rw [if_neg (by omega)]
  refine ⟨inv.refreshed, ?_, inv.alive, started, ?_, ?_⟩
  · intro path' token' there
    exact (inv.known path' token' there).asked new
  · intro p mem
    obtain ⟨short, known⟩ := soon p (.tail _ mem)
    exact ⟨short, known.asked new⟩
  · exact forall_mem_append.mpr ⟨fun p mem => ⟨(stored p mem).1, (stored p mem).2.asked new⟩,
      forall_mem_singleton.mpr ⟨getToken_unexpired new, known_asked s fresh⟩⟩

theorem Inv.updates (inv : Inv s) (refreshing : s.phase = .refreshing [] updated) :
    Inv { s with scopes := HashMap.insertAll s.scopes updated, phase := .looping } := by
  have fits := inv.phase
  rw [refreshing] at fits
  obtain ⟨started, _, stored⟩ := fits
  refine ⟨inv.refreshed, ?_, ?_, ?_⟩
  · intro path token there
    rcases HashMap.getElem?_insertAll there with new | old
    · exact (stored _ new).2
    · exact inv.known path token old
  · intro path token there
    rcases HashMap.getElem?_insertAll there with new | old
    · exact (stored _ new).1
    · exact inv.alive path token old
  · exact started_insertAll started updated

theorem inv_step (late : Late times) {e : Event} {s' : State}
    (inv : Inv s) (step : Step times s e s') : Inv s' := by
  have fits := inv.phase
  cases step with
  | waits before later =>
    rw [before] at fits
    refine ⟨inv.refreshed, inv.known, ?_, ?_⟩
    · intro path token there
      rw [fits path] at there
      cases there
    · show Phase.Fits _ s.phase
      rw [before]
      exact fits
  | idles asleep later within | wakesIdle asleep =>
    rw [asleep] at fits
    exact fits.elim
  | @sleeps bias wake now asleep later within =>
    rw [asleep] at fits
    obtain ⟨started, short, _, each⟩ := fits
    refine ⟨inv.refreshed, inv.known, ?_, ?_⟩
    · intro path token there
      have wakes := each path token there
      show now < _
      omega
    · show Phase.Fits _ s.phase
      rw [asleep]
      exact ⟨started, short, within, each⟩
  | authorizes path new => exact inv.authorizes path new
  | plans looping low high =>
    obtain ⟨positive, short⟩ := late.bias low high
    exact inv.plans looping positive short
  | wakes asleep =>
    rw [asleep] at fits
    exact ⟨inv.refreshed, inv.known, inv.alive, fits.1, fits.2.1⟩
  | collects order collecting => exact inv.collects collecting order
  | refreshes refreshing new => exact inv.refreshes refreshing new
  | updates refreshing => exact inv.updates refreshing

end Steps

/-- **A refresher that wakes up at most five minutes before a token expires keeps every path
authorized, at every time.** -/
theorem refresher_keeps_tokens (times : TokenRefreshTimes) (late : Late times) (now : Int)
    (cached : Option AccessToken) {events : List Event} {s : State}
    (run : Run (Step times) { now, cached } events s) :
    ∀ (path : String) (token : AccessToken), s.scopes[path]? = some token →
      s.now < token.expiresOn := by
  have start : Inv { now, cached } := by
    refine ⟨rfl, ?_, ?_, ?_⟩
    · simp
    · simp
    · intro path
      simp
  have inv : Inv s := run.invariant (P := Inv) (fun inv step => inv_step late inv step) start
  exact inv.alive

/-! ## One path -/

def hour : AccessToken := ⟨"token", seconds 3600⟩

/-- One path is authorized with the token, which the credential has cached. -/
def onePath (now : Int) (nonRefreshable : List String) (phase : Phase) : State :=
  { now, cached := some hour, scopes := {("path", hour)}, nonRefreshable, phase }

theorem onePath_authorized (times : TokenRefreshTimes) :
    Step times { now := 0, cached := none } (.authorizePath "path" hour) (onePath 0 [] .looping) :=
  .authorizes "path" ⟨by decide, by simp⟩

theorem expirationTimes_onePath : expirationTimes {("path", hour)} [] = [seconds 3600] :=
  mergeSort_singleton (seconds 3600)

theorem expirationTimes_givenUp : expirationTimes {("path", hour)} ["path"] = [] :=
  mergeSort_nil

/-- A minute before it expires, with a jitter of at most five seconds. -/
def minuteBefore : TokenRefreshTimes where
  beforeExpirationRefreshTime := seconds 60
  jitterMin := seconds (-5)
  jitterMax := seconds 5
  range := by decide

def later : AccessToken := ⟨"later", seconds 7200⟩

/-- The path, authorized with the later token in place of the first. -/
def renewed (now : Int) (phase : Phase) : State :=
  { now, cached := some later, phase, scopes := HashMap.insertAll {("path", hour)} [("path", later)] }

/-- The refresher wakes up a minute before the token expires, gets a later one in its second pass, and
sleeps on past the hour. -/
def refreshes : List Event :=
  [.authorizePath "path" hour, .plan 0, .tick (seconds 3540), .wake, .collect (.asListed _), .update,
    .plan 1, .collect (.asListed _), .refresh later, .update, .plan 0, .tick (seconds 4000)]

theorem refresher_keeps_tokens_minute :
    Late minuteBefore ∧ ∃ s, Run (Step minuteBefore) { now := 0, cached := none } refreshes s ∧
      s.now = seconds 4000 ∧ s.scopes["path"]? = some later ∧ s.now < later.expiresOn := by
  have late : Late minuteBefore := ⟨by decide, by decide⟩
  have first : (onePath 0 [] .looping).plan minuteBefore 0 =
      onePath 0 [] (.sleeping (seconds 60) (seconds 3540)) :=
    (plan_first expirationTimes_onePath).trans rfl
  have second : (onePath (seconds 3540) [] .looping).plan minuteBefore 1 =
      onePath (seconds 3540) [] (.collecting (seconds 60 + milliseconds 1)) :=
    (plan_first expirationTimes_onePath).trans rfl
  have times : expirationTimes (HashMap.insertAll {("path", hour)} [("path", later)]) [] =
      [seconds 7200] := mergeSort_singleton (seconds 7200)
  have third : (renewed (seconds 3540) .looping).plan minuteBefore 0 =
      renewed (seconds 3540) (.sleeping (seconds 60) (seconds 7140)) := (plan_first times).trans rfl
  have run : Run (Step minuteBefore) { now := 0, cached := none } refreshes
      (renewed (seconds 4000) (.sleeping (seconds 60) (seconds 7140))) := by
    apply Run.cons (onePath_authorized _)
    apply Run.cons (first ▸ Step.plans rfl (by decide) (by decide))
    apply Run.cons (Step.sleeps rfl (by decide) (by decide))
    apply Run.cons (Step.wakes rfl)
    apply Run.cons (Step.collects _ rfl)
    apply Run.cons (Step.updates rfl)
    apply Run.cons (second ▸ Step.plans rfl (by decide) (by decide))
    apply Run.cons (Step.collects _ rfl)
    apply Run.cons (Step.refreshes rfl ⟨by decide, by decide⟩)
    apply Run.cons (Step.updates rfl)
    apply Run.cons (third ▸ Step.plans rfl (by decide) (by decide))
    apply Run.cons (Step.sleeps rfl (by decide) (by decide))
    exact .nil _
  have stored : (renewed (seconds 4000) (.sleeping (seconds 60) (seconds 7140))).scopes["path"]? =
      some later := rfl
  exact ⟨late, _, run, rfl, stored, refresher_keeps_tokens minuteBefore late 0 none run _ _ stored⟩

/-- The pass that wakes up first looks at the token exactly when it is not yet about to expire; a
later one gets the same token again and gives the path up. -/
def givesUp : List Event :=
  [.authorizePath "path" hour, .plan 0, .tick (seconds 3240), .wake, .collect (.asListed _), .update,
    .plan 1, .collect (.asListed _), .refresh ⟨"later", seconds 7200⟩, .update, .plan 0,
    .tick (seconds 3600), .wake, .plan 0, .tick (seconds 3900)]

/-- With the default times the only path is authorized with a token that has expired. -/
theorem default_times_give_up :
    ∃ s : State, Run (Step .default) { now := 0, cached := none } givesUp s ∧
      s.scopes["path"]? = some hour ∧ hour.expiresOn < s.now := by
  have first : (onePath 0 [] .looping).plan .default 0 =
      onePath 0 [] (.sleeping (seconds 360) (seconds 3240)) :=
    (plan_first expirationTimes_onePath).trans rfl
  have second : (onePath (seconds 3240) [] .looping).plan .default 1 =
      onePath (seconds 3240) [] (.collecting (seconds 360 + milliseconds 1)) :=
    (plan_first expirationTimes_onePath).trans rfl
  have idle : ∀ now, (onePath now ["path"] .looping).plan .default 0 =
      onePath now ["path"] (.idling (now + seconds 360)) :=
    fun now => plan_nothing expirationTimes_givenUp
  have sleeps : Step .default (onePath 0 [] .looping) (.plan 0)
      (onePath 0 [] (.sleeping (seconds 360) (seconds 3240))) :=
    first ▸ Step.plans rfl (by decide) (by decide)
  have passes : Step .default (onePath (seconds 3240) [] .looping) (.plan 1)
      (onePath (seconds 3240) [] (.collecting (seconds 360 + milliseconds 1))) :=
    second ▸ Step.plans rfl (by decide) (by decide)
  have idles : ∀ now, Step .default (onePath now ["path"] .looping) (.plan 0)
      (onePath now ["path"] (.idling (now + seconds 360))) :=
    fun now => idle now ▸ Step.plans rfl (by decide) (by decide)
  refine ⟨onePath (seconds 3900) ["path"] (.idling (seconds 3600 + seconds 360)), ?_, rfl, by decide⟩
  apply Run.cons (onePath_authorized _)
  apply Run.cons sleeps
  apply Run.cons (Step.sleeps rfl (by decide) (by decide))
  apply Run.cons (Step.wakes rfl)
  apply Run.cons (Step.collects _ rfl)
  apply Run.cons (Step.updates rfl)
  apply Run.cons passes
  apply Run.cons (Step.collects _ rfl)
  apply Run.cons (Step.refreshes rfl ⟨by decide, by decide⟩)
  apply Run.cons (Step.updates rfl)
  apply Run.cons (idles (seconds 3240))
  apply Run.cons (Step.idles rfl (by decide) (by decide))
  apply Run.cons (Step.wakesIdle rfl)
  apply Run.cons (idles (seconds 3600))
  apply Run.cons (Step.idles rfl (by decide) (by decide))
  exact .nil _

end Refresher

end AzureSdk.EventHubs
