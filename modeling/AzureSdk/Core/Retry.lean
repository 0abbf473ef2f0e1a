/-
# Core.Retry — back-off, retry headers and the retry loop

A retry policy sleeps between its attempts, as long as its back-off says or longer if the server
asks for it.  Durations are signed nanoseconds, and `sleep` panics on a negative one.
-/
import AzureSdk.Core.Credentials
import AzureSdk.Core.Error
import AzureSdk.Theory.Decimal

namespace AzureSdk.Core.Retry

open Theory

/-- `ExponentialRetryPolicy`, with the delays as `new` raises them. -/
structure ExponentialRetryPolicy where
  initialDelay : Int
  maxDelay : Int
  initial_ge : milliseconds 1 ≤ initialDelay
  max_ge : seconds 1 ≤ maxDelay

/-- A `u64`, unless it overflows. -/
def u64 (n : Nat) : Option Nat := if n < 2 ^ 64 then some n else none

/-- `as i64`. -/
def asI64 (n : Nat) : Int := if n < 2 ^ 63 then n else n - 2 ^ 64

namespace ExponentialRetryPolicy

variable (self : ExponentialRetryPolicy) (retryCount jitter : Nat)

def initialMs : Nat := (wholeMilliseconds self.initialDelay).toNat

def maxMs : Nat := (wholeMilliseconds self.maxDelay).toNat

/-- `sleep_duration` with a drawn jitter; `none` if a step overflows. -/
def sleepDuration : Option Int := do
  let power ← u64 (2 ^ retryCount)
  let product ← u64 (self.initialMs % 2 ^ 64 * power)
  let sleepMs ← u64 (product + jitter)
  return milliseconds (asI64 (min sleepMs ((u64 self.maxMs).getD (2 ^ 64 - 1))))

def exactMs : Nat := min self.maxMs (self.initialMs * 2 ^ retryCount + jitter)

/-- The delay before the cap; the cast keeps the low 64 bits. -/
abbrev uncappedMs : Nat := self.initialMs % 2 ^ 64 * 2 ^ retryCount + jitter

theorem sleepDuration_eq : self.sleepDuration retryCount jitter =
    if 2 ^ retryCount < 2 ^ 64 ∧ self.uncappedMs retryCount jitter < 2 ^ 64 then
      some (milliseconds (asI64 (min (self.uncappedMs retryCount jitter) self.maxMs)))
    else none := by
  have u64_bind (n : Nat) (f : Nat → Option Int) :
      (u64 n >>= f) = if n < 2 ^ 64 then f n else none := by
    unfold u64
    split <;> rfl
  have cap (n : Nat) (fits : n < 2 ^ 64) :
      min n ((u64 self.maxMs).getD (2 ^ 64 - 1)) = min n self.maxMs := by
    unfold u64
    split
    · rfl
    · show min n (2 ^ 64 - 1) = min n self.maxMs
      omega
  simp only [sleepDuration, u64_bind]
  by_cases powers : 2 ^ retryCount < 2 ^ 64
  · by_cases fits : self.initialMs % 2 ^ 64 * 2 ^ retryCount + jitter < 2 ^ 64
    · have product : self.initialMs % 2 ^ 64 * 2 ^ retryCount < 2 ^ 64 := by omega
      rw [if_pos powers, if_pos product, if_pos fits, if_pos ⟨powers, fits⟩, cap _ fits]
      rfl
    · rw [if_neg fits, ite_self, ite_self, if_neg (fits ·.2)]
  · rw [if_neg powers, if_neg (powers ·.1)]

theorem cast_harmless_iff :
    min (self.uncappedMs retryCount jitter) self.maxMs = self.exactMs retryCount jitter ↔
      self.initialMs < 2 ^ 64 ∨ self.maxMs ≤ self.uncappedMs retryCount jitter := by
  unfold uncappedMs exactMs
  by_cases small : self.initialMs < 2 ^ 64
  · rw [Nat.mod_eq_of_lt small, Nat.min_comm]
    exact iff_of_true rfl (.inl small)
  · have less : self.initialMs % 2 ^ 64 < self.initialMs := by omega
    have scaled := Nat.mul_lt_mul_of_pos_right less (Nat.two_pow_pos retryCount)
    omega

/-- **The back-off is exact if and only if** the power and the delay before the cap fit in 64 bits,
the initial delay fits as well or the cap is reached without its high bits, and the capped delay fits
in 63 bits.
The exact delay does not decrease with the retry count. -/
theorem back_off_exact_iff :
    (self.sleepDuration retryCount jitter = some (milliseconds (self.exactMs retryCount jitter)) ↔
      2 ^ retryCount < 2 ^ 64 ∧ self.uncappedMs retryCount jitter < 2 ^ 64 ∧
      (self.initialMs < 2 ^ 64 ∨ self.maxMs ≤ self.uncappedMs retryCount jitter) ∧
      self.exactMs retryCount jitter < 2 ^ 63) ∧
    ∀ earlier ≤ retryCount, self.exactMs earlier jitter ≤ self.exactMs retryCount jitter := by
  constructor
  · rw [sleepDuration_eq, ← cast_harmless_iff]
    unfold milliseconds asI64
    split <;> grind
  · intro earlier le
    have power := Nat.mul_le_mul_left self.initialMs (Nat.pow_le_pow_right Nat.two_pos le)
    unfold exactMs
    omega

end ExponentialRetryPolicy

/-- With the default delays, the 57th retry overflows, before the cap of half a minute. -/
theorem late_retry_overflows :
    let policy : ExponentialRetryPolicy := ⟨milliseconds 200, seconds 30, by decide, by decide⟩
    policy.sleepDuration 57 0 = none ∧ policy.exactMs 57 0 = 30000 := by
  decide

/-! ## Retry headers -/

/-- A retry header, with its value in the answer; `retry-after` alone is standard. -/
structure RetryHeader where
  isStandard : Bool
  value : Option Text

/-- The header has a negative number. -/
def RetryHeader.Negative (header : RetryHeader) : Prop :=
  ∃ v n, header.value = some v ∧ Decimal.parseSigned (2 ^ 63) v = some n ∧ n < 0

/-- An answer of the server, when it arrives, and how dates are read. -/
structure Answer where
  retryHeaders : List RetryHeader
  now : Int
  parseHttpDate : Text → Option Int

/-- Neither runtime can convert a negative duration. -/
def SleepPanics (duration : Int) : Prop := duration < 0

namespace Answer

variable (answer : Answer)

def delay (header : RetryHeader) : Option Int :=
  header.value.bind fun v =>
    let number := Decimal.parseSigned (2 ^ 63) v
    if header.isStandard then
      (number.map seconds).or ((answer.parseHttpDate v).map fun date =>
        if date < answer.now then 0 else date - answer.now)
    else number.map milliseconds

def getRetryAfter : Option Int := answer.retryHeaders.findSome? answer.delay

/-- What `RetryPolicy::wait` hands to `sleep`. -/
def waitDuration (policySleepDuration : Int) : Int :=
  answer.getRetryAfter.elim policySleepDuration (max · policySleepDuration)

/-- What a poller hands to `sleep`: its own `get_retry_after`. -/
def pollDuration (frequency : Int) : Int := answer.getRetryAfter.getD frequency

theorem negative_iff {header : RetryHeader} :
    header.Negative ↔ ∃ d, answer.delay header = some d ∧ d < 0 := by
  unfold RetryHeader.Negative delay
  generalize Decimal.parseSigned (2 ^ 63) = parse
  cases header.value with
  | none => simp
  | some v =>
    cases number : parse v with
    | some n => cases header.isStandard <;> simp [number, seconds, milliseconds] <;> omega
    | none =>
      -- a date in the past asks for no delay
      have late (date : Int) : ¬ (if date < answer.now then 0 else date - answer.now) < 0 := by
        split <;> omega
      cases header.isStandard <;> simp [number, late]

/-- **No header makes the `sleep` of a policy panic; that of a poller panics if and only if the
first header with a delay has a negative number.** -/
theorem sleep_panics_iff (frequency : Int) (least : seconds 1 ≤ frequency) :
    (∀ own, ¬ SleepPanics own → ¬ SleepPanics (answer.waitDuration own)) ∧
    (SleepPanics (answer.pollDuration frequency) ↔
      ∃ before header after, answer.retryHeaders = before ++ header :: after ∧ header.Negative ∧
        ∀ h ∈ before, answer.delay h = none) := by
  unfold SleepPanics seconds at *
  constructor
  · intro own fine
    unfold waitDuration
    cases answer.getRetryAfter with
    | none => exact fine
    | some asked =>
      show ¬ max asked own < 0
      omega
  · have asked : answer.pollDuration frequency < 0 ↔ ∃ d, answer.getRetryAfter = some d ∧ d < 0 := by
      unfold pollDuration
      cases answer.getRetryAfter <;> simp
      omega
    rw [asked]
    simp only [answer.negative_iff, getRetryAfter, List.findSome?_eq_some_iff]
    constructor
    · rintro ⟨d, ⟨before, header, after, split, asks, others⟩, negative⟩
      exact ⟨before, header, after, split, ⟨d, asks, negative⟩, others⟩
    · rintro ⟨before, header, after, split, ⟨d, asks, negative⟩, others⟩
      exact ⟨d, ⟨before, header, after, split, asks, others⟩, negative⟩

/-- An answer with `retry-after-ms: -1`. -/
def negative : Answer := ⟨[⟨false, some "-1".toList⟩], 0, fun _ => none⟩

theorem policy_waits : ¬ SleepPanics (negative.waitDuration (seconds 1)) :=
  (negative.sleep_panics_iff (seconds 30) (by decide)).1 _ (by unfold SleepPanics; decide)

theorem poller_panics : SleepPanics (negative.pollDuration (seconds 30)) := by
  unfold SleepPanics
  decide

end Answer

/-! ## The loop -/

/-- `DEFAULT_RETRY_STATUS_CODES`. -/
def defaultRetryStatusCodes : List Nat := [408, 429, 500, 502, 503, 504]

/-- What `send` reads of a fixed or exponential policy. -/
structure RetryPolicy where
  maxRetries : Nat
  maxElapsed : Int
  retryStatusCodes : List Nat

variable {α : Type}

/-- What a call of `send` meets: the result of each attempt with its status, the resets of the body,
and the time since the first attempt. -/
structure Calls (α : Type) where
  result : Nat → Result (Nat × α)
  reset : Nat → Result Unit
  timeSinceStart : Nat → Int

namespace RetryPolicy

variable (self : RetryPolicy) (calls : Calls α)

def isExpired (timeSinceStart : Int) (retryCount : Nat) : Bool :=
  self.maxRetries ≤ retryCount || self.maxElapsed ≤ timeSinceStart

/-- A configured or default status, or an I/O or connection error. -/
def retries : Result (Nat × α) → Bool
  | .ok (status, _) => (if self.retryStatusCodes.isEmpty then defaultRetryStatusCodes
      else self.retryStatusCodes).contains status
  | .error e => e.kind == .io || e.kind == .connection

/-- An error with the message it is wrapped in. -/
abbrev Wrapped := Except (String × Error)

def wrap (message : String) : Result (Nat × α) → Wrapped (Nat × α) := Except.mapError (message, ·)

/-- The rounds of `send` from a retry count on: how many attempts there are in the end, and what is
returned.  The reset at the head of a round is at the end of the one before. -/
def send (retryCount : Nat) : Nat × Wrapped (Nat × α) :=
  let result := calls.result retryCount
  if self.retries result then
    if self.isExpired (calls.timeSinceStart retryCount) retryCount then
      (retryCount + 1, wrap "retry policy expired and the request will no longer be retried" result)
    else
      match calls.reset (retryCount + 1) with
      | .ok () => send (retryCount + 1)
      | .error e =>
        (retryCount + 1, .error ("failed to reset body stream before retrying request", e))
  else (retryCount + 1, wrap "non-transport error occurred which will not be retried" result)
termination_by self.maxRetries - retryCount
decreasing_by simp_all [isExpired]; omega

/-- The first attempts were retried, each after a reset of the body. -/
def Retried (attempts : Nat) : Prop :=
  ∀ k < attempts, self.retries (calls.result k) = true ∧ calls.reset (k + 1) = .ok ()

/-- What a `send` returns after its last attempt: the result of it, or the error of the reset
that was to follow. -/
inductive Returns (last : Nat) : Wrapped (Nat × α) → Prop
  | result (message : String) : Returns last (wrap message (calls.result last))
  | reset {e : Error} (message : String) (retried : self.retries (calls.result last) = true)
    (failed : calls.reset (last + 1) = .error e) : Returns last (.error (message, e))

variable {self calls}

theorem send_from (retryCount : Nat) (le : retryCount ≤ self.maxRetries)
    (before : self.Retried calls retryCount) :
    ∃ last ≤ self.maxRetries, (self.send calls retryCount).1 = last + 1 ∧ self.Retried calls last ∧
      self.Returns calls last (self.send calls retryCount).2 := by
  fun_induction send self calls retryCount with
  | case1 count _ retries expired => exact ⟨count, le, rfl, before, .result _⟩
  | case2 count _ retries expired again ih =>
    refine ih ?_ fun k lt => ?_
    · simp only [isExpired, Bool.or_eq_true, decide_eq_true_eq, not_or] at expired
      omega
    · rcases Nat.lt_succ_iff_lt_or_eq.mp lt with earlier | rfl
      · exact before k earlier
      · exact ⟨retries, again⟩
  | case3 count _ again expired e failed => exact ⟨count, le, rfl, before, .reset _ again failed⟩
  | case4 count _ final => exact ⟨count, le, rfl, before, .result _⟩

/-- **The retry loop is bounded and faithful**: it makes at most one attempt more than it has
retries, retries after a retryable result and a reset of the body, and returns the last result. -/
theorem retry_loop_faithful (self : RetryPolicy) (calls : Calls α) :
    ∃ last ≤ self.maxRetries, (self.send calls 0).1 = last + 1 ∧ self.Retried calls last ∧
      self.Returns calls last (self.send calls 0).2 :=
  send_from 0 (Nat.zero_le _) fun k lt => absurd lt (Nat.not_lt_zero k)

end RetryPolicy

end AzureSdk.Core.Retry
