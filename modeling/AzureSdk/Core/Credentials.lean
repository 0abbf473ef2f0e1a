/-
# Core.Credentials — access tokens and the cache of a credential

A credential fetches access tokens and keeps the last one for the scopes it was asked for.  It
returns that one while it has more than five minutes to go, and a fresh one afterwards, which
expires later (`getToken_later`).
-/
import Mathlib.Logic.Basic

namespace AzureSdk.Core

/-! Moments and durations are numbers of nanoseconds. -/

/-- `Duration::milliseconds`. -/
def milliseconds (n : Int) : Int := n * 1000000

/-- `Duration::seconds`. -/
def seconds (n : Int) : Int := n * 1000000000

def wholeMilliseconds (t : Int) : Int := t.tdiv 1000000

structure AccessToken where
  token : String
  expiresOn : Int
  deriving DecidableEq, Repr

def shouldRefresh (now : Int) (token : AccessToken) : Bool :=
  decide (token.expiresOn ≤ now + seconds 300)

/-- `TokenCache::get_token` for one list of scopes, with what the cache then has; `fresh` is what
the callback returns. -/
def getToken (now : Int) (cached : Option AccessToken) (fresh : AccessToken) : AccessToken :=
  match cached with
  | some token => if shouldRefresh now token then fresh else token
  | none => fresh

/-- A fresh token has not expired, and expires after the one before it. -/
structure Fresh (now : Int) (cached : Option AccessToken) (fresh : AccessToken) : Prop where
  unexpired : now < fresh.expiresOn
  later : ∀ token, cached = some token → token.expiresOn < fresh.expiresOn

section GetToken

variable {now : Int} {cached : Option AccessToken} {fresh : AccessToken}

theorem getToken_cases (now : Int) (cached : Option AccessToken) (fresh : AccessToken) :
    getToken now cached fresh = fresh ∨
      ∃ token, cached = some token ∧ now + seconds 300 < token.expiresOn ∧
        getToken now cached fresh = token := by
  cases cached with
  | none => exact .inl rfl
  | some token =>
    show (if _ then _ else _) = _ ∨ _
    by_cases refresh : shouldRefresh now token = true
    · exact .inl (if_pos refresh)
    · refine .inr ⟨token, rfl, ?_, if_neg refresh⟩
      rw [shouldRefresh, decide_eq_true_iff] at refresh
      omega

theorem getToken_ge (new : Fresh now cached fresh) {token : AccessToken} (h : cached = some token) :
    token.expiresOn ≤ (getToken now cached fresh).expiresOn := by
  rcases getToken_cases now cached fresh with same | ⟨kept, there, _, same⟩
  · rw [same]
    exact Int.le_of_lt (new.later token h)
  · exact Int.le_of_eq (by rw [same, Option.some.inj (h.symm.trans there)])

theorem getToken_unexpired (new : Fresh now cached fresh) :
    now < (getToken now cached fresh).expiresOn := by
  rcases getToken_cases now cached fresh with same | ⟨kept, _, long, same⟩
  · rw [same]
    exact new.unexpired
  · rw [same]
    simp only [seconds] at long
    omega

theorem getToken_later (new : Fresh now cached fresh) {token : AccessToken} (h : cached = some token)
    {previous : Int} (old : previous ≤ token.expiresOn) (short : previous ≤ now + seconds 300) :
    previous < (getToken now cached fresh).expiresOn := by
  rcases getToken_cases now cached fresh with same | ⟨kept, _, long, same⟩
  · rw [same]
    exact Int.lt_of_le_of_lt old (new.later token h)
  · rw [same]
    omega

end GetToken

end AzureSdk.Core
