/-
# Theory.Polled — what a polled stream emits

A stream is a state and a poll of it: a poll yields something or is pending, and leaves the
stream in another state.  `Emits` says what has come out of it after some number of polls, however
many of them were pending.  A pending poll changes nothing of that (`emits_pending`), and one that
yields is the head of it (`emits_cons`).  `Taken` also says in which state the stream is left when
it is polled no further than to the last of what is taken.
-/
import Mathlib.Logic.Basic

namespace AzureSdk.Theory.Polled

variable {σ ε : Type} (poll : σ → Option ε × σ)

/-- What `n` polls yield. -/
def yields : Nat → σ → List ε
  | 0, _ => []
  | n + 1, s => (poll s).1.toList ++ yields n (poll s).2

/-- After some number of polls, `outs` has been yielded. -/
def Emits (s : σ) (outs : List ε) : Prop := ∃ n, yields poll n s = outs

variable {poll} {s s' : σ} {o o' : ε} {outs : List ε}

theorem Emits.nil (s : σ) : Emits poll s [] := ⟨0, rfl⟩

theorem emits_pending (h : poll s = (none, s')) : Emits poll s outs ↔ Emits poll s' outs := by
  constructor
  · rintro ⟨_ | n, rfl⟩
    · exact .nil s'
    · exact ⟨n, by simp [yields, h]⟩
  · rintro ⟨n, rfl⟩
    exact ⟨n + 1, by simp [yields, h]⟩

theorem emits_cons (h : poll s = (some o, s')) :
    Emits poll s (o' :: outs) ↔ o' = o ∧ Emits poll s' outs := by
  constructor
  · rintro ⟨_ | n, same⟩
    · cases same
    · simp only [yields, h, Option.toList_some, List.singleton_append, List.cons.injEq] at same
      exact ⟨same.1.symm, n, same.2⟩
  · rintro ⟨rfl, n, rfl⟩
    exact ⟨n + 1, by simp [yields, h]⟩

theorem emits_congr (h : poll s = poll s') : Emits poll s outs ↔ Emits poll s' outs := by
  have same (n : Nat) : yields poll n s = yields poll n s' := by
    cases n with
    | zero => rfl
    | succ n => simp only [yields, h]
  exact exists_congr fun n => by rw [same n]

/-- What holds of every outcome of the states an invariant admits holds of all that is emitted. -/
theorem Emits.forall_mem {P : σ → Prop} {Q : ε → Prop}
    (each : ∀ {s}, P s → (∀ o ∈ (poll s).1, Q o) ∧ P (poll s).2)
    (emits : Emits poll s outs) (start : P s) : ∀ o ∈ outs, Q o := by
  obtain ⟨n, rfl⟩ := emits
  induction n generalizing s with
  | zero => simp [yields]
  | succ n ih =>
    intro o mem
    obtain ⟨first, next⟩ := each start
    rcases List.mem_append.mp mem with now | later
    · exact first o (Option.mem_toList.mp now)
    · exact ih next o later

theorem yields_le (s : σ) {n m : Nat} (le : n ≤ m) : yields poll n s <+: yields poll m s := by
  induction n generalizing s m with
  | zero => exact List.nil_prefix
  | succ n ih =>
    obtain ⟨m, rfl⟩ : ∃ m', m = m' + 1 := ⟨m - 1, by omega⟩
    exact (List.prefix_append_right_inj _).mpr (ih _ (by omega))

/-- Of two that are emitted, one is the beginning of the other. -/
theorem Emits.prefix_or {xs ys : List ε} (left : Emits poll s xs) (right : Emits poll s ys) :
    xs <+: ys ∨ ys <+: xs := by
  obtain ⟨n, rfl⟩ := left
  obtain ⟨m, rfl⟩ := right
  rcases Nat.le_total n m with le | le
  · exact .inl (yields_le s le)
  · exact .inr (yields_le s le)

/-! ## Taking -/

/-- `outs` are taken, each by polling until it is ready. -/
inductive Taken (poll : σ → Option ε × σ) : σ → List ε → σ → Prop
  | nil (s : σ) : Taken poll s [] s
  | pending {s s' s'' : σ} {o : ε} {outs : List ε} (h : poll s = (none, s'))
    (rest : Taken poll s' (o :: outs) s'') : Taken poll s (o :: outs) s''
  | ready {s s' s'' : σ} {o : ε} {outs : List ε} (h : poll s = (some o, s'))
    (rest : Taken poll s' outs s'') : Taken poll s (o :: outs) s''

/-- A property of the state and of what was taken that every poll preserves, and one that every
poll establishes that yields. -/
theorem Taken.history {P Q : σ → List ε → Prop}
    (waits : ∀ {s s' past}, P s past → poll s = (none, s') → P s' past)
    (takes : ∀ {s s' o past}, P s past → poll s = (some o, s') →
      P s' (past ++ [o]) ∧ Q s' (past ++ [o]))
    (taken : Taken poll s outs s') {past : List ε} (start : P s past) :
    outs = [] ∧ s' = s ∨ Q s' (past ++ outs) := by
  induction taken generalizing past with
  | nil => exact .inl ⟨rfl, rfl⟩
  | pending h _ ih =>
    rcases ih (waits start h) with ⟨none, -⟩ | last
    · cases none
    · exact .inr last
  | @ready s s' s'' o outs h _ ih =>
    obtain ⟨next, now⟩ := takes start h
    rcases ih next with ⟨rfl, rfl⟩ | last
    · exact .inr now
    · exact .inr (by simpa using last)

/-- Where a poll that is pending costs something, any number can be taken. -/
theorem exists_taken {measure : σ → Nat}
    (decreases : ∀ {s s'}, poll s = (none, s') → measure s' < measure s) (count : Nat) (s : σ) :
    ∃ outs s', Taken poll s outs s' ∧ outs.length = count := by
  induction count generalizing s with
  | zero => exact ⟨[], s, .nil s, rfl⟩
  | succ count ih =>
    induction size : measure s using Nat.strongRecOn generalizing s with
    | _ size wait =>
      cases polled : poll s with
      | mk o t =>
        cases o with
        | none =>
          obtain ⟨outs, s', taken, length⟩ := wait _ (size ▸ decreases polled) t rfl
          cases outs with
          | nil => cases length
          | cons o outs => exact ⟨o :: outs, s', .pending polled taken, length⟩
        | some o =>
          obtain ⟨outs, s', taken, length⟩ := ih t
          exact ⟨o :: outs, s', .ready polled taken, by simp [length]⟩

end AzureSdk.Theory.Polled
