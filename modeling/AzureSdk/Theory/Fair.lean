/-
# Theory.Fair — schedules that leave nobody out

A schedule says who acts at each time; an act that cannot do anything leaves the state
as it is.  Under a fair schedule whoever still has something to do acts again.  Where
every act leaves the state alone or decreases a measure, and in every state short of the
goal somebody who has something to do can decrease it, the goal is reached
(`Fair.reaches`).
-/
import Mathlib.Logic.Basic

namespace AzureSdk.Theory

variable {σ α : Type} {step : α → σ → σ} {schedule : Nat → α} {s : σ}

def trace (step : α → σ → σ) (schedule : Nat → α) (s : σ) : Nat → σ
  | 0 => s
  | n + 1 => step (schedule n) (trace step schedule s n)

theorem trace_constant {t : σ} {n : Nat} (reached : trace step schedule s n = t)
    (stuck : ∀ m, n ≤ m → step (schedule m) t = t) : ∀ m, n ≤ m → trace step schedule s m = t := by
  intro m le
  induction le with
  | refl => exact reached
  | @step m le here =>
    show step (schedule m) (trace step schedule s m) = t
    rw [here, stuck m le]

/-- Whoever has something to do acts again, or no longer has to. -/
def Fair (step : α → σ → σ) (obliged : α → σ → Prop) (schedule : Nat → α) (s : σ) : Prop :=
  ∀ n a, obliged a (trace step schedule s n) →
    ∃ m, n ≤ m ∧ (schedule m = a ∨ ¬ obliged a (trace step schedule s m))

section Progress

variable {obliged : α → σ → Prop} {measure : σ → Nat}

/-- The state stays as it is up to a time, or the measure has decreased before. -/
theorem stays_or_decreases {t : Nat → σ}
    (moves : ∀ n, t (n + 1) = t n ∨ measure (t (n + 1)) < measure (t n)) (n : Nat) :
    ∀ d, t (n + d) = t n ∨ ∃ m, measure (t m) < measure (t n)
  | 0 => .inl rfl
  | d + 1 => by
    rcases stays_or_decreases moves n d with same | earlier
    · rcases moves (n + d) with stays | less
      · exact .inl (stays.trans same)
      · exact .inr ⟨n + d + 1, same ▸ less⟩
    · exact .inr earlier

theorem Fair.reaches (Goal : σ → Prop) (fair : Fair step obliged schedule s)
    (moves : ∀ n, trace step schedule s (n + 1) = trace step schedule s n ∨
      measure (trace step schedule s (n + 1)) < measure (trace step schedule s n))
    (helps : ∀ n, ¬ Goal (trace step schedule s n) → ∃ a, obliged a (trace step schedule s n) ∧
      measure (step a (trace step schedule s n)) < measure (trace step schedule s n)) :
    ∃ n, Goal (trace step schedule s n) := by
  -- by induction on the measure of the state at time `n`
  suffices ∀ k n, measure (trace step schedule s n) = k → ∃ n, Goal (trace step schedule s n) from
    this _ 0 rfl
  intro k
  induction k using Nat.strongRecOn with
  | ind k ih =>
    intro n hk
    by_cases goal : Goal (trace step schedule s n)
    · exact ⟨n, goal⟩
    obtain ⟨a, has, less⟩ := helps n goal
    obtain ⟨m, le, acts⟩ := fair n a has
    obtain ⟨d, rfl⟩ := Nat.exists_eq_add_of_le le
    rcases stays_or_decreases moves n d with same | ⟨m, less⟩
    · rcases acts with acts | released
      · have next : trace step schedule s (n + d + 1) = step a (trace step schedule s n) := by
          show step (schedule (n + d)) (trace step schedule s (n + d)) = _
          rw [acts, same]
        exact ih _ (hk ▸ next ▸ less) (n + d + 1) rfl
      · rw [same] at released
        exact absurd has released
    · exact ih _ (hk ▸ less) m rfl

end Progress

end AzureSdk.Theory
