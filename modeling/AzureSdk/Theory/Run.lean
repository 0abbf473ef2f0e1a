/-
# Theory.Run — runs of a labelled step relation

A run is a sequence of steps, each with a label that says what happened.  An
invariant is proved once per step and holds after every run (`Run.invariant`); a
property of the state *and* of what has happened so far is proved once per step
and holds with the labels of the whole run (`Run.history`).

`feed` drives a partial step function with a sequence of inputs.  Where every step
decreases a measure, it stops within the measure of its start (`feed_stops`).
-/
import Mathlib.Logic.Basic
import Mathlib.Tactic.ByContra
import Mathlib.Tactic.Push

namespace AzureSdk.Theory

open Option

variable {σ ε : Type}

/-- `Run step s es s'`: the steps labelled `es` lead from `s` to `s'`. -/
inductive Run (step : σ → ε → σ → Prop) : σ → List ε → σ → Prop
  | nil (s : σ) : Run step s [] s
  | cons {s s' s'' : σ} {e : ε} {es : List ε} (first : step s e s') (rest : Run step s' es s'') :
    Run step s (e :: es) s''

namespace Run

variable {step : σ → ε → σ → Prop} {s s' s'' : σ} {e : ε} {es fs : List ε}

theorem single (h : step s e s') : Run step s [e] s' := .cons h (.nil s')

theorem append (left : Run step s es s') (right : Run step s' fs s'') :
    Run step s (es ++ fs) s'' := by
  induction left with
  | nil => exact right
  | cons first _ ih => exact .cons first (ih right)

variable {P : σ → Prop}

/-- What every step preserves holds at the end of a run. -/
theorem invariant (preserved : ∀ {s e s'}, P s → step s e s' → P s')
    (run : Run step s es s') (start : P s) : P s' := by
  induction run with
  | nil => exact start
  | cons first _ ih => exact ih (preserved start first)

theorem forall_label {Q : ε → Prop} (each : ∀ {s e s'}, step s e s' → Q e)
    (run : Run step s es s') : ∀ e ∈ es, Q e := by
  induction run with
  | nil => simp
  | cons first _ ih =>
    intro e he
    rcases List.mem_cons.mp he with rfl | he
    · exact each first
    · exact ih e he

/-- A property of state and past labels that every step preserves holds at the end of
a run, with the labels of the run added to the past. -/
theorem history {P : σ → List ε → Prop}
    (preserved : ∀ {s past e s'}, P s past → step s e s' → P s' (past ++ [e]))
    (run : Run step s es s') {past : List ε} (start : P s past) : P s' (past ++ es) := by
  induction run generalizing past with
  | nil => simpa using start
  | @cons s s' s'' e es first _ ih =>
    have := ih (preserved start first)
    simpa using this

/-- Where every step costs one of the measure, a run is no longer than the measure of its start. -/
theorem length_le {measure : σ → Nat} (preserved : ∀ {s e s'}, P s → step s e s' → P s')
    (decreases : ∀ {s e s'}, P s → step s e s' → measure s' < measure s)
    (run : Run step s es s') (start : P s) : es.length ≤ measure s := by
  induction run with
  | nil => exact Nat.zero_le _
  | cons first _ ih =>
    have rest := ih (preserved start first)
    have one := decreases start first
    rw [List.length_cons]
    omega

/-- A fold that does not fail is a run. -/
theorem of_foldlM {next : σ → ε → Option σ} : ∀ {es : List ε} {s s' : σ},
    es.foldlM next s = some s' → Run (fun s e s' => next s e = some s') s es s'
  | [], s, s', h => by
    cases h
    exact .nil s
  | e :: es, s, s', h => by
    obtain ⟨t, first, rest⟩ := bind_eq_some_iff.mp h
    exact .cons first (of_foldlM rest)

end Run

/-! ## Fed with inputs until it stops -/

section Feed

variable {ι : Type} {step : ι → σ → Option σ} {inputs : Nat → ι} {s t : σ}

/-- The state after `n` steps, `none` once a step has stopped. -/
def feed (step : ι → σ → Option σ) (inputs : Nat → ι) (s : σ) : Nat → Option σ
  | 0 => some s
  | n + 1 => (feed step inputs s n).bind (step (inputs n))

variable {P : σ → Prop} {measure : σ → Nat}

theorem feed_invariant (preserved : ∀ {i s s'}, P s → step i s = some s' → P s')
    (start : P s) : ∀ {n t}, feed step inputs s n = some t → P t
  | 0, t, h => by
    cases h
    exact start
  | n + 1, t, h => by
    obtain ⟨u, before, last⟩ := bind_eq_some_iff.mp h
    exact preserved (feed_invariant preserved start before) last

theorem feed_measure (preserved : ∀ {i s s'}, P s → step i s = some s' → P s')
    (decreases : ∀ {i s s'}, P s → step i s = some s' → measure s' < measure s) (start : P s) :
    ∀ {n t}, feed step inputs s n = some t → n + measure t ≤ measure s
  | 0, t, h => by
    cases h
    exact Nat.le_of_eq (Nat.zero_add _)
  | n + 1, t, h => by
    obtain ⟨u, before, last⟩ := bind_eq_some_iff.mp h
    have spent := feed_measure preserved decreases start before
    have one := decreases (feed_invariant preserved start before) last
    omega

theorem feed_stops (preserved : ∀ {i s s'}, P s → step i s = some s' → P s')
    (decreases : ∀ {i s s'}, P s → step i s = some s' → measure s' < measure s) (start : P s) :
    ∃ n ≤ measure s, ∃ t, feed step inputs s n = some t ∧ step (inputs n) t = none := by
  by_contra never
  push Not at never
  -- otherwise every step up to the measure is followed by another one
  have goesOn : ∀ n, n ≤ measure s + 1 → ∃ t, feed step inputs s n = some t := by
    intro n
    induction n with
    | zero => exact fun _ => ⟨s, rfl⟩
    | succ n ih =>
      intro le
      obtain ⟨t, before⟩ := ih (by omega)
      obtain ⟨u, next⟩ := ne_none_iff_exists'.mp (never n (by omega) t before)
      exact ⟨u, bind_eq_some_iff.mpr ⟨t, before, next⟩⟩
  obtain ⟨t, last⟩ := goesOn (measure s + 1) (Nat.le_refl _)
  have spent := feed_measure preserved decreases start last
  omega

end Feed

end AzureSdk.Theory
