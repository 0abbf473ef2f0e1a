/-
# Cosmos.Cache.Progress — who completes

Every move takes a call nearer to its end, so under a fair schedule the only obstacle is
a state in which every call waits.  A call that waits for a lock waits for its holder,
who does not wait.  A call in `AsyncLazy::get` waits for the cell to be filled, and
nobody fills it unless a call is in `get_or_init` on it.

Such a call exists as long as the last one is not dropped while the cell is empty; then
every call that is not dropped completes (`callers_complete`).  When it is dropped, the
calls in `AsyncLazy::get` go round forever (`orphaned_call_waits_forever`).
-/
import Mathlib.Algebra.BigOperators.Group.Finset.Basic
import Mathlib.Algebra.Order.BigOperators.Group.Finset
import Mathlib.Data.Fintype.Basic
import Mathlib.Tactic.ByContra
import Mathlib.Tactic.IntervalCases
import AzureSdk.Theory.Fair
import AzureSdk.Cosmos.Cache.Invariant

namespace AzureSdk.Cosmos.Cache

open Theory AsyncCache List

variable {ι V : Type}

namespace Phase

/-- How far the call is from its end. -/
def weight (polls : Nat) : Phase V → Nat
  | .new => 8 + polls
  | .mapRead => 7 + polls
  | .insertWrite factory | .refreshWrite _ factory => 6 + factory.polls
  | .initRead _ factory => 5 + factory.polls
  | .initWrite _ factory => 4 + factory.polls
  | .initCheck _ factory => 3 + factory.polls
  | .running _ _ polls => 2 + polls
  | .getting _ => 1
  | .finished _ | .dropped => 0

theorem weight_pos {polls : Nat} {p : Phase V} (live : ¬ p.Ended) : 0 < p.weight polls := by
  cases p with
  | finished | dropped => exact absurd trivial live
  | new | mapRead | insertWrite | refreshWrite | initRead | initWrite | initCheck | running
  | getting =>
    simp only [weight]
    omega

/-- The cell the call is in `get_or_init` on. -/
def initialises : Phase V → Option Nat
  | .initRead x _ | .initWrite x _ | .initCheck x _ | .running x _ _ => some x
  | _ => none

end Phase

section Measure

variable {request : Request V} {s s' : AsyncCache ι V} {c d : ι}

theorem walks_weight {p q : Phase V} (walks : Walks request s p q) :
    q.weight request.polls < p.weight request.polls := by
  cases walks with
  | missing given | refresh given | find given =>
    simp only [Phase.weight, given]
    omega
  | start | findInserted | wait | waitRefreshed | answer | answerNone | seeFilled | seeEmpty | run
  | pend | obtain =>
    simp only [Phase.weight]
    omega

variable [DecidableEq ι]

theorem moves_weight (h : Moves request s c s') :
    (s'.phase c).weight request.polls < (s.phase c).weight request.polls ∧
      ∀ d, d ≠ c → s'.phase d = s.phase d := by
  cases h with
  | walk walks =>
    refine ⟨?_, fun d other => by simp [other]⟩
    simpa using walks_weight walks
  | insert phase | replace phase | lock phase | unlock phase | fill phase =>
    refine ⟨?_, fun d other => by simp [other]⟩
    simp [phase, Phase.weight]

theorem moves_not_dropped (h : Moves request s c s') : s'.phase c ≠ .dropped := by
  cases h with
  | walk walks =>
    rw [phase_goTo, if_pos rfl]
    generalize s.phase c = p at walks
    cases walks <;> nofun
  | insert | replace | lock | unlock | fill => simp

variable [Fintype ι]

/-- What all calls together have still to do. -/
def remaining (requests : ι → Request V) (s : AsyncCache ι V) : Nat :=
  ∑ c, (s.phase c).weight (requests c).polls

theorem remaining_lt {requests : ι → Request V}
    (less : (s'.phase c).weight (requests c).polls < (s.phase c).weight (requests c).polls)
    (same : ∀ d, d ≠ c → s'.phase d = s.phase d) : remaining requests s' < remaining requests s := by
  refine Finset.sum_lt_sum (fun d _ => ?_) ⟨c, Finset.mem_univ c, less⟩
  by_cases self : d = c
  · rw [self]
    exact Nat.le_of_lt less
  · rw [same d self]

end Measure

/-! ## Cells that somebody will fill -/

/-- Every empty cell has a call in `get_or_init` on it. -/
def Tended (s : AsyncCache ι V) : Prop :=
  ∀ x, x < s.allocated → (s.cells x).value = none → ∃ c, (s.phase c).initialises = some x

/-- The call is the last one in `get_or_init` on an empty cell. -/
def LastOne (s : AsyncCache ι V) (c : ι) : Prop :=
  ∃ x, (s.phase c).initialises = some x ∧ (s.cells x).value = none ∧
    ∀ d, (s.phase d).initialises = some x → d = c

section Tending

variable {request : Request V} {s s' : AsyncCache ι V} {c : ι}

variable {p : Phase V} {x : Nat} {requests : ι → Request V}

theorem walks_initialises {q : Phase V} (walks : Walks request s p q)
    (tends : p.initialises = some x) (empty : (s.cells x).value = none) :
    q.initialises = some x := by
  cases walks with
  | seeFilled value =>
    cases tends
    rw [value] at empty
    cases empty
  | seeEmpty | run | pend => exact tends
  | start | missing | refresh | find | findInserted | wait | waitRefreshed | answer | answerNone
  | obtain => cases tends

/-- The cells are still tended where no other call has moved and this one has not left an empty
cell. -/
theorem tended_of_stays (tended : Tended s) (same : ∀ d, d ≠ c → s'.phase d = s.phase d)
    (allocated : ∀ x, x < s'.allocated → (s'.cells x).value = none →
      (x < s.allocated ∧ (s.cells x).value = none) ∨ (s'.phase c).initialises = some x)
    (stays : ∀ x, (s'.cells x).value = none → (s.phase c).initialises = some x →
      ∃ d, (s'.phase d).initialises = some x) : Tended s' := by
  intro x there empty
  rcases allocated x there empty with ⟨there, before⟩ | new
  · obtain ⟨d, tends⟩ := tended x there before
    by_cases self : d = c
    · exact stays x empty (self ▸ tends)
    · exact ⟨d, by rw [same d self]; exact tends⟩
  · exact ⟨c, new⟩

variable [DecidableEq ι]

theorem moves_tended (tended : Tended s) (h : Moves request s c s') : Tended s' := by
  have same := (moves_weight h).2
  cases h with
  | walk walks =>
    refine tended_of_stays tended same (fun x there empty => .inl ⟨there, empty⟩) ?_
    intro x empty tends
    exact ⟨c, by simpa using walks_initialises walks tends empty⟩
  | insert phase | replace phase =>
    refine tended_of_stays tended same (fun x there empty => ?_) (by rw [phase]; nofun)
    by_cases new : x = s.allocated
    · exact .inr (by simp [new, Phase.initialises])
    · exact .inl ⟨Nat.lt_of_le_of_ne (Nat.le_of_lt_succ there) new, empty⟩
  | lock phase free =>
    refine tended_of_stays tended same (fun x there empty => .inl ⟨there, by simpa using empty⟩) ?_
    intro x empty tends
    rw [phase] at tends
    exact ⟨c, by simpa [Phase.initialises] using tends⟩
  | unlock phase value =>
    refine tended_of_stays tended same (fun x there empty => .inl ⟨there, by simpa using empty⟩) ?_
    intro x empty tends
    rw [phase] at tends
    cases tends
    simp [value] at empty
  | @fill y output phase =>
    refine tended_of_stays tended same (fun x there empty => ?_) (fun x empty tends => ?_)
    · by_cases here : x = y
      · simp [here] at empty
      · exact .inl ⟨there, by simpa [here] using empty⟩
    · rw [phase] at tends
      cases tends
      simp at empty

omit [DecidableEq ι] in
theorem dropped_tended (tended : Tended s) (notLast : ¬ LastOne s c) (dropped : Dropped s c s') :
    Tended s' := by
  refine tended_of_stays tended dropped.others ?_ ?_
  · intro x there empty
    exact .inl ⟨dropped.allocated ▸ there, dropped.value x ▸ empty⟩
  · intro x empty tends
    by_contra alone
    refine notLast ⟨x, tends, dropped.value x ▸ empty, fun d other => ?_⟩
    by_contra self
    exact alone ⟨d, by rw [dropped.others d self]; exact other⟩

/-- Somebody who has not ended moves. -/
def SomebodyMoves (requests : ι → Request V) (s : AsyncCache ι V) : Prop :=
  ∃ d, ¬ (s.phase d).Ended ∧ Moves (requests d) s d (s.poll requests d)

theorem moves_of_not_waits (live : ¬ (s.phase c).Ended)
    (free : ¬ Waits s (s.phase c)) : SomebodyMoves requests s := by
  rcases poll_moves (s := s) (c := c) requests with ⟨_, ended | waits⟩ | moves
  · exact absurd ended live
  · exact absurd waits free
  · exact ⟨c, live, moves⟩

omit [DecidableEq ι] in
theorem not_ended_of_initialises (tends : p.initialises = some x) : ¬ p.Ended := by
  cases p with
  | initRead | initWrite | initCheck | running => exact id
  | new | mapRead | insertWrite | refreshWrite | getting | finished | dropped => cases tends

omit [DecidableEq ι] in
theorem initialises_of_holds (holds : p.holds = some x) : p.initialises = some x := by
  cases p with
  | initCheck | running => exact holds
  | new | mapRead | insertWrite | refreshWrite | initRead | initWrite | getting | finished
  | dropped => cases holds

/-- The holder of a lock does not wait. -/
theorem moves_of_locked (wf : WellFormed s) {d : ι}
    (held : (s.cells x).writer = some d) : SomebodyMoves requests s := by
  have holds := (wf.holder x d).mp held
  refine moves_of_not_waits (not_ended_of_initialises (initialises_of_holds holds)) ?_
  generalize s.phase d = p at holds
  intro waits
  cases waits <;> cases holds

/-- Nor does a call that means to fill a cell whose lock is free. -/
theorem moves_of_tended (wf : WellFormed s) {d : ι}
    (tends : (s.phase d).initialises = some x) : SomebodyMoves requests s := by
  by_cases waits : Waits s (s.phase d)
  · have locked : ∃ e, (s.cells x).writer = some e := by
      generalize s.phase d = p at tends waits
      cases waits with
      | readLock held | writeLock held =>
        cases tends
        exact ⟨_, held⟩
      | getLock | value => cases tends
    obtain ⟨e, held⟩ := locked
    exact moves_of_locked wf held
  · exact moves_of_not_waits (not_ended_of_initialises tends) waits

theorem somebody_moves (wf : WellFormed s) (tended : Tended s) (requests : ι → Request V)
    (live : ¬ (s.phase c).Ended) : SomebodyMoves requests s := by
  by_cases waits : Waits s (s.phase c)
  · have there := (wf.fits c).cell
    generalize s.phase c = p at waits there
    cases waits with
    | readLock held | writeLock held | getLock held => exact moves_of_locked wf held
    | value empty =>
      obtain ⟨d, tends⟩ := tended _ (there _ rfl) empty
      exact moves_of_tended wf tends
  · exact moves_of_not_waits live waits

end Tending

/-! ## Acts -/

section Acts

variable [DecidableEq ι] {requests : ι → Request V} {s s' : AsyncCache ι V} {a : Act ι}

theorem acted_tended (acted : Acted requests s a s') (tended : Tended s)
    (kept : ∀ c, a = .drop c → ¬ LastOne s c) : Tended s' := by
  cases acted with
  | waits => exact tended
  | moves moves => exact moves_tended tended moves
  | drops dropped => exact dropped_tended tended (kept _ rfl) dropped

theorem acted_not_dropped {c : ι} (acted : Acted requests s a s') (kept : a ≠ .drop c)
    (there : s.phase c ≠ .dropped) : s'.phase c ≠ .dropped := by
  cases acted with
  | waits => exact there
  | @moves d _ moves =>
    by_cases self : c = d
    · rw [self]
      exact moves_not_dropped moves
    · rw [(moves_weight moves).2 c self]
      exact there
  | @drops d _ dropped =>
    rw [dropped.others c fun same => kept (by rw [same])]
    exact there

theorem acted_decreases [Fintype ι] (acted : Acted requests s a s') :
    s' = s ∨ remaining requests s' < remaining requests s := by
  cases acted with
  | waits => exact .inl rfl
  | moves moves =>
    obtain ⟨less, others⟩ := moves_weight moves
    exact .inr (remaining_lt less others)
  | @drops c _ dropped =>
    refine .inr (remaining_lt (c := c) ?_ dropped.others)
    rw [dropped.gone]
    exact Phase.weight_pos dropped.live

end Acts

/-! ## Results -/

section Runs

variable [DecidableEq ι]

def states (requests : ι → Request V) (schedule : Nat → Act ι) (n : Nat) : AsyncCache ι V :=
  trace (act requests) schedule .initial n

/-- A call that has not ended is to be polled. -/
def ToPoll : Act ι → AsyncCache ι V → Prop
  | .poll c, s => ¬ (s.phase c).Ended
  | .drop _, _ => False

variable (requests : ι → Request V) (schedule : Nat → Act ι)

theorem states_acted (n : Nat) :
    Acted requests (states requests schedule n) (schedule n) (states requests schedule (n + 1)) :=
  act_acted requests _ (schedule n)

theorem states_wellFormed : ∀ n : Nat, WellFormed (states requests schedule n)
  | 0 => .initial
  | n + 1 => (states_wellFormed n).act requests (schedule n)

theorem states_tended
    (kept : ∀ n c, schedule n = .drop c → ¬ LastOne (states requests schedule n) c) :
    ∀ n : Nat, Tended (states requests schedule n)
  | 0 => fun x there => absurd there (Nat.not_lt_zero x)
  | n + 1 => acted_tended (states_acted requests schedule n) (states_tended kept n) (kept n)

theorem states_not_dropped {c : ι} (kept : ∀ n, schedule n ≠ .drop c) :
    ∀ n : Nat, (states requests schedule n).phase c ≠ .dropped
  | 0 => fun h => by cases h
  | n + 1 => acted_not_dropped (states_acted requests schedule n) (kept n)
    (states_not_dropped kept n)

variable [Fintype ι]

/-- **Who completes.**  No two factories run at a time.  Under a fair schedule, if no call is
dropped while it is the last one in `get_or_init` on an empty cell, every call that is not dropped
returns. -/
theorem callers_complete :
    (∀ n c d x y, ((states requests schedule n).phase c).runs = some x →
      ((states requests schedule n).phase d).runs = some y → c = d) ∧
    (Fair (act requests) ToPoll schedule .initial →
      (∀ n c, schedule n = .drop c → ¬ LastOne (states requests schedule n) c) →
      ∀ c, (∀ n, schedule n ≠ .drop c) →
        ∃ n result, (states requests schedule n).phase c = .finished result) := by
  refine ⟨fun n c d x y hc hd => (states_wellFormed requests schedule n).one_factory hc hd,
    fun fair kept c notDropped => ?_⟩
  have goesOn : ∀ n, ¬ (∀ c, ((states requests schedule n).phase c).Ended) →
      ∃ a, ToPoll a (states requests schedule n) ∧
        remaining requests (act requests a (states requests schedule n)) <
          remaining requests (states requests schedule n) := by
    intro n live
    obtain ⟨c, live⟩ := not_forall.mp live
    obtain ⟨d, live, moves⟩ := somebody_moves (states_wellFormed requests schedule n)
      (states_tended requests schedule kept n) requests live
    obtain ⟨less, others⟩ := moves_weight moves
    exact ⟨.poll d, live, remaining_lt less others⟩
  obtain ⟨n, ended⟩ := Fair.reaches (fun s => ∀ c, (s.phase c).Ended) fair
    (fun n => acted_decreases (states_acted requests schedule n)) goesOn
  have ended : ((states requests schedule n).phase c).Ended := ended c
  have there := states_not_dropped requests schedule notDropped n
  cases phase : (states requests schedule n).phase c with
  | finished result => exact ⟨n, result, phase⟩
  | dropped => exact absurd phase there
  | new | mapRead | insertWrite | refreshWrite | initRead | initWrite | initCheck | running
  | getting =>
    rw [phase] at ended
    exact ended.elim

end Runs

section TwoCalls

/-- A call that inserts and one that refreshes; the factory of the first is pending once. -/
def twoCalls : Fin 2 → Request Nat
  | 0 => .getOrInsertWith ⟨1, 7⟩
  | 1 => .getOrRefreshWith (fun _ => false) ⟨0, 8⟩

/-- The first call has installed a cell and runs its factory; the second finds the cell empty
and waits; the first is dropped. -/
def dropsFirst : List (Act (Fin 2)) :=
  [.poll 0, .poll 0, .poll 0, .poll 0, .poll 0, .poll 0, .poll 1, .poll 1, .drop 0]

/-- From then on the second call is polled. -/
def dropsFirstSchedule (n : Nat) : Act (Fin 2) := dropsFirst.getD n (.poll 1)

theorem dropsFirstSchedule_later {n : Nat} (late : 9 ≤ n) : dropsFirstSchedule n = .poll 1 := by
  rw [dropsFirstSchedule, getD_eq_getElem?_getD, getElem?_eq_none late]
  rfl

theorem dropsFirst_stuck {n : Nat} (late : 9 ≤ n) :
    states twoCalls dropsFirstSchedule n = states twoCalls dropsFirstSchedule 9 := by
  refine trace_constant rfl (fun m le => ?_) n late
  rw [dropsFirstSchedule_later le]
  rfl

/-- The second call goes round in `AsyncLazy::get` forever. -/
theorem orphaned_call_waits_forever :
    Fair (act twoCalls) ToPoll dropsFirstSchedule .initial ∧
      (∀ n, dropsFirstSchedule n ≠ .drop 1) ∧
      ∀ n result, (states twoCalls dropsFirstSchedule n).phase 1 ≠ .finished result := by
  refine ⟨fun n a obliged => ?_, fun n => ?_, fun n result => ?_⟩
  · have late : 9 ≤ n + 9 := Nat.le_add_left 9 n
    refine ⟨n + 9, Nat.le_add_right n 9, ?_⟩
    match a with
    | .poll 0 =>
      refine .inr fun still => ?_
      have still : ToPoll (.poll 0) (states twoCalls dropsFirstSchedule (n + 9)) := still
      rw [dropsFirst_stuck late] at still
      exact still trivial
    | .poll 1 => exact .inl (dropsFirstSchedule_later late)
    | .drop c => exact obliged.elim
  · rcases Nat.lt_or_ge n 9 with early | late
    · interval_cases n <;> decide
    · rw [dropsFirstSchedule_later late]
      decide
  · rcases Nat.lt_or_ge n 9 with early | late
    · interval_cases n <;> nofun
    · rw [dropsFirst_stuck late]
      nofun

/-- The two calls in turn, none of them dropped. -/
def inTurn (n : Nat) : Act (Fin 2) := .poll ⟨n % 2, Nat.mod_lt n (by decide)⟩

theorem inTurn_complete : ∃ n result, (states twoCalls inTurn n).phase 1 = .finished result := by
  have fair : Fair (act twoCalls) ToPoll inTurn .initial := by
    intro n a obliged
    match a with
    | .poll c =>
      refine ⟨2 * n + c, by omega, .inl ?_⟩
      have turn : (2 * n + c.val) % 2 = c.val := by omega
      exact congrArg Act.poll (Fin.ext turn)
    | .drop c => exact obliged.elim
  exact (callers_complete twoCalls inTurn).2 fair (fun n c h => by cases h) 1 (fun n h => by cases h)

end TwoCalls

end AzureSdk.Cosmos.Cache
