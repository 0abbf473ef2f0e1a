/-
# Cosmos.Cache.Invariant — cells are filled in the order they are made

A new cell replaces the entry only where the old one has a value, so at any time all
cells but the newest have theirs: cell `x` holds the value of the `x`-th factory that
completed (`WellFormed.value`).  The write lock of a cell is held by the call that is
past taking it.  So only the newest cell can be empty, one call at most holds its lock,
and no two factories run at a time (`one_factory`).
-/
import AzureSdk.Cosmos.Cache.Moves

namespace AzureSdk.Cosmos.Cache

variable {ι V : Type}

namespace Phase

/-- The cell whose write lock the call holds. -/
def holds : Phase V → Option Nat
  | .initCheck x _ | .running x _ _ => some x
  | _ => none

/-- The cell the call will fill or wait for. -/
def cell : Phase V → Option Nat
  | .initRead x _ | .initWrite x _ | .initCheck x _ | .running x _ _ | .getting x => some x
  | _ => none

/-- The cell the call has seen filled and means to replace. -/
def seen : Phase V → Option Nat
  | .refreshWrite initialLazy _ => initialLazy
  | _ => none

/-- The cell the factory of the call is running for. -/
def runs : Phase V → Option Nat
  | .running x _ _ => some x
  | _ => none

/-- The cells the call knows are there: one it has seen filled is, one its factory is running
for is not. -/
structure Fits (allocated filled : Nat) (p : Phase V) : Prop where
  cell : ∀ x, p.cell = some x → x < allocated
  seen : ∀ x, p.seen = some x → x < filled
  runs : ∀ x, p.runs = some x → filled ≤ x

variable {allocated filled : Nat} {p : Phase V}

theorem fits_finished (allocated filled : Nat) (result : Option (Arc V)) :
    (Phase.finished result).Fits allocated filled := ⟨nofun, nofun, nofun⟩

theorem fits_dropped (allocated filled : Nat) :
    (Phase.dropped : Phase V).Fits allocated filled := ⟨nofun, nofun, nofun⟩

theorem fits_of_cell {x : Nat} (cell : p.cell = some x)
    (there : x < allocated) (seen : p.seen = none) (runs : p.runs = none) :
    p.Fits allocated filled where
  cell y h := by
    rw [cell] at h
    cases h
    exact there
  seen y h := by
    rw [seen] at h
    cases h
  runs y h := by
    rw [runs] at h
    cases h

end Phase

/-- The newest of the cells made so far. -/
def newest : Nat → Option Nat
  | 0 => none
  | n + 1 => some n

structure WellFormed (s : AsyncCache ι V) : Prop where
  entry : s.entry = newest s.allocated
  value : ∀ x, (s.cells x).value = (s.log[x]?).map (Arc.mk x)
  filled : s.log.length ≤ s.allocated
  empty : s.allocated ≤ s.log.length + 1
  holder : ∀ x c, (s.cells x).writer = some c ↔ (s.phase c).holds = some x
  fits : ∀ c, (s.phase c).Fits s.allocated s.log.length

namespace WellFormed

variable {s : AsyncCache ι V}

theorem initial : WellFormed (AsyncCache.initial : AsyncCache ι V) where
  entry := rfl
  value _ := rfl
  filled := Nat.le_refl 0
  empty := Nat.zero_le 1
  holder _ _ := ⟨nofun, nofun⟩
  fits _ := ⟨nofun, nofun, nofun⟩

variable {x : Nat} (wf : WellFormed s)

include wf

theorem allocated_eq (h : s.entry = some x) : s.allocated = x + 1 := by
  rw [wf.entry] at h
  cases n : s.allocated with
  | zero =>
    rw [n] at h
    cases h
  | succ n' =>
    rw [n] at h
    cases h
    rfl

theorem value_eq_some {arc : Arc V}
    (h : (s.cells x).value = some arc) : arc.stamp = x ∧ s.log[x]? = some arc.value := by
  rw [wf.value] at h
  obtain ⟨v, logged, rfl⟩ := Option.map_eq_some_iff.mp h
  exact ⟨rfl, logged⟩

theorem value_eq_none : (s.cells x).value = none ↔ s.log.length ≤ x := by
  rw [wf.value, Option.map_eq_none_iff, List.getElem?_eq_none_iff]

section Changes

variable [DecidableEq ι]

variable {c : ι} {p : Phase V} {factory : Factory V} {x : Nat}

theorem fits_goTo (fits : p.Fits s.allocated s.log.length) (d : ι) :
    ((s.goTo c p).phase d).Fits s.allocated s.log.length := by
  rw [AsyncCache.phase_goTo]
  split
  · exact fits
  · exact wf.fits d

theorem goTo (holds : p.holds = (s.phase c).holds)
    (fits : p.Fits s.allocated s.log.length) : WellFormed (s.goTo c p) := by
  refine { wf with holder := fun x d => ?_, fits := wf.fits_goTo fits }
  rw [AsyncCache.phase_goTo]
  split
  · rename_i same
    rw [holds, ← same]
    exact wf.holder x d
  · exact wf.holder x d

theorem install (full : s.allocated ≤ s.log.length) (holds : (s.phase c).holds = none) :
    WellFormed (s.install c factory) := by
  have grown : WellFormed { s with entry := some s.allocated, allocated := s.allocated + 1 } :=
    { wf with
      entry := rfl
      filled := Nat.le_succ_of_le wf.filled
      empty := Nat.succ_le_succ full
      fits := fun d => { wf.fits d with cell := fun x h => Nat.lt_succ_of_lt ((wf.fits d).cell x h) } }
  exact grown.goTo holds.symm (Phase.fits_of_cell rfl (Nat.lt_succ_self _) rfl rfl)

/-- Who holds which lock, after the call has taken or given back the one of the cell. -/
theorem relock {cell : Cell ι V} (old : (s.cells x).writer = none ∨ (s.cells x).writer = some c)
    (holds : ∀ y, (s.phase c).holds = some y → y = x)
    (new : (cell.writer = some c ∧ p.holds = some x) ∨ (cell.writer = none ∧ p.holds = none)) :
    ∀ y d, (((s.setCell x cell).goTo c p).cells y).writer = some d ↔
      (((s.setCell x cell).goTo c p).phase d).holds = some y := by
  intro y d
  have before := wf.holder y d
  simp only [AsyncCache.cells_goTo, AsyncCache.phase_goTo, AsyncCache.cells_setCell,
    AsyncCache.phase_setCell]
  grind

theorem lock (phase : s.phase c = .initWrite x factory) (free : (s.cells x).writer = none) :
    WellFormed ((s.lock c x).goTo c (.initCheck x factory)) where
  entry := wf.entry
  value y := (s.value_lock c x y).trans (wf.value y)
  filled := wf.filled
  empty := wf.empty
  holder := wf.relock (.inl free) (by rw [phase]; nofun) (.inl ⟨rfl, rfl⟩)
  fits := by
    have there : x < s.allocated := (wf.fits c).cell x (by rw [phase]; rfl)
    exact wf.fits_goTo (Phase.fits_of_cell rfl there rfl rfl)

theorem unlock (holds : (s.phase c).holds = some x) (ends : p.holds = none)
    (fits : p.Fits s.allocated s.log.length) : WellFormed ((s.unlock x).goTo c p) where
  entry := wf.entry
  value y := (s.value_unlock x y).trans (wf.value y)
  filled := wf.filled
  empty := wf.empty
  holder := by
    refine wf.relock (.inr ((wf.holder x c).mpr holds)) (fun y h => ?_) (.inr ⟨rfl, ends⟩)
    rw [holds] at h
    cases h
    rfl
  fits := wf.fits_goTo fits

end Changes

theorem runs_newest {c : ι} (runs : (s.phase c).runs = some x) :
    x = s.log.length ∧ s.allocated = x + 1 ∧ (s.phase c).holds = some x := by
  have empty := wf.empty
  have above : s.log.length ≤ x := (wf.fits c).runs x runs
  have cell : (s.phase c).cell = some x ∧ (s.phase c).holds = some x := by
    cases h : s.phase c with
    | running y output polls =>
      rw [h] at runs
      cases runs
      exact ⟨rfl, rfl⟩
    | new | mapRead | insertWrite | refreshWrite | initRead | initWrite | initCheck | getting
    | finished | dropped =>
      rw [h] at runs
      cases runs
  have there : x < s.allocated := (wf.fits c).cell x cell.1
  exact ⟨by omega, by omega, cell.2⟩

theorem one_factory {c d : ι} {y : Nat} (hc : (s.phase c).runs = some x)
    (hd : (s.phase d).runs = some y) : c = d := by
  obtain ⟨cellC, _, holdsC⟩ := wf.runs_newest hc
  obtain ⟨cellD, _, holdsD⟩ := wf.runs_newest hd
  have lockC := (wf.holder x c).mpr holdsC
  have lockD := (wf.holder y d).mpr holdsD
  rw [cellC] at lockC
  rw [cellD, lockC] at lockD
  exact Option.some.inj lockD

section Steps

variable [DecidableEq ι]

theorem fill {c : ι} {x : Nat} {output : V}
    (phase : s.phase c = .running x output 0) : WellFormed (s.fill c x output) := by
  obtain ⟨last, next, holds⟩ := wf.runs_newest (c := c) (x := x) (by rw [phase]; rfl)
  have length : (s.log ++ [output]).length = s.log.length + 1 := List.length_append
  exact
    { entry := wf.entry
      value := fun y => by
        show _ = ((s.log ++ [output])[y]?).map (Arc.mk y)
        rw [AsyncCache.cells_fill]
        split
        · rename_i same
          rw [same, last, List.getElem?_concat_length]
          rfl
        · rename_i other
          rw [wf.value y]
          rcases Nat.lt_or_gt_of_ne (last ▸ other) with less | more
          · rw [List.getElem?_append_left less]
          · rw [List.getElem?_eq_none (Nat.le_of_lt more), List.getElem?_eq_none (by omega)]
      filled := by
        show (s.log ++ [output]).length ≤ s.allocated
        omega
      empty := by
        show s.allocated ≤ (s.log ++ [output]).length + 1
        omega
      holder := by
        refine wf.relock (.inr ((wf.holder x c).mpr holds)) (fun y h => ?_) (.inr ⟨rfl, rfl⟩)
        rw [holds] at h
        cases h
        rfl
      fits := fun d => by
        show Phase.Fits s.allocated (s.log ++ [output]).length _
        rw [AsyncCache.phase_fill, length]
        split
        · exact Phase.fits_finished _ _ _
        · rename_i other
          refine ⟨(wf.fits d).cell, fun y h => Nat.lt_succ_of_lt ((wf.fits d).seen y h), ?_⟩
          exact fun y h => absurd (wf.one_factory h (by rw [phase]; rfl)) other }

variable {request : Request V} {p q : Phase V}

omit [DecidableEq ι] wf in
theorem walks_holds (walks : Walks request s p q) : q.holds = p.holds := by
  cases walks <;> rfl

omit [DecidableEq ι] in
theorem walks_fits (fits : p.Fits s.allocated s.log.length) (walks : Walks request s p q) :
    q.Fits s.allocated s.log.length := by
  cases walks with
  | start | missing => exact ⟨nofun, nofun, nofun⟩
  | answer | answerNone | seeFilled | obtain => exact Phase.fits_finished _ _ _
  | find _ entry | findInserted entry | wait entry | waitRefreshed entry =>
    exact Phase.fits_of_cell rfl (by rw [wf.allocated_eq entry]; omega) rfl rfl
  | seeEmpty => exact Phase.fits_of_cell rfl (fits.cell _ rfl) rfl rfl
  | refresh _ filled =>
    refine ⟨nofun, fun x h => ?_, nofun⟩
    exact Nat.lt_of_not_le fun above => filled x h (wf.value_eq_none.mpr above)
  | run value =>
    refine ⟨fun x h => fits.cell x h, nofun, fun x h => ?_⟩
    cases h
    exact wf.value_eq_none.mp value
  | pend => exact ⟨fun x h => fits.cell x h, nofun, fun x h => fits.runs x h⟩

omit [DecidableEq ι] in
/-- A call that means to replace the entry finds every cell filled. -/
theorem full_of_entry (filled : ∀ x, s.entry = some x → x < s.log.length) :
    s.allocated ≤ s.log.length := by
  have entry := wf.entry
  cases n : s.allocated with
  | zero => exact Nat.zero_le _
  | succ n' =>
    rw [n] at entry
    exact filled n' entry

theorem moves {c : ι} {s' : AsyncCache ι V} (h : Moves request s c s') : WellFormed s' := by
  cases h with
  | walk walks => exact wf.goTo (walks_holds walks) (wf.walks_fits (wf.fits c) walks)
  | insert phase entry =>
    exact wf.install (wf.full_of_entry (by rw [entry]; nofun)) (by rw [phase]; rfl)
  | replace phase entry =>
    refine wf.install (wf.full_of_entry fun x h => ?_) (by rw [phase]; rfl)
    exact (wf.fits c).seen x (by rw [phase]; exact entry x h)
  | lock phase free => exact wf.lock phase free
  | unlock phase value =>
    exact wf.unlock (by rw [phase]; rfl) rfl (Phase.fits_finished _ _ _)
  | fill phase => exact wf.fill phase

theorem poll (requests : ι → Request V) (c : ι) : WellFormed (s.poll requests c) := by
  rcases poll_moves requests with ⟨waits, _⟩ | moves
  · rw [waits]
    exact wf
  · exact wf.moves moves

theorem drop (c : ι) : WellFormed (s.drop c) := by
  unfold AsyncCache.drop
  cases phase : s.phase c with
  | initCheck | running => exact wf.unlock (by rw [phase]; rfl) rfl (Phase.fits_dropped _ _)
  | finished | dropped => exact wf
  | new | mapRead | insertWrite | refreshWrite | initRead | initWrite | getting =>
    exact wf.goTo (by rw [phase]; rfl) (Phase.fits_dropped _ _)

theorem act (requests : ι → Request V) : ∀ a, WellFormed (s.act requests a)
  | .poll c => wf.poll requests c
  | .drop c => wf.drop c

end Steps

end WellFormed

end AzureSdk.Cosmos.Cache
