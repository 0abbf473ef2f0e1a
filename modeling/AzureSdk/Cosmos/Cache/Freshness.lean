/-
# Cosmos.Cache.Freshness — what calls return

A call returns the value of a cell it found in the map after it started.  Cells are
filled in the order they are made, so the value is one a factory has produced, and none
that was older when the call started (`Recent`).

`get` does not wait.  It finds no value while the cell in the map is empty, which it is
from the moment a refresh has replaced the entry until its factory completes, nor while a
late call holds the write lock of a filled cell only to look at it.  So a value that has
been cached can be read exactly while no refresh is under way and nobody holds the lock of
the cell in the map (`cached_value_readable_iff`), and not always
(`get_misses_during_refresh`).
-/
import AzureSdk.Cosmos.Cache.Progress

namespace AzureSdk.Cosmos.Cache

open Theory AsyncCache List

variable {ι V : Type}

/-! ## Results are not older than what was there -/

/-- The cell the call waits for, or the value it has returned, is not older than the first
`since` values. -/
structure Recent (since : Nat) (log : List V) (p : Phase V) : Prop where
  cell : ∀ x, p.cell = some x → since ≤ x + 1
  result : ∀ arc, p = .finished (some arc) →
    log[arc.stamp]? = some arc.value ∧ since ≤ arc.stamp + 1

variable {log : List V} {p : Phase V} {since : Nat} {s : AsyncCache ι V}

theorem Recent.of_cell {x : Nat} (cell : p.cell = some x)
    (recent : since ≤ x + 1) : Recent since log p where
  cell y h := by
    rw [cell] at h
    cases h
    exact recent
  result arc h := by
    rw [h] at cell
    cases cell

theorem Recent.append {more : List V} (recent : Recent since log p) :
    Recent since (log ++ more) p where
  cell := recent.cell
  result arc h := by
    obtain ⟨produced, recent⟩ := recent.result arc h
    refine ⟨?_, recent⟩
    rw [List.getElem?_append_left (List.getElem?_eq_some_iff.mp produced).1]
    exact produced

section Steps

variable {request : Request V} {s s' : AsyncCache ι V} {since : Nat}

theorem recent_finished (wf : WellFormed s) {x : Nat} {arc : Arc V}
    (value : (s.cells x).value = some arc) (recent : since ≤ x + 1) :
    Recent since s.log (.finished (some arc)) where
  cell _ := nofun
  result arc' h := by
    cases h
    obtain ⟨stamp, logged⟩ := wf.value_eq_some value
    rw [stamp]
    exact ⟨logged, recent⟩

theorem walks_recent (wf : WellFormed s) (known : since ≤ s.log.length) {p q : Phase V}
    (recent : Recent since s.log p) (walks : Walks request s p q) : Recent since s.log q := by
  have newest : ∀ {x}, s.entry = some x → since ≤ x + 1 := fun entry =>
    Nat.le_trans known (wf.allocated_eq entry ▸ wf.filled)
  cases walks with
  | start | missing | refresh | answerNone => exact ⟨nofun, nofun⟩
  | find _ entry | findInserted entry | wait entry | waitRefreshed entry =>
    exact .of_cell rfl (newest entry)
  | answer entry value => exact recent_finished wf value (newest entry)
  | seeFilled value | obtain value => exact recent_finished wf value (recent.cell _ rfl)
  | seeEmpty | run | pend => exact .of_cell rfl (recent.cell _ rfl)

variable [DecidableEq ι] {c : ι}

theorem moves_recent (wf : WellFormed s) (known : since ≤ s.log.length)
    (recent : Recent since s.log (s.phase c)) (h : Moves request s c s') :
    Recent since s'.log (s'.phase c) := by
  cases h with
  | walk walks =>
    rw [phase_goTo, if_pos rfl]
    exact walks_recent wf known recent walks
  | insert phase | replace phase =>
    rw [phase_install, if_pos rfl]
    exact .of_cell rfl (Nat.le_succ_of_le (Nat.le_trans known wf.filled))
  | lock phase =>
    rw [phase_goTo, if_pos rfl]
    exact .of_cell rfl (recent.cell _ (by rw [phase]; rfl))
  | unlock phase value =>
    rw [phase_goTo, if_pos rfl]
    exact recent_finished wf value (recent.cell _ (by rw [phase]; rfl))
  | @fill x output phase =>
    rw [phase_fill, if_pos rfl]
    refine ⟨nofun, fun arc h => ?_⟩
    cases h
    exact ⟨getElem?_concat_length, Nat.le_succ_of_le known⟩

theorem moves_log (h : Moves request s c s') : ∃ more, s'.log = s.log ++ more := by
  cases h with
  | fill => exact ⟨_, rfl⟩
  | walk | insert | replace | lock | unlock => exact ⟨[], (append_nil _).symm⟩

theorem acted_recent {requests : ι → Request V} {a : Act ι} (wf : WellFormed s)
    (acted : Acted requests s a s')
    (recent : since ≤ s.log.length ∧ Recent since s.log (s.phase c)) :
    since ≤ s'.log.length ∧ Recent since s'.log (s'.phase c) := by
  cases acted with
  | waits => exact recent
  | @moves d _ moves =>
    obtain ⟨more, log⟩ := moves_log moves
    refine ⟨?_, ?_⟩
    · rw [log, length_append]
      exact Nat.le_add_right_of_le recent.1
    · by_cases self : c = d
      · subst self
        exact moves_recent wf recent.1 recent.2 moves
      · rw [(moves_weight moves).2 c self, log]
        exact recent.2.append
  | @drops d _ dropped =>
    rw [dropped.log]
    refine ⟨recent.1, ?_⟩
    by_cases self : c = d
    · rw [self, dropped.gone]
      exact ⟨nofun, nofun⟩
    · rw [dropped.others c self]
      exact recent.2

end Steps

/-! ## Reads that do not wait -/

/-- A cell has been put into the map whose factory has not completed. -/
def Refreshing (s : AsyncCache ι V) : Prop := s.log.length < s.allocated

/-- A call holds the write lock of the cell in the map. -/
def Held (s : AsyncCache ι V) : Prop := ∃ x c, s.entry = some x ∧ (s.phase c).holds = some x

theorem entry_of_cached (wf : WellFormed s) (cached : s.log ≠ []) :
    ∃ x, s.entry = some x ∧ s.allocated = x + 1 := by
  have made : s.allocated ≠ 0 :=
    Nat.ne_of_gt (Nat.lt_of_lt_of_le (length_pos_iff.mpr cached) wf.filled)
  obtain ⟨x, hx⟩ := Nat.exists_eq_succ_of_ne_zero made
  refine ⟨x, ?_, hx⟩
  rw [wf.entry, hx]
  rfl

theorem tryGet_eq_none_iff (wf : WellFormed s) (cached : s.log ≠ []) :
    s.entry.bind s.tryGet = none ↔ Refreshing s ∨ Held s := by
  obtain ⟨x, entry, made⟩ := entry_of_cached wf cached
  have empty : (s.cells x).value = none ↔ Refreshing s := by
    rw [wf.value_eq_none, Refreshing, made]
    exact Nat.lt_succ_iff.symm
  have locked : (∃ c, (s.cells x).writer = some c) ↔ Held s := by
    constructor
    · rintro ⟨c, writer⟩
      exact ⟨x, c, entry, (wf.holder x c).mp writer⟩
    · rintro ⟨y, c, same, holds⟩
      rw [entry] at same
      cases same
      exact ⟨c, (wf.holder x c).mpr holds⟩
  rw [entry, Option.bind_some, tryGet, ← empty, ← locked]
  cases (s.cells x).writer with
  | none => simp
  | some c => simp

section Runs

variable [DecidableEq ι] (requests : ι → Request V) (schedule : Nat → ι)

/-- The cache along a schedule in which no call is dropped. -/
def undropped : Nat → AsyncCache ι V := states requests fun n => .poll (schedule n)

/-- At time `n` a `get` looks at the cache. -/
def Looks (n : Nat) : Prop :=
  (undropped requests schedule n).phase (schedule n) = .mapRead ∧
    match requests (schedule n) with
    | .get => True
    | _ => False

/-- **What calls return.**  Once a value has been cached, a `get` that looks returns `None`
exactly if a refresh is under way or a call holds the lock of the cell in the map.  A value that a
call returns is the value of a factory that has completed, and at least as new as every value that
had been cached before the call started. -/
theorem cached_value_readable_iff :
    (∀ n, (undropped requests schedule n).log ≠ [] → Looks requests schedule n →
      ((undropped requests schedule (n + 1)).phase (schedule n) = .finished none ↔
        Refreshing (undropped requests schedule n) ∨ Held (undropped requests schedule n))) ∧
    ∀ n m c arc, n ≤ m → (undropped requests schedule n).phase c = .new →
      (undropped requests schedule m).phase c = .finished (some arc) →
      (undropped requests schedule m).log[arc.stamp]? = some arc.value ∧
        (undropped requests schedule n).log.length ≤ arc.stamp + 1 := by
  have wf : ∀ n, WellFormed (undropped requests schedule n) :=
    states_wellFormed requests fun n => .poll (schedule n)
  constructor
  · rintro n cached ⟨phase, isGet⟩
    have looked : (undropped requests schedule (n + 1)).phase (schedule n) = .finished
        ((undropped requests schedule n).entry.bind (undropped requests schedule n).tryGet) := by
      show (poll requests (schedule n) (undropped requests schedule n)).phase _ = _
      rw [poll, phase]
      split at isGet
      · rename_i get
        rw [get, readMap, phase_goTo, if_pos rfl]
      · exact isGet.elim
    rw [looked, ← tryGet_eq_none_iff (wf n) cached]
    exact ⟨Phase.finished.inj, congrArg Phase.finished⟩
  · intro n m c arc le start returned
    let since := (undropped requests schedule n).log.length
    have recent : since ≤ (undropped requests schedule m).log.length ∧
        Recent since (undropped requests schedule m).log
          ((undropped requests schedule m).phase c) := by
      clear returned
      induction m, le using Nat.le_induction with
      | base =>
        rw [start]
        exact ⟨Nat.le_refl _, fun _ h => (by cases h), fun _ h => (by cases h)⟩
      | succ k _ ih => exact acted_recent (wf k) (states_acted requests _ k) ih
    exact recent.2.result arc returned

end Runs

section RefreshAndGet

/-- A call that inserts, one that refreshes, and a `get`. -/
def refreshAndGet : Fin 3 → Request Nat
  | 0 => .getOrInsertWith ⟨0, 7⟩
  | 1 => .getOrRefreshWith (fun _ => true) ⟨1, 8⟩
  | 2 => .get

/-- The first call has returned; the second has replaced the entry; the third looks. -/
def duringRefresh : List (Fin 3) := [0, 0, 0, 0, 0, 0, 0, 1, 1, 1, 2, 2]

/-- A value has been cached and is gone from the map while it is refreshed. -/
theorem get_misses_during_refresh :
    let s := undropped refreshAndGet fun n => duringRefresh.getD n 0
    (s 7).log = [7] ∧ (s 7).phase 2 = .new ∧ (s 12).phase 2 = .finished none :=
  ⟨rfl, rfl, rfl⟩

/-- The third call looks when the refresh has completed. -/
def afterRefresh : List (Fin 3) := [0, 0, 0, 0, 0, 0, 0, 1, 1, 1, 1, 1, 1, 1, 1, 2, 2]

theorem get_after_refresh :
    let s := undropped refreshAndGet fun n => afterRefresh.getD n 0
    (s 17).phase 2 = .finished (some ⟨1, 8⟩) ∧ (s 17).phase 2 ≠ .finished none := by
  intro s
  refine ⟨rfl, ?_⟩
  have readable := (cached_value_readable_iff refreshAndGet fun n => afterRefresh.getD n 0).1 16
    (by decide) ⟨rfl, trivial⟩
  intro missed
  rcases readable.mp missed with refreshing | ⟨x, c, entry, holds⟩
  · exact Nat.lt_irrefl 2 refreshing
  · match c with
    | 0 | 1 | 2 => cases holds

end RefreshAndGet

end AzureSdk.Cosmos.Cache
