/-
# Cosmos.Cache.Moves — what one step of a call can do

A step leaves the state as it is where the call has ended or has to wait (`Waits`), or it
moves the call on.  Most moves change only where
the call is (`Walks`); the others install a cell, take or give back a write lock, or fill
a cell (`Moves`).  Everything proved about steps is proved from this list.
-/
import AzureSdk.Cosmos.Cache.AsyncCache

namespace AzureSdk.Cosmos.Cache

variable {ι V : Type}

/-- How often the factory of the call is pending. -/
def Request.polls : Request V → Nat
  | .getOrInsertWith factory | .getOrRefreshWith _ factory => factory.polls
  | .get => 0

/-- The call has returned or is gone. -/
def Phase.Ended : Phase V → Prop
  | .finished _ | .dropped => True
  | _ => False

/-- The call has to wait: for a lock that another call holds, or for somebody to fill the
cell. -/
inductive Waits (s : AsyncCache ι V) : Phase V → Prop
  | readLock {x : Nat} {factory : Factory V} {d : ι} (held : (s.cells x).writer = some d) :
    Waits s (.initRead x factory)
  | writeLock {x : Nat} {factory : Factory V} {d : ι} (held : (s.cells x).writer = some d) :
    Waits s (.initWrite x factory)
  | getLock {x : Nat} {d : ι} (held : (s.cells x).writer = some d) : Waits s (.getting x)
  | value {x : Nat} (empty : (s.cells x).value = none) : Waits s (.getting x)

/-- From one place of a call to the next, where only the call moves. -/
inductive Walks (request : Request V) (s : AsyncCache ι V) : Phase V → Phase V → Prop
  | start : Walks request s .new .mapRead
  | missing {factory : Factory V} (given : factory.polls = request.polls)
    (entry : s.entry = none) : Walks request s .mapRead (.insertWrite factory)
  | refresh {initialLazy : Option Nat} {factory : Factory V} (given : factory.polls = request.polls)
    (filled : ∀ x, initialLazy = some x → (s.cells x).value ≠ none) :
    Walks request s .mapRead (.refreshWrite initialLazy factory)
  | find {x : Nat} {factory : Factory V} (given : factory.polls = request.polls)
    (entry : s.entry = some x) : Walks request s .mapRead (.initRead x factory)
  | findInserted {x : Nat} {factory : Factory V} (entry : s.entry = some x) :
    Walks request s (.insertWrite factory) (.initRead x factory)
  | wait {x : Nat} (entry : s.entry = some x) : Walks request s .mapRead (.getting x)
  | waitRefreshed {x : Nat} {initialLazy : Option Nat} {factory : Factory V}
    (entry : s.entry = some x) : Walks request s (.refreshWrite initialLazy factory) (.getting x)
  | answer {x : Nat} {arc : Arc V} (entry : s.entry = some x)
    (value : (s.cells x).value = some arc) : Walks request s .mapRead (.finished (some arc))
  | answerNone : Walks request s .mapRead (.finished none)
  | seeFilled {x : Nat} {factory : Factory V} {arc : Arc V}
    (value : (s.cells x).value = some arc) :
    Walks request s (.initRead x factory) (.finished (some arc))
  | seeEmpty {x : Nat} {factory : Factory V} : Walks request s (.initRead x factory) (.initWrite x factory)
  | run {x : Nat} {factory : Factory V} (value : (s.cells x).value = none) :
    Walks request s (.initCheck x factory) (.running x factory.output factory.polls)
  | pend {x n : Nat} {output : V} : Walks request s (.running x output (n + 1)) (.running x output n)
  | obtain {x : Nat} {arc : Arc V} (value : (s.cells x).value = some arc) :
    Walks request s (.getting x) (.finished (some arc))

/-- What a step that is not a wait does. -/
inductive Moves [DecidableEq ι] (request : Request V) (s : AsyncCache ι V) (c : ι) :
    AsyncCache ι V → Prop
  | walk {p : Phase V} (walks : Walks request s (s.phase c) p) : Moves request s c (s.goTo c p)
  | insert {factory : Factory V} (phase : s.phase c = .insertWrite factory)
    (entry : s.entry = none) : Moves request s c (s.install c factory)
  | replace {initialLazy : Option Nat} {factory : Factory V}
    (phase : s.phase c = .refreshWrite initialLazy factory)
    (entry : ∀ x, s.entry = some x → initialLazy = some x) : Moves request s c (s.install c factory)
  | lock {x : Nat} {factory : Factory V} (phase : s.phase c = .initWrite x factory)
    (free : (s.cells x).writer = none) :
    Moves request s c ((s.lock c x).goTo c (.initCheck x factory))
  | unlock {x : Nat} {factory : Factory V} {arc : Arc V} (phase : s.phase c = .initCheck x factory)
    (value : (s.cells x).value = some arc) :
    Moves request s c ((s.unlock x).goTo c (.finished (some arc)))
  | fill {x : Nat} {output : V} (phase : s.phase c = .running x output 0) :
    Moves request s c (s.fill c x output)

theorem tryGet_eq_some {s : AsyncCache ι V} {x : Nat} {arc : Arc V} (h : s.tryGet x = some arc) :
    (s.cells x).value = some arc := by
  unfold AsyncCache.tryGet at h
  split at h
  · cases h
  · exact h

variable [DecidableEq ι] {s : AsyncCache ι V} {c : ι}

theorem readMap_moves (phase : s.phase c = .mapRead) (request : Request V) :
    Moves request s c (s.readMap c request) := by
  have walk : ∀ {p}, Walks request s .mapRead p → Moves request s c (s.goTo c p) := by
    intro p walks
    exact .walk (phase ▸ walks)
  cases request with
  | getOrInsertWith factory =>
    rw [AsyncCache.readMap]
    split
    · exact walk (.find rfl (by assumption))
    · exact walk (.missing rfl (by assumption))
  | getOrRefreshWith shouldForceRefresh factory =>
    rw [AsyncCache.readMap]
    split
    · rename_i x entry
      split
      · exact walk (.wait entry)
      · rename_i arc got
        split
        · refine walk (.refresh rfl fun y h => ?_)
          cases h
          rw [tryGet_eq_some got]
          nofun
        · exact walk (.answer entry (tryGet_eq_some got))
    · split
      · exact walk (.refresh rfl nofun)
      · exact walk .answerNone
  | get =>
    rw [AsyncCache.readMap]
    cases entry : s.entry with
    | none => exact walk .answerNone
    | some x =>
      cases got : s.tryGet x with
      | none =>
        rw [Option.bind_some, got]
        exact walk .answerNone
      | some arc =>
        rw [Option.bind_some, got]
        exact walk (.answer entry (tryGet_eq_some got))

theorem poll_moves (requests : ι → Request V) :
    (s.poll requests c = s ∧ ((s.phase c).Ended ∨ Waits s (s.phase c))) ∨
      Moves (requests c) s c (s.poll requests c) := by
  have walk : ∀ {p q}, s.phase c = p → Walks (requests c) s p q →
      Moves (requests c) s c (s.goTo c q) := by
    intro p q phase walks
    exact .walk (phase ▸ walks)
  unfold AsyncCache.poll
  cases phase : s.phase c with
  | new => exact .inr (walk phase .start)
  | mapRead => exact .inr (readMap_moves phase _)
  | insertWrite factory =>
    dsimp only
    split
    · exact .inr (walk phase (.findInserted (by assumption)))
    · exact .inr (.insert phase (by assumption))
  | refreshWrite initialLazy factory =>
    dsimp only
    split
    · rename_i entry
      exact .inr (.replace phase (by rw [entry]; nofun))
    · exact .inr (walk phase (.waitRefreshed (by assumption)))
    · rename_i entry
      split
      · rename_i same
        refine .inr (.replace phase fun x h => ?_)
        rw [entry] at h
        rw [same, h]
      · exact .inr (walk phase (.waitRefreshed entry))
    · rename_i entry
      exact .inr (.replace phase (by rw [entry]; nofun))
  | initRead x factory =>
    dsimp only
    split
    · exact .inl ⟨rfl, .inr (.readLock (by assumption))⟩
    · exact .inr (walk phase (.seeFilled (by assumption)))
    · exact .inr (walk phase .seeEmpty)
  | initWrite x factory =>
    dsimp only
    split
    · exact .inl ⟨rfl, .inr (.writeLock (by assumption))⟩
    · exact .inr (.lock phase (by assumption))
  | initCheck x factory =>
    dsimp only
    split
    · exact .inr (.unlock phase (by assumption))
    · exact .inr (walk phase (.run (by assumption)))
  | running x output polls =>
    cases polls with
    | zero => exact .inr (.fill phase)
    | succ n => exact .inr (walk phase .pend)
  | getting x =>
    dsimp only
    split
    · rename_i arc got
      exact .inr (walk phase (.obtain (tryGet_eq_some got)))
    · rename_i got
      refine .inl ⟨rfl, .inr ?_⟩
      unfold AsyncCache.tryGet at got
      split at got
      · exact .getLock (by assumption)
      · exact .value got
  | finished | dropped => exact .inl ⟨rfl, .inl trivial⟩

/-- A drop: the call is gone and no value has changed. -/
structure Dropped (s : AsyncCache ι V) (c : ι) (s' : AsyncCache ι V) : Prop where
  live : ¬ (s.phase c).Ended
  gone : s'.phase c = .dropped
  others : ∀ d, d ≠ c → s'.phase d = s.phase d
  allocated : s'.allocated = s.allocated
  log : s'.log = s.log
  value : ∀ x, (s'.cells x).value = (s.cells x).value

theorem drop_cases (s : AsyncCache ι V) (c : ι) :
    ((s.phase c).Ended ∧ s.drop c = s) ∨ Dropped s c (s.drop c) := by
  unfold AsyncCache.drop
  cases phase : s.phase c with
  | finished | dropped => exact .inl ⟨trivial, rfl⟩
  | initCheck | running =>
    refine .inr ⟨by rw [phase]; exact id, by simp, fun d other => by simp [other], rfl, rfl, ?_⟩
    exact fun x => by simp
  | new | mapRead | insertWrite | refreshWrite | initRead | initWrite | getting =>
    exact .inr ⟨by rw [phase]; exact id, by simp, fun d other => by simp [other], rfl,
      rfl, fun x => rfl⟩

/-- What an act does: nothing, a move or a drop. -/
inductive Acted (requests : ι → Request V) (s : AsyncCache ι V) : Act ι → AsyncCache ι V → Prop
  | waits {a : Act ι} : Acted requests s a s
  | moves {c : ι} {s' : AsyncCache ι V} (moves : Moves (requests c) s c s') :
    Acted requests s (.poll c) s'
  | drops {c : ι} {s' : AsyncCache ι V} (dropped : Dropped s c s') : Acted requests s (.drop c) s'

theorem act_acted (requests : ι → Request V) (s : AsyncCache ι V) :
    ∀ a, Acted requests s a (s.act requests a)
  | .poll c => by
    show Acted requests s (.poll c) (s.poll requests c)
    rcases poll_moves (s := s) (c := c) requests with ⟨same, _⟩ | moves
    · rw [same]
      exact .waits
    · exact .moves moves
  | .drop c => by
    show Acted requests s (.drop c) (s.drop c)
    rcases drop_cases s c with ⟨_, same⟩ | dropped
    · rw [same]
      exact .waits
    · exact .drops dropped

end AzureSdk.Cosmos.Cache
