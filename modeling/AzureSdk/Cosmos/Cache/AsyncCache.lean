/-
# Cosmos.Cache.AsyncCache — the async cache at one key

The map of the cache holds a lazily initialised cell for the key.  A call looks the cell
up under the map's lock, and then waits on the cell: `get_or_init` takes its write lock
and runs the factory where the cell is empty, `AsyncLazy::get` only looks at it again and
again until somebody else has filled it.

The sections under the map's lock, and the reads under the lock of a cell, have no await
in them, so each is one step.  The write lock of a cell is held across the factory, and
is part of the state.  A call that is dropped gives back the write lock it holds.

A value is known by its `Arc`; the stamp of an `Arc` is how many factories had completed
when it was made.
-/
import Mathlib.Logic.Function.Basic

namespace AzureSdk.Cosmos.Cache

variable {ι V : Type}

/-- `Arc<V>`, by its place among the values made. -/
structure Arc (V : Type) where
  stamp : Nat
  value : V
  deriving DecidableEq, Repr

/-- A factory: it is pending for some polls and then completes. -/
structure Factory (V : Type) where
  polls : Nat
  output : V

inductive Request (V : Type)
  | getOrInsertWith (factory : Factory V)
  | getOrRefreshWith (shouldForceRefresh : Option V → Bool) (factory : Factory V)
  | get

/-- Where a call is, named by what it does next. -/
inductive Phase (V : Type)
  | new
  /-- The section under the map's read lock. -/
  | mapRead
  /-- The section of `get_or_insert_with` under the map's write lock. -/
  | insertWrite (factory : Factory V)
  /-- The section of `get_or_refresh_with` under the map's write lock, with the cell it saw. -/
  | refreshWrite (initialLazy : Option Nat) (factory : Factory V)
  /-- `get_or_init`: the read lock of the cell. -/
  | initRead (cell : Nat) (factory : Factory V)
  /-- `get_or_init`: waits for the write lock. -/
  | initWrite (cell : Nat) (factory : Factory V)
  /-- `get_or_init`: has the write lock and looks at the cell again. -/
  | initCheck (cell : Nat) (factory : Factory V)
  /-- `get_or_init`: the factory is running. -/
  | running (cell : Nat) (output : V) (polls : Nat)
  /-- `AsyncLazy::get`. -/
  | getting (cell : Nat)
  | finished (result : Option (Arc V))
  | dropped

/-- `AsyncLazy`: the value and who holds the write lock. -/
structure Cell (ι V : Type) where
  value : Option (Arc V)
  writer : Option ι

/-- The cache at the key: the entry of the map, the cells made so far, where the calls are,
and the values of the factories that have completed, oldest first. -/
structure AsyncCache (ι V : Type) where
  entry : Option Nat
  allocated : Nat
  cells : Nat → Cell ι V
  phase : ι → Phase V
  log : List V

namespace AsyncCache

/-- An empty cache, and no call has started. -/
def initial : AsyncCache ι V where
  entry := none
  allocated := 0
  cells := fun _ => ⟨none, none⟩
  phase := fun _ => .new
  log := []

variable (s : AsyncCache ι V)

/-- `AsyncLazy::try_get`. -/
def tryGet (x : Nat) : Option (Arc V) :=
  match (s.cells x).writer with
  | some _ => none
  | none => (s.cells x).value

def setCell (x : Nat) (cell : Cell ι V) : AsyncCache ι V :=
  { s with cells := Function.update s.cells x cell }

@[simp] theorem phase_setCell (x : Nat) (cell : Cell ι V) :
    (s.setCell x cell).phase = s.phase := rfl

@[simp] theorem cells_setCell (x y : Nat) (cell : Cell ι V) :
    (s.setCell x cell).cells y = if y = x then cell else s.cells y := Function.update_apply _ _ _ _

def lock (c : ι) (x : Nat) : AsyncCache ι V :=
  s.setCell x { s.cells x with writer := some c }

def unlock (x : Nat) : AsyncCache ι V :=
  s.setCell x { s.cells x with writer := none }

theorem value_setWriter (x y : Nat) (writer : Option ι) :
    ((s.setCell x { s.cells x with writer }).cells y).value = (s.cells y).value := by
  rw [cells_setCell]
  split
  · rename_i same
    rw [same]
  · rfl

@[simp] theorem value_lock (c : ι) (x y : Nat) :
    ((s.lock c x).cells y).value = (s.cells y).value := s.value_setWriter x y (some c)

@[simp] theorem value_unlock (x y : Nat) :
    ((s.unlock x).cells y).value = (s.cells y).value := s.value_setWriter x y none

@[simp] theorem phase_lock (c : ι) (x : Nat) : (s.lock c x).phase = s.phase :=
  rfl

@[simp] theorem phase_unlock (x : Nat) : (s.unlock x).phase = s.phase := rfl

variable [DecidableEq ι] (s : AsyncCache ι V)

def goTo (c : ι) (p : Phase V) : AsyncCache ι V :=
  { s with phase := Function.update s.phase c p }

@[simp] theorem phase_goTo (c d : ι) (p : Phase V) :
    (s.goTo c p).phase d = if d = c then p else s.phase d := Function.update_apply _ _ _ _

@[simp] theorem cells_goTo (c : ι) (p : Phase V) : (s.goTo c p).cells = s.cells := rfl

/-- A new empty cell becomes the entry, and the call initialises it. -/
def install (c : ι) (factory : Factory V) : AsyncCache ι V :=
  { s with entry := some s.allocated, allocated := s.allocated + 1 }.goTo c
    (.initRead s.allocated factory)

/-- The factory has completed: its value is stored and the write lock given back. -/
def fill (c : ι) (x : Nat) (output : V) : AsyncCache ι V :=
  { s.setCell x ⟨some ⟨s.log.length, output⟩, none⟩ with log := s.log ++ [output] }.goTo c
    (.finished (some ⟨s.log.length, output⟩))

@[simp] theorem phase_install (c d : ι) (factory : Factory V) :
    (s.install c factory).phase d = if d = c then .initRead s.allocated factory else s.phase d :=
  Function.update_apply _ _ _ _

@[simp] theorem phase_fill (c d : ι) (x : Nat) (output : V) :
    (s.fill c x output).phase d =
      if d = c then .finished (some ⟨s.log.length, output⟩) else s.phase d :=
  Function.update_apply _ _ _ _

@[simp] theorem cells_fill (c : ι) (x y : Nat) (output : V) :
    (s.fill c x output).cells y =
      if y = x then ⟨some ⟨s.log.length, output⟩, none⟩ else s.cells y :=
  Function.update_apply _ _ _ _

/-- The section under the map's read lock. -/
def readMap (c : ι) : Request V → AsyncCache ι V
  | .getOrInsertWith factory =>
    match s.entry with
    | some x => s.goTo c (.initRead x factory)
    | none => s.goTo c (.insertWrite factory)
  | .getOrRefreshWith shouldForceRefresh factory =>
    match s.entry with
    | some x =>
      match s.tryGet x with
      | none => s.goTo c (.getting x)
      | some arc =>
        if shouldForceRefresh (some arc.value) then s.goTo c (.refreshWrite (some x) factory)
        else s.goTo c (.finished (some arc))
    | none =>
      if shouldForceRefresh none then s.goTo c (.refreshWrite none factory)
      else s.goTo c (.finished none)
  | .get => s.goTo c (.finished (s.entry.bind s.tryGet))

/-- One step of a call; the state stays where the call has to wait. -/
def poll (requests : ι → Request V) (c : ι) (s : AsyncCache ι V) : AsyncCache ι V :=
  match s.phase c with
  | .new => s.goTo c .mapRead
  | .mapRead => s.readMap c (requests c)
  | .insertWrite factory =>
    match s.entry with
    | some x => s.goTo c (.initRead x factory)
    | none => s.install c factory
  | .refreshWrite initialLazy factory =>
    match initialLazy, s.entry with
    | none, none => s.install c factory
    | none, some current => s.goTo c (.getting current)
    | some initial, some current =>
      if initial = current then s.install c factory else s.goTo c (.getting current)
    | some _, none => s.install c factory
  | .initRead x factory =>
    match (s.cells x).writer, (s.cells x).value with
    | some _, _ => s
    | none, some arc => s.goTo c (.finished (some arc))
    | none, none => s.goTo c (.initWrite x factory)
  | .initWrite x factory =>
    match (s.cells x).writer with
    | some _ => s
    | none => (s.lock c x).goTo c (.initCheck x factory)
  | .initCheck x factory =>
    match (s.cells x).value with
    | some arc => (s.unlock x).goTo c (.finished (some arc))
    | none => s.goTo c (.running x factory.output factory.polls)
  | .running x output (n + 1) => s.goTo c (.running x output n)
  | .running x output 0 => s.fill c x output
  | .getting x =>
    match s.tryGet x with
    | some arc => s.goTo c (.finished (some arc))
    | none => s
  | .finished _ | .dropped => s

/-- A call is dropped where it waits. -/
def drop (c : ι) (s : AsyncCache ι V) : AsyncCache ι V :=
  match s.phase c with
  | .initCheck x _ | .running x _ _ => (s.unlock x).goTo c .dropped
  | .finished _ | .dropped => s
  | _ => s.goTo c .dropped

end AsyncCache

inductive Act (ι : Type)
  | poll (c : ι)
  | drop (c : ι)
  deriving DecidableEq, Repr

def AsyncCache.act [DecidableEq ι] (requests : ι → Request V) :
    Act ι → AsyncCache ι V → AsyncCache ι V
  | .poll c, s => s.poll requests c
  | .drop c, s => s.drop c

end AzureSdk.Cosmos.Cache
