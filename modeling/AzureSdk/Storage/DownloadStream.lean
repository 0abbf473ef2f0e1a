/-
# Storage.DownloadStream — a parallel download in order

`download` has one task for each range.  A task requests its range, counts itself off, and sends
the chunk to the stream; the stream starts tasks while the drain accepts their index and fewer
than `parallel` are counted, takes a chunk from the channel, pushes it into the drain, and yields
what the drain pops.

The counter is read with relaxed ordering: the stream may not yet see that a task has counted
itself off, but it does once it has the task's chunk.  So the value it sees is any number between
the running tasks and the tasks whose chunk it has not received.

`download_delivers_iff` says when all chunks come, in order: whenever the drain has at least one
slot, and a vector can have that many.  `parallel * 2` wraps around, so that it may have none.
-/
import AzureSdk.Storage.Drain
import AzureSdk.Theory.Run
import Mathlib.Data.List.Count

namespace AzureSdk.Storage

open Core Theory List SequentialBoundedDrain

/-- What is to be downloaded: the chunk of the first response, the ranges that remain, and the
chunk each of them is answered with; `slot` is the size of a slot of the drain, and
`overflowChecks` a setting of the build. -/
structure Job (ρ α : Type) where
  initial : α
  ranges : List ρ
  fetch : ρ → α
  parallel : Nat
  nonZero : 0 < parallel
  usize : parallel < usizeModulus
  slot : Nat
  overflowChecks : Bool

namespace Job

variable {ρ α : Type} (job : Job ρ α)

def chunks : List α := job.initial :: job.ranges.map job.fetch

/-- `parallel * 2`; without overflow checks it wraps around. -/
def maxBuffers : Nat := job.parallel * 2 % usizeModulus

/-- The multiplication panics. -/
def Overflows : Prop := job.overflowChecks = true ∧ usizeModulus ≤ job.parallel * 2

instance : Decidable job.Overflows := inferInstanceAs (Decidable (_ ∧ _))

def totalChunks : Nat := job.ranges.length + 1

theorem length_chunks : job.chunks.length = job.totalChunks := by
  simp [chunks, totalChunks]

theorem chunks_succ (n : Nat) : job.chunks[n + 1]? = (job.ranges[n]?).map job.fetch := by
  simp [chunks]

end Job

/-- A task: it requests its range, has counted itself off, or has sent its chunk. -/
inductive Worker (α : Type)
  | running (chunk : α)
  | sending (chunk : α)
  | sent

namespace Worker

variable {α : Type}

def isRunning : Worker α → Bool
  | .running _ => true
  | _ => false

def isSending : Worker α → Bool
  | .sending _ => true
  | _ => false

/-- A task that finishes is one that runs less, and one that sends more. -/
theorem countP_finish {workers : List (Worker α)} {task : Nat} {chunk : α}
    (running : workers[task]? = some (.running chunk)) :
    (workers.set task (.sending chunk)).countP isRunning + 1 = workers.countP isRunning ∧
      (workers.set task (.sending chunk)).countP isSending = workers.countP isSending + 1 := by
  obtain ⟨inside, at_⟩ := List.getElem?_eq_some_iff.mp running
  have positive : 0 < workers.countP isRunning :=
    countP_pos_iff.mpr ⟨_, mem_of_getElem? running, rfl⟩
  simp only [countP_set inside, at_, isRunning, isSending, if_true, Bool.false_eq_true, if_false]
  omega

theorem countP_send {workers : List (Worker α)} {task : Nat} {chunk : α}
    (sending : workers[task]? = some (.sending chunk)) :
    (workers.set task .sent).countP isRunning = workers.countP isRunning ∧
      (workers.set task .sent).countP isSending + 1 = workers.countP isSending := by
  obtain ⟨inside, at_⟩ := List.getElem?_eq_some_iff.mp sending
  have positive : 0 < workers.countP isSending :=
    countP_pos_iff.mpr ⟨_, mem_of_getElem? sending, rfl⟩
  simp only [countP_set inside, at_, isRunning, isSending, if_true, Bool.false_eq_true, if_false]
  omega

end Worker

namespace DownloadStream

/-- Where the stream is: the first response is all there is and is handed on, or it starts tasks,
waits for a chunk, yields what is ready, or is over. -/
inductive Phase
  | whole
  | starting
  | waiting
  | yielding
  | ended
  | failed (error : Error)
  | panicked
  deriving DecidableEq, Repr

inductive Event
  | handOn
  | start (seen : Nat)
  | rangesFinished (seen : Nat)
  | full (seen : Nat)
  | finish (task : Nat)
  | send (task : Nat)
  | receive
  | closed
  | yieldNext
  | loop
  | stop
  deriving DecidableEq, Repr

/-- The stream with its tasks and channel; the next task index is the number of tasks. -/
structure State (ρ α : Type) where
  drain : SequentialBoundedDrain α := ⟨[], 0⟩
  remaining : List ρ := []
  workers : List (Worker α) := []
  channel : List (Nat × α) := []
  received : Nat := 0
  transmitter : Bool := true
  phase : Phase
  output : List α := []

variable {ρ α : Type}

namespace State

variable (s : State ρ α)

/-- `active_tasks_counter`. -/
def active : Nat := s.workers.countP Worker.isRunning

/-- A value the stream may see of the counter. -/
def sees (seen : Nat) : Prop := s.active ≤ seen ∧ seen ≤ s.workers.length - s.received

/-- `currently_accepting().contains(&next_task_index) && active_tasks_counter.load() < parallel`. -/
def mayStart (job : Job ρ α) (seen : Nat) : Bool :=
  s.drain.accepts s.workers.length && decide (seen < job.parallel)

end State

/-- The stream as `download` returns it. -/
def start (job : Job ρ α) : State ρ α :=
  if job.Overflows then { phase := .panicked }
  else
    match job.ranges with
    | [] => { phase := .whole }
    | _ :: _ =>
      match SequentialBoundedDrain.new job.slot job.maxBuffers with
      | none => { phase := .panicked }
      | some drain =>
        { drain, remaining := job.ranges, workers := [.running job.initial], phase := .starting }

inductive Step (job : Job ρ α) : State ρ α → Event → State ρ α → Prop
  | handsOn {s : State ρ α} (whole : s.phase = .whole) :
    Step job s .handOn { s with phase := .ended, output := [job.initial] }
  | starts {s : State ρ α} {seen : Nat} {range : ρ} {rest : List ρ} (starting : s.phase = .starting)
    (sees : s.sees seen) (may : s.mayStart job seen = true) (more : s.remaining = range :: rest) :
    Step job s (.start seen) { s with
      remaining := rest, workers := s.workers ++ [.running (job.fetch range)] }
  | finished {s : State ρ α} {seen : Nat} (starting : s.phase = .starting) (sees : s.sees seen)
    (may : s.mayStart job seen = true) (none : s.remaining = []) :
    Step job s (.rangesFinished seen) { s with transmitter := false, phase := .waiting }
  | full {s : State ρ α} {seen : Nat} (starting : s.phase = .starting) (sees : s.sees seen)
    (mayNot : s.mayStart job seen = false) : Step job s (.full seen) { s with phase := .waiting }
  | finishes {s : State ρ α} {task : Nat} {chunk : α}
    (running : s.workers[task]? = some (.running chunk)) :
    Step job s (.finish task) { s with workers := s.workers.set task (.sending chunk) }
  | sends {s : State ρ α} {task : Nat} {chunk : α}
    (sending : s.workers[task]? = some (.sending chunk)) :
    Step job s (.send task) { s with
      workers := s.workers.set task .sent, channel := s.channel ++ [(task, chunk)] }
  | receives {s : State ρ α} {index : Nat} {chunk : α} {channel : List (Nat × α)}
    {drain : SequentialBoundedDrain α} (waiting : s.phase = .waiting)
    (message : s.channel = (index, chunk) :: channel)
    (pushed : s.drain.push index chunk = .ok drain) :
    Step job s .receive { s with drain, channel, received := s.received + 1, phase := .yielding }
  | rejects {s : State ρ α} {index : Nat} {chunk : α} {channel : List (Nat × α)} {error : Error}
    (waiting : s.phase = .waiting) (message : s.channel = (index, chunk) :: channel)
    (pushed : s.drain.push index chunk = .error error) :
    Step job s .receive { s with
      channel, received := s.received + 1, phase := .failed error }
  | closes {s : State ρ α} (waiting : s.phase = .waiting) (empty : s.channel = [])
    (dropped : s.transmitter = false)
    (spent : ∀ worker ∈ s.workers, worker.isRunning = false ∧ worker.isSending = false) :
    Step job s .closed { s with
      phase := .failed ⟨.other, "Download incomplete. Premature channel close."⟩ }
  | yields {s : State ρ α} {chunk : α} {drain : SequentialBoundedDrain α}
    (yielding : s.phase = .yielding) (popped : s.drain.pop = some (chunk, drain)) :
    Step job s .yieldNext { s with drain, output := s.output ++ [chunk] }
  | loops {s : State ρ α} (yielding : s.phase = .yielding) (popped : s.drain.pop = none)
    (more : s.drain.cursor < job.totalChunks) : Step job s .loop { s with phase := .starting }
  | ends {s : State ρ α} (yielding : s.phase = .yielding) (popped : s.drain.pop = none)
    (spent : job.totalChunks ≤ s.drain.cursor) : Step job s .stop { s with phase := .ended }

/-! ## Where each chunk is -/

/-- A chunk is with its task, in the channel, in the drain, or has been yielded, and is nowhere
else. -/
structure Tasks (job : Job ρ α) (drain : SequentialBoundedDrain α) (workers : List (Worker α))
    (channel : List (Nat × α)) : Prop where
  busy : ∀ i chunk, workers[i]? = some (.running chunk) ∨ workers[i]? = some (.sending chunk) →
    job.chunks[i]? = some chunk ∧ drain.cursor ≤ i ∧ drain.get i = none
  queued : ∀ i chunk, (i, chunk) ∈ channel →
    workers[i]? = some .sent ∧ job.chunks[i]? = some chunk ∧ drain.cursor ≤ i ∧ drain.get i = none
  distinct : (channel.map Prod.fst).Nodup
  sent : ∀ i, workers[i]? = some .sent → drain.cursor ≤ i → drain.get i = none →
    i ∈ channel.map Prod.fst
  buffered : ∀ i chunk, drain.get i = some chunk →
    job.chunks[i]? = some chunk ∧ workers[i]? = some .sent
  low : drain.cursor ≤ workers.length
  high : workers.length ≤ drain.cursor + drain.capacity

section Tasks

variable {job : Job ρ α} {drain after : SequentialBoundedDrain α} {workers : List (Worker α)}
variable {channel : List (Nat × α)} {task : Nat} {chunk : α}

theorem Tasks.first {slot capacity : Nat} (positive : 0 < capacity)
    (new : SequentialBoundedDrain.new slot capacity = some drain) :
    Tasks job drain [.running job.initial] [] := by
  have empty := get_new new
  obtain ⟨cursor, room, _⟩ := empty 0
  refine ⟨?_, nofun, nodup_nil, ?_, ?_, by omega, ?_⟩
  · intro i chunk busy
    match i with
    | 0 =>
      rcases busy with busy | busy
      · cases busy
        exact ⟨rfl, by omega, (empty 0).2.2⟩
      · cases busy
    | i + 1 => rcases busy with busy | busy <;> cases busy
  · intro i sent
    match i with
    | 0 => cases sent
    | i + 1 => cases sent
  · intro i chunk there
    rw [(empty i).2.2] at there
    cases there
  · show 1 ≤ drain.cursor + drain.capacity
    omega

theorem Tasks.get_new (tasks : Tasks job drain workers channel) : drain.get workers.length = none := by
  cases there : drain.get workers.length with
  | none => rfl
  | some chunk =>
    have sent := (tasks.buffered _ chunk there).2
    rw [getElem?_eq_none (Nat.le_refl _)] at sent
    cases sent

theorem getElem?_concat (workers : List (Worker α)) (worker : Worker α) (i : Nat) :
    (workers ++ [worker])[i]? = if i = workers.length then some worker else workers[i]? := by
  rcases Nat.lt_trichotomy i workers.length with lt | same | gt
  · rw [getElem?_append_left lt, if_neg (by omega)]
  · rw [if_pos same, same, getElem?_append_right (Nat.le_refl _), Nat.sub_self]
    rfl
  · rw [if_neg (by omega), getElem?_eq_none (by simp; omega), getElem?_eq_none (by omega)]

section

variable (tasks : Tasks job drain workers channel)

include tasks

theorem Tasks.start (next : job.chunks[workers.length]? = some chunk)
    (accepted : drain.accepts workers.length = true) :
    Tasks job drain (workers ++ [.running chunk]) channel := by
  have window := accepts_iff.mp accepted
  have sentBefore : ∀ i : Nat, (workers ++ [Worker.running chunk])[i]? = some Worker.sent ↔
      workers[i]? = some Worker.sent := by
    intro i
    rw [getElem?_concat]
    split
    · next same =>
      subst same
      rw [getElem?_eq_none (Nat.le_refl _)]
      exact iff_of_false nofun nofun
    · rfl
  refine ⟨?_, ?_, tasks.distinct, ?_, ?_, ?_, ?_⟩
  · intro i chunk' busy
    rw [getElem?_concat] at busy
    split at busy
    · next same =>
      subst same
      rcases busy with busy | busy
      · cases busy
        exact ⟨next, window.1, tasks.get_new⟩
      · cases busy
    · exact tasks.busy i chunk' busy
  · intro i chunk' mem
    rw [sentBefore]
    exact tasks.queued i chunk' mem
  · intro i sent
    exact tasks.sent i ((sentBefore i).mp sent)
  · intro i chunk' there
    rw [sentBefore]
    exact tasks.buffered i chunk' there
  · rw [length_append]
    exact Nat.le_add_right_of_le tasks.low
  · rw [length_append]
    exact window.2

theorem Tasks.finish (running : workers[task]? = some (.running chunk)) :
    Tasks job drain (workers.set task (.sending chunk)) channel := by
  obtain ⟨inside, _⟩ := List.getElem?_eq_some_iff.mp running
  have sentBefore : ∀ i : Nat, (workers.set task (.sending chunk))[i]? = some Worker.sent ↔
      workers[i]? = some Worker.sent := by
    intro i
    rw [getElem?_set]
    split
    · next same =>
      subst same
      rw [running]
      exact iff_of_false nofun nofun
    · rfl
  refine ⟨?_, ?_, tasks.distinct, ?_, ?_, ?_, ?_⟩
  · intro i chunk' busy
    by_cases same : task = i
    · subst same
      simp only [getElem?_set_self inside, Option.some.injEq, reduceCtorEq, false_or,
        Worker.sending.injEq] at busy
      subst busy
      exact tasks.busy task chunk (.inl running)
    · rw [getElem?_set_ne same] at busy
      exact tasks.busy i chunk' busy
  · intro i chunk' mem
    rw [sentBefore]
    exact tasks.queued i chunk' mem
  · intro i sent
    exact tasks.sent i ((sentBefore i).mp sent)
  · intro i chunk' there
    rw [sentBefore]
    exact tasks.buffered i chunk' there
  · rw [length_set]
    exact tasks.low
  · rw [length_set]
    exact tasks.high

theorem Tasks.send (sending : workers[task]? = some (.sending chunk)) :
    Tasks job drain (workers.set task .sent) (channel ++ [(task, chunk)]) := by
  obtain ⟨inside, _⟩ := List.getElem?_eq_some_iff.mp sending
  obtain ⟨content, late, absent⟩ := tasks.busy task chunk (.inr sending)
  have fresh : task ∉ channel.map Prod.fst := by
    intro mem
    obtain ⟨⟨i, chunk'⟩, message, rfl⟩ := mem_map.mp mem
    rw [(tasks.queued _ _ message).1] at sending
    cases sending
  have stays : ∀ {i : Nat}, workers[i]? = some .sent → (workers.set task .sent)[i]? = some .sent := by
    intro i sent
    by_cases same : task = i
    · subst same
      exact getElem?_set_self inside
    · rwa [getElem?_set_ne same]
  refine ⟨?_, ?_, ?_, ?_, ?_, ?_, ?_⟩
  · intro i chunk' busy
    by_cases same : task = i
    · subst same
      rw [getElem?_set_self inside] at busy
      rcases busy with busy | busy <;> cases busy
    · rw [getElem?_set_ne same] at busy
      exact tasks.busy i chunk' busy
  · intro i chunk' mem
    rcases mem_append.mp mem with mem | mem
    · obtain ⟨sent, rest⟩ := tasks.queued i chunk' mem
      exact ⟨stays sent, rest⟩
    · cases mem_singleton.mp mem
      exact ⟨getElem?_set_self inside, content, late, absent⟩
  · rw [map_append, nodup_append]
    refine ⟨tasks.distinct, by simp, ?_⟩
    intro i mem j last same
    rw [mem_singleton.mp last] at same
    rw [same] at mem
    exact fresh mem
  · intro i sent late absent
    rw [map_append, mem_append]
    by_cases same : task = i
    · exact .inr (mem_singleton.mpr same.symm)
    · rw [getElem?_set_ne same] at sent
      exact .inl (tasks.sent i sent late absent)
  · intro i chunk' there
    obtain ⟨content, sent⟩ := tasks.buffered i chunk' there
    exact ⟨content, stays sent⟩
  · rw [length_set]
    exact tasks.low
  · rw [length_set]
    exact tasks.high

end

theorem Tasks.receive (tasks : Tasks job drain workers ((task, chunk) :: channel))
    (pushed : drain.push task chunk = .ok after) : Tasks job after workers channel := by
  obtain ⟨_, cursor, room, get⟩ := push_get pushed
  obtain ⟨sent, content, late, absent⟩ := tasks.queued task chunk (.head _)
  obtain ⟨fresh, distinct⟩ := nodup_cons.mp tasks.distinct
  refine ⟨?_, ?_, distinct, ?_, ?_, ?_, ?_⟩
  · intro i chunk' busy
    obtain ⟨content, late, absent⟩ := tasks.busy i chunk' busy
    refine ⟨content, cursor ▸ late, ?_⟩
    rw [get, if_neg, absent]
    rintro rfl
    rw [sent] at busy
    rcases busy with busy | busy <;> cases busy
  · intro i chunk' mem
    obtain ⟨sent, content, late, absent⟩ := tasks.queued i chunk' (.tail _ mem)
    refine ⟨sent, content, cursor ▸ late, ?_⟩
    rw [get, if_neg, absent]
    intro same
    exact fresh (mem_map.mpr ⟨(i, chunk'), mem, same⟩)
  · intro i sent late absent
    rw [get] at absent
    split at absent
    · cases absent
    · next other =>
      rw [cursor] at late
      exact (mem_cons.mp (tasks.sent i sent late absent)).resolve_left other
  · intro i chunk' there
    rw [get] at there
    split at there
    · next same =>
      cases there
      subst same
      exact ⟨content, sent⟩
    · exact tasks.buffered i chunk' there
  · rw [cursor]
    exact tasks.low
  · rw [cursor, room]
    exact tasks.high

theorem Tasks.pop (tasks : Tasks job drain workers channel)
    (popped : drain.pop = some (chunk, after)) : Tasks job after workers channel := by
  obtain ⟨first, cursor, room, get⟩ := pop_get popped
  obtain ⟨_, sent⟩ := tasks.buffered _ chunk first
  obtain ⟨inside, _⟩ := List.getElem?_eq_some_iff.mp sent
  have later : ∀ {i : Nat}, drain.cursor ≤ i → drain.get i = none →
      after.cursor ≤ i ∧ after.get i = none := by
    intro i late absent
    have other : i ≠ drain.cursor := by
      rintro rfl
      rw [first] at absent
      cases absent
    rw [cursor, get, if_neg other]
    exact ⟨by omega, absent⟩
  refine ⟨?_, ?_, tasks.distinct, ?_, ?_, ?_, ?_⟩
  · intro i chunk' busy
    obtain ⟨content, late, absent⟩ := tasks.busy i chunk' busy
    exact ⟨content, later late absent⟩
  · intro i chunk' mem
    obtain ⟨sent, content, late, absent⟩ := tasks.queued i chunk' mem
    exact ⟨sent, content, later late absent⟩
  · intro i sent late absent
    rw [get, if_neg (by omega)] at absent
    exact tasks.sent i sent (by omega) absent
  · intro i chunk' there
    rw [get] at there
    split at there
    · cases there
    · exact tasks.buffered i chunk' there
  · omega
  · have high := tasks.high
    omega

end Tasks

/-! ## The invariant -/

/-- Where the stream waits, the chunk it needs next is on its way. -/
def Phase.Fits (job : Job ρ α) (s : State ρ α) : Phase → Prop
  | .starting => s.drain.get s.drain.cursor = none ∧ s.drain.cursor < job.totalChunks
  | .waiting => s.drain.get s.drain.cursor = none ∧ s.drain.cursor < s.workers.length
  | .yielding => True
  | .ended => s.drain.cursor = job.totalChunks
  | .whole | .failed _ | .panicked => False

structure Inv (job : Job ρ α) (s : State ρ α) : Prop where
  room : 0 < s.drain.capacity
  tasks : Tasks job s.drain s.workers s.channel
  started : 0 < s.workers.length
  remaining : s.remaining = job.ranges.drop (s.workers.length - 1)
  total : s.workers.length + s.remaining.length = job.totalChunks
  output : s.output = job.chunks.take s.drain.cursor
  active : s.active ≤ job.parallel
  count : s.received + s.active + s.workers.countP Worker.isSending + s.channel.length =
    s.workers.length
  phase : s.phase.Fits job s

section Inv

variable {job : Job ρ α} {s s' : State ρ α}

variable {rest : List ρ} {seen index task : Nat} {channel : List (Nat × α)}
  {drain : SequentialBoundedDrain α}

theorem Inv.next (inv : Inv job s) {range : ρ} (more : s.remaining = range :: rest) :
    job.chunks[s.workers.length]? = some (job.fetch range) ∧
      rest = job.ranges.drop (s.workers.length + 1 - 1) := by
  have started := inv.started
  have dropped := inv.remaining
  rw [more] at dropped
  have first : job.ranges[s.workers.length - 1]? = some range := by
    rw [← head?_drop, ← dropped]
    rfl
  constructor
  · rw [show s.workers.length = s.workers.length - 1 + 1 by omega, Job.chunks_succ, first]
    rfl
  · have tail : rest = (job.ranges.drop (s.workers.length - 1)).tail := by rw [← dropped]; rfl
    rw [tail, tail_drop, show s.workers.length - 1 + 1 = s.workers.length + 1 - 1 by omega]

/-- Nothing is on its way where the next chunk has no task. -/
theorem Inv.idle (inv : Inv job s) (none : s.drain.cursor = s.workers.length) :
    s.workers.length - s.received = 0 := by
  have quiet : ∀ worker ∈ s.workers, worker.isRunning = false ∧ worker.isSending = false := by
    intro worker mem
    obtain ⟨i, there⟩ := getElem?_of_mem mem
    obtain ⟨inside, _⟩ := List.getElem?_eq_some_iff.mp there
    cases worker with
    | running chunk =>
      have late := (inv.tasks.busy i chunk (.inl there)).2.1
      omega
    | sending chunk =>
      have late := (inv.tasks.busy i chunk (.inr there)).2.1
      omega
    | sent => exact ⟨rfl, rfl⟩
  have running : s.active = 0 := countP_eq_zero.mpr fun worker mem => by simp [quiet worker mem]
  have sending : s.workers.countP Worker.isSending = 0 :=
    countP_eq_zero.mpr fun worker mem => by simp [quiet worker mem]
  have empty : s.channel = [] := by
    cases messages : s.channel with
    | nil => rfl
    | cons message channel =>
      obtain ⟨sent, _, late, _⟩ := inv.tasks.queued message.1 message.2 (by simp [messages])
      obtain ⟨inside, _⟩ := List.getElem?_eq_some_iff.mp sent
      omega
  have count := inv.count
  rw [empty, length_nil] at count
  omega

/-- The stream does not wait for a chunk that has no task. -/
theorem Inv.waits (inv : Inv job s) (starting : s.phase = .starting) (sees : s.sees seen)
    (stops : s.mayStart job seen = false ∨ s.remaining = []) :
    s.drain.get s.drain.cursor = none ∧ s.drain.cursor < s.workers.length := by
  have fits := inv.phase
  rw [starting] at fits
  obtain ⟨absent, more⟩ := fits
  refine ⟨absent, Nat.lt_of_le_of_ne inv.tasks.low fun none => ?_⟩
  have idle := inv.idle none
  have room := inv.room
  have total := inv.total
  rcases stops with full | finished
  · have seesNone : seen = 0 := by
      have high := sees.2
      omega
    have positive := job.nonZero
    simp [State.mayStart, accepts, seesNone] at full
    omega
  · rw [finished, length_nil] at total
    omega

/-- The chunk the stream waits for is on its way. -/
theorem Inv.underway (inv : Inv job s) (waiting : s.phase = .waiting) :
    s.channel ≠ [] ∨
      ∃ worker ∈ s.workers, worker.isRunning = true ∨ worker.isSending = true := by
  have fits := inv.phase
  rw [waiting] at fits
  obtain ⟨absent, inside⟩ := fits
  have there := List.getElem?_eq_getElem inside
  cases worker : s.workers[s.drain.cursor] with
  | running chunk => exact .inr ⟨_, getElem_mem inside, by simp [worker, Worker.isRunning]⟩
  | sending chunk => exact .inr ⟨_, getElem_mem inside, by simp [worker, Worker.isSending]⟩
  | sent =>
    refine .inl fun empty => ?_
    rw [worker] at there
    have mem := inv.tasks.sent _ there (Nat.le_refl _) absent
    rw [empty] at mem
    cases mem

variable {chunk : α}

/-- The drain has room for every chunk of the channel. -/
theorem Inv.accepted (inv : Inv job s)
    (message : s.channel = (index, chunk) :: channel) : s.drain.accepts index = true := by
  obtain ⟨sent, _, late, _⟩ := inv.tasks.queued index chunk (by simp [message])
  obtain ⟨inside, _⟩ := List.getElem?_eq_some_iff.mp sent
  have high := inv.tasks.high
  exact accepts_iff.mpr (by omega)

theorem Phase.Fits.congr {phase : Phase} (fits : phase.Fits job s) (drain : s'.drain = s.drain)
    (length : s'.workers.length = s.workers.length) : phase.Fits job s' := by
  cases phase with
  | starting =>
    show s'.drain.get s'.drain.cursor = none ∧ _
    rw [drain]
    exact fits
  | waiting =>
    show s'.drain.get s'.drain.cursor = none ∧ s'.drain.cursor < s'.workers.length
    rw [drain, length]
    exact fits
  | yielding => trivial
  | ended =>
    show s'.drain.cursor = _
    rw [drain]
    exact fits
  | whole | failed error | panicked => exact fits.elim

theorem Inv.starts (inv : Inv job s) {range : ρ}
    (starting : s.phase = .starting) (sees : s.sees seen) (may : s.mayStart job seen = true)
    (more : s.remaining = range :: rest) :
    Inv job { s with
      remaining := rest, workers := s.workers ++ [.running (job.fetch range)] } := by
  obtain ⟨next, rest_eq⟩ := inv.next more
  simp only [State.mayStart, Bool.and_eq_true, decide_eq_true_eq] at may
  have total := inv.total
  have count := inv.count
  have low := sees.1
  have fits := inv.phase
  rw [starting] at fits
  rw [more, length_cons] at total
  simp only [State.active] at low count
  refine ⟨inv.room, inv.tasks.start next may.1, by simp, ?_, ?_, inv.output, ?_, ?_, ?_⟩
  · simpa using rest_eq
  · simp only [length_append, length_singleton]
    omega
  · simp only [State.active, countP_append, countP_singleton, Worker.isRunning, if_true]
    omega
  · simp only [State.active, countP_append, countP_singleton, Worker.isRunning,
      Worker.isSending, if_true, Bool.false_eq_true, if_false, length_append,
      length_singleton]
    omega
  · show Phase.Fits job _ s.phase
    rw [starting]
    exact fits

theorem Inv.finishes (inv : Inv job s) (running : s.workers[task]? = some (.running chunk)) :
    Inv job { s with workers := s.workers.set task (.sending chunk) } := by
  have counts := Worker.countP_finish running
  have active := inv.active
  have count := inv.count
  simp only [State.active] at active count
  refine ⟨inv.room, inv.tasks.finish running, ?_, ?_, ?_, inv.output, ?_, ?_, ?_⟩
  · simpa using inv.started
  · simpa using inv.remaining
  · simpa using inv.total
  · simp only [State.active]
    omega
  · simp only [State.active, length_set]
    omega
  · exact inv.phase.congr rfl length_set

theorem Inv.sends (inv : Inv job s) (sending : s.workers[task]? = some (.sending chunk)) :
    Inv job { s with
      workers := s.workers.set task .sent, channel := s.channel ++ [(task, chunk)] } := by
  have counts := Worker.countP_send sending
  have active := inv.active
  have count := inv.count
  simp only [State.active] at active count
  refine ⟨inv.room, inv.tasks.send sending, ?_, ?_, ?_, inv.output, ?_, ?_, ?_⟩
  · simpa using inv.started
  · simpa using inv.remaining
  · simpa using inv.total
  · simp only [State.active]
    omega
  · simp only [State.active, length_set, length_append, length_singleton]
    omega
  · exact inv.phase.congr rfl length_set

theorem Inv.receives (inv : Inv job s) (message : s.channel = (index, chunk) :: channel)
    (pushed : s.drain.push index chunk = .ok drain) :
    Inv job { s with drain, channel, received := s.received + 1, phase := .yielding } := by
  obtain ⟨_, cursor, room, _⟩ := push_get pushed
  have tasks := inv.tasks
  have count := inv.count
  rw [message] at tasks
  rw [message, length_cons] at count
  refine ⟨?_, tasks.receive pushed, inv.started, inv.remaining, inv.total, ?_, inv.active, ?_, trivial⟩
  · show 0 < drain.capacity
    rw [room]
    exact inv.room
  · show s.output = job.chunks.take drain.cursor
    rw [cursor]
    exact inv.output
  · simp only [State.active] at count ⊢
    omega

theorem Inv.yields (inv : Inv job s)
    (yielding : s.phase = .yielding) (popped : s.drain.pop = some (chunk, drain)) :
    Inv job { s with drain, output := s.output ++ [chunk] } := by
  obtain ⟨first, cursor, room, _⟩ := pop_get popped
  obtain ⟨content, _⟩ := inv.tasks.buffered _ chunk first
  refine ⟨?_, inv.tasks.pop popped, inv.started, inv.remaining, inv.total, ?_, inv.active, inv.count, ?_⟩
  · show 0 < drain.capacity
    rw [room]
    exact inv.room
  · show s.output ++ [chunk] = job.chunks.take drain.cursor
    rw [cursor, take_add_one, content, inv.output]
    rfl
  · show Phase.Fits job _ s.phase
    rw [yielding]
    trivial

/-! ## It goes on, and comes to an end -/

/-- What is left to do, each task and chunk with the steps it still takes. -/
def measure (job : Job ρ α) (s : State ρ α) : Nat :=
  6 * s.remaining.length + 5 * s.active + 4 * s.workers.countP Worker.isSending +
    3 * s.channel.length + (job.totalChunks - s.drain.cursor) +
    match s.phase with
    | .yielding => 2
    | .whole | .starting => 1
    | _ => 0

theorem inv_step {e : Event} (inv : Inv job s) (step : Step job s e s') :
    Inv job s' ∧ measure job s' < measure job s := by
  have fits := inv.phase
  cases step with
  | handsOn whole =>
    rw [whole] at fits
    exact fits.elim
  | starts starting sees may more =>
    refine ⟨inv.starts starting sees may more, ?_⟩
    simp only [measure, State.active, starting, more, countP_append, countP_singleton,
      Worker.isRunning, Worker.isSending, if_true, Bool.false_eq_true, if_false, length_cons]
    omega
  | finished starting sees may none =>
    have waits := inv.waits starting sees (.inr none)
    refine ⟨{ inv with phase := waits }, ?_⟩
    simp only [measure, State.active, starting]
    omega
  | full starting sees mayNot =>
    have waits := inv.waits starting sees (.inl mayNot)
    refine ⟨{ inv with phase := waits }, ?_⟩
    simp only [measure, State.active, starting]
    omega
  | finishes running =>
    have counts := Worker.countP_finish running
    refine ⟨inv.finishes running, ?_⟩
    simp only [measure, State.active]
    omega
  | sends sending =>
    have counts := Worker.countP_send sending
    refine ⟨inv.sends sending, ?_⟩
    simp only [measure, State.active, length_append, length_singleton]
    omega
  | receives waiting message pushed =>
    obtain ⟨_, cursor, _⟩ := push_get pushed
    refine ⟨inv.receives message pushed, ?_⟩
    simp only [measure, State.active, waiting, message, cursor, length_cons]
    omega
  | rejects waiting message pushed =>
    rw [push_ok (inv.accepted message)] at pushed
    cases pushed
  | closes waiting empty dropped spent =>
    rcases inv.underway waiting with some | ⟨worker, mem, busy⟩
    · exact absurd empty some
    · simp [spent worker mem] at busy
  | yields yielding popped =>
    obtain ⟨_, cursor, _⟩ := pop_get popped
    have low := (inv.tasks.pop popped).low
    have total := inv.total
    refine ⟨inv.yields yielding popped, ?_⟩
    simp only [measure, State.active, cursor]
    omega
  | loops yielding popped more =>
    have absent := (pop_none inv.room).mp popped
    refine ⟨{ inv with phase := ⟨absent, more⟩ }, ?_⟩
    simp only [measure, State.active, yielding]
    omega
  | ends yielding popped spent =>
    have low := inv.tasks.low
    have total := inv.total
    have ended : s.drain.cursor = job.totalChunks := by omega
    refine ⟨{ inv with phase := ended }, ?_⟩
    simp only [measure, State.active, yielding]
    omega

/-- Unless it is over, something can happen. -/
theorem Inv.goesOn (inv : Inv job s) : s.phase = .ended ∨ ∃ e s', Step job s e s' := by
  have fits := inv.phase
  cases phase : s.phase with
  | ended => exact .inl rfl
  | starting =>
    have sees : s.sees s.active := ⟨Nat.le_refl _, by have := inv.count; omega⟩
    cases may : s.mayStart job s.active with
    | false => exact .inr ⟨_, _, .full phase sees may⟩
    | true =>
      cases more : s.remaining with
      | nil => exact .inr ⟨_, _, .finished phase sees may more⟩
      | cons range rest => exact .inr ⟨_, _, .starts phase sees may more⟩
  | waiting =>
    rcases inv.underway phase with some | ⟨worker, mem, busy⟩
    · obtain ⟨⟨index, chunk⟩, channel, message⟩ := exists_cons_of_ne_nil some
      have pushed := push_ok (inv.accepted message) chunk
      exact .inr ⟨_, _, .receives phase message pushed⟩
    · obtain ⟨task, there⟩ := getElem?_of_mem mem
      cases worker with
      | running chunk => exact .inr ⟨_, _, .finishes there⟩
      | sending chunk => exact .inr ⟨_, _, .sends there⟩
      | sent => simp [Worker.isRunning, Worker.isSending] at busy
  | yielding =>
    cases popped : s.drain.pop with
    | some next => exact .inr ⟨_, _, .yields phase popped⟩
    | none =>
      rcases Nat.lt_or_ge s.drain.cursor job.totalChunks with more | spent
      · exact .inr ⟨_, _, .loops phase popped more⟩
      · exact .inr ⟨_, _, .ends phase popped spent⟩
  | whole | failed error | panicked =>
    rw [phase] at fits
    exact fits.elim

end Inv

/-! ## Delivery -/

/-- A download in order: at most `parallel` requests run, the drain rejects nothing, the chunks
come in order and all of them in the end, and the stream waits only for what is on its way. -/
structure Orderly (job : Job ρ α) (s : State ρ α) : Prop where
  running : s.active ≤ job.parallel
  accepted : (∀ error, s.phase ≠ .failed error) ∧ s.phase ≠ .panicked
  inOrder : s.output <+: job.chunks
  waits : s.phase = .waiting → s.channel ≠ [] ∨
    ∃ worker ∈ s.workers, worker.isRunning = true ∨ worker.isSending = true
  goesOn : s.phase = .ended ∨ ∃ e s', Step job s e s'
  complete : s.phase = .ended → s.output = job.chunks

/-- Whatever the order and timing of the requests, the download is in order, and is over after a
bounded number of steps. -/
def Delivers (job : Job ρ α) : Prop :=
  ∃ bound, ∀ events s, Run (Step job) (start job) events s → Orderly job s ∧ events.length ≤ bound

section Delivers

variable {job : Job ρ α} {s : State ρ α}

theorem Inv.orderly (inv : Inv job s) : Orderly job s := by
  have fits := inv.phase
  refine ⟨inv.active, ⟨?_, ?_⟩, ?_, inv.underway, inv.goesOn, ?_⟩
  · intro error failed
    rw [failed] at fits
    exact fits
  · intro panicked
    rw [panicked] at fits
    exact fits
  · rw [inv.output]
    exact take_prefix _ _
  · intro ended
    rw [ended] at fits
    rw [inv.output, show s.drain.cursor = job.totalChunks from fits, ← job.length_chunks,
      take_length]

theorem start_some {drain : SequentialBoundedDrain α} (computed : ¬ job.Overflows)
    (more : job.ranges ≠ []) (new : SequentialBoundedDrain.new job.slot job.maxBuffers = some drain) :
    start job =
      { drain, remaining := job.ranges, workers := [.running job.initial], phase := .starting } := by
  obtain ⟨range, rest, ranges⟩ := exists_cons_of_ne_nil more
  rw [start, if_neg computed]
  rw [ranges]
  rw [new]

theorem inv_start (computed : ¬ job.Overflows) (more : job.ranges ≠ [])
    (positive : 0 < job.maxBuffers) (fits : job.maxBuffers * job.slot ≤ isizeMax) :
    Inv job (start job) := by
  have new : SequentialBoundedDrain.new job.slot job.maxBuffers =
      some (⟨replicate job.maxBuffers none, 0⟩ : SequentialBoundedDrain α) := if_pos fits
  obtain ⟨cursor, room, absent⟩ := get_new new 0
  rw [start_some computed more new]
  refine ⟨?_, Tasks.first positive new, by simp, by simp, ?_, by simp, ?_, ?_, ?_⟩
  · rw [room]
    exact positive
  · simp [Job.totalChunks, Nat.add_comm]
  · exact job.nonZero
  · rfl
  · exact ⟨absent, Nat.succ_pos _⟩

theorem delivers_whole (computed : ¬ job.Overflows) (none : job.ranges = []) : Delivers job := by
  have chunks : job.chunks = [job.initial] := by simp [Job.chunks, none]
  have first : Orderly job ({ phase := .whole } : State ρ α) := by
    refine ⟨Nat.zero_le _, ⟨nofun, nofun⟩, nil_prefix, nofun, ?_, nofun⟩
    exact .inr ⟨_, _, .handsOn rfl⟩
  have last : Orderly job ({ phase := .ended, output := [job.initial] } : State ρ α) := by
    refine ⟨Nat.zero_le _, ⟨nofun, nofun⟩, ?_, nofun, .inl rfl, fun _ => chunks.symm⟩
    exact chunks.symm ▸ prefix_refl _
  refine ⟨1, fun events s run => ?_⟩
  rw [start, if_neg computed, none] at run
  cases run with
  | nil => exact ⟨first, Nat.zero_le _⟩
  | cons step rest =>
    cases step with
    | handsOn whole =>
      cases rest with
      | nil => exact ⟨last, Nat.le_refl _⟩
      | cons step rest =>
        cases step with
        | handsOn | starts | finished | full | receives | rejects | closes | yields | loops
        | ends => contradiction
        | finishes running => cases running
        | sends sending => cases sending
    | starts | finished | full | receives | rejects | closes | yields | loops | ends =>
      contradiction
    | finishes running => cases running
    | sends sending => cases sending

/-- A drain without slots rejects the first chunk. -/
theorem rejects_first (computed : ¬ job.Overflows) (more : job.ranges ≠ [])
    (none : job.maxBuffers = 0) :
    ∃ events s error, Run (Step job) (start job) events s ∧ s.phase = .failed error := by
  have new : SequentialBoundedDrain.new job.slot job.maxBuffers =
      some (⟨[], 0⟩ : SequentialBoundedDrain α) := by
    rw [none, SequentialBoundedDrain.new, if_pos (by rw [Nat.zero_mul]; exact Nat.zero_le _)]
    rfl
  rw [start_some computed more new]
  exact ⟨[.full 1, .finish 0, .send 0, .receive], _, _,
    .cons (.full rfl ⟨Nat.le_refl _, Nat.le_refl _⟩ rfl) <| .cons (.finishes rfl) <|
      .cons (.sends rfl) <| .cons (.rejects rfl rfl rfl) (.nil _), rfl⟩

/-- The multiplication does not panic, and the drain is as large as it has to be and can be, or is not
needed. -/
theorem Delivers.capacity (delivers : Delivers job) : ¬ job.Overflows ∧
    (job.ranges = [] ∨ 0 < job.maxBuffers ∧ job.maxBuffers * job.slot ≤ isizeMax) := by
  obtain ⟨bound, orderly⟩ := delivers
  have starts := (orderly [] (start job) (.nil _)).1.accepted.2
  have computed : ¬ job.Overflows := fun overflows => starts (by rw [start, if_pos overflows])
  refine ⟨computed, ?_⟩
  by_cases none : job.ranges = []
  · exact .inl none
  refine .inr ⟨?_, ?_⟩
  · apply Nat.pos_of_ne_zero
    intro zero
    obtain ⟨events, s, error, run, failed⟩ := rejects_first computed none zero
    exact (orderly events s run).1.accepted.1 error failed
  · refine Decidable.byContradiction fun large => starts ?_
    have new : SequentialBoundedDrain.new (α := α) job.slot job.maxBuffers = .none := if_neg large
    obtain ⟨range, rest, ranges⟩ := exists_cons_of_ne_nil none
    rw [start, if_neg computed]
    rw [ranges]
    rw [new]

theorem delivers_of_capacity (computed : ¬ job.Overflows)
    (capacity : job.ranges = [] ∨ 0 < job.maxBuffers ∧ job.maxBuffers * job.slot ≤ isizeMax) :
    Delivers job := by
  by_cases none : job.ranges = []
  · exact delivers_whole computed none
  · obtain ⟨positive, fits⟩ := capacity.resolve_left none
    have first := inv_start computed none positive fits
    refine ⟨measure job (start job), fun events s run => ⟨?_, ?_⟩⟩
    · exact (run.invariant (P := Inv job) (fun inv step => (inv_step inv step).1) first).orderly
    · exact run.length_le (P := Inv job) (fun inv step => (inv_step inv step).1)
        (fun inv step => (inv_step inv step).2) first

/-- **All chunks come, in order, exactly if twice the parallelism is computed without a panic, the drain
has a slot and a vector can have that many.** -/
theorem download_delivers_iff (job : Job ρ α) :
    Delivers job ↔ (job.overflowChecks = true → job.parallel < 2 ^ 63) ∧
      (job.ranges = [] ∨ 0 < job.maxBuffers ∧ job.maxBuffers * job.slot ≤ isizeMax) := by
  have computed : ¬ job.Overflows ↔ (job.overflowChecks = true → job.parallel < 2 ^ 63) := by
    rw [Job.Overflows, not_and]
    refine imp_congr_right fun _ => ?_
    unfold usizeModulus
    omega
  rw [← computed]
  exact ⟨Delivers.capacity, fun capacity => delivers_of_capacity capacity.1 capacity.2⟩

end Delivers

/-- `2 ^ 63` requests at a time. -/
def crowded (overflowChecks : Bool) : Job Unit Unit where
  initial := ()
  ranges := [()]
  fetch := id
  parallel := 2 ^ 63
  nonZero := by decide
  usize := by decide
  slot := 32
  overflowChecks

/-- Twice as many buffers are none, or a panic. -/
theorem crowded_download_fails : ¬ Delivers (crowded false) ∧ ¬ Delivers (crowded true) := by
  constructor
  all_goals
    intro delivers
    obtain ⟨-, none | ⟨positive, -⟩⟩ := delivers.capacity
    · cases none
    · exact absurd positive (by decide)

end DownloadStream

end AzureSdk.Storage
