/-
# Storage.DownloadInto — a download into a buffer

`download_into` copies the only response, or goes through the ranges one by one, or has workers
send the pieces of all responses through a channel, each with the offset where it goes, in
whatever order they come.  In the last case every piece that is still to be written is one the
buffer needs and has not, or has already (`Inv`); once no piece is left, the buffer has all bytes.

`downloads_agree_iff` says when the stream and the buffer both have the bytes that were asked for.
-/
import AzureSdk.Storage.Download
import Mathlib.Algebra.BigOperators.Group.List.Basic

namespace AzureSdk.Storage

open Core Theory List

namespace DownloadInto

/-- What a worker sends: bytes and where they go, or an error. -/
abbrev Message := Result (Nat × Bytes)

def bodyToChannel (offset : Nat) : List Bytes → List Message
  | [] => []
  | bytes :: rest => .ok (offset, bytes) :: bodyToChannel (offset + bytes.length) rest

def startDownloadTaskChannel (service : Service) (range : Nat × Nat) (offset : Nat) :
    List Message :=
  match service.transferRange range with
  | .ok response => bodyToChannel offset response.body
  | .error error => [.error error]

def insufficientBufferErr : Error := ⟨.io, "Insufficient buffer length."⟩

def missingBytesErr (expected actual : Nat) : Error :=
  ⟨.other, "Download incomplete. Expected to read " ++ toString expected ++ " bytes, but read " ++
    toString actual ++
    " bytes. Bytes may not have been written to buffer in the correct positions."⟩

/-! ## One range after the other -/

/-- The loop for `parallel == 1`. -/
def sequential (service : Service) : List (Nat × Nat) → Bytes × Nat → Result (Bytes × Nat)
  | [], read => .ok read
  | range :: rest, (buffer, totalRead) => do
    let response ← service.transferRange range
    let (tail, read) ← collectInto (buffer.drop totalRead) response.body
    sequential service rest (buffer.take totalRead ++ tail, totalRead + read)

/-! ## All at once -/

/-- What the workers and the loop over the channel share. -/
structure Transfer where
  service : Service
  parallel : Nat
  overall : Nat × Nat

inductive Event
  | start
  | join (worker : Nat)
  | send (worker : Nat)
  | receive
  | closed
  deriving DecidableEq, Repr

/-- The ranges the manager has not started, what its workers have still to send, the channel, and
the loop that writes. -/
structure State where
  pending : List (Nat × Nat)
  workers : List (List Message)
  channel : List Message := []
  buffer : Bytes
  totalRead : Nat := 0
  result : Option (Result Nat) := none

namespace Transfer

variable (t : Transfer)

/-- What the worker of a range sends. -/
def messages (range : Nat × Nat) : List Message :=
  startDownloadTaskChannel t.service range (range.1 - t.overall.1)

/-- `expected_total_read`. -/
def expected : Nat := t.overall.2 - t.overall.1

end Transfer

/-- The body of the loop over the channel. -/
def State.write (s : State) : Message → State
  | .error error => { s with result := some (.error error) }
  | .ok (offset, bytes) =>
    if s.buffer.length < offset + bytes.length then
      { s with result := some (.error insufficientBufferErr) }
    else
      { s with
        buffer := writeAt s.buffer offset bytes, totalRead := s.totalRead + bytes.length }

/-- What is returned once the channel is closed. -/
def Transfer.finish (t : Transfer) (s : State) : Result Nat :=
  if t.expected ≠ s.totalRead then .error (missingBytesErr t.expected s.totalRead)
  else .ok s.totalRead

/-- One step of the manager, of a worker, or of the loop. -/
inductive Step (t : Transfer) : State → Event → State → Prop
  | starts {s : State} {range : Nat × Nat} {rest : List (Nat × Nat)}
    (more : s.pending = range :: rest) (room : s.workers.length < t.parallel) :
    Step t s .start { s with pending := rest, workers := s.workers ++ [t.messages range] }
  | joins {s : State} {worker : Nat} (more : s.pending ≠ []) (full : t.parallel ≤ s.workers.length)
    (spent : s.workers[worker]? = some []) :
    Step t s (.join worker) { s with workers := s.workers.eraseIdx worker }
  | sends {s : State} {worker : Nat} {message : Message} {rest : List Message}
    (sending : s.workers[worker]? = some (message :: rest)) :
    Step t s (.send worker) { s with
      workers := s.workers.set worker rest, channel := s.channel ++ [message] }
  | receives {s : State} {message : Message} {channel : List Message} (running : s.result = none)
    (next : s.channel = message :: channel) :
    Step t s .receive ({ s with channel }.write message)
  | closes {s : State} (running : s.result = none) (none : s.pending = [])
    (spent : ∀ worker ∈ s.workers, worker = []) (empty : s.channel = []) :
    Step t s .closed { s with result := some (t.finish s) }

/-- The start: the worker of the first response runs.  A manager that cannot have a vector for its
workers panics, and the channel is closed. -/
def start (t : Transfer) (task : Nat) (response : Response) (ranges : List (Nat × Nat))
    (buffer : Bytes) : State :=
  if t.parallel * task ≤ isizeMax then
    { pending := ranges, workers := [bodyToChannel 0 response.body], buffer }
  else { pending := [], workers := [], buffer }

end DownloadInto

open DownloadInto

/-- How `download_into` goes on: it returns, or workers transfer the bytes. -/
inductive Into
  | returns (result : Result (Bytes × Nat))
  | transfers (t : Transfer) (s : DownloadInto.State)

/-- `download_into`; `task` is the size of a task's handle. -/
def downloadInto (service : Service) (range : Option HttpRange)
    (parallel partitionSize : NonZeroUsize) (task : Nat) (buffer : Bytes) : Into :=
  match getInitialResponseAndAnalyze service range partitionSize.get with
  | .error error => .returns (.error error)
  | .ok (response, none) => .returns (collectInto buffer response.body)
  | .ok (response, some analysis) =>
    let t : Transfer := ⟨service, parallel.get, analysis.overallDownloadRange⟩
    if buffer.length < t.expected then .returns (.error insufficientBufferErr)
    else if parallel.get = 1 then
      .returns do
        let read ← collectInto buffer response.body
        let (buffer, totalRead) ← sequential service analysis.remainingDownloadRanges read
        if t.expected ≠ totalRead then .error (missingBytesErr t.expected totalRead)
        else .ok (buffer, totalRead)
    else .transfers t (start t task response analysis.remainingDownloadRanges buffer)

/-- The bytes get into the buffer, in whatever order the workers send them. -/
def Into.Fills (bytes buffer : Bytes) : Into → Prop
  | .returns result => result = .ok (bytes ++ buffer.drop bytes.length, bytes.length)
  | .transfers t s =>
    ∃ bound, ∀ events s', Run (Step t) s events s' →
      events.length ≤ bound ∧
      (∀ result, s'.result = some result →
        result = .ok bytes.length ∧ s'.buffer = bytes ++ buffer.drop bytes.length) ∧
      (s'.result = none → ∃ e s'', Step t s' e s'')

namespace DownloadInto

/-! ## The sequential loop -/

theorem sequential_ok {service : Service} {stop : Nat} (inside : stop ≤ service.blob.length)
    {middle : Nat} {ranges : List (Nat × Nat)} (tiles : Tiles stop middle ranges) :
    ∀ {buffer : Bytes} {totalRead : Nat}, totalRead + (stop - middle) ≤ buffer.length →
      sequential service ranges (buffer, totalRead) =
        .ok (writeAt buffer totalRead (service.blob.extract middle stop),
          totalRead + (stop - middle)) := by
  induction tiles with
  | nil =>
    intro buffer totalRead room
    rw [extract_eq_take_drop, Nat.sub_self, take_zero, writeAt_nil]
    rfl
  | @cons middle next rest lt le more ih =>
    intro buffer totalRead room
    have length := length_extract middle (Nat.le_trans le inside)
    have first : totalRead + (service.blob.extract middle next).length ≤ buffer.length := by
      omega
    rw [sequential, Service.transferRange_ok lt (Nat.le_trans le inside)]
    show (collectInto (buffer.drop totalRead) (service.respond (middle, next)).body >>= _) = _
    rw [collectInto_respond (Nat.le_trans le inside) (by rw [length_drop]; omega)]
    show sequential service rest (buffer.take totalRead ++ writeAt (buffer.drop totalRead) 0
      (service.blob.extract middle next), totalRead + (next - middle)) = _
    rw [take_append_writeAt, ih (by rw [length_writeAt first]; omega),
      ← extract_append _ (Nat.le_of_lt lt) le, ← writeAt_append first, length, Nat.add_assoc,
      show next - middle + (stop - next) = stop - middle by omega]

/-! ## Messages -/

/-- A message has the bytes of the target that go where it says. -/
def Right (target : Bytes) (message : Message) : Prop :=
  ∃ offset bytes, message = .ok (offset, bytes) ∧ offset + bytes.length ≤ target.length ∧
    bytes = target.extract offset (offset + bytes.length)

def Covers (i : Nat) (message : Message) : Prop :=
  ∃ offset bytes, message = .ok (offset, bytes) ∧ offset ≤ i ∧ i < offset + bytes.length

def size : Message → Nat
  | .ok (_, bytes) => bytes.length
  | .error _ => 0

/-- The messages have the bytes of the target from `start` to `stop`. -/
structure Carries (target : Bytes) (start stop : Nat) (messages : List Message) : Prop where
  right : ∀ message ∈ messages, Right target message
  covers : ∀ i, start ≤ i → i < stop → ∃ message ∈ messages, Covers i message
  total : (messages.map size).sum = stop - start

section Carries

variable {target : Bytes} {start middle stop : Nat} {first second : List Message}

theorem Carries.nil : Carries target start start [] :=
  ⟨nofun, fun i low high => by omega, by simp⟩

theorem Carries.append (left : Carries target start middle first)
    (right : Carries target middle stop second) (low : start ≤ middle) (high : middle ≤ stop) :
    Carries target start stop (first ++ second) := by
  refine ⟨forall_mem_append.mpr ⟨left.right, right.right⟩, ?_, ?_⟩
  · intro i above below
    by_cases before : i < middle
    · obtain ⟨message, mem, covers⟩ := left.covers i above before
      exact ⟨message, mem_append_left _ mem, covers⟩
    · obtain ⟨message, mem, covers⟩ := right.covers i (by omega) below
      exact ⟨message, mem_append_right _ mem, covers⟩
  · rw [map_append, sum_append, left.total, right.total]
    omega

theorem carries_bodyToChannel (target : Bytes) : ∀ (body : List Bytes) (start : Nat),
    start + body.flatten.length ≤ target.length →
    body.flatten = target.extract start (start + body.flatten.length) →
      Carries target start (start + body.flatten.length) (bodyToChannel start body)
  | [], start, _, _ => .nil
  | bytes :: rest, start, room, same => by
    rw [flatten_cons, length_append] at room same ⊢
    rw [← Nat.add_assoc] at room same ⊢
    have length := length_extract start (show start + bytes.length ≤ target.length by omega)
    rw [← extract_append target (Nat.le_add_right start bytes.length)
      (Nat.le_add_right _ rest.flatten.length)] at same
    obtain ⟨here, later⟩ := append_inj same (by omega)
    have one : Carries target start (start + bytes.length) [.ok (start, bytes)] := by
      refine ⟨?_, ?_, ?_⟩
      · intro message mem
        rw [mem_singleton.mp mem]
        exact ⟨start, bytes, rfl, by omega, here⟩
      · intro i low high
        exact ⟨_, .head _, start, bytes, rfl, low, high⟩
      · simp [size]
    exact one.append (carries_bodyToChannel target rest _ room later) (by omega) (by omega)

end Carries

section Messages

variable {service : Service} {start middle stop : Nat}

theorem carries_response (low : start ≤ middle) {next : Nat} (lt : middle ≤ next) (le : next ≤ stop)
    (inside : stop ≤ service.blob.length) :
    Carries (service.blob.extract start stop) (middle - start) (next - start)
      (bodyToChannel (middle - start) (service.pieces (middle, next))) := by
  have flatten := service.flatten_pieces (middle, next)
  have length : (service.pieces (middle, next)).flatten.length = next - middle := by
    rw [flatten, length_extract middle (Nat.le_trans le inside)]
  have upto : middle - start + (next - middle) = next - start := by omega
  have carries := carries_bodyToChannel (service.blob.extract start stop)
    (service.pieces (middle, next)) (middle - start)
  rw [length, upto] at carries
  apply carries
  · rw [length_extract start inside]
    omega
  · rw [extract_extract _ low le]
    exact flatten

theorem carries_pending {t : Transfer} (low : t.overall.1 ≤ middle)
    (inside : stop ≤ t.service.blob.length) {ranges : List (Nat × Nat)}
    (tiles : Tiles stop middle ranges) :
    Carries (t.service.blob.extract t.overall.1 stop) (middle - t.overall.1) (stop - t.overall.1)
      (ranges.flatMap t.messages) := by
  induction tiles with
  | nil => exact .nil
  | @cons middle next rest lt le more ih =>
    have first : t.messages (middle, next) =
        bodyToChannel (middle - t.overall.1) (t.service.pieces (middle, next)) := by
      rw [Transfer.messages, startDownloadTaskChannel,
        Service.transferRange_ok lt (Nat.le_trans le inside)]
      rfl
    rw [flatMap_cons, first]
    exact (carries_response low (Nat.le_of_lt lt) le inside).append (ih (by omega)) (by omega)
      (by omega)

end Messages

/-! ## The loop over the channel -/

/-- The messages that are still to be received. -/
def State.outstanding (t : Transfer) (s : State) : List Message :=
  s.channel ++ s.workers.flatten ++ s.pending.flatMap t.messages

/-- Every message that is outstanding is right, and every byte of the target is in one of them or
in the buffer. -/
structure Inv (t : Transfer) (target original : Bytes) (s : State) : Prop where
  right : ∀ message ∈ s.outstanding t, Right target message
  covered : ∀ i < target.length,
    (∃ message ∈ s.outstanding t, Covers i message) ∨ s.buffer[i]? = target[i]?
  total : s.totalRead + ((s.outstanding t).map size).sum = target.length
  length : s.buffer.length = original.length
  beyond : s.buffer.drop target.length = original.drop target.length
  result : ∀ result, s.result = some result →
    result = .ok target.length ∧ s.buffer = target ++ original.drop target.length

section Inv

variable {t : Transfer} {target original : Bytes} {s s' : State}

theorem Inv.perm (inv : Inv t target original s) (perm : (s'.outstanding t).Perm (s.outstanding t))
    (buffer : s'.buffer = s.buffer) (totalRead : s'.totalRead = s.totalRead)
    (result : s'.result = s.result) : Inv t target original s' := by
  refine ⟨?_, ?_, ?_, ?_, ?_, ?_⟩
  · intro message mem
    exact inv.right message (perm.mem_iff.mp mem)
  · intro i inside
    rw [buffer]
    rcases inv.covered i inside with ⟨message, mem, covers⟩ | there
    · exact .inl ⟨message, perm.mem_iff.mpr mem, covers⟩
    · exact .inr there
  · rw [totalRead, (perm.map size).sum_eq]
    exact inv.total
  · rw [buffer]
    exact inv.length
  · rw [buffer]
    exact inv.beyond
  · rw [buffer, result]
    exact inv.result

theorem flatten_eraseIdx : ∀ {workers : List (List Message)} {worker : Nat},
    workers[worker]? = some [] → (workers.eraseIdx worker).flatten = workers.flatten
  | [], _, spent => by cases spent
  | _ :: _, 0, spent => by
    cases spent
    rfl
  | first :: rest, worker + 1, spent => by
    rw [getElem?_cons_succ] at spent
    rw [eraseIdx_cons_succ, flatten_cons, flatten_cons, flatten_eraseIdx spent]

theorem flatten_set {message : Message} {later : List Message} :
    ∀ {workers : List (List Message)} {worker : Nat}, workers[worker]? = some (message :: later) →
      workers.flatten.Perm (message :: (workers.set worker later).flatten)
  | [], _, sending => by cases sending
  | _ :: _, 0, sending => by
    cases sending
    rfl
  | first :: rest, worker + 1, sending => by
    rw [getElem?_cons_succ] at sending
    exact ((flatten_set sending).append_left first).trans perm_middle

theorem Inv.receives (inv : Inv t target original s) (room : target.length ≤ original.length)
    {message : Message} {channel : List Message} (running : s.result = none)
    (next : s.channel = message :: channel) :
    Inv t target original ({ s with channel }.write message) := by
  have before : s.outstanding t = message :: ({ s with channel } : State).outstanding t := by
    unfold State.outstanding
    rw [next]
    rfl
  obtain ⟨offset, bytes, rfl, inside, same⟩ :=
    inv.right message (before ▸ mem_cons_self)
  have length := inv.length
  have written : ({ s with channel } : State).write (.ok (offset, bytes)) =
      { s with
        channel, buffer := writeAt s.buffer offset bytes,
        totalRead := s.totalRead + bytes.length } := by
    rw [State.write, if_neg (show ¬ s.buffer.length < offset + bytes.length by omega)]
  rw [written]
  have there := getElem?_writeAt (l := s.buffer) (show offset + bytes.length ≤ s.buffer.length by omega)
  refine ⟨?_, ?_, ?_, ?_, ?_, ?_⟩
  · intro other mem
    refine inv.right other ?_
    rw [before]
    exact .tail _ mem
  · intro i below
    by_cases here : offset ≤ i ∧ i < offset + bytes.length
    · refine .inr ?_
      show (writeAt s.buffer offset bytes)[i]? = _
      rw [there, if_pos here, same, getElem?_extract _ (by omega), Nat.add_sub_cancel' here.1]
    · rcases inv.covered i below with ⟨other, mem, covers⟩ | already
      · rw [before] at mem
        rcases mem_cons.mp mem with rfl | mem
        · obtain ⟨offset', bytes', same', covers⟩ := covers
          cases same'
          exact absurd covers here
        · exact .inl ⟨other, mem, covers⟩
      · refine .inr ?_
        show (writeAt s.buffer offset bytes)[i]? = _
        rw [there, if_neg here]
        exact already
  · have total := inv.total
    rw [before, map_cons, sum_cons] at total
    show s.totalRead + bytes.length + _ = _
    rw [Nat.add_assoc]
    exact total
  · show (writeAt s.buffer offset bytes).length = _
    rw [length_writeAt (by omega), length]
  · rw [← inv.beyond]
    show (writeAt s.buffer offset bytes).drop target.length = s.buffer.drop target.length
    apply ext_getElem?
    intro i
    rw [getElem?_drop, getElem?_drop, there, if_neg (by omega)]
  · intro result returned
    rw [show s.result = some result from returned] at running
    cases running

theorem Inv.closes (inv : Inv t target original s) (expected : t.expected = target.length)
    (none : s.pending = []) (spent : ∀ worker ∈ s.workers, worker = []) (empty : s.channel = []) :
    Inv t target original { s with result := some (t.finish s) } := by
  have nothing : s.outstanding t = [] := by
    unfold State.outstanding
    rw [none, empty, flatten_eq_nil_iff.mpr spent]
    rfl
  have total : s.totalRead = target.length := by
    have total := inv.total
    rw [nothing] at total
    exact total
  refine ⟨inv.right, inv.covered, inv.total, inv.length, inv.beyond, ?_⟩
  intro result returned
  obtain rfl := Option.some.inj returned
  constructor
  · rw [Transfer.finish, if_neg (by rw [expected, total]; exact fun h => h rfl), total]
  · show s.buffer = _
    rw [← inv.beyond]
    refine eq_append_drop fun i inside => ?_
    rcases inv.covered i inside with ⟨message, mem, _⟩ | there
    · rw [nothing] at mem
      cases mem
    · exact there

theorem inv_step (room : target.length ≤ original.length) (expected : t.expected = target.length)
    {e : Event} (inv : Inv t target original s) (step : Step t s e s') : Inv t target original s' := by
  cases step with
  | starts more _ =>
    refine inv.perm (.of_eq ?_) rfl rfl rfl
    simp [State.outstanding, more]
  | joins _ _ spent =>
    refine inv.perm (.of_eq ?_) rfl rfl rfl
    simp only [State.outstanding, flatten_eraseIdx spent]
  | @sends worker message rest sending =>
    refine inv.perm ?_ rfl rfl rfl
    show (s.channel ++ [message] ++ (s.workers.set worker rest).flatten ++ _).Perm _
    rw [append_assoc s.channel]
    exact (((flatten_set sending).symm).append_left s.channel).append_right _
  | receives running next => exact inv.receives room running next
  | closes _ none spent empty => exact inv.closes expected none spent empty

/-- The steps that are left: a message is sent and received, a worker is started and joined. -/
def measure (t : Transfer) (s : State) : Nat :=
  2 * (s.workers.flatten.length + (s.pending.flatMap t.messages).length) + s.channel.length +
    2 * s.pending.length + s.workers.length + (if s.result = none then 1 else 0)

theorem measure_step {e : Event} (step : Step t s e s') : measure t s' < measure t s := by
  cases step with
  | @starts range rest more room =>
    simp only [measure, more, flatten_append, length_append, flatMap_cons,
      length_cons, flatten_cons, flatten_nil, length_nil, append_nil]
    omega
  | @joins worker _ _ spent =>
    obtain ⟨inside, _⟩ := List.getElem?_eq_some_iff.mp spent
    simp only [measure, flatten_eraseIdx spent, length_eraseIdx_of_lt inside]
    omega
  | @sends worker message rest sending =>
    have one := (flatten_set sending).length_eq
    rw [length_cons] at one
    simp only [measure, length_set, length_append, length_singleton]
    omega
  | @receives message channel running next =>
    have kept : ∀ message, measure t (({ s with channel } : State).write message) ≤
        measure t { s with channel } := by
      intro message
      unfold State.write measure
      split
      · simp
      · split
        · simp
        · exact Nat.le_refl _
    refine Nat.lt_of_le_of_lt (kept message) ?_
    simp only [measure, next, length_cons]
    omega
  | closes running none spent empty =>
    simp only [measure, running]
    simp

/-- Until the result is there, something can happen. -/
theorem goesOn (positive : 0 < t.parallel) (running : s.result = none) : ∃ e s', Step t s e s' := by
  cases next : s.channel with
  | cons message channel => exact ⟨_, _, .receives running next⟩
  | nil =>
    by_cases spent : ∀ worker ∈ s.workers, worker = []
    · cases more : s.pending with
      | nil => exact ⟨_, _, .closes running more spent next⟩
      | cons range rest =>
        by_cases room : s.workers.length < t.parallel
        · exact ⟨_, _, .starts more room⟩
        · have full := Nat.le_of_not_lt room
          have some : 0 < s.workers.length := Nat.lt_of_lt_of_le positive full
          have first : s.workers[0]? = .some [] := by
            rw [List.getElem?_eq_getElem some, spent _ (getElem_mem some)]
          refine ⟨_, _, .joins ?_ full first⟩
          rw [more]
          exact cons_ne_nil _ _
    · push Not at spent
      obtain ⟨worker, mem, busy⟩ := spent
      obtain ⟨message, rest, rfl⟩ := exists_cons_of_ne_nil busy
      obtain ⟨i, sending⟩ := mem_iff_getElem?.mp mem
      exact ⟨_, _, .sends sending⟩

theorem Inv.fills (inv : Inv t target original s) (room : target.length ≤ original.length)
    (expected : t.expected = target.length) (positive : 0 < t.parallel) :
    (Into.transfers t s).Fills target original := by
  refine ⟨measure t s, fun events s' run => ⟨?_, ?_, goesOn positive⟩⟩
  · exact run.length_le (P := fun _ => True) (fun _ _ => trivial) (fun _ step => measure_step step)
      trivial
  · exact (run.invariant (P := Inv t target original) (inv_step room expected) inv).result

/-- Where the manager panics, nothing is received. -/
theorem panicked_does_not_fill {bytes buffer : Bytes} (expected : 0 < t.expected) :
    ¬ (Into.transfers t { pending := [], workers := [], buffer }).Fills bytes buffer := by
  rintro ⟨bound, fills⟩
  have run : Run (Step t) { pending := [], workers := [], buffer } [.closed] _ :=
    .single (.closes rfl rfl nofun rfl)
  obtain ⟨_, right, _⟩ := fills _ _ run
  have returned := (right _ rfl).1
  rw [Transfer.finish, if_pos (by show t.expected ≠ 0; omega)] at returned
  cases returned

end Inv

end DownloadInto

section Agree

variable {service : Service} {range : Option HttpRange} {parallel partitionSize : NonZeroUsize}
variable {start middle stop : Nat} {buffer : Bytes}

namespace Opening

variable (opening : Opening service range partitionSize.get start middle stop)
include opening

theorem sequential_fills (room : stop - start ≤ buffer.length) :
    (do
      let read ← collectInto buffer (service.respond (start, middle)).body
      sequential service (cutRange middle stop partitionSize.get) read) =
      .ok (service.blob.extract start stop ++ buffer.drop (stop - start), stop - start) := by
  have after := opening.nonempty
  have upto := opening.upto
  have length := length_extract start (Nat.le_trans upto opening.inside)
  have first : 0 + (service.blob.extract start middle).length ≤ buffer.length := by
    omega
  have joined := writeAt_append first (service.blob.extract middle stop)
  rw [length, Nat.zero_add, extract_append _ (Nat.le_of_lt after) upto] at joined
  rw [collectInto_respond (Nat.le_trans upto opening.inside) (by omega)]
  show sequential service (cutRange middle stop partitionSize.get)
    (writeAt buffer 0 (service.blob.extract start middle), middle - start) = _
  rw [sequential_ok opening.inside opening.tiles (by rw [length_writeAt first]; omega), joined,
    show middle - start + (stop - middle) = stop - start by omega, writeAt,
    length_extract start opening.inside, Nat.zero_add]
  rfl

theorem inv_start :
    Inv ⟨service, parallel.get, (start, stop)⟩ (service.blob.extract start stop) buffer
      { pending := cutRange middle stop partitionSize.get,
        workers := [bodyToChannel 0 (service.pieces (start, middle))], buffer } := by
  have after := opening.nonempty
  have upto := opening.upto
  have first := carries_response (Nat.le_refl start) (Nat.le_of_lt after) upto opening.inside
  rw [Nat.sub_self] at first
  have rest := carries_pending (t := ⟨service, parallel.get, (start, stop)⟩) (Nat.le_of_lt after)
    opening.inside opening.tiles
  have all := first.append rest (Nat.zero_le _) (by show middle - start ≤ stop - start; omega)
  refine ⟨?_, ?_, ?_, rfl, rfl, nofun⟩
  · simpa [State.outstanding] using all.right
  · intro i inside
    rw [length_extract start opening.inside] at inside
    obtain ⟨message, mem, covers⟩ := all.covers i (Nat.zero_le _) inside
    exact .inl ⟨message, by simpa [State.outstanding] using mem, covers⟩
  · have total := all.total
    rw [length_extract start opening.inside]
    simpa [State.outstanding] using total

/-- The buffer is filled exactly if there is one request at a time or a vector can have the
handles of all workers. -/
theorem fills_iff (parallel : NonZeroUsize) (task : Nat) (room : stop - start ≤ buffer.length) :
    (downloadInto service range parallel partitionSize task buffer).Fills
        (Storage.requested service.blob range) buffer ↔
      parallel.get = 1 ∨ parallel.get * task ≤ isizeMax := by
  have after := opening.nonempty
  have upto := opening.upto
  have length := length_extract start opening.inside
  have expected : Transfer.expected ⟨service, parallel.get, (start, stop)⟩ = stop - start := rfl
  rw [downloadInto, opening.analysis, opening.requested]
  dsimp only
  rw [expected, if_neg (by omega)]
  by_cases one : parallel.get = 1
  · rw [if_pos one]
    refine iff_of_true ?_ (.inl one)
    obtain ⟨read, first, rest⟩ := bind_ok (opening.sequential_fills room)
    show (collectInto buffer _ >>= _) = _
    rw [first]
    show (sequential service _ read >>= _) = _
    rw [rest, length]
    exact if_neg fun different => different rfl
  · rw [if_neg one]
    by_cases fits : parallel.get * task ≤ isizeMax
    · refine iff_of_true ?_ (.inr fits)
      rw [DownloadInto.start, if_pos fits]
      exact opening.inv_start.fills (by rw [length]; exact room) length.symm parallel.nonZero
    · refine iff_of_false ?_ (by simp [one, fits])
      rw [DownloadInto.start, if_neg fits]
      exact panicked_does_not_fill (by rw [expected]; omega)

end Opening

/-- The stream and the buffer both have the bytes that were asked for. -/
structure Agree (service : Service) (range : Option HttpRange) (parallel partitionSize : NonZeroUsize)
    (slot task : Nat) (buffer : Bytes) : Prop where
  stream : ∃ d job, download service range partitionSize = .ok d ∧
    d.Yields parallel slot (requested service.blob range) job
  into : (downloadInto service range parallel partitionSize task buffer).Fills
    (requested service.blob range) buffer

/-- **The stream and the buffer have the bytes asked for exactly if the end of the range is a
`usize`, the first response has all bytes or a whole partition of them, and `parallel` is not too
large.** -/
theorem downloads_agree_iff (service : Service) (range : Option HttpRange)
    (parallel partitionSize : NonZeroUsize) (slot task : Nat) (buffer : Bytes)
    (wanted : requested service.blob range ≠ [])
    (large : (requested service.blob range).length ≤ buffer.length)
    (slice : buffer.length ≤ isizeMax) :
    Agree service range parallel partitionSize slot task buffer ↔
      Fits range ∧
      (service.given (initialRange (maxDownloadRange range) partitionSize.get) =
          (requested service.blob range).length ∨
        service.given (initialRange (maxDownloadRange range) partitionSize.get) =
            partitionSize.get ∧
          Capacity parallel slot) ∧
      (parallel.get = 1 ∨ parallel.get * task ≤ isizeMax) := by
  by_cases fits : Fits range
  · obtain ⟨start, middle, stop, opening⟩ := exists_opening partitionSize.nonZero fits wanted
    have given := opening.given
    have upto := opening.upto
    rw [opening.length_requested] at large ⊢
    have stream := opening.yields_iff parallel slot (Nat.le_trans large slice)
    have into := opening.fills_iff parallel task large
    have all : middle = stop ↔
        service.given (initialRange (maxDownloadRange range) partitionSize.get) = stop - start := by
      omega
    rw [show middle - start = service.given (initialRange (maxDownloadRange range)
      partitionSize.get) by omega, all] at stream
    constructor
    · intro agree
      exact ⟨fits, stream.mp agree.stream, into.mp agree.into⟩
    · rintro ⟨_, first, second⟩
      exact ⟨stream.mpr first, into.mpr second⟩
  · refine iff_of_false ?_ fun holds => fits holds.1
    rintro ⟨⟨d, job, got, _⟩, _⟩
    rw [download, getInitialResponseAndAnalyze] at got
    rw [if_pos (not_fits fits)] at got
    cases got

/-- Three bytes, of which the first response has at most `most`; each response comes in one
piece. -/
def threeBytes (most : Nat) (positive : 0 < most) : Service where
  blob := [1, 2, 3]
  usize := by decide
  given range := min most (min range.2 3 - range.1)
  given_pos range inside := by
    simp only [length_cons, length_nil] at inside
    omega
  given_le range inside := by
    simp only [length_cons, length_nil] at inside ⊢
    omega
  pieces range := [List.extract [1, 2, 3] range.1 range.2]
  flatten_pieces range := by simp

def two : NonZeroUsize := ⟨2, by decide, by decide⟩

theorem downloads_agree_iff_three :
    requested (threeBytes 2 (by decide)).blob none ≠ [] ∧
      Agree (threeBytes 2 (by decide)) none two two 32 16 [0, 0, 0] := by
  refine ⟨by decide, ?_⟩
  refine (downloads_agree_iff (threeBytes 2 (by decide)) none two two 32 16 [0, 0, 0] (by decide)
    (by decide) (by decide)).mpr ⟨trivial, .inr ⟨rfl, ?_⟩, .inr (by decide)⟩
  exact ⟨by decide, by decide⟩

theorem short_opening : Opening (threeBytes 1 (by decide)) none two.get 0 1 3 :=
  ⟨rfl, by decide, by decide, by decide, by decide, rfl, rfl⟩

/-- The first response has one byte of the two asked for, and a zero comes in place of the
other. -/
theorem short_response_padded :
    (∃ d job, download (threeBytes 1 (by decide)) none two = .ok d ∧
      d.Yields two 32 [1, 0, 2, 3] job) ∧
    ¬ Agree (threeBytes 1 (by decide)) none two two 32 16 [0, 0, 0] := by
  constructor
  · refine ⟨_, ⟨[1, 0], [(1, 3)], fun _ => [2, 3], 2, by decide, by decide, 32, false⟩,
      short_opening.download_parts (by decide), rfl, rfl, rfl, rfl, rfl, ?_, ?_, rfl⟩
    · intro range mem
      rw [mem_singleton.mp mem]
      rfl
    · exact DownloadStream.delivers_of_capacity nofun (.inr ⟨by decide, by decide⟩)
  · intro agree
    rcases (short_opening.yields_iff two 32 (by decide)).mp agree.stream with all | ⟨whole, _⟩
    · cases all
    · exact absurd whole (by decide)

end Agree

end AzureSdk.Storage
