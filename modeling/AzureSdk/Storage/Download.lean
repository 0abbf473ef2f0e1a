/-
# Storage.Download — the ranges and chunks of a download

A download asks for one partition first.  The response says how long the blob is, and the ranges
that remain are cut from where the response stopped.  `Opening` collects what follows from the
first response; `Opening.yields_iff` says when the stream that `download` returns has the bytes
that were asked for: the first chunk is a whole partition of zeros with the response written over
it, and keeps the zeros that the response left.
-/
import AzureSdk.Storage.DownloadStream
import AzureSdk.Theory.Except
import AzureSdk.Theory.Slice

namespace AzureSdk.Storage

open Core Theory List

abbrev Bytes := List UInt8

def usizeMax : Nat := usizeModulus - 1

/-- `NonZero<usize>`. -/
structure NonZeroUsize where
  get : Nat
  nonZero : 0 < get
  usize : get < usizeModulus

structure HttpRange where
  offset : UInt64
  length : Option UInt64
  deriving DecidableEq, Repr

/-- The range as `download` and `download_into` take it; the sum wraps around. -/
def HttpRange.bounds (range : HttpRange) : Nat × Nat :=
  match range.length with
  | some length => (range.offset.toNat, (range.offset + length).toNat)
  | none => (range.offset.toNat, usizeMax)

/-- A range with its end excluded, and the length of the blob. -/
structure ContentRange where
  range : Option (Nat × Nat)
  totalLen : Option Nat
  deriving DecidableEq, Repr

/-- A response; its body comes in pieces. -/
structure Response where
  contentRange : Option ContentRange
  body : List Bytes
  deriving DecidableEq, Repr

/-! ## The service -/

/-- A blob behind a service that answers the first range request with some of its bytes, from its
start on, and every later one with all of them. -/
structure Service where
  blob : Bytes
  usize : blob.length < usizeModulus
  /-- How many bytes the first request is answered with. -/
  given : Nat × Nat → Nat
  given_pos : ∀ range, range.1 < min range.2 blob.length → 0 < given range
  given_le : ∀ range, range.1 < min range.2 blob.length →
    range.1 + given range ≤ min range.2 blob.length
  /-- The pieces in which the bytes of a range come. -/
  pieces : Nat × Nat → List Bytes
  flatten_pieces : ∀ range, (pieces range).flatten = blob.extract range.1 range.2

namespace Service

variable (service : Service)

def respond (range : Nat × Nat) : Response :=
  ⟨some ⟨some range, some service.blob.length⟩, service.pieces range⟩

/-- `StatusCode::RequestedRangeNotSatisfiable`; only the status is read. -/
def rangeNotSatisfiable : Error := ⟨.httpResponse 416, "Requested Range Not Satisfiable"⟩

/-- The first `transfer_range`. -/
def transferFirst (range : Nat × Nat) : Result Response :=
  if range.1 < min range.2 service.blob.length then
    .ok (service.respond (range.1, range.1 + service.given range))
  else .error rangeNotSatisfiable

/-- `transfer_range` afterwards. -/
def transferRange (range : Nat × Nat) : Result Response :=
  if range.1 < min range.2 service.blob.length then
    .ok (service.respond (range.1, min range.2 service.blob.length))
  else .error rangeNotSatisfiable

variable {service} in
theorem transferRange_ok {range : Nat × Nat} (nonempty : range.1 < range.2)
    (inside : range.2 ≤ service.blob.length) :
    service.transferRange range = .ok (service.respond range) := by
  rw [transferRange, if_pos (by omega), Nat.min_eq_left inside]

/-- `transfer_range` without a range. -/
def transferAll : Response := ⟨none, service.pieces (0, service.blob.length)⟩

end Service

def downloadWithEmptyBlobSafety (service : Service) (range : Nat × Nat) : Result Response :=
  match service.transferFirst range with
  | .ok response => .ok response
  | .error error =>
    if error.kind = .httpResponse 416 ∧ range.1 = 0 then .ok service.transferAll
    else .error error

/-! ## The first response -/

structure InitialResponseAnalysis where
  overallDownloadRange : Nat × Nat
  remainingDownloadRanges : List (Nat × Nat)
  deriving DecidableEq, Repr

def analyzeInitialResponse (response : Response) (partitionLen maxRangeEnd : Nat) :
    Option InitialResponseAnalysis :=
  match response.contentRange with
  | some ⟨some received, some resourceLen⟩ =>
    let remainderEnd := min maxRangeEnd resourceLen
    some ⟨(received.1, remainderEnd), cutRange received.2 remainderEnd partitionLen⟩
  | _ => none

/-- The range of the first request; the sum saturates. -/
def initialRange (range : Nat × Nat) (partitionSize : Nat) : Nat × Nat :=
  (range.1, min range.2 (min (range.1 + partitionSize) usizeMax))

def maxDownloadRange (range : Option HttpRange) : Nat × Nat :=
  (range.map HttpRange.bounds).getD (0, usizeMax)

def getInitialResponseAndAnalyze (service : Service) (range : Option HttpRange)
    (partitionSize : Nat) : Result (Response × Option InitialResponseAnalysis) := do
  let maxRange := maxDownloadRange range
  if maxRange.2 ≤ maxRange.1 then .error ⟨.other, "Provided range must have length > 0."⟩
  else
    let response ← downloadWithEmptyBlobSafety service (initialRange maxRange partitionSize)
    .ok (response, analyzeInitialResponse response partitionSize maxRange.2)

def requested (blob : Bytes) : Option HttpRange → Bytes
  | none => blob
  | some ⟨offset, none⟩ => blob.drop offset.toNat
  | some ⟨offset, some length⟩ => (blob.drop offset.toNat).take length.toNat

/-- The end of the range is a `usize`. -/
def Fits : Option HttpRange → Prop
  | some ⟨offset, some length⟩ => offset.toNat + length.toNat < usizeModulus
  | _ => True

/-- What the first response says: it has the bytes from `start` to `middle`, and those from
`middle` to `stop` remain. -/
structure Opening (service : Service) (range : Option HttpRange) (partitionSize : Nat)
    (start middle stop : Nat) : Prop where
  given : middle = start + service.given (initialRange (maxDownloadRange range) partitionSize)
  nonempty : start < middle
  upto : middle ≤ stop
  asked : middle ≤ start + partitionSize
  inside : stop ≤ service.blob.length
  requested : requested service.blob range = service.blob.extract start stop
  analysis : getInitialResponseAndAnalyze service range partitionSize =
    .ok (service.respond (start, middle), some ⟨(start, stop), cutRange middle stop partitionSize⟩)

section Opening

variable {service : Service} {range : Option HttpRange} {partitionSize : Nat}

theorem maxDownloadRange_end (range : Option HttpRange) : (maxDownloadRange range).2 ≤ usizeMax := by
  match range with
  | none => exact Nat.le_refl _
  | some ⟨offset, none⟩ => exact Nat.le_refl _
  | some ⟨offset, some length⟩ =>
    have usize := (offset + length).toNat_lt
    show (offset + length).toNat ≤ usizeMax
    unfold usizeMax usizeModulus
    omega

/-- The part asked for is the part over the range, as long as its end does not wrap around. -/
theorem requested_eq (service : Service) (fits : Fits range) :
    requested service.blob range =
      service.blob.extract (maxDownloadRange range).1
        (min (maxDownloadRange range).2 service.blob.length) := by
  have usize := service.usize
  have all : min usizeMax service.blob.length = service.blob.length := by
    unfold usizeMax
    omega
  match range with
  | none =>
    show service.blob = service.blob.extract 0 (min usizeMax service.blob.length)
    rw [all, extract_eq_take_drop, drop_zero, Nat.sub_zero, take_length]
  | some ⟨offset, none⟩ =>
    show service.blob.drop offset.toNat =
      service.blob.extract offset.toNat (min usizeMax service.blob.length)
    rw [all, extract_eq_take_drop, ← length_drop, take_length]
  | some ⟨offset, some length⟩ =>
    have sum : (offset + length).toNat = offset.toNat + length.toNat := by
      exact Nat.mod_eq_of_lt fits
    show (service.blob.drop offset.toNat).take length.toNat =
      service.blob.extract offset.toNat (min (offset + length).toNat service.blob.length)
    rw [sum, extract_eq_take_drop, take_eq_take_iff, length_drop]
    omega

theorem not_fits (wraps : ¬ Fits range) : (maxDownloadRange range).2 ≤ (maxDownloadRange range).1 := by
  match range with
  | none => exact absurd trivial wraps
  | some ⟨offset, none⟩ => exact absurd trivial wraps
  | some ⟨offset, some length⟩ =>
    have large : ¬ offset.toNat + length.toNat < 2 ^ 64 := wraps
    have second := length.toNat_lt
    show (offset + length).toNat ≤ offset.toNat
    rw [UInt64.toNat_add]
    omega

theorem exists_opening (positive : 0 < partitionSize) (fits : Fits range)
    (wanted : requested service.blob range ≠ []) :
    ∃ start middle stop, Opening service range partitionSize start middle stop := by
  have part := requested_eq service fits
  have usize := service.usize
  have last := maxDownloadRange_end range
  generalize bounds : maxDownloadRange range = maxRange at part last
  obtain ⟨start, stop⟩ := maxRange
  have some : start < min stop service.blob.length := by
    apply Nat.lt_of_not_le
    intro empty
    refine wanted (part.trans ?_)
    rw [extract_eq_take_drop, Nat.sub_eq_zero_of_le empty, take_zero]
  have asked : (initialRange (start, stop) partitionSize).1 <
      min (initialRange (start, stop) partitionSize).2 service.blob.length := by
    unfold initialRange usizeMax
    omega
  have more := service.given_pos (initialRange (start, stop) partitionSize) asked
  have within := service.given_le (initialRange (start, stop) partitionSize) asked
  have near : (initialRange (start, stop) partitionSize).2 ≤ min stop (start + partitionSize) := by
    unfold initialRange
    omega
  have first : (initialRange (start, stop) partitionSize).1 = start := rfl
  refine ⟨start, start + service.given (initialRange (start, stop) partitionSize),
    min stop service.blob.length, ?_, by omega, by omega, by omega, by omega, part, ?_⟩
  · rw [bounds]
  · unfold getInitialResponseAndAnalyze
    rw [bounds]
    rw [if_neg (by omega), downloadWithEmptyBlobSafety, Service.transferFirst, if_pos asked]
    rfl

end Opening

/-! ## Chunks -/

/-- The loop of `collect_into`. -/
def collectIntoFrom (buffer : Bytes) (copied : Nat) : List Bytes → Result (Bytes × Nat)
  | [] => .ok (buffer, copied)
  | bytes :: rest =>
    if buffer.length - copied < bytes.length then
      .error ⟨.io, "buffer is too small to hold response body"⟩
    else collectIntoFrom (writeAt buffer copied bytes) (copied + bytes.length) rest

/-- `collect_into`, with the buffer as it is then. -/
def collectInto (buffer : Bytes) (body : List Bytes) : Result (Bytes × Nat) :=
  collectIntoFrom buffer 0 body

theorem collectIntoFrom_ok : ∀ (body : List Bytes) {buffer : Bytes} {copied : Nat},
    copied + body.flatten.length ≤ buffer.length →
      collectIntoFrom buffer copied body =
        .ok (writeAt buffer copied body.flatten, copied + body.flatten.length)
  | [], buffer, copied, _ => by
    rw [flatten_nil, writeAt_nil]
    rfl
  | bytes :: rest, buffer, copied, room => by
    rw [flatten_cons, length_append] at room
    have first : copied + bytes.length ≤ buffer.length := by omega
    rw [collectIntoFrom, if_neg (by omega),
      collectIntoFrom_ok rest (by rw [length_writeAt first]; omega), writeAt_append first,
      flatten_cons, length_append, Nat.add_assoc]

theorem collectInto_respond {service : Service} {start stop : Nat} {buffer : Bytes}
    (inside : stop ≤ service.blob.length) (room : stop - start ≤ buffer.length) :
    collectInto buffer (service.respond (start, stop)).body =
      .ok (writeAt buffer 0 (service.blob.extract start stop), stop - start) := by
  have flatten : (service.respond (start, stop)).body.flatten = service.blob.extract start stop :=
    service.flatten_pieces (start, stop)
  rw [collectInto, collectIntoFrom_ok, flatten, length_extract start inside, Nat.zero_add]
  rwa [flatten, length_extract start inside, Nat.zero_add]

/-- What the task sends, unless it panics because a vector
cannot be that long. -/
def startInitialDownloadTaskBuffer (response : Response) (partitionSize : Nat) :
    Option (Result Bytes) :=
  if partitionSize ≤ isizeMax then
    some ((collectInto (List.replicate partitionSize 0) response.body).map Prod.fst)
  else none

def startDownloadTaskBuffer (service : Service) (range : Nat × Nat) : Option (Result Bytes) :=
  if range.2 - range.1 ≤ isizeMax then
    some do
      let response ← service.transferRange range
      let (dst, count) ← collectInto (List.replicate (range.2 - range.1) 0) response.body
      .ok (dst.take count)
  else none

/-- What the stream of a download works on: what each of its tasks sends. -/
structure Download where
  initial : Option (Result Bytes)
  ranges : List (Nat × Nat)
  fetch : Nat × Nat → Option (Result Bytes)

/-- Where no range remains, the body of the response is handed on. -/
def download (service : Service) (range : Option HttpRange) (partitionSize : NonZeroUsize) :
    Result Download := do
  let (response, stats) ← getInitialResponseAndAnalyze service range partitionSize.get
  match (stats.map (·.remainingDownloadRanges)).getD [] with
  | [] => .ok ⟨some (.ok response.body.flatten), [], startDownloadTaskBuffer service⟩
  | first :: rest =>
    .ok ⟨startInitialDownloadTaskBuffer response partitionSize.get, first :: rest,
      startDownloadTaskBuffer service⟩

/-- The tasks succeed, and the stream delivers their chunks, which make the bytes. -/
structure Download.Yields (d : Download) (parallel : NonZeroUsize) (slot : Nat) (bytes : Bytes)
    (job : Job (Nat × Nat) Bytes) : Prop where
  parallel : job.parallel = parallel.get
  slot : job.slot = slot
  release : job.overflowChecks = false
  ranges : job.ranges = d.ranges
  initial : d.initial = some (.ok job.initial)
  fetch : ∀ range ∈ d.ranges, d.fetch range = some (.ok (job.fetch range))
  delivers : DownloadStream.Delivers job
  flatten : job.chunks.flatten = bytes

/-- The drain of a download has a slot, and a vector can have all its slots. -/
def Capacity (parallel : NonZeroUsize) (slot : Nat) : Prop :=
  0 < parallel.get * 2 % usizeModulus ∧ parallel.get * 2 % usizeModulus * slot ≤ isizeMax

section Chunks

variable {service : Service} {range : Option HttpRange} {partitionSize parallel : NonZeroUsize}
variable {start middle stop slot : Nat}

theorem startDownloadTaskBuffer_ok {range : Nat × Nat} (nonempty : range.1 < range.2)
    (inside : range.2 ≤ service.blob.length) (small : range.2 - range.1 ≤ isizeMax) :
    startDownloadTaskBuffer service range = some (.ok (service.blob.extract range.1 range.2)) := by
  have length := length_extract range.1 inside
  rw [startDownloadTaskBuffer, if_pos small, Service.transferRange_ok nonempty inside]
  show some (collectInto _ (service.respond range).body >>= _) = _
  rw [collectInto_respond inside (by rw [length_replicate])]
  show some (Except.ok ((service.blob.extract range.1 range.2 ++ _).take (range.2 - range.1))) = _
  rw [← length, take_left]

namespace Opening

variable (opening : Opening service range partitionSize.get start middle stop)
include opening

theorem tiles : Tiles stop middle (cutRange middle stop partitionSize.get) :=
  tiles_cutRange partitionSize.nonZero opening.upto

theorem length_requested : (Storage.requested service.blob range).length = stop - start := by
  rw [opening.requested, length_extract start opening.inside]

/-- The first chunk has the bytes of the response, and zeros up to the partition's end. -/
theorem initialChunk (small : partitionSize.get ≤ isizeMax) :
    startInitialDownloadTaskBuffer (service.respond (start, middle)) partitionSize.get =
      some (.ok (service.blob.extract start middle ++
        replicate (partitionSize.get - (middle - start)) 0)) := by
  have inside := Nat.le_trans opening.upto opening.inside
  have asked := opening.asked
  rw [startInitialDownloadTaskBuffer, if_pos small,
    collectInto_respond inside (by rw [length_replicate]; omega), writeAt, Nat.zero_add,
    length_extract start inside, drop_replicate]
  rfl

theorem fetch (small : stop - start ≤ isizeMax) :
    ∀ part ∈ cutRange middle stop partitionSize.get,
      startDownloadTaskBuffer service part = some (.ok (service.blob.extract part.1 part.2)) := by
  intro part mem
  obtain ⟨low, nonempty, high⟩ := opening.tiles.within part mem
  have after := opening.nonempty
  exact startDownloadTaskBuffer_ok nonempty (Nat.le_trans high opening.inside) (by omega)

theorem download_whole (all : middle = stop) :
    download service range partitionSize =
      .ok ⟨some (.ok (service.blob.extract start stop)), [], startDownloadTaskBuffer service⟩ := by
  have none := opening.tiles.eq_nil_iff.mpr all
  rw [download, opening.analysis]
  show (match cutRange middle stop partitionSize.get with
    | [] => Except.ok _
    | _ :: _ => _) = _
  rw [none]
  show Except.ok _ = _
  rw [← all, ← service.flatten_pieces (start, middle)]
  rfl

theorem download_parts (more : middle ≠ stop) :
    download service range partitionSize =
      .ok ⟨startInitialDownloadTaskBuffer (service.respond (start, middle)) partitionSize.get,
        cutRange middle stop partitionSize.get, startDownloadTaskBuffer service⟩ := by
  obtain ⟨first, rest, some⟩ :=
    exists_cons_of_ne_nil fun none => more (opening.tiles.eq_nil_iff.mp none)
  rw [download, opening.analysis]
  show (match cutRange middle stop partitionSize.get with
    | [] => _
    | _ :: _ => Except.ok _) = _
  rw [some]

/-- Where ranges remain, the stream has the zeros that the first response left. -/
theorem yields_parts (more : middle ≠ stop) {d : Download} {bytes : Bytes}
    {job : Job (Nat × Nat) Bytes} (small : stop - start ≤ isizeMax)
    (got : download service range partitionSize = .ok d)
    (yields : d.Yields parallel slot bytes job) :
    Capacity parallel slot ∧ bytes = service.blob.extract start middle ++
      replicate (partitionSize.get - (middle - start)) 0 ++ service.blob.extract middle stop := by
  rw [opening.download_parts more] at got
  obtain rfl := Except.ok.inj got
  have some : cutRange middle stop partitionSize.get ≠ [] :=
    fun none => more (opening.tiles.eq_nil_iff.mp none)
  constructor
  · have capacity := yields.delivers.capacity.2
    rw [yields.ranges, yields.slot, Job.maxBuffers, yields.parallel] at capacity
    exact capacity.resolve_left some
  · have size : partitionSize.get ≤ isizeMax := by
      have initial := yields.initial
      dsimp only [startInitialDownloadTaskBuffer] at initial
      split at initial
      · assumption
      · cases initial
    have initial := (opening.initialChunk size).symm.trans yields.initial
    have chunks : job.ranges.map job.fetch = (cutRange middle stop partitionSize.get).map
        fun part => service.blob.extract part.1 part.2 := by
      rw [yields.ranges]
      apply map_congr_left
      intro part mem
      have fetched := (opening.fetch small part mem).symm.trans (yields.fetch part mem)
      exact (Except.ok.inj (Option.some.inj fetched)).symm
    rw [← yields.flatten, Job.chunks, flatten_cons, chunks,
      opening.tiles.flatten_extract, ← Except.ok.inj (Option.some.inj initial)]

/-- The stream of a download has the bytes asked for exactly if the first response has all of
them, or is a whole partition and the drain has room. -/
theorem yields_iff (parallel : NonZeroUsize) (slot : Nat) (small : stop - start ≤ isizeMax) :
    (∃ d job, download service range partitionSize = .ok d ∧
      d.Yields parallel slot (Storage.requested service.blob range) job) ↔
      middle = stop ∨ middle - start = partitionSize.get ∧ Capacity parallel slot := by
  have after := opening.nonempty
  have upto := opening.upto
  have asked := opening.asked
  constructor
  · rintro ⟨d, job, got, yields⟩
    by_cases all : middle = stop
    · exact .inl all
    obtain ⟨capacity, bytes⟩ := opening.yields_parts all small got yields
    have length := congrArg List.length bytes
    rw [opening.length_requested, length_append, length_append, length_replicate,
      length_extract start (Nat.le_trans upto opening.inside),
      length_extract middle opening.inside] at length
    exact .inr ⟨by omega, capacity⟩
  · intro enough
    by_cases all : middle = stop
    · refine ⟨_, ⟨service.blob.extract start stop, [], fun _ => [], parallel.get, parallel.nonZero,
        parallel.usize, slot, false⟩, opening.download_whole all, rfl, rfl, rfl, rfl, rfl,
        fun _ mem => absurd mem not_mem_nil, ?_, ?_⟩
      · exact DownloadStream.delivers_of_capacity (by simp [Job.Overflows]) (.inl rfl)
      · rw [opening.requested]
        simp [Job.chunks]
    · obtain ⟨whole, capacity⟩ := enough.resolve_left all
      have size : partitionSize.get ≤ isizeMax := by omega
      have initial := opening.initialChunk size
      rw [whole, Nat.sub_self, replicate_zero, append_nil] at initial
      refine ⟨_, ⟨service.blob.extract start middle, cutRange middle stop partitionSize.get,
        fun part => service.blob.extract part.1 part.2, parallel.get, parallel.nonZero,
        parallel.usize, slot, false⟩, opening.download_parts all, rfl, rfl, rfl, rfl, initial,
        opening.fetch small, ?_, ?_⟩
      · exact DownloadStream.delivers_of_capacity (by simp [Job.Overflows]) (.inr capacity)
      · rw [opening.requested]
        show (service.blob.extract start middle ::
          (cutRange middle stop partitionSize.get).map _).flatten = _
        rw [flatten_cons, opening.tiles.flatten_extract]
        exact extract_append _ (Nat.le_of_lt after) upto

end Opening

end Chunks

end AzureSdk.Storage
