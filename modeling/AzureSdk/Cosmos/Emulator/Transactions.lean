/-
# Cosmos.Emulator.Transactions — distributed write transactions

Every operation first votes on the store as it is.  If none objects, the operations are applied one by
one by the point handlers: before each write the document and the counters it can touch are kept as a
pre-image, and what the handlers replicate is captured.  At the first operation that fails, the
pre-images are put back, newest first, and the capture is dropped; otherwise it is replayed.

The pre-image is taken at the id of the operation and the write goes to the id of its body.  The vote
makes the two equal, so putting a pre-image back undoes its write (`undo_write`), also where several
operations change one document, and a transaction is applied as a whole or not at all
(`transaction_all_or_nothing`).
-/
import AzureSdk.Theory.Run
import AzureSdk.Cosmos.Emulator.PointWrites

namespace AzureSdk.Cosmos.Emulator

open Theory List Option

/-! ## Operations -/

/-- `operation_type`.  The vote knows `Read` in any case and the other types as written here;
the execution knows `Patch` in any case. -/
inductive DtxOperationType
  | create
  | read
  | replace
  | upsert
  | delete
  | patch
  | readInOtherCase
  | patchInOtherCase
  | other
  deriving DecidableEq, Repr

structure DtxOperation where
  container : ContainerId
  id : String
  partitionKey : String
  operationType : DtxOperationType
  resourceBody : Option Json.Value
  ifMatch : Option String

namespace DtxOperation

/-- `eq_ignore_ascii_case("Read")`. -/
def isRead (operation : DtxOperation) : Bool :=
  operation.operationType = .read || operation.operationType = .readInOtherCase

/-- Whether the body is a document, whose id must be the operation's. -/
def storesBody (operation : DtxOperation) : Bool :=
  operation.operationType = .create || operation.operationType = .replace ||
    operation.operationType = .upsert

/-- `dtx_operation_as_parsed_request`; the body goes to the handlers as it is. -/
def request (operation : DtxOperation) : PointRequest where
  container := operation.container
  docId := operation.id
  partitionKeyHeader := some operation.partitionKey
  ifMatch := operation.ifMatch
  body := operation.resourceBody

end DtxOperation

/-- An operation with what its surroundings answer when its turn comes; for a read, whether
`handle_read` succeeds. -/
structure DtxTurn where
  operation : DtxOperation
  moment : Moment
  read : Except Refusal Unit

section Handlers

variable (keys : PartitionKeys) (patches : PatchBodies) (regionName : String)

/-- The vote of an operation. -/
def preflightDtxWriteOperation (store : RegionStore) (operation : DtxOperation) :
    Except Refusal Unit := do
  if operation.isRead then
    return ()
  refuseIf ((operation.storesBody || operation.operationType = .patch) &&
    operation.resourceBody.isNone) .missingBody
  refuseIf (!store.databases operation.container.1) (.databaseNotFound operation.container.1)
  let _ ← orRefuse (store.containers operation.container) (.containerNotFound operation.container)
  let body := operation.resourceBody.getD .null
  refuseIf (operation.storesBody && (bodyId body).isNone) .missingId
  refuseIf (operation.storesBody && bodyId body ≠ some operation.id) .idMismatch
  let (epk, p) ← locate keys store operation.request body
  let existing := p.documents.get? ⟨epk, operation.id⟩
  match operation.operationType with
  | .create => refuseIf existing.isSome (.conflict operation.id)
  | .replace | .delete =>
    let existing ← orRefuse existing (.notFound operation.id)
    checkIfMatch operation.ifMatch existing
  | .patch =>
    let existing ← orRefuse existing (.notFound operation.id)
    checkIfMatch operation.ifMatch existing
    let (_, condition) ← (patches.parse body).mapError .invalidPatch
    let holds ← (patches.holds condition existing.body).mapError .invalidPatch
    refuseIf (!holds) .patchConditionNotMet
  | .upsert => return ()
  | _ => .error .unsupportedOperation

/-- The write, or `none` for a read.  No other writer is there, so
the look under the read lock finds what is stored. -/
def executeDtxPointOperation (turn : DtxTurn) (store : RegionStore) : Except Refusal (Option Write) :=
  let request := turn.operation.request
  let moment := { turn.moment with probe := store.document request.container }
  match turn.operation.operationType with
  | .patch | .patchInOtherCase =>
    (handleDtxPatch keys regionName moment request store patches).map some
  | .create => (handleCreate keys regionName moment request store).map some
  | .read => turn.read.map fun _ => none
  | .replace => (handleReplace keys regionName moment request store).map some
  | .upsert => (handleUpsert keys regionName moment request store).map some
  | .delete => (handleDelete keys regionName moment request store).map some
  | .readInOtherCase | .other => .error .unsupportedOperation

end Handlers

/-! ## Replication and pre-images -/

/-- A write on its way to the other regions. -/
structure CapturedReplication where
  sourceRegion : String
  container : ContainerId
  doc : StoredDocument
  isDelete : Bool

/-- A region, the replications captured for a transaction while one is applied, and those handed on
to the other regions. -/
structure EmulatorStore where
  region : RegionStore
  dtxReplicationCapture : Option (List CapturedReplication)
  replicated : List CapturedReplication

namespace EmulatorStore

def replicate (store : EmulatorStore) (entry : CapturedReplication) : EmulatorStore :=
  match store.dtxReplicationCapture with
  | some buffer => { store with dtxReplicationCapture := some (buffer ++ [entry]) }
  | none => { store with replicated := store.replicated ++ [entry] }

def commitDtxReplicationCapture (store : EmulatorStore) : EmulatorStore :=
  match store.dtxReplicationCapture with
  | none => store
  | some captured => captured.foldl replicate { store with dtxReplicationCapture := none }

/-- What an operation does to the store, and what it replicates. -/
def apply (regionName : String) (store : EmulatorStore) : Option Write → EmulatorStore
  | none => store
  | some write =>
    { store with region := write.commit store.region }.replicate
      ⟨regionName, write.container, write.doc, write.isDelete⟩

end EmulatorStore

structure DtxPreimage where
  epk : Epk
  document : Option StoredDocument
  lsn : Nat
  localLsn : Nat
  vectorClockVersion : Nat

def PhysicalPartition.preimage (p : PhysicalPartition) (key : DocKey) : DtxPreimage where
  epk := key.epk
  document := p.documents.get? key
  lsn := p.lsn
  localLsn := p.localLsn
  vectorClockVersion := p.vectorClockVersion

def captureDtxPreimage (keys : PartitionKeys) (store : RegionStore) (operation : DtxOperation) :
    Option DtxPreimage := do
  let request := operation.request
  let epk ← (resolvePartitionKey keys request.container request.partitionKeyHeader
    (operation.resourceBody.getD .null)).toOption
  let p ← store.partition operation.container epk
  return p.preimage ⟨epk, operation.id⟩

def PhysicalPartition.restore (p : PhysicalPartition) (id : String) (preimage : DtxPreimage) :
    PhysicalPartition :=
  { p with
    documents := p.documents.put ⟨preimage.epk, id⟩ preimage.document
    lsn := preimage.lsn
    localLsn := preimage.localLsn
    vectorClockVersion := preimage.vectorClockVersion }

def restoreDtxPreimage (store : RegionStore) (applied : DtxOperation × DtxPreimage) : RegionStore :=
  store.modify applied.1.container applied.2.epk (·.restore applied.1.id applied.2)

/-! ## The transaction -/

/-- The store between two operations, and the pre-images of the writes so far, newest first. -/
structure DtxProgress where
  store : EmulatorStore
  applied : List (DtxOperation × DtxPreimage)

/-- The pre-images put back, newest first, and the capture dropped. -/
def DtxProgress.rollBack (progress : DtxProgress) : EmulatorStore where
  region := progress.applied.foldl restoreDtxPreimage progress.store.region
  dtxReplicationCapture := none
  replicated := progress.store.replicated

inductive DtxResponse
  | committed
  | refused (votes : List (Option Refusal))
  | rolledBack (failedIndex : Nat) (refusal : Refusal)

section Transaction

variable (keys : PartitionKeys) (patches : PatchBodies) (regionName : String)

def DtxProgress.turn (progress : DtxProgress) (turn : DtxTurn) : Except Refusal DtxProgress :=
  let preimage := if turn.operation.isRead then none
    else captureDtxPreimage keys progress.store.region turn.operation
  (executeDtxPointOperation keys patches regionName turn progress.store.region).map fun write =>
    { store := progress.store.apply regionName write
      applied := (preimage.map (turn.operation, ·)).toList ++ progress.applied }

/-- The commit phase: where it stops, and the operation that fails. -/
def commitPhase : Nat → List DtxTurn → DtxProgress → DtxProgress × Option (Nat × Refusal)
  | _, [], progress => (progress, none)
  | index, turn :: rest, progress =>
    match progress.turn keys patches regionName turn with
    | .ok progress => commitPhase (index + 1) rest progress
    | .error refusal => (progress, some (index, refusal))

def refusalOf {α : Type} : Except Refusal α → Option Refusal
  | .error refusal => some refusal
  | .ok _ => none

/-- `handle_dtx_write_transaction_locked`. -/
def handleDtxWriteTransaction (turns : List DtxTurn) (store : EmulatorStore) :
    EmulatorStore × DtxResponse :=
  let votes := turns.map fun turn =>
    refusalOf (preflightDtxWriteOperation keys patches store.region turn.operation)
  if votes.any Option.isSome then (store, .refused votes)
  else
    let start := { store with dtxReplicationCapture := some [] }
    match commitPhase keys patches regionName 0 turns ⟨start, []⟩ with
    | (progress, none) => (progress.store.commitDtxReplicationCapture, .committed)
    | (progress, some (index, refusal)) =>
      (progress.rollBack, .rolledBack index refusal)

end Transaction

/-! ## Undoing a write -/

theorem Write.change_keepsSpan (write : Write) : KeepsSpan write.change := by
  intro p
  unfold Write.change
  split <;> rfl

variable {write : Write}

theorem Write.change_get? (spelled : SameKey write.doc.epk write.epk)
    (p : PhysicalPartition) {k : DocKey} (other : ¬ SameKey ⟨write.epk, write.doc.id⟩ k) :
    (write.change p).documents.get? k = p.documents.get? k := by
  have keyed : SameKey write.doc.key ⟨write.epk, write.doc.id⟩ := DocKey.sameKey_iff.mpr ⟨spelled, rfl⟩
  unfold Write.change
  split
  · exact (BTreeMap.get?_erase ..).trans (if_neg other)
  · exact (BTreeMap.get?_insert ..).trans (if_neg fun same => other (keyed.symm.trans same))

theorem Write.restore_change (spelled : SameKey write.doc.epk write.epk) (p : PhysicalPartition) :
    (write.change p).restore write.doc.id (p.preimage ⟨write.epk, write.doc.id⟩) = p := by
  have documents : (write.change p).documents.put ⟨write.epk, write.doc.id⟩
      (p.documents.get? ⟨write.epk, write.doc.id⟩) = p.documents :=
    BTreeMap.put_back fun k other => Write.change_get? spelled p other
  rw [PhysicalPartition.restore, PhysicalPartition.preimage, documents]
  unfold Write.change
  split <;> rfl

section Run

variable {keys : PartitionKeys} {patches : PatchBodies} {regionName : String} {turn : DtxTurn}
  {store : RegionStore} {write : Write}

/-- An operation whose body, if it is to be stored, has the operation's id. -/
def DtxOperation.Consistent (operation : DtxOperation) : Prop :=
  operation.storesBody → operation.resourceBody.bind bodyId = some operation.id

theorem consistent_of_preflight {operation : DtxOperation} {u : Unit}
    (h : preflightDtxWriteOperation keys patches store operation = .ok u) :
    operation.Consistent := by
  intro stores
  have write : operation.isRead = false := by
    unfold DtxOperation.isRead
    unfold DtxOperation.storesBody at stores
    grind
  unfold preflightDtxWriteOperation at h
  rw [write] at h
  obtain ⟨_, -, h⟩ := bind_ok h
  obtain ⟨_, -, h⟩ := bind_ok h
  obtain ⟨_, -, h⟩ := bind_ok h
  obtain ⟨_, -, h⟩ := bind_ok h
  obtain ⟨_, same, -⟩ := bind_ok h
  have named : bodyId (operation.resourceBody.getD .null) = some operation.id := by
    simpa [stores] using refuseIf_ok same
  cases body : operation.resourceBody with
  | none =>
    rw [body] at named
    cases named
  | some value =>
    rw [body] at named
    exact named

theorem executeDtxPointOperation_fits (consistent : turn.operation.Consistent)
    (h : executeDtxPointOperation keys patches regionName turn store = .ok (some write)) :
    turn.operation.isRead = false ∧ write.doc.id = turn.operation.id ∧
      ∃ p, write.Fits keys turn.operation.request store p := by
  have body_id {id : String} (stores : turn.operation.storesBody)
      (of : turn.operation.request.body.bind bodyId = some id) : id = turn.operation.id :=
    some.inj (of.symm.trans (consistent stores))
  unfold executeDtxPointOperation at h
  unfold DtxOperation.isRead
  unfold DtxOperation.storesBody at body_id
  cases kind : turn.operation.operationType <;> rw [kind] at h body_id
  case create =>
      obtain ⟨_, ran, ⟨⟩⟩ := map_ok h
      have fits := handleCreate_fits ran
      exact ⟨rfl, body_id rfl fits.2, fits.1⟩
  case upsert =>
      obtain ⟨_, ran, ⟨⟩⟩ := map_ok h
      have fits := handleUpsert_fits ran
      exact ⟨rfl, body_id rfl fits.2, fits.1⟩
  case replace =>
      obtain ⟨_, ran, ⟨⟩⟩ := map_ok h
      have fits := handleReplace_fits ran
      exact ⟨rfl, fits.2, fits.1⟩
  case delete =>
      obtain ⟨_, ran, ⟨⟩⟩ := map_ok h
      have fits := handleDelete_fits ran
      exact ⟨rfl, fits.2, fits.1⟩
  case patch | patchInOtherCase =>
      obtain ⟨_, ran, ⟨⟩⟩ := map_ok h
      have fits := handleDtxPatch_fits ran
      exact ⟨rfl, fits.2, fits.1⟩
  case read =>
      obtain ⟨_, -, ⟨⟩⟩ := map_ok h
  case readInOtherCase | other => cases h

theorem isRead_of_execute
    (h : executeDtxPointOperation keys patches regionName turn store = .ok none) :
    turn.operation.isRead = true := by
  unfold executeDtxPointOperation at h
  unfold DtxOperation.isRead
  cases kind : turn.operation.operationType <;> rw [kind] at h
  case read => rfl
  case readInOtherCase | other => cases h
  all_goals
    obtain ⟨_, -, ⟨⟩⟩ := map_ok h

theorem undo_write (consistent : turn.operation.Consistent)
    (h : executeDtxPointOperation keys patches regionName turn store = .ok (some write)) :
    ∃ preimage, captureDtxPreimage keys store turn.operation = some preimage ∧
      restoreDtxPreimage (write.commit store) (turn.operation, preimage) = store := by
  obtain ⟨-, id, p, fits⟩ := executeDtxPointOperation_fits consistent h
  -- the partition key is in the header, so the handler and the capture find the same EPK
  have header : keys.ofHeader turn.operation.container turn.operation.partitionKey = .ok write.epk :=
    fits.resolved
  refine ⟨p.preimage ⟨write.epk, turn.operation.id⟩, ?_, ?_⟩
  · have found : store.partition turn.operation.container write.epk = some p := fits.partition
    simp only [captureDtxPreimage, DtxOperation.request, resolvePartitionKey, header]
    exact bind_eq_some_iff.mpr ⟨write.epk, rfl, bind_eq_some_iff.mpr ⟨p, found, rfl⟩⟩
  · have container : write.container = turn.operation.container := fits.container
    have back := write.restore_change fits.epk p
    rw [id] at back
    rw [restoreDtxPreimage, Write.commit, container]
    exact modify_undo write.change_keepsSpan fits.partition back

/-- An operation of a transaction, applied to the region and to what it has replicated. -/
def Applies (keys : PartitionKeys) (patches : PatchBodies) (regionName : String)
    (before : RegionStore × List CapturedReplication) (turn : DtxTurn)
    (after : RegionStore × List CapturedReplication) : Prop :=
  ∃ write, executeDtxPointOperation keys patches regionName turn before.1 = .ok write ∧
    after = (write.elim before.1 (·.commit before.1),
      before.2 ++ (write.map fun w => ⟨regionName, w.container, w.doc, w.isDelete⟩).toList)

/-- Between two operations: the operations so far have been applied in order, what they replicate is
captured, and putting the pre-images back leads to the start. -/
structure DtxProgress.Sound (keys : PartitionKeys) (patches : PatchBodies) (regionName : String)
    (start : EmulatorStore) (turns : List DtxTurn) (progress : DtxProgress) : Prop where
  undone : progress.applied.foldl restoreDtxPreimage progress.store.region = start.region
  replicated : progress.store.replicated = start.replicated
  captured : ∃ entries, progress.store.dtxReplicationCapture = some entries ∧
    Run (Applies keys patches regionName) (start.region, start.replicated) turns
      (progress.store.region, start.replicated ++ entries)

variable {start : EmulatorStore} {turns done : List DtxTurn} {progress progress' : DtxProgress}

theorem DtxProgress.Sound.after_turn (sound : progress.Sound keys patches regionName start done)
    (consistent : turn.operation.Consistent)
    (h : progress.turn keys patches regionName turn = .ok progress') :
    progress'.Sound keys patches regionName start (done ++ [turn]) := by
  obtain ⟨write, executed, rfl⟩ := map_ok h
  obtain ⟨entries, captured, run⟩ := sound.captured
  have applies := run.append (Run.single ⟨write, executed, rfl⟩)
  cases write with
  | none =>
    simp only [isRead_of_execute executed, if_true]
    refine ⟨sound.undone, sound.replicated, entries, captured, ?_⟩
    simpa [EmulatorStore.apply] using applies
  | some write =>
    obtain ⟨notRead, -⟩ := executeDtxPointOperation_fits consistent executed
    obtain ⟨preimage, taken, back⟩ := undo_write consistent executed
    simp only [notRead, taken, EmulatorStore.apply, EmulatorStore.replicate, captured]
    refine ⟨?_, sound.replicated, _, rfl, ?_⟩
    · exact (congrArg (progress.applied.foldl restoreDtxPreimage) back).trans sound.undone
    · simpa using applies

/-- The commit phase ends between two operations; after the last one, if none fails. -/
theorem commitPhase_sound : ∀ (index : Nat) {turns done : List DtxTurn} {progress : DtxProgress},
    progress.Sound keys patches regionName start done →
    (∀ turn ∈ turns, turn.operation.Consistent) →
    ∃ done', (commitPhase keys patches regionName index turns progress).1.Sound
        keys patches regionName start done' ∧
      ((commitPhase keys patches regionName index turns progress).2 = none → done' = done ++ turns)
  | _, [], done, _, sound, _ => ⟨done, sound, fun _ => (append_nil done).symm⟩
  | index, turn :: turns, done, progress, sound, consistent => by
    rw [commitPhase]
    cases applied : progress.turn keys patches regionName turn with
    | error refusal => exact ⟨done, sound, fun none => by cases none⟩
    | ok progress' =>
      have sound' := sound.after_turn (consistent turn (.head _)) applied
      obtain ⟨done', final, all⟩ := commitPhase_sound (index + 1) sound'
        fun turn mem => consistent turn (.tail _ mem)
      exact ⟨done', final, fun none => by simpa using all none⟩

theorem EmulatorStore.foldl_replicate {region : RegionStore} :
    ∀ entries sent : List CapturedReplication,
      entries.foldl replicate ⟨region, none, sent⟩ = ⟨region, none, sent ++ entries⟩
  | [], sent => by rw [foldl_nil, append_nil]
  | entry :: entries, sent => by
    rw [foldl_cons, append_cons]
    exact foldl_replicate entries (sent ++ [entry])

variable {store : EmulatorStore}

theorem consistent_of_votes (unanimous : (turns.map fun turn => refusalOf
      (preflightDtxWriteOperation keys patches store.region turn.operation)).any isSome = false) :
    ∀ turn ∈ turns, turn.operation.Consistent := by
  intro turn mem
  cases vote : preflightDtxWriteOperation keys patches store.region turn.operation with
  | ok u => exact consistent_of_preflight vote
  | error refusal =>
    have objects := any_eq_false.mp unanimous _ (mem_map_of_mem mem)
    rw [vote] at objects
    exact absurd rfl objects

/-- A transaction is refused, or its commit phase decides. -/
theorem handleDtxWriteTransaction_cases (idle : store.dtxReplicationCapture = none) :
    (∃ response, handleDtxWriteTransaction keys patches regionName turns store = (store, response) ∧
        response ≠ .committed) ∨
      ∃ progress : DtxProgress, progress.Sound keys patches regionName store turns ∧
        handleDtxWriteTransaction keys patches regionName turns store =
          (progress.store.commitDtxReplicationCapture, .committed) := by
  dsimp only [handleDtxWriteTransaction]
  split
  · exact .inl ⟨_, rfl, nofun⟩
  · rename_i unanimous
    have sound : DtxProgress.Sound keys patches regionName store []
        ⟨{ store with dtxReplicationCapture := some [] }, []⟩ :=
      ⟨rfl, rfl, [], rfl, by simpa using Run.nil _⟩
    obtain ⟨done, sound, all⟩ :=
      commitPhase_sound 0 sound (consistent_of_votes (Bool.eq_false_iff.mpr unanimous))
    generalize commitPhase keys patches regionName 0 turns _ = phase at sound all ⊢
    obtain ⟨progress, _ | ⟨index, refusal⟩⟩ := phase <;> dsimp only at sound all ⊢
    · rw [all rfl] at sound
      exact .inr ⟨progress, sound, rfl⟩
    · rw [DtxProgress.rollBack, sound.undone, sound.replicated, ← idle]
      exact .inl ⟨_, rfl, nofun⟩

end Run

/-- A transaction that does not commit leaves the documents, the counters and the replication as they
were.  One that commits has applied its operations in order and replicated what they wrote. -/
theorem transaction_all_or_nothing (keys : PartitionKeys) (patches : PatchBodies)
    (regionName : String) (turns : List DtxTurn) (store : EmulatorStore)
    (idle : store.dtxReplicationCapture = none) :
    let (store', response) := handleDtxWriteTransaction keys patches regionName turns store
    (response ≠ .committed → store' = store) ∧
      (response = .committed → store'.dtxReplicationCapture = none ∧
        Run (Applies keys patches regionName) (store.region, store.replicated) turns
          (store'.region, store'.replicated)) := by
  rcases handleDtxWriteTransaction_cases idle with ⟨response, aborted, ne⟩ | ⟨progress, sound, ran⟩
  · rw [aborted]
    exact ⟨fun _ => rfl, fun committed => absurd committed ne⟩
  · obtain ⟨entries, captured, run⟩ := sound.captured
    have replayed : progress.store.commitDtxReplicationCapture =
        ⟨progress.store.region, none, store.replicated ++ entries⟩ := by
      rw [EmulatorStore.commitDtxReplicationCapture, captured, ← sound.replicated]
      exact EmulatorStore.foldl_replicate entries progress.store.replicated
    rw [ran, replayed]
    exact ⟨fun ne => absurd rfl ne, fun _ => ⟨rfl, run⟩⟩

/-! A region with one partition, and a transaction that creates a document twice. -/

def samplePartition : PhysicalPartition := ⟨0, .MIN, .MAX, 7, 7, 1, .empty, [], false, []⟩

def sampleRegion (documents : Documents) : RegionStore :=
  ⟨fun _ => true, fun _ => some ⟨[], [{ samplePartition with documents }]⟩⟩

def sampleKeys : PartitionKeys := ⟨fun _ _ => .ok ⟨[1]⟩, fun _ _ => .ok ⟨[1]⟩⟩

def samplePatches : PatchBodies := ⟨fun _ => .error "not a patch", fun _ _ => .ok true⟩

def sampleOperation (operationType : DtxOperationType) (ifMatch : Option String) : DtxOperation :=
  ⟨("db", "c"), String.ofList ['a'], "k", operationType,
    some (.object [(['i', 'd'], .string ['a'])]), ifMatch⟩

/-- The time, and a target region whose replication queue is saturated. -/
def sampleMoment (saturated : Option String) : Moment := ⟨saturated, fun _ => none, false, 100, "new"⟩

def sampleTurns : List DtxTurn :=
  [⟨sampleOperation .create none, sampleMoment none, .ok ()⟩,
    ⟨sampleOperation .create none, sampleMoment (some "west"), .ok ()⟩]

theorem sample_transaction_rolled_back :
    let store : EmulatorStore := ⟨sampleRegion .empty, none, []⟩
    handleDtxWriteTransaction sampleKeys samplePatches "east" sampleTurns store =
      (store, .rolledBack 1 (.replicationSaturated "west")) := by
  have answer : (handleDtxWriteTransaction sampleKeys samplePatches "east" sampleTurns
      ⟨sampleRegion .empty, none, []⟩).2 = .rolledBack 1 (.replicationSaturated "west") := rfl
  refine Prod.ext ?_ answer
  refine (transaction_all_or_nothing sampleKeys samplePatches "east" sampleTurns
    ⟨sampleRegion .empty, none, []⟩ rfl).1 fun committed => ?_
  cases answer.symm.trans committed

end AzureSdk.Cosmos.Emulator
