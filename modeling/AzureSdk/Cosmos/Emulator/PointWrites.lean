/-
# Cosmos.Emulator.PointWrites — create, replace, upsert, delete and patch in one region

A point handler finds the partition of its item, checks what it has to check, and then commits under
the partition's write lock: the document is put or removed, and both counters go up by one.  What it
commits is afterwards sent to the other regions.

`replace` and `delete` look for the item twice, first under the read lock and then under the write
lock; a replicated write may come in between, so what the first look finds (`Moment.probe`) need not
be what is there.  `create` does the same for the item's absence.  `upsert` looks once, and never at
`If-Match`.  A patch is only made as an operation of a distributed transaction; it looks once.

Of a handler's surroundings the model keeps what it can tell: the clock, the ETag it draws, whether
the throughput budget is used up, and a saturated replication queue.  The resource ids (`_rid`,
`_self`), charges and session tokens are left out.
-/
import AzureSdk.Cosmos.Patch.Eval
import AzureSdk.Cosmos.Emulator.Partitions

namespace AzureSdk.Cosmos.Emulator

open Theory Option

/-! ## Regions -/

/-- A container's database and id. -/
abbrev ContainerId := String × String

structure RegionStore where
  databases : String → Bool
  containers : ContainerId → Option ContainerState

/-- Changes the first partition that covers an EPK. -/
def modifyPartition (epk : Epk) (f : PhysicalPartition → PhysicalPartition) :
    List PhysicalPartition → List PhysicalPartition
  | [] => []
  | p :: rest => if p.containsEpk epk then f p :: rest else p :: modifyPartition epk f rest

def RegionStore.modify (store : RegionStore) (container : ContainerId) (epk : Epk)
    (f : PhysicalPartition → PhysicalPartition) : RegionStore :=
  { store with
    containers := fun id =>
      if id = container then
        (store.containers id).map fun state =>
          { state with physicalPartitions := modifyPartition epk f state.physicalPartitions }
      else store.containers id }

def RegionStore.partition (store : RegionStore) (container : ContainerId) (epk : Epk) :
    Option PhysicalPartition :=
  (store.containers container).bind fun state => findPartition state.physicalPartitions epk

def RegionStore.document (store : RegionStore) (container : ContainerId) (key : DocKey) :
    Option StoredDocument :=
  (store.partition container key.epk).bind fun p => p.documents.get? key

/-- A committed put: the document, and one more for both counters. -/
def PhysicalPartition.put (p : PhysicalPartition) (doc : StoredDocument) : PhysicalPartition :=
  { p with
    documents := p.documents.insert doc
    lsn := p.lsn + 1
    localLsn := p.localLsn + 1 }

def PhysicalPartition.drop (p : PhysicalPartition) (key : DocKey) : PhysicalPartition :=
  { p with
    documents := p.documents.erase key
    lsn := p.lsn + 1
    localLsn := p.localLsn + 1 }

section Modify

variable {f g : PhysicalPartition → PhysicalPartition}

/-- A change that keeps a partition's bounds. -/
def KeepsSpan (f : PhysicalPartition → PhysicalPartition) : Prop := ∀ p, (f p).span = p.span

theorem KeepsSpan.containsEpk (keeps : KeepsSpan f) (p : PhysicalPartition) (epk : Epk) :
    (f p).containsEpk epk = p.containsEpk epk := by
  have low : (f p).epkMin = p.epkMin := congrArg Interval.Span.lo (keeps p)
  have high : (f p).epkMax = p.epkMax := congrArg Interval.Span.hi (keeps p)
  rw [PhysicalPartition.containsEpk, low, high, PhysicalPartition.containsEpk]

theorem findPartition_cons (p : PhysicalPartition) (rest : List PhysicalPartition) (epk : Epk) :
    findPartition (p :: rest) epk =
      if p.containsEpk epk then some p else findPartition rest epk := by
  rw [findPartition, List.find?_cons]
  cases p.containsEpk epk <;> rfl

variable {p : PhysicalPartition}

theorem modifyPartition_undo (keeps : KeepsSpan f) {epk : Epk}
    (undone : g (f p) = p) : ∀ {partitions}, findPartition partitions epk = some p →
      modifyPartition epk g (modifyPartition epk f partitions) = partitions
  | [], found => by cases found
  | q :: rest, found => by
    rw [findPartition_cons] at found
    rw [modifyPartition]
    by_cases here : q.containsEpk epk
    · rw [if_pos here] at found ⊢
      cases found
      rw [modifyPartition, if_pos ((keeps.containsEpk p epk).trans here), undone]
    · rw [if_neg here] at found ⊢
      rw [modifyPartition, if_neg here, modifyPartition_undo keeps undone found]

theorem modify_undo (keeps : KeepsSpan f) {store : RegionStore} {container : ContainerId} {epk : Epk}
    (partition : store.partition container epk = some p)
    (undone : g (f p) = p) : (store.modify container epk f).modify container epk g = store := by
  obtain ⟨databases, containers⟩ := store
  obtain ⟨state, here, found⟩ := bind_eq_some_iff.mp partition
  have back : ∀ id, (((RegionStore.mk databases containers).modify container epk f).modify
      container epk g).containers id = containers id := by
    intro id
    by_cases this : id = container
    · subst this
      simp only [RegionStore.modify, if_true]
      rw [show containers id = some state from here, map_some, map_some,
        modifyPartition_undo keeps undone found]
    · simp only [RegionStore.modify, if_neg this]
  exact congrArg (RegionStore.mk databases) (funext back)

end Modify

/-! ## Requests and refusals -/

/-- How partition keys become EPKs: `parse_partition_key_header` and `extract_pk_from_body`, each
followed by `compute_epk` under the container's definition. -/
structure PartitionKeys where
  ofHeader : ContainerId → String → Except String Epk
  ofBody : ContainerId → Json.Value → Except String Epk

/-- What a point handler reads of a request; the body is `none` where it is not JSON. -/
structure PointRequest where
  container : ContainerId
  docId : String
  partitionKeyHeader : Option String
  ifMatch : Option String
  body : Option Json.Value

/-- What a point handler takes from its surroundings: a target region whose replication queue is
saturated, what the look under the read lock finds, whether the budget is used up, `_ts`, and the
new ETag. -/
structure Moment where
  saturated : Option String
  probe : DocKey → Option StoredDocument
  throttled : Bool
  ts : Nat
  etag : String

/-- Why a handler refuses; every reason is answered with an error status. -/
inductive Refusal
  | replicationSaturated (target : String)
  | invalidJson
  | missingId
  | idMismatch
  | databaseNotFound (database : String)
  | containerNotFound (container : ContainerId)
  | badPartitionKey (error : String)
  | noPartition
  | partitionLocked
  | conflict (docId : String)
  | partitionKeyChanged
  | storedPartitionKeyDiffers
  | notFound (docId : String)
  | preconditionFailed
  | throttled
  | missingBody
  | invalidPatch (error : String)
  | patchConditionNotMet
  | patchFailed (error : Patch.PatchEvalError)
  | unsupportedOperation
  deriving DecidableEq, Repr

def resolvePartitionKey (keys : PartitionKeys) (container : ContainerId) (header : Option String)
    (body : Json.Value) : Except String Epk :=
  match header with
  | some header => keys.ofHeader container header
  | none =>
    match body with
    | .null => .error "missing 'x-ms-documentdb-partitionkey' header on point operation"
    | body => keys.ofBody container body

/-- `body.get("id").and_then(as_str)`. -/
def bodyId : Json.Value → Option String
  | .object members =>
    match Json.Members.get ['i', 'd'] members with
    | some (.string id) => some (String.ofList id)
    | _ => none
  | _ => none

/-- `inject_system_properties`, without the resource ids. -/
def injectSystemProperties (etag : String) (ts : Nat) : Json.Value → Json.Value
  | .object members =>
    let members := Json.Members.insert ['_', 'e', 't', 'a', 'g'] (.string etag.toList) members
    let members := Json.Members.insert ['_', 't', 's'] (.number (.posInt (UInt64.ofNat ts))) members
    .object (Json.Members.insert ['_', 'a', 't', 't', 'a', 'c', 'h', 'm', 'e', 'n', 't', 's']
      (.string ['a', 't', 't', 'a', 'c', 'h', 'm', 'e', 'n', 't', 's', '/']) members)
  | body => body

/-! ## Handlers -/

/-- A write that a handler accepts: where it goes, and the document or the tombstone. -/
structure Write where
  container : ContainerId
  epk : Epk
  doc : StoredDocument
  isDelete : Bool

/-- The write under the partition's write lock. -/
def Write.change (write : Write) (p : PhysicalPartition) : PhysicalPartition :=
  if write.isDelete then p.drop ⟨write.epk, write.doc.id⟩ else p.put write.doc

def Write.commit (write : Write) (store : RegionStore) : RegionStore :=
  store.modify write.container write.epk write.change

/-- A check that must not find anything. -/
def refuseIf {ε : Type} (found : Bool) (refusal : ε) : Except ε Unit :=
  if found then .error refusal else .ok ()

/-- A value that must be there. -/
def orRefuse {ε α : Type} (found : Option α) (refusal : ε) : Except ε α :=
  match found with
  | some a => .ok a
  | none => .error refusal

/-- `replication_back_pressure_response`. -/
def backPressure (moment : Moment) : Except Refusal Unit :=
  match moment.saturated with
  | some target => .error (.replicationSaturated target)
  | none => .ok ()

/-- The item's EPK and partition, which must not be locked. -/
def locate (keys : PartitionKeys) (store : RegionStore) (request : PointRequest) (body : Json.Value) :
    Except Refusal (Epk × PhysicalPartition) := do
  let state ← orRefuse (store.containers request.container) (.containerNotFound request.container)
  let epk ← (resolvePartitionKey keys request.container request.partitionKeyHeader body).mapError
    .badPartitionKey
  let p ← orRefuse (findPartition state.physicalPartitions epk) .noPartition
  refuseIf p.locked .partitionLocked
  return (epk, p)

def checkIfMatch (ifMatch : Option String) (stored : StoredDocument) : Except Refusal Unit :=
  refuseIf (ifMatch.any (· ≠ stored.etag)) .preconditionFailed

/-- The document a handler stores: a new ETag, the clock's time and the partition's next LSN. -/
def Moment.stored (moment : Moment) (regionName : String) (p : PhysicalPartition) (epk : Epk)
    (id : String) (body : Json.Value) : StoredDocument :=
  { body := injectSystemProperties moment.etag moment.ts body
    id := id
    etag := moment.etag
    ts := moment.ts
    lsn := p.lsn + 1
    epk := epk
    sourceRegion := regionName }

section Handlers

variable (keys : PartitionKeys) (regionName : String) (moment : Moment) (request : PointRequest)
  (store : RegionStore)

/-- `handle_create_locked`. -/
def handleCreate : Except Refusal Write := do
  backPressure moment
  let body ← orRefuse request.body .invalidJson
  let docId ← orRefuse (bodyId body) .missingId
  let (epk, p) ← locate keys store request body
  refuseIf (moment.probe ⟨epk, docId⟩).isSome (.conflict docId)
  refuseIf (p.documents.get? ⟨epk, docId⟩).isSome (.conflict docId)
  refuseIf moment.throttled .throttled
  return ⟨request.container, epk, moment.stored regionName p epk docId body, false⟩

/-- `handle_replace_locked`. -/
def handleReplace : Except Refusal Write := do
  backPressure moment
  let body ← orRefuse request.body .invalidJson
  let id ← orRefuse (bodyId body) .missingId
  refuseIf (id ≠ request.docId) Refusal.idMismatch
  let (epk, p) ← locate keys store request body
  let bodyEpk ← (keys.ofBody request.container body).mapError .badPartitionKey
  refuseIf (bodyEpk ≠ epk) .partitionKeyChanged
  let existing ← orRefuse (moment.probe ⟨epk, request.docId⟩) (.notFound request.docId)
  refuseIf (existing.epk ≠ epk) .storedPartitionKeyDiffers
  checkIfMatch request.ifMatch existing
  let current ← orRefuse (p.documents.get? ⟨epk, request.docId⟩) (.notFound request.docId)
  checkIfMatch request.ifMatch current
  refuseIf moment.throttled .throttled
  return ⟨request.container, epk, moment.stored regionName p epk request.docId body, false⟩

/-- `handle_upsert_locked`. -/
def handleUpsert : Except Refusal Write := do
  backPressure moment
  let body ← orRefuse request.body .invalidJson
  let docId ← orRefuse (bodyId body) .missingId
  let (epk, p) ← locate keys store request body
  refuseIf moment.throttled .throttled
  return ⟨request.container, epk, moment.stored regionName p epk docId body, false⟩

/-- `handle_delete_locked`; the tombstone keeps the ETag and EPK of what it removes. -/
def handleDelete : Except Refusal Write := do
  backPressure moment
  let (epk, p) ← locate keys store request .null
  let existing ← orRefuse (moment.probe ⟨epk, request.docId⟩) (.notFound request.docId)
  checkIfMatch request.ifMatch existing
  let current ← orRefuse (p.documents.get? ⟨epk, request.docId⟩) (.notFound request.docId)
  checkIfMatch request.ifMatch current
  refuseIf moment.throttled .throttled
  let tombstone : StoredDocument :=
    { body := .null
      id := request.docId
      etag := current.etag
      ts := moment.ts
      lsn := p.lsn + 1
      epk := current.epk
      sourceRegion := regionName }
  return ⟨request.container, epk, tombstone, true⟩

/-- How patch bodies are read and their conditions evaluated: `parse_dtx_patch_body` and
`dtx_patch_condition_matches`. -/
structure PatchBodies where
  parse : Json.Value → Except String (List Patch.PatchOperation × Option Text)
  holds : Option Text → Json.Value → Except String Bool

/-- `handle_dtx_patch_operation`. -/
def handleDtxPatch (patches : PatchBodies) : Except Refusal Write := do
  let body ← orRefuse request.body .missingBody
  let (operations, condition) ← (patches.parse body).mapError .invalidPatch
  refuseIf (!store.databases request.container.1) (.databaseNotFound request.container.1)
  let (epk, p) ← locate keys store request .null
  let current ← orRefuse (p.documents.get? ⟨epk, request.docId⟩) (.notFound request.docId)
  checkIfMatch request.ifMatch current
  let holds ← (patches.holds condition current.body).mapError .invalidPatch
  refuseIf (!holds) .patchConditionNotMet
  refuseIf moment.throttled .throttled
  let patched ← (Patch.applyPatchOps current.body operations).mapError .patchFailed
  return ⟨request.container, epk, moment.stored regionName p epk request.docId patched, false⟩

end Handlers

/-! ## What an accepted write does -/

variable {refusal : ε} {α ε : Type} {keys : PartitionKeys}

theorem orRefuse_ok {found : Option α} {a : α}
    (h : orRefuse found refusal = .ok a) : found = some a := by
  cases found with
  | none => cases h
  | some b => exact congrArg some (Except.ok.inj h)

theorem refuseIf_ok {found : Bool} {u : Unit}
    (h : refuseIf found refusal = .ok u) : found = false := by
  cases found with
  | false => rfl
  | true => cases h

theorem mapError_ok {ε' : Type} {x : Except ε α} {f : ε → ε'} {a : α}
    (h : x.mapError f = .ok a) : x = .ok a := by
  cases x with
  | error e => cases h
  | ok b => exact congrArg Except.ok (Except.ok.inj h)

theorem resolvePartitionKey_null {container : ContainerId} {header : Option String} {epk : Epk}
    (h : resolvePartitionKey keys container header .null = .ok epk) (body : Json.Value) :
    resolvePartitionKey keys container header body = .ok epk := by
  cases header with
  | none => cases h
  | some header => exact h

theorem locate_ok {store : RegionStore} {request : PointRequest}
    {body : Json.Value} {epk : Epk} {p : PhysicalPartition}
    (h : locate keys store request body = .ok (epk, p)) :
    resolvePartitionKey keys request.container request.partitionKeyHeader body = .ok epk ∧
      store.partition request.container epk = some p := by
  obtain ⟨state, found, h⟩ := bind_ok h
  obtain ⟨epk', resolved, h⟩ := bind_ok h
  obtain ⟨p', here, h⟩ := bind_ok h
  obtain ⟨_, -, h⟩ := bind_ok h
  cases h
  refine ⟨mapError_ok resolved, ?_⟩
  rw [RegionStore.partition, orRefuse_ok found]
  exact orRefuse_ok here

/-- What holds of every write a handler accepts: it goes to the partition of the EPK that the request
names. -/
structure Write.Fits (write : Write) (keys : PartitionKeys) (request : PointRequest)
    (store : RegionStore) (p : PhysicalPartition) : Prop where
  container : write.container = request.container
  resolved : resolvePartitionKey keys request.container request.partitionKeyHeader
    (request.body.getD .null) = .ok write.epk
  partition : store.partition request.container write.epk = some p
  epk : SameKey write.doc.epk write.epk

section Accepted

variable {keys : PartitionKeys} {regionName : String} {moment : Moment} {request : PointRequest}
  {store : RegionStore} {write : Write}

/-- A document made from the request's body fits. -/
theorem stored_fits {body : Json.Value} {docId : String} {epk : Epk} {p : PhysicalPartition}
    (json : orRefuse request.body Refusal.invalidJson = .ok body)
    (located : locate keys store request body = .ok (epk, p)) :
    Write.Fits ⟨request.container, epk, moment.stored regionName p epk docId body, false⟩ keys
      request store p := by
  obtain ⟨resolved, partition⟩ := locate_ok located
  refine ⟨rfl, ?_, partition, .refl _⟩
  rwa [orRefuse_ok json]

theorem handleCreate_fits (h : handleCreate keys regionName moment request store = .ok write) :
    (∃ p, write.Fits keys request store p) ∧
      request.body.bind bodyId = some write.doc.id := by
  obtain ⟨_, -, h⟩ := bind_ok h
  obtain ⟨body, json, h⟩ := bind_ok h
  obtain ⟨docId, id, h⟩ := bind_ok h
  obtain ⟨⟨epk, p⟩, located, h⟩ := bind_ok h
  obtain ⟨_, -, h⟩ := bind_ok h
  obtain ⟨_, -, h⟩ := bind_ok h
  obtain ⟨_, -, h⟩ := bind_ok h
  cases h
  refine ⟨⟨p, stored_fits json located⟩, ?_⟩
  rw [orRefuse_ok json, bind_some, orRefuse_ok id]
  rfl

theorem handleUpsert_fits (h : handleUpsert keys regionName moment request store = .ok write) :
    (∃ p, write.Fits keys request store p) ∧
      request.body.bind bodyId = some write.doc.id := by
  obtain ⟨_, -, h⟩ := bind_ok h
  obtain ⟨body, json, h⟩ := bind_ok h
  obtain ⟨docId, id, h⟩ := bind_ok h
  obtain ⟨⟨epk, p⟩, located, h⟩ := bind_ok h
  obtain ⟨_, -, h⟩ := bind_ok h
  cases h
  refine ⟨⟨p, stored_fits json located⟩, ?_⟩
  rw [orRefuse_ok json, bind_some, orRefuse_ok id]
  rfl

theorem handleReplace_fits (h : handleReplace keys regionName moment request store = .ok write) :
    (∃ p, write.Fits keys request store p) ∧ write.doc.id = request.docId := by
  obtain ⟨_, -, h⟩ := bind_ok h
  obtain ⟨body, json, h⟩ := bind_ok h
  obtain ⟨id, -, h⟩ := bind_ok h
  obtain ⟨_, -, h⟩ := bind_ok h
  obtain ⟨⟨epk, p⟩, located, h⟩ := bind_ok h
  obtain ⟨bodyEpk, -, h⟩ := bind_ok h
  obtain ⟨_, -, h⟩ := bind_ok h
  obtain ⟨existing, -, h⟩ := bind_ok h
  obtain ⟨_, -, h⟩ := bind_ok h
  obtain ⟨_, -, h⟩ := bind_ok h
  obtain ⟨current, -, h⟩ := bind_ok h
  obtain ⟨_, -, h⟩ := bind_ok h
  obtain ⟨_, -, h⟩ := bind_ok h
  cases h
  exact ⟨⟨p, stored_fits json located⟩, rfl⟩

theorem handleDelete_fits (h : handleDelete keys regionName moment request store = .ok write) :
    (∃ p, write.Fits keys request store p) ∧ write.doc.id = request.docId := by
  obtain ⟨_, -, h⟩ := bind_ok h
  obtain ⟨⟨epk, p⟩, located, h⟩ := bind_ok h
  obtain ⟨existing, -, h⟩ := bind_ok h
  obtain ⟨_, -, h⟩ := bind_ok h
  obtain ⟨current, stored, h⟩ := bind_ok h
  obtain ⟨_, -, h⟩ := bind_ok h
  obtain ⟨_, -, h⟩ := bind_ok h
  cases h
  obtain ⟨resolved, partition⟩ := locate_ok located
  have same := (BTreeMap.get?_eq_some.mp (orRefuse_ok stored)).2
  exact ⟨⟨p, rfl, resolvePartitionKey_null resolved _, partition, (DocKey.sameKey_iff.mp same).1⟩, rfl⟩

theorem handleDtxPatch_fits {patches : PatchBodies}
    (h : handleDtxPatch keys regionName moment request store patches = .ok write) :
    (∃ p, write.Fits keys request store p) ∧ write.doc.id = request.docId := by
  obtain ⟨body, -, h⟩ := bind_ok h
  obtain ⟨⟨operations, condition⟩, -, h⟩ := bind_ok h
  obtain ⟨_, -, h⟩ := bind_ok h
  obtain ⟨⟨epk, p⟩, located, h⟩ := bind_ok h
  obtain ⟨current, -, h⟩ := bind_ok h
  obtain ⟨_, -, h⟩ := bind_ok h
  obtain ⟨holds, -, h⟩ := bind_ok h
  obtain ⟨_, -, h⟩ := bind_ok h
  obtain ⟨_, -, h⟩ := bind_ok h
  obtain ⟨patched, -, h⟩ := bind_ok h
  cases h
  obtain ⟨resolved, partition⟩ := locate_ok located
  exact ⟨⟨p, rfl, resolvePartitionKey_null resolved _, partition, .refl _⟩, rfl⟩

end Accepted

end AzureSdk.Cosmos.Emulator
