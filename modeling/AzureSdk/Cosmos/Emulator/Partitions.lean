/-
# Cosmos.Emulator.Partitions — splits and merges of a container

A container is replicated to every region.  Its regions share the partition key definition and the
counter of partition ids; each has its own partitions and documents, and its own copy of the ETag.

`execute_split` and `execute_merge` look at the first region that has the partitions, fix ids and
bounds there, and then replace the partitions in every region.  The children go to the end of the
list.  A split gives the container a new ETag; a merge does not.
-/
import AzureSdk.Cosmos.Emulator.Midpoint

namespace AzureSdk.Cosmos.Emulator

open Theory

/-- A quoted UUID. -/
def newEtag (uuid : Text) : Text := '"' :: uuid ++ ['"']

/-- A container in one region. -/
structure ContainerState where
  etag : Text
  physicalPartitions : List PhysicalPartition

/-- A container in all regions. -/
structure Container where
  kind : PartitionKeyKind
  version : PartitionKeyVersion
  nextPartitionId : Nat
  regions : List ContainerState

def createPartitions (n : Nat) (kind : PartitionKeyKind) (version : PartitionKeyVersion) :
    List PhysicalPartition :=
  let boundaries := computePartitionBoundaries n kind version
  (List.range n).map fun i =>
    { id := i
      epkMin := if i = 0 then .MIN else boundaries.getD (i - 1) .MIN
      epkMax := if i = n - 1 then .MAX else boundaries.getD i .MAX
      lsn := 0
      localLsn := 0
      vectorClockVersion := 0
      documents := .empty
      parents := []
      locked := false
      deferredReplications := [] }

def withId (id : Nat) (partitions : List PhysicalPartition) : Option PhysicalPartition :=
  partitions.find? fun p => p.id == id

/-- Sets the lock of the partitions with these ids, in every region. -/
def Container.setLocked (c : Container) (ids : List Nat) (locked : Bool) : Container :=
  { c with
    regions := c.regions.map fun state =>
      { state with
        physicalPartitions := state.physicalPartitions.map fun p =>
          if ids.contains p.id then { p with locked := locked } else p } }

/-! ## Splits -/

/-- Where a partition is split: at the given EPK if that is strictly inside, or at the midpoint. -/
def Container.splitPoint (c : Container) (parent : PhysicalPartition) (splitEpk : Option Epk) :
    Option Epk :=
  match splitEpk with
  | some epk => if parent.epkMin < epk ∧ epk < parent.epkMax then some epk else none
  | none => computeEpkMidpoint parent.epkMin parent.epkMax c.kind c.version

/-- A child of a split, with its share of the documents. -/
def splitChild (parent : PhysicalPartition) (id lsn version : Nat) (epkMin epkMax : Epk)
    (documents : Documents) : PhysicalPartition :=
  { id := id
    epkMin := epkMin
    epkMax := epkMax
    lsn := lsn
    localLsn := parent.localLsn + 1
    vectorClockVersion := version
    documents := documents
    parents := [parent.id]
    locked := false
    deferredReplications := [] }

/-- A deferred write goes to the child that covers it. -/
def routeDeferred (midpoint : Epk) (children : PhysicalPartition × PhysicalPartition)
    (deferred : StoredDocument × Bool) : PhysicalPartition × PhysicalPartition :=
  if deferred.1.epk < midpoint then
    (applyDocToPartition children.1 deferred.1 deferred.2, children.2)
  else (children.1, applyDocToPartition children.2 deferred.1 deferred.2)

/-- The split in one region: `seen` is the parent in the first region, `firstId` the first child's
id. -/
def splitRegion (seen : PhysicalPartition) (midpoint : Epk) (firstId : Nat) (etag : Text)
    (state : ContainerState) : ContainerState :=
  match withId seen.id state.physicalPartitions with
  | none => state
  | some parent =>
    let child1 := splitChild parent firstId (seen.lsn + 1) seen.vectorClockVersion seen.epkMin
      midpoint (parent.documents.filter fun doc => decide (doc.epk < midpoint))
    let child2 := splitChild parent (firstId + 1) (seen.lsn + 1) seen.vectorClockVersion midpoint
      seen.epkMax (parent.documents.filter fun doc => !decide (doc.epk < midpoint))
    let children := parent.deferredReplications.foldl (routeDeferred midpoint) (child1, child2)
    { etag := etag
      physicalPartitions :=
        state.physicalPartitions.eraseP (fun p => p.id == seen.id) ++ [children.1, children.2] }

/-- `execute_split`; `etag` is the one a split draws. -/
def Container.executeSplit (c : Container) (partitionId : Nat) (splitEpk : Option Epk)
    (etag : Text) : Container :=
  match c.regions.findSome? fun state => withId partitionId state.physicalPartitions with
  | none => c
  | some seen =>
    match c.splitPoint seen splitEpk with
    | none => c.setLocked [partitionId] false
    | some midpoint =>
      { c with
        nextPartitionId := c.nextPartitionId + 2
        regions := c.regions.map (splitRegion seen midpoint c.nextPartitionId etag) }

/-! ## Merges -/

/-- Orders two partitions by their lower bounds. -/
def lowerUpper (a b : PhysicalPartition) : PhysicalPartition × PhysicalPartition :=
  if a.epkMin < b.epkMin then (a, b) else (b, a)

/-- A deferred write joins the merged documents if it wins; counts the writes that did. -/
def joinDeferred (pool : Documents × Nat) (deferred : StoredDocument × Bool) : Documents × Nat :=
  let doc := deferred.1
  let wins :=
    match pool.1.get? doc.key with
    | none => true
    | some existing => doc.wins existing
  if wins then (if deferred.2 then pool.1.erase doc.key else pool.1.insert doc, pool.2 + 1) else pool

/-- `(ts, lsn, id)` in order. -/
def rebaseOrder (a b : StoredDocument) : Prop :=
  a.ts < b.ts ∨ a.ts = b.ts ∧ (a.lsn < b.lsn ∨ a.lsn = b.lsn ∧ a.id ≤ b.id)

instance : DecidableRel rebaseOrder := fun a b =>
  inferInstanceAs (Decidable (a.ts < b.ts ∨ a.ts = b.ts ∧ (a.lsn < b.lsn ∨ a.lsn = b.lsn ∧ a.id ≤ b.id)))

/-- The documents with the LSNs `1..=N` in rebase order. -/
def rebase (documents : Documents) : Documents :=
  ((documents.entries.insertionSort rebaseOrder).zipIdx 1).foldl
    (fun rebased entry => rebased.insert { entry.1 with lsn := entry.2 }) .empty

/-- The child of a merge in one region. -/
def mergeChild (lower upper : PhysicalPartition) (childId version : Nat) (epkMin epkMax : Epk)
    (parents : List Nat) : PhysicalPartition :=
  let merged := upper.documents.entries.foldl BTreeMap.insert lower.documents
  let pool := (lower.deferredReplications ++ upper.deferredReplications).foldl joinDeferred (merged, 0)
  let rebased := rebase pool.1
  { id := childId
    epkMin := epkMin
    epkMax := epkMax
    lsn := max rebased.entries.length 1
    localLsn := max lower.localLsn upper.localLsn + pool.2 + 1
    vectorClockVersion := version
    documents := rebased
    parents := parents
    locked := false
    deferredReplications := [] }

/-- What a merge fixes in the first region. -/
structure MergePreview where
  epkMin : Epk
  epkMax : Epk
  version : Nat

def mergeRegion (preview : MergePreview) (idA idB childId : Nat) (state : ContainerState) :
    ContainerState :=
  let partitions := state.physicalPartitions
  match partitions.findIdx? (fun p => p.id == idA), partitions.findIdx? (fun p => p.id == idB) with
  | some idxA, some idxB =>
    match partitions[idxA]?, partitions[idxB]? with
    | some a, some b =>
      let child := mergeChild (lowerUpper a b).1 (lowerUpper a b).2 childId preview.version
        preview.epkMin preview.epkMax [idA, idB]
      { state with
        physicalPartitions :=
          -- the larger index first, so that the smaller one stays in place
          (partitions.eraseIdx (max idxA idxB)).eraseIdx (min idxA idxB) ++ [child] }
    | _, _ => state
  | _, _ => state

/-- The two partitions in the first region that has both. -/
def Container.bothPartitions (c : Container) (idA idB : Nat) :
    Option (PhysicalPartition × PhysicalPartition) :=
  c.regions.findSome? fun state => do
    let a ← withId idA state.physicalPartitions
    let b ← withId idB state.physicalPartitions
    return lowerUpper a b

def Container.executeMerge (c : Container) (idA idB : Nat) : Container :=
  match c.bothPartitions idA idB with
  | none => c.setLocked [idA, idB] false
  | some (lower, upper) =>
    if lower.epkMax ≠ upper.epkMin then c.setLocked [idA, idB] false
    else
      let preview : MergePreview :=
        ⟨lower.epkMin, upper.epkMax, max lower.vectorClockVersion upper.vectorClockVersion + 1⟩
      { c with
        nextPartitionId := c.nextPartitionId + 1
        regions := c.regions.map (mergeRegion preview idA idB c.nextPartitionId) }

end AzureSdk.Cosmos.Emulator
