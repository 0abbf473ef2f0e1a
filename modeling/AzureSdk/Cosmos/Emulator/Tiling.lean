/-
# Cosmos.Emulator.Tiling — splits and merges keep the partitions a tiling

The list of partitions is not kept in order, so the invariant counts: every key below `MAX` lies in
exactly one partition.  Ids are distinct, and in every region the documents lie in the partition of
their EPK.

A split replaces one partition and a merge two by partitions that hold the same keys
(`Layout.replace`); the documents are dealt out or put together, and only a merge's rebase changes
anything about them, their LSNs.

Nothing keeps an automatic split's midpoint inside its parent but the bounds themselves, so the run
theorem asks for it: bounds on the container's grid, two apart.  Splits at explicit EPKs and merges
are checked by the emulator.
-/
import AzureSdk.Theory.Erase
import AzureSdk.Theory.Run
import AzureSdk.Cosmos.Emulator.Partitions

namespace AzureSdk.Cosmos.Emulator

open Theory Theory.Interval List StoredDocument Std

/-! ## Layouts -/

/-- What a layout knows of a partition. -/
structure Slot where
  id : Nat
  epkMin : Epk
  epkMax : Epk

def Slot.span (s : Slot) : Span Epk := ⟨s.epkMin, s.epkMax⟩

def PhysicalPartition.slot (p : PhysicalPartition) : Slot := ⟨p.id, p.epkMin, p.epkMax⟩

open PhysicalPartition (slot)

/-- How many of the slots hold a key. -/
def owners (slots : List Slot) (e : Epk) : Nat := slots.countP fun s => decide (s.span.Has e)

/-- A layout: nonempty ranges, one for every key below `MAX`, under distinct ids given out before
`next`. -/
structure Layout (slots : List Slot) (next : Nat) : Prop where
  proper : ∀ s ∈ slots, s.epkMin < s.epkMax
  once : ∀ e, owners slots e = if e < .MAX then 1 else 0
  distinct : (slots.map Slot.id).Nodup
  issued : ∀ s ∈ slots, s.id < next

theorem owners_append (xs ys : List Slot) (e : Epk) :
    owners (xs ++ ys) e = owners xs e + owners ys e :=
  countP_append

theorem owners_perm {xs ys : List Slot} (perm : xs.Perm ys) (e : Epk) : owners xs e = owners ys e :=
  perm.countP_eq _

variable {next n : Nat} {rest slots : List Slot} {s : Slot} {α : Type} {p : PhysicalPartition}
  {state : ContainerState} {c : Container} {a : α} {xs : List α}

/-- Slots may be replaced by new ones that hold the same keys. -/
theorem Layout.replace {new : List Slot} {next' : Nat}
    (layout : Layout slots next) (old : List Slot) (perm : slots.Perm (old ++ rest))
    (proper : ∀ s ∈ new, s.epkMin < s.epkMax) (same : ∀ e, owners new e = owners old e)
    (distinct : (new.map Slot.id).Nodup) (fresh : ∀ s ∈ new, next ≤ s.id ∧ s.id < next')
    (grows : next ≤ next') : Layout (rest ++ new) next' := by
  have kept : ∀ s ∈ rest, s ∈ slots := fun s hs => perm.mem_iff.mpr (mem_append_right old hs)
  refine ⟨?_, ?_, ?_, ?_⟩
  · exact forall_mem_append.mpr ⟨fun s hs => layout.proper s (kept s hs), proper⟩
  · intro e
    rw [← layout.once e, owners_perm perm, owners_append, owners_append, same e, Nat.add_comm]
  · have before := (perm.map Slot.id).nodup_iff.mp layout.distinct
    rw [map_append, nodup_append] at before
    rw [map_append, nodup_append]
    refine ⟨before.2.1, distinct, ?_⟩
    refine forall_mem_map.mpr fun s hs => forall_mem_map.mpr fun t ht same => ?_
    have := layout.issued s (kept s hs)
    have := (fresh t ht).1
    omega
  · exact forall_mem_append.mpr ⟨fun s hs => Nat.lt_of_lt_of_le (layout.issued s (kept s hs)) grows,
      fun s hs => (fresh s hs).2⟩

theorem Layout.eq_of_id (layout : Layout slots next) {t : Slot}
    (hs : s ∈ slots) (ht : t ∈ slots) (same : s.id = t.id) : s = t :=
  inj_on_of_nodup_map layout.distinct hs ht same

variable {midpoint : Epk} {seen b : PhysicalPartition} {kind : PartitionKeyKind}
  {version : PartitionKeyVersion}

theorem Layout.split {parent : Slot}
    (layout : Layout slots next) (perm : slots.Perm (parent :: rest))
    (low : parent.epkMin < midpoint) (high : midpoint < parent.epkMax) :
    Layout (rest ++ [⟨next, parent.epkMin, midpoint⟩, ⟨next + 1, midpoint, parent.epkMax⟩])
      (next + 2) := by
  refine layout.replace [parent] perm ?_ ?_ ?_ ?_ (by omega)
  · simp [low, high]
  · intro e
    simp only [owners, countP_cons, countP_nil, Slot.span, Span.Has]
    grind
  · simp
  · simp

theorem Layout.merge {lower upper : Slot}
    (layout : Layout slots next) (perm : slots.Perm (lower :: upper :: rest))
    (meet : lower.epkMax = upper.epkMin) :
    Layout (rest ++ [⟨next, lower.epkMin, upper.epkMax⟩]) (next + 1) := by
  have properLower := layout.proper lower (perm.mem_iff.mpr (by simp))
  have properUpper := layout.proper upper (perm.mem_iff.mpr (by simp))
  rw [← meet] at properUpper
  refine layout.replace [lower, upper] perm ?_ ?_ ?_ ?_ (by omega)
  · intro s hs
    rw [mem_singleton.mp hs]
    exact lt_trans properLower properUpper
  · intro e
    simp only [owners, countP_cons, countP_nil, Slot.span, Span.Has, ← meet]
    grind
  · simp
  · simp

/-- In order of their lower bounds, the partitions of a layout tile the key space. -/
theorem Layout.tiles (layout : Layout slots next) {partitions : List PhysicalPartition}
    (perm : (partitions.map slot).Perm slots) :
    ∃ sorted : List PhysicalPartition, sorted.Perm partitions ∧
      Tiles EffectivePartitionKey.MIN (sorted.map PhysicalPartition.span) .MAX := by
  let le : PhysicalPartition → PhysicalPartition → Bool := fun p q => decide (p.epkMin ≤ q.epkMin)
  have sorted : (partitions.mergeSort le).Pairwise fun p q => le p q = true := by
    refine pairwise_mergeSort (fun a b c ab bc => ?_) (fun a b => ?_) partitions
    · exact decide_eq_true (le_trans (of_decide_eq_true ab) (of_decide_eq_true bc))
    · simpa [le] using Std.le_total
  have same := mergeSort_perm partitions le
  have slotsPerm := (same.map slot).trans perm
  refine ⟨partitions.mergeSort le, same, tiles_of_countP (by decide) ?_ ?_ ?_⟩
  · exact pairwise_map.mpr (sorted.imp of_decide_eq_true)
  · exact forall_mem_map.mpr fun p hp => layout.proper p.slot (slotsPerm.mem_iff.mp (mem_map_of_mem hp))
  · intro e
    have count := layout.once e
    rw [← owners_perm slotsPerm, owners, countP_map] at count
    rw [countP_map]
    refine count.trans (if_congr ?_ rfl rfl)
    exact ⟨fun below => ⟨EffectivePartitionKey.min_le e, below⟩, And.right⟩

/-! ## Documents -/

/-- A document without its LSN, which a merge numbers afresh. -/
def StoredDocument.unversioned (doc : StoredDocument) : StoredDocument := { doc with lsn := 0 }

def ContainerState.stored (state : ContainerState) : List StoredDocument :=
  state.physicalPartitions.flatMap fun p => p.documents.entries

/-- The documents of two states are the same, each as often in one as in the other. -/
def Kept (before after : ContainerState) : Prop :=
  (after.stored.map unversioned).Perm (before.stored.map unversioned)

/-- A region with this layout, whose documents lie in the partitions of their EPKs. -/
structure Placed (slots : List Slot) (state : ContainerState) : Prop where
  layout : (state.physicalPartitions.map slot).Perm slots
  placed : ∀ p ∈ state.physicalPartitions, ∀ doc ∈ p.documents.entries, p.span.Has doc.epk
  settled : ∀ p ∈ state.physicalPartitions, p.deferredReplications = []

theorem perm_cons_eraseP {p : α → Bool} (found : xs.find? p = some a) :
    xs.Perm (a :: xs.eraseP p) := by
  obtain ⟨here, before, after, rfl, skipped⟩ := find?_eq_some_iff_append.mp found
  rw [eraseP_append_right _ (by simpa using skipped), eraseP_cons_of_pos here]
  exact perm_middle

theorem withId_some {id : Nat} {partitions : List PhysicalPartition}
    (found : withId id partitions = some p) : p ∈ partitions ∧ p.id = id := by
  have here := find?_some found
  exact ⟨mem_of_find?_eq_some found, by simpa using here⟩

theorem withId_of_slot (placed : Placed slots state) (hs : s ∈ slots) :
    ∃ p, withId s.id state.physicalPartitions = some p := by
  obtain ⟨p, hp, rfl⟩ := mem_map.mp (placed.layout.mem_iff.mpr hs)
  refine Option.isSome_iff_exists.mp (find?_isSome.mpr ⟨p, hp, ?_⟩)
  simp [slot]

/-- The partition of an id has the one slot of that id. -/
theorem slot_of_withId (layout : Layout slots next) (placed : Placed slots state) (hs : s ∈ slots)
    (found : withId s.id state.physicalPartitions = some p) : p.slot = s := by
  obtain ⟨mem, same⟩ := withId_some found
  exact layout.eq_of_id (placed.layout.mem_iff.mp (mem_map_of_mem mem)) hs same

/-- The documents of some partitions, without their LSNs. -/
def documentsOf (partitions : List PhysicalPartition) : List StoredDocument :=
  (partitions.flatMap fun p => p.documents.entries).map unversioned

/-- Partitions may be replaced by new ones with the same documents. -/
theorem Placed.replace
    (placed : Placed slots state) (old new erased : List PhysicalPartition) (etag : Text)
    (out : state.physicalPartitions.Perm (old ++ erased)) (perm : slots.Perm (old.map slot ++ rest))
    (inPlace : ∀ p ∈ new, ∀ doc ∈ p.documents.entries, p.span.Has doc.epk)
    (settled : ∀ p ∈ new, p.deferredReplications = [])
    (same : (documentsOf new).Perm (documentsOf old)) :
    Placed (rest ++ new.map slot) ⟨etag, erased ++ new⟩ ∧
      Kept state ⟨etag, erased ++ new⟩ := by
  have stay : ∀ p ∈ erased, p ∈ state.physicalPartitions := fun p hp =>
    out.mem_iff.mpr (mem_append_right old hp)
  have others : (erased.map slot).Perm rest := by
    have slotsOut := (out.map slot).symm.trans (placed.layout.trans perm)
    rw [map_append] at slotsOut
    exact (perm_append_left_iff _).mp slotsOut
  refine ⟨⟨?_, ?_, ?_⟩, ?_⟩
  · rw [map_append]
    exact others.append_right _
  · exact forall_mem_append.mpr ⟨fun p hp => placed.placed p (stay p hp), inPlace⟩
  · exact forall_mem_append.mpr ⟨fun p hp => placed.settled p (stay p hp), settled⟩
  · have moved : (documentsOf (erased ++ new)).Perm (documentsOf (old ++ erased)) := by
      simp only [documentsOf, flatMap_append, map_append]
      exact (same.append_left _).trans perm_append_comm
    exact moved.trans ((out.flatMap_right _).map _).symm

theorem splitRegion_placed (layout : Layout slots next) (midpoint : Epk) (etag : Text)
    (perm : slots.Perm (seen.slot :: rest)) (placed : Placed slots state) :
    Placed (rest ++ [⟨next, seen.epkMin, midpoint⟩, ⟨next + 1, midpoint, seen.epkMax⟩])
        (splitRegion seen midpoint next etag state) ∧
      Kept state (splitRegion seen midpoint next etag state) := by
  have mem : seen.slot ∈ slots := perm.mem_iff.mpr (.head _)
  obtain ⟨parent, found⟩ := withId_of_slot placed mem
  have same : parent.slot = seen.slot := slot_of_withId layout placed mem found
  obtain ⟨member, -⟩ := withId_some found
  have out := perm_cons_eraseP found
  have low : parent.epkMin = seen.epkMin := congrArg Slot.epkMin same
  have high : parent.epkMax = seen.epkMax := congrArg Slot.epkMax same
  have found : withId seen.id state.physicalPartitions = some parent := found
  simp only [splitRegion, found, placed.settled parent member, foldl_nil]
  have perm : slots.Perm ([parent].map slot ++ rest) := by
    rw [map_singleton, same]
    exact perm
  refine placed.replace [parent]
    [splitChild parent next (seen.lsn + 1) seen.vectorClockVersion seen.epkMin midpoint
        (parent.documents.filter fun doc => decide (doc.epk < midpoint)),
      splitChild parent (next + 1) (seen.lsn + 1) seen.vectorClockVersion midpoint seen.epkMax
        (parent.documents.filter fun doc => !decide (doc.epk < midpoint))]
    _ etag out perm ?_ ?_ ?_
  · intro p hp doc hdoc
    rcases mem_pair.mp hp with rfl | rfl
    · obtain ⟨stored, below⟩ := mem_filter.mp hdoc
      have has := placed.placed parent member doc stored
      exact ⟨low ▸ has.1, of_decide_eq_true below⟩
    · obtain ⟨stored, above⟩ := mem_filter.mp hdoc
      have has := placed.placed parent member doc stored
      refine ⟨?_, high ▸ has.2⟩
      show midpoint ≤ doc.epk
      grind
  · intro p hp
    rcases mem_pair.mp hp with rfl | rfl <;> rfl
  · refine List.Perm.map _ ?_
    simp only [flatMap_cons, flatMap_nil, append_nil]
    exact filter_append_perm _ parent.documents.entries

theorem rebase_unversioned (documents : Documents) :
    ((rebase documents).entries.map unversioned).Perm
      (documents.entries.map unversioned) := by
  let number : StoredDocument × Nat → StoredDocument := fun entry => { entry.1 with lsn := entry.2 }
  let sorted := documents.entries.insertionSort rebaseOrder
  have perm : sorted.Perm documents.entries := perm_insertionSort _ _
  have unlike : sorted.Pairwise fun a b => ¬ SameKey a.key b.key :=
    documents.apart.perm perm.symm fun ne near => ne near.symm
  have numbered : ((sorted.zipIdx 1).map number).Pairwise fun a b => ¬ SameKey a.key b.key := by
    have firsts : ((sorted.zipIdx 1).map Prod.fst).Pairwise fun a b => ¬ SameKey a.key b.key := by
      rw [zipIdx_map_fst]
      exact unlike
    exact pairwise_map.mpr (pairwise_map.mp firsts)
  have inserted : (rebase documents).entries.Perm ((sorted.zipIdx 1).map number) := by
    have := BTreeMap.foldl_insert_perm (m := .empty) numbered (fun x _ => rfl)
    rw [foldl_map] at this
    exact this
  have forgets : ((sorted.zipIdx 1).map number).map unversioned =
      sorted.map unversioned := by
    rw [map_map]
    show (sorted.zipIdx 1).map (unversioned ∘ Prod.fst) = _
    rw [← map_map, zipIdx_map_fst]
  exact (inserted.map _).trans (forgets ▸ perm.map _)

theorem perm_eraseIdx_eraseIdx {b : α} {i j : Nat} (ne : i ≠ j)
    (hi : xs[i]? = some a) (hj : xs[j]? = some b) :
    xs.Perm (a :: b :: (xs.eraseIdx (max i j)).eraseIdx (min i j)) := by
  rcases Nat.lt_or_gt_of_ne ne with less | greater
  · rw [Nat.max_eq_right (Nat.le_of_lt less), Nat.min_eq_left (Nat.le_of_lt less)]
    exact Erase.perm_erase_pair less hi hj
  · rw [Nat.max_eq_left (Nat.le_of_lt greater), Nat.min_eq_right (Nat.le_of_lt greater)]
    exact (Erase.perm_erase_pair greater hj hi).trans (.swap a b _)

theorem findIdx?_of_find? {p : α → Bool} (found : xs.find? p = some a) :
    ∃ i, xs.findIdx? p = some i ∧ xs[i]? = some a := by
  obtain ⟨here, i, bound, rfl, skipped⟩ := find?_eq_some_iff_getElem.mp found
  exact ⟨i, findIdx?_eq_some_iff_getElem.mpr ⟨bound, here, by simpa using skipped⟩,
    getElem?_eq_getElem bound⟩

theorem mergeChild_documents {lower upper : PhysicalPartition} {childId version : Nat}
    {epkMin epkMax : Epk} {parents : List Nat}
    (inLower : ∀ doc ∈ lower.documents.entries, doc.epk < lower.epkMax)
    (inUpper : ∀ doc ∈ upper.documents.entries, upper.epkMin ≤ doc.epk)
    (settled : lower.deferredReplications ++ upper.deferredReplications = [])
    (meet : lower.epkMax = upper.epkMin) :
    (documentsOf [mergeChild lower upper childId version epkMin epkMax parents]).Perm
      (documentsOf [lower, upper]) := by
  have absent : ∀ doc ∈ upper.documents.entries, lower.documents.get? doc.key = none := by
    intro doc hdoc
    refine BTreeMap.get?_eq_none.mpr fun other mem same => ?_
    have near := (DocKey.sameKey_iff.mp same).1
    unfold SameKey key at near
    grind
  have joined := BTreeMap.foldl_insert_perm upper.documents.apart absent
  have rebased := rebase_unversioned (upper.documents.entries.foldl BTreeMap.insert lower.documents)
  unfold documentsOf
  simp only [mergeChild, settled, foldl_nil, flatMap_cons, flatMap_nil,
    append_nil]
  exact rebased.trans (joined.map _)

theorem lowerUpper_perm (a b : PhysicalPartition) :
    [(lowerUpper a b).1, (lowerUpper a b).2].Perm [a, b] := by
  unfold lowerUpper
  split
  · exact .refl _
  · exact .swap a b []

theorem lowerUpper_slot {a a' b' : PhysicalPartition} (hA : a.slot = a'.slot)
    (hB : b.slot = b'.slot) :
    (lowerUpper a b).1.slot = (lowerUpper a' b').1.slot ∧
      (lowerUpper a b).2.slot = (lowerUpper a' b').2.slot := by
  have lowA : a.epkMin = a'.epkMin := congrArg Slot.epkMin hA
  have lowB : b.epkMin = b'.epkMin := congrArg Slot.epkMin hB
  unfold lowerUpper
  rw [lowA, lowB]
  split
  · exact ⟨hA, hB⟩
  · exact ⟨hB, hA⟩

/-- The merge in a region, of partitions that meet in the first region. -/
theorem mergeRegion_placed (layout : Layout slots next)
    {seenA seenB : PhysicalPartition} (ne : seenA.id ≠ seenB.id)
    (meet : (lowerUpper seenA seenB).1.epkMax = (lowerUpper seenA seenB).2.epkMin)
    (perm : slots.Perm
      ((lowerUpper seenA seenB).1.slot :: (lowerUpper seenA seenB).2.slot :: rest))
    (version : Nat) (placed : Placed slots state) :
    let preview : MergePreview :=
      ⟨(lowerUpper seenA seenB).1.epkMin, (lowerUpper seenA seenB).2.epkMax, version⟩
    Placed (rest ++ [⟨next, preview.epkMin, preview.epkMax⟩])
        (mergeRegion preview seenA.id seenB.id next state) ∧
      Kept state (mergeRegion preview seenA.id seenB.id next state) := by
  intro preview
  have both : ∀ s, s = seenA.slot ∨ s = seenB.slot → s ∈ slots := by
    intro s hs
    have swapped := ((lowerUpper_perm seenA seenB).map slot).append_right rest
    refine (perm.trans swapped).mem_iff.mpr (mem_append_left _ ?_)
    simpa using hs
  obtain ⟨a, foundA⟩ := withId_of_slot placed (both _ (.inl rfl))
  obtain ⟨b, foundB⟩ := withId_of_slot placed (both _ (.inr rfl))
  have slotA := slot_of_withId layout placed (both _ (.inl rfl)) foundA
  have slotB := slot_of_withId layout placed (both _ (.inr rfl)) foundB
  obtain ⟨i, indexA, atA⟩ := findIdx?_of_find? foundA
  obtain ⟨j, indexB, atB⟩ := findIdx?_of_find? foundB
  have apart : i ≠ j := by
    rintro rfl
    rw [atA, Option.some.injEq] at atB
    exact ne ((congrArg Slot.id slotA).symm.trans (atB ▸ congrArg Slot.id slotB))
  have indexA : state.physicalPartitions.findIdx? (fun p => p.id == seenA.id) = some i := indexA
  have indexB : state.physicalPartitions.findIdx? (fun p => p.id == seenB.id) = some j := indexB
  obtain ⟨lowerSlot, upperSlot⟩ := lowerUpper_slot slotA slotB
  have out := (perm_eraseIdx_eraseIdx apart atA atB).trans
    ((lowerUpper_perm a b).symm.append_right _)
  simp only [mergeRegion, indexA, indexB, atA, atB]
  have low : (lowerUpper a b).1.epkMin = preview.epkMin := congrArg Slot.epkMin lowerSlot
  have high : (lowerUpper a b).2.epkMax = preview.epkMax := congrArg Slot.epkMax upperSlot
  have meet : (lowerUpper a b).1.epkMax = (lowerUpper a b).2.epkMin :=
    (congrArg Slot.epkMax lowerSlot).trans (meet.trans (congrArg Slot.epkMin upperSlot).symm)
  rw [← lowerSlot, ← upperSlot] at perm
  generalize (lowerUpper a b).1 = lower at *
  generalize (lowerUpper a b).2 = upper at *
  have lowerMem : lower ∈ state.physicalPartitions := out.mem_iff.mpr (by simp)
  have upperMem : upper ∈ state.physicalPartitions := out.mem_iff.mpr (by simp)
  have settled : lower.deferredReplications ++ upper.deferredReplications = [] := by
    rw [placed.settled lower lowerMem, placed.settled upper upperMem]
    rfl
  have documents : (documentsOf
      [mergeChild lower upper next preview.version preview.epkMin preview.epkMax
        [seenA.id, seenB.id]]).Perm (documentsOf [lower, upper]) :=
    mergeChild_documents (fun doc hdoc => (placed.placed lower lowerMem doc hdoc).2)
      (fun doc hdoc => (placed.placed upper upperMem doc hdoc).1) settled meet
  refine placed.replace [lower, upper] [_] _ state.etag out perm ?_ ?_ documents
  · intro p hp doc hdoc
    rw [mem_singleton.mp hp] at hdoc ⊢
    -- the document is one of the parents', up to its LSN
    have mem : doc.unversioned ∈ documentsOf [lower, upper] := by
      refine documents.mem_iff.mp (mem_map_of_mem ?_)
      simpa using hdoc
    obtain ⟨original, stored, same⟩ := mem_map.mp mem
    have same : original.unversioned.epk = doc.unversioned.epk := by rw [same]
    have same : original.epk = doc.epk := same
    show preview.epkMin ≤ doc.epk ∧ doc.epk < preview.epkMax
    rw [← low, ← high, ← same]
    have properLower : lower.epkMin < lower.epkMax :=
      layout.proper lower.slot (perm.mem_iff.mpr (by simp))
    have properUpper : upper.epkMin < upper.epkMax :=
      layout.proper upper.slot (perm.mem_iff.mpr (by simp))
    rw [← meet] at properUpper
    rcases (by simpa using stored : _ ∨ _) with inLower | inUpper
    · have has := placed.placed lower lowerMem original inLower
      exact ⟨has.1, lt_trans has.2 properUpper⟩
    · have has := placed.placed upper upperMem original inUpper
      have above : upper.epkMin ≤ original.epk := has.1
      rw [← meet] at above
      exact ⟨le_of_lt (lt_of_lt_of_le properLower above), has.2⟩
  · intro p hp
    rw [mem_singleton.mp hp]
    rfl

/-! ## Runs -/

/-- A split, at an explicit EPK or automatic, with the ETag it would draw; a merge. -/
inductive TopologyChange
  | split (partitionId : Nat) (splitEpk : Option Epk) (etag : Text)
  | merge (idA idB : Nat)

/-- `split_partition`, `split_partition_at_epk` and `merge_partitions`: the partitions are locked
until the change is made or refused. -/
def Container.change (c : Container) : TopologyChange → Container
  | .split partitionId splitEpk etag =>
    (c.setLocked [partitionId] true).executeSplit partitionId splitEpk etag
  | .merge idA idB => (c.setLocked [idA, idB] true).executeMerge idA idB

/-- An automatic split acts on bounds of the grid that are two apart. -/
def Container.Bisects (c : Container) : TopologyChange → Prop
  | .split partitionId none _ => ∀ state ∈ c.regions, ∀ p ∈ state.physicalPartitions,
    p.id = partitionId → (gridOf c.kind c.version).Bisectable p.epkMin p.epkMax
  | _ => True

/-- The invariant: one layout for all regions, and every region's documents in their places. -/
def Container.Sound (c : Container) : Prop :=
  ∃ slots, Layout slots c.nextPartitionId ∧ ∀ state ∈ c.regions, Placed slots state

/-- The regions of two containers, with the same documents each. -/
def AllKept (before after : List ContainerState) : Prop := List.Forall₂ Kept before after

theorem AllKept.map {regions : List ContainerState} {f : ContainerState → ContainerState}
    (each : ∀ state ∈ regions, Kept state (f state)) : AllKept regions (regions.map f) :=
  forall₂_map_right_iff.mpr (forall₂_same.mpr each)

theorem AllKept.trans {xs ys zs : List ContainerState} (first : AllKept xs ys)
    (second : AllKept ys zs) : AllKept xs zs := by
  induction first generalizing zs with
  | nil => exact second
  | cons head _ ih =>
    cases second with
    | cons head' tail' => exact .cons (head'.trans head) (ih tail')

theorem lock_placed (placed : Placed slots state) (lock : PhysicalPartition → PhysicalPartition)
    (same : ∀ p, (lock p).slot = p.slot ∧ (lock p).documents = p.documents ∧
      (lock p).deferredReplications = p.deferredReplications) :
    Placed slots { state with physicalPartitions := state.physicalPartitions.map lock } ∧
      Kept state { state with physicalPartitions := state.physicalPartitions.map lock } := by
  refine ⟨⟨?_, ?_, ?_⟩, ?_⟩
  · have slots : slot ∘ lock = slot :=
      funext fun p => (same p).1
    show ((state.physicalPartitions.map lock).map slot).Perm _
    rw [map_map, slots]
    exact placed.layout
  · refine forall_mem_map.mpr fun q hq doc hdoc => ?_
    rw [(same q).2.1] at hdoc
    have has := placed.placed q hq doc hdoc
    have spans : (lock q).span = q.span := congrArg Slot.span (same q).1
    rw [spans]
    exact has
  · refine forall_mem_map.mpr fun q hq => ?_
    rw [(same q).2.2]
    exact placed.settled q hq
  · have stored : ((state.physicalPartitions.map lock).flatMap fun p => p.documents.entries) =
        state.physicalPartitions.flatMap fun p => p.documents.entries := by
      rw [flatMap_map]
      simp only [(same _).2.1]
    show (((state.physicalPartitions.map lock).flatMap fun p => p.documents.entries).map _).Perm _
    rw [stored]
    exact .refl _

theorem exists_perm_cons (mem : a ∈ xs) : ∃ rest, xs.Perm (a :: rest) := by
  obtain ⟨before, after, rfl⟩ := append_of_mem mem
  exact ⟨before ++ after, perm_middle⟩

theorem Layout.exists_perm_pair (layout : Layout slots next)
    {a : PhysicalPartition} (hA : a.slot ∈ slots) (hB : b.slot ∈ slots)
    (meet : (lowerUpper a b).1.epkMax = (lowerUpper a b).2.epkMin) :
    a.id ≠ b.id ∧ ∃ rest, slots.Perm ((lowerUpper a b).1.slot :: (lowerUpper a b).2.slot :: rest) := by
  have ne : a.slot ≠ b.slot := by
    intro same
    have low : a.epkMin = b.epkMin := congrArg Slot.epkMin same
    have high : a.epkMax = b.epkMax := congrArg Slot.epkMax same
    have proper : a.epkMin < a.epkMax := layout.proper a.slot hA
    have closed : a.epkMax = a.epkMin := by
      unfold lowerUpper at meet
      split at meet
      · exact meet.trans low.symm
      · exact high.trans meet
    rw [closed] at proper
    exact absurd proper (lt_irrefl)
  refine ⟨fun same => ne (layout.eq_of_id hA hB same), ?_⟩
  obtain ⟨others, first⟩ := exists_perm_cons hA
  have second : b.slot ∈ others := by
    rcases mem_cons.mp (first.mem_iff.mp hB) with same | mem
    · exact absurd same.symm ne
    · exact mem
  obtain ⟨rest, both⟩ := exists_perm_cons second
  have swapped := ((lowerUpper_perm a b).map slot).append_right rest
  exact ⟨rest, (first.trans (both.cons _)).trans swapped.symm⟩

section Steps

variable {c : Container} {slots : List Slot} (layout : Layout slots c.nextPartitionId)
  (placed : ∀ state ∈ c.regions, Placed slots state)

include placed in
theorem setLocked_placed (ids : List Nat) (locked : Bool) :
    (∀ state ∈ (c.setLocked ids locked).regions, Placed slots state) ∧
      AllKept c.regions (c.setLocked ids locked).regions := by
  have each := fun state hstate => lock_placed (placed state hstate)
    (fun p => if ids.contains p.id then { p with locked := locked } else p)
    (fun p => by split <;> exact ⟨rfl, rfl, rfl⟩)
  refine ⟨fun state' hstate' => ?_, AllKept.map fun state hstate => (each state hstate).2⟩
  obtain ⟨state, hstate, rfl⟩ := mem_map.mp hstate'
  exact (each state hstate).1

include layout placed

omit layout in
theorem bothPartitions_some {idA idB : Nat} {pair : PhysicalPartition × PhysicalPartition}
    (found : c.bothPartitions idA idB = some pair) :
    ∃ a b : PhysicalPartition, a.slot ∈ slots ∧ b.slot ∈ slots ∧ a.id = idA ∧ b.id = idB ∧
      pair = lowerUpper a b := by
  obtain ⟨state, hstate, here⟩ := exists_of_findSome?_eq_some found
  obtain ⟨a, foundA, here⟩ := Option.bind_eq_some_iff.mp here
  obtain ⟨b, foundB, here⟩ := Option.bind_eq_some_iff.mp here
  obtain ⟨memA, sameA⟩ := withId_some foundA
  obtain ⟨memB, sameB⟩ := withId_some foundB
  have slotOf : ∀ p ∈ state.physicalPartitions, p.slot ∈ slots := fun p hp =>
    (placed state hstate).layout.mem_iff.mp (mem_map_of_mem hp)
  exact ⟨a, b, slotOf a memA, slotOf b memB, sameA, sameB, (Option.some.inj here).symm⟩

theorem executeSplit_sound {partitionId : Nat} {splitEpk : Option Epk} (etag : Text)
    (inside : ∀ state ∈ c.regions, ∀ seen ∈ state.physicalPartitions, seen.id = partitionId →
      ∀ midpoint, c.splitPoint seen splitEpk = some midpoint →
        seen.epkMin < midpoint ∧ midpoint < seen.epkMax) :
    (c.executeSplit partitionId splitEpk etag).Sound ∧
      AllKept c.regions (c.executeSplit partitionId splitEpk etag).regions := by
  unfold Container.executeSplit
  split
  · exact ⟨⟨slots, layout, placed⟩, forall₂_same.mpr fun state _ => .refl _⟩
  · rename_i seen found
    obtain ⟨state, hstate, here⟩ := exists_of_findSome?_eq_some found
    obtain ⟨member, same⟩ := withId_some here
    have mem : seen.slot ∈ slots :=
      (placed state hstate).layout.mem_iff.mp (mem_map_of_mem member)
    split
    · obtain ⟨unlocked, kept⟩ := setLocked_placed placed [partitionId] false
      exact ⟨⟨slots, layout, unlocked⟩, kept⟩
    · rename_i midpoint point
      obtain ⟨low, high⟩ := inside state hstate seen member same midpoint point
      obtain ⟨rest, perm⟩ := exists_perm_cons mem
      have each := fun state hstate =>
        splitRegion_placed layout midpoint etag perm (placed state hstate)
      refine ⟨⟨_, layout.split perm low high, fun state' hstate' => ?_⟩,
        AllKept.map fun state hstate => (each state hstate).2⟩
      obtain ⟨state, hstate, rfl⟩ := mem_map.mp hstate'
      exact (each state hstate).1

theorem executeMerge_sound (idA idB : Nat) :
    (c.executeMerge idA idB).Sound ∧ AllKept c.regions (c.executeMerge idA idB).regions := by
  have refused : (c.setLocked [idA, idB] false).Sound ∧
      AllKept c.regions (c.setLocked [idA, idB] false).regions := by
    obtain ⟨unlocked, kept⟩ := setLocked_placed placed [idA, idB] false
    exact ⟨⟨slots, layout, unlocked⟩, kept⟩
  unfold Container.executeMerge
  split
  · exact refused
  · rename_i lower upper found
    split
    · exact refused
    · rename_i meet
      have meet : lower.epkMax = upper.epkMin := not_not.mp meet
      obtain ⟨a, b, hA, hB, rfl, rfl, pair⟩ := bothPartitions_some placed found
      have atLower : lower = (lowerUpper a b).1 := congrArg Prod.fst pair
      have atUpper : upper = (lowerUpper a b).2 := congrArg Prod.snd pair
      rw [atLower, atUpper] at meet ⊢
      obtain ⟨ne, rest, perm⟩ := layout.exists_perm_pair hA hB meet
      have each := fun version state hstate =>
        mergeRegion_placed layout ne meet perm version (placed state hstate)
      refine ⟨⟨_, layout.merge perm meet, fun state' hstate' => ?_⟩,
        AllKept.map fun state hstate => (each _ state hstate).2⟩
      obtain ⟨state, hstate, rfl⟩ := mem_map.mp hstate'
      exact (each _ state hstate).1

end Steps

theorem mem_setLocked {ids : List Nat} {locked : Bool}
    (hstate : state ∈ (c.setLocked ids locked).regions) (hp : p ∈ state.physicalPartitions) :
    ∃ before ∈ c.regions, ∃ q ∈ before.physicalPartitions, q.slot = p.slot := by
  obtain ⟨before, hbefore, rfl⟩ := mem_map.mp hstate
  obtain ⟨q, hq, rfl⟩ := mem_map.mp hp
  refine ⟨before, hbefore, q, hq, ?_⟩
  split <;> rfl

theorem splitPoint_inside {partitionId : Nat} {splitEpk : Option Epk} {etag : Text}
    (bisects : c.Bisects (.split partitionId splitEpk etag))
    (hstate : state ∈ (c.setLocked [partitionId] true).regions)
    (member : seen ∈ state.physicalPartitions) (same : seen.id = partitionId)
    (point : (c.setLocked [partitionId] true).splitPoint seen splitEpk = some midpoint) :
    seen.epkMin < midpoint ∧ midpoint < seen.epkMax := by
  match splitEpk with
  | some epk =>
    change (if seen.epkMin < epk ∧ epk < seen.epkMax then some epk else none) = some midpoint at point
    split at point
    · rename_i between
      cases point
      exact between
    · exact absurd point (by simp)
  | none =>
    obtain ⟨before, hbefore, q, hq, slot⟩ := mem_setLocked hstate member
    have id : q.id = seen.id := congrArg Slot.id slot
    have low : q.epkMin = seen.epkMin := congrArg Slot.epkMin slot
    have high : q.epkMax = seen.epkMax := congrArg Slot.epkMax slot
    have standard := bisects before hbefore q hq (id.trans same)
    rw [low, high] at standard
    exact bisectable_midpoint standard point

theorem change_sound (sound : c.Sound) {change : TopologyChange} (bisects : c.Bisects change) :
    (c.change change).Sound ∧ AllKept c.regions (c.change change).regions := by
  obtain ⟨slots, layout, placed⟩ := sound
  match change with
  | .merge idA idB =>
    obtain ⟨locked, kept⟩ := setLocked_placed placed [idA, idB] true
    obtain ⟨sound', kept'⟩ :=
      executeMerge_sound (c := c.setLocked [idA, idB] true) layout locked idA idB
    exact ⟨sound', kept.trans kept'⟩
  | .split partitionId splitEpk etag =>
    obtain ⟨locked, kept⟩ := setLocked_placed placed [partitionId] true
    obtain ⟨sound', kept'⟩ :=
      executeSplit_sound (c := c.setLocked [partitionId] true) layout locked etag
        fun state hstate seen member same midpoint point =>
          splitPoint_inside bisects hstate member same point
    exact ⟨sound', kept.trans kept'⟩

/-! ## Fresh containers -/

/-- A container as it is created with `n` partitions, with documents in their partitions. -/
structure Container.Fresh (c : Container) (n : Nat) : Prop where
  counter : c.nextPartitionId = n
  regions : ∀ state ∈ c.regions,
    state.physicalPartitions.map slot =
      (createPartitions n c.kind c.version).map slot
  placed : ∀ state ∈ c.regions, ∀ p ∈ state.physicalPartitions, ∀ doc ∈ p.documents.entries,
    p.span.Has doc.epk
  settled : ∀ state ∈ c.regions, ∀ p ∈ state.physicalPartitions, p.deferredReplications = []

theorem createPartitions_slots (few : n ≤ 2 ^ 32) : (createPartitions n kind version).map slot =
      (range n).map fun i => ⟨i, freshCut n kind version i, freshCut n kind version (i + 1)⟩ := by
  rw [createPartitions, map_map]
  refine map_congr_left fun i hi => ?_
  have less := mem_range.mp hi
  have low : (if i = 0 then EffectivePartitionKey.MIN
      else (computePartitionBoundaries n kind version).getD (i - 1) .MIN) =
        freshCut n kind version i := by
    by_cases zero : i = 0
    · rw [if_pos zero, freshCut, if_pos zero]
    · rw [if_neg zero]
      exact boundaries_getD (Nat.pos_of_ne_zero zero) less few _
  have high : (if i = n - 1 then EffectivePartitionKey.MAX
      else (computePartitionBoundaries n kind version).getD i .MAX) =
        freshCut n kind version (i + 1) := by
    by_cases last : i = n - 1
    · rw [if_pos last, freshCut, if_neg (Nat.succ_ne_zero i), if_pos (by omega)]
    · rw [if_neg last]
      exact boundaries_getD (Nat.succ_pos i) (by omega) few _
  simp only [Function.comp, slot, low, high]

theorem createPartitions_layout (positive : 0 < n) (few : n ≤ 2 ^ 32) :
    Layout ((createPartitions n kind version).map slot) n := by
  rw [createPartitions_slots few]
  have tiles := tiles_range' (freshCut n kind version) n 0 fun i _ less =>
    freshCut_lt (by omega) few
  have last : freshCut n kind version (0 + n) = .MAX := by
    rw [freshCut, if_neg (by omega), if_pos (by omega)]
  rw [last, ← range_eq_range'] at tiles
  refine ⟨?_, ?_, ?_, ?_⟩
  · exact forall_mem_map.mpr fun i hi => freshCut_lt (mem_range.mp hi) few
  · intro e
    have count := countP_tiles (e := e) tiles
    rw [countP_map] at count
    rw [owners, countP_map]
    refine count.trans (if_congr ?_ rfl rfl)
    exact ⟨And.right, fun below => ⟨EffectivePartitionKey.min_le e, below⟩⟩
  · rw [map_map]
    exact (map_id' (range n)).symm ▸ nodup_range
  · exact forall_mem_map.mpr fun i hi => mem_range.mp hi

theorem Container.Fresh.sound (fresh : c.Fresh n) (positive : 0 < n)
    (few : n ≤ 2 ^ 32) : c.Sound := by
  refine ⟨_, ?_, fun state hstate =>
    ⟨.of_eq (fresh.regions state hstate), fresh.placed state hstate, fresh.settled state hstate⟩⟩
  rw [fresh.counter]
  exact createPartitions_layout positive few

def maxPartitionCount : Nat := 100000

/-- A region whose partitions tile the key space, whatever their order, with every document in the
partition of its EPK. -/
structure Tiled (state : ContainerState) : Prop where
  tiles : ∃ sorted : List PhysicalPartition, sorted.Perm state.physicalPartitions ∧
    Tiles EffectivePartitionKey.MIN (sorted.map PhysicalPartition.span) .MAX
  proper : ∀ p ∈ state.physicalPartitions, p.epkMin < p.epkMax
  placed : ∀ p ∈ state.physicalPartitions, ∀ doc ∈ p.documents.entries, p.span.Has doc.epk

theorem Container.Sound.tiled (sound : c.Sound) : ∀ state ∈ c.regions, Tiled state := by
  obtain ⟨slots, layout, placed⟩ := sound
  intro state hstate
  refine ⟨layout.tiles (placed state hstate).layout, fun p hp => ?_, (placed state hstate).placed⟩
  exact layout.proper p.slot ((placed state hstate).layout.mem_iff.mp (mem_map_of_mem hp))

/-- A step of a run: a change whose automatic splits bisect. -/
def Changes (c : Container) (change : TopologyChange) (c' : Container) : Prop :=
  c.Bisects change ∧ c' = c.change change

theorem changes_sound {c' : Container} {changes : List TopologyChange}
    (run : Run Changes c changes c') (sound : c.Sound) :
    c'.Sound ∧ AllKept c.regions c'.regions := by
  induction run with
  | nil => exact ⟨sound, forall₂_same.mpr fun _ _ => .refl _⟩
  | cons first _ ih =>
    obtain ⟨bisects, rfl⟩ := first
    obtain ⟨sound', kept⟩ := change_sound sound bisects
    obtain ⟨sound'', kept'⟩ := ih sound'
    exact ⟨sound'', kept.trans kept'⟩

/-- After any splits and merges of a fresh container its partitions tile the key space in every
region, with every document stored once, in the partition of its EPK. -/
theorem changes_keep_tiling {c c' : Container} {n : Nat} {changes : List TopologyChange}
    (fresh : c.Fresh n) (positive : 0 < n) (few : n ≤ maxPartitionCount)
    (run : Run Changes c changes c') :
    (∀ state ∈ c'.regions, Tiled state) ∧ AllKept c.regions c'.regions := by
  obtain ⟨sound, kept⟩ :=
    changes_sound run (fresh.sound positive (Nat.le_trans few (by decide)))
  exact ⟨sound.tiled, kept⟩

/-! ## One region with two partitions, and what an explicit split can do -/

def sampleDocument : StoredDocument := ⟨.null, "a", "\"v1\"", 1, 1, ⟨[0x10]⟩, "west"⟩

/-- Two fresh partitions; the first holds a document. -/
def sampleContainer : Container :=
  ⟨.hash, .v2, 2, [⟨newEtag ['0'], (createPartitions 2 .hash .v2).map fun p =>
    if p.id = 0 then { p with documents := p.documents.insert sampleDocument } else p⟩]⟩

theorem sampleContainer_fresh : sampleContainer.Fresh 2 where
  counter := rfl
  regions := by
    intro state hstate
    rw [mem_singleton.mp hstate]
    rfl
  placed := by decide +kernel
  settled := by
    intro state hstate p hp
    rw [mem_singleton.mp hstate] at hp
    obtain ⟨q, hq, rfl⟩ := mem_map.mp hp
    obtain ⟨i, -, rfl⟩ := mem_map.mp hq
    split <;> rfl

theorem sampleContainer_bisects : sampleContainer.Bisects (.split 0 none (newEtag ['1'])) := by
  intro state hstate p hp same
  rw [mem_singleton.mp hstate] at hp
  obtain ⟨q, hq, rfl⟩ := mem_map.mp hp
  obtain ⟨i, hi, rfl⟩ := mem_map.mp hq
  have first : i = 0 := by
    revert same
    split <;> exact id
  subst first
  exact ⟨0, 2 ^ 125, .min, .key (by decide), by decide⟩

def sampleChanges : List TopologyChange :=
  [.split 0 none (newEtag ['1']), .split 1 (some ⟨[0x80]⟩) (newEtag ['2']), .merge 3 4]

theorem sampleChanges_run :
    Run Changes sampleContainer sampleChanges (sampleChanges.foldl Container.change sampleContainer) :=
  .cons ⟨sampleContainer_bisects, rfl⟩ (.cons ⟨trivial, rfl⟩ (.cons ⟨trivial, rfl⟩ (.nil _)))

/-- An automatic split, a split at an EPK and a merge. -/
theorem sample_changes_keep_tiling :
    let c' := sampleChanges.foldl Container.change sampleContainer
    (∀ state ∈ c'.regions, Tiled state) ∧ AllKept sampleContainer.regions c'.regions :=
  changes_keep_tiling sampleContainer_fresh (by decide) (by decide) sampleChanges_run

/-- One fresh partition, split at `50` and then above it automatically. -/
def overlapping : Container :=
  ((Container.mk .hash .v2 1 [⟨newEtag ['0'], createPartitions 1 .hash .v2⟩]).change
    (.split 0 (some ⟨[0x50]⟩) (newEtag ['1']))).change (.split 2 none (newEtag ['2']))

/-- The midpoint of `[50, MAX)` lies below `50`: the key `30` is in two partitions, and one is
empty.  After an ordinary split the lower bounds are out of order. -/
theorem automatic_split_overlaps :
    (∃ state, overlapping.regions = [state] ∧
      state.physicalPartitions.map PhysicalPartition.id = [1, 3, 4] ∧
      state.physicalPartitions.countP (fun p => p.containsEpk ⟨[0x30]⟩) = 2 ∧
      ¬ ∀ p ∈ state.physicalPartitions, p.epkMin < p.epkMax) ∧
    ∃ state, (sampleContainer.change (.split 0 none (newEtag ['1']))).regions = [state] ∧
      ¬ state.physicalPartitions.Pairwise fun p q => p.epkMin ≤ q.epkMin := by
  refine ⟨⟨_, rfl, ?_, ?_, ?_⟩, ⟨_, rfl, ?_⟩⟩ <;> decide +kernel

end AzureSdk.Cosmos.Emulator
