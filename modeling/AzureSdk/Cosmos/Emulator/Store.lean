/-
# Cosmos.Emulator.Store — documents and physical partitions of the in-memory emulator

A physical partition holds the documents of a range of EPKs, ordered by EPK and id, with two counters:
the LSN of its last write, and the number of mutations applied in this region.  A replicated write is
applied under last-writer-wins on `(_ts, lsn)`; a write that ties with the stored document loses.

Of a document the model keeps what the store compares or hands out: body, id, ETag, timestamp, LSN,
EPK and source region.
-/
import AzureSdk.Theory.BTreeMap
import AzureSdk.Theory.Interval
import AzureSdk.Theory.Json
import AzureSdk.Cosmos.EffectivePartitionKey

namespace AzureSdk.Cosmos.Emulator

open Theory Theory.Interval

/-- `Epk`, the emulator's name of the product type. -/
abbrev Epk := EffectivePartitionKey

structure StoredDocument where
  body : Json.Value
  id : String
  etag : String
  ts : Nat
  lsn : Nat
  epk : Epk
  sourceRegion : String

/-- Where a document is stored. -/
structure DocKey where
  epk : Epk
  id : String
  deriving DecidableEq, Repr

def StoredDocument.key (doc : StoredDocument) : DocKey := ⟨doc.epk, doc.id⟩

namespace DocKey

instance : LE DocKey := ⟨fun a b => a.epk < b.epk ∨ a.epk ≤ b.epk ∧ a.id ≤ b.id⟩
instance : LT DocKey := ⟨fun a b => a.epk < b.epk ∨ a.epk ≤ b.epk ∧ a.id < b.id⟩

instance : DecidableLE DocKey := fun a b =>
  inferInstanceAs (Decidable (a.epk < b.epk ∨ a.epk ≤ b.epk ∧ a.id ≤ b.id))
instance : DecidableLT DocKey := fun a b =>
  inferInstanceAs (Decidable (a.epk < b.epk ∨ a.epk ≤ b.epk ∧ a.id < b.id))

variable {a b : DocKey}

theorem le_iff : a ≤ b ↔ a.epk < b.epk ∨ a.epk ≤ b.epk ∧ a.id ≤ b.id := Iff.rfl

theorem lt_iff : a < b ↔ a.epk < b.epk ∨ a.epk ≤ b.epk ∧ a.id < b.id := Iff.rfl

instance : Std.IsLinearPreorder DocKey where
  le_refl a := .inr ⟨Std.le_refl _, Std.le_refl _⟩
  le_trans a b c := by
    simp only [le_iff]
    grind
  le_total a b := by
    simp only [le_iff]
    grind

instance : Std.LawfulOrderLT DocKey where
  lt_iff a b := by
    simp only [le_iff, lt_iff]
    grind

theorem sameKey_iff : SameKey a b ↔ SameKey a.epk b.epk ∧ a.id = b.id := by
  simp only [SameKey, le_iff]
  grind

end DocKey

/-- `BTreeMap<Epk, BTreeMap<String, StoredDocument>>`. -/
abbrev Documents := BTreeMap StoredDocument.key

structure PhysicalPartition where
  id : Nat
  epkMin : Epk
  epkMax : Epk
  lsn : Nat
  localLsn : Nat
  vectorClockVersion : Nat
  documents : Documents
  parents : List Nat
  locked : Bool
  deferredReplications : List (StoredDocument × Bool)

namespace PhysicalPartition

def span (p : PhysicalPartition) : Span Epk := ⟨p.epkMin, p.epkMax⟩

def containsEpk (p : PhysicalPartition) (epk : Epk) : Bool :=
  decide (p.epkMin ≤ epk) && decide (epk < p.epkMax)

end PhysicalPartition

/-- Whether a replicated version replaces the stored one: strictly greater on `(_ts, lsn)`. -/
def StoredDocument.wins (doc stored : StoredDocument) : Bool :=
  decide (stored.ts < doc.ts ∨ stored.ts = doc.ts ∧ stored.lsn < doc.lsn)

def applyDocToPartition (partition : PhysicalPartition) (doc : StoredDocument) (isDelete : Bool) :
    PhysicalPartition :=
  let lsn := max partition.lsn doc.lsn
  match partition.documents.get? doc.key with
  | some stored =>
    if doc.wins stored then
      { partition with
        documents :=
          if isDelete then partition.documents.erase doc.key else partition.documents.insert doc
        localLsn := partition.localLsn + 1
        lsn := lsn }
    else { partition with lsn := lsn }
  | none =>
    -- a delete of nothing is no mutation
    if isDelete then { partition with lsn := lsn }
    else
      { partition with
        documents := partition.documents.insert doc
        localLsn := partition.localLsn + 1
        lsn := lsn }

def findPartition (partitions : List PhysicalPartition) (epk : Epk) : Option PhysicalPartition :=
  partitions.find? fun p => p.containsEpk epk

end AzureSdk.Cosmos.Emulator
