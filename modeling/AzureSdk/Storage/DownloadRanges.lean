/-
# Storage.DownloadRanges — the ranges of a download tile what is asked for

Every sum on the way from the offset and length of a download to its range requests saturates,
but for two: the end of the range, and the end of the received prefix, which `Content-Range` gives
as its last byte.  The second never overflows.  Without an overflow the received prefix and the
ranges that remain tile the requested bytes of the resource.
-/
import AzureSdk.Storage.Download

namespace AzureSdk.Storage

open Theory List

/-- A plain sum of two `usize`; an overflow panics, or wraps around in a release build. -/
def plainAdd (a b : Nat) : Option Nat := if a + b < usizeModulus then some (a + b) else none

/-- The range of a download, unless its end overflows. -/
def checkedRange : Option HttpRange → Option (Nat × Nat)
  | some ⟨offset, some length⟩ =>
    (plainAdd offset.toNat length.toNat).map fun stop => (offset.toNat, stop)
  | some ⟨offset, none⟩ => some (offset.toNat, usizeMax)
  | none => some (0, usizeMax)

/-- The remaining ranges, where `Content-Range` reports the bytes from the start of the range to
`last`; `parse_range` adds one to it. -/
def remainingRanges (bounds : Nat × Nat) (partitionSize resourceLen last : Nat) :
    Option (List (Nat × Nat)) := do
  let stop ← plainAdd last 1
  let response : Response := ⟨some ⟨some (bounds.1, stop), some resourceLen⟩, []⟩
  (analyzeInitialResponse response partitionSize bounds.2).map (·.remainingDownloadRanges)

def Asked (byte : Nat) : Option HttpRange → Prop
  | some ⟨offset, some length⟩ => offset.toNat ≤ byte ∧ byte < offset.toNat + length.toNat
  | some ⟨offset, none⟩ => offset.toNat ≤ byte
  | none => True

/-- The range of the first request, with the part of it that was received, and the remaining ones
are ascending, short and non-empty, and together have the bytes asked for. -/
structure TilesRequest (range : Option HttpRange) (partitionSize resourceLen : Nat)
    (initial received : Nat × Nat) (remaining : List (Nat × Nat)) : Prop where
  inside : initial.1 = received.1 ∧ received.2 ≤ initial.2
  ascending : (received :: remaining).Pairwise fun a b => a.2 ≤ b.1
  short : ∀ part ∈ initial :: received :: remaining,
    part.1 < part.2 ∧ part.2 - part.1 ≤ partitionSize
  union : ∀ byte, (∃ part ∈ received :: remaining, part.1 ≤ byte ∧ byte < part.2) ↔
    byte < resourceLen ∧ Asked byte range
  /-- Only what a shorter response left of the first request is asked for again. -/
  again : (∀ part ∈ remaining, initial.2 ≤ part.1) ↔ min initial.2 resourceLen = received.2

variable {range : Option HttpRange}

theorem checkedRange_eq {bounds : Nat × Nat} :
    checkedRange range = some bounds ↔ Fits range ∧ maxDownloadRange range = bounds := by
  match range with
  | none => simp [checkedRange, Fits, maxDownloadRange]
  | some ⟨offset, none⟩ => simp [checkedRange, Fits, maxDownloadRange, HttpRange.bounds]
  | some ⟨offset, some length⟩ =>
    simp only [checkedRange, plainAdd, Fits, maxDownloadRange]
    split
    next fits =>
      have sum : (offset + length).toNat = offset.toNat + length.toNat := Nat.mod_eq_of_lt fits
      simp [HttpRange.bounds, sum, fits]
    next wraps => simp [wraps]

/-- Below the length of a resource, the range has the bytes asked for. -/
theorem asked_iff (fits : Fits range) {byte : Nat} (usize : byte < usizeMax) : Asked byte range ↔
      (maxDownloadRange range).1 ≤ byte ∧ byte < (maxDownloadRange range).2 := by
  match range with
  | none => simp [Asked, maxDownloadRange, usize]
  | some ⟨offset, none⟩ => simp [Asked, maxDownloadRange, HttpRange.bounds, usize]
  | some ⟨offset, some length⟩ =>
    have sum : (offset + length).toNat = offset.toNat + length.toNat := Nat.mod_eq_of_lt fits
    simp [Asked, maxDownloadRange, HttpRange.bounds, sum]

/-- **The requests of a download tile the bytes asked for, exactly if the end of the range does
not overflow**, whatever the partition size and the resource. -/
theorem download_ranges_tile_iff (range : Option HttpRange) (partitionSize : NonZeroUsize) :
    (∃ bounds, checkedRange range = some bounds ∧
      ∀ resourceLen < usizeModulus, ∀ last, bounds.1 ≤ last →
        last < min (initialRange bounds partitionSize.get).2 resourceLen →
        ∃ remaining, remainingRanges bounds partitionSize.get resourceLen last = some remaining ∧
          TilesRequest range partitionSize.get resourceLen (initialRange bounds partitionSize.get)
            (bounds.1, last + 1) remaining) ↔ Fits range := by
  constructor
  · rintro ⟨bounds, checked, _⟩
    exact (checkedRange_eq.mp checked).1
  intro fits
  refine ⟨_, checkedRange_eq.mpr ⟨fits, rfl⟩, fun resourceLen usize last low high => ?_⟩
  have asked := fun byte => @asked_iff range fits byte
  have most := maxDownloadRange_end range
  generalize maxDownloadRange range = bounds at *
  obtain ⟨start, stop⟩ := bounds
  simp only [initialRange, usizeMax] at *
  have next : plainAdd last 1 = some (last + 1) := if_pos (by omega)
  have upto : last + 1 ≤ min stop resourceLen := by omega
  have tiles := tiles_cutRange partitionSize.nonZero upto
  refine ⟨cutRange (last + 1) (min stop resourceLen) partitionSize.get, ?_, ?_⟩
  · simp [remainingRanges, next, analyzeInitialResponse]
  constructor
  · exact ⟨rfl, by omega⟩
  · exact .cons (fun part mem => (tiles.within part mem).1) tiles.pairwise
  · simp only [forall_mem_cons]
    refine ⟨by omega, by omega, fun part mem => ?_⟩
    exact ⟨(tiles.within part mem).2.1, cutRange_le part mem⟩
  · intro byte
    simp only [mem_cons, or_and_right, exists_or, exists_eq_left, tiles.covers_iff]
    constructor
    · intro covered
      exact ⟨by omega, (asked byte (by omega)).mpr (by omega)⟩
    · rintro ⟨exists_, wanted⟩
      have := (asked byte (by omega)).mp wanted
      omega
  · constructor
    · intro after
      by_contra short
      -- the first of the ranges starts where the response stopped
      obtain ⟨part, mem, first, _⟩ := (tiles.covers_iff (last + 1)).mpr (by omega)
      have := after part mem
      have := tiles.within part mem
      omega
    · intro whole part mem
      have := tiles.within part mem
      omega

/-- The last byte a `u64` can name is asked for, and the end of the range overflows; in a release
build the range is taken for an empty one. -/
theorem last_byte_overflows :
    Asked 1 (some ⟨1, some 0xFFFFFFFFFFFFFFFF⟩) ∧
    checkedRange (some ⟨1, some 0xFFFFFFFFFFFFFFFF⟩) = none ∧
    maxDownloadRange (some ⟨1, some 0xFFFFFFFFFFFFFFFF⟩) = (1, 0) := by
  refine ⟨?_, ?_, ?_⟩
  · exact ⟨Nat.le_refl 1, by decide⟩
  · decide
  · decide

end AzureSdk.Storage
