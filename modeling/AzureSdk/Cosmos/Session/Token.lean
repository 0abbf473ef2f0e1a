/-
# Cosmos.Session.Token — session token values and their recency

A session token value is a bare LSN (V1) or a version vector (V2): a version, a
global LSN and the progress of some regions.  `isAsRecentAs` is a preorder, not
total: two vectors of one version are incomparable when each is ahead in some
region.  `merge` is an upper bound of what it merges, and within one version the
least one; across versions it keeps the higher version's shape and raises its
regions, which is why merging an older token is not always a no-op.

Values are written and read as text, and what is written reads back
(`SessionTokenValue.parse_display`).
-/
import Mathlib.Order.WithBot
import Mathlib.Order.Fin.Basic
import AzureSdk.Theory.HashMap
import AzureSdk.Theory.Decimal
import AzureSdk.Cosmos.Error

namespace AzureSdk.Cosmos.Session

open Theory List Decimal HashMap Std.ExtTreeMap

abbrev U64 := Fin (2 ^ 64)

instance : Std.TransOrd U64 := inferInstance

/-- The progress of a region, a nonnegative `i64`; `⊥` is the wire sentinel for a region
without local progress, below every LSN. -/
abbrev RegionLsn := WithBot (Fin (2 ^ 63))

structure VectorSessionToken where
  version : U64
  globalLsn : U64
  regionProgress : HashMap U64 RegionLsn
  deriving DecidableEq

inductive SessionTokenValue
  | simple (lsn : U64)
  | vector (token : VectorSessionToken)
  deriving DecidableEq

/-! ## Reading and writing -/

def malformed {α : Type} (message : String) (offending : Text) (close : String) : Result α :=
  fail .badRequest (message ++ String.ofList offending ++ close)

namespace VectorSessionToken

/-- One `region=lsn` part. -/
def parseRegion (segment : Text) : Result (U64 × RegionLsn) :=
  match Text.splitOnce '=' segment with
  | none => malformed "invalid session token: malformed region segment '" segment "'"
  | some (regionText, lsnText) =>
    match parseUnsigned (2 ^ 64) regionText with
    | none => malformed "invalid session token: bad region id '" regionText "'"
    | some regionId =>
      match parseSigned (2 ^ 63) lsnText with
      | none => malformed "invalid session token: bad region LSN '" lsnText "'"
      | some lsn => .ok (regionId, if lsn < 0 then ⊥ else fit (2 ^ 63) lsn.toNat)

/-- The region parts, left to right; empty parts are skipped. -/
def parseRegions : HashMap U64 RegionLsn → List Text → Result (HashMap U64 RegionLsn)
  | regionProgress, [] => .ok regionProgress
  | regionProgress, segment :: rest =>
    if segment = [] then parseRegions regionProgress rest
    else do
      let (regionId, lsn) ← parseRegion segment
      parseRegions (regionProgress.insert regionId lsn) rest

def parse (s : Text) : Result VectorSessionToken :=
  match s.splitOn '#' with
  | [] => fail .badRequest "invalid session token: empty input"
  | versionText :: parts =>
    match parseUnsigned (2 ^ 64) versionText with
    | none => malformed "invalid session token: bad version '" versionText "'"
    | some version =>
      match parts with
      | [] => malformed "invalid session token: missing global LSN in '" s "'"
      | globalText :: regions =>
        match parseUnsigned (2 ^ 64) globalText with
        | none => malformed "invalid session token: bad global LSN '" globalText "'"
        | some globalLsn => do
          let regionProgress ← parseRegions ∅ regions
          .ok ⟨version, globalLsn, regionProgress⟩

def displayLsn : RegionLsn → Text
  | some lsn => Decimal.display lsn
  | none => ['-', '1']

def displayRegion (p : U64 × RegionLsn) : Text := Decimal.display p.1 ++ '=' :: displayLsn p.2

/-- The parts of a written token, the regions in order of their ids. -/
def parts (self : VectorSessionToken) : List Text :=
  Decimal.display self.version :: Decimal.display self.globalLsn ::
    self.regionProgress.toList.map displayRegion

def display (self : VectorSessionToken) : Text := ['#'].intercalate self.parts

/-! ### What is written reads back -/

theorem parseRegion_display (p : U64 × RegionLsn) : parseRegion (displayRegion p) = .ok p := by
  obtain ⟨region, lsn⟩ := p
  have apart : '=' ∉ Decimal.display region := not_mem_display (by decide)
  unfold parseRegion displayRegion
  rw [Text.splitOnce_append (displayLsn lsn) apart]
  dsimp only
  rw [parseUnsigned_display]
  cases lsn with
  | none => rfl
  | some n =>
    have read : parseSigned (2 ^ 63) (displayLsn (some n)) = some (n : Int) :=
      parseSigned_display n
    have kept : fit (2 ^ 63) ((n : Nat) : Int).toNat = some n := fit_val n
    simp only [read, kept]
    rfl

theorem parseRegions_display : ∀ (entries : List (U64 × RegionLsn)) (acc : HashMap U64 RegionLsn),
    parseRegions acc (entries.map displayRegion) = .ok (insertAll acc entries)
  | [], _ => rfl
  | p :: entries, acc => by
    have written : displayRegion p ≠ [] := by simp [displayRegion]
    rw [map_cons, parseRegions, if_neg written, parseRegion_display]
    exact parseRegions_display entries (acc.insert p.1 p.2)

theorem mem_displayLsn {lsn : RegionLsn} {c : Char} (h : c ∈ displayLsn lsn) :
    c.isDigit = true ∨ c = '-' := by
  cases lsn with
  | none =>
    rcases mem_cons.mp h with rfl | h
    · exact .inr rfl
    · rw [mem_singleton.mp h]
      exact .inl (by decide)
  | some n => exact .inl (display_isDigit h)

theorem mem_parts {self : VectorSessionToken} {part : Text} (h : part ∈ self.parts) {c : Char}
    (hc : c ∈ part) : c.isDigit = true ∨ c = '=' ∨ c = '-' := by
  rcases mem_cons.mp h with rfl | h
  · exact .inl (display_isDigit hc)
  rcases mem_cons.mp h with rfl | h
  · exact .inl (display_isDigit hc)
  obtain ⟨p, _, rfl⟩ := mem_map.mp h
  rcases mem_append.mp hc with hc | hc
  · exact .inl (display_isDigit hc)
  rcases mem_cons.mp hc with rfl | hc
  · exact .inr (.inl rfl)
  · exact (mem_displayLsn hc).imp_right .inr

theorem splitOn_display (self : VectorSessionToken) : self.display.splitOn '#' = self.parts := by
  refine splitOn_intercalate '#' (fun part h hc => ?_) (cons_ne_nil _ _)
  rcases mem_parts h hc with digit | other | other
  · exact absurd digit (by decide)
  · exact absurd other (by decide)
  · exact absurd other (by decide)

theorem parse_display (self : VectorSessionToken) : parse self.display = .ok self := by
  unfold parse
  rw [splitOn_display]
  simp only [parts, parseUnsigned_display, parseRegions_display,
    insertAll_empty_toList]
  rfl

/-! ### Recency and merging -/

/-- The region is recorded with at least that LSN. -/
def reaches (regionProgress : HashMap U64 RegionLsn) (p : U64 × RegionLsn) : Bool :=
  match regionProgress[p.1]? with
  | some lsn => decide (p.2 ≤ lsn)
  | none => false

def isAsRecentAs (self other : VectorSessionToken) : Bool :=
  if other.version < self.version then true
  else if self.version < other.version then false
  else if self.globalLsn < other.globalLsn then false
  else other.regionProgress.toList.all (reaches self.regionProgress)

/-- The loop body of the merge within one version; the flag says whether anything
changed. -/
def mergeRegion (acc : HashMap U64 RegionLsn × Bool) (p : U64 × RegionLsn) :
    HashMap U64 RegionLsn × Bool :=
  match acc.1[p.1]? with
  | some entry => if entry < p.2 then (acc.1.insert p.1 p.2, true) else acc
  | none => (acc.1.insert p.1 p.2, true)

/-- The regions of `higher`, raised by what `lower` knows of them. -/
def raiseRegions (higher lower : HashMap U64 RegionLsn) : HashMap U64 RegionLsn :=
  higher.map fun region lsn => match lower[region]? with
    | some lowerLsn => max lsn lowerLsn
    | none => lsn

/-- The merged token, and whether it differs. -/
def merge (self other : VectorSessionToken) : VectorSessionToken × Bool :=
  if self.version = other.version then
    let (globalLsn, changed) :=
      if self.globalLsn < other.globalLsn then (other.globalLsn, true) else (self.globalLsn, false)
    let (regionProgress, changed) :=
      other.regionProgress.toList.foldl mergeRegion (self.regionProgress, changed)
    (⟨self.version, globalLsn, regionProgress⟩, changed)
  else
    let (higher, lower) := if self.version < other.version then (other, self) else (self, other)
    let merged : VectorSessionToken := ⟨higher.version, higher.globalLsn,
      raiseRegions higher.regionProgress lower.regionProgress⟩
    let changed := decide (self.version ≠ merged.version ∨ self.globalLsn ≠ merged.globalLsn ∨
      self.regionProgress ≠ merged.regionProgress)
    (if changed then merged else self, changed)

/-! ### What the region loops compute -/

/-- Two records of a region's progress together. -/
def joinLsn : Option RegionLsn → Option RegionLsn → Option RegionLsn
  | none, y => y
  | some x, none => some x
  | some x, some y => some (max x y)

theorem reaches_iff {regionProgress : HashMap U64 RegionLsn} {p : U64 × RegionLsn} :
    reaches regionProgress p = true ↔ ∃ lsn, regionProgress[p.1]? = some lsn ∧ p.2 ≤ lsn := by
  unfold reaches
  cases regionProgress[p.1]? <;> simp

theorem getElem?_mergeRegion (acc : HashMap U64 RegionLsn × Bool) (p : U64 × RegionLsn) (r : U64) :
    (mergeRegion acc p).1[r]? = if p.1 = r then joinLsn acc.1[r]? (some p.2) else acc.1[r]? := by
  unfold mergeRegion
  by_cases here : p.1 = r
  · subst here
    cases known : acc.1[p.1]? with
    | none => simp [joinLsn]
    | some entry =>
      by_cases behind : entry < p.2
      · simp [behind, joinLsn, max_eq_right behind.le]
      · simp [behind, known, joinLsn, max_eq_left (not_lt.mp behind)]
  · rw [if_neg here]
    cases acc.1[p.1]? with
    | none => simp [HashMap.getElem?_insert, here]
    | some entry =>
      by_cases behind : entry < p.2
      · simp [behind, HashMap.getElem?_insert, here]
      · simp [behind]

/-- The loop joins the records region by region. -/
theorem getElem?_foldl_mergeRegion (r : U64) : ∀ {entries : List (U64 × RegionLsn)}
    (acc : HashMap U64 RegionLsn × Bool), HashMap.Distinct entries →
    (entries.foldl mergeRegion acc).1[r]? = joinLsn acc.1[r]? (HashMap.lookup entries r)
  | [], acc, _ => by cases h : acc.1[r]? <;> simp [h, HashMap.lookup, joinLsn]
  | p :: entries, acc, distinct => by
    obtain ⟨first, rest⟩ := pairwise_cons.mp distinct
    rw [foldl_cons, getElem?_foldl_mergeRegion r _ rest, getElem?_mergeRegion,
      HashMap.lookup_cons]
    by_cases here : p.1 = r
    · subst here
      rw [if_pos rfl, if_pos rfl, HashMap.lookup_none first]
      cases acc.1[p.1]? <;> rfl
    · rw [if_neg here, if_neg here]

/-- The flag is raised by the first region that is ahead of its record; the loop does not
touch the records of the regions still to come. -/
theorem foldl_mergeRegion_snd : ∀ {entries : List (U64 × RegionLsn)}
    (acc : HashMap U64 RegionLsn × Bool), HashMap.Distinct entries →
    (entries.foldl mergeRegion acc).2 = (acc.2 || !entries.all (reaches acc.1))
  | [], acc, _ => by simp
  | p :: entries, acc, distinct => by
    obtain ⟨first, rest⟩ := pairwise_cons.mp distinct
    have flag : (mergeRegion acc p).2 = (acc.2 || !reaches acc.1 p) := by
      unfold mergeRegion reaches
      cases acc.1[p.1]? with
      | none => simp
      | some entry => by_cases behind : entry < p.2 <;> simp [behind, not_lt.mp]
    have later : entries.all (reaches (mergeRegion acc p).1) = entries.all (reaches acc.1) := by
      rw [Bool.eq_iff_iff, all_eq_true, all_eq_true]
      refine forall₂_congr fun q hq => ?_
      rw [reaches, reaches, getElem?_mergeRegion, if_neg (first q hq)]
    rw [foldl_cons, foldl_mergeRegion_snd _ rest, flag, later, all_cons, Bool.not_and, Bool.or_assoc]

theorem getElem?_raiseRegions (higher lower : HashMap U64 RegionLsn) (r : U64) :
    (raiseRegions higher lower)[r]? = higher[r]?.map fun lsn => match lower[r]? with
      | some lowerLsn => max lsn lowerLsn
      | none => lsn :=
  getElem?_map

/-! ### The merge, version by version -/

section MergeCases

variable {a b c : VectorSessionToken}

def joinRegions (a b : HashMap U64 RegionLsn) : HashMap U64 RegionLsn :=
  (b.toList.foldl mergeRegion (a, false)).1

theorem getElem?_joinRegions (x y : HashMap U64 RegionLsn) (r : U64) :
    (joinRegions x y)[r]? = joinLsn x[r]? y[r]? := by
  unfold joinRegions
  rw [getElem?_foldl_mergeRegion r _ (distinct_toList y), lookup_toList]

theorem foldl_mergeRegion_fst (x y : HashMap U64 RegionLsn) (flag : Bool) :
    (y.toList.foldl mergeRegion (x, flag)).1 = joinRegions x y := by
  refine ext_getElem? fun r => ?_
  rw [getElem?_foldl_mergeRegion r _ (distinct_toList y), lookup_toList,
    getElem?_joinRegions]

theorem merge_of_eq (same : a.version = b.version) :
    (a.merge b).1 = ⟨a.version, max a.globalLsn b.globalLsn,
      joinRegions a.regionProgress b.regionProgress⟩ := by
  unfold merge
  rw [if_pos same]
  by_cases behind : a.globalLsn < b.globalLsn
  · simp only [if_pos behind, max_eq_right behind.le, foldl_mergeRegion_fst]
  · simp only [if_neg behind, max_eq_left (not_lt.mp behind), foldl_mergeRegion_fst]

theorem merge_of_lt (newer : a.version < b.version) :
    (a.merge b).1 = ⟨b.version, b.globalLsn,
      raiseRegions b.regionProgress a.regionProgress⟩ := by
  unfold merge
  simp [newer, newer.ne]

theorem merge_of_gt (older : b.version < a.version) :
    (a.merge b).1 = ⟨a.version, a.globalLsn,
      raiseRegions a.regionProgress b.regionProgress⟩ := by
  unfold merge
  rw [if_neg older.ne']
  simp only [if_neg older.not_gt]
  by_cases changed : a.regionProgress ≠ raiseRegions a.regionProgress b.regionProgress
  · simp [changed]
  · rw [not_not] at changed
    simp [← changed]

end MergeCases

/-! ### Recency as an order -/

/-- Every record of `y` is reached by one of `x`. -/
def Covers (x y : HashMap U64 RegionLsn) : Prop :=
  ∀ (r : U64) (lsn : RegionLsn), y[r]? = some lsn → ∃ lsn', x[r]? = some lsn' ∧ lsn ≤ lsn'

variable {x y : HashMap U64 RegionLsn}

theorem Covers.trans {z : HashMap U64 RegionLsn} (xy : Covers x y) (yz : Covers y z) :
    Covers x z := by
  intro r lsn known
  obtain ⟨mid, there, le⟩ := yz r lsn known
  obtain ⟨top, here, le'⟩ := xy r mid there
  exact ⟨top, here, le.trans le'⟩

theorem all_reaches_iff : y.toList.all (reaches x) = true ↔ Covers x y := by
  rw [all_eq_true]
  constructor
  · exact fun all r lsn known => reaches_iff.mp (all (r, lsn) (mem_toList.mpr known))
  · rintro covers ⟨r, lsn⟩ member
    exact reaches_iff.mpr (covers r lsn (mem_toList.mp member))

theorem covers_joinRegions_left (x y : HashMap U64 RegionLsn) : Covers (joinRegions x y) x := by
  intro r lsn known
  rw [getElem?_joinRegions, known]
  cases y[r]? with
  | none => exact ⟨lsn, rfl, le_refl lsn⟩
  | some other => exact ⟨max lsn other, rfl, le_max_left lsn other⟩

theorem covers_joinRegions_right (x y : HashMap U64 RegionLsn) : Covers (joinRegions x y) y := by
  intro r lsn known
  rw [getElem?_joinRegions, known]
  cases x[r]? with
  | none => exact ⟨lsn, rfl, le_refl lsn⟩
  | some other => exact ⟨max other lsn, rfl, le_max_right other lsn⟩

theorem joinRegions_eq_self (covers : Covers x y) : joinRegions x y = x := by
  refine ext_getElem? fun r => ?_
  rw [getElem?_joinRegions]
  cases there : y[r]? with
  | none => cases x[r]? <;> rfl
  | some lsn =>
    obtain ⟨lsn', here, le⟩ := covers r lsn there
    simp [here, joinLsn, max_eq_left le]

theorem covers_raiseRegions (x y : HashMap U64 RegionLsn) : Covers (raiseRegions x y) x := by
  intro r lsn known
  rw [getElem?_raiseRegions, known]
  cases y[r]? with
  | none => exact ⟨lsn, rfl, le_refl lsn⟩
  | some other => exact ⟨max lsn other, rfl, le_max_left lsn other⟩

section Recency

variable {a b c : VectorSessionToken}

theorem isAsRecentAs_iff : a.isAsRecentAs b = true ↔ b.version < a.version ∨
    a.version = b.version ∧ b.globalLsn ≤ a.globalLsn ∧
      Covers a.regionProgress b.regionProgress := by
  unfold isAsRecentAs
  rcases lt_trichotomy a.version b.version with older | same | newer
  · simp [older, older.not_gt, older.ne]
  · rw [same, if_neg (lt_irrefl _), if_neg (lt_irrefl _)]
    by_cases behind : a.globalLsn < b.globalLsn
    · simp [behind]
    · rw [if_neg behind, all_reaches_iff]
      simp [not_lt.mp behind]
  · simp [newer]

theorem isAsRecentAs_refl (a : VectorSessionToken) : a.isAsRecentAs a = true :=
  isAsRecentAs_iff.mpr (.inr ⟨rfl, le_refl _, fun _ lsn known => ⟨lsn, known, le_refl lsn⟩⟩)

theorem isAsRecentAs_trans (ab : a.isAsRecentAs b = true) (bc : b.isAsRecentAs c = true) :
    a.isAsRecentAs c = true := by
  rw [isAsRecentAs_iff] at *
  rcases ab with newer | ⟨same, global, covers⟩
  · rcases bc with newer' | ⟨same', _⟩
    · exact .inl (newer'.trans newer)
    · exact .inl (same' ▸ newer)
  · rcases bc with newer' | ⟨same', global', covers'⟩
    · exact .inl (same ▸ newer')
    · exact .inr ⟨same.trans same', global'.trans global, covers.trans covers'⟩

theorem isAsRecentAs_merge_left : (a.merge b).1.isAsRecentAs a = true := by
  rw [isAsRecentAs_iff]
  rcases lt_trichotomy a.version b.version with newer | same | older
  · rw [merge_of_lt newer]
    exact .inl newer
  · rw [merge_of_eq same]
    exact .inr ⟨rfl, le_max_left _ _, covers_joinRegions_left _ _⟩
  · rw [merge_of_gt older]
    exact .inr ⟨rfl, le_refl _, covers_raiseRegions _ _⟩

theorem isAsRecentAs_merge_right : (a.merge b).1.isAsRecentAs b = true := by
  rw [isAsRecentAs_iff]
  rcases lt_trichotomy a.version b.version with newer | same | older
  · rw [merge_of_lt newer]
    exact .inr ⟨rfl, le_refl _, covers_raiseRegions _ _⟩
  · rw [merge_of_eq same]
    exact .inr ⟨same, le_max_right _ _, covers_joinRegions_right _ _⟩
  · rw [merge_of_gt older]
    exact .inl older

theorem merge_eq_self (same : a.version = b.version) (recent : a.isAsRecentAs b = true) :
    (a.merge b).1 = a := by
  rcases isAsRecentAs_iff.mp recent with newer | ⟨_, global, covers⟩
  · exact absurd same newer.ne'
  · rw [merge_of_eq same, joinRegions_eq_self covers, max_eq_left global]

/-- An older version changes nothing if it is ahead in no region that both name. -/
theorem merge_eq_self_of_gt (older : b.version < a.version) : (a.merge b).1 = a ↔
    ∀ (r : U64) (x y : RegionLsn), a.regionProgress[r]? = some x →
      b.regionProgress[r]? = some y → y ≤ x := by
  have regions : (a.merge b).1 = a ↔
      raiseRegions a.regionProgress b.regionProgress = a.regionProgress := by
    rw [merge_of_gt older]
    exact ⟨congrArg regionProgress, fun same => by rw [same]⟩
  rw [regions, Std.ExtTreeMap.ext_getElem?_iff]
  refine forall_congr' fun r => ?_
  rw [getElem?_raiseRegions]
  cases a.regionProgress[r]? with
  | none => simp
  | some x => cases b.regionProgress[r]? <;> simp

theorem merge_changed_iff : (a.merge b).2 = true ↔ (a.merge b).1 ≠ a := by
  by_cases same : a.version = b.version
  · have flag : (a.merge b).2 = (decide (a.globalLsn < b.globalLsn) ||
        !b.regionProgress.toList.all (reaches a.regionProgress)) := by
      unfold merge
      rw [if_pos same]
      by_cases behind : a.globalLsn < b.globalLsn <;>
        simp [behind, foldl_mergeRegion_snd _ (distinct_toList _)]
    have kept : (a.merge b).1 = a ↔ a.isAsRecentAs b = true :=
      ⟨fun h => h ▸ isAsRecentAs_merge_right, merge_eq_self same⟩
    rw [ne_eq, kept, isAsRecentAs_iff, flag]
    simp only [same, lt_irrefl, false_or, true_and, ← all_reaches_iff, not_and_or, not_le]
    simp
  · unfold merge
    rw [if_neg same]
    generalize (if a.version < b.version then (b, a) else (a, b)) = sides
    by_cases changed : a.version ≠ sides.1.version ∨ a.globalLsn ≠ sides.1.globalLsn ∨
      a.regionProgress ≠ raiseRegions sides.1.regionProgress sides.2.regionProgress
    · simp only [changed, decide_true, if_true, true_iff]
      intro merged
      simp [← merged] at changed
    · simp [changed]

/-- A dominated token may still raise a region: its version is then older. -/
theorem recency_and_merge_laws (a b c : VectorSessionToken) :
    a.isAsRecentAs a = true ∧
    (a.isAsRecentAs b = true → b.isAsRecentAs c = true → a.isAsRecentAs c = true) ∧
    (a.merge b).1.isAsRecentAs a = true ∧ (a.merge b).1.isAsRecentAs b = true ∧
    (a.isAsRecentAs b = true → ((a.merge b).1 = a ↔ ∀ (r : U64) (x y : RegionLsn),
      a.regionProgress[r]? = some x → b.regionProgress[r]? = some y → y ≤ x)) ∧
    ((a.merge b).2 = true ↔ (a.merge b).1 ≠ a) := by
  refine ⟨isAsRecentAs_refl a, isAsRecentAs_trans, isAsRecentAs_merge_left,
    isAsRecentAs_merge_right, fun recent => ?_, merge_changed_iff⟩
  rcases isAsRecentAs_iff.mp recent with older | ⟨same, _, covers⟩
  · exact merge_eq_self_of_gt older
  · refine iff_of_true (merge_eq_self same recent) fun r x y here there => ?_
    obtain ⟨z, here', le⟩ := covers r y there
    exact Option.some.inj (here'.symm.trans here) ▸ le

theorem dominated_token_raises :
    let newer : VectorSessionToken := ⟨2, 1, (∅ : HashMap U64 RegionLsn).insert 1 (5 : Fin (2 ^ 63))⟩
    let older : VectorSessionToken := ⟨1, 1, (∅ : HashMap U64 RegionLsn).insert 1 (9 : Fin (2 ^ 63))⟩
    newer.isAsRecentAs older = true ∧ (newer.merge older).1 ≠ newer := by
  decide +kernel

end Recency

end VectorSessionToken

namespace SessionTokenValue

def globalLsn : SessionTokenValue → U64
  | .simple lsn => lsn
  | .vector token => token.globalLsn

/-- `SessionTokenValue::parse`: a vector, or else a bare integer. -/
def parse (s : Text) : Result SessionTokenValue :=
  match VectorSessionToken.parse s with
  | .ok token => .ok (.vector token)
  | .error _ =>
    match parseUnsigned (2 ^ 64) s with
    | some lsn => .ok (.simple lsn)
    | none => malformed "invalid session token value: '" s
      "' is not a valid V2 vector or V1 integer"

def display : SessionTokenValue → Text
  | .simple lsn => Decimal.display lsn
  | .vector token => token.display

theorem parse_display (self : SessionTokenValue) : parse self.display = .ok self := by
  unfold parse display
  cases self with
  | vector token => simp only [VectorSessionToken.parse_display]
  | simple lsn =>
    have whole : (Decimal.display lsn).splitOn '#' = [Decimal.display lsn] :=
      splitOn_eq_singleton (not_mem_display (by decide))
    simp only [VectorSessionToken.parse, whole, parseUnsigned_display, malformed, fail]

/-- A vector is ahead of every bare LSN. -/
def isAsRecentAs : SessionTokenValue → SessionTokenValue → Bool
  | .vector self, .vector other => self.isAsRecentAs other
  | .simple self, .simple other => decide (other ≤ self)
  | .vector _, .simple _ => true
  | .simple _, .vector _ => false

def merge (self other : SessionTokenValue) : SessionTokenValue × Bool :=
  match self, other with
  | .vector self, .vector other => ((.vector (self.merge other).1), (self.merge other).2)
  | .simple self, .simple other =>
    if self < other then (.simple other, true) else (.simple self, false)
  | .simple _, .vector other => (.vector other, true)
  | .vector self, .simple _ => (.vector self, false)

section Recency

variable {a b c : SessionTokenValue}

theorem isAsRecentAs_refl (a : SessionTokenValue) : a.isAsRecentAs a = true := by
  cases a with
  | simple lsn => exact decide_eq_true (le_refl lsn)
  | vector token => exact token.isAsRecentAs_refl

theorem isAsRecentAs_trans (ab : a.isAsRecentAs b = true) (bc : b.isAsRecentAs c = true) :
    a.isAsRecentAs c = true := by
  cases a with
  | simple x =>
    cases b with
    | vector => exact absurd ab (by simp [isAsRecentAs])
    | simple y =>
      cases c with
      | vector => exact absurd bc (by simp [isAsRecentAs])
      | simple z =>
        exact decide_eq_true ((of_decide_eq_true bc).trans (of_decide_eq_true ab))
  | vector x =>
    cases c with
    | simple => rfl
    | vector z =>
      cases b with
      | simple => exact absurd bc (by simp [isAsRecentAs])
      | vector y => exact VectorSessionToken.isAsRecentAs_trans ab bc

theorem isAsRecentAs_merge_left : (a.merge b).1.isAsRecentAs a = true := by
  cases a with
  | simple x =>
    cases b with
    | vector => rfl
    | simple y =>
      by_cases behind : x < y
      · simpa [merge, behind, isAsRecentAs] using behind.le
      · simp [merge, behind, isAsRecentAs]
  | vector x =>
    cases b with
    | simple => exact x.isAsRecentAs_refl
    | vector y => exact VectorSessionToken.isAsRecentAs_merge_left

theorem isAsRecentAs_merge_right : (a.merge b).1.isAsRecentAs b = true := by
  cases a with
  | simple x =>
    cases b with
    | vector y => exact y.isAsRecentAs_refl
    | simple y =>
      by_cases behind : x < y
      · simp [merge, behind, isAsRecentAs]
      · simpa [merge, behind, isAsRecentAs] using not_lt.mp behind
  | vector x =>
    cases b with
    | simple => rfl
    | vector y => exact VectorSessionToken.isAsRecentAs_merge_right

end Recency

end SessionTokenValue

end AzureSdk.Cosmos.Session
