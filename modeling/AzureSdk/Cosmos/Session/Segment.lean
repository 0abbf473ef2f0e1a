/-
# Cosmos.Session.Segment — `<pkRangeId>:<value>` and comma-separated headers

A session token header is a list of segments.  Captures skip the malformed ones
(`segmentsOf`); what a container writes is read back segment by segment
(`segmentsOf_compose`), because ids that were read from a header never hold the
separators.
-/
import AzureSdk.Cosmos.Session.Token

namespace AzureSdk.Cosmos.Session

open Theory List

structure SessionTokenSegment where
  pkRangeId : Text
  value : SessionTokenValue
  deriving DecidableEq

namespace SessionTokenSegment

def ofTrimmed (segment : Text) : Result SessionTokenSegment :=
  match Text.splitOnce ':' segment with
  | none => fail .badRequest "invalid session token segment: missing ':'"
  | some (pkRangeId, valueText) => do
    let value ← SessionTokenValue.parse valueText
    .ok ⟨pkRangeId, value⟩

/-- `FromStr`. -/
def parse (s : Text) : Result SessionTokenSegment := ofTrimmed (Text.trim s)

def display (self : SessionTokenSegment) : Text := self.pkRangeId ++ ':' :: self.value.display

def isAsRecentAs (self other : SessionTokenSegment) : Bool := self.value.isAsRecentAs other.value

/-- Only the values are merged. -/
def mergeValue (self other : SessionTokenSegment) : SessionTokenSegment × Bool :=
  ({ self with value := (self.value.merge other.value).1 }, (self.value.merge other.value).2)

end SessionTokenSegment

open SessionTokenSegment

/-- The nonempty trimmed parts of a header. -/
def headerParts (header : Text) : List Text :=
  ((header.splitOn ',').map Text.trim).filter fun part => !part.isEmpty

/-- The well-formed segments of a header. -/
def segmentsOf (header : Text) : List SessionTokenSegment :=
  (headerParts header).filterMap fun part => (ofTrimmed part).toOption

def compose (segments : List SessionTokenSegment) : Text :=
  [','].intercalate (segments.map display)

/-- A segment joins the one of its id, or comes last: the ordered table of
`SessionToken::merge`. -/
def insertSegment : List SessionTokenSegment → SessionTokenSegment → List SessionTokenSegment
  | [], segment => [segment]
  | existing :: rest, segment =>
    if existing.pkRangeId = segment.pkRangeId then (existing.mergeValue segment).1 :: rest
    else existing :: insertSegment rest segment

def SessionToken.merge (self other : Text) : Result Text := do
  let segments ← (headerParts self ++ headerParts other).mapM parse
  .ok (compose (segments.foldl insertSegment []))

/-! ## What is written reads back -/

/-- An id that can be written: no separator in it, no white space before it. -/
structure CleanId (pkRangeId : Text) : Prop where
  colon : ':' ∉ pkRangeId
  comma : ',' ∉ pkRangeId
  start : ∀ c, pkRangeId.head? = some c → Text.isWhitespace c = false

variable {c : Char} {s : SessionTokenSegment}

variable {value : SessionTokenValue} {part header : Text}

theorem mem_displayValue (h : c ∈ value.display) :
    c.isDigit = true ∨ c = '#' ∨ c = '=' ∨ c = '-' := by
  cases value with
  | simple lsn => exact .inl (Decimal.display_isDigit h)
  | vector token =>
    rcases Text.mem_intercalate h with rfl | ⟨part, hp, h⟩
    · exact .inr (.inl rfl)
    · exact (VectorSessionToken.mem_parts hp h).imp_right .inr

theorem isDigit_not_whitespace (digit : c.isDigit = true) : Text.isWhitespace c = false := by
  simp only [Char.isDigit, Bool.and_eq_true, decide_eq_true_eq] at digit
  have lower : 48 ≤ c.toNat := digit.1
  have upper : c.toNat ≤ 57 := digit.2
  unfold Text.isWhitespace
  simp only [Bool.or_eq_false_iff, Bool.and_eq_false_iff, decide_eq_false_iff_not, beq_eq_false_iff_ne]
  omega

theorem displayValue_not_whitespace (h : c ∈ value.display) : Text.isWhitespace c = false := by
  rcases mem_displayValue h with digit | rfl | rfl | rfl
  · exact isDigit_not_whitespace digit
  all_goals decide

namespace SessionTokenSegment

variable {self : SessionTokenSegment}

theorem trim_display (start : ∀ c, self.pkRangeId.head? = some c → Text.isWhitespace c = false) :
    Text.trim self.display = self.display := by
  refine Text.trim_eq ?_ ?_
  · intro c hc
    unfold display at hc
    cases id : self.pkRangeId with
    | nil =>
      rw [id] at hc
      cases hc
      decide
    | cons d ds =>
      rw [id] at hc
      exact start c (by rw [id]; exact hc)
  · intro c hc
    unfold display at hc
    rw [getLast?_append_of_ne_nil _ (cons_ne_nil _ _)] at hc
    rcases mem_cons.mp (mem_of_getLast? hc) with rfl | h
    · decide
    · exact displayValue_not_whitespace h

theorem ofTrimmed_display (colon : ':' ∉ self.pkRangeId) : ofTrimmed self.display = .ok self := by
  unfold ofTrimmed display
  rw [Text.splitOnce_append _ colon]
  simp only [SessionTokenValue.parse_display]
  rfl

/-- A segment reads back if its id has no colon and starts with no white space. -/
theorem parse_display (colon : ':' ∉ self.pkRangeId)
    (start : ∀ c, self.pkRangeId.head? = some c → Text.isWhitespace c = false) :
    parse self.display = .ok self := by
  unfold parse
  rw [trim_display start, ofTrimmed_display colon]

theorem comma_display (clean : CleanId self.pkRangeId) : ',' ∉ self.display := by
  intro h
  rcases mem_append.mp h with h | h
  · exact clean.comma h
  rcases mem_cons.mp h with h | h
  · exact absurd h (by decide)
  · rcases mem_displayValue h with digit | other | other | other
    · exact absurd digit (by decide)
    all_goals exact absurd other (by decide)

theorem display_ne_nil : self.display ≠ [] := by simp [display]

end SessionTokenSegment

/-- The parts of a header that was written from segments with clean ids. -/
theorem headerParts_compose : ∀ {segments : List SessionTokenSegment},
    (∀ s ∈ segments, CleanId s.pkRangeId) →
    headerParts (compose segments) = segments.map display
  | [], _ => rfl
  | first :: rest, clean => by
    have split : (compose (first :: rest)).splitOn ',' =
        (first :: rest).map display := by
      refine splitOn_intercalate ',' (forall_mem_map.mpr fun s hs => ?_) (by simp)
      exact comma_display (clean s hs)
    unfold headerParts
    rw [split, map_map]
    have same : (first :: rest).map (Text.trim ∘ display) =
        (first :: rest).map display :=
      map_congr_left fun s hs => trim_display (clean s hs).start
    rw [same, filter_eq_self]
    exact forall_mem_map.mpr fun s _ => by simp [display_ne_nil]

theorem segmentsOf_compose {segments : List SessionTokenSegment}
    (clean : ∀ s ∈ segments, CleanId s.pkRangeId) : segmentsOf (compose segments) = segments := by
  unfold segmentsOf
  rw [headerParts_compose clean, filterMap_map]
  have each : segments.filterMap ((fun part => (ofTrimmed part).toOption) ∘
      display) = segments.filterMap some :=
    filterMap_congr fun s hs => by
      simp [ofTrimmed_display (clean s hs).colon, Except.toOption]
  rw [each, filterMap_some]

theorem ofTrimmed_inv (h : ofTrimmed part = .ok s) :
    ∃ rest, part = s.pkRangeId ++ ':' :: rest ∧ ':' ∉ s.pkRangeId := by
  unfold ofTrimmed at h
  split at h
  · exact absurd h (by simp [fail])
  · rename_i id rest found
    obtain ⟨value, _, h⟩ := bind_ok h
    cases h
    exact ⟨rest, Text.splitOnce_inv found⟩

theorem parse_inv {text : Text} (h : parse text = .ok s) :
    ':' ∉ s.pkRangeId ∧ ∀ c, s.pkRangeId.head? = some c → Text.isWhitespace c = false := by
  obtain ⟨rest, whole, colon⟩ := ofTrimmed_inv h
  refine ⟨colon, fun c hc => Text.head_trim (s := text) (c := c) ?_⟩
  rw [whole, head?_append, hc]
  rfl

theorem cleanId_of_mem (h : s ∈ segmentsOf header) : CleanId s.pkRangeId := by
  obtain ⟨part, hp, read⟩ := mem_filterMap.mp h
  have read : ofTrimmed part = .ok s := by
    cases parsed : ofTrimmed part with
    | error => simp [parsed, Except.toOption] at read
    | ok s' => simpa [parsed, Except.toOption] using read
  obtain ⟨hp, _⟩ := mem_filter.mp hp
  obtain ⟨raw, hraw, rfl⟩ := mem_map.mp hp
  obtain ⟨rest, whole, colon⟩ := ofTrimmed_inv read
  refine ⟨colon, fun comma => ?_, (parse_inv read).2⟩
  have inPart : ',' ∈ Text.trim raw := by
    rw [whole]
    exact mem_append_left _ comma
  exact Text.not_mem_of_mem_splitOn hraw (Text.mem_of_mem_trim inPart)

/-! ## Merging headers -/

theorem parse_headerPart (h : part ∈ headerParts header) : parse part = ofTrimmed part := by
  obtain ⟨h, _⟩ := mem_filter.mp h
  obtain ⟨raw, _, rfl⟩ := mem_map.mp h
  unfold parse
  rw [Text.trim_trim]

theorem mapM_parse_ok : ∀ {parts : List Text} {segments : List SessionTokenSegment},
    (∀ part ∈ parts, parse part = ofTrimmed part) →
    parts.mapM parse = .ok segments →
    parts.filterMap (fun part => (ofTrimmed part).toOption) = segments
  | [], _, _, h => by
    cases h
    rfl
  | part :: parts, segments, trimmed, h => by
    rw [mapM_cons] at h
    obtain ⟨s, read, h⟩ := bind_ok h
    obtain ⟨rest, readRest, h⟩ := bind_ok h
    cases h
    have later := mapM_parse_ok (fun p hp => trimmed p (.tail _ hp)) readRest
    have first : (ofTrimmed part).toOption = some s := by
      rw [← trimmed part (.head _), read]
      rfl
    simp only [filterMap_cons, first, later]

theorem SessionToken.merge_ok {self other merged : Text}
    (h : SessionToken.merge self other = .ok merged) :
    merged = compose ((segmentsOf self ++ segmentsOf other).foldl insertSegment []) := by
  obtain ⟨segments, read, h⟩ := bind_ok h
  cases h
  have trimmed : ∀ part ∈ headerParts self ++ headerParts other,
      parse part = ofTrimmed part := by
    intro part hp
    rcases mem_append.mp hp with hp | hp <;> exact parse_headerPart hp
  rw [← mapM_parse_ok trimmed read, filterMap_append]
  rfl

theorem mem_insertSegment {r : SessionTokenSegment} : ∀ {known : List SessionTokenSegment},
    r ∈ insertSegment known s → r.pkRangeId = s.pkRangeId ∨ r ∈ known
  | [], h => .inl (by rw [mem_singleton.mp h])
  | existing :: rest, h => by
    unfold insertSegment at h
    split at h
    · rename_i same
      rcases mem_cons.mp h with rfl | h
      · exact .inl same
      · exact .inr (.tail _ h)
    · rcases mem_cons.mp h with rfl | h
      · exact .inr (.head _)
      · exact (mem_insertSegment h).imp_right (mem_cons_of_mem existing)

end AzureSdk.Cosmos.Session
