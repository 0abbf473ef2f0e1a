/-
# Cosmos.Session.Container — the cache of session tokens

The container keeps, per collection RID, the merged token of every partition key
range, and per collection name the RID it saw last.  A capture under a new RID
clears the tokens of the RID the name had before.

What one capture does to one stored token is said once (`stored_capture`); both
properties follow from it.  Under one RID a stored token is the merge of all
captured ones, so it never falls behind any of them (`session_reads_never_go_back`);
but a capture under an old RID that arrives late is taken for a new container and
clears the current tokens (`late_capture_wipes_iff`).
-/
import Mathlib.Data.List.Induction
import AzureSdk.Cosmos.Session.Segment

namespace AzureSdk.Cosmos.Session

open Theory List SessionTokenSegment Option

/-- `ContainerReference`, with what the session cache reads. -/
structure ContainerReference where
  dbName : String
  containerName : String
  rid : String
  deriving DecidableEq

def ContainerReference.namePath (c : ContainerReference) : String :=
  "dbs/" ++ c.dbName ++ "/colls/" ++ c.containerName

/-- `SessionContainerInner`. -/
structure SessionContainer where
  tokens : HashMap String (HashMap Text SessionTokenValue)
  nameToRid : HashMap String String

namespace SessionContainer

def new : SessionContainer := ⟨∅, ∅⟩

variable (self : SessionContainer)

/-- The segments in order of their ids. -/
def buildCompositeToken (collectionRid : String) : Option Text :=
  match self.tokens[collectionRid]? with
  | none => none
  | some pkMap =>
    if pkMap.isEmpty then none
    else some (compose (pkMap.toList.map fun p => ⟨p.1, p.2⟩))

def resolveSessionToken (container : ContainerReference) : Option Text :=
  match self.buildCompositeToken container.rid with
  | some token => some token
  | none =>
    match self.nameToRid[container.namePath]? with
    | some resolvedRid => self.buildCompositeToken resolvedRid
    | none => none

/-- The token stored for a range of a collection. -/
def stored (rid : String) (pkRangeId : Text) : Option SessionTokenValue :=
  self.tokens[rid]?.bind fun pkMap => pkMap[pkRangeId]?

def resolveSessionTokenForRange (container : ContainerReference)
    (pkRangeId : Text) : Option Text :=
  let lookup := fun rid =>
    (self.stored rid pkRangeId).map fun value => display ⟨pkRangeId, value⟩
  match lookup container.rid with
  | some token => some token
  | none =>
    match self.nameToRid[container.namePath]? with
    | some resolvedRid => lookup resolvedRid
    | none => none

/-- The segments of a captured header; `strict` captures fail on the first malformed one,
others skip it. -/
def parseCapture (strict : Bool) : List Text → Result (List SessionTokenSegment)
  | [] => .ok []
  | raw :: rest =>
    let segment := Text.trim raw
    if segment = [] then parseCapture strict rest
    else
      match ofTrimmed segment with
      | .ok parsed => do
        let later ← parseCapture strict rest
        .ok (parsed :: later)
      | .error fault => if strict then .error fault else parseCapture strict rest

/-- Merges a segment into the tokens of a collection. -/
def mergeSegment (pkMap : HashMap Text SessionTokenValue) (segment : SessionTokenSegment) :
    HashMap Text SessionTokenValue :=
  match pkMap[segment.pkRangeId]? with
  | some existing => pkMap.insert segment.pkRangeId (existing.merge segment.value).1
  | none => pkMap.insert segment.pkRangeId segment.value

/-- The part of `set_session_token_inner` under the write lock. -/
def store (self : SessionContainer) (container : ContainerReference)
    (parsed : List SessionTokenSegment) : SessionContainer :=
  let tokens :=
    match self.nameToRid[container.namePath]? with
    | some oldRid => if oldRid ≠ container.rid then self.tokens.erase oldRid else self.tokens
    | none => self.tokens
  let pkMap := (tokens[container.rid]?).getD ∅
  ⟨tokens.insert container.rid (parsed.foldl mergeSegment pkMap),
    self.nameToRid.insert container.namePath container.rid⟩

def setSessionTokenInner (self : SessionContainer) (container : ContainerReference)
    (sessionTokenValue : Text) (strict : Bool) : Result SessionContainer := do
  let parsed ← parseCapture strict (sessionTokenValue.splitOn ',')
  .ok (self.store container parsed)

/-- The result of the capture is not looked at. -/
def setSessionToken (self : SessionContainer) (container : ContainerReference)
    (sessionTokenValue : Text) : SessionContainer :=
  match self.setSessionTokenInner container sessionTokenValue false with
  | .ok self => self
  | .error _ => self

end SessionContainer

/-- A response's session token and the container it was captured for. -/
structure Capture where
  container : ContainerReference
  header : Text
  deriving DecidableEq

def captureAll (self : SessionContainer) (history : List Capture) : SessionContainer :=
  history.foldl (fun self c => self.setSessionToken c.container c.header) self

/-- The well-formed tokens of a header for a range. -/
def tokensFor (header : Text) (pkRangeId : Text) : List SessionTokenValue :=
  ((segmentsOf header).filter fun s => s.pkRangeId = pkRangeId).map (·.value)

/-- The well-formed tokens captured for a range of a collection. -/
def capturedFor (history : List Capture) (rid : String) (pkRangeId : Text) :
    List SessionTokenValue :=
  history.flatMap fun c => if c.container.rid = rid then tokensFor c.header pkRangeId else []

/-- Merges a token into what is stored. -/
def absorb (known : Option SessionTokenValue) (t : SessionTokenValue) : Option SessionTokenValue :=
  match known with
  | some v => some (v.merge t).1
  | none => some t

/-! ## What one capture does -/

namespace SessionContainer

theorem parseCapture_lenient : ∀ raws : List Text, parseCapture false raws =
    .ok (((raws.map Text.trim).filter fun part => !part.isEmpty).filterMap
      fun part => (ofTrimmed part).toOption)
  | [] => rfl
  | raw :: rest => by
    have later := parseCapture_lenient rest
    rw [parseCapture]
    by_cases empty : Text.trim raw = []
    · simp [empty, later]
    · cases parsed : ofTrimmed (Text.trim raw) with
      | ok s => simp [empty, parsed, later, bind, Except.bind, Except.toOption]
      | error fault => simp [empty, parsed, later, Except.toOption]

theorem setSessionToken_eq (self : SessionContainer) (container : ContainerReference)
    (header : Text) : self.setSessionToken container header =
      self.store container (segmentsOf header) := by
  unfold setSessionToken setSessionTokenInner
  rw [parseCapture_lenient]
  rfl

theorem getElem?_mergeSegment (pkMap : HashMap Text SessionTokenValue) (s : SessionTokenSegment)
    (pkRangeId : Text) : (mergeSegment pkMap s)[pkRangeId]? =
      if s.pkRangeId = pkRangeId then absorb pkMap[pkRangeId]? s.value else pkMap[pkRangeId]? := by
  unfold mergeSegment
  by_cases here : s.pkRangeId = pkRangeId
  · subst here
    cases known : pkMap[s.pkRangeId]? <;> simp [absorb]
  · cases pkMap[s.pkRangeId]? <;> simp [HashMap.getElem?_insert, here]

theorem getElem?_foldl_mergeSegment (pkRangeId : Text) : ∀ (segments : List SessionTokenSegment)
    (pkMap : HashMap Text SessionTokenValue), (segments.foldl mergeSegment pkMap)[pkRangeId]? =
      ((segments.filter fun s => s.pkRangeId = pkRangeId).map (·.value)).foldl absorb
        pkMap[pkRangeId]?
  | [], _ => rfl
  | s :: segments, pkMap => by
    rw [foldl_cons, getElem?_foldl_mergeSegment pkRangeId segments, getElem?_mergeSegment]
    by_cases here : s.pkRangeId = pkRangeId <;> simp [here]

/-- One capture, for one stored token: merged under its own RID, cleared if the name had
that RID and comes with another, and else untouched. -/
theorem stored_capture (self : SessionContainer) (container : ContainerReference) (header : Text)
    (rid : String) (pkRangeId : Text) :
    (self.setSessionToken container header).stored rid pkRangeId =
      if container.rid = rid then (tokensFor header pkRangeId).foldl absorb (self.stored rid pkRangeId)
      else if self.nameToRid[container.namePath]? = some rid then none
      else self.stored rid pkRangeId := by
  rw [setSessionToken_eq]
  unfold store stored tokensFor
  by_cases same : container.rid = rid
  · subst same
    -- the tokens of the capture's own RID are never the ones cleared
    have kept : (match self.nameToRid[container.namePath]? with
        | some oldRid => if oldRid ≠ container.rid then self.tokens.erase oldRid else self.tokens
        | none => self.tokens)[container.rid]? = self.tokens[container.rid]? := by
      cases self.nameToRid[container.namePath]? with
      | none => rfl
      | some oldRid =>
        by_cases old : oldRid = container.rid
        · simp [old]
        · simp [old, HashMap.getElem?_erase]
    simp only [HashMap.getElem?_insert, if_pos, kept, bind_some, getElem?_foldl_mergeSegment]
    cases self.tokens[container.rid]? <;> simp
  · simp only [HashMap.getElem?_insert, if_neg same]
    cases old : self.nameToRid[container.namePath]? with
    | none => simp
    | some oldRid =>
      by_cases other : oldRid = rid
      · subst other
        simp [Ne.symm same]
      · by_cases own : oldRid = container.rid
        · simp [own, same]
        · simp [own, other, HashMap.getElem?_erase]

theorem nameToRid_capture (self : SessionContainer) (container : ContainerReference)
    (header : Text) (name : String) :
    (self.setSessionToken container header).nameToRid[name]? =
      if container.namePath = name then some container.rid else self.nameToRid[name]? := by
  rw [setSessionToken_eq]
  exact HashMap.getElem?_insert _ _ _ _

end SessionContainer

/-! ## Histories -/

open SessionContainer (stored_capture nameToRid_capture)

section Histories

variable {rid : String} {pkRangeId : Text}

theorem captureAll_cons (self : SessionContainer) (c : Capture) (history : List Capture) :
    captureAll self (c :: history) =
      captureAll (self.setSessionToken c.container c.header) history := rfl

theorem captureAll_concat (self : SessionContainer) (history : List Capture) (c : Capture) :
    captureAll self (history ++ [c]) = (captureAll self history).setSessionToken c.container c.header :=
  foldl_concat ..

theorem captureAll_append (self : SessionContainer) (history later : List Capture) :
    captureAll self (history ++ later) = captureAll (captureAll self history) later :=
  foldl_append

/-- Once a name was captured under the RID, it is captured under that RID only. -/
def Kept (rid : String) (history : List Capture) : Prop :=
  history.Pairwise fun earlier later => earlier.container.rid = rid →
    later.container.namePath = earlier.container.namePath → later.container.rid = rid

/-- Without a change of RID a stored token is the merge of all captured ones. -/
theorem stored_captureAll : ∀ {history : List Capture} {self : SessionContainer},
    (∀ c ∈ history, c.container.rid ≠ rid → self.nameToRid[c.container.namePath]? ≠ some rid) →
    Kept rid history →
    (captureAll self history).stored rid pkRangeId =
      (capturedFor history rid pkRangeId).foldl absorb (self.stored rid pkRangeId)
  | [], _, _, _ => rfl
  | c :: history, self, clear, kept => by
    obtain ⟨first, rest⟩ := pairwise_cons.mp kept
    have clearRest : ∀ d ∈ history, d.container.rid ≠ rid →
        (self.setSessionToken c.container c.header).nameToRid[d.container.namePath]? ≠ some rid := by
      intro d hd other
      rw [nameToRid_capture]
      by_cases name : c.container.namePath = d.container.namePath
      · rw [if_pos name]
        intro same
        exact other (first d hd (some.inj same) name.symm)
      · rw [if_neg name]
        exact clear d (.tail _ hd) other
    rw [captureAll_cons, stored_captureAll clearRest rest, stored_capture,
      capturedFor, capturedFor, flatMap_cons, foldl_append]
    by_cases own : c.container.rid = rid
    · rw [if_pos own, if_pos own]
    · rw [if_neg own, if_neg own, if_neg (clear c (.head _) own)]
      rfl

/-! ### Merging never falls behind -/

theorem foldl_absorb_some : ∀ (ts : List SessionTokenValue) (v : SessionTokenValue),
    ∃ v', ts.foldl absorb (some v) = some v' ∧ v'.isAsRecentAs v = true ∧
      ∀ t ∈ ts, v'.isAsRecentAs t = true
  | [], v => ⟨v, rfl, v.isAsRecentAs_refl, by simp⟩
  | t :: ts, v => by
    obtain ⟨v', folded, recent, all⟩ := foldl_absorb_some ts (v.merge t).1
    refine ⟨v', folded, ?_, forall_mem_cons.mpr ⟨?_, all⟩⟩
    · exact SessionTokenValue.isAsRecentAs_trans recent SessionTokenValue.isAsRecentAs_merge_left
    · exact SessionTokenValue.isAsRecentAs_trans recent SessionTokenValue.isAsRecentAs_merge_right

variable {t v : SessionTokenValue} {ts : List SessionTokenValue} {history : List Capture}
  {container : ContainerReference}

theorem foldl_absorb_recent {known : Option SessionTokenValue} (ht : t ∈ ts) :
    ∃ v, ts.foldl absorb known = some v ∧ v.isAsRecentAs t = true := by
  cases known with
  | some v =>
    obtain ⟨v', folded, _, all⟩ := foldl_absorb_some ts v
    exact ⟨v', folded, all t ht⟩
  | none =>
    cases ts with
    | nil => simp at ht
    | cons first ts =>
      obtain ⟨v', folded, recent, all⟩ := foldl_absorb_some ts first
      refine ⟨v', folded, ?_⟩
      rcases mem_cons.mp ht with rfl | ht
      · exact recent
      · exact all t ht

/-! ### What an older token can still change -/

/-- `after` differs from `before` at most in regions that a token of an older version
among `ts` had raised further. -/
inductive Raised (ts : List SessionTokenValue) : SessionTokenValue → SessionTokenValue → Prop
  | simple (lsn : U64) : Raised ts (.simple lsn) (.simple lsn)
  | vector {before after : VectorSessionToken} (version : after.version = before.version)
    (globalLsn : after.globalLsn = before.globalLsn)
    (regions : ∀ r : U64, after.regionProgress[r]? = before.regionProgress[r]? ∨
      ∃ x x' : RegionLsn, before.regionProgress[r]? = some x ∧
        after.regionProgress[r]? = some x' ∧ x < x' ∧
        ∃ t : VectorSessionToken, .vector t ∈ ts ∧ t.version < before.version ∧
          t.regionProgress[r]? = some x') :
    Raised ts (.vector before) (.vector after)

/-- The token is a vector of an older version. -/
def OlderVersion (t v : SessionTokenValue) : Prop :=
  match t, v with
  | .vector t, .vector v => t.version < v.version
  | _, _ => False

theorem Raised.refl (ts : List SessionTokenValue) (v : SessionTokenValue) : Raised ts v v := by
  cases v with
  | simple lsn => exact .simple lsn
  | vector token => exact .vector rfl rfl fun _ => .inl rfl

theorem Raised.trans {u w : SessionTokenValue}
    (uv : Raised ts u v) (vw : Raised ts v w) : Raised ts u w := by
  cases uv with
  | simple => exact vw
  | @vector before mid version globalLsn regions =>
    cases vw with
    | @vector _ after version' globalLsn' regions' =>
      refine .vector (version'.trans version) (globalLsn'.trans globalLsn) fun r => ?_
      rcases regions' r with same' | ⟨y, z, midKnown, afterKnown, more, t, ht, older, tKnown⟩
      · rw [same']
        exact regions r
      · rcases regions r with same | ⟨x, y', known, midKnown', less, _⟩
        · exact .inr ⟨y, z, same ▸ midKnown, afterKnown, more, t, ht, version ▸ older, tKnown⟩
        · rw [midKnown, some.injEq] at midKnown'
          subst midKnown'
          exact .inr ⟨x, z, known, afterKnown, less.trans more, t, ht, version ▸ older, tKnown⟩

/-- Nothing is raised where no token has an older version. -/
theorem Raised.eq {v' : SessionTokenValue}
    (raised : Raised ts v v') (current : ∀ t ∈ ts, ¬ OlderVersion t v) : v' = v := by
  cases raised with
  | simple => rfl
  | @vector before after version globalLsn regions =>
    have same : after.regionProgress = before.regionProgress := by
      refine Std.ExtTreeMap.ext_getElem? fun r => ?_
      rcases regions r with same | ⟨_, _, _, _, _, t, ht, older, _⟩
      · exact same
      · exact absurd older (current _ ht)
    cases after
    simp_all

theorem merge_raised (ht : t ∈ ts)
    (recent : v.isAsRecentAs t = true) : Raised ts v (v.merge t).1 := by
  cases v with
  | simple x =>
    cases t with
    | vector => exact absurd recent (by simp [SessionTokenValue.isAsRecentAs])
    | simple y =>
      have le : y ≤ x := of_decide_eq_true recent
      simpa [SessionTokenValue.merge, not_lt.mpr le] using Raised.refl ts (.simple x)
  | vector a =>
    cases t with
    | simple => exact .refl ts (.vector a)
    | vector b =>
      rcases VectorSessionToken.isAsRecentAs_iff.mp recent with older | ⟨same, _⟩
      · change Raised ts (.vector a) (.vector (a.merge b).1)
        rw [VectorSessionToken.merge_of_gt older]
        refine .vector rfl rfl fun r => ?_
        rw [VectorSessionToken.getElem?_raiseRegions]
        cases known : a.regionProgress[r]? with
        | none => exact .inl rfl
        | some x =>
          cases there : b.regionProgress[r]? with
          | none => exact .inl (by simp)
          | some y =>
            by_cases more : x < y
            · refine .inr ⟨x, y, rfl, ?_, more, b, ht, older, there⟩
              simp [max_eq_right more.le]
            · exact .inl (by simp [max_eq_left (not_lt.mp more)])
      · change Raised ts (.vector a) (.vector (a.merge b).1)
        rw [VectorSessionToken.merge_eq_self same recent]
        exact .refl ts (.vector a)

theorem foldl_absorb_raised {all : List SessionTokenValue} : ∀ (ts : List SessionTokenValue)
    (v : SessionTokenValue), (∀ t ∈ ts, t ∈ all) → (∀ t ∈ ts, v.isAsRecentAs t = true) →
    ∃ v', ts.foldl absorb (some v) = some v' ∧ Raised all v v'
  | [], v, _, _ => ⟨v, rfl, .refl all v⟩
  | t :: ts, v, among, recent => by
    have here := merge_raised (among t (.head _)) (recent t (.head _))
    obtain ⟨v', folded, raised⟩ := foldl_absorb_raised ts (v.merge t).1
      (fun u hu => among u (.tail _ hu))
      (fun u hu => SessionTokenValue.isAsRecentAs_trans
        SessionTokenValue.isAsRecentAs_merge_left (recent u (.tail _ hu)))
    exact ⟨v', folded, here.trans raised⟩

/-! ### Names and ids of a history -/

theorem nameToRid_captureAll {name : String} : ∀ {history : List Capture} {self : SessionContainer},
    (captureAll self history).nameToRid[name]? = some rid →
    (∃ c ∈ history, c.container.namePath = name ∧ c.container.rid = rid) ∨
      self.nameToRid[name]? = some rid
  | [], _, h => .inr h
  | c :: history, self, h => by
    rcases nameToRid_captureAll (captureAll_cons self c history ▸ h) with ⟨d, hd, named⟩ | before
    · exact .inl ⟨d, .tail _ hd, named⟩
    · rw [nameToRid_capture] at before
      split at before
      · rename_i named
        exact .inl ⟨c, .head _, named, some.inj before⟩
      · exact .inr before

theorem cleanId_of_captured (h : t ∈ capturedFor history rid pkRangeId) : CleanId pkRangeId := by
  obtain ⟨c, _, h⟩ := mem_flatMap.mp h
  split at h
  · obtain ⟨s, hs, _⟩ := mem_map.mp h
    obtain ⟨hs, same⟩ := mem_filter.mp hs
    exact of_decide_eq_true same ▸ cleanId_of_mem hs
  · simp at h

/-- The RID of a container name never changes, and no other name has it. -/
def StableRid (container : ContainerReference) (history : List Capture) : Prop :=
  ∀ c ∈ history, c.container.rid = container.rid ↔ c.container.namePath = container.namePath

theorem StableRid.kept (stable : StableRid container history) : Kept container.rid history := by
  refine pairwise_of_forall_mem_list fun earlier he later hl own named => ?_
  exact (stable later hl).mpr (named.trans ((stable earlier he).mp own))

theorem StableRid.stored (stable : StableRid container history) :
    (captureAll .new history).stored container.rid pkRangeId =
      (capturedFor history container.rid pkRangeId).foldl absorb none := by
  refine stored_captureAll (fun c _ _ => ?_) stable.kept
  simp [SessionContainer.new]

/-- Both ways to look a range up lead to the same stored token. -/
theorem StableRid.resolve (stable : StableRid container history) :
    (captureAll .new history).resolveSessionTokenForRange container pkRangeId =
      ((captureAll .new history).stored container.rid pkRangeId).map
        fun value => display ⟨pkRangeId, value⟩ := by
  unfold SessionContainer.resolveSessionTokenForRange
  cases known : (captureAll .new history).stored container.rid pkRangeId with
  | some value => simp [known]
  | none =>
    cases named : (captureAll .new history).nameToRid[container.namePath]? with
    | none => simp [known]
    | some resolvedRid =>
      rcases nameToRid_captureAll named with ⟨c, hc, same, rid⟩ | fresh
      · rw [← rid, (stable c hc).mpr same]
        simp [known]
      · simp [SessionContainer.new] at fresh

theorem display_inj {w : SessionTokenValue} (h : display ⟨pkRangeId, v⟩ = display ⟨pkRangeId, w⟩) :
    v = w := by
  have texts := (cons.inj (append_cancel_left h)).2
  have read := congrArg SessionTokenValue.parse texts
  rw [SessionTokenValue.parse_display, SessionTokenValue.parse_display] at read
  exact Except.ok.inj read

/-- **Session reads never go back.**  In every history in which the container keeps its
RID, the token resolved for a range reads back as one that is as recent as every
well-formed token captured for it.  Capturing an earlier token again can only raise
regions, and only by tokens of an older version; without one it changes nothing. -/
theorem session_reads_never_go_back {container : ContainerReference} {history : List Capture}
    (stable : StableRid container history) (pkRangeId : Text) :
    (∀ t ∈ capturedFor history container.rid pkRangeId, ∃ text v,
      (captureAll .new history).resolveSessionTokenForRange container pkRangeId = some text ∧
      parse text = .ok ⟨pkRangeId, v⟩ ∧ v.isAsRecentAs t = true) ∧
    ∀ again ∈ history, again.container.rid = container.rid → ∀ v,
      (captureAll .new history).resolveSessionTokenForRange container pkRangeId =
        some (display ⟨pkRangeId, v⟩) →
      ∃ v', (captureAll .new (history ++ [again])).resolveSessionTokenForRange container pkRangeId =
          some (display ⟨pkRangeId, v'⟩) ∧
        Raised (tokensFor again.header pkRangeId) v v' ∧
        ((∀ t ∈ tokensFor again.header pkRangeId, ¬ OlderVersion t v) → v' = v) := by
  have recent : ∀ t ∈ capturedFor history container.rid pkRangeId, ∃ v,
      (captureAll .new history).stored container.rid pkRangeId = some v ∧
        v.isAsRecentAs t = true := by
    intro t ht
    rw [stable.stored]
    exact foldl_absorb_recent ht
  refine ⟨fun t ht => ?_, fun again hagain own v before => ?_⟩
  · obtain ⟨v, known, newer⟩ := recent t ht
    refine ⟨_, v, by rw [stable.resolve, known]; rfl, ?_, newer⟩
    have clean := cleanId_of_captured ht
    exact @parse_display ⟨pkRangeId, v⟩ clean.colon clean.start
  · have stableAgain : StableRid container (history ++ [again]) :=
      forall_mem_append.mpr ⟨stable, forall_mem_singleton.mpr (stable again hagain)⟩
    have known : (captureAll .new history).stored container.rid pkRangeId = some v := by
      rw [stable.resolve] at before
      obtain ⟨w, known, same⟩ := Option.map_eq_some_iff.mp before
      rw [known, display_inj same]
    -- every token of the repeated header was captured before
    have older : ∀ t ∈ tokensFor again.header pkRangeId, v.isAsRecentAs t = true := by
      intro t ht
      obtain ⟨w, known', newer⟩ := recent t
        (mem_flatMap.mpr ⟨again, hagain, by rw [if_pos own]; exact ht⟩)
      rw [known, Option.some.injEq] at known'
      exact known' ▸ newer
    obtain ⟨v', folded, raised⟩ := foldl_absorb_raised _ v (fun _ h => h) older
    refine ⟨v', ?_, raised, raised.eq⟩
    rw [stableAgain.resolve, captureAll_concat, stored_capture, if_pos own, known, folded]
    rfl

/-- The container of the runs below, under two RIDs. -/
def orders (rid : String) : ContainerReference := ⟨"shop", "orders", rid⟩

/-- A region that a newer token dropped and then named again with less progress. -/
def regionNamedAgain : List Capture :=
  ["0:1#100#1=10", "0:2#50", "0:2#50#1=5"].map fun header => ⟨orders "R1", header.toList⟩

/-- The first token of the history, captured again, raises the region. -/
theorem regionNamedAgain_changes :
    regionNamedAgain.head? = some ⟨orders "R1", "0:1#100#1=10".toList⟩ ∧
    (captureAll .new regionNamedAgain).resolveSessionTokenForRange (orders "R1") ['0'] =
      some "0:2#50#1=5".toList ∧
    (captureAll .new (regionNamedAgain ++ regionNamedAgain.head?.toList)).resolveSessionTokenForRange
      (orders "R1") ['0'] = some "0:2#50#1=10".toList := by
  decide +kernel

theorem regionNamedAgain_stays_recent :
    ∃ text v, (captureAll .new regionNamedAgain).resolveSessionTokenForRange (orders "R1") ['0'] =
        some text ∧
      parse text = .ok ⟨['0'], v⟩ ∧
      v.isAsRecentAs (.vector ⟨1, 100, (∅ : HashMap U64 RegionLsn).insert 1 (10 : Fin (2 ^ 63))⟩) =
        true :=
  (session_reads_never_go_back
    (fun c hc => by
      obtain ⟨header, _, rfl⟩ := mem_map.mp hc
      simp)
    ['0']).1 _ (by decide +kernel)

/-! ### A late capture -/

theorem cleanId_of_stored : ∀ {history : List Capture} {v : SessionTokenValue},
    (captureAll .new history).stored rid pkRangeId = some v → CleanId pkRangeId := by
  intro history
  induction history using reverseRecOn with
  | nil =>
    intro v h
    simp [captureAll, SessionContainer.new, SessionContainer.stored] at h
  | append_singleton history c ih =>
    intro v h
    rw [captureAll_concat, stored_capture] at h
    by_cases own : c.container.rid = rid
    · rw [if_pos own] at h
      cases tokens : tokensFor c.header pkRangeId with
      | nil => exact ih (by rw [tokens] at h; exact h)
      | cons t ts =>
        have among : t ∈ capturedFor [c] rid pkRangeId := by simp [capturedFor, own, tokens]
        exact cleanId_of_captured among
    · rw [if_neg own] at h
      split at h
      · cases h
      · exact ih h

theorem resolve_stored (known : (captureAll .new history).stored container.rid pkRangeId = some v) :
    ∃ text, (captureAll .new history).resolveSessionToken container = some text ∧
      ⟨pkRangeId, v⟩ ∈ segmentsOf text := by
  obtain ⟨pkMap, own, here⟩ := bind_eq_some_iff.mp known
  have mem : (⟨pkRangeId, v⟩ : SessionTokenSegment) ∈
      pkMap.toList.map fun p => (⟨p.1, p.2⟩ : SessionTokenSegment) :=
    mem_map.mpr ⟨(pkRangeId, v), HashMap.mem_toList.mpr here, rfl⟩
  have clean : ∀ s ∈ pkMap.toList.map fun p => (⟨p.1, p.2⟩ : SessionTokenSegment),
      CleanId s.pkRangeId := by
    intro s hs
    obtain ⟨p, hp, rfl⟩ := mem_map.mp hs
    have known : (captureAll .new history).stored container.rid p.1 = some p.2 := by
      unfold SessionContainer.stored
      rw [own]
      exact HashMap.mem_toList.mp hp
    exact cleanId_of_stored known
  have filled : pkMap.isEmpty = false := by
    cases empty : pkMap.isEmpty with
    | false => rfl
    | true =>
      rw [Std.ExtTreeMap.isEmpty_iff.mp empty] at here
      simp at here
  refine ⟨compose (pkMap.toList.map fun p => ⟨p.1, p.2⟩), ?_, ?_⟩
  · unfold SessionContainer.resolveSessionToken SessionContainer.buildCompositeToken
    simp [own, filled]
  · rwa [segmentsOf_compose clean]

theorem nameToRid_kept {name : String} : ∀ {history : List Capture} {self : SessionContainer},
    self.nameToRid[name]? = some rid →
    (∀ c ∈ history, c.container.namePath = name → c.container.rid = rid) →
    (captureAll self history).nameToRid[name]? = some rid
  | [], _, known, _ => known
  | c :: history, self, known, same => by
    rw [captureAll_cons]
    refine nameToRid_kept ?_ fun d hd => same d (.tail _ hd)
    rw [nameToRid_capture]
    by_cases named : c.container.namePath = name
    · rw [if_pos named, same c (.head _) named]
    · rw [if_neg named, known]

/-- **A late capture wipes the current tokens, and nothing else does.**  A token captured
under a RID that only one name has stays among the RID's stored tokens through every
later capture exactly if the name comes with no other RID any more; then it is in what
is resolved, at every later point. -/
theorem late_capture_wipes_iff (before later : List Capture) (current : Capture)
    (oneName : ∀ c ∈ before ++ current :: later, c.container.rid = current.container.rid →
      c.container.namePath = current.container.namePath)
    {t : SessionTokenValue} (captured : t ∈ tokensFor current.header pkRangeId) :
    ((∀ seen, seen <+: later → ∃ v,
        (captureAll .new (before ++ current :: seen)).stored current.container.rid pkRangeId =
          some v ∧ v.isAsRecentAs t = true) ↔
      ∀ late ∈ later, late.container.namePath = current.container.namePath →
        late.container.rid = current.container.rid) ∧
    ((∀ late ∈ later, late.container.namePath = current.container.namePath →
        late.container.rid = current.container.rid) →
      ∀ seen, seen <+: later → ∃ text,
        (captureAll .new (before ++ current :: seen)).resolveSessionToken current.container =
          some text ∧
        ∃ s ∈ segmentsOf text, s.pkRangeId = pkRangeId ∧ s.value.isAsRecentAs t = true) := by
  have kept : (∀ late ∈ later, late.container.namePath = current.container.namePath →
        late.container.rid = current.container.rid) →
      ∀ seen, seen <+: later → ∃ v,
        (captureAll .new (before ++ current :: seen)).stored current.container.rid pkRangeId =
          some v ∧ v.isAsRecentAs t = true := by
    intro noLate seen initial
    rw [captureAll_append, captureAll_cons, stored_captureAll, stored_capture,
      if_pos rfl, ← foldl_append]
    · exact foldl_absorb_recent (mem_append_left _ captured)
    · -- only the name of the current RID leads to it, and the name stays with it
      intro c hc other
      rw [nameToRid_capture]
      split
      · rename_i same
        exact fun _ => other (noLate c (initial.mem hc) same.symm)
      · intro leads
        rcases nameToRid_captureAll leads with ⟨d, hd, named, own⟩ | fresh
        · have := oneName d (mem_append_left _ hd) own
          exact other (noLate c (initial.mem hc) (named.symm.trans this))
        · simp [SessionContainer.new] at fresh
    · refine pairwise_of_forall_mem_list fun earlier he late hl own named => ?_
      have := oneName earlier (mem_append_right _ (.tail _ (initial.mem he))) own
      exact noLate late (initial.mem hl) (named.trans this)
  refine ⟨⟨fun held late hlate named => ?_, kept⟩, fun noLate seen initial => ?_⟩
  · -- the captures up to any point cannot have named the container under another RID
    have upTo : ∀ seen : List Capture, seen <+: later → ∀ c ∈ seen,
        c.container.namePath = current.container.namePath →
        c.container.rid = current.container.rid := by
      intro seen
      induction seen using List.reverseRecOn with
      | nil => simp
      | append_singleton seen c ih =>
        intro initial d hd same
        have sofar := ih ((prefix_append seen [c]).trans initial)
        rcases mem_append.mp hd with hd | hd
        · exact sofar d hd same
        rw [mem_singleton.mp hd] at same ⊢
        by_contra other
        obtain ⟨v, known, _⟩ := held (seen ++ [c]) initial
        have leads : (captureAll .new (before ++ current :: seen)).nameToRid[c.container.namePath]? =
            some current.container.rid := by
          rw [captureAll_append, captureAll_cons]
          refine nameToRid_kept ?_ (same ▸ sofar)
          rw [nameToRid_capture, if_pos same.symm]
        rw [← cons_append, ← append_assoc, captureAll_concat, stored_capture, if_neg other,
          if_pos leads] at known
        cases known
    exact upTo later (prefix_refl later) late hlate named
  · obtain ⟨v, known, recent⟩ := kept noLate seen initial
    obtain ⟨text, resolved, mem⟩ := resolve_stored known
    exact ⟨text, resolved, _, mem, rfl, recent⟩

/-- The container is re-created between the first two captures; the third answers a
request sent before that. -/
def lateAnswer : List Capture :=
  [⟨orders "R1", "0:1#1".toList⟩, ⟨orders "R2", "0:1#100".toList⟩, ⟨orders "R1", "0:1#2".toList⟩]

theorem lateAnswer_wipes :
    (captureAll .new (lateAnswer.take 2)).resolveSessionToken (orders "R2") =
      some "0:1#100".toList ∧
    (captureAll .new lateAnswer).stored "R2" ['0'] = none ∧
    (captureAll .new lateAnswer).resolveSessionToken (orders "R2") = some "0:1#2".toList := by
  decide +kernel

theorem inOrderAnswers_keep :
    ∃ text, (captureAll .new ([⟨orders "R1", "0:1#1".toList⟩] ++ ⟨orders "R2", "0:1#100".toList⟩ ::
        [⟨orders "R2", "0:1#7".toList⟩])).resolveSessionToken (orders "R2") = some text ∧
      ∃ s ∈ segmentsOf text, s.pkRangeId = ['0'] ∧
        s.value.isAsRecentAs (.vector ⟨1, 100, ∅⟩) = true :=
  (late_capture_wipes_iff _ _ ⟨orders "R2", "0:1#100".toList⟩ (by decide)
    (by decide +kernel)).2 (by decide) _ (prefix_refl _)

end Histories

end AzureSdk.Cosmos.Session
