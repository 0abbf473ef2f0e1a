/-
# Cosmos.Session.ByPartition — the segments of one id

The last phase splits all tokens into segments and merges those of one pk range id,
in order.  On coherent segments it writes the merge of each id (`mem_fold_iff`), so
the order is lost.  Well-formed tokens stay so through every phase, and none of the
phases fails on them.
-/
import AzureSdk.Cosmos.Session.Leading

namespace AzureSdk.Cosmos.Session

open Theory List SessionTokenSegment

/-! ## Segments of one id -/

/-- No id twice. -/
def OneEach (known : List SessionTokenSegment) : Prop :=
  known.Pairwise fun a b => a.pkRangeId ≠ b.pkRangeId

variable {s : SessionTokenSegment} {token : Text}

/-- A segment after an insertion: one of another id, the merged one, or the new one. -/
theorem insertSegment_cases {r : SessionTokenSegment} : ∀ {known : List SessionTokenSegment},
    OneEach known → r ∈ insertSegment known s →
      (r ∈ known ∧ r.pkRangeId ≠ s.pkRangeId) ∨
      (∃ k ∈ known, k.pkRangeId = s.pkRangeId ∧ r = (k.mergeValue s).1) ∨
      (r = s ∧ ∀ k ∈ known, k.pkRangeId ≠ s.pkRangeId)
  | [], _, h => .inr (.inr ⟨mem_singleton.mp h, by simp⟩)
  | existing :: rest, each, h => by
    obtain ⟨fresh, eachRest⟩ := pairwise_cons.mp each
    unfold insertSegment at h
    by_cases same : existing.pkRangeId = s.pkRangeId
    · rw [if_pos same] at h
      rcases mem_cons.mp h with rfl | h
      · exact .inr (.inl ⟨existing, .head _, same, rfl⟩)
      · exact .inl ⟨.tail _ h, fun other => fresh r h (same.trans other.symm)⟩
    · rw [if_neg same] at h
      rcases mem_cons.mp h with rfl | h
      · exact .inl ⟨.head _, same⟩
      rcases insertSegment_cases eachRest h with ⟨h, other⟩ | ⟨k, hk, own⟩ | ⟨rfl, none⟩
      · exact .inl ⟨.tail _ h, other⟩
      · exact .inr (.inl ⟨k, .tail _ hk, own⟩)
      · exact .inr (.inr ⟨rfl, forall_mem_cons.mpr ⟨same, none⟩⟩)

theorem oneEach_insertSegment : ∀ {known : List SessionTokenSegment},
    OneEach known → OneEach (insertSegment known s)
  | [], _ => pairwise_singleton _ s
  | existing :: rest, each => by
    obtain ⟨fresh, eachRest⟩ := pairwise_cons.mp each
    unfold insertSegment
    by_cases same : existing.pkRangeId = s.pkRangeId
    · rw [if_pos same]
      exact pairwise_cons.mpr ⟨fresh, eachRest⟩
    · rw [if_neg same]
      refine pairwise_cons.mpr ⟨fun r hr => ?_, oneEach_insertSegment eachRest⟩
      rcases mem_insertSegment hr with own | hr
      · exact own ▸ same
      · exact fresh r hr

theorem insertSegment_fresh : ∀ {known : List SessionTokenSegment},
    (∀ k ∈ known, k.pkRangeId ≠ s.pkRangeId) → insertSegment known s = known ++ [s]
  | [], _ => rfl
  | existing :: rest, fresh => by
    unfold insertSegment
    rw [if_neg (fresh existing (.head _)),
      insertSegment_fresh fun k hk => fresh k (.tail _ hk)]
    rfl

theorem foldl_insertSegment_oneEach : ∀ {segments known : List SessionTokenSegment},
    OneEach (known ++ segments) → segments.foldl insertSegment known = known ++ segments
  | [], known, _ => by simp
  | s :: segments, known, each => by
    have fresh : ∀ k ∈ known, k.pkRangeId ≠ s.pkRangeId := fun k hk =>
      (pairwise_append.mp each).2.2 k hk s (.head _)
    rw [foldl_cons, insertSegment_fresh fresh, foldl_insertSegment_oneEach]
    · simp
    · simpa using each

def valuesAt (W : List SessionTokenSegment) (id : Text) : Set SessionTokenValue :=
  valuesOf {w | w ∈ W ∧ w.pkRangeId = id}

/-- What is known after some segments: the merge of each id. -/
structure Folded (done known : List SessionTokenSegment) : Prop where
  each : OneEach known
  merged : ∀ k ∈ known, IsMerge (valuesAt done k.pkRangeId) k.value
  covered : ∀ w ∈ done, ∃ k ∈ known, k.pkRangeId = w.pkRangeId

theorem valuesAt_append (done : List SessionTokenSegment) (s : SessionTokenSegment) (id : Text) :
    valuesAt (done ++ [s]) id =
      valuesAt done id ∪ if s.pkRangeId = id then {s.value} else ∅ := by
  ext v
  by_cases own : s.pkRangeId = id
  · simp [valuesAt, valuesOf, own, or_and_right, exists_or, or_comm, eq_comm]
  · simp [valuesAt, valuesOf, own, or_and_right, exists_or]

theorem Folded.insert {done known : List SessionTokenSegment}
    (h : Folded done known) (coherent : Coherent (vectors (valuesAt (done ++ [s]) s.pkRangeId))) :
    Folded (done ++ [s]) (insertSegment known s) where
  each := oneEach_insertSegment h.each
  merged := by
    intro r hr
    rcases insertSegment_cases h.each hr with ⟨mem, other⟩ | ⟨k, hk, own, rfl⟩ | ⟨rfl, fresh⟩
    · rw [valuesAt_append, if_neg fun same => other same.symm, Set.union_empty]
      exact h.merged r mem
    · change IsMerge (valuesAt (done ++ [s]) k.pkRangeId) (k.value.merge s.value).1
      rw [← own, valuesAt_append, if_pos own.symm] at coherent
      rw [valuesAt_append, if_pos own.symm]
      exact (h.merged k hk).merge (.singleton s.value) coherent
    · have none : valuesAt done r.pkRangeId = ∅ := by
        refine Set.eq_empty_of_forall_notMem ?_
        rintro v ⟨w, ⟨mem, same⟩, _⟩
        obtain ⟨k, hk, id⟩ := h.covered w mem
        exact fresh k hk (id.trans same)
      rw [valuesAt_append, if_pos rfl, none, Set.empty_union]
      exact .singleton r.value
  covered := by
    intro w hw
    rcases mem_append.mp hw with hw | hw
    · obtain ⟨k, hk, same⟩ := h.covered w hw
      obtain ⟨r, hr, id, _⟩ : Followed (insertSegment known s) _ := insertSegment_recent (.inr hk)
      exact ⟨r, hr, id.trans same⟩
    · rw [mem_singleton.mp hw]
      obtain ⟨r, hr, id, _⟩ : Followed (insertSegment known s) _ := insertSegment_recent (.inl rfl)
      exact ⟨r, hr, id⟩

theorem foldl_insertSegment_folded : ∀ {segments done known : List SessionTokenSegment},
    Folded done known → (∀ id, Coherent (vectors (valuesAt (done ++ segments) id))) →
    Folded (done ++ segments) (segments.foldl insertSegment known)
  | [], done, known, h, _ => by simpa using h
  | s :: segments, done, known, h, coherent => by
    have whole : done ++ s :: segments = (done ++ [s]) ++ segments := by simp
    rw [whole] at coherent ⊢
    refine foldl_insertSegment_folded (h.insert ?_) coherent
    refine (coherent s.pkRangeId).mono fun t ht => ?_
    obtain ⟨w, ⟨mem, same⟩, value⟩ := ht
    exact ⟨w, ⟨mem_append_left _ mem, same⟩, value⟩

variable {W : List SessionTokenSegment} {other self : Text} {processed : List RangeToken}

/-- The last phase writes the merge of each id. -/
theorem mem_fold_iff (coherent : ∀ id, Coherent (vectors (valuesAt W id))) :
    s ∈ W.foldl insertSegment [] ↔ IsMerge (valuesAt W s.pkRangeId) s.value := by
  have start : Folded [] [] := ⟨.nil, by simp, by simp⟩
  have folded : Folded W (W.foldl insertSegment []) := by
    have := foldl_insertSegment_folded start (by simpa using coherent)
    simpa using this
  constructor
  · exact folded.merged s
  · intro merged
    obtain ⟨_, w, ⟨mem, same⟩, _⟩ := merged.nonempty
    obtain ⟨k, hk, id⟩ := folded.covered w mem
    have value : k.value = s.value := by
      refine (folded.merged k hk).unique ?_
      rwa [id, same]
    have equal : k = s := by
      cases k
      simp_all
    exact equal ▸ hk

/-- The last phase writes the same segments whatever the order of the tokens. -/
theorem mem_fold_perm {W' : List SessionTokenSegment} (same : W.Perm W')
    (coherent : ∀ id, Coherent (vectors (valuesAt W id))) :
    s ∈ W.foldl insertSegment [] ↔ s ∈ W'.foldl insertSegment [] := by
  have values : ∀ id, valuesAt W id = valuesAt W' id := by
    intro id
    unfold valuesAt
    simp only [same.mem_iff]
  rw [mem_fold_iff coherent, mem_fold_iff fun id => values id ▸ coherent id, values]

/-! ## Well-formed tokens -/

/-- A session token: one or more segments, all of them readable. -/
structure WellFormed (token : Text) : Prop where
  some_ : headerParts token ≠ []
  parts : ∀ part ∈ headerParts token, ∃ s, parse part = .ok s

theorem WellFormed.parse (h : WellFormed token) (single : isCompound token = false) :
    ∃ s, SessionTokenSegment.parse token = .ok s := by
  have parts := headerParts_single single
  have filled : Text.trim token ≠ [] := by
    intro empty
    refine h.some_ ?_
    rw [parts, empty]
    rfl
  obtain ⟨s, read⟩ := h.parts (Text.trim token) (by rw [parts]; simp [filled])
  refine ⟨s, ?_⟩
  unfold SessionTokenSegment.parse at read ⊢
  rwa [Text.trim_trim] at read

theorem wellFormed_single (single : isCompound token = false)
    (read : parse token = .ok s) : WellFormed token := by
  have filled : Text.trim token ≠ [] := by
    intro empty
    unfold parse at read
    rw [empty] at read
    exact ofTrimmed_nil read
  have parts : headerParts token = [Text.trim token] := by
    rw [headerParts_single single]
    simp [filled]
  refine ⟨by simp [parts], fun part hp => ⟨s, ?_⟩⟩
  rw [parts, mem_singleton] at hp
  unfold parse at read ⊢
  rw [hp, Text.trim_trim]
  exact read

theorem mapM_parse_wellFormed : ∀ {parts : List Text},
    (∀ part ∈ parts, ∃ s, parse part = .ok s) →
    ∃ segments, parts.mapM parse = .ok segments
  | [], _ => ⟨[], rfl⟩
  | part :: parts, readable => by
    obtain ⟨s, read⟩ := readable part (.head _)
    obtain ⟨segments, rest⟩ := mapM_parse_wellFormed
      fun p hp => readable p (.tail _ hp)
    refine ⟨s :: segments, ?_⟩
    rw [mapM_cons, read, rest]
    rfl

theorem WellFormed.segments (h : WellFormed token) : segmentsOf token ≠ [] := by
  obtain ⟨part, hp⟩ := exists_mem_of_ne_nil _ h.some_
  obtain ⟨s, read⟩ := h.parts part hp
  rw [parse_headerPart hp] at read
  exact ne_nil_of_mem (mem_filterMap.mpr ⟨part, hp, by rw [read]; rfl⟩)

theorem wellFormed_compose {segments : List SessionTokenSegment} (some_ : segments ≠ [])
    (clean : ∀ s ∈ segments, CleanId s.pkRangeId) : WellFormed (compose segments) := by
  have parts := headerParts_compose clean
  refine ⟨by simpa [parts] using some_, fun part hp => ?_⟩
  rw [parts] at hp
  obtain ⟨s, hs, rfl⟩ := mem_map.mp hp
  exact ⟨s, parse_display (clean s hs).colon (clean s hs).start⟩

theorem merge_readable (readable : ∀ part ∈ headerParts self ++ headerParts other,
      ∃ s, parse part = .ok s) :
    ∃ merged, SessionToken.merge self other = .ok merged := by
  obtain ⟨segments, read⟩ := mapM_parse_wellFormed readable
  refine ⟨compose (segments.foldl insertSegment []), ?_⟩
  unfold SessionToken.merge
  rw [read]
  rfl

theorem merge_wellFormed (hself : WellFormed self) (hother : WellFormed other)
    (each : OneEach (segmentsOf self)) :
    ∃ merged, SessionToken.merge self other = .ok merged ∧ WellFormed merged ∧
      segmentsOf merged = (segmentsOf other).foldl insertSegment (segmentsOf self) := by
  obtain ⟨merged, run⟩ := merge_readable fun part hp =>
    (mem_append.mp hp).elim (hself.parts part) (hother.parts part)
  have written := SessionToken.segmentsOf_merge run
  have known : (segmentsOf self).foldl insertSegment [] = segmentsOf self :=
    foldl_insertSegment_oneEach (by rwa [nil_append])
  refine ⟨merged, run, ?_, by rw [written, foldl_append, known]⟩
  rw [SessionToken.merge_ok run, ← written]
  refine wellFormed_compose ?_ fun s hs => cleanId_of_mem hs
  obtain ⟨c, hc⟩ := exists_mem_of_ne_nil _ hself.segments
  obtain ⟨r, hr, _⟩ := SessionToken.merge_recent run (.inl hc)
  exact ne_nil_of_mem hr

theorem oneEach_foldl : ∀ (segments : List SessionTokenSegment)
    {known : List SessionTokenSegment}, OneEach known → OneEach (segments.foldl insertSegment known)
  | [], _, each => each
  | _ :: segments, _, each => oneEach_foldl segments (oneEach_insertSegment each)

/-- Segments that were read, and what merging makes of them. -/
inductive Obtained : SessionTokenSegment → Prop
  | parsed {text : Text} {s : SessionTokenSegment}
    (read : parse text = .ok s) : Obtained s
  | merged {a b : SessionTokenSegment} (left : Obtained a) (right : Obtained b) :
    Obtained (a.mergeValue b).1

theorem Obtained.parse_display (h : Obtained s) : SessionTokenSegment.parse s.display = .ok s := by
  have plain : ':' ∉ s.pkRangeId ∧
      ∀ c, s.pkRangeId.head? = some c → Text.isWhitespace c = false := by
    induction h with
    | parsed read => exact parse_inv read
    | merged _ _ left _ => exact left
  exact SessionTokenSegment.parse_display plain.1 plain.2

/-- What was read and merged reads back from its text, and a merged header has each id of the
two headers once, at least as recent as all its segments. -/
theorem session_tokens_survive :
    (∀ v : SessionTokenValue, SessionTokenValue.parse v.display = .ok v) ∧
    (∀ s, Obtained s → parse s.display = .ok s) ∧
    ∀ self other : Text, (∀ part ∈ headerParts self ++ headerParts other,
        ∃ s, parse part = .ok s) →
      ∃ merged, SessionToken.merge self other = .ok merged ∧
        merged = compose (segmentsOf merged) ∧ OneEach (segmentsOf merged) ∧
        (∀ r ∈ segmentsOf merged, ∃ c ∈ segmentsOf self ++ segmentsOf other,
          c.pkRangeId = r.pkRangeId) ∧
        ∀ c ∈ segmentsOf self ++ segmentsOf other, ∃ r ∈ segmentsOf merged,
          r.pkRangeId = c.pkRangeId ∧ r.isAsRecentAs c = true := by
  refine ⟨SessionTokenValue.parse_display, fun s h => h.parse_display, fun self other readable => ?_⟩
  obtain ⟨merged, run⟩ := merge_readable readable
  have written := SessionToken.segmentsOf_merge run
  refine ⟨merged, run, ?_, ?_, fun r hr => ?_, fun c hc => ?_⟩
  · rw [written]
    exact SessionToken.merge_ok run
  · rw [written]
    exact oneEach_foldl _ .nil
  · rw [written] at hr
    simpa using foldl_insertSegment_origin hr
  · exact SessionToken.merge_recent run (mem_append.mp hc)

theorem foldlM_merge_wellFormed : ∀ {tokens : List Text} {acc : Text}, WellFormed acc →
    OneEach (segmentsOf acc) → (∀ t ∈ tokens, WellFormed t) →
    ∃ out, tokens.foldlM SessionToken.merge acc = .ok out ∧
      segmentsOf out = (tokens.flatMap segmentsOf).foldl insertSegment (segmentsOf acc)
  | [], acc, _, _, _ => ⟨acc, rfl, rfl⟩
  | t :: tokens, acc, hacc, each, wf => by
    obtain ⟨merged, run, hmerged, segments⟩ :=
      merge_wellFormed hacc (wf t (.head _)) each
    obtain ⟨out, rest, written⟩ := foldlM_merge_wellFormed hmerged
      (by rw [segments]; exact oneEach_foldl _ each)
      fun u hu => wf u (.tail _ hu)
    refine ⟨out, ?_, ?_⟩
    · rw [foldlM_cons, run]
      exact rest
    · rw [written, segments, flatMap_cons, foldl_append]

theorem result_wellFormed (wf : ∀ x ∈ processed, WellFormed x.2) (some_ : processed ≠ []) :
    ∃ latest, finish processed = .ok latest ∧
      segmentsOf latest = (allSegments processed).foldl insertSegment [] := by
  have part : ∀ p ∈ splitCompoundTokens processed, WellFormed p ∧ ∃ s, segmentsOf p = [s] := by
    intro p hp
    obtain ⟨x, hx, hp⟩ := mem_flatMap.mp hp
    obtain ⟨s, read⟩ := (wf x hx).parts p hp
    obtain ⟨_, single, _⟩ := headerParts_trimmed hp
    exact ⟨wellFormed_single single read, s, segmentsOf_single single read⟩
  have all : allSegments processed = (splitCompoundTokens processed).flatMap segmentsOf := by
    unfold allSegments splitCompoundTokens
    rw [flatMap_assoc]
    refine flatMap_congr fun x _ => ?_
    have each : (headerParts x.2).flatMap segmentsOf =
        (headerParts x.2).flatMap fun p => (ofTrimmed p).toOption.toList :=
      flatMap_congr fun p hp => segmentsOf_part hp
    rw [each]
    exact filterMap_eq_flatMap_toList _ _
  unfold finish
  cases parts : splitCompoundTokens processed with
  | nil =>
    obtain ⟨x, hx⟩ := exists_mem_of_ne_nil _ some_
    obtain ⟨p, hp⟩ := exists_mem_of_ne_nil _ (wf x hx).some_
    have : p ∈ splitCompoundTokens processed := mem_flatMap.mpr ⟨x, hx, hp⟩
    rw [parts] at this
    simp at this
  | cons first rest =>
    rw [parts] at part
    obtain ⟨wfFirst, s, only⟩ := part first (.head _)
    have start : (segmentsOf first).foldl insertSegment [] = segmentsOf first := by
      rw [only]
      rfl
    rw [all, parts, flatMap_cons, foldl_append, start]
    obtain ⟨out, run, segments⟩ := foldlM_merge_wellFormed wfFirst
      (by rw [only]; exact pairwise_singleton _ s)
      fun t ht => (part t (.tail _ ht)).1
    cases rest with
    | nil =>
      simp
    | cons second rest => exact ⟨out, run, segments⟩

/-! ## The worklist keeps tokens well-formed -/

theorem wellFormed_join {tokens : List Text} (some_ : tokens ≠ [])
    (each : ∀ t ∈ tokens, isCompound t = false ∧ WellFormed t) : WellFormed (joinTokens tokens) := by
  have parts := headerParts_join some_ fun t ht => (each t ht).1
  obtain ⟨t, ht⟩ := exists_mem_of_ne_nil _ some_
  obtain ⟨part, hp⟩ := exists_mem_of_ne_nil _ (each t ht).2.some_
  refine ⟨?_, fun p mem => ?_⟩
  · rw [parts]
    exact ne_nil_of_mem (mem_flatMap.mpr ⟨t, ht, hp⟩)
  · rw [parts] at mem
    obtain ⟨u, hu, mem⟩ := mem_flatMap.mp mem
    exact (each u hu).2.parts p mem

theorem Round.wellFormed {current : RangeToken} {rest worklist processed' : List RangeToken}
    (round : Round current rest processed worklist processed')
    (wf : ∀ x ∈ current :: rest, WellFormed x.2) (done : ∀ x ∈ processed, WellFormed x.2) :
    (∀ x ∈ worklist, WellFormed x.2) ∧ ∀ x ∈ processed', WellFormed x.2 := by
  have own : WellFormed current.2 := wf current (.head _)
  have behind : ∀ x ∈ rest, WellFormed x.2 := fun x hx => wf x (.tail _ hx)
  have added : ∀ x ∈ processed ++ [current], WellFormed x.2 :=
    forall_mem_append.mpr ⟨done, forall_mem_singleton.mpr own⟩
  have both : ∀ {gone left : List RangeToken}, rest.Perm (gone ++ left) →
      (∀ x ∈ gone, WellFormed x.2) ∧ ∀ x ∈ left, WellFormed x.2 := fun split =>
    ⟨fun x hx => behind x (split.mem_iff.mpr (mem_append_left _ hx)),
      fun x hx => behind x (split.mem_iff.mpr (mem_append_right _ hx))⟩
  have joined : ∀ {left : List RangeToken} {tokens : List Text}, (∀ x ∈ left, WellFormed x.2) →
      tokens ≠ [] → (∀ t ∈ tokens, isCompound t = false ∧ WellFormed t) →
      ∀ x ∈ left ++ [(current.1, joinTokens tokens)], WellFormed x.2 := fun kept some_ each =>
    forall_mem_append.mpr ⟨kept, forall_mem_singleton.mpr (wellFormed_join some_ each)⟩
  cases round with
  | compound multi => exact ⟨behind, added⟩
  | ahead single read split dropped => exact ⟨(both split).2, added⟩
  | @replaced seg gone left single read split two children cover =>
    refine ⟨joined (both split).2 ?_ ?_, done⟩
    · intro empty
      rw [map_eq_nil_iff.mp empty] at two
      simp at two
    · exact forall_mem_map.mpr fun x hx => ⟨(children x hx).1.1, (both split).1 x hx⟩
  | @mixed seg gone left single read split some_ children =>
    refine ⟨joined (both split).2 (by simp) ?_, added⟩
    refine forall_mem_append.mpr ⟨?_, forall_mem_singleton.mpr ⟨single, own⟩⟩
    exact forall_mem_map.mpr fun x hx => ⟨(children x hx).1.1, (both split).1 x hx⟩

theorem mergeSubsetsLoop_wellFormed {fuel : Nat} {l out : List RangeToken}
    (h : mergeSubsetsLoop fuel l processed = .ok out) (enough : l.length ≤ fuel) (apart : Apart l)
    (wf : ∀ x ∈ l, WellFormed x.2) (done : ∀ x ∈ processed, WellFormed x.2) :
    ∀ x ∈ out, WellFormed x.2 := by
  refine mergeSubsetsLoop_induct (P := fun l processed => (∀ x ∈ l, WellFormed x.2) →
    (∀ x ∈ processed, WellFormed x.2) → _) (fun _ => id) ?_ h enough apart wf done
  intro current rest processed worklist processed' _ round later wf done
  obtain ⟨wf', done'⟩ := round.wellFormed wf done
  exact later wf' done'

end AzureSdk.Cosmos.Session
