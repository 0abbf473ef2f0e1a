/-
# Cosmos.Session.LatestToken — what the merge across feed ranges keeps

Every segment that was given for an overlapping range is traced through the phases
of `get_latest_session_token`.  Merging tokens of one range only moves forward
(`Refined`).  One round of the worklist is described once (`Round`); from it, by
induction over the rounds, every range is `Settled`: still written, or dropped for a
range around it that is ahead, or for ranges inside it that make it up.
-/
import AzureSdk.Cosmos.Session.Helpers

namespace AzureSdk.Cosmos.Session

open Theory List SessionTokenSegment SessionToken

namespace SessionTokenSegment

variable {a b c : SessionTokenSegment}

theorem isAsRecentAs_trans (ab : a.isAsRecentAs b = true) (bc : b.isAsRecentAs c = true) :
    a.isAsRecentAs c = true :=
  SessionTokenValue.isAsRecentAs_trans ab bc

theorem isAsRecentAs_refl (a : SessionTokenSegment) : a.isAsRecentAs a = true :=
  SessionTokenValue.isAsRecentAs_refl a.value

end SessionTokenSegment

/-! ## Tokens with one segment -/

section OneSegment

variable {token : Text} {s : SessionTokenSegment} (single : isCompound token = false)

include single

theorem comma_of_not_compound : ',' ∉ token := by
  simpa [isCompound] using single

theorem headerParts_single :
    headerParts token = [Text.trim token].filter fun part => !part.isEmpty := by
  unfold headerParts
  rw [splitOn_eq_singleton (comma_of_not_compound single)]
  rfl

omit single in
theorem ofTrimmed_nil : ofTrimmed [] ≠ .ok s := by
  simp [ofTrimmed, Text.splitOnce, fail]

theorem segmentsOf_single (read : parse token = .ok s) : segmentsOf token = [s] := by
  unfold parse at read
  have filled : Text.trim token ≠ [] := by
    intro empty
    rw [empty] at read
    exact ofTrimmed_nil read
  unfold segmentsOf
  rw [headerParts_single single]
  simp [filled, read, Except.toOption]

theorem parse_of_mem (h : s ∈ segmentsOf token) : parse token = .ok s := by
  unfold segmentsOf at h
  rw [headerParts_single single] at h
  obtain ⟨part, hp, read⟩ := mem_filterMap.mp h
  rw [mem_singleton.mp (mem_of_mem_filter hp)] at read
  unfold parse
  cases parsed : ofTrimmed (Text.trim token) with
  | error fault => simp [parsed, Except.toOption] at read
  | ok s' => simpa [parsed, Except.toOption] using read

theorem mem_segmentsOf (read : parse token = .ok s) : s ∈ segmentsOf token := by
  rw [segmentsOf_single single read]
  exact mem_singleton_self s

theorem cleanId_of_parse (read : parse token = .ok s) : CleanId s.pkRangeId :=
  cleanId_of_mem (mem_segmentsOf single read)

omit single in
theorem not_compound_display (clean : CleanId s.pkRangeId) : isCompound s.display = false := by
  simpa [isCompound] using comma_display clean

omit single in
theorem segmentsOf_display (clean : CleanId s.pkRangeId) : segmentsOf s.display = [s] :=
  segmentsOf_single (not_compound_display clean)
    (parse_display clean.colon clean.start)

end OneSegment

/-! ## Tokens of one range -/

/-- The segment stands in the list for that range. -/
def Holds (l : List RangeToken) (r : FeedRange) (c : SessionTokenSegment) : Prop :=
  ∃ token, (r, token) ∈ l ∧ c ∈ segmentsOf token

/-- Range by range, `out` is ahead of `l`, and its ids were there before. -/
structure Refined (l out : List RangeToken) : Prop where
  kept : ∀ {r c}, Holds l r c → ∃ c', Holds out r c' ∧ c'.isAsRecentAs c = true
  origin : ∀ {r c'}, Holds out r c' →
    ∃ c, Holds l r c ∧ c.pkRangeId = c'.pkRangeId ∧ c'.isAsRecentAs c = true

theorem Refined.refl (l : List RangeToken) : Refined l l :=
  ⟨fun {_ c} h => ⟨c, h, c.isAsRecentAs_refl⟩, fun {_ c} h => ⟨c, h, rfl, c.isAsRecentAs_refl⟩⟩

variable {m l' : List RangeToken} {b : RangeToken} {e : EffectivePartitionKey}
  {parentRange : FeedRange} {parentSeg p : SessionTokenSegment} {parentToken other self : Text}

theorem Refined.trans {l out : List RangeToken} (lm : Refined l m) (mo : Refined m out) :
    Refined l out where
  kept := fun h => by
    obtain ⟨c', h', recent⟩ := lm.kept h
    obtain ⟨c'', h'', recent'⟩ := mo.kept h'
    exact ⟨c'', h'', isAsRecentAs_trans recent' recent⟩
  origin := fun h => by
    obtain ⟨c', h', same, recent⟩ := mo.origin h
    obtain ⟨c, h'', same', recent'⟩ := lm.origin h'
    exact ⟨c, h'', same'.trans same, isAsRecentAs_trans recent recent'⟩

/-- The merged segment is ahead of both, under the id of one of them. -/
theorem mergeSegmentsSameRange_spec (seg1 seg2 : SessionTokenSegment) :
    (mergeSegmentsSameRange seg1 seg2).isAsRecentAs seg1 = true ∧
    (mergeSegmentsSameRange seg1 seg2).isAsRecentAs seg2 = true ∧
    ((mergeSegmentsSameRange seg1 seg2).pkRangeId = seg1.pkRangeId ∨
      (mergeSegmentsSameRange seg1 seg2).pkRangeId = seg2.pkRangeId) := by
  unfold mergeSegmentsSameRange
  split
  · exact ⟨SessionTokenValue.isAsRecentAs_merge_left, SessionTokenValue.isAsRecentAs_merge_right,
      .inr rfl⟩
  · exact ⟨SessionTokenValue.isAsRecentAs_merge_left, SessionTokenValue.isAsRecentAs_merge_right,
      .inl rfl⟩

theorem cleanId_merge {token1 token2 : Text} {seg1 seg2 : SessionTokenSegment}
    (single1 : isCompound token1 = false) (read1 : parse token1 = .ok seg1)
    (single2 : isCompound token2 = false) (read2 : parse token2 = .ok seg2) :
    CleanId (mergeSegmentsSameRange seg1 seg2).pkRangeId := by
  rcases (mergeSegmentsSameRange_spec seg1 seg2).2.2 with id | id <;> rw [id]
  · exact cleanId_of_parse single1 read1
  · exact cleanId_of_parse single2 read2

variable {a current x : RangeToken} {c : SessionTokenSegment}
  {l out rest processed : List RangeToken} {r range : FeedRange} {members : List Subset}
  {tokens : List Text}

theorem sameRange_iff : sameRange a b = true ↔
    isCompound a.2 = false ∧ isCompound b.2 = false ∧ a.1 = b.1 := by
  simp [sameRange, and_assoc]

/-- No two tokens without a comma for one range are left. -/
def Apart (l : List RangeToken) : Prop := l.Pairwise fun a b => sameRange a b = false

theorem nextPair_some : ∀ {l : List RangeToken} {i j : Nat}, nextPair l = some (i, j) →
    i < j ∧ ∃ a b, l[i]? = some a ∧ l[j]? = some b ∧ sameRange a b = true
  | [], _, _, h => by simp [nextPair] at h
  | first :: rest, i, j, h => by
    unfold nextPair at h
    split at h
    · rename_i k found
      cases h
      obtain ⟨bound, same, _⟩ := findIdx?_eq_some_iff_getElem.mp found
      exact ⟨by omega, first, rest[k], rfl, by simp [bound], same⟩
    · obtain ⟨⟨i', j'⟩, found, same⟩ := Option.map_eq_some_iff.mp h
      cases same
      obtain ⟨below, a, b, ha, hb, matched⟩ := nextPair_some found
      exact ⟨by omega, a, b, by simpa using ha, by simpa using hb, matched⟩

theorem nextPair_none : ∀ {l : List RangeToken}, nextPair l = none → Apart l
  | [], _ => .nil
  | first :: rest, h => by
    unfold nextPair at h
    split at h
    · cases h
    · rename_i fresh
      refine pairwise_cons.mpr ⟨fun b hb => ?_, nextPair_none (by simpa using h)⟩
      simpa using findIdx?_eq_none_iff.mp fresh b hb

theorem holds_perm (same : l.Perm m) : Holds l r c ↔ Holds m r c := by
  simp only [Holds, same.mem_iff]

theorem holds_cons : Holds (a :: l) r c ↔ (a.1 = r ∧ c ∈ segmentsOf a.2) ∨ Holds l r c := by
  constructor
  · rintro ⟨token, mem, hc⟩
    rcases mem_cons.mp mem with rfl | mem
    · exact .inl ⟨rfl, hc⟩
    · exact .inr ⟨token, mem, hc⟩
  · rintro (⟨rfl, hc⟩ | ⟨token, mem, hc⟩)
    · exact ⟨a.2, .head _, hc⟩
    · exact ⟨token, .tail _ mem, hc⟩

theorem refined_merge {merged : Text}
    (same : sameRange a b = true) (done : mergeTokensSameRange a.2 b.2 = .ok merged) :
    Refined (a :: b :: l) ((a.1, merged) :: l) := by
  obtain ⟨singleA, singleB, range⟩ := sameRange_iff.mp same
  obtain ⟨seg1, read1, done⟩ := bind_ok done
  obtain ⟨seg2, read2, done⟩ := bind_ok done
  cases done
  obtain ⟨recent1, recent2, id⟩ := mergeSegmentsSameRange_spec seg1 seg2
  have segs1 := segmentsOf_single singleA read1
  have segs2 := segmentsOf_single singleB read2
  have segs := segmentsOf_display (cleanId_merge singleA read1 singleB read2)
  constructor
  · intro r c h
    rcases holds_cons.mp h with ⟨here, hc⟩ | h
    · rw [segs1, mem_singleton] at hc
      subst hc
      exact ⟨_, holds_cons.mpr (.inl ⟨here, by rw [segs]; exact .head _⟩), recent1⟩
    rcases holds_cons.mp h with ⟨here, hc⟩ | h
    · rw [segs2, mem_singleton] at hc
      subst hc
      exact ⟨_, holds_cons.mpr (.inl ⟨range.trans here, by
        rw [segs]; exact .head _⟩), recent2⟩
    · exact ⟨c, holds_cons.mpr (.inr h), c.isAsRecentAs_refl⟩
  · intro r c' h
    rcases holds_cons.mp h with ⟨here, hc⟩ | h
    · rw [segs, mem_singleton] at hc
      subst hc
      rcases id with id | id
      · exact ⟨seg1, holds_cons.mpr (.inl ⟨here, by rw [segs1]; exact .head _⟩),
          id.symm, recent1⟩
      · exact ⟨seg2, holds_cons.mpr (.inr (holds_cons.mpr (.inl ⟨range.symm.trans here, by
          rw [segs2]; exact .head _⟩))), id.symm, recent2⟩
    · exact ⟨c', holds_cons.mpr (.inr (holds_cons.mpr (.inr h))), rfl, c'.isAsRecentAs_refl⟩

theorem Refined.perm {out' : List RangeToken} (h : Refined l out) (left : l'.Perm l)
    (right : out.Perm out') : Refined l' out' where
  kept := fun held => by
    obtain ⟨c', held', recent⟩ := h.kept ((holds_perm left).mp held)
    exact ⟨c', (holds_perm right).mp held', recent⟩
  origin := fun held => by
    obtain ⟨c, held', same, recent⟩ := h.origin ((holds_perm right).mpr held)
    exact ⟨c, (holds_perm left).mpr held', same, recent⟩

/-- What every merge of two tokens passes back holds of the given ranges. -/
theorem mergeSameRangesLoop_induct {P : List RangeToken → Prop} (done : Apart out → P out)
    (merge : ∀ {l rest a b merged}, l.Perm (a :: b :: rest) → sameRange a b = true →
      mergeTokensSameRange a.2 b.2 = .ok merged → P (rest ++ [(a.1, merged)]) → P l) :
    ∀ {fuel l}, mergeSameRangesLoop fuel l = .ok out → l.length ≤ fuel → P l
  | 0, l, h, enough => by
    cases h
    rw [length_eq_zero_iff.mp (Nat.le_zero.mp enough)] at done ⊢
    exact done .nil
  | fuel + 1, l, h, enough => by
    unfold mergeSameRangesLoop at h
    split at h
    · rename_i fresh
      cases h
      exact done (nextPair_none fresh)
    · rename_i i j found
      obtain ⟨below, a, b, ha, hb, same⟩ := nextPair_some found
      simp only [ha, hb] at h
      obtain ⟨merged, read, h⟩ := bind_ok h
      have split := Erase.perm_erase_pair below ha hb
      refine merge split same read (mergeSameRangesLoop_induct done merge h ?_)
      have := split.length_eq
      simp only [length_cons, length_append, length_nil] at this ⊢
      omega

theorem mergeSameRanges_ok (h : mergeSameRanges l = .ok out) : Refined l out ∧ Apart out :=
  mergeSameRangesLoop_induct (P := fun l => Refined l out ∧ Apart out) (fun apart => ⟨.refl out, apart⟩)
    (fun split same read later => ⟨((refined_merge same read).perm split
      (perm_append_singleton _ _).symm).trans later.1, later.2⟩) h (Nat.le_refl _)

/-! ## Ranges that make up a range -/

theorem mergeRanges_has {a b m : FeedRange} (touch : canMerge a b = true)
    (done : mergeRanges a b = .ok m) (h : m.span.Has e) : a.span.Has e ∨ b.span.Has e := by
  simp only [mergeRanges] at done
  split at done
  · rename_i merged made
    obtain ⟨lo, hi⟩ := FeedRange.new_inv made
    simp only [canMerge] at touch
    split at touch
    · cases touch
    · simp only [FeedRange.overlaps, Bool.or_eq_true, Bool.and_eq_true, decide_eq_true_eq] at touch
      simp only [FeedRange.has_iff] at h ⊢
      grind
  · cases done

theorem takeIn_ok {merged m : FeedRange} {ms : List Subset} {subset : Subset}
    (h : takeIn merged members subset = .ok (m, ms)) : (ms = members ++ [subset] ∧
      ∀ e, m.span.Has e → merged.span.Has e ∨ subset.range.span.Has e) ∨
    (m = merged ∧ ms = members) := by
  unfold takeIn at h
  split at h
  · rename_i touch
    obtain ⟨united, done, h⟩ := bind_ok h
    cases h
    exact .inl ⟨rfl, fun e he => mergeRanges_has touch done he⟩
  · cases h
    exact .inr ⟨rfl, rfl⟩

/-- A chain that reaches the parent's range covers it. -/
theorem combineSubsets_some : ∀ {others : List Subset}
    {merged m : FeedRange} {members ms : List Subset},
    combineSubsets parentRange merged members others = .ok (some (m, ms)) →
    m = parentRange ∧ ∃ added, ms = members ++ added ∧ added.Sublist others ∧
      (∀ e, m.span.Has e → merged.span.Has e ∨ ∃ s ∈ added, s.range.span.Has e) ∧
      (added = [] → m = merged)
  | [], _, _, _, _, h => by simp [combineSubsets] at h
  | subset :: others, merged, m, members, ms, h => by
    obtain ⟨⟨next, taken⟩, step, h⟩ := bind_ok h
    by_cases reached : parentRange = next
    · rw [if_pos reached] at h
      cases h
      refine ⟨reached.symm, ?_⟩
      rcases takeIn_ok step with ⟨rfl, cover⟩ | ⟨rfl, rfl⟩
      · refine ⟨[subset], rfl, singleton_sublist.mpr (.head _), fun e he => ?_, by simp⟩
        simpa using cover e he
      · exact ⟨[], by simp, nil_sublist _, fun e he => .inl he, fun _ => rfl⟩
    · rw [if_neg reached] at h
      obtain ⟨same, added, whole, sub, cover, alone⟩ := combineSubsets_some h
      refine ⟨same, ?_⟩
      rcases takeIn_ok step with ⟨rfl, first⟩ | ⟨rfl, rfl⟩
      · refine ⟨subset :: added, by simp [whole], sub.cons_cons subset, fun e he => ?_, by simp⟩
        rcases cover e he with he | ⟨s, hs, he⟩
        · rcases first e he with he | he
          · exact .inl he
          · exact .inr ⟨subset, .head _, he⟩
        · exact .inr ⟨s, .tail _ hs, he⟩
      · exact ⟨added, whole, sub.cons subset, cover, alone⟩

/-- `analyze_subsets` acts on a chain of subsets that reaches the parent's range. -/
theorem tryStarts_ok : ∀ {l before : List Subset} {action : MergeAction},
    tryStarts parentRange parentSeg parentToken before l = .ok action →
    action = .none ∨ ∃ start added, (start :: added).Subperm (before ++ l) ∧
      (∀ e, parentRange.span.Has e → ∃ s ∈ start :: added, s.range.span.Has e) ∧
      (added = [] → start.range = parentRange) ∧
      actionFor parentSeg parentToken parentRange (start :: added) = .ok action
  | [], _, _, h => by
    cases h
    exact .inl rfl
  | start :: others, before, action, h => by
    obtain ⟨found, chain, h⟩ := bind_ok h
    cases found with
    | none =>
      have := tryStarts_ok h
      simpa using this
    | some result =>
      obtain ⟨m, ms⟩ := result
      obtain ⟨rfl, added, rfl, sub, cover, alone⟩ := combineSubsets_some chain
      refine .inr ⟨start, added, ?_, fun e he => ?_, fun none => (alone none).symm, h⟩
      · exact ((subperm_cons start).mpr sub.subperm).trans perm_middle.symm.subperm
      · rcases cover e he with he | ⟨s, hs, he⟩
        · exact ⟨start, .head _, he⟩
        · exact ⟨s, .tail _ hs, he⟩

theorem actionFor_ok {action : MergeAction}
    (h : actionFor parentSeg parentToken range members = .ok action) :
    (∀ m ∈ members, ∃ c, parse m.token = .ok c) ∧
    ((action = .replaceParent (members.map (·.index)) (range, joinTokens (members.map (·.token))) ∧
        ∀ m ∈ members, ∀ c, parse m.token = .ok c →
          strictlyNewer parentSeg c = false) ∨
      (action = .keepParent (members.map (·.index)) ∧
        ∀ m ∈ members, ∀ c, parse m.token = .ok c →
          strictlyNewer parentSeg c = true) ∨
      action = .addCompound (members.map (·.index))
        (range, joinTokens (members.map (·.token) ++ [parentToken]))) := by
  obtain ⟨segments, read, h⟩ := bind_ok h
  obtain ⟨forth, _⟩ := mapM_ok read
  have all : ∀ {p : SessionTokenSegment → Bool}, segments.all p = true → ∀ m ∈ members, ∀ c,
      parse m.token = .ok c → p c = true := by
    intro p every m hm c hc
    obtain ⟨d, hd, hread⟩ := forth m hm
    cases hc.symm.trans hread
    exact all_eq_true.mp every c hd
  refine ⟨fun m hm => ?_, ?_⟩
  · obtain ⟨c, _, hc⟩ := forth m hm
    exact ⟨c, hc⟩
  split at h
  · rename_i newer
    cases h
    exact .inl ⟨rfl, fun m hm c hc => by simpa using all newer m hm c hc⟩
  · split at h
    · rename_i ahead
      cases h
      exact .inr (.inl ⟨rfl, all ahead⟩)
    · cases h
      exact .inr (.inr rfl)

/-! ## One round of the worklist -/

/-- A range without a comma in its token that lies inside the current one. -/
def Inside (current x : RangeToken) : Prop :=
  isCompound x.2 = false ∧ x.1.isSubsetOf current.1 = true

def Subset.pair (s : Subset) : RangeToken := (s.range, s.token)

theorem mem_subsetsOf {s : Subset} (h : s ∈ subsetsOf range rest) :
    rest[s.index]? = some s.pair ∧ isCompound s.token = false ∧ s.range.isSubsetOf range = true := by
  obtain ⟨⟨x, i⟩, hx, rfl⟩ := mem_map.mp h
  obtain ⟨mem, test⟩ := mem_filter.mp hx
  simp only [Bool.and_eq_true, Bool.not_eq_eq_eq_not, Bool.not_true] at test
  exact ⟨mem_zipIdx_iff_getElem?.mp mem, test.1, test.2⟩

theorem nodup_subsetsOf (range : FeedRange) (rest : List RangeToken) :
    ((subsetsOf range rest).map (·.index)).Nodup := by
  unfold subsetsOf
  rw [map_map]
  have whole : (rest.zipIdx.map Prod.snd).Nodup := by
    rw [zipIdx_map_snd]
    exact nodup_range'
  exact whole.sublist (filter_sublist.map Prod.snd)

theorem nodup_indices (sub : members.Subperm (subsetsOf range rest)) :
    (members.map (·.index)).Nodup := by
  obtain ⟨chain, same, inner⟩ := sub
  exact (same.map _).nodup_iff.mp ((nodup_subsetsOf range rest).sublist (inner.map _))

theorem perm_removeIndices (sub : members.Subperm (subsetsOf range rest)) :
    rest.Perm (members.map Subset.pair ++ removeIndices rest (members.map (·.index))) :=
  Erase.perm_eraseAll (nodup_indices sub) fun _ hm => (mem_subsetsOf (sub.subset hm)).1

/-- What one round can do with the current range, what is behind it and what is processed. -/
inductive Round (current : RangeToken) (rest processed : List RangeToken) :
    List RangeToken → List RangeToken → Prop
  | compound (multi : isCompound current.2 = true) :
    Round current rest processed rest (processed ++ [current])
  | ahead {seg : SessionTokenSegment} {gone left : List RangeToken}
    (single : isCompound current.2 = false)
    (read : parse current.2 = .ok seg) (split : rest.Perm (gone ++ left))
    (dropped : ∀ x ∈ gone, Inside current x ∧
      ∃ c, parse x.2 = .ok c ∧ strictlyNewer seg c = true) :
    Round current rest processed left (processed ++ [current])
  | replaced {seg : SessionTokenSegment} {gone left : List RangeToken}
    (single : isCompound current.2 = false)
    (read : parse current.2 = .ok seg) (split : rest.Perm (gone ++ left))
    (two : 2 ≤ gone.length)
    (children : ∀ x ∈ gone, Inside current x ∧
      ∃ c, parse x.2 = .ok c ∧ strictlyNewer seg c = false)
    (cover : ∀ e, current.1.Key e → ∃ x ∈ gone, x.1.Key e) :
    Round current rest processed
      (left ++ [(current.1, joinTokens (gone.map Prod.snd))]) processed
  | mixed {seg : SessionTokenSegment} {gone left : List RangeToken}
    (single : isCompound current.2 = false)
    (read : parse current.2 = .ok seg) (split : rest.Perm (gone ++ left))
    (some_ : gone ≠ [])
    (children : ∀ x ∈ gone, Inside current x ∧ ∃ c, parse x.2 = .ok c) :
    Round current rest processed
      (left ++ [(current.1, joinTokens (gone.map Prod.snd ++ [current.2]))])
      (processed ++ [current])

/-- Ranges inside a range that cover its interval cover all its keys. -/
theorem key_cover {chain : List Subset} (some_ : chain ≠ [])
    (inside : ∀ s ∈ chain, s.range.isSubsetOf range = true)
    (cover : ∀ e, range.span.Has e → ∃ s ∈ chain, s.range.span.Has e) (key : range.Key e) :
    ∃ s ∈ chain, s.range.Key e := by
  by_cases proper : e < range.maxExclusive
  · obtain ⟨s, hs, has⟩ := cover e ⟨key.1, proper⟩
    exact ⟨s, hs, has.1, .inl has.2⟩
  · -- a range of one key: every subset is that key
    obtain ⟨s, hs⟩ := exists_mem_of_ne_nil chain some_
    have within := inside s hs
    have ordered := s.range.ordered
    simp only [FeedRange.isSubsetOf, Bool.and_eq_true, decide_eq_true_eq] at within
    simp only [FeedRange.Key] at key ⊢
    grind

/-- A chain of at least one range that is not the parent itself has two. -/
theorem two_of_apart {start : Subset} {added : List Subset} (single : isCompound current.2 = false)
    (apart : Apart (current :: rest)) (sub : (start :: added).Subperm (subsetsOf current.1 rest))
    (alone : added = [] → start.range = current.1) : 2 ≤ (start :: added).length := by
  cases added with
  | cons => simp
  | nil =>
    obtain ⟨at_, startSingle, _⟩ := mem_subsetsOf (sub.subset (.head _))
    have other := (pairwise_cons.mp apart).1 start.pair (mem_of_getElem? at_)
    rw [sameRange_iff.mpr ⟨single, startSingle, (alone rfl).symm⟩] at other
    cases other

theorem round_of_roundOf {worklist processed' : List RangeToken} (apart : Apart (current :: rest))
    (h : roundOf current rest processed = .ok (worklist, processed')) :
    Round current rest processed worklist processed' := by
  unfold roundOf at h
  by_cases multi : isCompound current.2 = true
  · rw [if_pos multi] at h
    cases h
    exact .compound multi
  have single : isCompound current.2 = false := by simpa using multi
  rw [if_neg multi] at h
  obtain ⟨seg, read, h⟩ := bind_ok h
  have pass : Round current rest processed rest (processed ++ [current]) :=
    .ahead single read (.refl ([] ++ rest)) (by simp)
  split at h
  · cases h
    exact pass
  · rename_i child only
    obtain ⟨childSeg, readChild, h⟩ := bind_ok h
    split at h <;> cases h
    · rename_i newer _
      obtain ⟨at_, childSingle, inside⟩ : _ ∧ _ ∧ _ :=
        mem_subsetsOf (by rw [only]; exact mem_singleton_self child)
      have split : rest.Perm ([child.pair] ++ rest.eraseIdx child.index) := by
        obtain ⟨bound, here⟩ := List.getElem?_eq_some_iff.mp at_
        rw [← here]
        exact (getElem_cons_eraseIdx_perm bound).symm
      refine .ahead single read split fun x hx => ?_
      rw [mem_singleton.mp hx]
      exact ⟨⟨childSingle, inside⟩, childSeg, readChild, newer⟩
    · exact pass
  · obtain ⟨action, analysed, h⟩ := bind_ok h
    rcases tryStarts_ok analysed with rfl | ⟨start, added, sub, cover, alone, done⟩
    · cases h
      exact pass
    have chain := sub.trans (perm_insertionSort _ _).subperm
    have split := perm_removeIndices chain
    have inside : ∀ x ∈ (start :: added).map Subset.pair, Inside current x :=
      forall_mem_map.mpr fun m hm => (mem_subsetsOf (chain.subset hm)).2
    have tokens : (start :: added).map (·.token) = ((start :: added).map Subset.pair).map Prod.snd := by
      rw [map_map]
      rfl
    obtain ⟨readAll, ⟨rfl, newer⟩ | ⟨rfl, older⟩ | rfl⟩ := actionFor_ok done <;> cases h
    · rw [tokens]
      refine .replaced single read split ?_ ?_ ?_
      · simpa using two_of_apart single apart chain alone
      · intro x hx
        obtain ⟨m, hm, rfl⟩ := mem_map.mp hx
        obtain ⟨c, hc⟩ := readAll m hm
        exact ⟨inside _ hx, c, hc, newer m hm c hc⟩
      · intro e key
        obtain ⟨m, hm, he⟩ := key_cover (cons_ne_nil start added)
          (fun s hs => (mem_subsetsOf (chain.subset hs)).2.2) cover key
        exact ⟨m.pair, mem_map_of_mem hm, he⟩
    · refine .ahead single read split fun x hx => ?_
      obtain ⟨m, hm, rfl⟩ := mem_map.mp hx
      obtain ⟨c, hc⟩ := readAll m hm
      exact ⟨inside _ hx, c, hc, older m hm c hc⟩
    · rw [tokens]
      refine .mixed single read split (by simp) fun x hx => ?_
      obtain ⟨m, hm, rfl⟩ := mem_map.mp hx
      exact ⟨inside _ hx, readAll m hm⟩

/-! ## What the rounds settle -/

theorem headerParts_join (some_ : tokens ≠ []) (single : ∀ t ∈ tokens, isCompound t = false) :
    headerParts (joinTokens tokens) = tokens.flatMap headerParts := by
  have split : (joinTokens tokens).splitOn ',' = tokens :=
    splitOn_intercalate ',' (fun t ht => comma_of_not_compound (single t ht)) some_
  have each : tokens.flatMap headerParts =
      tokens.flatMap fun t => [Text.trim t].filter fun part => !part.isEmpty :=
    flatMap_congr fun t ht => headerParts_single (single t ht)
  rw [each]
  unfold headerParts
  rw [split, map_eq_flatMap, filter_flatMap]

theorem segmentsOf_join (some_ : tokens ≠ []) (single : ∀ t ∈ tokens, isCompound t = false) :
    segmentsOf (joinTokens tokens) = tokens.flatMap segmentsOf := by
  unfold segmentsOf
  rw [headerParts_join some_ single, filterMap_flatMap]

theorem compound_join (two : 2 ≤ tokens.length) : isCompound (joinTokens tokens) = true := by
  obtain ⟨a, b, rest, rfl⟩ : ∃ a b rest, tokens = a :: b :: rest := by
    match tokens, two with
    | a :: b :: rest, _ => exact ⟨a, b, rest, rfl⟩
  unfold joinTokens isCompound
  simp

/-- The segment is written by one of the tokens. -/
def Written (out : List RangeToken) (c : SessionTokenSegment) : Prop :=
  ∃ x ∈ out, c ∈ segmentsOf x.2

def Single (l : List RangeToken) (r : FeedRange) (c : SessionTokenSegment) : Prop :=
  ∃ token, (r, token) ∈ l ∧ isCompound token = false ∧ parse token = .ok c

theorem Single.mono (h : Single l r c) (sub : l ⊆ l') : Single l' r c := by
  obtain ⟨token, mem, facts⟩ := h
  exact ⟨token, sub mem, facts⟩

/-- What becomes of a segment `c` of the range `r` among the ranges `l`. -/
inductive Settled (l out : List RangeToken) (r : FeedRange) (c : SessionTokenSegment) : Prop
  | kept (written : Written out c)
  | under {parent : FeedRange} {p : SessionTokenSegment} (given : Single l parent p)
    (written : Written out p) (inside : r.isSubsetOf parent = true)
    (newer : strictlyNewer p c = true)
  | parts (cover : ∀ e, r.Key e → ∃ part p, Single l part p ∧ Written out p ∧
    part.isSubsetOf r = true ∧ strictlyNewer c p = false ∧ part.Key e)

theorem Settled.mono
    (more : ∀ {r c}, Single l r c → Single l' r c) (h : Settled l out r c) : Settled l' out r c := by
  cases h with
  | kept written => exact .kept written
  | under given written inside newer => exact .under (more given) written inside newer
  | parts cover =>
    refine .parts fun e key => ?_
    obtain ⟨part, p, given, rest⟩ := cover e key
    exact ⟨part, p, more given, rest⟩

theorem sameRange_comm (a b : RangeToken) : sameRange a b = sameRange b a := by
  rw [Bool.eq_iff_iff, sameRange_iff, sameRange_iff, and_left_comm, @eq_comm _ a.1]

theorem apart_perm (same : l.Perm m) : Apart l ↔ Apart m :=
  same.pairwise_iff fun {a b} h => (sameRange_comm b a).trans h

theorem apart_compound (multi : isCompound x.2 = true) (apart : Apart l) : Apart (l ++ [x]) := by
  refine pairwise_append.mpr ⟨apart, pairwise_singleton _ _, fun a _ b hb => ?_⟩
  rw [mem_singleton.mp hb]
  simp [sameRange, multi]

/-- What a round leaves in the worklist: ranges from behind the current one, apart as
before, and at most one more, with a comma. -/
theorem Round.worklist {current : RangeToken} {rest processed worklist processed' : List RangeToken}
    (round : Round current rest processed worklist processed') (apart : Apart (current :: rest)) :
    Apart worklist ∧ worklist.length ≤ rest.length ∧
      ∀ {r c}, Single worklist r c → Single rest r c := by
  have apartRest := (pairwise_cons.mp apart).2
  have left : ∀ {gone left : List RangeToken}, rest.Perm (gone ++ left) → Apart left :=
    fun split => (pairwise_append.mp ((apart_perm split).mp apartRest)).2.1
  have joined : ∀ {gone left : List RangeToken} {range : FeedRange} {tokens : List Text},
      rest.Perm (gone ++ left) → gone ≠ [] → 2 ≤ tokens.length →
      Apart (left ++ [(range, joinTokens tokens)]) ∧
        (left ++ [(range, joinTokens tokens)]).length ≤ rest.length ∧
        ∀ {r c}, Single (left ++ [(range, joinTokens tokens)]) r c → Single rest r c := by
    intro gone left' range tokens split some_ two
    have multi := compound_join two
    refine ⟨apart_compound multi (left split), ?_, ?_⟩
    · have := split.length_eq
      have := length_pos_iff.mpr some_
      simp only [length_append, length_singleton] at *
      omega
    · rintro r c ⟨token, mem, single, read⟩
      rcases mem_append.mp mem with mem | mem
      · exact ⟨token, split.mem_iff.mpr (mem_append_right gone mem), single, read⟩
      · cases mem_singleton.mp mem
        rw [multi] at single
        cases single
  cases round with
  | compound => exact ⟨apartRest, le_refl _, fun h => h⟩
  | ahead single read split dropped =>
    refine ⟨left split, ?_, ?_⟩
    · have := split.length_eq
      simp only [length_append] at this
      omega
    · exact fun given => given.mono fun x mem => split.mem_iff.mpr (mem_append_right _ mem)
  | replaced single read split two children cover =>
    exact joined split (ne_nil_of_length_pos (by omega)) (by simpa using two)
  | mixed single read split some_ children =>
    refine joined split some_ ?_
    have := length_pos_iff.mpr some_
    simp only [length_append, length_map, length_singleton]
    omega

theorem written_self (mem : x ∈ out) (single : isCompound x.2 = false)
    (read : parse x.2 = .ok c) : Written out c :=
  ⟨x, mem, mem_segmentsOf single read⟩

theorem written_join {token : Text} (mem : (range, joinTokens tokens) ∈ out)
    (single : ∀ t ∈ tokens, isCompound t = false) (among : token ∈ tokens)
    (read : parse token = .ok c) : Written out c := by
  refine ⟨_, mem, ?_⟩
  rw [segmentsOf_join (ne_nil_of_mem among) single]
  exact mem_flatMap.mpr ⟨token, among, mem_segmentsOf (single token among) read⟩

/-- A compound token is in the output, and a token with one segment is settled. -/
structure Accounted (l out : List RangeToken) (x : RangeToken) : Prop where
  compound : isCompound x.2 = true → x ∈ out
  single : isCompound x.2 = false →
    ∃ c, parse x.2 = .ok c ∧ Settled l out x.1 c

theorem accounted_of_single (single : isCompound x.2 = false) (read : parse x.2 = .ok c)
    (settled : Settled l out x.1 c) : Accounted l out x where
  compound := fun multi => by
    rw [single] at multi
    cases multi
  single := fun _ => ⟨c, read, settled⟩

/-- One round passes the account of the remaining ranges on to all of them. -/
theorem Round.accounted {worklist processed' : List RangeToken}
    (round : Round current rest processed worklist processed') (done : ∀ x ∈ processed', x ∈ out)
    (later : ∀ x ∈ worklist, Accounted (current :: rest) out x) :
    (∀ x ∈ processed, x ∈ out) ∧ ∀ x ∈ current :: rest, Accounted (current :: rest) out x := by
  cases round with
  | compound multi =>
    refine ⟨fun x hx => done x (by simp [hx]), fun x hx => ?_⟩
    rcases mem_cons.mp hx with rfl | hx
    · refine ⟨fun _ => done x (by simp), fun single => ?_⟩
      rw [multi] at single
      cases single
    · exact later x hx
  | @ahead seg gone left single read split dropped =>
    have currentOut := done current (by simp)
    have written := written_self currentOut single read
    refine ⟨fun x hx => done x (by simp [hx]), fun x hx => ?_⟩
    rcases mem_cons.mp hx with rfl | hx
    · exact accounted_of_single single read (.kept written)
    rcases mem_append.mp (split.mem_iff.mp hx) with hx | hx
    · obtain ⟨⟨singleX, inside⟩, c, readX, newer⟩ := dropped x hx
      exact accounted_of_single singleX readX
        (.under ⟨current.2, .head _, single, read⟩ written inside newer)
    · exact later x hx
  | @replaced seg gone left single read split two children cover =>
    have tokens : ∀ t ∈ gone.map Prod.snd, isCompound t = false :=
      forall_mem_map.mpr fun x hx => (children x hx).1.1
    have joined : (current.1, joinTokens (gone.map Prod.snd)) ∈ out :=
      (later _ (by simp)).compound (compound_join (by simpa using two))
    refine ⟨done, fun x hx => ?_⟩
    rcases mem_cons.mp hx with rfl | hx
    · refine accounted_of_single single read (.parts fun e key => ?_)
      obtain ⟨y, hy, has⟩ := cover e key
      obtain ⟨⟨singleY, inside⟩, c, readY, newer⟩ := children y hy
      have mem : y ∈ rest := split.mem_iff.mpr (mem_append_left left hy)
      exact ⟨y.1, c, ⟨y.2, .tail _ mem, singleY, readY⟩,
        written_join joined tokens (mem_map_of_mem hy) readY, inside, newer, has⟩
    rcases mem_append.mp (split.mem_iff.mp hx) with hx | hx
    · obtain ⟨⟨singleX, _⟩, c, readX, _⟩ := children x hx
      exact accounted_of_single singleX readX
        (.kept (written_join joined tokens (mem_map_of_mem hx) readX))
    · exact later x (by simp [hx])
  | @mixed seg gone left single read split some_ children =>
    have tokens : ∀ t ∈ gone.map Prod.snd ++ [current.2], isCompound t = false :=
      forall_mem_append.mpr ⟨forall_mem_map.mpr fun x hx => (children x hx).1.1,
        forall_mem_singleton.mpr single⟩
    have joined : (current.1, joinTokens (gone.map Prod.snd ++ [current.2])) ∈ out := by
      refine (later _ (by simp)).compound (compound_join ?_)
      have := length_pos_iff.mpr some_
      simp only [length_append, length_map, length_singleton]
      omega
    refine ⟨fun x hx => done x (by simp [hx]), fun x hx => ?_⟩
    rcases mem_cons.mp hx with rfl | hx
    · exact accounted_of_single single read (.kept (written_self (done x (by simp)) single read))
    rcases mem_append.mp (split.mem_iff.mp hx) with hx | hx
    · obtain ⟨⟨singleX, _⟩, c, readX⟩ := children x hx
      exact accounted_of_single singleX readX (.kept (written_join joined tokens
        (mem_append_left _ (mem_map_of_mem hx)) readX))
    · exact later x (by simp [hx])

/-- What every round passes back holds of the worklist and what is processed. -/
theorem mergeSubsetsLoop_induct {P : List RangeToken → List RangeToken → Prop} (done : P [] out)
    (step : ∀ {current rest processed worklist processed'}, Apart (current :: rest) →
      Round current rest processed worklist processed' → P worklist processed' →
      P (current :: rest) processed) :
    ∀ {fuel l processed}, mergeSubsetsLoop fuel l processed = .ok out → l.length ≤ fuel → Apart l →
      P l processed
  | 0, l, processed, h, enough, _ => by
    cases length_eq_zero_iff.mp (Nat.le_zero.mp enough)
    cases h
    exact done
  | fuel + 1, [], processed, h, _, _ => by
    cases h
    exact done
  | fuel + 1, current :: rest, processed, h, enough, apart => by
    rw [mergeSubsetsLoop] at h
    obtain ⟨⟨worklist, processed'⟩, first, later⟩ := bind_ok h
    have round := round_of_roundOf apart first
    obtain ⟨apart', shorter, _⟩ := round.worklist apart
    refine step apart round (mergeSubsetsLoop_induct done step later ?_ apart')
    simp only [length_cons] at enough
    omega

theorem mergeSubsetsLoop_accounted {fuel : Nat} (h : mergeSubsetsLoop fuel l processed = .ok out)
    (enough : l.length ≤ fuel) (apart : Apart l) :
    (∀ x ∈ processed, x ∈ out) ∧ ∀ x ∈ l, Accounted l out x := by
  refine mergeSubsetsLoop_induct (P := fun l processed => (∀ x ∈ processed, x ∈ out) ∧
    ∀ x ∈ l, Accounted l out x) (by simp) (fun apart round later => ?_) h enough apart
  refine round.accounted later.1 fun x hx => ⟨(later.2 x hx).compound, fun single => ?_⟩
  obtain ⟨c, read, settled⟩ := (later.2 x hx).single single
  exact ⟨c, read, settled.mono fun given =>
    ((round.worklist apart).2.2 given).mono (subset_cons_self _ _)⟩

/-- The ranges in the order of the worklist. -/
abbrev worklistOf (l : List RangeToken) : List RangeToken :=
  l.insertionSort fun a b => largerFirst a b = true

theorem worklistOf_perm (l : List RangeToken) : (worklistOf l).Perm l := perm_insertionSort _ l

theorem mergeRangesWithSubsets_accounted (apart : Apart l)
    (h : mergeRangesWithSubsets l = .ok out) : ∀ x ∈ l, Accounted l out x := by
  have same := worklistOf_perm l
  intro x hx
  obtain ⟨_, account⟩ := mergeSubsetsLoop_accounted h (by rw [same.length_eq])
    ((apart_perm same).mpr apart)
  have here := account x (same.mem_iff.mpr hx)
  refine ⟨here.compound, fun single => ?_⟩
  obtain ⟨c, read, settled⟩ := here.single single
  exact ⟨c, read, settled.mono fun given => given.mono same.subset⟩

/-! ## Merging by partition key range id -/

/-- A segment of the same id that is as recent is there. -/
def Followed (segments : List SessionTokenSegment) (c : SessionTokenSegment) : Prop :=
  ∃ r ∈ segments, r.pkRangeId = c.pkRangeId ∧ r.isAsRecentAs c = true

theorem followed_self {segments : List SessionTokenSegment} (mem : c ∈ segments) :
    Followed segments c := ⟨c, mem, rfl, c.isAsRecentAs_refl⟩

theorem Followed.trans {segments later : List SessionTokenSegment} (h : Followed segments c)
    (next : ∀ {r}, r ∈ segments → Followed later r) : Followed later c := by
  obtain ⟨r, hr, same, recent⟩ := h
  obtain ⟨t, ht, same', recent'⟩ := next hr
  exact ⟨t, ht, same'.trans same, isAsRecentAs_trans recent' recent⟩

theorem insertSegment_recent {s c : SessionTokenSegment} : ∀ {known : List SessionTokenSegment},
    c = s ∨ c ∈ known → Followed (insertSegment known s) c
  | [], h => followed_self (by simpa [insertSegment] using h)
  | existing :: rest, h => by
    unfold insertSegment
    split
    · rename_i same
      rcases h with rfl | h
      · exact ⟨_, .head _, same, SessionTokenValue.isAsRecentAs_merge_right⟩
      rcases mem_cons.mp h with rfl | h
      · exact ⟨_, .head _, rfl, SessionTokenValue.isAsRecentAs_merge_left⟩
      · exact followed_self (.tail _ h)
    · rcases h with rfl | h
      · obtain ⟨r, hr, facts⟩ : Followed (insertSegment rest c) c := insertSegment_recent (.inl rfl)
        exact ⟨r, .tail _ hr, facts⟩
      rcases mem_cons.mp h with rfl | h
      · exact followed_self (.head _)
      · obtain ⟨r, hr, facts⟩ := insertSegment_recent (.inr h)
        exact ⟨r, .tail _ hr, facts⟩

theorem foldl_insertSegment_recent {c : SessionTokenSegment} :
    ∀ {segments known : List SessionTokenSegment},
    c ∈ known ∨ c ∈ segments → Followed (segments.foldl insertSegment known) c
  | [], known, h => followed_self (by simpa using h)
  | s :: segments, known, h => by
    rw [foldl_cons]
    have first : c ∈ segments ∨ c = s ∨ c ∈ known := by
      rcases h with h | h
      · exact .inr (.inr h)
      · exact (mem_cons.mp h).elim (fun h => .inr (.inl h)) .inl
    rcases first with h | h
    · exact foldl_insertSegment_recent (.inr h)
    · exact (insertSegment_recent h).trans fun hr => foldl_insertSegment_recent (.inl hr)

theorem foldl_insertSegment_origin {r : SessionTokenSegment} :
    ∀ {segments known : List SessionTokenSegment}, r ∈ segments.foldl insertSegment known →
    ∃ c ∈ known ++ segments, c.pkRangeId = r.pkRangeId
  | [], _, h => ⟨r, by simpa using h, rfl⟩
  | s :: segments, known, h => by
    obtain ⟨c, hc, same⟩ : ∃ c ∈ insertSegment known s ++ segments, _ := foldl_insertSegment_origin h
    rcases mem_append.mp hc with hc | hc
    · rcases mem_insertSegment hc with own | hc
      · exact ⟨s, by simp, own.symm.trans same⟩
      · exact ⟨c, mem_append_left _ hc, same⟩
    · exact ⟨c, mem_append_right _ (.tail _ hc), same⟩

theorem foldl_insertSegment_clean {segments : List SessionTokenSegment}
    (clean : ∀ s ∈ segments, CleanId s.pkRangeId) :
    ∀ r ∈ segments.foldl insertSegment [], CleanId r.pkRangeId := by
  intro r hr
  obtain ⟨c, hc, same⟩ := foldl_insertSegment_origin hr
  exact same ▸ clean c hc

theorem SessionToken.segmentsOf_merge {merged : Text} (h : merge self other = .ok merged) :
    segmentsOf merged = (segmentsOf self ++ segmentsOf other).foldl insertSegment [] := by
  rw [merge_ok h]
  refine segmentsOf_compose (foldl_insertSegment_clean fun s hs => ?_)
  rcases mem_append.mp hs with hs | hs <;> exact cleanId_of_mem hs

theorem SessionToken.merge_recent {merged : Text} (h : merge self other = .ok merged)
    (mem : c ∈ segmentsOf self ∨ c ∈ segmentsOf other) : Followed (segmentsOf merged) c := by
  rw [segmentsOf_merge h]
  exact foldl_insertSegment_recent (.inr (mem_append.mpr mem))

theorem foldlM_merge_recent {c : SessionTokenSegment} : ∀ {tokens : List Text} {acc out : Text},
    tokens.foldlM merge acc = .ok out →
    c ∈ segmentsOf acc ∨ (∃ t ∈ tokens, c ∈ segmentsOf t) → Followed (segmentsOf out) c
  | [], acc, out, h, mem => by
    cases h
    exact followed_self (by simpa using mem)
  | t :: tokens, acc, out, h, mem => by
    obtain ⟨merged, first, h⟩ := bind_ok h
    have now : (c ∈ segmentsOf acc ∨ c ∈ segmentsOf t) ∨ ∃ t ∈ tokens, c ∈ segmentsOf t := by
      rcases mem with mem | ⟨u, hu, mem⟩
      · exact .inl (.inl mem)
      · rcases mem_cons.mp hu with rfl | hu
        · exact .inl (.inr mem)
        · exact .inr ⟨u, hu, mem⟩
    rcases now with mem | later
    · exact (merge_recent first mem).trans fun hr => foldlM_merge_recent h (.inl hr)
    · exact foldlM_merge_recent h (.inr later)

theorem headerParts_trimmed {header part : Text} (h : part ∈ headerParts header) :
    Text.trim part = part ∧ isCompound part = false ∧ part ≠ [] := by
  obtain ⟨h, filled⟩ := mem_filter.mp h
  obtain ⟨raw, hraw, rfl⟩ := mem_map.mp h
  refine ⟨Text.trim_trim raw, ?_, by simpa using filled⟩
  have fresh : ',' ∉ Text.trim raw := fun comma =>
    Text.not_mem_of_mem_splitOn hraw (Text.mem_of_mem_trim comma)
  simpa [isCompound] using fresh

theorem segmentsOf_part {header part : Text} (h : part ∈ headerParts header) :
    segmentsOf part = (ofTrimmed part).toOption.toList := by
  obtain ⟨same, single, filled⟩ := headerParts_trimmed h
  unfold segmentsOf
  rw [headerParts_single single, same]
  cases read : ofTrimmed part <;> simp [filled, read, Except.toOption]

theorem getLatestSessionToken_some {pairs : List RangeToken} {target : FeedRange}
    (some_ : pairs.filter (fun p => target.overlaps p.1) ≠ []) :
    getLatestSessionToken pairs target =
      (mergeSameRanges (pairs.filter fun p => target.overlaps p.1) >>= fun overlapping =>
        mergeRangesWithSubsets overlapping >>= finish) := by
  unfold getLatestSessionToken
  split
  · contradiction
  · rfl

theorem written_result {latest : Text} (h : finish processed = .ok latest)
    (written : Written processed c) : Followed (segmentsOf latest) c := by
  obtain ⟨x, hx, hc⟩ := written
  obtain ⟨part, hpart, read⟩ := mem_filterMap.mp hc
  have among : part ∈ splitCompoundTokens processed := mem_flatMap.mpr ⟨x, hx, hpart⟩
  have own : c ∈ segmentsOf part := by
    rw [segmentsOf_part hpart, read]
    exact mem_singleton_self c
  unfold finish at h
  split at h
  · rename_i only alone
    cases h
    rw [alone, mem_singleton] at among
    exact followed_self (among ▸ own)
  · cases remaining : splitCompoundTokens processed with
    | nil =>
      rw [remaining] at among
      simp at among
    | cons first rest =>
      rw [remaining] at h among
      refine foldlM_merge_recent h ?_
      rcases mem_cons.mp among with rfl | among
      · exact .inl own
      · exact .inr ⟨part, among, own⟩

/-! ## The whole merge -/

/-- A segment given for a range that overlaps the target. -/
def Given (pairs : List RangeToken) (target r : FeedRange) (s : SessionTokenSegment) : Prop :=
  target.overlaps r = true ∧ Holds pairs r s

theorem strictlyNewer_iff {a b : SessionTokenSegment} :
    strictlyNewer a b = true ↔ a.isAsRecentAs b = true ∧ ¬ b.isAsRecentAs a = true := by
  simp [strictlyNewer]

/-- Being ahead survives a newer token on the left and an older one on the right. -/
theorem strictlyNewer_trans {t s : SessionTokenSegment} (tp : t.isAsRecentAs p = true)
    (pc : strictlyNewer p c = true) (cs : c.isAsRecentAs s = true) : strictlyNewer t s = true := by
  obtain ⟨pc, behind⟩ := strictlyNewer_iff.mp pc
  refine strictlyNewer_iff.mpr ⟨?_, fun st => behind ?_⟩
  · exact isAsRecentAs_trans tp (isAsRecentAs_trans pc cs)
  · exact isAsRecentAs_trans cs (isAsRecentAs_trans st tp)

/-- Of two tokens that can be compared, one that is not strictly newer is not ahead. -/
theorem isAsRecentAs_of_not_newer (comparable : c.isAsRecentAs p = true ∨ p.isAsRecentAs c = true)
    (notNewer : strictlyNewer c p = false) : p.isAsRecentAs c = true := by
  rcases comparable with ahead | behind
  · by_contra behind
    rw [strictlyNewer_iff.mpr ⟨ahead, behind⟩] at notNewer
    cases notNewer
  · exact behind

/-- The token of a range and those of the ranges inside it can be compared, once the tokens given for
one range are merged. -/
def Comparable (pairs : List RangeToken) (target r : FeedRange) : Prop :=
  ∀ merged, mergeSameRanges (pairs.filter fun p => target.overlaps p.1) = .ok merged →
    ∀ c, Single merged r c → ∀ part q, Single merged part q → part.isSubsetOf r = true →
      c.isAsRecentAs q = true ∨ q.isAsRecentAs c = true

/-- How the result stands for a segment `s` that was given for the range `r`. -/
inductive Reflected (pairs : List RangeToken) (target : FeedRange) (latest : Text) (r : FeedRange)
    (s : SessionTokenSegment) : Prop
  /-- The id is in the result, as recent as it was. -/
  | own {t : SessionTokenSegment} (mem : t ∈ segmentsOf latest) (id : t.pkRangeId = s.pkRangeId)
    (recent : t.isAsRecentAs s = true)
  /-- The tokens of the range were merged under the id of another one. -/
  | sameRange {p t : SessionTokenSegment} (given : Given pairs target r p)
    (other : p.pkRangeId ≠ s.pkRangeId) (mem : t ∈ segmentsOf latest)
    (id : t.pkRangeId = p.pkRangeId) (newer : t.isAsRecentAs p = true)
    (recent : t.isAsRecentAs s = true)
  /-- A range around it is in the result and strictly newer. -/
  | parent {around : FeedRange} {p t : SessionTokenSegment} (given : Given pairs target around p)
    (inside : r.isSubsetOf around = true) (mem : t ∈ segmentsOf latest)
    (id : t.pkRangeId = p.pkRangeId) (newer : t.isAsRecentAs p = true)
    (recent : strictlyNewer t s = true)
  /-- Ranges inside it that hold all its keys are in the result, as recent as it. -/
  | children (cover : ∀ e, r.Key e → ∃ part p t, Given pairs target part p ∧
    part.isSubsetOf r = true ∧ part.Key e ∧ t ∈ segmentsOf latest ∧
    t.pkRangeId = p.pkRangeId ∧ t.isAsRecentAs p = true ∧ t.isAsRecentAs s = true)

/-- A parent and the two ranges it was split into, with newer tokens of the same version. -/
def splitInTwo : List RangeToken :=
  [(⟨none, ⟨[0xAA]⟩, ⟨[0xDD]⟩, by decide⟩, "0:1#51#3=52".toList),
    (⟨none, ⟨[0xAA]⟩, ⟨[0xBB]⟩, by decide⟩, "1:1#55#3=52".toList),
    (⟨none, ⟨[0xBB]⟩, ⟨[0xDD]⟩, by decide⟩, "2:1#54#3=52".toList)]

/-- A segment with a vector token of one region. -/
def oneRegion (pkRangeId : Text) (version globalLsn region : U64) (lsn : RegionLsn) :
    SessionTokenSegment :=
  ⟨pkRangeId, .vector ⟨version, globalLsn, (∅ : HashMap U64 RegionLsn).insert region lsn⟩⟩

end AzureSdk.Cosmos.Session
