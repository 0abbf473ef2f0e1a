/-
# Cosmos.Session.Total — when `get_latest_session_token` panics

`merge_tokens_by_partition` indexes into the split tokens, which are none if every
overlapping token consists of commas and blanks.  Nothing else on the way can panic,
and any other token leaves something to index (`latest_token_total_iff`).
-/
import AzureSdk.Cosmos.Session.Loops

namespace AzureSdk.Cosmos.Session

open Theory List SessionTokenSegment

/-! ## Panics -/

theorem noPanic_parse (token : Text) : NoPanic (parse token) := by
  unfold parse ofTrimmed
  split
  · exact noPanic_fail _ _
  · unfold SessionTokenValue.parse
    split
    · exact noPanic_ok _
    · split
      · exact noPanic_ok _
      · exact noPanic_fail _ _

theorem noPanic_mergeSameRangesLoop : ∀ (fuel : Nat) (l : List RangeToken),
    NoPanic (mergeSameRangesLoop fuel l)
  | 0, l => noPanic_ok l
  | fuel + 1, l => by
    rw [mergeSameRangesLoop]
    split
    · exact noPanic_ok l
    · split
      · refine NoPanic.bind ?_ fun _ _ => noPanic_mergeSameRangesLoop fuel _
        exact (noPanic_parse _).bind fun _ _ => (noPanic_parse _).bind fun _ _ => noPanic_ok _
      · exact noPanic_ok l

theorem noPanic_analyzeSubsets (range : FeedRange) (seg : SessionTokenSegment) (token : Text)
    (subsets : List Subset) : NoPanic (analyzeSubsets range seg token subsets) := by
  unfold analyzeSubsets
  rcases tryStarts_eq range seg token (subsets.insertionSort
    fun a b => a.range.minInclusive ≤ b.range.minInclusive) [] with ⟨_, run⟩ | ⟨_, _, _, _, _, run⟩
  · rw [run]
    exact noPanic_ok _
  · rw [run]
    refine NoPanic.bind (NoPanic.mapM fun child _ => noPanic_parse child.token) fun segments _ => ?_
    split
    · exact noPanic_ok _
    · split
      · exact noPanic_ok _
      · exact noPanic_ok _

theorem noPanic_mergeSubsetsLoop : ∀ (fuel : Nat) (l processed : List RangeToken),
    NoPanic (mergeSubsetsLoop fuel l processed)
  | 0, _, processed => noPanic_ok processed
  | fuel + 1, [], processed => noPanic_ok processed
  | fuel + 1, current :: rest, processed => by
    rw [mergeSubsetsLoop]
    refine NoPanic.bind ?_ fun s _ => noPanic_mergeSubsetsLoop fuel s.1 s.2
    unfold roundOf
    split
    · exact noPanic_ok _
    · refine (noPanic_parse current.2).bind fun seg _ => ?_
      split
      · exact noPanic_ok _
      · refine (noPanic_parse _).bind fun child _ => ?_
        split <;> exact noPanic_ok _
      · exact (noPanic_analyzeSubsets _ _ _ _).bind fun action _ => noPanic_ok _

/-- The index into the split tokens is the only one that can be out of range. -/
theorem noPanic_finish_iff (processed : List RangeToken) :
    NoPanic (finish processed) ↔ splitCompoundTokens processed ≠ [] := by
  unfold finish
  cases splitCompoundTokens processed with
  | nil =>
    refine ⟨fun h => ?_, fun h => absurd rfl h⟩
    exact absurd rfl (h "index out of bounds: the len is 0 but the index is 0")
  | cons first rest =>
    refine ⟨fun _ => cons_ne_nil first rest, fun _ => ?_⟩
    cases rest with
    | nil => exact noPanic_ok first
    | cons second rest =>
      refine NoPanic.foldlM (fun self other => ?_) _ _
      exact NoPanic.bind (NoPanic.mapM fun part _ => noPanic_parse part) fun _ _ => noPanic_ok _

/-! ## Tokens of commas and blanks -/

/-- A token with a comma and nothing else to split off. -/
def Blank (token : Text) : Prop := isCompound token = true ∧ headerParts token = []

instance (token : Text) : Decidable (Blank token) := inferInstanceAs (Decidable (_ ∧ _))

theorem mergeSubsetsLoop_compounds : ∀ {fuel : Nat} {l processed : List RangeToken},
    l.length ≤ fuel → (∀ x ∈ l, isCompound x.2 = true) →
    mergeSubsetsLoop fuel l processed = .ok (processed ++ l)
  | fuel, [], processed, _, _ => by cases fuel <;> simp [mergeSubsetsLoop]
  | 0, x :: l, _, enough, _ => by simp at enough
  | fuel + 1, x :: l, processed, enough, multi => by
    have later : mergeSubsetsLoop fuel l (processed ++ [x]) = .ok (processed ++ [x] ++ l) :=
      mergeSubsetsLoop_compounds (by simpa using enough) fun y hy => multi y (.tail _ hy)
    rw [mergeSubsetsLoop, roundOf, if_pos (multi x (.head _)), append_cons processed x l]
    exact later

/-- A token that is not there any more was merged, so it could be read. -/
theorem mergeSameRanges_stays {l out : List RangeToken} (h : mergeSameRanges l = .ok out) :
    ∀ x ∈ l, x ∈ out ∨ isCompound x.2 = false ∧ ∃ c, parse x.2 = .ok c := by
  refine mergeSameRangesLoop_induct (P := fun l => ∀ x ∈ l, x ∈ out ∨ isCompound x.2 = false ∧
    ∃ c, parse x.2 = .ok c) (fun _ x hx => .inl hx) (fun split same done later x hx => ?_) h
    (Nat.le_refl _)
  obtain ⟨seg1, read1, done⟩ := bind_ok done
  obtain ⟨seg2, read2, done⟩ := bind_ok done
  obtain ⟨singleA, singleB, _⟩ := sameRange_iff.mp same
  rcases mem_cons.mp (split.mem_iff.mp hx) with rfl | hx
  · exact .inr ⟨singleA, seg1, read1⟩
  · rcases mem_cons.mp hx with rfl | hx
    · exact .inr ⟨singleB, seg2, read2⟩
    · exact later x (mem_append_left _ hx)

theorem Settled.written {l out : List RangeToken} {r : FeedRange} {c : SessionTokenSegment}
    (h : Settled l out r c) : ∃ p, Written out p := by
  cases h with
  | kept written => exact ⟨c, written⟩
  | under _ written => exact ⟨_, written⟩
  | parts cover =>
    have key : r.Key r.minInclusive := ⟨Std.le_refl _, .inr (Std.le_refl _)⟩
    obtain ⟨_, p, _, written, _⟩ := cover r.minInclusive key
    exact ⟨p, written⟩

/-- A token that can be split, or has no comma, leaves something to merge. -/
theorem split_ne_nil {given overlapping processed : List RangeToken}
    (same : mergeSameRanges given = .ok overlapping)
    (subsets : mergeRangesWithSubsets overlapping = .ok processed)
    {x : RangeToken} (mem : x ∈ given) (filled : ¬ Blank x.2) :
    splitCompoundTokens processed ≠ [] := by
  obtain ⟨refined, apart⟩ := mergeSameRanges_ok same
  have account := mergeRangesWithSubsets_accounted apart subsets
  have split : ∀ y ∈ overlapping, ¬ Blank y.2 → splitCompoundTokens processed ≠ [] := by
    intro y there filled
    cases kind : isCompound y.2 with
    | true =>
      obtain ⟨part, hp⟩ := exists_mem_of_ne_nil _ fun empty => filled ⟨kind, empty⟩
      exact ne_nil_of_mem (mem_flatMap.mpr ⟨y, (account y there).compound kind, hp⟩)
    | false =>
      obtain ⟨c, _, settled⟩ := (account y there).single kind
      obtain ⟨p, z, hz, hp⟩ := settled.written
      obtain ⟨part, hp, _⟩ := mem_filterMap.mp hp
      exact ne_nil_of_mem (mem_flatMap.mpr ⟨z, hz, hp⟩)
  rcases mergeSameRanges_stays same x mem with stays | ⟨single, c, read⟩
  · exact split x stays filled
  · have holds : Holds given x.1 c :=
      ⟨x.2, mem, mem_segmentsOf single read⟩
    obtain ⟨c', ⟨token, there, hc⟩, _⟩ := refined.kept holds
    obtain ⟨part, hp, _⟩ := mem_filterMap.mp hc
    exact split _ there fun blank => ne_nil_of_mem hp blank.2

/-- Blank tokens pass through to the last step, which finds nothing. -/
theorem blank_panics {given : List RangeToken} (blank : ∀ x ∈ given, Blank x.2) :
    ∃ overlapping processed, mergeSameRanges given = .ok overlapping ∧
      mergeRangesWithSubsets overlapping = .ok processed ∧ splitCompoundTokens processed = [] := by
  have done : nextPair given = none := by
    cases found : nextPair given with
    | none => rfl
    | some p =>
      obtain ⟨_, a, b, ha, _, same⟩ := nextPair_some (i := p.1) (j := p.2) found
      have single := (sameRange_iff.mp same).1
      rw [(blank a (mem_of_getElem? ha)).1] at single
      cases single
  have sorted := worklistOf_perm given
  have back : ∀ x ∈ worklistOf given, Blank x.2 :=
    fun x hx => blank x (sorted.mem_iff.mp hx)
  refine ⟨given, _, mergeSameRangesLoop_done done _,
    mergeSubsetsLoop_compounds sorted.length_eq.le fun x hx => (back x hx).1, ?_⟩
  unfold splitCompoundTokens
  rw [nil_append, flatMap_eq_nil_iff]
  exact fun x hx => (back x hx).2

/-- **`get_latest_session_token` ends in exactly one result, and panics exactly if the target
overlaps some ranges and all of their tokens consist of commas and blanks.** -/
theorem latest_token_total_iff (pairs : List RangeToken) (target : FeedRange) :
    ∃ result, (∀ r, LatestRun pairs target r ↔ r = result) ∧
      (NoPanic result ↔ (∀ p ∈ pairs, target.overlaps p.1 = false) ∨
        ∃ p ∈ pairs, target.overlaps p.1 = true ∧ ¬ Blank p.2) := by
  refine ⟨getLatestSessionToken pairs target, fun r => latestRun_iff, ?_⟩
  have given : ∀ {p}, p ∈ pairs.filter (fun p => target.overlaps p.1) ↔
      p ∈ pairs ∧ target.overlaps p.1 = true := mem_filter
  by_cases none : pairs.filter (fun p => target.overlaps p.1) = []
  · refine ⟨fun _ => .inl fun p hp => ?_, fun _ => ?_⟩
    · by_contra overlaps
      have : p ∈ pairs.filter fun p => target.overlaps p.1 := given.mpr ⟨hp, by simpa using overlaps⟩
      rw [none] at this
      cases this
    · unfold getLatestSessionToken
      rw [none]
      exact noPanic_fail _ _
  · rw [getLatestSessionToken_some none]
    constructor
    · intro safe
      right
      by_contra all
      have blank : ∀ x ∈ pairs.filter fun p => target.overlaps p.1, Blank x.2 := by
        intro x hx
        by_contra filled
        exact all ⟨x, (given.mp hx).1, (given.mp hx).2, filled⟩
      obtain ⟨overlapping, processed, same, subsets, empty⟩ := blank_panics blank
      rw [same] at safe
      change NoPanic (mergeRangesWithSubsets overlapping >>= finish) at safe
      rw [subsets] at safe
      exact (noPanic_finish_iff processed).mp safe empty
    · intro some_
      refine (noPanic_mergeSameRangesLoop _ _).bind fun overlapping same => ?_
      refine (noPanic_mergeSubsetsLoop _ _ _).bind fun processed subsets => ?_
      refine (noPanic_finish_iff processed).mpr ?_
      rcases some_ with apart | ⟨p, hp, overlaps, filled⟩
      · obtain ⟨x, hx⟩ := exists_mem_of_ne_nil _ none
        exact absurd (given.mp hx).2 (by simp [apart x (given.mp hx).1])
      · exact split_ne_nil same subsets (given.mpr ⟨hp, overlaps⟩) filled

/-- A single comma as the token of the whole container. -/
theorem comma_panics :
    LatestRun [(.full, [','])] .full
      (.error (.panic "index out of bounds: the len is 0 but the index is 0")) :=
  latestRun_iff.mpr (by decide +kernel)

end AzureSdk.Cosmos.Session
