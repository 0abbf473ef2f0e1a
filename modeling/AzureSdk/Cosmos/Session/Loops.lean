/-
# Cosmos.Session.Loops — the loops of `get_latest_session_token` as they stand

The loops here are the source's own, as relations: the two indices of
`merge_same_ranges`, the `while` of `merge_ranges_with_subsets`, and every index
into a vector checked, where the source would panic.  Each has exactly one outcome,
the one that the bounded recursions of `Helpers` compute (`latestRun_iff`), so the
loops end and no index into the ranges is out of bounds.
-/
import AzureSdk.Cosmos.Session.Worklist

namespace AzureSdk.Cosmos.Session

open Theory List

/-! ## Vectors -/

section Vectors

variable {α : Type}

/-- `v[index]`. -/
def vecAt (v : List α) (index : Nat) : Result α :=
  match v[index]? with
  | some x => .ok x
  | none => .error (.panic "index out of bounds")

/-- `v.remove(index)`. -/
def vecRemove (v : List α) (index : Nat) : Result (List α) :=
  if index < v.length then .ok (v.eraseIdx index)
  else .error (.panic "removal index should be < len")

/-- `remove_indices`, which sorts the indices and removes the last one first. -/
def vecRemoveIndices (v : List α) (indices : List Nat) : Result (List α) :=
  (indices.insertionSort (· ≥ ·)).foldlM vecRemove v

theorem vecRemove_ok {v : List α} {index : Nat} (inside : index < v.length) :
    vecRemove v index = .ok (v.eraseIdx index) := if_pos inside

theorem foldlM_vecRemove : ∀ {indices : List Nat} {v : List α},
    indices.Pairwise (fun a b => b < a) → (∀ i ∈ indices, i < v.length) →
    indices.foldlM vecRemove v = .ok (indices.foldl eraseIdx v)
  | [], _, _, _ => rfl
  | i :: indices, v, descending, inside => by
    obtain ⟨below, rest⟩ := pairwise_cons.mp descending
    have here := inside i (.head _)
    have later : ∀ j ∈ indices, j < (v.eraseIdx i).length := by
      intro j hj
      have := below j hj
      rw [length_eraseIdx_of_lt here]
      omega
    rw [foldlM_cons, vecRemove_ok here]
    exact foldlM_vecRemove rest later

theorem vecRemoveIndices_ok {v : List α} {indices : List Nat} (distinct : indices.Nodup)
    (inside : ∀ i ∈ indices, i < v.length) :
    vecRemoveIndices v indices = .ok (Erase.eraseAll v indices) := by
  have same := perm_insertionSort (· ≥ ·) indices
  have descending : (indices.insertionSort (· ≥ ·)).Pairwise fun a b => b < a := by
    refine ((pairwise_insertionSort (· ≥ ·) indices).and (same.nodup_iff.mpr distinct)).imp ?_
    rintro a b ⟨le, ne⟩
    omega
  exact foldlM_vecRemove descending fun i hi => inside i (same.mem_iff.mp hi)

end Vectors

/-! ## The loops over pairs of ranges -/

/-- One turn of the loops of `merge_same_ranges`; `none` at their end.  A scan that leaves
the inner loop goes on with the next `i`. -/
def sameRangesTurn (overlapping : List RangeToken) (i j : Nat) :
    Result (Option (List RangeToken × Nat × Nat)) :=
  if j < overlapping.length then do
    let a ← vecAt overlapping i
    let b ← vecAt overlapping j
    if sameRange a b then do
      let merged ← mergeTokensSameRange a.2 b.2
      let without ← vecRemove overlapping j
      let without ← vecRemove without i
      .ok (some (without ++ [(a.1, merged)], 0, 1))
    else if j + 1 < overlapping.length then .ok (some (overlapping, i, j + 1))
    else .ok (some (overlapping, i + 1, i + 2))
  else if i + 1 < overlapping.length then .ok (some (overlapping, i + 1, i + 2))
  else .ok none

/-- `merge_same_ranges` from the indices `i` and `j` on. -/
inductive SameRangesLoop : List RangeToken → Nat → Nat → Result (List RangeToken) → Prop
  | ends {overlapping : List RangeToken} {i j : Nat}
    (turn : sameRangesTurn overlapping i j = .ok none) :
    SameRangesLoop overlapping i j (.ok overlapping)
  | fails {overlapping : List RangeToken} {i j : Nat} {fault : Fault}
    (turn : sameRangesTurn overlapping i j = .error fault) :
    SameRangesLoop overlapping i j (.error fault)
  | turns {overlapping following : List RangeToken} {i j i' j' : Nat}
    {result : Result (List RangeToken)}
    (turn : sameRangesTurn overlapping i j = .ok (some (following, i', j')))
    (rest : SameRangesLoop following i' j' result) : SameRangesLoop overlapping i j result

variable {i j : Nat} {a b : RangeToken} {l v : List RangeToken}

variable {r r' : Result (List RangeToken)}

theorem SameRangesLoop.unique {overlapping : List RangeToken} (h : SameRangesLoop overlapping i j r)
    (h' : SameRangesLoop overlapping i j r') : r = r' := by
  induction h with
  | ends turn =>
    cases h' with
    | ends => rfl
    | fails turn' | turns turn' => rw [turn] at turn'; cases turn'
  | fails turn =>
    cases h' with
    | ends turn' | turns turn' => rw [turn] at turn'; cases turn'
    | fails turn' => rw [turn] at turn'; cases turn'; rfl
  | turns turn rest ih =>
    cases h' with
    | ends turn' | fails turn' => rw [turn] at turn'; cases turn'
    | turns turn' rest' =>
      rw [turn] at turn'
      cases turn'
      exact ih rest'

/-- No pair before `i` and `j`, row by row, is to be merged. -/
def Scanned (overlapping : List RangeToken) (i j : Nat) : Prop :=
  ∀ p q a b, p < q → overlapping[p]? = some a → overlapping[q]? = some b →
    p < i ∨ p = i ∧ q < j → sameRange a b = false

theorem nextPair_scanned : ∀ {l : List RangeToken} {i j : Nat}, nextPair l = some (i, j) →
    Scanned l i j
  | [], _, _, h => by simp [nextPair] at h
  | first :: rest, i, j, h => by
    unfold nextPair at h
    split at h
    · rename_i k found
      cases h
      obtain ⟨_, _, before⟩ := findIdx?_eq_some_iff_getElem.mp found
      rintro p q a b pq ha hb (low | ⟨rfl, low⟩)
      · omega
      · obtain ⟨q, rfl⟩ : ∃ q', q = q' + 1 := ⟨q - 1, by omega⟩
        cases ha
        obtain ⟨bound, rfl⟩ := List.getElem?_eq_some_iff.mp hb
        simpa using before q (by omega)
    · rename_i fresh
      obtain ⟨⟨i', j'⟩, found, same⟩ := Option.map_eq_some_iff.mp h
      cases same
      rintro p q a b pq ha hb low
      obtain ⟨q, rfl⟩ : ∃ q', q = q' + 1 := ⟨q - 1, by omega⟩
      cases p with
      | zero =>
        cases ha
        simpa using findIdx?_eq_none_iff.mp fresh b (mem_of_getElem? hb)
      | succ p =>
        refine nextPair_scanned found p q a b (by omega) (by simpa using ha)
          (by simpa using hb) ?_
        omega

theorem Scanned.pair (scanned : Scanned l i j) (ha : l[i]? = some a) (hb : l[j]? = some b)
    (differ : sameRange a b = false) : Scanned l i (j + 1) := by
  intro p q c d pq hp hq low
  by_cases here : p = i ∧ q = j
  · obtain ⟨rfl, rfl⟩ := here
    rw [ha] at hp
    rw [hb] at hq
    cases hp
    cases hq
    exact differ
  · exact scanned p q c d pq hp hq (by omega)

theorem Scanned.row (scanned : Scanned l i j) (past : l.length ≤ j) : Scanned l (i + 1) (i + 2) := by
  intro p q a b pq hp hq low
  obtain ⟨bound, _⟩ := List.getElem?_eq_some_iff.mp hq
  exact scanned p q a b pq hp hq (by omega)

/-- The first pair that the scan meets is the one that is merged next. -/
theorem nextPair_of_scanned (below : i < j)
    (ha : l[i]? = some a) (hb : l[j]? = some b) (same : sameRange a b = true)
    (scanned : Scanned l i j) : nextPair l = some (i, j) := by
  cases found : nextPair l with
  | none =>
    have apart := nextPair_none found
    obtain ⟨hi, rfl⟩ := List.getElem?_eq_some_iff.mp ha
    obtain ⟨hj, rfl⟩ := List.getElem?_eq_some_iff.mp hb
    rw [pairwise_iff_getElem.mp apart i j hi hj below] at same
    cases same
  | some p =>
    obtain ⟨i', j'⟩ := p
    obtain ⟨below', a', b', ha', hb', same'⟩ := nextPair_some found
    have first := nextPair_scanned found i j a b below ha hb
    have first' := scanned i' j' a' b' below' ha' hb'
    rw [same] at first
    rw [same'] at first'
    have : i = i' ∧ j = j' := by
      by_contra other
      have : (i < i' ∨ i = i' ∧ j < j') ∨ (i' < i ∨ i' = i ∧ j' < j) := by omega
      rcases this with low | low
      · exact absurd (first low) (by simp)
      · exact absurd (first' low) (by simp)
    rw [this.1, this.2]

theorem nextPair_none_of_scanned (scanned : Scanned l i j)
    (past : l.length ≤ i + 1) : nextPair l = none := by
  cases found : nextPair l with
  | none => rfl
  | some p =>
    obtain ⟨i', j'⟩ := p
    obtain ⟨below, a, b, ha, hb, same⟩ := nextPair_some found
    obtain ⟨inside, _⟩ := List.getElem?_eq_some_iff.mp hb
    rw [scanned i' j' a b below ha hb (.inl (by omega))] at same
    cases same

theorem vecAt_ok {α : Type} {v : List α} {index : Nat} {x : α} (h : v[index]? = some x) :
    vecAt v index = .ok x := by
  unfold vecAt
  rw [h]

theorem sameRangesTurn_differ
    (ha : v[i]? = some a) (hb : v[j]? = some b) (differ : sameRange a b = false) :
    sameRangesTurn v i j =
      if j + 1 < v.length then .ok (some (v, i, j + 1)) else .ok (some (v, i + 1, i + 2)) := by
  obtain ⟨inside, _⟩ := List.getElem?_eq_some_iff.mp hb
  unfold sameRangesTurn
  rw [if_pos inside, vecAt_ok ha, vecAt_ok hb]
  change (if sameRange a b = true then _ else _) = _
  rw [if_neg (by simp [differ])]

theorem sameRangesTurn_merge (below : i < j)
    (ha : v[i]? = some a) (hb : v[j]? = some b) (same : sameRange a b = true) :
    sameRangesTurn v i j = (mergeTokensSameRange a.2 b.2 >>= fun merged =>
      .ok (some ((v.eraseIdx j).eraseIdx i ++ [(a.1, merged)], 0, 1))) := by
  obtain ⟨inside, _⟩ := List.getElem?_eq_some_iff.mp hb
  have left : i < (v.eraseIdx j).length := by
    rw [length_eraseIdx_of_lt inside]
    omega
  unfold sameRangesTurn
  rw [if_pos inside, vecAt_ok ha, vecAt_ok hb]
  change (if sameRange a b = true then _ else _) = _
  rw [if_pos same, vecRemove_ok inside]
  change (mergeTokensSameRange a.2 b.2 >>= fun merged =>
    vecRemove (v.eraseIdx j) i >>= fun without => .ok (some (without ++ [(a.1, merged)], 0, 1))) = _
  rw [vecRemove_ok left]
  rfl

theorem mergeSameRangesLoop_done (done : nextPair v = none) (fuel : Nat) :
    mergeSameRangesLoop fuel v = .ok v := by
  cases fuel with
  | zero => rfl
  | succ fuel => rw [mergeSameRangesLoop, done]

theorem mergeSameRanges_pair
    (next : nextPair v = some (i, j)) (ha : v[i]? = some a) (hb : v[j]? = some b) (below : i < j) :
    mergeSameRanges v = (mergeTokensSameRange a.2 b.2 >>= fun merged =>
      mergeSameRanges ((v.eraseIdx j).eraseIdx i ++ [(a.1, merged)])) := by
  obtain ⟨inside, _⟩ := List.getElem?_eq_some_iff.mp hb
  have size : ∀ merged : Text,
      ((v.eraseIdx j).eraseIdx i ++ [(a.1, merged)]).length = v.length - 1 := by
    intro merged
    rw [length_append, length_eraseIdx_of_lt (by rw [length_eraseIdx_of_lt inside]; omega),
      length_eraseIdx_of_lt inside, length_singleton]
    omega
  unfold mergeSameRanges
  simp only [size]
  obtain ⟨fuel, fuel_eq⟩ : ∃ fuel, v.length = fuel + 1 := ⟨v.length - 1, by omega⟩
  rw [fuel_eq, mergeSameRangesLoop, next]
  simp only [ha, hb, Nat.add_sub_cancel]

/-- **The loops of `merge_same_ranges` end**, with what the bounded recursion computes. -/
theorem sameRangesLoop_runs (v : List RangeToken) (i j : Nat) (below : i < j)
    (scanned : Scanned v i j) : SameRangesLoop v i j (mergeSameRanges v) := by
  by_cases inside : j < v.length
  · have ha : v[i]? = some v[i] := List.getElem?_eq_getElem (by omega)
    have hb : v[j]? = some v[j] := List.getElem?_eq_getElem inside
    cases same : sameRange v[i] v[j] with
    | false =>
      have turn := sameRangesTurn_differ ha hb same
      by_cases more : j + 1 < v.length
      · rw [if_pos more] at turn
        exact .turns turn (sameRangesLoop_runs v i (j + 1) (by omega) (scanned.pair ha hb same))
      · rw [if_neg more] at turn
        exact .turns turn (sameRangesLoop_runs v (i + 1) (i + 2) (by omega)
          ((scanned.pair ha hb same).row (by omega)))
    | true =>
      have turn := sameRangesTurn_merge below ha hb same
      rw [mergeSameRanges_pair (nextPair_of_scanned below ha hb same scanned) ha hb below]
      cases merge : mergeTokensSameRange v[i].2 v[j].2 with
      | error fault =>
        rw [merge] at turn
        exact .fails turn
      | ok merged =>
        rw [merge] at turn
        refine .turns turn (sameRangesLoop_runs _ 0 1 (by omega) ?_)
        rintro p q a b pq _ _ (low | ⟨rfl, low⟩) <;> omega
  · by_cases more : i + 1 < v.length
    · have turn : sameRangesTurn v i j = .ok (some (v, i + 1, i + 2)) := by
        unfold sameRangesTurn
        rw [if_neg inside, if_pos more]
      exact .turns turn (sameRangesLoop_runs v (i + 1) (i + 2) (by omega) (scanned.row (by omega)))
    · have turn : sameRangesTurn v i j = .ok none := by
        unfold sameRangesTurn
        rw [if_neg inside, if_neg more]
      have done : mergeSameRanges v = .ok v :=
        mergeSameRangesLoop_done (nextPair_none_of_scanned scanned (by omega)) _
      rw [done]
      exact .ends turn
termination_by (v.length, v.length + 1 - i, v.length + 1 - j)
decreasing_by
  · refine Prod.Lex.right _ (Prod.Lex.right _ ?_)
    omega
  · refine Prod.Lex.right _ (Prod.Lex.left _ _ ?_)
    omega
  · refine Prod.Lex.left _ _ ?_
    rw [length_append, length_eraseIdx_of_lt (by rw [length_eraseIdx_of_lt inside]; omega),
      length_eraseIdx_of_lt inside, length_singleton]
    omega
  · refine Prod.Lex.right _ (Prod.Lex.left _ _ ?_)
    omega

/-! ## The loop over the worklist -/

/-- One round of the loop of `merge_ranges_with_subsets`: the worklist and what is
processed after it.  Positions are counted behind the current range. -/
def subsetsRound (current : RangeToken) (rest processed : List RangeToken) :
    Result (List RangeToken × List RangeToken) :=
  if isCompound current.2 then .ok (rest, processed ++ [current])
  else do
    let segCmp ← SessionTokenSegment.parse current.2
    match subsetsOf current.1 rest with
    | [] => .ok (rest, processed ++ [current])
    | [child] => do
      let childSeg ← SessionTokenSegment.parse child.token
      if strictlyNewer segCmp childSeg then do
        let left ← vecRemove rest child.index
        .ok (left, processed ++ [current])
      else .ok (rest, processed ++ [current])
    | subsets => do
      match ← analyzeSubsets current.1 segCmp current.2 subsets with
      | .none => .ok (rest, processed ++ [current])
      | .keepParent indices => do
        let left ← vecRemoveIndices rest indices
        .ok (left, processed ++ [current])
      | .replaceParent indices compound => do
        let left ← vecRemoveIndices rest indices
        .ok (left ++ [compound], processed)
      | .addCompound indices compound => do
        let left ← vecRemoveIndices rest indices
        .ok (left ++ [compound], processed ++ [current])

/-- The `while` of `merge_ranges_with_subsets`. -/
inductive SubsetsLoop : List RangeToken → List RangeToken → Result (List RangeToken) → Prop
  | ends {processed : List RangeToken} : SubsetsLoop [] processed (.ok processed)
  | fails {current : RangeToken} {rest processed : List RangeToken} {fault : Fault}
    (round : subsetsRound current rest processed = .error fault) :
    SubsetsLoop (current :: rest) processed (.error fault)
  | rounds {current : RangeToken} {rest processed worklist processed' : List RangeToken}
    {result : Result (List RangeToken)}
    (round : subsetsRound current rest processed = .ok (worklist, processed'))
    (later : SubsetsLoop worklist processed' result) :
    SubsetsLoop (current :: rest) processed result

theorem SubsetsLoop.unique {processed : List RangeToken}
    (h : SubsetsLoop l processed r) (h' : SubsetsLoop l processed r') : r = r' := by
  induction h with
  | ends =>
    cases h'
    rfl
  | fails round =>
    cases h' with
    | fails round' => rw [round] at round'; cases round'; rfl
    | rounds round' => rw [round] at round'; cases round'
  | rounds round later ih =>
    cases h' with
    | fails round' => rw [round] at round'; cases round'
    | rounds round' later' =>
      rw [round] at round'
      cases round'
      exact ih later'

section Round

variable {current : RangeToken} {rest processed : List RangeToken}

variable {seg : SessionTokenSegment}

/-- What `analyze_subsets` wants removed are distinct positions behind the current range. -/
theorem analyzeSubsets_indices {action : MergeAction}
    (h : analyzeSubsets current.1 seg current.2 (subsetsOf current.1 rest) = .ok action) :
    action = .none ∨ ∃ members : List Subset,
      members.Subperm (subsetsOf current.1 rest) ∧ ∃ compound,
        (action = .keepParent (members.map (·.index)) ∨
          action = .replaceParent (members.map (·.index)) compound ∨
          action = .addCompound (members.map (·.index)) compound) := by
  rcases tryStarts_ok h with none | ⟨start, added, sub, _, _, act⟩
  · exact .inl none
  · have inner : (start :: added).Subperm (subsetsOf current.1 rest) := by
      have sorted := perm_insertionSort
        (fun a b : Subset => a.range.minInclusive ≤ b.range.minInclusive) (subsetsOf current.1 rest)
      exact sub.trans sorted.subperm
    refine .inr ⟨start :: added, inner, ?_⟩
    rcases (actionFor_ok act).2 with ⟨rfl, _⟩ | ⟨rfl, _⟩ | rfl
    · exact ⟨_, .inr (.inl rfl)⟩
    · exact ⟨current, .inl rfl⟩
    · exact ⟨_, .inr (.inr rfl)⟩

variable {members : List Subset}

theorem vecRemoveIndices_members (sub : members.Subperm (subsetsOf current.1 rest)) :
    vecRemoveIndices rest (members.map (·.index)) =
      .ok (removeIndices rest (members.map (·.index))) := by
  refine vecRemoveIndices_ok (nodup_indices sub) (forall_mem_map.mpr fun m hm => ?_)
  obtain ⟨inside, _⟩ := List.getElem?_eq_some_iff.mp (mem_subsetsOf (sub.subset hm)).1
  exact inside

/-- The round of the source: no position it removes is out of bounds. -/
theorem subsetsRound_eq : subsetsRound current rest processed = roundOf current rest processed := by
  unfold subsetsRound roundOf
  split
  · rfl
  cases SessionTokenSegment.parse current.2 with
  | error fault => rfl
  | ok seg =>
    dsimp only [bind, Except.bind]
    match found : subsetsOf current.1 rest with
    | [] => rfl
    | [child] =>
      have at_ := (mem_subsetsOf (by rw [found]; exact mem_singleton_self child)).1
      obtain ⟨inside, _⟩ := List.getElem?_eq_some_iff.mp at_
      dsimp only
      rw [vecRemove_ok inside]
    | a :: b :: more =>
      dsimp only
      rw [← found]
      cases act : analyzeSubsets current.1 seg current.2 (subsetsOf current.1 rest) with
      | error fault => rfl
      | ok action =>
        rcases analyzeSubsets_indices act with rfl | ⟨members, sub, compound, rfl | rfl | rfl⟩
        · rfl
        all_goals simp only [MergeAction.after, vecRemoveIndices_members sub]

end Round

/-- **The `while` of `merge_ranges_with_subsets` ends**, with what the bounded recursion
computes. -/
theorem subsetsLoop_runs : ∀ {fuel : Nat} {l processed : List RangeToken}, l.length ≤ fuel →
    Apart l → SubsetsLoop l processed (mergeSubsetsLoop fuel l processed)
  | fuel, [], processed, _, _ => by
    cases fuel <;> exact .ends
  | 0, x :: l, _, enough, _ => by simp at enough
  | fuel + 1, current :: rest, processed, enough, apart => by
    rw [mergeSubsetsLoop]
    cases round : roundOf current rest processed with
    | error fault => exact .fails (subsetsRound_eq.trans round)
    | ok following =>
      obtain ⟨apart', shorter, _⟩ := (round_of_roundOf apart round).worklist apart
      refine .rounds (subsetsRound_eq.trans round) (subsetsLoop_runs ?_ apart')
      simp only [length_cons] at enough
      omega

/-! ## The whole merge -/

/-- `get_latest_session_token`, with the loops of the source. -/
inductive LatestRun (pairs : List RangeToken) (target : FeedRange) : Result Text → Prop
  | apart (none : pairs.filter (fun p => target.overlaps p.1) = []) :
    LatestRun pairs target (fail .clientNoOverlappingFeedRangesForSessionToken
      "no overlapping feed ranges with the target feed range")
  | unread {fault : Fault} (some_ : pairs.filter (fun p => target.overlaps p.1) ≠ [])
    (same : SameRangesLoop (pairs.filter fun p => target.overlaps p.1) 0 1 (.error fault)) :
    LatestRun pairs target (.error fault)
  | unsettled {fault : Fault} {overlapping : List RangeToken}
    (some_ : pairs.filter (fun p => target.overlaps p.1) ≠ [])
    (same : SameRangesLoop (pairs.filter fun p => target.overlaps p.1) 0 1 (.ok overlapping))
    (subsets : SubsetsLoop (overlapping.insertionSort fun a b => largerFirst a b = true) []
      (.error fault)) :
    LatestRun pairs target (.error fault)
  | merged {overlapping processed : List RangeToken}
    (some_ : pairs.filter (fun p => target.overlaps p.1) ≠ [])
    (same : SameRangesLoop (pairs.filter fun p => target.overlaps p.1) 0 1 (.ok overlapping))
    (subsets : SubsetsLoop (overlapping.insertionSort fun a b => largerFirst a b = true) []
      (.ok processed)) :
    LatestRun pairs target (finish processed)

section Latest

variable {pairs : List RangeToken} {target : FeedRange}

variable {overlapping : List RangeToken} {r : Result (List RangeToken)}

theorem sameRangesLoop_iff :
    SameRangesLoop overlapping 0 1 r ↔ r = mergeSameRanges overlapping := by
  have runs : SameRangesLoop overlapping 0 1 (mergeSameRanges overlapping) := by
    refine sameRangesLoop_runs overlapping 0 1 (by omega) ?_
    rintro p q a b pq _ _ (low | ⟨rfl, low⟩) <;> omega
  constructor
  · intro h
    exact h.unique runs
  · rintro rfl
    exact runs

theorem subsetsLoop_iff (apart : Apart overlapping) :
    SubsetsLoop (worklistOf overlapping) [] r ↔ r = mergeRangesWithSubsets overlapping := by
  have same := worklistOf_perm overlapping
  have runs : SubsetsLoop (worklistOf overlapping) [] (mergeRangesWithSubsets overlapping) :=
    subsetsLoop_runs same.length_eq.le ((apart_perm same).mpr apart)
  constructor
  · intro h
    exact h.unique runs
  · rintro rfl
    exact runs

theorem latestRun_iff {r : Result Text} :
    LatestRun pairs target r ↔ r = getLatestSessionToken pairs target := by
  constructor
  · intro run
    cases run with
    | apart none =>
      unfold getLatestSessionToken
      rw [none]
    | unread some_ same =>
      rw [getLatestSessionToken_some some_, ← sameRangesLoop_iff.mp same]
      rfl
    | unsettled some_ same subsets | merged some_ same subsets =>
      have phase1 := sameRangesLoop_iff.mp same
      rw [getLatestSessionToken_some some_, ← phase1]
      change _ = mergeRangesWithSubsets _ >>= finish
      rw [← (subsetsLoop_iff (mergeSameRanges_ok phase1.symm).2).mp subsets]
      rfl
  · rintro rfl
    by_cases none : pairs.filter (fun p => target.overlaps p.1) = []
    · have := LatestRun.apart none
      unfold getLatestSessionToken
      rw [none]
      exact this
    · rw [getLatestSessionToken_some none]
      cases same : mergeSameRanges (pairs.filter fun p => target.overlaps p.1) with
      | error fault => exact .unread none (sameRangesLoop_iff.mpr same.symm)
      | ok overlapping =>
        change LatestRun pairs target (mergeRangesWithSubsets overlapping >>= finish)
        have loop := subsetsLoop_iff (r := mergeRangesWithSubsets overlapping)
          (mergeSameRanges_ok same).2
        cases subsets : mergeRangesWithSubsets overlapping with
        | error fault =>
          exact .unsettled none (sameRangesLoop_iff.mpr same.symm) (subsets ▸ loop.mpr rfl)
        | ok processed =>
          exact .merged none (sameRangesLoop_iff.mpr same.symm) (subsets ▸ loop.mpr rfl)

end Latest

end AzureSdk.Cosmos.Session
