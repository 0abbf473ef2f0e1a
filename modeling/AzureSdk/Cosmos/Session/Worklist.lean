/-
# Cosmos.Session.Worklist — the worklist on parsed ranges

`merge_ranges_with_subsets` compares texts at positions of a vector.  Here the same
rounds run on parsed items, a range with its segment: `next` says what a round
leaves and what it writes, and `Settles` runs the rounds to the end.  A run is
determined by its items.

The source's loop refines it (`mergeSubsetsLoop_refines`): compound tokens pass
through wherever they stand, positions and spelling do not matter, and on readable
tokens the loop does not fail.
-/
import AzureSdk.Cosmos.Session.LatestToken

namespace AzureSdk.Cosmos.Session

open Theory List SessionTokenSegment Subset Erase

abbrev Item := FeedRange × SessionTokenSegment

/-- `merge_ranges`, which cannot fail. -/
def unite (a b : FeedRange) : FeedRange where
  partitionKey := none
  minInclusive := if b.minInclusive < a.minInclusive then b.minInclusive else a.minInclusive
  maxExclusive := if b.maxExclusive < a.maxExclusive then a.maxExclusive else b.maxExclusive
  ordered := by
    have := a.ordered
    have := b.ordered
    grind

/-- Takes an item in where it touches what is merged so far. -/
def extend (merged : FeedRange) (members : List Item) (x : Item) : FeedRange × List Item :=
  if canMerge merged x.1 then (unite merged x.1, members ++ [x]) else (merged, members)

/-- The chain from a first item, if it reaches the parent's range. -/
def chain (parent : FeedRange) : FeedRange → List Item → List Item → Option (List Item)
  | _, _, [] => none
  | merged, members, x :: others =>
    let following := extend merged members x
    if parent = following.1 then some following.2
    else chain parent following.1 following.2 others

/-- The first chain that reaches the parent's range. -/
def firstChain (parent : FeedRange) (before : List Item) : List Item → Option (List Item)
  | [] => none
  | start :: others =>
    match chain parent start.1 [start] (before ++ others) with
    | some members => some members
    | none => firstChain parent (before ++ [start]) others

/-- What a round with a chain of children leaves, and the segments it writes. -/
def nextChain (current : Item) (rest members : List Item) :
    List Item × List SessionTokenSegment :=
  if members.all fun child => !strictlyNewer current.2 child.2 then
    (without rest members, members.map Prod.snd)
  else if members.all fun child => strictlyNewer current.2 child.2 then
    (without rest members, [current.2])
  else (without rest members, members.map Prod.snd ++ [current.2, current.2])

/-- What a round leaves behind the current item, and the segments it writes. -/
def next (current : Item) (rest : List Item) : List Item × List SessionTokenSegment :=
  match rest.filter fun x => x.1.isSubsetOf current.1 with
  | [] => (rest, [current.2])
  | [child] =>
    if strictlyNewer current.2 child.2 then (without rest [child], [current.2])
    else (rest, [current.2])
  | subsets =>
    match firstChain current.1 []
        (subsets.insertionSort fun a b => a.1.minInclusive ≤ b.1.minInclusive) with
    | none => (rest, [current.2])
    | some members => nextChain current rest members

/-- The rounds write these segments. -/
inductive Settles : List Item → List SessionTokenSegment → Prop
  | nil : Settles [] []
  | round {current : Item} {rest : List Item} {written : List SessionTokenSegment}
    (later : Settles (next current rest).1 written) :
    Settles (current :: rest) ((next current rest).2 ++ written)

theorem Settles.unique {items : List Item} {written written' : List SessionTokenSegment}
    (h : Settles items written) (h' : Settles items written') : written = written' := by
  induction h generalizing written' with
  | nil =>
    cases h'
    rfl
  | round later ih =>
    cases h' with
    | round later' => rw [ih later']

/-! ## Parsed tokens -/

/-- The segment of a token, where it can be read. -/
def segmentOf (token : Text) : SessionTokenSegment :=
  match parse token with
  | .ok segment => segment
  | .error _ => ⟨[], .simple 0⟩

def itemOf (x : RangeToken) : Item := (x.1, segmentOf x.2)

theorem segmentOf_eq {token : Text} {s : SessionTokenSegment}
    (read : parse token = .ok s) : segmentOf token = s := by
  unfold segmentOf
  rw [read]

/-- Every token without a comma can be read. -/
def Readable (l : List RangeToken) : Prop :=
  ∀ x ∈ l, isCompound x.2 = false → ∃ s, parse x.2 = .ok s

variable {l : List RangeToken} {x : RangeToken}

theorem Readable.parse (readable : Readable l) (mem : x ∈ l)
    (single : isCompound x.2 = false) : parse x.2 = .ok (segmentOf x.2) := by
  obtain ⟨s, read⟩ := readable x mem single
  rw [segmentOf_eq read, read]

/-- The items of the tokens without a comma. -/
def singles (l : List RangeToken) : List Item := (l.filter fun x => !isCompound x.2).map itemOf

/-- The segments of the tokens with a comma. -/
def compoundSegments (l : List RangeToken) : List SessionTokenSegment :=
  (l.filter fun x => isCompound x.2).flatMap fun x => segmentsOf x.2

def allSegments (l : List RangeToken) : List SessionTokenSegment :=
  l.flatMap fun x => segmentsOf x.2

theorem singles_append (l m : List RangeToken) : singles (l ++ m) = singles l ++ singles m := by
  simp [singles]

theorem compoundSegments_append (l m : List RangeToken) :
    compoundSegments (l ++ m) = compoundSegments l ++ compoundSegments m := by
  simp [compoundSegments]

theorem singles_cons_single (single : isCompound x.2 = false) :
    singles (x :: l) = itemOf x :: singles l := by
  simp [singles, single]

theorem compoundSegments_cons_single
    (single : isCompound x.2 = false) : compoundSegments (x :: l) = compoundSegments l := by
  simp [compoundSegments, single]

theorem compoundSegments_cons_compound (multi : isCompound x.2 = true) :
    compoundSegments (x :: l) = segmentsOf x.2 ++ compoundSegments l := by
  simp [compoundSegments, multi]

theorem nodup_singles (apart : Apart l) : (singles l).Nodup := by
  unfold singles List.Nodup
  rw [pairwise_map]
  have kept : (l.filter fun x => !isCompound x.2).Pairwise fun a b =>
      isCompound a.2 = false ∧ isCompound b.2 = false ∧ sameRange a b = false := by
    refine ((apart.sublist filter_sublist).and
      (pairwise_of_forall_mem_list fun a ha b hb => ?_)).imp
        fun {a b} (h : _ ∧ (isCompound a.2 = false ∧ isCompound b.2 = false)) =>
          ⟨h.2.1, h.2.2, h.1⟩
    have ha := (mem_filter.mp ha).2
    have hb := (mem_filter.mp hb).2
    simp only [Bool.not_eq_eq_eq_not, Bool.not_true] at ha hb
    exact ⟨ha, hb⟩
  refine kept.imp fun ⟨singleA, singleB, other⟩ (same : itemOf _ = itemOf _) => ?_
  rw [sameRange_iff.mpr ⟨singleA, singleB, (Prod.mk.inj same).1⟩] at other
  cases other

/-! ## Subsets and chains -/

def Subset.item (s : Subset) : Item := itemOf s.pair

theorem subsetsOf_item (range : FeedRange) (rest : List RangeToken) :
    (subsetsOf range rest).map item =
      (singles rest).filter fun x => x.1.isSubsetOf range := by
  have positions : (rest.zipIdx.filter fun p => !isCompound p.1.2 && p.1.1.isSubsetOf range).map
      Prod.fst = rest.filter fun x => !isCompound x.2 && x.1.isSubsetOf range := by
    have := filter_map (f := Prod.fst) (p := fun x : RangeToken =>
      !isCompound x.2 && x.1.isSubsetOf range) (l := rest.zipIdx)
    rw [zipIdx_map_fst] at this
    rw [this]
    rfl
  have item : (subsetsOf range rest).map item =
      ((rest.zipIdx.filter fun p => !isCompound p.1.2 && p.1.1.isSubsetOf range).map
        Prod.fst).map itemOf := by
    unfold subsetsOf
    rw [map_map, map_map]
    rfl
  rw [item, positions]
  unfold singles
  rw [filter_map, filter_filter]
  congr 1
  simp [itemOf, Bool.and_comm]

theorem mergeRanges_eq (a b : FeedRange) : mergeRanges a b = .ok (unite a b) := by
  have made : FeedRange.new
      (if b.minInclusive < a.minInclusive then b.minInclusive else a.minInclusive)
      (if b.maxExclusive < a.maxExclusive then a.maxExclusive else b.maxExclusive) =
      .ok (unite a b) := FeedRange.new_ok (unite a b).ordered
  unfold mergeRanges
  dsimp only
  rw [made]

theorem takeIn_eq (merged : FeedRange) (members : List Subset) (s : Subset) :
    ∃ m ms, takeIn merged members s = .ok (m, ms) ∧
      (m, ms.map item) = extend merged (members.map item) s.item := by
  unfold takeIn extend
  change ∃ m ms, _ ∧ _ = if canMerge merged s.range = true then _ else _
  by_cases touch : canMerge merged s.range = true
  · rw [if_pos touch, if_pos touch, mergeRanges_eq]
    exact ⟨unite merged s.range, members ++ [s], rfl, by simp; rfl⟩
  · rw [if_neg touch, if_neg touch]
    exact ⟨merged, members, rfl, rfl⟩

theorem combineSubsets_eq (parent : FeedRange) : ∀ (others : List Subset) (merged : FeedRange)
    (members : List Subset), ∃ found, combineSubsets parent merged members others = .ok found ∧
      found.map (fun f => f.2.map item) =
        chain parent merged (members.map item) (others.map item)
  | [], _, _ => ⟨none, rfl, rfl⟩
  | s :: others, merged, members => by
    obtain ⟨m, ms, taken, same⟩ := takeIn_eq merged members s
    unfold combineSubsets
    rw [taken, map_cons, chain, ← same]
    dsimp only [bind, Except.bind]
    by_cases reached : parent = m
    · rw [if_pos reached, if_pos reached]
      exact ⟨some (m, ms), rfl, rfl⟩
    · rw [if_neg reached, if_neg reached]
      exact combineSubsets_eq parent others m ms

/-- The outer loop acts on the first chain, if there is one. -/
theorem tryStarts_eq (parent : FeedRange) (seg : SessionTokenSegment) (token : Text) :
    ∀ (l before : List Subset),
    (firstChain parent (before.map item) (l.map item) = none ∧
      tryStarts parent seg token before l = .ok .none) ∨
    ∃ start added, firstChain parent (before.map item) (l.map item) =
        some ((start :: added).map item) ∧
      (start :: added).Subperm (before ++ l) ∧ (added = [] → start.range = parent) ∧
      tryStarts parent seg token before l = actionFor seg token parent (start :: added)
  | [], before => .inl ⟨rfl, rfl⟩
  | start :: others, before => by
    obtain ⟨found, run, same⟩ :=
      combineSubsets_eq parent (before ++ others) start.range [start]
    rw [map_append] at same
    rw [map_cons, firstChain, tryStarts, run]
    change _ = chain parent start.item.1 [start.item] _ at same
    rw [← same]
    dsimp only [bind, Except.bind]
    cases found with
    | none =>
      have later := tryStarts_eq parent seg token others (before ++ [start])
      simpa using later
    | some result =>
      obtain ⟨m, ms⟩ := result
      obtain ⟨rfl, added, rfl, sub, _, alone⟩ := combineSubsets_some run
      refine .inr ⟨start, added, rfl, ?_, fun none => (alone none).symm, rfl⟩
      exact ((subperm_cons start).mpr sub.subperm).trans perm_middle.symm.subperm

theorem actionFor_eq {seg : SessionTokenSegment} {token : Text} {range : FeedRange}
    {members : List Subset} (read : ∀ m ∈ members, parse m.token = .ok (segmentOf m.token)) :
    actionFor seg token range members = .ok (
      if (members.map item).all fun child => !strictlyNewer seg child.2 then
        .replaceParent (members.map (·.index)) (range, joinTokens (members.map (·.token)))
      else if (members.map item).all fun child => strictlyNewer seg child.2 then
        .keepParent (members.map (·.index))
      else .addCompound (members.map (·.index))
        (range, joinTokens (members.map (·.token) ++ [token]))) := by
  have parsed : members.mapM (fun child => parse child.token) =
      .ok (members.map fun child => segmentOf child.token) := by
    induction members with
    | nil => rfl
    | cons m members ih =>
      rw [mapM_cons, read m (.head _),
        ih fun m' hm => read m' (.tail _ hm)]
      rfl
  unfold actionFor
  rw [parsed]
  dsimp only [bind, Except.bind]
  have same : ∀ p : SessionTokenSegment → Bool,
      (members.map fun child => segmentOf child.token).all p =
        (members.map item).all fun child => p child.2 := by
    intro p
    rw [all_map, all_map]
    rfl
  rw [same, same]
  split
  · rfl
  · split <;> rfl

/-! ## One round -/

theorem singles_perm {m : List RangeToken} (same : l.Perm m) : (singles l).Perm (singles m) :=
  (same.filter _).map itemOf

theorem compoundSegments_perm {m : List RangeToken} (same : l.Perm m) :
    (compoundSegments l).Perm (compoundSegments m) :=
  (same.filter _).flatMap_right _

theorem singles_removeIndices {range : FeedRange} {rest : List RangeToken} {members : List Subset}
    (apart : Apart rest) (sub : members.Subperm (subsetsOf range rest)) :
    singles (removeIndices rest (members.map (·.index))) =
        without (singles rest) (members.map item) ∧
      (compoundSegments (removeIndices rest (members.map (·.index)))).Perm (compoundSegments rest) := by
  have split := perm_removeIndices sub
  have alone : ∀ x ∈ members.map pair, isCompound x.2 = false :=
    forall_mem_map.mpr fun m hm => (mem_subsetsOf (sub.subset hm)).2.1
  have items : singles (members.map pair) = members.map item := by
    unfold singles
    rw [filter_eq_self.mpr fun x hx => by simp [alone x hx], map_map]
    rfl
  have none : compoundSegments (members.map pair) = [] := by
    unfold compoundSegments
    rw [filter_eq_nil_iff.mpr fun x hx => by simp [alone x hx]]
    rfl
  have inner : (singles (removeIndices rest (members.map (·.index)))).Sublist (singles rest) :=
    ((eraseAll_sublist rest _).filter _).map itemOf
  have parts := singles_perm split
  rw [singles_append, items] at parts
  have others := compoundSegments_perm split
  rw [compoundSegments_append, none] at others
  exact ⟨eq_without_of_perm (nodup_singles apart) inner parts, others.symm⟩

theorem segmentsOf_readable (readable : Readable l)
    (mem : x ∈ l) (single : isCompound x.2 = false) : segmentsOf x.2 = [segmentOf x.2] :=
  segmentsOf_single single (readable.parse mem single)

/-- A state of the loop that is where a round of the parsed worklist leads. -/
structure Follows (current : RangeToken) (rest processed worklist processed' : List RangeToken) :
    Prop where
  apart : Apart worklist
  readable : Readable worklist
  shorter : worklist.length ≤ rest.length
  items : singles worklist = (next (itemOf current) (singles rest)).1
  written : (allSegments processed' ++ compoundSegments worklist).Perm
    (allSegments processed ++ compoundSegments rest ++ (next (itemOf current) (singles rest)).2)

section Rounds

variable {current : RangeToken} {rest processed left : List RangeToken}

theorem allSegments_append_single (processed : List RangeToken) (readable : Readable (current :: rest))
    (single : isCompound current.2 = false) :
    allSegments (processed ++ [current]) = allSegments processed ++ [segmentOf current.2] := by
  simp [allSegments, segmentsOf_readable readable (.head _) single]

theorem follows_written (single : isCompound current.2 = false)
    (apart : Apart (current :: rest)) (readable : Readable (current :: rest))
    (inner : left.Sublist rest) (others : (compoundSegments left).Perm (compoundSegments rest))
    (round : next (itemOf current) (singles rest) = (singles left, [segmentOf current.2])) :
    Follows current rest processed left (processed ++ [current]) where
  apart := (pairwise_cons.mp apart).2.sublist inner
  readable := fun x hx => readable x (.tail _ (inner.mem hx))
  shorter := inner.length_le
  items := by rw [round]
  written := by
    rw [round, allSegments_append_single processed readable single, append_assoc,
      append_assoc]
    exact (perm_append_comm.trans (others.append_right _)).append_left _

theorem follows_joined {tokens : List Text} {processed' : List RangeToken}
    (apart : Apart (current :: rest)) (readable : Readable (current :: rest))
    (inner : left.Sublist rest) (fewer : left.length < rest.length)
    (others : (compoundSegments left).Perm (compoundSegments rest)) (two : 2 ≤ tokens.length)
    (alone : ∀ t ∈ tokens, isCompound t = false ∧ segmentsOf t = [segmentOf t])
    (round : (next (itemOf current) (singles rest)).1 = singles left)
    (written : (allSegments processed' ++ tokens.map segmentOf).Perm
      (allSegments processed ++ (next (itemOf current) (singles rest)).2)) :
    Follows current rest processed (left ++ [(current.1, joinTokens tokens)]) processed' := by
  have multi := compound_join two
  have segments : segmentsOf (joinTokens tokens) = tokens.map segmentOf := by
    have some_ : tokens ≠ [] := ne_nil_of_length_pos (by omega)
    rw [segmentsOf_join some_ fun t ht => (alone t ht).1, map_eq_flatMap]
    exact flatMap_congr fun t ht => (alone t ht).2
  constructor
  · exact apart_compound multi ((pairwise_cons.mp apart).2.sublist inner)
  · refine forall_mem_append.mpr ⟨fun x hx => readable x (.tail _ (inner.mem hx)),
      forall_mem_singleton.mpr fun single => ?_⟩
    rw [multi] at single
    cases single
  · simp only [length_append, length_singleton]
    omega
  · rw [round]
    simp [singles, multi]
  · rw [compoundSegments_append, compoundSegments_cons_compound multi, segments]
    have front : (allSegments processed' ++ (compoundSegments left ++ (tokens.map segmentOf ++ []))).Perm
        (allSegments processed' ++ tokens.map segmentOf ++ compoundSegments left) := by
      rw [append_nil, append_assoc]
      exact perm_append_comm.append_left _
    refine front.trans ((written.append others).trans ?_)
    rw [append_assoc, append_assoc]
    exact perm_append_comm.append_left _

/-- A chain of subsets that reaches the parent, with what its removal leaves. -/
structure Chain (current : RangeToken) (rest : List RangeToken) (members : List Subset) : Prop where
  sub : members.Subperm (subsetsOf current.1 rest)
  two : 2 ≤ members.length

namespace Chain

variable {members : List Subset}

theorem token (h : Chain current rest members) (readable : Readable (current :: rest)) :
    ∀ m ∈ members, isCompound m.token = false ∧
      parse m.token = .ok (segmentOf m.token) := by
  intro m hm
  obtain ⟨at_, alone, _⟩ := mem_subsetsOf (h.sub.subset hm)
  exact ⟨alone, readable.parse (.tail _ (mem_of_getElem? at_)) alone⟩

theorem fewer (h : Chain current rest members) :
    (removeIndices rest (members.map (·.index))).length < rest.length := by
  have size := (perm_removeIndices h.sub).length_eq
  have := h.two
  simp only [length_append, length_map] at size
  omega

theorem segments (members : List Subset) :
    (members.map (·.token)).map segmentOf = (members.map item).map Prod.snd := by
  rw [map_map, map_map]
  rfl

end Chain

/-- Children that make up the current range, in the three ways they compare with it. -/
theorem chain_refines (processed : List RangeToken) {members : List Subset}
    (h : Chain current rest members)
    (single : isCompound current.2 = false) (apart : Apart (current :: rest))
    (readable : Readable (current :: rest))
    (round : next (itemOf current) (singles rest) =
      nextChain (itemOf current) (singles rest) (members.map item)) :
    ∃ action, actionFor (segmentOf current.2) current.2 current.1 members = .ok action ∧
      Follows current rest processed (action.after current rest processed).1
        (action.after current rest processed).2 := by
  have apartRest := (pairwise_cons.mp apart).2
  obtain ⟨items, others⟩ := singles_removeIndices apartRest h.sub
  have inner := eraseAll_sublist rest (members.map (·.index))
  have tokens := h.token readable
  have alone : ∀ t ∈ members.map (·.token), isCompound t = false ∧ segmentsOf t = [segmentOf t] :=
    forall_mem_map.mpr fun m hm =>
      ⟨(tokens m hm).1, segmentsOf_single (tokens m hm).1 (tokens m hm).2⟩
  rw [actionFor_eq fun m hm => (tokens m hm).2]
  refine ⟨_, rfl, ?_⟩
  rw [nextChain, show (itemOf current).2 = segmentOf current.2 from rfl] at round
  split at round
  · rename_i newer
    rw [if_pos newer]
    dsimp only [MergeAction.after]
    refine follows_joined apart readable inner h.fewer others (by simpa using h.two) alone ?_ ?_
    · rw [round, items]
    · rw [round, Chain.segments]
  · rename_i someOlder
    rw [if_neg someOlder]
    split at round
    · rename_i older
      rw [if_pos older]
      dsimp only [MergeAction.after]
      refine follows_written single apart readable inner others ?_
      rw [round, items]
    · rename_i mixed
      rw [if_neg mixed]
      dsimp only [MergeAction.after]
      refine follows_joined apart readable inner h.fewer others ?_ ?_ ?_ ?_
      · have := h.two
        simp only [length_append, length_map, length_singleton]
        omega
      · exact forall_mem_append.mpr ⟨alone, forall_mem_singleton.mpr
          ⟨single, segmentsOf_readable readable (.head _) single⟩⟩
      · rw [round, items]
      · rw [round, allSegments_append_single processed readable single, map_append,
          Chain.segments, append_assoc]
        refine List.Perm.append_left _ ?_
        have swap : ([segmentOf current.2] ++ (members.map item).map Prod.snd).Perm
            ((members.map item).map Prod.snd ++ [segmentOf current.2]) :=
          perm_append_comm
        simpa using swap.append_right [segmentOf current.2]

/-- One round of the loop is one round of the parsed worklist. -/
theorem round_refines (single : isCompound current.2 = false) (apart : Apart (current :: rest))
    (readable : Readable (current :: rest)) :
    ∃ worklist processed', roundOf current rest processed = .ok (worklist, processed') ∧
      Follows current rest processed worklist processed' := by
  have subs := subsetsOf_item current.1 rest
  have apartRest := (pairwise_cons.mp apart).2
  have pass : next (itemOf current) (singles rest) = (singles rest, [segmentOf current.2]) →
      Follows current rest processed rest (processed ++ [current]) :=
    follows_written single apart readable (.refl rest) (.refl _)
  have childRead : ∀ m ∈ subsetsOf current.1 rest,
      parse m.token = .ok (segmentOf m.token) := by
    intro m hm
    obtain ⟨at_, alone, _⟩ := mem_subsetsOf hm
    exact readable.parse (.tail _ (mem_of_getElem? at_)) alone
  have round := next.eq_1 (itemOf current) (singles rest)
  rw [show (singles rest).filter (fun x => x.1.isSubsetOf (itemOf current).1) = _ from subs.symm]
    at round
  rw [roundOf, if_neg (by simp [single]), readable.parse (.head _) single]
  dsimp only [bind, Except.bind]
  rcases found : subsetsOf current.1 rest with _ | ⟨first, _ | ⟨second, more⟩⟩
  · rw [found] at round
    exact ⟨_, _, rfl, pass round⟩
  · have only : first ∈ subsetsOf current.1 rest := by simp [found]
    have sub : [first].Subperm (subsetsOf current.1 rest) := by rw [found]
    rw [found] at round
    dsimp only
    rw [childRead first only]
    by_cases newer : strictlyNewer (segmentOf current.2) (segmentOf first.token) = true
    · obtain ⟨items, others⟩ := singles_removeIndices apartRest sub
      refine ⟨removeIndices rest ([first].map (·.index)), processed ++ [current], if_pos newer, ?_⟩
      refine follows_written single apart readable (eraseAll_sublist rest _) others ?_
      rw [items]
      exact round.trans (if_pos newer)
    · exact ⟨rest, processed ++ [current], if_neg newer, pass (round.trans (if_neg newer))⟩
  · have permSorted := perm_insertionSort
      (fun a b : Subset => a.range.minInclusive ≤ b.range.minInclusive) (first :: second :: more)
    replace round : next (itemOf current) (singles rest) =
        match firstChain current.1 [] (((first :: second :: more).insertionSort
          fun a b => a.range.minInclusive ≤ b.range.minInclusive).map item) with
        | none => (singles rest, [segmentOf current.2])
        | some members => nextChain (itemOf current) (singles rest) members := by
      rw [map_insertionSort (fun a b => a.range.minInclusive ≤ b.range.minInclusive)
        (fun a b => a.1.minInclusive ≤ b.1.minInclusive) item _ fun _ _ _ _ => Iff.rfl]
      rw [found] at round
      exact round
    dsimp only
    unfold analyzeSubsets
    generalize (first :: second :: more).insertionSort
      (fun a b => a.range.minInclusive ≤ b.range.minInclusive) = sorted at permSorted round ⊢
    rw [← found] at permSorted
    rcases tryStarts_eq current.1 (segmentOf current.2) current.2 sorted [] with
      ⟨missing, run⟩ | ⟨start, added, reached, sub, alone, run⟩
    · rw [run]
      rw [show firstChain _ [] _ = none from missing] at round
      exact ⟨_, _, rfl, pass round⟩
    · have members := sub.trans permSorted.subperm
      have chain : Chain current rest (start :: added) :=
        ⟨members, two_of_apart single apart members alone⟩
      rw [show firstChain _ [] _ = some ((start :: added).map item) from reached] at round
      obtain ⟨action, acted, follows⟩ := chain_refines processed chain single apart readable round
      rw [run, acted]
      exact ⟨_, _, rfl, follows⟩

end Rounds

/-- **The loop computes the parsed worklist**, with the compound tokens besides. -/
theorem mergeSubsetsLoop_refines : ∀ {fuel : Nat} {l processed : List RangeToken},
    l.length ≤ fuel → Apart l → Readable l →
    ∃ out written, mergeSubsetsLoop fuel l processed = .ok out ∧ Settles (singles l) written ∧
      (allSegments out).Perm (allSegments processed ++ compoundSegments l ++ written)
  | fuel, [], processed, _, _, _ => by
    refine ⟨processed, [], ?_, .nil, ?_⟩
    · cases fuel <;> rfl
    · simp [compoundSegments]
  | 0, x :: l, _, enough, _, _ => by simp at enough
  | fuel + 1, current :: rest, processed, enough, apart, readable => by
    have enoughRest : rest.length ≤ fuel := by simpa using enough
    by_cases multi : isCompound current.2 = true
    · obtain ⟨out, written, run, settles, same⟩ := mergeSubsetsLoop_refines enoughRest
        (pairwise_cons.mp apart).2 fun x hx => readable x (.tail _ hx)
      refine ⟨out, written, ?_, ?_, same.trans ?_⟩
      · rw [mergeSubsetsLoop, roundOf, if_pos multi]
        exact run
      · simpa [singles, multi] using settles
      · rw [compoundSegments_cons_compound multi]
        simp [allSegments]
    · have single : isCompound current.2 = false := by simpa using multi
      obtain ⟨worklist, processed', step, follows⟩ := round_refines single apart readable
      obtain ⟨out, written, run, settles, same⟩ := mergeSubsetsLoop_refines
        (follows.shorter.trans enoughRest) follows.apart follows.readable
      refine ⟨out, (next (itemOf current) (singles rest)).2 ++ written, ?_, ?_, same.trans ?_⟩
      · rw [mergeSubsetsLoop, step]
        exact run
      · rw [singles_cons_single single]
        rw [follows.items] at settles
        exact .round settles
      · rw [compoundSegments_cons_single single, ← append_assoc]
        exact follows.written.append_right written

end AzureSdk.Cosmos.Session
