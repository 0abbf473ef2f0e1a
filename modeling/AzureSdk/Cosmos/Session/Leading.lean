/-
# Cosmos.Session.Leading — the tokens of one range

`merge_same_ranges` merges two tokens of a range at a time and scans again, so the
order of the inputs decides the grouping.  The value it ends with does not depend on
it, where the tokens are coherent.  The id does: it changes only to a token that is
strictly newer.  `Leads` says when one id wins in every grouping, `Stands` what
the merged token is then, and `mergeSameRanges_items` describes the phase by them.
-/
import Mathlib.Data.List.InsertIdx
import AzureSdk.Cosmos.Session.Join
import AzureSdk.Cosmos.Session.Worklist

namespace AzureSdk.Cosmos.Session

open Theory List SessionTokenValue Set

def valuesOf (T : Set SessionTokenSegment) : Set SessionTokenValue :=
  {v | ∃ s ∈ T, s.value = v}

theorem valuesOf_mono {A B : Set SessionTokenSegment} (sub : A ⊆ B) : valuesOf A ⊆ valuesOf B :=
  image_mono sub

theorem valuesOf_union (A B : Set SessionTokenSegment) :
    valuesOf (A ∪ B) = valuesOf A ∪ valuesOf B := image_union _ A B

theorem valuesOf_singleton (s : SessionTokenSegment) : valuesOf {s} = {s.value} :=
  image_singleton

theorem valuesOf_list (l : List SessionTokenSegment) :
    valuesOf {s | s ∈ l} = {v | v ∈ l.map (·.value)} := by
  ext v
  simp [valuesOf]

/-! ## The leading id of a range -/

/-- The tokens `Y` of a range all have the id, and each is strictly newer than the merge
of the others. -/
structure Leads (T Y : Set SessionTokenSegment) (id : Text) : Prop where
  among : Y ⊆ T
  some_ : Y.Nonempty
  same : ∀ y ∈ Y, y.pkRangeId = id
  ahead : ∀ y ∈ Y, ∀ m, IsMerge (valuesOf (T \ Y)) m →
    y.value.isAsRecentAs m = true ∧ ¬ m.isAsRecentAs y.value = true

/-- `x` stands for the tokens `A` of a range: their merge, under the leading id as soon as
one of the leading tokens is among them. -/
structure Stands (T A : Set SessionTokenSegment) (x : SessionTokenSegment) : Prop where
  among : A ⊆ T
  merged : IsMerge (valuesOf A) x.value
  id : ∀ {Y j}, Leads T Y j → (A ∩ Y).Nonempty → x.pkRangeId = j

variable {s : SessionTokenSegment} {l : List RangeToken}

theorem Stands.single {T : Set SessionTokenSegment} (mem : s ∈ T) : Stands T {s} s where
  among := singleton_subset_iff.mpr mem
  merged := by
    rw [valuesOf_singleton]
    exact IsMerge.singleton s.value
  id := by
    rintro Y j leads ⟨y, rfl, hy⟩
    exact leads.same y hy

section Leading

variable {T A B Y : Set SessionTokenSegment} {x y : SessionTokenSegment} {j : Text}

variable {tokens : List SessionTokenSegment}

variable (coherent : Coherent (vectors (valuesOf {s | s ∈ tokens})))

include coherent

/-- The tokens that do not lead have a merge, if there are any. -/
theorem rest_merged (sub : B ⊆ {s | s ∈ tokens} \ Y) (some_ : B.Nonempty) :
    ∃ m, IsMerge (valuesOf ({s | s ∈ tokens} \ Y)) m := by
  classical
  have listed : {s | s ∈ tokens} \ Y = {s | s ∈ tokens.filter fun s => s ∉ Y} := by
    ext s
    simp
  obtain ⟨b, hb⟩ := some_
  have mem : b ∈ tokens.filter fun s => s ∉ Y := by
    have := sub hb
    rwa [listed] at this
  rw [listed, valuesOf_list]
  refine IsMerge.exists_of_list (ne_nil_of_mem (mem_map_of_mem mem)) ?_
  rw [← valuesOf_list, ← listed]
  exact coherent.mono fun t ht => valuesOf_mono sdiff_subset ht

/-- A merge with a leading token is strictly ahead of a merge without one. -/
theorem leading_ahead (leads : Leads {s | s ∈ tokens} Y j) (hx : Stands {s | s ∈ tokens} A x)
    (hy : Stands {s | s ∈ tokens} B y) (leading : (A ∩ Y).Nonempty) (trailing : ¬ (B ∩ Y).Nonempty) :
    strictlyNewer x y = true := by
  obtain ⟨z, hzA, hzY⟩ := leading
  have outside : B ⊆ {s | s ∈ tokens} \ Y := fun b hb =>
    ⟨hy.among hb, fun hbY => trailing ⟨b, hb, hbY⟩⟩
  have some_ : B.Nonempty := by
    obtain ⟨v, s, hs, _⟩ := hy.merged.nonempty
    exact ⟨s, hs⟩
  obtain ⟨m, rest⟩ := rest_merged coherent outside some_
  obtain ⟨zm, mz⟩ := leads.ahead z hzY m rest
  have xz : x.value.isAsRecentAs z.value = true := by
    refine hx.merged.mono (IsMerge.singleton z.value) ?_
    rw [← valuesOf_singleton]
    exact valuesOf_mono (singleton_subset_iff.mpr hzA)
  have my : m.isAsRecentAs y.value = true := rest.mono hy.merged (valuesOf_mono outside)
  refine strictlyNewer_iff.mpr ⟨?_, fun yx => mz ?_⟩
  · exact isAsRecentAs_trans xz (isAsRecentAs_trans zm my)
  · exact isAsRecentAs_trans my (isAsRecentAs_trans yx xz)

theorem Stands.merge (hx : Stands {s | s ∈ tokens} A x) (hy : Stands {s | s ∈ tokens} B y) :
    Stands {s | s ∈ tokens} (A ∪ B) (mergeSegmentsSameRange x y) where
  among := union_subset hx.among hy.among
  merged := by
    have value : (mergeSegmentsSameRange x y).value = (x.value.merge y.value).1 := by
      unfold mergeSegmentsSameRange
      split <;> rfl
    rw [value, valuesOf_union]
    refine hx.merged.merge hy.merged (coherent.mono fun t ht => ?_)
    rw [← valuesOf_union] at ht
    exact valuesOf_mono (union_subset hx.among hy.among) ht
  id := by
    intro Y j leads meets
    have id : (mergeSegmentsSameRange x y).pkRangeId =
        if x.pkRangeId ≠ y.pkRangeId ∧ strictlyNewer y x = true then y.pkRangeId
        else x.pkRangeId := by
      unfold mergeSegmentsSameRange
      split <;> rfl
    rw [id]
    by_cases leadingA : (A ∩ Y).Nonempty
    · have own := hx.id leads leadingA
      by_cases leadingB : (B ∩ Y).Nonempty
      · rw [own, hy.id leads leadingB, ite_self]
      · -- the second token has no leading one among it, so it is not newer
        have ahead := (strictlyNewer_iff.mp
          (leading_ahead coherent leads hx hy leadingA leadingB)).1
        rw [if_neg fun both => (strictlyNewer_iff.mp both.2).2 ahead, own]
    · have leadingB : (B ∩ Y).Nonempty := by
        obtain ⟨z, hz | hz, hzY⟩ := meets
        · exact absurd ⟨z, hz, hzY⟩ leadingA
        · exact ⟨z, hz, hzY⟩
      have ahead := leading_ahead coherent leads hy hx leadingB leadingA
      have other := hy.id leads leadingB
      by_cases same : x.pkRangeId = y.pkRangeId
      · rw [if_neg fun both => both.1 same, same, other]
      · rw [if_pos ⟨same, ahead⟩, other]

end Leading

/-! ## Tokens of one range -/

/-- The segments of the tokens without a comma that are given for a range. -/
def tokensAt (l : List RangeToken) (r : FeedRange) : List SessionTokenSegment :=
  ((singles l).filter fun x => x.1 = r).map Prod.snd

theorem mem_tokensAt {r : FeedRange} : s ∈ tokensAt l r ↔ (r, s) ∈ singles l := by
  constructor
  · intro h
    obtain ⟨⟨r', s'⟩, hx, rfl⟩ := mem_map.mp h
    obtain ⟨mem, same⟩ := mem_filter.mp hx
    rw [← of_decide_eq_true same]
    exact mem
  · intro h
    exact mem_map.mpr ⟨(r, s), mem_filter.mpr ⟨h, by simp⟩, rfl⟩

theorem mem_singles {x : Item} :
    x ∈ singles l ↔ ∃ p ∈ l, isCompound p.2 = false ∧ itemOf p = x := by
  simp [singles, and_assoc]

/-- A token of a range and the tokens it stands for. -/
abbrev Group := RangeToken × Set SessionTokenSegment

/-- The tokens of a list that are merged so far, each with the tokens it stands for. -/
structure Grouped (l : List RangeToken) (groups : List Group) :
    Prop where
  readable : Readable (groups.map Prod.fst)
  compounds : (compoundSegments (groups.map Prod.fst)).Perm (compoundSegments l)
  given : ∀ g ∈ groups, isCompound g.1.2 = true → g.1 ∈ l
  sound : ∀ g ∈ groups, isCompound g.1.2 = false →
    Stands {s | s ∈ tokensAt l g.1.1} g.2 (segmentOf g.1.2)
  complete : ∀ {r s}, s ∈ tokensAt l r →
    ∃ g ∈ groups, isCompound g.1.2 = false ∧ g.1.1 = r ∧ s ∈ g.2

section Groups

variable {l : List RangeToken} {groups groups' : List Group}

theorem grouped_start (readable : Readable l) :
    Grouped l (l.map fun x => (x, {segmentOf x.2})) where
  readable := by
    rw [map_map]
    exact (map_id l).symm ▸ readable
  compounds := by
    rw [map_map]
    exact (map_id l).symm ▸ .refl _
  given := forall_mem_map.mpr fun x hx _ => hx
  sound := forall_mem_map.mpr fun x hx single =>
    .single (mem_tokensAt.mpr (mem_singles.mpr ⟨x, hx, single, rfl⟩))
  complete := by
    intro r s hs
    obtain ⟨x, hx, single, same⟩ := mem_singles.mp (mem_tokensAt.mp hs)
    cases same
    exact ⟨_, mem_map_of_mem hx, single, rfl, rfl⟩

theorem Grouped.perm (h : Grouped l groups) (same : groups.Perm groups') : Grouped l groups' where
  readable := fun x hx => h.readable x ((same.map Prod.fst).mem_iff.mpr hx)
  compounds := (compoundSegments_perm (same.map Prod.fst)).symm.trans h.compounds
  given := fun g hg => h.given g (same.mem_iff.mpr hg)
  sound := fun g hg => h.sound g (same.mem_iff.mpr hg)
  complete := fun hs => by
    obtain ⟨g, hg, facts⟩ := h.complete hs
    exact ⟨g, same.mem_iff.mp hg, facts⟩

theorem Grouped.merge {a b : Group} (h : Grouped l (a :: b :: groups))
    (same : sameRange a.1 b.1 = true)
    (coherent : Coherent (vectors (valuesOf {s | s ∈ tokensAt l a.1.1}))) :
    ∃ merged, mergeTokensSameRange a.1.2 b.1.2 = .ok merged ∧
      Grouped l (((a.1.1, merged), a.2 ∪ b.2) :: groups) := by
  obtain ⟨singleA, singleB, range⟩ := sameRange_iff.mp same
  have readA := h.readable.parse (x := a.1) (by simp) singleA
  have readB := h.readable.parse (x := b.1) (by simp) singleB
  have standsA := h.sound a (by simp) singleA
  have standsB := h.sound b (by simp) singleB
  rw [← range] at standsB
  have stands := standsA.merge coherent standsB
  have clean := cleanId_merge singleA readA singleB readB
  have single := not_compound_display clean
  have read := SessionTokenSegment.parse_display clean.colon clean.start
  refine ⟨_, by unfold mergeTokensSameRange; rw [readA, readB]; rfl, ?_, ?_, ?_, ?_, ?_⟩
  · exact forall_mem_cons.mpr ⟨fun _ => ⟨_, read⟩, fun x hx => h.readable x (.tail _ (.tail _ hx))⟩
  · have before := h.compounds
    simp only [map_cons, compoundSegments_cons_single singleA,
      compoundSegments_cons_single singleB] at before
    rw [map_cons, compoundSegments_cons_single single]
    exact before
  · refine forall_mem_cons.mpr ⟨fun multi => ?_, fun g hg => h.given g (.tail _ (.tail _ hg))⟩
    rw [single] at multi
    cases multi
  · refine forall_mem_cons.mpr ⟨fun _ => ?_, fun g hg => h.sound g (.tail _ (.tail _ hg))⟩
    rw [segmentOf_eq read]
    exact stands
  · intro r s hs
    obtain ⟨g, hg, alone, at_, mem⟩ := h.complete hs
    rcases mem_cons.mp hg with rfl | hg
    · exact ⟨_, .head _, single, at_, .inl mem⟩
    rcases mem_cons.mp hg with rfl | hg
    · exact ⟨_, .head _, single, range.trans at_, .inr mem⟩
    · exact ⟨g, .tail _ hg, alone, at_, mem⟩

/-- The first phase merges the tokens of every range. -/
theorem mergeSameRangesLoop_grouped
    (coherent : ∀ r, Coherent (vectors (valuesOf {s | s ∈ tokensAt l r}))) :
    ∀ {fuel : Nat} {groups : List Group}, groups.length ≤ fuel → Grouped l groups →
    ∃ groups' : List Group, mergeSameRangesLoop fuel (groups.map Prod.fst) =
        .ok (groups'.map Prod.fst) ∧ Apart (groups'.map Prod.fst) ∧ Grouped l groups'
  | 0, groups, enough, h => by
    cases length_eq_zero_iff.mp (Nat.le_zero.mp enough)
    exact ⟨[], rfl, .nil, h⟩
  | fuel + 1, groups, enough, h => by
    cases found : nextPair (groups.map Prod.fst) with
    | none =>
      refine ⟨groups, ?_, nextPair_none found, h⟩
      rw [mergeSameRangesLoop, found]
    | some pair =>
      obtain ⟨i, j⟩ := pair
      obtain ⟨below, _, _, hi, hj, same⟩ := nextPair_some found
      rw [getElem?_map] at hi hj
      obtain ⟨a, ha, rfl⟩ := Option.map_eq_some_iff.mp hi
      obtain ⟨b, hb, rfl⟩ := Option.map_eq_some_iff.mp hj
      have split := Erase.perm_erase_pair below ha hb
      obtain ⟨merged, done, grouped⟩ := (h.perm split).merge same (coherent a.1.1)
      let following : List Group :=
        (groups.eraseIdx j).eraseIdx i ++ [((a.1.1, merged), a.2 ∪ b.2)]
      have shorter : following.length ≤ fuel := by
        have size := split.length_eq
        simp only [following, length_cons, length_append, length_nil] at size ⊢
        omega
      obtain ⟨groups', run, apart, grouped'⟩ := mergeSameRangesLoop_grouped coherent shorter
        (grouped.perm (perm_append_singleton _ _).symm)
      refine ⟨groups', ?_, apart, grouped'⟩
      rw [← run, mergeSameRangesLoop, found]
      simp only [getElem?_map, ha, hb, Option.map_some, done, following, map_append,
        eraseIdx_map, bind, Except.bind]
      rfl

theorem Stands.unique {T : Set SessionTokenSegment} {x y : SessionTokenSegment}
    (hx : Stands T T x) (hy : Stands T T y) (led : ∃ Y j, Leads T Y j) : x = y := by
  obtain ⟨Y, j, leads⟩ := led
  have meets : (T ∩ Y).Nonempty := by
    obtain ⟨z, hz⟩ := leads.some_
    exact ⟨z, leads.among hz, hz⟩
  have id : x.pkRangeId = y.pkRangeId := (hx.id leads meets).trans (hy.id leads meets).symm
  have value := hx.merged.unique hy.merged
  cases x
  simp_all

theorem mergeSameRanges_items (readable : Readable l)
    (coherent : ∀ r, Coherent (vectors (valuesOf {s | s ∈ tokensAt l r})))
    (led : ∀ r, tokensAt l r ≠ [] → ∃ Y j, Leads {s | s ∈ tokensAt l r} Y j) :
    ∃ out, mergeSameRanges l = .ok out ∧ Apart out ∧ Readable out ∧
      (compoundSegments out).Perm (compoundSegments l) ∧
      (∀ x ∈ out, isCompound x.2 = true → x ∈ l) ∧
      ∀ r c, (r, c) ∈ singles out ↔ tokensAt l r ≠ [] ∧
        Stands {s | s ∈ tokensAt l r} {s | s ∈ tokensAt l r} c := by
  have enough : (l.map fun x => ((x, {segmentOf x.2}) : Group)).length ≤ l.length := by simp
  obtain ⟨groups, run, apart, grouped⟩ :=
    mergeSameRangesLoop_grouped coherent enough (grouped_start readable)
  rw [map_map, show (Prod.fst ∘ fun x : RangeToken => ((x, {segmentOf x.2}) : Group)) = id from rfl,
    map_id] at run
  -- of the merged tokens one stands for a range, with all tokens of it
  have whole : ∀ g ∈ groups, isCompound g.1.2 = false →
      Stands {s | s ∈ tokensAt l g.1.1} {s | s ∈ tokensAt l g.1.1} (segmentOf g.1.2) := by
    intro g hg single
    have stands := grouped.sound g hg single
    have all : g.2 = {s | s ∈ tokensAt l g.1.1} := by
      refine Set.Subset.antisymm stands.among fun s hs => ?_
      obtain ⟨g', hg', single', at_, mem⟩ := grouped.complete hs
      have symm : Std.Symm fun a b : Group => sameRange a.1 b.1 = false :=
        ⟨fun a b h => (sameRange_comm b.1 a.1).trans h⟩
      by_cases same : g' = g
      · rw [← same]
        exact mem
      · have other := (pairwise_map.mp apart).forall hg' hg same
        rw [sameRange_iff.mpr ⟨single', single, at_⟩] at other
        cases other
    rwa [all] at stands
  have some_ : ∀ {r c}, Stands {s | s ∈ tokensAt l r} {s | s ∈ tokensAt l r} c → tokensAt l r ≠ [] := by
    intro r c stands
    obtain ⟨_, s, hs, _⟩ := stands.merged.nonempty
    exact ne_nil_of_mem hs
  refine ⟨_, run, apart, grouped.readable, grouped.compounds, fun x hx multi => ?_,
    fun r c => ⟨fun mem => ?_, ?_⟩⟩
  · obtain ⟨g, hg, rfl⟩ := mem_map.mp hx
    exact grouped.given g hg multi
  · obtain ⟨p, hp, single, same⟩ := mem_singles.mp mem
    obtain ⟨g, hg, rfl⟩ := mem_map.mp hp
    cases same
    exact ⟨some_ (whole g hg single), whole g hg single⟩
  · rintro ⟨filled, stands⟩
    obtain ⟨s, hs⟩ := exists_mem_of_ne_nil _ filled
    obtain ⟨g, hg, single, rfl, _⟩ := grouped.complete hs
    have same := stands.unique (whole g hg single) (led g.1.1 filled)
    exact mem_singles.mpr ⟨g.1, mem_map_of_mem hg, single, by rw [same]; rfl⟩

end Groups

end AzureSdk.Cosmos.Session
