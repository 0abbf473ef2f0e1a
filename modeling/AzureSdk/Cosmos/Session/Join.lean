/-
# Cosmos.Session.Join — merging a set of session tokens

What it means for a token to be the merge of a set of tokens, without an order in
which they are merged: the newest version wins, with the greatest LSN of that
version, and names the regions that version names, each with the greatest progress
any of the tokens recorded for it (`VectorMerge`).  There is at most one such token.

`merge` computes it from two merges only if no progress is lost on the way.  A
region can be lost for good when a newer token does not name it and a still newer
one does; `Coherent` asks that such a region has come at least as far again.  Then
merging in any order and in any grouping gives the merge of the set
(`IsMerge.merge`), and merges are coherent with each other again.
-/
import Mathlib.Order.Bounds.Basic
import AzureSdk.Cosmos.Session.Token

namespace AzureSdk.Cosmos.Session

open Theory VectorSessionToken SessionTokenValue Set

namespace VectorSessionToken

def progress (t : VectorSessionToken) (r : U64) : Option RegionLsn := t.regionProgress[r]?

theorem progress_raise (x y : VectorSessionToken) (version globalLsn r : U64) :
    progress ⟨version, globalLsn, raiseRegions x.regionProgress y.regionProgress⟩ r =
      (x.progress r).map fun lsn => match y.progress r with
        | some lower => max lsn lower
        | none => lsn :=
  getElem?_raiseRegions _ _ r

theorem progress_join (x y : VectorSessionToken) (version globalLsn r : U64) :
    progress ⟨version, globalLsn, joinRegions x.regionProgress y.regionProgress⟩ r =
      joinLsn (x.progress r) (y.progress r) :=
  getElem?_joinRegions _ _ r

theorem ext_progress {v w : VectorSessionToken} (version : v.version = w.version)
    (globalLsn : v.globalLsn = w.globalLsn) (regions : ∀ r, v.progress r = w.progress r) : v = w := by
  have same : v.regionProgress = w.regionProgress := Std.ExtTreeMap.ext_getElem? regions
  cases v
  simp_all

end VectorSessionToken

/-- `v` is the merge of the vector tokens `S`. -/
structure VectorMerge (S : Set VectorSessionToken) (v : VectorSessionToken) : Prop where
  version_le : ∀ t ∈ S, t.version ≤ v.version
  globalLsn : IsGreatest {g | ∃ t ∈ S, t.version = v.version ∧ t.globalLsn = g} v.globalLsn
  named : ∀ r, (v.progress r).isSome ↔ ∃ t ∈ S, t.version = v.version ∧ (t.progress r).isSome
  greatest : ∀ {r lsn}, v.progress r = some lsn →
    IsGreatest {l | ∃ t ∈ S, t.progress r = some l} lsn

/-- A region that a newer token does not name and a still newer one names again has come
at least as far again. -/
def Coherent (S : Set VectorSessionToken) : Prop :=
  ∀ a ∈ S, ∀ b ∈ S, ∀ c ∈ S, a.version < b.version → b.version ≤ c.version →
    ∀ r x z, a.progress r = some x → b.progress r = none → c.progress r = some z → x ≤ z

theorem Coherent.mono {S T : Set VectorSessionToken} (sub : S ⊆ T) (h : Coherent T) : Coherent S :=
  fun a ha b hb c hc => h a (sub ha) b (sub hb) c (sub hc)

namespace VectorMerge

variable {S A B : Set VectorSessionToken} {v w x y : VectorSessionToken}

theorem newest (h : VectorMerge S v) : ∃ t ∈ S, t.version = v.version := by
  obtain ⟨t, ht, version, _⟩ := h.globalLsn.1
  exact ⟨t, ht, version⟩

theorem unique (hv : VectorMerge S v) (hw : VectorMerge S w) : v = w := by
  have version : v.version = w.version := by
    obtain ⟨t, ht, tv⟩ := hv.newest
    obtain ⟨u, hu, uw⟩ := hw.newest
    exact le_antisymm (tv ▸ hw.version_le t ht) (uw ▸ hv.version_le u hu)
  refine ext_progress version ?_ fun r => ?_
  · exact hv.globalLsn.unique (version ▸ hw.globalLsn)
  · cases known : v.progress r with
    | none =>
      cases other : w.progress r with
      | none => rfl
      | some lsn =>
        have := (hv.named r).mpr (version ▸ (hw.named r).mp (by simp [other]))
        simp [known] at this
    | some lsn =>
      obtain ⟨lsn', other⟩ := Option.isSome_iff_exists.mp
        ((hw.named r).mpr (version ▸ (hv.named r).mp (by simp [known])))
      rw [other, (hv.greatest known).unique (hw.greatest other)]

theorem singleton (v : VectorSessionToken) : VectorMerge {v} v where
  version_le := fun t ht => by rw [ht]
  globalLsn := ⟨⟨v, rfl, rfl, rfl⟩, by rintro g ⟨t, rfl, _, rfl⟩; exact le_refl _⟩
  named := fun r => ⟨fun h => ⟨v, rfl, rfl, h⟩, by rintro ⟨t, rfl, _, h⟩; exact h⟩
  greatest := fun {r lsn} known => ⟨⟨v, rfl, known⟩, by
    rintro l ⟨t, rfl, other⟩
    rw [known, Option.some.injEq] at other
    exact other.ge⟩

variable {l lsn : RegionLsn} {r : U64}

/-- The merge has come as far as every token, in the regions it names. -/
theorem progress_le (h : VectorMerge S v) {t : VectorSessionToken} (ht : t ∈ S)
    (there : t.progress r = some l) (here : v.progress r = some lsn) : l ≤ lsn :=
  (h.greatest here).2 ⟨t, ht, there⟩

/-- In a coherent set, progress that a merge of some tokens has dropped is made up for by
every later token that names the region. -/
theorem dropped_le (h : VectorMerge A x) (sub : A ⊆ S) (coherent : Coherent S)
    {a c : VectorSessionToken} (ha : a ∈ A) (hc : c ∈ S) {z : RegionLsn}
    (there : a.progress r = some l) (dropped : x.progress r = none)
    (later : x.version ≤ c.version) (again : c.progress r = some z) : l ≤ z := by
  obtain ⟨b, hb, newest⟩ := h.newest
  have absent : ∀ t ∈ A, t.version = x.version → t.progress r = none := by
    intro t ht version
    rw [← Option.not_isSome_iff_eq_none]
    intro named
    have := (h.named r).mpr ⟨t, ht, version, named⟩
    simp [dropped] at this
  have older : a.version < b.version := by
    refine lt_of_le_of_ne (newest ▸ h.version_le a ha) fun same => ?_
    rw [absent a ha (same.trans newest)] at there
    cases there
  exact coherent a (sub ha) b (sub hb) c hc older (newest ▸ later) r l z there
    (absent b hb newest) again

/-- A token that is named at the merged version, with its progress. -/
theorem named_at (h : VectorMerge S v) (known : v.progress r = some lsn) :
    ∃ c ∈ S, c.version = v.version ∧ ∃ z, c.progress r = some z ∧ z ≤ lsn := by
  obtain ⟨c, hc, version, named⟩ := (h.named r).mp (by simp [known])
  obtain ⟨z, there⟩ := Option.isSome_iff_exists.mp named
  exact ⟨c, hc, version, z, there, h.progress_le hc there known⟩

theorem setOf_union {α : Type} {p : VectorSessionToken → α → Prop} :
    {l | ∃ t ∈ A ∪ B, p t l} = {l | ∃ t ∈ A, p t l} ∪ {l | ∃ t ∈ B, p t l} := by
  ext l
  simp [or_and_right, exists_or]

variable {r : U64} {top low : RegionLsn}

section

variable (hx : VectorMerge A x)

include hx

theorem greatest_left (hy : VectorMerge B y) (coherent : Coherent (A ∪ B))
    (older : y.version ≤ x.version) (here : x.progress r = some top)
    (dropped : y.progress r = none) : IsGreatest {l | ∃ t ∈ A ∪ B, t.progress r = some l} top := by
  obtain ⟨s, hs, attained⟩ := (hx.greatest here).1
  obtain ⟨c, hc, version, z, again, zTop⟩ := hx.named_at here
  refine ⟨⟨s, .inl hs, attained⟩, ?_⟩
  rintro l ⟨t, ht | ht, other⟩
  · exact hx.progress_le ht other here
  · exact (hy.dropped_le subset_union_right coherent ht (.inl hc) other dropped
      (version ▸ older) again).trans zTop

theorem greatest_both (hy : VectorMerge B y) (here : x.progress r = some top)
    (there : y.progress r = some low) :
    IsGreatest {l | ∃ t ∈ A ∪ B, t.progress r = some l} (max top low) := by
  rw [setOf_union]
  exact (hx.greatest here).union (hy.greatest there)

/-- Merging a merge of older versions raises regions only. -/
theorem raise (hy : VectorMerge B y) (coherent : Coherent (A ∪ B)) (older : y.version < x.version) :
    VectorMerge (A ∪ B) ⟨x.version, x.globalLsn,
      raiseRegions x.regionProgress y.regionProgress⟩ := by
  have behind : ∀ t ∈ B, t.version ≠ x.version := fun t ht same =>
    absurd (same ▸ hy.version_le t ht) older.not_ge
  have kept : ∀ p : VectorSessionToken → Prop,
      (∃ t ∈ A ∪ B, t.version = x.version ∧ p t) ↔ ∃ t ∈ A, t.version = x.version ∧ p t :=
    fun p => ⟨fun ⟨t, ht, facts⟩ => ⟨t, ht.resolve_right fun h => behind t h facts.1, facts⟩,
      fun ⟨t, ht, facts⟩ => ⟨t, .inl ht, facts⟩⟩
  refine ⟨fun t ht => ?_, ?_, fun r => ?_, fun {r lsn} known => ?_⟩
  · exact ht.elim (hx.version_le t) fun h => (hy.version_le t h).trans older.le
  · simpa only [kept] using hx.globalLsn
  · rw [kept, ← hx.named r, progress_raise, Option.isSome_map]
  · rw [progress_raise] at known
    cases here : x.progress r with
    | none => simp [here] at known
    | some top =>
      cases there : y.progress r with
      | none =>
        simp only [here, there, Option.map_some, Option.some.injEq] at known
        exact known ▸ hx.greatest_left hy coherent older.le here there
      | some low =>
        simp only [here, there, Option.map_some, Option.some.injEq] at known
        exact known ▸ hx.greatest_both hy here there

theorem join (hy : VectorMerge B y) (coherent : Coherent (A ∪ B)) (same : x.version = y.version) :
    VectorMerge (A ∪ B) ⟨x.version, max x.globalLsn y.globalLsn,
      joinRegions x.regionProgress y.regionProgress⟩ := by
  refine ⟨fun t ht => ?_, ?_, fun r => ?_, fun {r lsn} known => ?_⟩
  · exact ht.elim (hx.version_le t) fun h => same ▸ hy.version_le t h
  · rw [setOf_union]
    exact hx.globalLsn.union (same ▸ hy.globalLsn)
  · have either : (joinLsn (x.progress r) (y.progress r)).isSome ↔
        (x.progress r).isSome ∨ (y.progress r).isSome := by
      cases x.progress r <;> cases y.progress r <;> simp [joinLsn]
    rw [progress_join, either, hx.named r, hy.named r, same]
    simp [or_and_right, exists_or]
  · rw [progress_join] at known
    cases here : x.progress r with
    | none =>
      rw [here] at known
      rw [union_comm] at coherent ⊢
      exact hy.greatest_left hx coherent same.le known here
    | some top =>
      cases there : y.progress r with
      | none =>
        rw [here, there] at known
        cases known
        exact hx.greatest_left hy coherent same.ge here there
      | some low =>
        rw [here, there] at known
        cases known
        exact hx.greatest_both hy here there

theorem merge (hy : VectorMerge B y) (coherent : Coherent (A ∪ B)) :
    VectorMerge (A ∪ B) (x.merge y).1 := by
  rcases lt_trichotomy x.version y.version with newer | same | older
  · rw [merge_of_lt newer, union_comm]
    exact hy.raise hx (union_comm A B ▸ coherent) newer
  · rw [merge_of_eq same]
    exact hx.join hy coherent same
  · rw [merge_of_gt older]
    exact hx.raise hy coherent older

end

theorem coherent (all : Coherent S) :
    Coherent {v | ∃ A ⊆ S, VectorMerge A v} := by
  rintro a ⟨A, subA, ha⟩ b ⟨B, subB, hb⟩ c ⟨C, subC, hc⟩ ab bc r x z here dropped again
  obtain ⟨s, hs, attained⟩ := (ha.greatest here).1
  obtain ⟨t, ht, newest⟩ := hb.newest
  obtain ⟨u, hu, version, low, there, lowTop⟩ := hc.named_at again
  have absent : t.progress r = none := by
    rw [← Option.not_isSome_iff_eq_none]
    intro named
    have := (hb.named r).mpr ⟨t, ht, newest, named⟩
    simp [dropped] at this
  have older : s.version < t.version := newest ▸ (ha.version_le s hs).trans_lt ab
  exact (all s (subA hs) t (subB ht) u (subC hu) older (newest ▸ version ▸ bc) r x low attained
    absent there).trans lowTop

end VectorMerge

/-! ## Bare LSNs and vectors together -/

def vectors (S : Set SessionTokenValue) : Set VectorSessionToken := {t | .vector t ∈ S}

/-- The token is the merge of the set: of its vectors, or of bare LSNs if it has none. -/
inductive IsMerge (S : Set SessionTokenValue) : SessionTokenValue → Prop
  | simple {lsn : U64} (bare : ∀ t, .vector t ∉ S)
    (greatest : IsGreatest {n | simple n ∈ S} lsn) : IsMerge S (.simple lsn)
  | vector {v : VectorSessionToken} (merged : VectorMerge (vectors S) v) : IsMerge S (.vector v)

/-- The merge of the answers in the order of their arrival. -/
def SessionTokenValue.mergeAll (first : SessionTokenValue) (rest : List SessionTokenValue) :
    SessionTokenValue :=
  rest.foldl (fun merged v => (merged.merge v).1) first

namespace IsMerge

variable {S A B : Set SessionTokenValue} {x y : SessionTokenValue}

theorem unique (hx : IsMerge S x) (hy : IsMerge S y) : x = y := by
  cases hx with
  | simple bare greatest =>
    cases hy with
    | simple _ greatest' => rw [greatest.unique greatest']
    | vector merged =>
      obtain ⟨t, ht, _⟩ := merged.newest
      exact absurd ht (bare t)
  | vector merged =>
    cases hy with
    | simple bare _ =>
      obtain ⟨t, ht, _⟩ := merged.newest
      exact absurd ht (bare t)
    | vector merged' => rw [merged.unique merged']

theorem nonempty (h : IsMerge S x) : S.Nonempty := by
  cases h with
  | simple _ greatest => exact ⟨_, greatest.1⟩
  | vector merged =>
    obtain ⟨t, ht, _⟩ := merged.newest
    exact ⟨_, ht⟩

theorem singleton (x : SessionTokenValue) : IsMerge {x} x := by
  cases x with
  | simple lsn =>
    refine .simple (fun t ht => by cases ht) ⟨rfl, fun n hn => ?_⟩
    cases hn
    exact le_refl _
  | vector v =>
    have only : vectors {.vector v} = {v} := by
      ext t
      simp [vectors]
    exact .vector (only ▸ VectorMerge.singleton v)

theorem vectors_union (A B : Set SessionTokenValue) : vectors (A ∪ B) = vectors A ∪ vectors B := rfl

theorem vectors_eq_empty (bare : ∀ t, .vector t ∉ A) : vectors A = ∅ :=
  eq_empty_of_forall_notMem bare

theorem merge (hx : IsMerge A x) (hy : IsMerge B y) (coherent : Coherent (vectors (A ∪ B))) :
    IsMerge (A ∪ B) (x.merge y).1 := by
  cases hx with
  | @simple m bareA greatestA =>
    cases hy with
    | @simple n bareB greatestB =>
      have most : (SessionTokenValue.merge (.simple m) (.simple n)).1 = .simple (max m n) := by
        by_cases behind : m < n
        · simp [SessionTokenValue.merge, behind, max_eq_right behind.le]
        · simp [SessionTokenValue.merge, behind, max_eq_left (not_lt.mp behind)]
      rw [most]
      refine .simple (fun t ht => ht.elim (bareA t) (bareB t)) ?_
      exact greatestA.union greatestB
    | vector merged =>
      refine .vector ?_
      rw [vectors_union, vectors_eq_empty bareA, empty_union]
      exact merged
  | vector mergedA =>
    cases hy with
    | simple bareB _ =>
      refine .vector ?_
      rw [vectors_union, vectors_eq_empty bareB, union_empty]
      exact mergedA
    | vector mergedB => exact .vector (mergedA.merge mergedB coherent)

theorem coherent (all : Coherent (vectors S)) :
    Coherent (vectors {v | ∃ A ⊆ S, IsMerge A v}) := by
  refine (VectorMerge.coherent all).mono ?_
  rintro v ⟨A, sub, merged⟩
  cases merged with
  | vector merged => exact ⟨vectors A, fun t ht => sub ht, merged⟩

theorem mono (hx : IsMerge A x) (hy : IsMerge B y) (sub : B ⊆ A) : x.isAsRecentAs y = true := by
  cases hx with
  | simple bareA greatestA =>
    cases hy with
    | simple _ greatestB => exact decide_eq_true (greatestA.2 (sub greatestB.1))
    | vector merged =>
      obtain ⟨t, ht, _⟩ := merged.newest
      exact absurd (sub ht) (bareA t)
  | @vector v mergedA =>
    cases hy with
    | simple => rfl
    | @vector w mergedB =>
      refine isAsRecentAs_iff.mpr ?_
      obtain ⟨t, ht, newest⟩ := mergedB.newest
      rcases (newest ▸ mergedA.version_le t (sub ht)).lt_or_eq with older | same
      · exact .inl older
      refine .inr ⟨same.symm, ?_, fun r lsn known => ?_⟩
      · obtain ⟨u, hu, version, global⟩ := mergedB.globalLsn.1
        exact mergedA.globalLsn.2 ⟨u, sub hu, version.trans same, global⟩
      · obtain ⟨c, hc, version, z, there, _⟩ := mergedB.named_at known
        obtain ⟨top, here⟩ := Option.isSome_iff_exists.mp ((mergedA.named r).mpr
          ⟨c, sub hc, version.trans same, by simp [there]⟩)
        obtain ⟨s, hs, attained⟩ := (mergedB.greatest known).1
        exact ⟨top, here, mergedA.progress_le (sub hs) attained here⟩

theorem mergeAll : ∀ {l : List SessionTokenValue} {A : Set SessionTokenValue} {x : SessionTokenValue},
    IsMerge A x → Coherent (vectors (A ∪ {v | v ∈ l})) →
    IsMerge (A ∪ {v | v ∈ l}) (SessionTokenValue.mergeAll x l)
  | [], A, x, hx, _ => by simpa [SessionTokenValue.mergeAll] using hx
  | y :: l, A, x, hx, all => by
    have split : A ∪ {v | v ∈ y :: l} = A ∪ {y} ∪ {v | v ∈ l} := by
      ext v
      simp only [mem_union, mem_ofPred_eq, List.mem_cons, mem_singleton_iff, or_assoc]
    rw [split] at all ⊢
    exact mergeAll (hx.merge (singleton y) (all.mono fun t ht => .inl ht)) all

theorem of_list {x : SessionTokenValue} {l : List SessionTokenValue}
    (all : Coherent (vectors {v | v ∈ x :: l})) :
    IsMerge {v | v ∈ x :: l} (SessionTokenValue.mergeAll x l) := by
  have split : {v | v ∈ x :: l} = {x} ∪ {v | v ∈ l} := by
    ext v
    simp
  rw [split] at all ⊢
  exact mergeAll (singleton x) all

theorem exists_of_list : ∀ {l : List SessionTokenValue}, l ≠ [] → Coherent (vectors {v | v ∈ l}) →
    ∃ m, IsMerge {v | v ∈ l} m
  | [], some_, _ => absurd rfl some_
  | _ :: _, _, all => ⟨_, of_list all⟩

end IsMerge

/-- Coherent answers merge to the same token in every order of arrival. -/
theorem merge_of_answers_ignores_order {x y : SessionTokenValue} {l l' : List SessionTokenValue}
    (perm : (x :: l).Perm (y :: l')) (coherent : Coherent (vectors {v | v ∈ x :: l})) :
    mergeAll x l = mergeAll y l' := by
  have same : {v | v ∈ x :: l} = {v | v ∈ y :: l'} := Set.ext fun v => perm.mem_iff
  have there : IsMerge {v | v ∈ y :: l'} (mergeAll y l') :=
    .of_list (same ▸ coherent)
  exact (IsMerge.of_list coherent).unique (same ▸ there)

/-- A vector that names one region. -/
def inRegion (version globalLsn region : U64) (lsn : Fin (2 ^ 63)) : SessionTokenValue :=
  .vector ⟨version, globalLsn, (∅ : HashMap U64 RegionLsn).insert region lsn⟩

/-- A region that version 2 drops and version 3 names again, ahead of version 1. -/
theorem three_versions_ignore_order :
    mergeAll (inRegion 1 1 1 5) [.vector ⟨2, 1, ∅⟩, inRegion 3 1 1 10] =
      mergeAll (inRegion 3 1 1 10) [inRegion 1 1 1 5, .vector ⟨2, 1, ∅⟩] := by
  refine merge_of_answers_ignores_order (List.perm_append_singleton _ [_, _]) ?_
  intro a ha b hb c hc older le r x z named missing again
  simp only [vectors, inRegion, List.mem_cons, List.not_mem_nil, or_false, mem_ofPred_eq,
    SessionTokenValue.vector.injEq] at ha hb hc
  rcases ha with rfl | rfl | rfl
  · rcases hc with rfl | rfl | rfl
    · exact absurd (older.trans_le le) (lt_irrefl _)
    · simp [VectorSessionToken.progress] at again
    · by_cases one : r = 1
      · subst one
        simp [VectorSessionToken.progress] at named again
        subst named again
        decide
      · simp [VectorSessionToken.progress, Ne.symm one] at named
  · simp [VectorSessionToken.progress] at named
  · -- nothing is newer
    rcases hb with rfl | rfl | rfl <;> exact absurd older (by decide)

/-- A region that version 2 drops and version 3 names again behind version 1. -/
theorem named_again_depends_on_order :
    let dropped : SessionTokenValue := .vector ⟨2, 1, ∅⟩
    mergeAll (inRegion 1 1 1 10) [dropped, inRegion 3 1 1 5] = inRegion 3 1 1 5 ∧
      mergeAll (inRegion 1 1 1 10) [inRegion 3 1 1 5, dropped] =
        inRegion 3 1 1 10 := by
  decide +kernel

end AzureSdk.Cosmos.Session
