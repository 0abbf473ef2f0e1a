/-
# Theory.Interval — ownership ledgers over a linear preorder

A *span* is a half-open interval `[lo, hi)` of keys.  Keys carry a linear
preorder only: two keys may be equivalent without being equal, so nothing here
rewrites one bound by another.  A *ledger* is a list of spans with a payload, and
`ownersAt ledger e` lists the payloads of the spans that hold `e`, in order.

`ownersAt` is the algebra everything else is stated in.  It is a list
homomorphism (`ownersAt_append`, `ownersAt_flatMap`), it has at most one element
on an ascending ledger (`ownersAt_length_le_one`), and cutting along a tiling
does not change it (`flatMap_tiles`).  Two interval routines are specified by it:
`Sweep`, which rebuilds an interval from saved spans and fills the gaps between
them, and `coverWalk`, which tests that spans cover an interval end to end.
-/
import Mathlib.Order.Defs.LinearOrder
import Mathlib.Data.List.Sort
import Mathlib.Data.List.Pairwise

namespace AzureSdk.Theory.Interval

set_option linter.unusedSectionVars false

open List Std

/-- The half-open interval `[lo, hi)`. -/
structure Span (α : Type) where
  lo : α
  hi : α

section Spans

variable {α : Type} [LE α] [LT α]

def Span.Has (s : Span α) (e : α) : Prop := s.lo ≤ e ∧ e < s.hi

/-- `s` ends at or before the start of `t`. -/
def Span.Before (s t : Span α) : Prop := s.hi ≤ t.lo

def Span.Within (s t : Span α) : Prop := t.lo ≤ s.lo ∧ s.hi ≤ t.hi

attribute [grind =] Span.Has Span.Before Span.Within

instance [DecidableLE α] [DecidableLT α] (s : Span α) (e : α) : Decidable (s.Has e) :=
  inferInstanceAs (Decidable (_ ∧ _))

instance [DecidableLE α] (s t : Span α) : Decidable (s.Before t) :=
  inferInstanceAs (Decidable (_ ≤ _))

end Spans

/-- Spans with a payload. -/
abbrev Ledger (α β : Type) := List (Span α × β)

section Ledgers

variable {α β γ : Type} [LE α] [LT α] [DecidableLE α] [DecidableLT α]

/-- The payloads of the spans that hold `e`, in ledger order. -/
def ownersAt (l : Ledger α β) (e : α) : List β :=
  l.filterMap fun p => if p.1.Has e then some p.2 else none

/-- Spans in order, none reaching into a later one. -/
def Ascending (l : Ledger α β) : Prop := l.Pairwise fun p q => p.1.Before q.1

def Owned (l : Ledger α β) (e : α) : Prop := ∃ p ∈ l, p.1.Has e

@[simp] theorem ownersAt_nil (e : α) : ownersAt ([] : Ledger α β) e = [] := rfl

theorem ownersAt_cons (p : Span α × β) (l : Ledger α β) (e : α) :
    ownersAt (p :: l) e = if p.1.Has e then p.2 :: ownersAt l e else ownersAt l e := by
  unfold ownersAt
  by_cases h : p.1.Has e <;> simp [h]

@[simp] theorem ownersAt_append (l r : Ledger α β) (e : α) :
    ownersAt (l ++ r) e = ownersAt l e ++ ownersAt r e := by
  simp [ownersAt]

theorem ownersAt_flatMap (xs : List γ) (f : γ → Ledger α β) (e : α) :
    ownersAt (xs.flatMap f) e = xs.flatMap fun x => ownersAt (f x) e := by
  induction xs with
  | nil => rfl
  | cons x xs ih => simp [ih]

theorem ownersAt_map (xs : List γ) (g : γ → Span α × β) (e : α) :
    ownersAt (xs.map g) e = xs.flatMap fun x => if (g x).1.Has e then [(g x).2] else [] := by
  induction xs with
  | nil => rfl
  | cons x xs ih =>
    rw [map_cons, ownersAt_cons, ih, flatMap_cons]
    by_cases h : (g x).1.Has e <;> simp [h]

variable {e : α} {l : Ledger α β}

theorem ownersAt_eq_nil : ownersAt l e = [] ↔ ¬ Owned l e := by
  induction l with
  | nil => simp [Owned]
  | cons p l ih =>
    rw [ownersAt_cons]
    by_cases h : p.1.Has e
    · simp [h, Owned]
    · simpa [h, Owned] using ih

theorem mem_ownersAt {b : β} : b ∈ ownersAt l e ↔ ∃ p ∈ l, p.1.Has e ∧ p.2 = b := by
  unfold ownersAt
  rw [mem_filterMap]
  refine exists_congr fun p => and_congr_right fun _ => ?_
  by_cases h : p.1.Has e <;> simp [h]

theorem owned_append {r : Ledger α β} : Owned (l ++ r) e ↔ Owned l e ∨ Owned r e := by
  simp [Owned, or_and_right, exists_or]

theorem owned_cons {p : Span α × β} : Owned (p :: l) e ↔ p.1.Has e ∨ Owned l e := by
  simp [Owned]

theorem ascending_cons {p : Span α × β} :
    Ascending (p :: l) ↔ (∀ q ∈ l, p.1.Before q.1) ∧ Ascending l :=
  pairwise_cons

theorem ascending_append {r : Ledger α β} : Ascending (l ++ r) ↔
      Ascending l ∧ Ascending r ∧ ∀ p ∈ l, ∀ q ∈ r, p.1.Before q.1 :=
  pairwise_append

end Ledgers

theorem pairwise_getElem? {γ : Type} {R : γ → γ → Prop} {xs : List γ} (pairs : xs.Pairwise R)
    {i j : Nat} {x y : γ} (lt : i < j) (hx : xs[i]? = some x) (hy : xs[j]? = some y) : R x y := by
  obtain ⟨hi, rfl⟩ := List.getElem?_eq_some_iff.mp hx
  obtain ⟨hj, rfl⟩ := List.getElem?_eq_some_iff.mp hy
  exact pairwise_iff_getElem.mp pairs i j hi hj lt

/-- What a filter drops may stay in the list if it contributes nothing. -/
theorem flatMap_filter {γ δ : Type} (p : γ → Bool) (f : γ → List δ) : ∀ xs : List γ,
    (xs.filter p).flatMap f = xs.flatMap fun x => if p x then f x else []
  | [] => rfl
  | x :: xs => by
    rw [flatMap_cons, ← flatMap_filter p f xs]
    by_cases h : p x <;> simp [h]

section Order

variable {α β γ : Type} [LE α] [LT α] [DecidableLE α] [DecidableLT α]
  [Std.IsLinearPreorder α] [Std.LawfulOrderLT α]

variable {e hi cur : α} {l saved : Ledger α β} {out : Ledger α (Option β)}

theorem Span.Within.has {s t : Span α} (within : s.Within t) (has : s.Has e) : t.Has e :=
  ⟨le_trans within.1 has.1, lt_of_lt_of_le has.2 within.2⟩

theorem ascending_refill {l r pieces : Ledger α β} {p : Span α × β}
    (asc : Ascending (l ++ p :: r)) (inner : Ascending pieces)
    (within : ∀ q ∈ pieces, q.1.Within p.1) : Ascending (l ++ (pieces ++ r)) := by
  rw [ascending_append, ascending_cons] at asc
  obtain ⟨left, ⟨first, right⟩, across⟩ := asc
  rw [ascending_append, ascending_append]
  refine ⟨left, ⟨inner, right, fun q hq u hu => ?_⟩, fun q hq u hu => ?_⟩
  · exact le_trans (within q hq).2 (first u hu)
  · rcases mem_append.mp hu with hu | hu
    · exact le_trans (across q hq p (.head _)) (within u hu).1
    · exact across q hq u (.tail _ hu)

theorem Span.not_both {s t : Span α} (before : s.Before t) (hs : s.Has e) : ¬ t.Has e := by grind

theorem ownersAt_length_le_one (asc : Ascending l) (e : α) : (ownersAt l e).length ≤ 1 := by
  induction l with
  | nil => simp
  | cons p l ih =>
    obtain ⟨first, rest⟩ := ascending_cons.mp asc
    rw [ownersAt_cons]
    split
    · rename_i has
      have none : ownersAt l e = [] := by
        rw [ownersAt_eq_nil]
        rintro ⟨q, hq, hqe⟩
        exact Span.not_both (first q hq) has hqe
      simp [none]
    · exact ih rest

/-- On an ascending ledger the owners of a key are its first owner. -/
theorem ownersAt_eq_head? (asc : Ascending l) (e : α) :
    ownersAt l e = (ownersAt l e).head?.toList := by
  have short := ownersAt_length_le_one asc e
  match h : ownersAt l e with
  | [] => rfl
  | [_] => rfl
  | _ :: _ :: _ => simp [h] at short

theorem ownersAt_eq_singleton (asc : Ascending l) {b : β}
    (owner : b ∈ ownersAt l e) : ownersAt l e = [b] := by
  rw [ownersAt_eq_head? asc e] at owner ⊢
  cases first : (ownersAt l e).head? with
  | none => simp [first] at owner
  | some c => simp_all

/-! ## Tilings -/

/-- `ts` tiles `[lo, hi)`: nonempty tiles, each starting where the last ended.
Starts and ends agree up to equivalence of keys, which is all a preorder sees. -/
def Tiles : α → List (Span α) → α → Prop
  | lo, [], hi => lo ≤ hi ∧ hi ≤ lo
  | lo, t :: ts, hi => (lo ≤ t.lo ∧ t.lo ≤ lo) ∧ t.lo < t.hi ∧ Tiles t.hi ts hi

theorem tiles_le : ∀ {lo hi : α} {ts : List (Span α)}, Tiles lo ts hi → lo ≤ hi
  | _, _, [], h => h.1
  | _, _, _ :: _, ⟨start, proper, rest⟩ => by
    have := tiles_le rest
    grind

theorem tiles_within : ∀ {lo hi : α} {ts : List (Span α)}, Tiles lo ts hi →
    ∀ t ∈ ts, lo ≤ t.lo ∧ t.hi ≤ hi
  | _, _, [], _, _, ht => by simp at ht
  | _, _, u :: us, ⟨start, proper, rest⟩, t, ht => by
    rcases mem_cons.mp ht with rfl | ht
    · exact ⟨start.1, tiles_le rest⟩
    · have := tiles_within rest t ht
      grind

theorem tiles_proper : ∀ {lo hi : α} {ts : List (Span α)}, Tiles lo ts hi →
    ∀ t ∈ ts, t.lo < t.hi
  | _, _, [], _, _, ht => by simp at ht
  | _, _, u :: us, ⟨_, proper, rest⟩, t, ht => by
    rcases mem_cons.mp ht with rfl | ht
    · exact proper
    · exact tiles_proper rest t ht

theorem tiles_pairwise : ∀ {lo hi : α} {ts : List (Span α)}, Tiles lo ts hi →
    ts.Pairwise Span.Before
  | _, _, [], _ => List.Pairwise.nil
  | _, _, _ :: _, ⟨_, _, rest⟩ =>
    pairwise_cons.mpr ⟨fun u hu => (tiles_within rest u hu).1, tiles_pairwise rest⟩

/-- **Cutting along a tiling.**  If every tile contributes the same owners `X` to
the keys it holds and nothing elsewhere, the tiles together contribute `X` to
every key of the tiled interval and nothing outside it. -/
theorem flatMap_tiles {X : List β} (span : γ → Span α) (f : γ → List β) :
    ∀ {lo hi : α} {xs : List γ}, Tiles lo (xs.map span) hi →
      (∀ x ∈ xs, f x = if (span x).Has e then X else []) →
      xs.flatMap f = if (Span.mk lo hi).Has e then X else []
  | lo, hi, [], tiles, _ => by
    have outside : ¬ (Span.mk lo hi).Has e := by
      simp only [map_nil, Tiles] at tiles
      grind
    simp [outside]
  | lo, hi, x :: xs, ⟨start, proper, rest⟩, each => by
    have tail := flatMap_tiles span f rest fun y hy => each y (.tail _ hy)
    have top := tiles_le rest
    rw [flatMap_cons, tail, each x (.head _)]
    -- a key of `[lo, hi)` lies in the first tile or in the interval after it
    have split : (Span.mk lo hi).Has e ↔ (span x).Has e ∨ (Span.mk (span x).hi hi).Has e := by grind
    have apart : (span x).Has e → ¬ (Span.mk (span x).hi hi).Has e := by grind
    by_cases first : (span x).Has e
    · simp [first, apart first, split]
    · simp [first, split]

theorem filter_tiles (span : γ → Span α) : ∀ {lo hi : α} {xs : List γ},
    Tiles lo (xs.map span) hi → (Span.mk lo hi).Has e →
      ∃ x, xs.filter (fun x => decide ((span x).Has e)) = [x]
  | lo, hi, [], tiles, held => by
    simp only [map_nil, Tiles] at tiles
    grind
  | lo, hi, x :: xs, ⟨start, proper, rest⟩, held => by
    by_cases first : (span x).Has e
    · have none : xs.filter (fun y => decide ((span y).Has e)) = [] := by
        rw [filter_eq_nil_iff]
        intro y hy has
        have after := (tiles_within rest (span y) (mem_map_of_mem hy)).1
        exact Span.not_both after first (of_decide_eq_true has)
      exact ⟨x, by simp [first, none]⟩
    · have later : (Span.mk (span x).hi hi).Has e := by grind
      obtain ⟨y, hy⟩ := filter_tiles span rest later
      exact ⟨y, by simpa [first] using hy⟩

/-- A tiling holds every key of its interval once and no other key. -/
theorem countP_tiles : ∀ {lo hi : α} {ts : List (Span α)}, Tiles lo ts hi →
    ts.countP (fun t => decide (t.Has e)) = if (Span.mk lo hi).Has e then 1 else 0
  | lo, hi, [], tiles => by
    have outside : ¬ (Span.mk lo hi).Has e := by
      unfold Tiles at tiles
      grind
    rw [if_neg outside]
    rfl
  | lo, hi, t :: ts, ⟨start, proper, rest⟩ => by
    have top := tiles_le rest
    have split : (Span.mk lo hi).Has e ↔ t.Has e ∨ (Span.mk t.hi hi).Has e := by grind
    have apart : t.Has e → ¬ (Span.mk t.hi hi).Has e := by grind
    rw [countP_cons, countP_tiles rest]
    by_cases first : t.Has e
    · simp [first, apart first, split]
    · simp [first, split]

/-- Nonempty spans in order of their starts that hold every key of an interval once, and no other
key, tile it. -/
theorem tiles_of_countP : ∀ {lo : α} {ts : List (Span α)}, lo ≤ hi →
    ts.Pairwise (fun s t => s.lo ≤ t.lo) → (∀ t ∈ ts, t.lo < t.hi) →
    (∀ e, ts.countP (fun t => decide (t.Has e)) = if (Span.mk lo hi).Has e then 1 else 0) →
    Tiles lo ts hi
  | lo, [], order, _, _, once => by
    refine ⟨order, ?_⟩
    by_contra below
    have held : (Span.mk lo hi).Has lo := ⟨le_refl lo, by grind⟩
    have := once lo
    rw [if_pos held] at this
    exact absurd this (by simp)
  | lo, t :: ts, order, sorted, proper, once => by
    obtain ⟨first, later⟩ := pairwise_cons.mp sorted
    have own := proper t (.head _)
    have held : ∀ e, t.Has e → (Span.mk lo hi).Has e := by
      intro e has
      by_contra outside
      have := once e
      rw [if_neg outside, countP_cons] at this
      simp [has] at this
    have start : lo ≤ t.lo ∧ t.lo < hi := held t.lo ⟨le_refl _, own⟩
    -- the key `lo` has an owner, and none starts before `t`
    have reached : t.lo ≤ lo := by
      have here : (Span.mk lo hi).Has lo := ⟨le_refl lo, by grind⟩
      have one := once lo
      rw [if_pos here] at one
      have positive : 0 < (t :: ts).countP fun t => decide (t.Has lo) := by omega
      obtain ⟨u, hu, has⟩ := countP_pos_iff.mp positive
      have from_u : u.lo ≤ lo := (of_decide_eq_true has).1
      rcases mem_cons.mp hu with rfl | hu
      · exact from_u
      · exact le_trans (first u hu) from_u
    have inside : t.hi ≤ hi := by
      by_contra spent
      have has : t.Has hi := ⟨by grind, by grind⟩
      have := (held hi has).2
      exact absurd this (by grind)
    refine ⟨⟨start.1, reached⟩, own, ?_⟩
    refine tiles_of_countP inside later (fun u hu => proper u (.tail _ hu)) ?_
    intro e
    have total := once e
    have split : (Span.mk lo hi).Has e ↔ t.Has e ∨ (Span.mk t.hi hi).Has e := by grind
    have apart : t.Has e → ¬ (Span.mk t.hi hi).Has e := by grind
    by_cases here : t.Has e
    · simpa [here, apart here, split] using total
    · simpa [here, split] using total

/-- Consecutive keys in ascending order tile the interval between the first and the last. -/
theorem tiles_range' (b : Nat → α) : ∀ (n start : Nat),
    (∀ i, start ≤ i → i < start + n → b i < b (i + 1)) →
    Tiles (b start) ((range' start n).map fun i => ⟨b i, b (i + 1)⟩) (b (start + n))
  | 0, start, _ => ⟨le_refl _, le_refl _⟩
  | n + 1, start, ascending => by
    have rest := tiles_range' b n (start + 1) fun i low high =>
      ascending i (Nat.le_of_succ_le low) (by omega)
    rw [Nat.add_right_comm] at rest
    exact ⟨⟨le_refl _, le_refl _⟩, ascending start (Nat.le_refl _) (by omega), rest⟩

/-- The last tile that starts at or before a key of the tiled interval holds it. -/
theorem has_of_last_start {lo : α} {ts : List (Span α)} (tiles : Tiles lo ts hi)
    (held : (Span.mk lo hi).Has e) {i : Nat} {t : Span α} (here : ts[i]? = some t)
    (start : t.lo ≤ e) (later : ∀ (j : Nat) (u : Span α), i < j → ts[j]? = some u → e < u.lo) :
    t.Has e := by
  obtain ⟨u, owner⟩ := filter_tiles id (by simpa using tiles) held
  have member : u ∈ ts.filter (fun x => decide ((id x : Span α).Has e)) :=
    owner ▸ mem_singleton_self u
  obtain ⟨hu, has⟩ := mem_filter.mp member
  have has : u.Has e := of_decide_eq_true has
  obtain ⟨j, hj⟩ := mem_iff_getElem?.mp hu
  rcases Nat.lt_trichotomy i j with lt | rfl | gt
  · grind
  · rw [here] at hj
    cases hj
    exact has
  · -- the owner would end before `t` starts
    have before := pairwise_getElem? (tiles_pairwise tiles) gt hj here
    unfold Span.Before at before
    grind

/-- A ledger that stays inside pairwise ordered spans is ascending. -/
theorem ascending_flatMap {xs : List γ} (span : γ → Span α) (f : γ → Ledger α β)
    (ordered : xs.Pairwise fun x y => (span x).Before (span y))
    (inside : ∀ x ∈ xs, ∀ p ∈ f x, p.1.Within (span x))
    (each : ∀ x ∈ xs, Ascending (f x)) : Ascending (xs.flatMap f) := by
  induction xs with
  | nil => exact List.Pairwise.nil
  | cons x xs ih =>
    obtain ⟨first, rest⟩ := pairwise_cons.mp ordered
    rw [flatMap_cons, ascending_append]
    refine ⟨each x (.head _),
      ih rest (fun y hy => inside y (.tail _ hy))
        (fun y hy => each y (.tail _ hy)), ?_⟩
    intro p hp q hq
    obtain ⟨y, hy, hq⟩ := mem_flatMap.mp hq
    grind

/-! ## Sweeping saved spans over an interval -/

/-- `Sweep hi cur saved out`: walking `saved` left to right over `[cur, hi)` emits
`out`, one entry with the saved payload per overlap and one without payload per
gap.  Bounds are taken up to equivalence, so a walk may keep either of two
equivalent keys. -/
inductive Sweep (hi : α) : α → Ledger α β → Ledger α (Option β) → Prop
  | skip {cur : α} {s : Span α} {b : β} {rest : Ledger α β} {out : Ledger α (Option β)}
    (apart : s.hi ≤ cur ∨ hi ≤ s.lo) (next : Sweep hi cur rest out) :
    Sweep hi cur ((s, b) :: rest) out
  | gap {cur lo : α} {saved : Ledger α β} {out : Ledger α (Option β)}
    (before : cur < lo) (inside : lo < hi) (start : ∀ q ∈ saved, lo ≤ q.1.lo)
    (next : Sweep hi lo saved out) :
    Sweep hi cur saved ((⟨cur, lo⟩, none) :: out)
  | take {cur lo top : α} {s : Span α} {b : β} {rest : Ledger α β} {out : Ledger α (Option β)}
    (start : s.lo ≤ cur) (same : lo ≤ cur ∧ cur ≤ lo) (proper : lo < top)
    (inner : top ≤ s.hi) (below : top ≤ hi) (full : s.hi ≤ top ∨ hi ≤ top)
    (next : Sweep hi top rest out) :
    Sweep hi cur ((s, b) :: rest) ((⟨lo, top⟩, some b) :: out)
  | tail {cur : α} (more : cur < hi) : Sweep hi cur [] [(⟨cur, hi⟩, none)]
  | done {cur : α} (finished : hi ≤ cur) : Sweep hi cur [] []

/-- What a sweep emits: every key of `[cur, hi)` exactly once, with the payload of
the first saved span that holds it. -/
theorem Sweep.ownersAt (sweep : Sweep hi cur saved out) (e : α) : ownersAt out e =
      if (Span.mk cur hi).Has e then [(Interval.ownersAt saved e).head?] else [] := by
  induction sweep with
  | @skip cur s b rest out apart _ ih =>
    rw [ih, ownersAt_cons]
    by_cases here : (Span.mk cur hi).Has e
    · have free : ¬ s.Has e := by grind
      rw [if_neg free]
    · rw [if_neg here, if_neg here]
  | @gap cur lo saved out before inside start _ ih =>
    rw [ownersAt_cons, ih]
    by_cases first : (Span.mk cur lo).Has e
    · -- nothing saved starts before `lo`, so nothing saved holds the key
      have unsaved : Interval.ownersAt saved e = [] := by
        rw [ownersAt_eq_nil]
        rintro ⟨q, hq, has⟩
        have := start q hq
        grind
      have here : (Span.mk cur hi).Has e := by grind
      have later : ¬ (Span.mk lo hi).Has e := by grind
      simp [first, here, later, unsaved]
    · have same : (Span.mk lo hi).Has e ↔ (Span.mk cur hi).Has e := by grind
      simp [first, same]
  | @take cur lo top s b rest out start same proper inner below full _ ih =>
    rw [ownersAt_cons, ih, ownersAt_cons]
    by_cases first : (Span.mk lo top).Has e
    · have held : s.Has e := by grind
      have here : (Span.mk cur hi).Has e := by grind
      have later : ¬ (Span.mk top hi).Has e := by grind
      simp [first, held, here, later]
    · by_cases later : (Span.mk top hi).Has e
      · have free : ¬ s.Has e := by grind
        have here : (Span.mk cur hi).Has e := by grind
        simp [first, later, free, here]
      · have outside : ¬ (Span.mk cur hi).Has e := by grind
        simp [first, later, outside]
  | @tail cur more => rw [ownersAt_cons]; rfl
  | @done cur finished =>
    have outside : ¬ (Span.mk cur hi).Has e := by grind
    simp [outside]

theorem Sweep.within (sweep : Sweep hi cur saved out) :
    ∀ p ∈ out, p.1.lo < p.1.hi ∧ p.1.Within ⟨cur, hi⟩ := by
  unfold Span.Within
  induction sweep with
  | skip _ _ ih => exact ih
  | gap before inside _ _ ih | take start same proper inner below full _ ih =>
    intro p hp
    rcases mem_cons.mp hp with rfl | hp
    · grind
    · grind
  | tail more =>
    intro p hp
    grind
  | done => simp

theorem Sweep.ascending (sweep : Sweep hi cur saved out) : Ascending out := by
  induction sweep with
  | skip _ _ ih => exact ih
  | gap _ _ _ next ih | take _ _ _ _ _ _ next ih =>
    exact ascending_cons.mpr ⟨fun q hq => (next.within q hq).2.1, ih⟩
  | tail => exact pairwise_singleton _ _
  | done => exact List.Pairwise.nil

/-- Saved spans that miss `[cur, hi)` may be skipped together. -/
theorem Sweep.skipAll : ∀ {saved : Ledger α β},
    (∀ q ∈ saved, q.1.hi ≤ cur ∨ hi ≤ q.1.lo) → Sweep hi cur ([] : Ledger α β) out →
      Sweep hi cur saved out
  | [], _, rest => rest
  | (_, _) :: _, apart, rest =>
    .skip (apart _ (.head _))
      (skipAll (fun q hq => apart q (.tail _ hq)) rest)

/-- The span from `cur` to `lo` without payload, if there is one. -/
def gapTo (cur lo : α) : Ledger α (Option β) := if cur < lo then [(⟨cur, lo⟩, none)] else []

theorem Sweep.rest : Sweep hi cur ([] : Ledger α β) (gapTo cur hi) := by
  unfold gapTo
  split
  · exact .tail ‹_›
  · exact .done (by grind)

/-- A saved span that reaches into what is left: a gap up to it, then the overlap. -/
theorem Sweep.overlap {lo top : α} {s : Span α} {b : β} {rest : Ledger α β} (start : s.lo ≤ lo)
    (behind : cur ≤ lo) (least : lo ≤ cur ∨ lo ≤ s.lo) (proper : lo < top) (inner : top ≤ s.hi)
    (below : top ≤ hi) (full : s.hi ≤ top ∨ hi ≤ top) (later : ∀ q ∈ rest, s.hi ≤ q.1.lo)
    (next : Sweep hi top rest out) :
    Sweep hi cur ((s, b) :: rest) (gapTo cur lo ++ (⟨lo, top⟩, some b) :: out) := by
  unfold gapTo
  split
  · refine .gap ‹_› (by grind) (fun q hq => ?_)
      (.take start ⟨le_refl _, le_refl _⟩ proper inner below full next)
    rcases mem_cons.mp hq with rfl | hq
    · grind
    · grind
  · exact .take (by grind) ⟨by grind, behind⟩ proper inner below full next

theorem Sweep.within_saved (sweep : Sweep hi cur saved out) :
    ∀ p ∈ out, ∀ b, p.2 = some b → ∃ s, (s, b) ∈ saved ∧ p.1.Within s := by
  induction sweep with
  | skip _ _ ih =>
    intro p hp b hb
    obtain ⟨s, hs, within⟩ := ih p hp b hb
    exact ⟨s, .tail _ hs, within⟩
  | gap _ _ _ _ ih =>
    intro p hp b hb
    rcases mem_cons.mp hp with rfl | hp
    · exact absurd hb (by simp)
    · exact ih p hp b hb
  | @take cur lo top s b' rest out start same proper inner below full _ ih =>
    intro p hp b hb
    rcases mem_cons.mp hp with rfl | hp
    · cases hb
      exact ⟨s, .head _, by grind, inner⟩
    · obtain ⟨s', hs', within⟩ := ih p hp b hb
      exact ⟨s', .tail _ hs', within⟩
  | tail =>
    intro p hp b hb
    rw [mem_singleton.mp hp] at hb
    exact absurd hb (by simp)
  | done => simp

/-! ## Covering an interval end to end -/

/-- Walks spans in list order: fails at the first span that starts past the
cursor, and otherwise moves the cursor to the furthest end seen. -/
def coverWalk (hi : α) : α → List (Span α) → Bool
  | cur, [] => decide (hi ≤ cur)
  | cur, p :: rest =>
    if cur < p.lo then false
    else coverWalk hi (if cur < p.hi then p.hi else cur) rest

/-- Nonempty spans that start below `hi`, come in order of their start and
together hold every key of `[cur, hi)` pass the walk. -/
theorem coverWalk_of_covering : ∀ {cur : α} {spans : List (Span α)},
    spans.Pairwise (fun p q => p.lo ≤ q.lo) → (∀ p ∈ spans, p.lo < hi) →
    (∀ e, cur ≤ e → e < hi → ∃ p ∈ spans, p.Has e) → coverWalk hi cur spans = true
  | cur, [], _, _, covering => by
    refine decide_eq_true ?_
    by_contra short
    obtain ⟨p, hp, _⟩ := covering cur (le_refl cur) (by grind)
    simp at hp
  | cur, p :: rest, sorted, below, covering => by
    obtain ⟨first, sorted⟩ := pairwise_cons.mp sorted
    have reached : ¬ cur < p.lo := by
      intro gap
      -- the key `cur` itself is below every remaining span
      obtain ⟨q, hq, has⟩ := covering cur (le_refl cur) (by grind)
      unfold Span.Has at has
      rcases mem_cons.mp hq with rfl | hq
      · grind
      · grind
    rw [coverWalk, if_neg reached]
    refine coverWalk_of_covering sorted (fun q hq => below q (.tail _ hq)) ?_
    intro e above under
    obtain ⟨q, hq, has⟩ := covering e (by grind) under
    rcases mem_cons.mp hq with rfl | hq
    · grind
    · exact ⟨q, hq, has⟩

end Order

end AzureSdk.Theory.Interval
