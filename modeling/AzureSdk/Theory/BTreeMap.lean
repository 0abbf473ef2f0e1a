/-
# Theory.BTreeMap — ordered maps whose values carry their keys

A map is its list of values in strictly ascending order of their keys, so equal contents are equal
maps.  Keys carry a linear preorder: two spellings of one key are the same key, and an inserted value
replaces the one under any spelling of its key.

A map is known by its lookups (`ext_get?`), and every operation by what it does to them.
-/
import Mathlib.Data.List.Perm.Basic
import Mathlib.Data.List.Pairwise
import Mathlib.Data.List.Sort

namespace AzureSdk.Theory

set_option linter.unusedSectionVars false

open List

section

variable {α κ : Type} [LE κ]

/-- Two keys that the order does not tell apart. -/
def SameKey (a b : κ) : Prop := a ≤ b ∧ b ≤ a

attribute [grind =] SameKey

instance [DecidableLE κ] (a b : κ) : Decidable (SameKey a b) :=
  inferInstanceAs (Decidable (_ ∧ _))

theorem SameKey.symm {a b : κ} (same : SameKey a b) : SameKey b a := ⟨same.2, same.1⟩

theorem SameKey.refl [Std.IsLinearPreorder κ] (a : κ) : SameKey a a :=
  ⟨Std.le_refl a, Std.le_refl a⟩

theorem SameKey.trans [Std.IsLinearPreorder κ] {a b c : κ} (ab : SameKey a b) (bc : SameKey b c) :
    SameKey a c :=
  ⟨Std.le_trans ab.1 bc.1, Std.le_trans bc.2 ab.2⟩

/-- Values in strictly ascending order of their keys. -/
structure BTreeMap [LT κ] (key : α → κ) where
  entries : List α
  ascending : entries.Pairwise fun a b => key a < key b

end

namespace BTreeMap

variable {α κ : Type} [LE κ] [LT κ] {key : α → κ}

def empty : BTreeMap key := ⟨[], .nil⟩

variable [DecidableLE κ]

def get? (m : BTreeMap key) (k : κ) : Option α := m.entries.find? fun a => decide (SameKey (key a) k)

def filter (m : BTreeMap key) (p : α → Bool) : BTreeMap key :=
  ⟨m.entries.filter p, m.ascending.filter p⟩

def erase (m : BTreeMap key) (k : κ) : BTreeMap key :=
  m.filter fun a => !decide (SameKey (key a) k)

/-- Puts a value in its place, over the one under the same key. -/
def insertEntry [DecidableLT κ] (key : α → κ) (a : α) : List α → List α
  | [] => [a]
  | b :: rest =>
    if key a < key b then a :: b :: rest
    else if key b < key a then b :: insertEntry key a rest
    else a :: rest

section Order

variable [DecidableLT κ] [Std.IsLinearPreorder κ] [Std.LawfulOrderLT κ]

variable {a b : α} {m : BTreeMap key} {k : κ}

theorem mem_insertEntry : ∀ {entries : List α}, (entries.Pairwise fun a b => key a < key b) →
    (b ∈ insertEntry key a entries ↔ b = a ∨ b ∈ entries ∧ ¬ SameKey (key b) (key a))
  | [], _ => by simp [insertEntry]
  | c :: rest, ascending => by
    obtain ⟨first, later⟩ := pairwise_cons.mp ascending
    have above : ∀ d ∈ rest, key c < key d := first
    unfold insertEntry
    split
    · have apart : ∀ d ∈ c :: rest, ¬ SameKey (key d) (key a) := by
        intro d hd
        rcases mem_cons.mp hd with rfl | hd
        · grind
        · grind
      rw [mem_cons]
      exact or_congr_right ⟨fun h => ⟨h, apart b h⟩, And.left⟩
    · split
      · have apart : ¬ SameKey (key c) (key a) := by grind
        rw [mem_cons, mem_insertEntry later, mem_cons]
        constructor
        · rintro (rfl | rfl | ⟨mem, ne⟩)
          · exact .inr ⟨.inl rfl, apart⟩
          · exact .inl rfl
          · exact .inr ⟨.inr mem, ne⟩
        · rintro (rfl | ⟨rfl | mem, ne⟩)
          · exact .inr (.inl rfl)
          · exact .inl rfl
          · exact .inr (.inr ⟨mem, ne⟩)
      · have same : SameKey (key c) (key a) := by grind
        have apart : ∀ d ∈ rest, ¬ SameKey (key d) (key a) := by
          intro d hd
          grind
        rw [mem_cons, mem_cons]
        constructor
        · exact Or.imp_right fun mem => ⟨.inr mem, apart b mem⟩
        · rintro (rfl | ⟨rfl | mem, ne⟩)
          · exact .inl rfl
          · exact absurd same ne
          · exact .inr mem

theorem ascending_insertEntry (a : α) : ∀ {entries : List α},
    (entries.Pairwise fun a b => key a < key b) →
    (insertEntry key a entries).Pairwise fun a b => key a < key b
  | [], _ => pairwise_singleton _ _
  | b :: rest, ascending => by
    obtain ⟨first, later⟩ := pairwise_cons.mp ascending
    unfold insertEntry
    split
    · rename_i below
      refine pairwise_cons.mpr ⟨fun c hc => ?_, ascending⟩
      rcases mem_cons.mp hc with rfl | hc
      · exact below
      · exact Std.lt_trans below (first c hc)
    · split
      · rename_i above
        refine pairwise_cons.mpr ⟨fun c hc => ?_, ascending_insertEntry a later⟩
        rcases (mem_insertEntry later).mp hc with rfl | ⟨hc, -⟩
        · exact above
        · exact first c hc
      · refine pairwise_cons.mpr ⟨fun c hc => ?_, later⟩
        grind

def insert (m : BTreeMap key) (a : α) : BTreeMap key :=
  ⟨insertEntry key a m.entries, ascending_insertEntry a m.ascending⟩

theorem mem_insert : b ∈ (m.insert a).entries ↔ b = a ∨ b ∈ m.entries ∧ ¬ SameKey (key b) (key a) :=
  mem_insertEntry m.ascending

theorem mem_erase : b ∈ (m.erase k).entries ↔ b ∈ m.entries ∧ ¬ SameKey (key b) k := by
  simp [erase, filter]

/-! ## Lookups -/

theorem get?_eq_none : m.get? k = none ↔ ∀ a ∈ m.entries, ¬ SameKey (key a) k := by
  simp [get?]

theorem apart (m : BTreeMap key) : m.entries.Pairwise fun a b => ¬ SameKey (key a) (key b) :=
  m.ascending.imp fun below near => by
    grind

theorem eq_of_sameKey (ha : a ∈ m.entries) (hb : b ∈ m.entries)
    (same : SameKey (key a) (key b)) : a = b := by
  have : Std.Symm fun a b : α => ¬ SameKey (key a) (key b) := ⟨fun _ _ ne near => ne near.symm⟩
  by_contra ne
  exact m.apart.forall ha hb ne same

theorem get?_eq_some : m.get? k = some a ↔ a ∈ m.entries ∧ SameKey (key a) k := by
  constructor
  · intro found
    have near := find?_some found
    exact ⟨mem_of_find?_eq_some found, of_decide_eq_true near⟩
  · rintro ⟨mem, same⟩
    cases found : m.get? k with
    | none => exact absurd same (get?_eq_none.mp found a mem)
    | some b =>
      have near := find?_some found
      have near : SameKey (key b) k := of_decide_eq_true near
      rw [eq_of_sameKey (mem_of_find?_eq_some found) mem (near.trans same.symm)]

theorem get?_congr {k' : κ} (same : SameKey k k') : m.get? k = m.get? k' := by
  refine Option.ext fun a => ?_
  rw [get?_eq_some, get?_eq_some]
  exact and_congr_right fun _ => ⟨fun h => h.trans same, fun h => h.trans same.symm⟩

theorem get?_insert (m : BTreeMap key) (a : α) (k : κ) :
    (m.insert a).get? k = if SameKey (key a) k then some a else m.get? k := by
  refine Option.ext fun b => ?_
  rw [get?_eq_some, mem_insert]
  split
  · rename_i here
    constructor
    · rintro ⟨rfl | ⟨-, ne⟩, near⟩
      · rfl
      · exact absurd (near.trans here.symm) ne
    · intro h
      cases h
      exact ⟨.inl rfl, here⟩
  · rename_i elsewhere
    rw [get?_eq_some]
    constructor
    · rintro ⟨rfl | ⟨mem, -⟩, near⟩
      · exact absurd near elsewhere
      · exact ⟨mem, near⟩
    · rintro ⟨mem, near⟩
      exact ⟨.inr ⟨mem, fun same => elsewhere (same.symm.trans near)⟩, near⟩

theorem get?_erase (m : BTreeMap key) (k k' : κ) :
    (m.erase k).get? k' = if SameKey k k' then none else m.get? k' := by
  refine Option.ext fun b => ?_
  rw [get?_eq_some, mem_erase]
  split
  · rename_i here
    exact iff_of_false (fun ⟨⟨_, ne⟩, near⟩ => ne (near.trans here.symm)) (by simp)
  · rename_i elsewhere
    rw [get?_eq_some]
    exact ⟨fun ⟨⟨mem, _⟩, near⟩ => ⟨mem, near⟩,
      fun ⟨mem, near⟩ => ⟨⟨mem, fun same => elsewhere (same.symm.trans near)⟩, near⟩⟩

theorem nodup (m : BTreeMap key) : m.entries.Nodup := by
  refine m.ascending.imp ?_
  rintro a _ below rfl
  grind

theorem ext_get? {n : BTreeMap key} (same : ∀ k, m.get? k = n.get? k) : m = n := by
  have members : ∀ a, a ∈ m.entries ↔ a ∈ n.entries := by
    intro a
    have at_key := same (key a)
    have refl : SameKey (key a) (key a) := SameKey.refl _
    rw [← and_iff_left (a := a ∈ m.entries) refl, ← and_iff_left (a := a ∈ n.entries) refl,
      ← get?_eq_some, ← get?_eq_some, at_key]
  have perm : m.entries.Perm n.entries :=
    (perm_ext_iff_of_nodup m.nodup n.nodup).mpr members
  have equal : m.entries = n.entries :=
    perm.eq_of_pairwise (fun a b _ _ below above => by grind) m.ascending n.ascending
  cases n
  cases equal
  rfl

/-- The value under a key, put there or taken away. -/
def put (m : BTreeMap key) (k : κ) : Option α → BTreeMap key
  | some a => m.insert a
  | none => m.erase k

theorem put_back {changed : BTreeMap key}
    (others : ∀ k', ¬ SameKey k k' → changed.get? k' = m.get? k') : changed.put k (m.get? k) = m := by
  apply ext_get?
  intro k'
  cases stored : m.get? k with
  | none =>
    rw [put, get?_erase]
    by_cases same : SameKey k k'
    · rw [if_pos same, ← get?_congr same, stored]
    · rw [if_neg same, others k' same]
  | some a =>
    have keyed : SameKey (key a) k := (get?_eq_some.mp stored).2
    rw [put, get?_insert]
    by_cases same : SameKey k k'
    · rw [if_pos (keyed.trans same), ← get?_congr same, stored]
    · rw [if_neg fun near => same (keyed.symm.trans near), others k' same]

theorem insert_perm (absent : m.get? (key a) = none) :
    (m.insert a).entries.Perm (a :: m.entries) := by
  have fresh : a ∉ m.entries := fun mem => get?_eq_none.mp absent a mem (SameKey.refl _)
  refine (perm_ext_iff_of_nodup (m.insert a).nodup (m.nodup.cons fresh)).mpr fun b => ?_
  rw [mem_insert, mem_cons]
  exact or_congr_right ⟨And.left, fun mem => ⟨mem, get?_eq_none.mp absent b mem⟩⟩

theorem foldl_insert_perm : ∀ {xs : List α} {m : BTreeMap key},
    (xs.Pairwise fun a b => ¬ SameKey (key a) (key b)) → (∀ x ∈ xs, m.get? (key x) = none) →
    (xs.foldl insert m).entries.Perm (m.entries ++ xs)
  | [], m, _, _ => by rw [append_nil]; exact .refl _
  | x :: xs, m, distinct, absent => by
    obtain ⟨first, later⟩ := pairwise_cons.mp distinct
    have still : ∀ y ∈ xs, (m.insert x).get? (key y) = none := by
      intro y hy
      rw [get?_insert, if_neg (first y hy)]
      exact absent y (.tail _ hy)
    have added := (insert_perm (absent x (.head _))).append_right xs
    exact ((foldl_insert_perm later still).trans added).trans perm_middle.symm

/-- Values that agree with the map's under the same keys are added to it. -/
theorem mem_foldl_insert : ∀ {xs : List α} {m : BTreeMap key},
    (∀ a ∈ m.entries, ∀ x ∈ xs, SameKey (key a) (key x) → a = x) →
    (∀ x ∈ xs, ∀ y ∈ xs, SameKey (key x) (key y) → x = y) →
    (b ∈ (xs.foldl insert m).entries ↔ b ∈ m.entries ∨ b ∈ xs)
  | [], m, _, _ => by simp
  | x :: xs, m, agrees, unique => by
    have one : ∀ a, a ∈ (m.insert x).entries ↔ a ∈ m.entries ∨ a = x := by
      intro a
      rw [mem_insert]
      constructor
      · rintro (here | ⟨mem, -⟩)
        · exact .inr here
        · exact .inl mem
      · rintro (mem | here)
        · by_cases near : SameKey (key a) (key x)
          · exact .inl (agrees a mem x (.head _) near)
          · exact .inr ⟨mem, near⟩
        · exact .inl here
    have agrees' : ∀ a ∈ (m.insert x).entries, ∀ y ∈ xs, SameKey (key a) (key y) → a = y := by
      intro a ha y hy near
      rcases (one a).mp ha with mem | rfl
      · exact agrees a mem y (.tail _ hy) near
      · exact unique a (.head _) y (.tail _ hy) near
    have unique' : ∀ y ∈ xs, ∀ z ∈ xs, SameKey (key y) (key z) → y = z := fun y hy z hz =>
      unique y (.tail _ hy) z (.tail _ hz)
    rw [foldl_cons, mem_foldl_insert agrees' unique', one, mem_cons, or_assoc]

end Order

end BTreeMap

end AzureSdk.Theory
