/-
# Theory.Shares — items shared out among parties

Each of finitely many items belongs to one of finitely many parties, or to nobody.  A
party takes items: those that belong to nobody, and those of parties whose load is above
a limit, as far as its own load stays within that limit.  Taking decreases a potential
(`potential_lt`): what belongs to nobody counts most, then the squares of the loads.  So
items change hands only finitely often.

A party knows the parties that own something, and takes its quota of the items among
those.  Where nobody takes anything, every item belongs to somebody and all loads are as
equal as they can be (`shares_even`).
-/
import Mathlib.Algebra.BigOperators.Ring.Finset
import Mathlib.Algebra.Order.BigOperators.Ring.Finset
import Mathlib.Data.Finset.Card
import Mathlib.Order.Lattice.Nat
import Mathlib.Data.Set.Finite.Lattice
import Mathlib.Tactic.Ring

namespace AzureSdk.Theory

open Finset Option

/-- What never grows decreases only finitely often. -/
theorem finite_decreases (μ : Nat → Nat) (antitone : ∀ n, μ (n + 1) ≤ μ n) :
    {n | μ (n + 1) < μ n}.Finite := by
  obtain ⟨last, least⟩ : ∃ n, ∀ m, μ n ≤ μ m := by
    obtain ⟨n, attained⟩ := Nat.sInf_mem (Set.range_nonempty μ)
    exact ⟨n, fun m => attained ▸ Nat.sInf_le (Set.mem_range_self m)⟩
  refine (Set.finite_lt_nat last).subset fun n decreases => ?_
  by_contra later
  have falls : μ n ≤ μ last := antitone_nat_of_succ_le antitone (Nat.le_of_not_lt later)
  exact absurd (decreases.trans_le falls) (Nat.not_lt_of_le (least (n + 1)))

namespace Shares

variable {ι π : Type} [DecidableEq π]
variable {items : Finset ι} {parties : Finset π} {owner after : ι → Option π} {p : π} {limit : Nat}
variable {taken : Finset ι}

/-- How many items a party owns. -/
def load (items : Finset ι) (owner : ι → Option π) (p : π) : Nat :=
  (items.filter fun i => owner i = some p).card

/-- How many items belong to nobody. -/
def spare (items : Finset ι) (owner : ι → Option π) : Nat :=
  (items.filter fun i => owner i = none).card

/-- Every item belongs to one of the parties, or to nobody. -/
def Among (items : Finset ι) (parties : Finset π) (owner : ι → Option π) : Prop :=
  ∀ i ∈ items, ∀ p, owner i = some p → p ∈ parties

theorem sum_load (among : Among items parties owner) :
    ∑ p ∈ parties, load items owner p + spare items owner = items.card := by
  have owned : ∑ p ∈ parties, load items owner p =
      (items.filter fun i => ¬ owner i = none).card := by
    rw [card_eq_sum_card_fiberwise (f := owner) (t := parties.image some)]
    · rw [sum_image fun a _ b _ same => some.inj same]
      refine sum_congr rfl fun p _ => congrArg card (ext fun i => ?_)
      simp only [mem_filter]
      constructor
      · rintro ⟨mem, same⟩
        exact ⟨⟨mem, by simp [same]⟩, same⟩
      · rintro ⟨⟨mem, _⟩, same⟩
        exact ⟨mem, same⟩
    · intro i mem
      obtain ⟨mem, some⟩ := mem_filter.mp mem
      obtain ⟨p, same⟩ := ne_none_iff_exists'.mp some
      exact mem_image.mpr ⟨p, among i mem p same, same.symm⟩
  rw [owned, spare, Nat.add_comm]
  exact card_filter_add_card_filter_not _

/-! ## Taking -/

/-- A party takes items: spare ones, and those of others above the limit. -/
structure Takes (items : Finset ι) (limit : Nat) (p : π) (taken : Finset ι)
    (owner after : ι → Option π) : Prop where
  inside : taken ⊆ items
  given : ∀ i ∈ items, i ∈ taken → after i = some p
  kept : ∀ i ∈ items, i ∉ taken → after i = owner i
  source : ∀ i ∈ taken, owner i = none ∨ ∃ q, q ≠ p ∧ owner i = some q ∧ limit < load items owner q
  within : load items owner p + taken.card ≤ limit

def potential (items : Finset ι) (parties : Finset π) (owner : ι → Option π) : Nat :=
  spare items owner * (items.card ^ 2 + 1) + ∑ p ∈ parties, load items owner p ^ 2

theorem Takes.among (takes : Takes items limit p taken owner after) (mem : p ∈ parties)
    (among : Among items parties owner) : Among items parties after := by
  intro i hi q same
  by_cases moved : i ∈ taken
  · rw [takes.given i hi moved] at same
    cases same
    exact mem
  · rw [takes.kept i hi moved] at same
    exact among i hi q same

theorem sum_squares_le (among : Among items parties owner) :
    ∑ p ∈ parties, load items owner p ^ 2 ≤ items.card ^ 2 := by
  have total := sum_load among
  calc ∑ p ∈ parties, load items owner p ^ 2
      ≤ (∑ p ∈ parties, load items owner p) ^ 2 :=
        sum_sq_le_sq_sum_of_nonneg fun _ _ => Nat.zero_le _
    _ ≤ items.card ^ 2 := Nat.pow_le_pow_left (by omega) 2

/-- How many of the items taken were owned by `x`. -/
def lost (owner : ι → Option π) (taken : Finset ι) (x : Option π) : Nat :=
  (taken.filter fun i => owner i = x).card

theorem Takes.sum_lost (takes : Takes items limit p taken owner after)
    (among : Among items parties owner) (owned : lost owner taken none = 0) :
    ∑ q ∈ parties.erase p, lost owner taken (some q) = taken.card := by
  have each : ∀ i ∈ taken, owner i ∈ (parties.erase p).image some := by
    intro i moved
    rcases takes.source i moved with none | ⟨q, other, same, _⟩
    · have found : i ∈ taken.filter fun i => owner i = .none := mem_filter.mpr ⟨moved, none⟩
      rw [card_eq_zero.mp owned] at found
      exact absurd found (notMem_empty i)
    · have mem := among i (takes.inside moved) q same
      exact mem_image.mpr ⟨q, mem_erase.mpr ⟨other, mem⟩, same.symm⟩
  rw [card_eq_sum_card_fiberwise each, sum_image fun a _ b _ same => some.inj same]
  rfl

/-- A party that loses `t` items of more than `limit` loses that much of its square. -/
theorem square_loss {a b t total : Nat} (split : a = b + t) (few : t ≤ total)
    (above : 0 < t → limit < a) : b ^ 2 + t * (2 * (limit + 1) - total) ≤ a ^ 2 := by
  rcases Nat.eq_zero_or_pos t with none | some
  · rw [split, none]
    simp
  · have rate : 2 * (limit + 1) - total ≤ a + b := by omega
    calc b ^ 2 + t * (2 * (limit + 1) - total) ≤ b ^ 2 + t * (a + b) :=
          Nat.add_le_add_left (Nat.mul_le_mul_left t rate) _
      _ = a ^ 2 := by
          rw [split]
          ring

section Loads

variable [DecidableEq ι] (takes : Takes items limit p taken owner after)

include takes

/-- Whoever does not take keeps the items that are not taken. -/
theorem Takes.held_other {x : Option π} (other : x ≠ some p) :
    (items.filter fun i => owner i = x).card =
      (items.filter fun i => after i = x).card + lost owner taken x := by
  have stays : ∀ i ∈ items, after i = x → i ∉ taken := fun i hi same moved =>
    other (same.symm.trans (takes.given i hi moved))
  have split : (items.filter fun i => owner i = x) =
      (items.filter fun i => after i = x) ∪ taken.filter fun i => owner i = x := by
    ext i
    simp only [mem_union, mem_filter]
    constructor
    · rintro ⟨hi, same⟩
      by_cases moved : i ∈ taken
      · exact .inr ⟨moved, same⟩
      · exact .inl ⟨hi, (takes.kept i hi moved).trans same⟩
    · rintro (⟨hi, same⟩ | ⟨moved, same⟩)
      · exact ⟨hi, (takes.kept i hi (stays i hi same)).symm.trans same⟩
      · exact ⟨takes.inside moved, same⟩
  have apart : Disjoint (items.filter fun i => after i = x)
      (taken.filter fun i => owner i = x) := by
    refine disjoint_left.mpr fun i kept moved => ?_
    obtain ⟨hi, same⟩ := mem_filter.mp kept
    exact stays i hi same (mem_filter.mp moved).1
  rw [lost, split, card_union_of_disjoint apart]

theorem Takes.spare_eq : spare items owner = spare items after + lost owner taken none :=
  takes.held_other nofun

theorem Takes.load_self : load items after p = load items owner p + taken.card := by
  have split : (items.filter fun i => after i = some p) =
      (items.filter fun i => owner i = some p) ∪ taken := by
    ext i
    simp only [mem_union, mem_filter]
    constructor
    · rintro ⟨hi, same⟩
      by_cases moved : i ∈ taken
      · exact .inr moved
      · exact .inl ⟨hi, (takes.kept i hi moved).symm.trans same⟩
    · rintro (⟨hi, same⟩ | moved)
      · by_cases moved : i ∈ taken
        · exact ⟨hi, takes.given i hi moved⟩
        · exact ⟨hi, (takes.kept i hi moved).trans same⟩
      · exact ⟨takes.inside moved, takes.given i (takes.inside moved) moved⟩
  have apart : Disjoint (items.filter fun i => owner i = some p) taken := by
    refine disjoint_left.mpr fun i own moved => ?_
    have same := (mem_filter.mp own).2
    rcases takes.source i moved with none | ⟨q, other, same', _⟩
    · rw [none] at same
      cases same
    · exact other (some.inj (same'.symm.trans same))
  unfold load
  rw [split, card_union_of_disjoint apart]

theorem Takes.squares_lt (mem : p ∈ parties)
    (among : Among items parties owner) (owned : lost owner taken none = 0)
    (some : taken.Nonempty) :
    ∑ q ∈ parties, load items after q ^ 2 < ∑ q ∈ parties, load items owner q ^ 2 := by
  have count := takes.sum_lost among owned
  have pos := card_pos.mpr some
  have room := takes.within
  have each : ∀ q ∈ parties.erase p,
      load items after q ^ 2 + lost owner taken (.some q) * (2 * (limit + 1) - taken.card) ≤
        load items owner q ^ 2 := by
    intro q hq
    have other := (mem_erase.mp hq).1
    refine square_loss (takes.held_other (by simpa using other)) (card_filter_le _ _) fun loses => ?_
    obtain ⟨i, found⟩ := card_pos.mp loses
    obtain ⟨moved, same⟩ := mem_filter.mp found
    rcases takes.source i moved with none | ⟨r, _, same', high⟩
    · rw [none] at same
      cases same
    · rw [same'] at same
      cases same
      exact high
  have others := sum_le_sum each
  rw [sum_add_distrib, ← sum_mul, count] at others
  rw [← add_sum_erase _ _ mem, ← add_sum_erase _ _ mem, takes.load_self]
  have gain : (load items owner p + taken.card) ^ 2 =
      load items owner p ^ 2 + taken.card * (2 * load items owner p + taken.card) := by ring
  have rate : taken.card * (2 * load items owner p + taken.card) <
      taken.card * (2 * (limit + 1) - taken.card) :=
    Nat.mul_lt_mul_of_pos_left (by omega) pos
  omega

/-- **Taking decreases the potential.** -/
theorem Takes.potential_lt (mem : p ∈ parties)
    (among : Among items parties owner) (some : taken.Nonempty) :
    potential items parties after < potential items parties owner := by
  have fewer := takes.spare_eq
  have bounded := sum_squares_le (takes.among mem among)
  unfold potential
  rcases Nat.eq_zero_or_pos (lost owner taken none) with none | found
  · have less := takes.squares_lt mem among none some
    rw [fewer, none, Nat.add_zero]
    exact Nat.add_lt_add_left less _
  · calc spare items after * (items.card ^ 2 + 1) + ∑ q ∈ parties, load items after q ^ 2
        < (spare items after + 1) * (items.card ^ 2 + 1) := by
          rw [Nat.succ_mul]
          omega
      _ ≤ spare items owner * (items.card ^ 2 + 1) :=
          Nat.mul_le_mul_right _ (by omega)
      _ ≤ spare items owner * (items.card ^ 2 + 1) + ∑ q ∈ parties, load items owner q ^ 2 :=
          Nat.le_add_right _ _

end Loads

/-! ## Quotas -/

/-- The share of a party that sees `visible` parties and owns `own` of `n` items: one more
than the least share, where the items cannot be divided evenly and it has the least share. -/
def quota (visible n own : Nat) : Nat :=
  n / visible + if 0 < n % visible ∧ n / visible ≤ own then 1 else 0

/-- How many parties `p` sees: itself, and those that own something. -/
def visible (parties : Finset π) (loads : π → Nat) (p : π) : Nat :=
  (insert p (parties.filter fun q => 0 < loads q)).card

/-- A party takes nothing: it has its quota, or there is nothing to take. -/
def Content (parties : Finset π) (loads : π → Nat) (spare n : Nat) (p : π) : Prop :=
  quota (visible parties loads p) n (loads p) ≤ loads p ∨
    spare = 0 ∧ ∀ q ∈ parties, q ≠ p → loads q ≤ quota (visible parties loads p) n (loads p)

section Even

variable {loads : π → Nat} {spare n : Nat}

theorem quota_le_iff {visible own : Nat} :
    quota visible n own ≤ own ↔ n / visible + (if 0 < n % visible then 1 else 0) ≤ own := by
  unfold quota
  split <;> split <;> omega

theorem visible_idle (idle : loads p = 0) :
    visible parties loads p = (parties.filter fun q => 0 < loads q).card + 1 := by
  rw [visible, card_insert_of_notMem]
  simp [idle]

theorem visible_busy (mem : p ∈ parties) (busy : 0 < loads p) :
    visible parties loads p = (parties.filter fun q => 0 < loads q).card := by
  rw [visible, insert_eq_of_mem]
  exact mem_filter.mpr ⟨mem, busy⟩

theorem quota_below {visible own : Nat} (below : own < n / visible) :
    quota visible n own = n / visible := by
  unfold quota
  rw [if_neg fun h => absurd h.2 (Nat.not_le_of_lt below), Nat.add_zero]

theorem quota_least {visible own : Nat} (least : n / visible ≤ own) :
    quota visible n own = n / visible + if 0 < n % visible then 1 else 0 := by
  unfold quota
  simp only [least, and_true]

/-- Whoever owns nothing of `n` items has its quota only if there are none. -/
theorem quota_idle {visible : Nat} (has : quota visible n 0 ≤ 0) : n = 0 := by
  rw [quota_le_iff] at has
  have whole := Nat.div_add_mod n visible
  have none : n / visible = 0 := Nat.eq_zero_of_le_zero ((Nat.le_add_right _ _).trans has)
  have rest : ¬ 0 < n % visible := fun some => by
    rw [if_pos some] at has
    omega
  rw [none, Nat.mul_zero] at whole
  omega

section Sums

variable {q : Nat}

omit [DecidableEq π] in
theorem sum_ge (each : ∀ r ∈ parties, q ≤ loads r) : parties.card * q ≤ ∑ r ∈ parties, loads r := by
  show parties.card • q ≤ _
  exact card_nsmul_le_sum _ _ _ each

omit [DecidableEq π] in
theorem sum_le (each : ∀ r ∈ parties, loads r ≤ q) : ∑ r ∈ parties, loads r ≤ parties.card * q := by
  show _ ≤ parties.card • q
  exact sum_le_card_nsmul _ _ _ each

/-- One load above the others' bound, or below it. -/
theorem sum_ge_with (mem : p ∈ parties) (each : ∀ r ∈ parties, q ≤ loads r) :
    parties.card * q + loads p ≤ ∑ r ∈ parties, loads r + q := by
  have others : (parties.erase p).card * q ≤ ∑ r ∈ parties.erase p, loads r :=
    sum_ge fun r hr => each r (mem_of_mem_erase hr)
  have count := card_erase_add_one mem
  have total := add_sum_erase parties loads mem
  have product : parties.card * q = (parties.erase p).card * q + q := by rw [← count, Nat.succ_mul]
  omega

theorem sum_le_with (mem : p ∈ parties) (each : ∀ r ∈ parties, r ≠ p → loads r ≤ q) :
    ∑ r ∈ parties, loads r + q ≤ parties.card * q + loads p := by
  have others : ∑ r ∈ parties.erase p, loads r ≤ (parties.erase p).card * q :=
    sum_le fun r hr => each r (mem_of_mem_erase hr) (ne_of_mem_erase hr)
  have count := card_erase_add_one mem
  have total := add_sum_erase parties loads mem
  have product : parties.card * q = (parties.erase p).card * q + q := by rw [← count, Nat.succ_mul]
  omega

end Sums

theorem spare_eq_zero (some : parties.Nonempty) (total : ∑ r ∈ parties, loads r + spare = n)
    (content : ∀ r ∈ parties, Content parties loads spare n r) : spare = 0 := by
  by_contra open_
  have has : ∀ r ∈ parties, quota (visible parties loads r) n (loads r) ≤ loads r := fun r hr =>
    (content r hr).resolve_right fun none => open_ none.1
  by_cases idle : ∃ r ∈ parties, loads r = 0
  · obtain ⟨r, hr, none⟩ := idle
    have quotaOf := has r hr
    rw [none] at quotaOf
    have := quota_idle quotaOf
    omega
  · have busy : ∀ r ∈ parties, 0 < loads r := fun r hr =>
      Nat.pos_of_ne_zero fun none => idle ⟨r, hr, none⟩
    have all : parties.filter (fun q => 0 < loads q) = parties := filter_true_of_mem busy
    have each : ∀ r ∈ parties,
        n / parties.card + (if 0 < n % parties.card then 1 else 0) ≤ loads r := by
      intro r hr
      have quotaOf := has r hr
      rw [visible_busy hr (busy r hr), all] at quotaOf
      exact quota_le_iff.mp quotaOf
    have sum := sum_ge each
    have whole := Nat.div_add_mod n parties.card
    have small := Nat.mod_lt n (card_pos.mpr some)
    rw [Nat.mul_add] at sum
    split at sum <;> omega

/-- The loads where somebody owns nothing: there are not enough items for all. -/
theorem shares_few (total : ∑ r ∈ parties, loads r = n)
    (content : ∀ r ∈ parties, Content parties loads 0 n r) (mem : p ∈ parties)
    (idle : loads p = 0) : n < parties.card ∧ ∀ r ∈ parties, loads r ≤ 1 := by
  have busyCard : (parties.filter fun q => 0 < loads q).card < parties.card :=
    card_lt_card (filter_ssubset.mpr ⟨p, mem, by omega⟩)
  have contentP := content p mem
  unfold Content at contentP
  rw [visible_idle idle, idle] at contentP
  generalize hm : (parties.filter fun q => 0 < loads q).card = m at busyCard contentP
  have onBusy : ∑ r ∈ parties.filter (fun q => 0 < loads q), loads r = n := by
    rw [← total]
    refine sum_filter_of_ne fun r _ ne => Nat.pos_of_ne_zero ne
  rcases contentP with has | ⟨_, within⟩
  · have nothing := quota_idle has
    refine ⟨by omega, fun r hr => ?_⟩
    have part := single_le_sum (f := loads) (fun _ _ => Nat.zero_le _) hr
    omega
  · -- the least share is zero: else those that own something could not own everything
    have least : n / (m + 1) = 0 := by
      by_contra some
      rw [quota_below (Nat.pos_of_ne_zero some)] at within
      have most : ∑ r ∈ parties.filter (fun q => 0 < loads q), loads r ≤ m * (n / (m + 1)) := by
        have each : ∀ r ∈ parties.filter (fun q => 0 < loads q), loads r ≤ n / (m + 1) := by
          intro r hr
          obtain ⟨hr, busy⟩ := mem_filter.mp hr
          refine within r hr fun same => ?_
          rw [same, idle] at busy
          omega
        have sum := sum_le each
        rw [hm] at sum
        exact sum
      have whole := Nat.mul_div_le n (m + 1)
      rw [Nat.succ_mul] at whole
      generalize n / (m + 1) = least at *
      omega
    have small : n < m + 1 := by
      rcases Nat.div_eq_zero_iff.mp least with none | less
      · omega
      · exact less
    refine ⟨by omega, fun r hr => ?_⟩
    by_cases same : r = p
    · rw [same, idle]
      omega
    · have bound := within r hr same
      unfold quota at bound
      split at bound <;> omega

/-- The loads where everybody owns something. -/
theorem shares_many (some : parties.Nonempty) (total : ∑ r ∈ parties, loads r = n)
    (content : ∀ r ∈ parties, Content parties loads 0 n r) (busy : ∀ r ∈ parties, 0 < loads r) :
    ∀ r ∈ parties, n / parties.card ≤ loads r ∧
      loads r ≤ n / parties.card + if 0 < n % parties.card then 1 else 0 := by
  have all : parties.filter (fun q => 0 < loads q) = parties := filter_true_of_mem busy
  have sees : ∀ r ∈ parties, quota parties.card n (loads r) ≤ loads r ∨
      ∀ q ∈ parties, q ≠ r → loads q ≤ quota parties.card n (loads r) := by
    intro r hr
    have contentR := content r hr
    unfold Content at contentR
    rw [visible_busy hr (busy r hr), all] at contentR
    exact contentR.imp_right fun h => h.2
  have whole := Nat.div_add_mod n parties.card
  have small := Nat.mod_lt n (card_pos.mpr some)
  have low : ∀ r ∈ parties, n / parties.card ≤ loads r := by
    intro r hr
    by_contra below
    have others := sees r hr
    rw [quota_below (Nat.lt_of_not_le below)] at others
    have bound := sum_le_with hr (others.resolve_left below)
    omega
  refine fun r hr => ⟨low r hr, ?_⟩
  by_contra above
  -- somebody owns no more than the least share, and does not take from `r`
  obtain ⟨p, mem, least⟩ : ∃ p ∈ parties, loads p ≤ n / parties.card := by
    by_contra none
    push Not at none
    have sum := sum_ge_with hr none
    rw [Nat.mul_succ] at sum
    split at above <;> omega
  have others := sees p mem
  rw [quota_least (low p mem)] at others
  split at above
  · rename_i rest
    rw [if_pos rest] at others
    have bound := others.resolve_left (by omega) r hr fun same => by
      rw [same] at above
      omega
    omega
  · have sum := sum_ge_with hr low
    omega

/-- **Where everybody is content, everything is owned and the loads differ by at most one.** -/
theorem shares_even (some : parties.Nonempty) (total : ∑ r ∈ parties, loads r + spare = n)
    (content : ∀ r ∈ parties, Content parties loads spare n r) :
    spare = 0 ∧ ∀ r ∈ parties,
      loads r = n / parties.card ∨ loads r = (n + parties.card - 1) / parties.card := by
  have nothing := spare_eq_zero some total content
  subst nothing
  refine ⟨rfl, ?_⟩
  have pos := card_pos.mpr some
  by_cases idle : ∃ r ∈ parties, loads r = 0
  · obtain ⟨p, mem, idle⟩ := idle
    obtain ⟨few, one⟩ := shares_few total content mem idle
    intro r hr
    have bound := one r hr
    have part := single_le_sum (f := loads) (fun _ _ => Nat.zero_le _) hr
    rcases Nat.eq_zero_or_pos (loads r) with none | some
    · left
      rw [none, Nat.div_eq_of_lt few]
    · right
      have high : (n + parties.card - 1) / parties.card = 1 :=
        Nat.div_eq_of_lt_le (by omega) (by omega)
      omega
  · have busy : ∀ r ∈ parties, 0 < loads r := fun r hr =>
      Nat.pos_of_ne_zero fun none => idle ⟨r, hr, none⟩
    intro r hr
    obtain ⟨low, high⟩ := shares_many some total content busy r hr
    have whole := Nat.div_add_mod n parties.card
    split at high
    · rcases Nat.eq_or_lt_of_le low with same | more
      · exact .inl same.symm
      · right
        have ceil : (n + parties.card - 1) / parties.card = n / parties.card + 1 := by
          have small := Nat.mod_lt n pos
          refine Nat.div_eq_of_lt_le ?_ ?_
          · rw [Nat.succ_mul, Nat.mul_comm]
            omega
          · rw [Nat.succ_mul, Nat.succ_mul, Nat.mul_comm]
            omega
        omega
    · left
      omega

end Even

end Shares

end AzureSdk.Theory
