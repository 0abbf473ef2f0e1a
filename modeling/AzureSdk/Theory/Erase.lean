/-
# Theory.Erase — removing several positions of a list

Positions are removed from the last one to the first, so that the ones still to be
removed do not move.  What is removed and what is left is a rearrangement of the
list (`perm_eraseAll`); membership and lengths follow from that.
-/
import Mathlib.Data.List.Perm.Basic
import Mathlib.Data.List.Sort
import Mathlib.Data.Nat.Basic

namespace AzureSdk.Theory.Erase

open List

variable {α β : Type}

variable {item : β → α} {position : β → Nat} {l : List α}

/-- Removing positions from the last to the first takes out what stands there. -/
theorem perm_foldl_eraseIdx : ∀ {picks : List β} {l : List α},
    picks.Pairwise (fun a b => position b < position a) →
    (∀ p ∈ picks, l[position p]? = some (item p)) →
    l.Perm (picks.map item ++ (picks.map position).foldl eraseIdx l)
  | [], l, _, _ => .refl l
  | p :: picks, l, descending, at_ => by
    obtain ⟨below, rest⟩ := pairwise_cons.mp descending
    have stays : ∀ q ∈ picks, (l.eraseIdx (position p))[position q]? = some (item q) := by
      intro q hq
      rw [getElem?_eraseIdx_of_lt (below q hq)]
      exact at_ q (.tail _ hq)
    obtain ⟨bound, here⟩ := List.getElem?_eq_some_iff.mp (at_ p (.head _))
    have first : l.Perm (item p :: l.eraseIdx (position p)) := by
      rw [← here]
      exact (getElem_cons_eraseIdx_perm bound).symm
    exact first.trans ((perm_foldl_eraseIdx rest stays).cons (item p))

theorem perm_erase_pair {i j : Nat} {a b : α} (below : i < j)
    (ha : l[i]? = some a) (hb : l[j]? = some b) : l.Perm (a :: b :: (l.eraseIdx j).eraseIdx i) := by
  have split : l.Perm ([(j, b), (i, a)].map Prod.snd ++
      ([(j, b), (i, a)].map Prod.fst).foldl eraseIdx l) :=
    perm_foldl_eraseIdx (by simpa using below) (by simp [ha, hb])
  exact split.trans (.swap a b _)

/-- Removes the positions, the last one first. -/
def eraseAll (l : List α) (positions : List Nat) : List α :=
  (positions.insertionSort (· ≥ ·)).foldl List.eraseIdx l

theorem eraseAll_sublist (l : List α) (positions : List Nat) : (eraseAll l positions).Sublist l := by
  unfold eraseAll
  generalize positions.insertionSort (· ≥ ·) = descending
  induction descending generalizing l with
  | nil => exact .refl l
  | cons p descending ih => exact (ih (l.eraseIdx p)).trans (eraseIdx_sublist l p)

theorem perm_eraseAll {picks : List β}
    (distinct : (picks.map position).Nodup) (at_ : ∀ p ∈ picks, l[position p]? = some (item p)) :
    l.Perm (picks.map item ++ eraseAll l (picks.map position)) := by
  let descending : List β := picks.insertionSort fun a b => position a ≥ position b
  have same : descending.Perm picks := perm_insertionSort _ picks
  have sorted : descending.map position = (picks.map position).insertionSort (· ≥ ·) :=
    map_insertionSort _ _ position picks fun _ _ _ _ => Iff.rfl
  have weakly : descending.Pairwise fun a b => position a ≥ position b := by
    refine pairwise_map.mp ?_
    rw [sorted]
    exact pairwise_insertionSort (· ≥ ·) _
  have apart : descending.Pairwise fun a b => position a ≠ position b :=
    pairwise_map.mp ((same.map position).nodup_iff.mpr distinct)
  have strictly : descending.Pairwise fun a b => position b < position a :=
    (weakly.and apart).imp fun ⟨le, ne⟩ => by omega
  have split := perm_foldl_eraseIdx strictly fun p hp => at_ p (same.mem_iff.mp hp)
  rw [sorted] at split
  exact split.trans ((same.map item).append_right _)

/-- The elements that are not among the removed ones. -/
def without [DecidableEq α] (l gone : List α) : List α := l.filter fun x => x ∉ gone

/-- What is left in order, when the rest was taken out of a list without duplicates. -/
theorem eq_without_of_perm [DecidableEq α] {gone left : List α} (distinct : l.Nodup)
    (inner : left.Sublist l) (split : l.Perm (gone ++ left)) : left = without l gone := by
  have apart := (nodup_append.mp (split.nodup_iff.mp distinct)).2.2
  have kept : left.filter (fun x => x ∉ gone) = left :=
    filter_eq_self.mpr fun x hx => by
      simpa using fun hg => apart x hg x hx rfl
  have dropped : gone.filter (fun x => x ∉ gone) = [] := by simp
  have size : (l.filter fun x => x ∉ gone).length = left.length := by
    rw [(split.filter _).length_eq, filter_append, kept, dropped, nil_append]
  have sub := inner.filter (fun x => decide (x ∉ gone))
  rw [kept] at sub
  exact sub.eq_of_length size.symm

end AzureSdk.Theory.Erase
