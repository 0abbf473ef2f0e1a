/-
# Theory.Join — what separators tell apart

Lists that a separator stands between are told apart by it as long as it is in none of them.  A
part that is the same on both sides may have it all the same (`ended_inj`), and so may the last
one.  Codes that tell where they end need no separator (`flatMap_inj`).
-/
import Mathlib.Data.List.Forall2
import Mathlib.Data.List.Basic

namespace AzureSdk.Theory

open List

variable {α : Type}

/-- The first separator ends the first part. -/
theorem append_cons_inj {sep : α} : ∀ {a a' b b' : List α}, sep ∉ a → sep ∉ a' →
    a ++ sep :: b = a' ++ sep :: b' → a = a' ∧ b = b'
  | [], [], b, b', _, _, same => ⟨rfl, (cons.inj same).2⟩
  | [], c :: a', b, b', _, fresh, same =>
    absurd (mem_cons.mpr (.inl (cons.inj same).1)) fresh
  | c :: a, [], b, b', fresh, _, same =>
    absurd (mem_cons.mpr (.inl (cons.inj same).1.symm)) fresh
  | c :: a, c' :: a', b, b', fresh, fresh', same => by
    obtain ⟨rfl, more⟩ := cons.inj same
    obtain ⟨rfl, rest⟩ := append_cons_inj (fun mem => fresh (.tail _ mem))
      (fun mem => fresh' (.tail _ mem)) more
    exact ⟨rfl, rest⟩

/-- The parts, each with a separator after it, and the rest. -/
def ended (sep : α) (parts : List (List α)) (rest : List α) : List α :=
  parts.foldr (fun part rest => part ++ sep :: rest) rest

theorem ended_append (sep : α) (first second : List (List α)) (rest : List α) :
    ended sep (first ++ second) rest = ended sep first (ended sep second rest) := by
  rw [ended, foldr_append]
  rfl

theorem ended_inj {sep : α} {parts parts' : List (List α)} {rest rest' : List α}
    (alike : List.Forall₂ (fun p q => p = q ∨ sep ∉ p ∧ sep ∉ q) parts parts')
    (same : ended sep parts rest = ended sep parts' rest') : parts = parts' ∧ rest = rest' := by
  induction alike with
  | nil => exact ⟨rfl, same⟩
  | @cons p q ps qs one _ ih =>
    have first : p = q ∧ ended sep ps rest = ended sep qs rest' := by
      rcases one with rfl | ⟨fresh, fresh'⟩
      · exact ⟨rfl, (cons.inj (append_cancel_left same)).2⟩
      · exact append_cons_inj fresh fresh' same
    obtain ⟨rfl, more⟩ := first
    obtain ⟨rfl, rest⟩ := ih more
    exact ⟨rfl, rest⟩

theorem intercalate_append (sep : α) (part : List α) (parts : List (List α)) :
    ∀ first : List (List α),
      [sep].intercalate (first ++ part :: parts) = ended sep first ([sep].intercalate (part :: parts))
  | [] => rfl
  | [one] => by
    rfl
  | one :: two :: first => by
    rw [cons_append, cons_append, intercalate_cons_cons, ← cons_append,
      intercalate_append sep part parts (two :: first), append_assoc]
    rfl

/-- Codes that tell where they end can be written one after the other. -/
theorem flatMap_inj {β : Type} {code : β → List α} (some : ∀ b, code b ≠ [])
    (ends : ∀ {b b' rest rest'}, code b ++ rest = code b' ++ rest' → b = b' ∧ rest = rest') :
    ∀ {l l' : List β}, l.flatMap code = l'.flatMap code → l = l'
  | [], [], _ => rfl
  | [], b :: l', same => absurd (append_eq_nil_iff.mp same.symm).1 (some b)
  | b :: l, [], same => absurd (append_eq_nil_iff.mp same).1 (some b)
  | b :: l, b' :: l', same => by
    obtain ⟨rfl, rest⟩ := ends same
    rw [flatMap_inj some ends rest]

end AzureSdk.Theory
