/-
# Theory.Except — calls that succeed

Where a chain of calls succeeds, each of them has; a map or a filter over a list succeeds item by
item.
-/
namespace AzureSdk.Theory

open List

variable {ε α β : Type}

variable {f : α → Except ε β} {x : Except ε α} {p : α → Except ε Bool}

theorem bind_ok {b : β} (h : (x >>= f) = .ok b) : ∃ a, x = .ok a ∧ f a = .ok b := by
  cases x with
  | error e => exact absurd h (by simp [bind, Except.bind])
  | ok a => exact ⟨a, rfl, h⟩

theorem map_ok {f : α → β} {b : β} (h : x.map f = .ok b) : ∃ a, x = .ok a ∧ f a = b := by
  cases x with
  | error e => cases h
  | ok a =>
    cases h
    exact ⟨a, rfl, rfl⟩

theorem mapM_ok : ∀ {l : List α} {out : List β},
    l.mapM f = .ok out → (∀ a ∈ l, ∃ b ∈ out, f a = .ok b) ∧ ∀ b ∈ out, ∃ a ∈ l, f a = .ok b
  | [], out, h => by
    cases h
    simp
  | a :: l, out, h => by
    rw [mapM_cons] at h
    obtain ⟨b, first, h⟩ := bind_ok h
    obtain ⟨bs, rest, h⟩ := bind_ok h
    cases h
    obtain ⟨forth, back⟩ := mapM_ok rest
    constructor
    · refine forall_mem_cons.mpr ⟨⟨b, mem_cons_self, first⟩, fun x hx => ?_⟩
      obtain ⟨y, hy, read⟩ := forth x hx
      exact ⟨y, mem_cons_of_mem b hy, read⟩
    · refine forall_mem_cons.mpr ⟨⟨a, mem_cons_self, first⟩, fun y hy => ?_⟩
      obtain ⟨x, hx, read⟩ := back y hy
      exact ⟨x, mem_cons_of_mem a hx, read⟩

theorem mapM_some {f : α → Option β} : ∀ {l : List α} {out : List β}, l.mapM f = some out →
    ∀ a ∈ l, ∃ b ∈ out, f a = some b
  | [], _, _ => by simp
  | a :: l, out, h => by
    rw [mapM_cons] at h
    obtain ⟨b, first, h⟩ := Option.bind_eq_some_iff.mp h
    obtain ⟨bs, rest, h⟩ := Option.bind_eq_some_iff.mp h
    cases h
    refine forall_mem_cons.mpr ⟨⟨b, mem_cons_self, first⟩, fun x hx => ?_⟩
    obtain ⟨y, hy, read⟩ := mapM_some rest x hx
    exact ⟨y, mem_cons_of_mem b hy, read⟩

theorem mem_filterAuxM : ∀ {l kept out : List α},
    l.filterAuxM p kept = .ok out → ∀ a, a ∈ out ↔ (a ∈ l ∧ p a = .ok true) ∨ a ∈ kept
  | [], kept, out, h => by
    cases h
    simp
  | x :: l, kept, out, h => by
    rw [filterAuxM] at h
    obtain ⟨b, first, h⟩ := bind_ok h
    intro a
    rw [mem_filterAuxM h a, mem_cons]
    by_cases same : a = x
    · subst same
      cases b <;> simp [first]
    · cases b <;> simp [same]

theorem mem_filterM {l out : List α} (h : l.filterM p = .ok out) {a : α} :
    a ∈ out ↔ a ∈ l ∧ p a = .ok true := by
  obtain ⟨kept, filtered, h⟩ := bind_ok h
  cases h
  rw [mem_reverse, mem_filterAuxM filtered]
  simp

end AzureSdk.Theory
