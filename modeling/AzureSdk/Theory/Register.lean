/-
# Theory.Register — a register with versions

A register keeps every version it has held, newest first, each under a tag of its own.
A write that names a tag it has read goes through only while the version of that tag is
the current one (`Register.swap`); so what it writes follows the version it has read
(`Register.eq_current`).

One writer is singled out as the owner.  `Derived` says that each of its versions is
related to the version right before it.
-/
import Mathlib.Data.List.Nodup

namespace AzureSdk.Theory

/-- Who has written a version: the writer looked at, or any other. -/
inductive Author
  | own
  | other
  deriving DecidableEq, Repr

structure Version (τ β : Type) where
  author : Author
  tag : τ
  body : β

/-- The current version and the older ones, newest first; no tag is used twice. -/
structure Register (τ β : Type) where
  current : Version τ β
  older : List (Version τ β)
  distinct : ((current :: older).map (·.tag)).Nodup

namespace Register

variable {τ β : Type} {r r' : Register τ β} {v : Version τ β}

def versions (r : Register τ β) : List (Version τ β) := r.current :: r.older

/-- How many versions the owner has written. -/
def owned (r : Register τ β) : Nat := r.versions.countP fun v => v.author = .own

section Writes

variable [DecidableEq τ]

/-- A new version, under a tag that is not used yet. -/
def commit (r : Register τ β) (v : Version τ β) : Option (Register τ β) :=
  if fresh : v.tag ∉ r.versions.map (·.tag) then
    some ⟨v, r.versions, List.nodup_cons.mpr ⟨fresh, r.distinct⟩⟩
  else none

/-- A write on the condition that the tag is the current one. -/
def swap (r : Register τ β) (expected : τ) (v : Version τ β) : Option (Register τ β) :=
  if r.current.tag = expected then r.commit v else none

theorem commit_versions (h : r.commit v = some r') : r'.versions = v :: r.versions := by
  unfold commit at h
  split at h
  · cases h
    rfl
  · cases h

theorem swap_eq_some {expected : τ} (h : r.swap expected v = some r') :
    r.current.tag = expected ∧ r.commit v = some r' := by
  unfold swap at h
  split at h
  · exact ⟨by assumption, h⟩
  · cases h

theorem commit_owned (h : r.commit v = some r') :
    r'.owned = r.owned + if v.author = .own then 1 else 0 := by
  unfold owned
  rw [commit_versions h, List.countP_cons]
  simp only [decide_eq_true_eq]

end Writes

theorem eq_current (mem : v ∈ r.versions) (same : r.current.tag = v.tag) : v = r.current := by
  rcases List.mem_cons.mp mem with eq | older
  · exact eq
  · refine absurd ?_ (List.nodup_cons.mp r.distinct).1
    show r.current.tag ∈ _
    rw [same]
    exact List.mem_map_of_mem older

/-! ## Versions that follow one another -/

/-- Each version of the owner comes from the version right before it. -/
def Follows (R : β → β → Prop) : List (Version τ β) → Prop
  | [] => True
  | [v] => v.author = .other
  | v :: before :: older => (v.author = .own → R before.body v.body) ∧ Follows R (before :: older)

def Derived (R : β → β → Prop) (r : Register τ β) : Prop := Follows R r.versions

variable {R : β → β → Prop}

theorem derived_of_commit [DecidableEq τ] (derived : r.Derived R) (h : r.commit v = some r')
    (step : v.author = .own → R r.current.body v.body) : r'.Derived R := by
  unfold Derived
  rw [commit_versions h]
  exact ⟨step, derived⟩

/-- A register the owner has not written. -/
def Foreign (r : Register τ β) : Prop := ∀ v ∈ r.versions, v.author = .other

theorem Foreign.owned (foreign : r.Foreign) : r.owned = 0 := by
  rw [Register.owned, List.countP_eq_zero]
  intro v mem
  simp [foreign v mem]

theorem follows_of_foreign : ∀ {l : List (Version τ β)}, (∀ v ∈ l, v.author = .other) → Follows R l
  | [], _ => trivial
  | [v], foreign => foreign v (.head _)
  | v :: before :: older, foreign => by
    refine ⟨fun own => ?_, follows_of_foreign fun w mem => foreign w (.tail _ mem)⟩
    rw [foreign v (.head _)] at own
    cases own

end Register

end AzureSdk.Theory
