/-
# Theory.Bytes — words of fixed width and readers of byte strings

A reader takes bytes from the front of a string and leaves the rest.  `Reads read
bytes a` says that `read` takes exactly these bytes for `a`, whatever follows them;
it composes along `bind`, so that a format is read back field by field.

The other direction is `Local`: what a successful read returns depends on the bytes
it took and on nothing behind them.
-/
import Mathlib.Algebra.Order.Ring.Nat
import Mathlib.Tactic.Ring

namespace AzureSdk.Theory.Bytes

/-! ## Words -/

/-- The `width` low bytes of a number, the lowest first. -/
def leBytes : Nat → Nat → List UInt8
  | 0, _ => []
  | width + 1, n => UInt8.ofNat n :: leBytes width (n / 256)

/-- The number of a little-endian byte string. -/
def ofLe : List UInt8 → Nat
  | [] => 0
  | b :: bytes => b.toNat + 256 * ofLe bytes

@[simp] theorem length_leBytes (width n : Nat) : (leBytes width n).length = width := by
  induction width generalizing n with
  | zero => rfl
  | succ width ih => simp [leBytes, ih]

theorem ofLe_leBytes (width n : Nat) : ofLe (leBytes width n) = n % 256 ^ width := by
  induction width generalizing n with
  | zero => simp [leBytes, ofLe, Nat.mod_one]
  | succ width ih =>
    rw [leBytes, ofLe, ih, UInt8.toNat_ofNat']
    show n % 256 + 256 * (n / 256 % 256 ^ width) = n % 256 ^ (width + 1)
    rw [pow_succ, Nat.mul_comm (256 ^ width) 256, Nat.mod_mul]

/-- The `width` low bytes of a number, the highest first. -/
def beBytes : Nat → Nat → List UInt8
  | 0, _ => []
  | width + 1, n => UInt8.ofNat (n / 256 ^ width) :: beBytes width (n % 256 ^ width)

/-- The number of a big-endian byte string. -/
def ofBe : List UInt8 → Nat
  | [] => 0
  | b :: bytes => b.toNat * 256 ^ bytes.length + ofBe bytes

@[simp] theorem length_beBytes (width n : Nat) : (beBytes width n).length = width := by
  induction width generalizing n with
  | zero => rfl
  | succ width ih => simp [beBytes, ih]

variable {n : Nat}

theorem toNat_ofNat_of_lt (small : n < 256) : (UInt8.ofNat n).toNat = n := by
  exact Nat.mod_eq_of_lt small

theorem ofBe_beBytes {width : Nat} (small : n < 256 ^ width) : ofBe (beBytes width n) = n := by
  induction width generalizing n with
  | zero =>
    rw [pow_zero, Nat.lt_one_iff] at small
    rw [small]
    rfl
  | succ width ih =>
    rw [beBytes, ofBe, length_beBytes, ih (Nat.mod_lt _ (Nat.pow_pos (by decide))),
      toNat_ofNat_of_lt (Nat.div_lt_of_lt_mul (pow_succ 256 width ▸ small))]
    exact Nat.div_add_mod' n (256 ^ width)

theorem ofBe_lt : ∀ bytes : List UInt8, ofBe bytes < 256 ^ bytes.length
  | [] => by decide
  | b :: bytes => by
    have first : (b.toNat + 1) * 256 ^ bytes.length ≤ 256 * 256 ^ bytes.length :=
      Nat.mul_le_mul_right _ b.toNat_lt
    have rest := ofBe_lt bytes
    rw [ofBe, List.length_cons, pow_succ']
    rw [Nat.add_mul, Nat.one_mul] at first
    omega

theorem ofBe_concat (b : UInt8) : ∀ bytes : List UInt8,
    ofBe (bytes ++ [b]) = ofBe bytes * 256 + b.toNat
  | [] => by simp [ofBe]
  | a :: bytes => by
    rw [List.cons_append, ofBe, ofBe, ofBe_concat b bytes, List.length_append]
    simp only [List.length_singleton, pow_succ]
    ring

/-! ## Order -/

/-- The two strings differ somewhere, and where they first do the first one has the smaller byte. -/
def Below : List UInt8 → List UInt8 → Prop
  | a :: as, b :: bs => a < b ∨ a = b ∧ Below as bs
  | _, _ => False

theorem Below.compare_lt : ∀ {as bs : List UInt8}, Below as bs → compare as bs = .lt
  | a :: as, b :: bs, h => by
    rw [List.compare_cons_cons]
    rcases h with less | ⟨rfl, rest⟩
    · rw [Std.compare_eq_lt.mpr less]
      rfl
    · rw [(Std.ReflCmp.compare_self : compare a a = .eq), rest.compare_lt]
      rfl

theorem Below.apart : ∀ {as bs : List UInt8}, Below as bs → ¬ as <+: bs ∧ ¬ bs <+: as
  | a :: as, b :: bs, h => by
    rw [List.cons_prefix_cons, List.cons_prefix_cons]
    rcases h with less | ⟨rfl, rest⟩
    · exact ⟨fun h => UInt8.lt_irrefl _ (h.1 ▸ less), fun h => UInt8.lt_irrefl _ (h.1 ▸ less)⟩
    · exact ⟨fun h => rest.apart.1 h.2, fun h => rest.apart.2 h.2⟩

/-! ## Readers -/

/-- Takes bytes from the front, or fails. -/
abbrev Reader (ε : Type) := StateT (List UInt8) (Except ε)

section Readers

variable {ε α β : Type}

/-- The reader takes these bytes for this value. -/
def Reads (read : Reader ε α) (bytes : List UInt8) (a : α) : Prop :=
  ∀ rest, read (bytes ++ rest) = .ok (a, rest)

theorem reads_pure (a : α) : Reads (pure a : Reader ε α) [] a := fun _ => rfl

variable {a : α} {b : β} {next : α → Reader ε β} {read : Reader ε α} {bad : ε → Prop}

theorem Reads.bind {first second : List UInt8} (ha : Reads read first a) (hb : Reads (next a) second b) :
    Reads (read >>= next) (first ++ second) b := by
  intro rest
  show (read ((first ++ second) ++ rest) >>= fun p => next p.1 p.2) = _
  rw [List.append_assoc, ha (second ++ rest)]
  exact hb rest

theorem Reads.last {bytes : List UInt8}
    (ha : Reads read bytes a) (hb : Reads (next a) [] b) : Reads (read >>= next) bytes b := by
  have both := ha.bind hb
  rwa [List.append_nil] at both

/-- A check between two fields takes no bytes. -/
theorem Reads.lift {bytes : List UInt8}
    (h : Reads (next a) bytes b) : Reads (liftM (.ok a : Except ε α) >>= next) bytes b := h

theorem bind_eq_ok {src rest : List UInt8} (h : (read >>= next) src = .ok (b, rest)) :
    ∃ a left, read src = .ok (a, left) ∧ next a left = .ok (b, rest) := by
  have : (read src >>= fun p => next p.1 p.2) = .ok (b, rest) := h
  cases run : read src with
  | error e =>
    rw [run] at this
    cases this
  | ok p =>
    rw [run] at this
    exact ⟨p.1, p.2, rfl, this⟩

/-- What the reader returns depends on the bytes it takes alone. -/
def Local (read : Reader ε α) : Prop :=
  ∀ src a rest, read src = .ok (a, rest) → ∃ bytes, src = bytes ++ rest ∧ Reads read bytes a

theorem local_pure (a : α) : Local (pure a : Reader ε α) := by
  intro src a' rest h
  cases h
  exact ⟨[], rfl, reads_pure a⟩

theorem local_throw (e : ε) : Local (throw e : Reader ε α) := by
  intro src a rest h
  cases h

theorem Local.bind (hr : Local read) (hn : ∀ a, Local (next a)) : Local (read >>= next) := by
  intro src b rest h
  obtain ⟨a, left, first, second⟩ := bind_eq_ok h
  obtain ⟨bytes, rfl, readsA⟩ := hr _ _ _ first
  obtain ⟨more, rfl, readsB⟩ := hn a _ _ _ second
  exact ⟨bytes ++ more, by rw [List.append_assoc], readsA.bind readsB⟩

/-- The reader takes at least `n` bytes. -/
def Takes (n : Nat) (read : Reader ε α) : Prop :=
  ∀ src a rest, read src = .ok (a, rest) → rest.length + n ≤ src.length

theorem Takes.bind {n : Nat} (hr : Takes n read)
    (hn : ∀ a, Local (next a)) : Takes n (read >>= next) := by
  intro src b rest h
  obtain ⟨a, left, first, second⟩ := bind_eq_ok h
  have taken := hr _ _ _ first
  obtain ⟨bytes, rfl, _⟩ := hn a _ _ _ second
  rw [List.length_append] at taken
  omega

/-- Some input makes the reader return the value. -/
def Returns (read : Reader ε α) (a : α) : Prop := ∃ src rest, read src = .ok (a, rest)

/-- A reader of untrusted bytes: local, and none of its failures is a bad one. -/
structure Safe (bad : ε → Prop) (read : Reader ε α) : Prop where
  isLocal : Local read
  never : ∀ {src e}, read src = .error e → ¬ bad e

theorem safe_pure (a : α) : Safe bad (pure a : Reader ε α) :=
  ⟨local_pure a, fun h => by cases h⟩

theorem safe_throw {e : ε} (fine : ¬ bad e) : Safe bad (throw e : Reader ε α) := by
  refine ⟨local_throw e, fun h => ?_⟩
  cases h
  exact fine

theorem safe_lift {x : Except ε α} (fine : ∀ e, x = .error e → ¬ bad e) :
    Safe bad (liftM x : Reader ε α) := by
  cases x with
  | ok a => exact safe_pure a
  | error e => exact safe_throw (fine e rfl)

theorem Safe.bind (hr : Safe bad read) (hl : ∀ a, Local (next a))
    (hn : ∀ a, Returns read a → Safe bad (next a)) : Safe bad (read >>= next) := by
  refine ⟨hr.isLocal.bind hl, fun {src e} h => ?_⟩
  have run : (read src >>= fun p => next p.1 p.2) = .error e := h
  cases first : read src with
  | error e' =>
    rw [first] at run
    cases run
    exact hr.never first
  | ok p =>
    rw [first] at run
    exact (hn p.1 ⟨src, p.2, first⟩).never run

/-- Where what comes next is safe after any value. -/
theorem Safe.then (hr : Safe bad read) (hn : ∀ a, Safe bad (next a)) : Safe bad (read >>= next) :=
  hr.bind (fun a => (hn a).isLocal) fun a _ => hn a

/-- Where a value is all that is made of what was read. -/
theorem Safe.map (hr : Safe bad read) (f : α → β) : Safe bad (read >>= fun a => pure (f a)) :=
  hr.then fun a => safe_pure (f a)

end Readers

/-- Items read one after the other until nothing is left. -/
inductive ReadsAll {ε α : Type} (read : Reader ε α) : List UInt8 → List α → Prop
  | nil : ReadsAll read [] []
  | cons {src rest : List UInt8} {a : α} {as : List α} (more : src ≠ [])
    (first : read src = .ok (a, rest)) (others : ReadsAll read rest as) :
    ReadsAll read src (a :: as)

end AzureSdk.Theory.Bytes
