/-
# Cosmos.Rntbd.ResponseRead — reading a response is total and exact

`read_framed` takes the length checks and slices away: on a length, a frame of that
length and a tail, `read` is the frame's reading followed by the body's.
`read_cases` says that every other input is a returned error.  So nothing panics, and
a response depends on the bytes its lengths declare and on nothing behind them.

For a written frame the loop over the tokens is a fold of `Metadata.store`
(`readAll_eq_foldlM`), and the fold keeps the last value of each id
(`foldlM_store`).
-/
import AzureSdk.Cosmos.Rntbd.Response

namespace AzureSdk.Cosmos.Rntbd

open Theory Theory.Bytes List

/-! ## Without panics -/

/-- The result is a value or a returned error. -/
def Coded.NoPanic {α : Type} (x : Coded α) : Prop := ∀ e, x = .error e → ¬ e.IsPanic

variable {α : Type}

theorem Coded.noPanic_ok (a : α) : Coded.NoPanic (.ok a) := by
  intro e h
  cases h

theorem Coded.noPanic_error (message : String) :
    Coded.NoPanic (.error (.dataConversion message) : Coded α) := by
  intro e h
  cases h
  exact id

theorem Coded.NoPanic.bind {β : Type} {x : Coded α} {f : α → Coded β} (hx : Coded.NoPanic x)
    (hf : ∀ a, x = .ok a → Coded.NoPanic (f a)) : Coded.NoPanic (x >>= f) := by
  cases x with
  | ok a => exact hf a rfl
  | error e =>
    intro e' h
    cases h
    exact hx e rfl

theorem noPanic_of_safe {read : Read α} (h : Safe RntbdFault.IsPanic read)
    (src : List UInt8) : Coded.NoPanic (read src) := fun _ failed => h.never failed

theorem noPanic_expect (value : Option α) (name : String) : Coded.NoPanic (expect value name) := by
  cases value with
  | some a => exact Coded.noPanic_ok a
  | none => exact Coded.noPanic_error _

theorem noPanic_store (m : Metadata) (token : Token) : Coded.NoPanic (m.store token) := by
  unfold Metadata.store
  split
  case h_14 => exact Coded.noPanic_ok m
  all_goals exact (noPanic_expect _ _).bind fun value _ => Coded.noPanic_ok _

/-! ## The loop over the tokens -/

namespace Metadata

theorem readTokens_bound : ∀ {b₁ b₂ : Nat} {frame : List UInt8} (h₁ : frame.length ≤ b₁)
    (h₂ : frame.length ≤ b₂) (m : Metadata), readTokens b₁ frame h₁ m = readTokens b₂ frame h₂ m
  | b₁, b₂, [], h₁, h₂, m => by simp only [readTokens]
  | 0, _, _ :: _, h₁, _, _ => absurd h₁ (by simp)
  | _, 0, _ :: _, _, h₂, _ => absurd h₂ (by simp)
  | b₁ + 1, b₂ + 1, byte :: frame, h₁, h₂, m => by
    rw [readTokens, readTokens]
    split
    · rfl
    · exact congrArg _ (funext fun m => readTokens_bound _ _ m)

theorem length_le (frame : List UInt8) : frame.length ≤ frame.length := le_rfl

/-- The loop on a whole frame. -/
def readAll (frame : List UInt8) (m : Metadata) : Coded Metadata :=
  readTokens frame.length frame (length_le frame) m

theorem readAll_nil (m : Metadata) : readAll [] m = .ok m := by
  simp only [readAll, readTokens]

variable {frame : List UInt8}

theorem readAll_turn (more : frame ≠ []) (m : Metadata) :
    readAll frame m = (Token.readFrom frame >>= fun p => m.store p.1 >>= readAll p.2) := by
  cases frame with
  | nil => exact absurd rfl more
  | cons byte frame =>
    show readTokens (frame.length + 1) (byte :: frame) le_rfl m = _
    rw [readTokens]
    split
    next fault failed =>
      rw [failed]
      rfl
    next token rest taken =>
      conv_rhs => rw [taken]
      exact congrArg _ (funext fun m => readTokens_bound _ _ m)

/-- Where the frame is a list of tokens, the loop is a fold over them. -/
theorem readAll_eq_foldlM {tokens : List Token}
    (h : ReadsAll Token.readFrom frame tokens) (m : Metadata) :
    readAll frame m = tokens.foldlM store m := by
  induction h generalizing m with
  | nil => exact readAll_nil m
  | cons more first others ih =>
    rw [readAll_turn more, first, foldlM_cons]
    exact congrArg _ (funext fun m => ih m)

/-- The loop does not panic: by induction on the bytes left, of which a token takes some. -/
theorem noPanic_readAll (frame : List UInt8) (m : Metadata) : Coded.NoPanic (readAll frame m) := by
  induction length : frame.length using Nat.strong_induction_on generalizing frame m with
  | h n ih =>
    by_cases more : frame = []
    · rw [more, readAll_nil]
      exact Coded.noPanic_ok m
    · rw [readAll_turn more]
      refine (noPanic_of_safe Token.readFrom_safe frame).bind fun p taken => ?_
      refine (noPanic_store m p.1).bind fun m' _ => ?_
      have fewer := Token.readFrom_takes _ _ _ taken
      exact ih p.2.length (by omega) p.2 m' rfl

end Metadata

/-! ## Length, frame and tail -/

theorem readU32Le_eq_ok {src rest : List UInt8} {value : UInt32}
    (h : readU32Le src = .ok (value, rest)) :
    ∃ head, head.length = 4 ∧ src = head ++ rest ∧ Reads readU32Le head value := by
  obtain ⟨head, rfl, reads⟩ := safe_readU32Le.isLocal _ _ _ h
  refine ⟨head, ?_, rfl, reads⟩
  -- the four bytes of `read_exact`
  obtain ⟨word, left, h, isValue⟩ := bind_eq_ok (reads [])
  obtain ⟨array, left', h, isWord⟩ := bind_eq_ok h
  obtain ⟨bytes, left'', h, isArray⟩ := bind_eq_ok h
  obtain ⟨length, split⟩ := readExact_eq_ok h
  rw [dif_pos length] at isArray
  cases isArray
  cases isWord
  cases isValue
  rw [append_nil, append_nil] at split
  rw [split, length]

theorem slice_middle {head frame : List UInt8} (tail : List UInt8) :
    slice (head ++ (frame ++ tail)) head.length (head.length + frame.length) = .ok frame := by
  rw [slice, if_pos (by simp only [length_append]; omega), ← append_assoc,
    take_left' (by simp), drop_left]

theorem slice_tail (front tail : List UInt8) :
    slice (front ++ tail) front.length (front ++ tail).length = .ok tail := by
  rw [slice, if_pos (by simp only [length_append]; omega), take_length, drop_left]

namespace RntbdResponse

/-- The frame's reading and the body's. -/
def readParts (frame tail : List UInt8) : Coded RntbdResponse :=
  readFrame frame >>= fun p =>
    (if p.2.2.payloadPresent then readPayload tail else .ok []) >>= fun body =>
      .ok (assemble p.1 p.2.1 p.2.2 body)

variable {head body : List UInt8}

variable {frame tail : List UInt8} {length : UInt32}

/-- `read` on a length, a frame of that length and a tail. -/
theorem read_framed (tail : List UInt8)
    (four : head.length = 4) (reads : Reads readU32Le head length)
    (counted : length.toNat = head.length + frame.length) (full : 20 ≤ frame.length) :
    read (head ++ (frame ++ tail)) = readParts frame tail := by
  have short : ¬ length.toNat > (head ++ (frame ++ tail)).length := by
    simp only [length_append]
    omega
  have large : ¬ length.toNat < 24 := by omega
  have body : ∀ present, readBody (head ++ (frame ++ tail)) length.toNat present =
      if present then readPayload tail else .ok [] := by
    intro present
    rw [readBody, ← append_assoc, counted, ← length_append, slice_tail]
    rfl
  unfold read
  rw [reads (frame ++ tail)]
  show (if length.toNat > (head ++ (frame ++ tail)).length then _ else
    if length.toNat < 24 then _ else _) = _
  rw [if_neg short, if_neg large, ← four, counted, slice_middle, ← counted]
  simp only [body]
  rfl

/-- Every other input is refused by the length checks. -/
theorem read_cases (bytes : List UInt8) :
    (∃ e, read bytes = .error e ∧ ¬ e.IsPanic) ∨
      ∃ head frame tail length, bytes = head ++ (frame ++ tail) ∧ head.length = 4 ∧
        Reads readU32Le head length ∧ length.toNat = head.length + frame.length ∧
        20 ≤ frame.length := by
  cases first : readU32Le bytes with
  | error e =>
    refine .inl ⟨e, ?_, safe_readU32Le.never first⟩
    rw [read, first]
    rfl
  | ok p =>
    obtain ⟨length, rest⟩ := p
    by_cases short : length.toNat > bytes.length
    · have refused : ∃ message, read bytes = .error (.dataConversion message) := by
        rw [read, first]
        exact ⟨_, if_pos short⟩
      obtain ⟨message, refused⟩ := refused
      exact .inl ⟨_, refused, id⟩
    by_cases small : length.toNat < 24
    · have refused : ∃ message, read bytes = .error (.dataConversion message) := by
        rw [read, first]
        exact ⟨_, (if_neg short).trans (if_pos small)⟩
      obtain ⟨message, refused⟩ := refused
      exact .inl ⟨_, refused, id⟩
    obtain ⟨head, four, rfl, reads⟩ := readU32Le_eq_ok first
    rw [length_append] at short
    refine .inr ⟨head, rest.take (length.toNat - 4), rest.drop (length.toNat - 4), length, ?_,
      four, reads, ?_, ?_⟩
    · rw [take_append_drop]
    · rw [length_take]
      omega
    · rw [length_take]
      omega

theorem noPanic_readFrame (frame : List UInt8) : Coded.NoPanic (readFrame frame) := by
  refine (noPanic_of_safe safe_readU32Le frame).bind fun p _ => ?_
  refine (noPanic_of_safe safe_readUuidLe p.2).bind fun q _ => ?_
  exact (Metadata.noPanic_readAll q.2 _).bind fun m _ => Coded.noPanic_ok _

theorem noPanic_readPayload (tail : List UInt8) : Coded.NoPanic (readPayload tail) := by
  refine (noPanic_of_safe safe_readU32Le tail).bind fun p _ => ?_
  show Coded.NoPanic (if p.1.toNat > p.2.length then _ else _)
  split
  · exact Coded.noPanic_error _
  · rw [slice, if_pos ⟨Nat.zero_le _, by omega⟩]
    exact Coded.noPanic_ok _

theorem noPanic_read (bytes : List UInt8) : Coded.NoPanic (read bytes) := by
  rcases read_cases bytes with ⟨e, refused, fine⟩ | ⟨head, frame, tail, length, rfl, four, reads,
    counted, full⟩
  · rw [refused]
    intro e' h
    cases h
    exact fine
  · rw [read_framed tail four reads counted full]
    refine (noPanic_readFrame frame).bind fun p _ => Coded.NoPanic.bind ?_ fun body _ =>
      Coded.noPanic_ok _
    split
    · exact noPanic_readPayload tail
    · exact Coded.noPanic_ok []

/-! ## The declared bytes -/

theorem readPayload_exact {bodyLen : UInt32}
    (reads : Reads readU32Le head bodyLen) (counted : bodyLen.toNat = body.length)
    (extra : List UInt8) : readPayload (head ++ (body ++ extra)) = .ok body := by
  unfold readPayload
  rw [reads (body ++ extra)]
  show (if bodyLen.toNat > (body ++ extra).length then _ else slice (body ++ extra) 0 bodyLen.toNat)
    = _
  rw [if_neg (by rw [length_append]; omega), counted]
  have taken : slice ([] ++ (body ++ extra)) 0 (0 + body.length) = .ok body := slice_middle extra
  rwa [nil_append, Nat.zero_add] at taken

theorem readPayload_eq_ok (h : readPayload tail = .ok body) :
    ∃ head bodyLen extra, Reads readU32Le head bodyLen ∧ bodyLen.toNat = body.length ∧
      tail = head ++ (body ++ extra) := by
  obtain ⟨⟨bodyLen, rest⟩, first, checked⟩ := bind_ok h
  obtain ⟨head, _, rfl, reads⟩ := readU32Le_eq_ok first
  dsimp only at checked
  split at checked
  case isTrue => cases checked
  case isFalse enough =>
      rw [slice, if_pos ⟨Nat.zero_le _, by omega⟩] at checked
      cases checked
      refine ⟨head, bodyLen, rest.drop bodyLen.toNat, reads, ?_, ?_⟩
      · rw [drop_zero, length_take]
        omega
      · rw [drop_zero, take_append_drop]

/-- The bytes a response declares: the frame's length and as many bytes, and a body's
length and as many bytes where there is a body. -/
def Declares (bytes body : List UInt8) : Prop :=
  ∃ totalLen : UInt32, readU32Le bytes = .ok (totalLen, bytes.drop 4) ∧
    totalLen.toNat ≤ bytes.length ∧
    (bytes.drop totalLen.toNat = [] ∧ body = [] ∨
      ∃ bodyLen : UInt32, bodyLen.toNat = body.length ∧
        readU32Le (bytes.drop totalLen.toNat) = .ok (bodyLen, body))

theorem declares_framed (four : head.length = 4) (reads : Reads readU32Le head length)
    (counted : length.toNat = head.length + frame.length) (declared : tail = [] ∧ body = [] ∨
      ∃ bodyLen : UInt32, bodyLen.toNat = body.length ∧ readU32Le tail = .ok (bodyLen, body)) :
    Declares (head ++ (frame ++ tail)) body := by
  refine ⟨length, ?_, ?_, ?_⟩
  · rw [reads, drop_left' four]
  · simp only [length_append]
    omega
  · rw [← append_assoc, drop_left' (by rw [length_append]; omega)]
    exact declared

/-- A response is read from the bytes it declares, whatever follows them. -/
theorem read_declared {bytes : List UInt8} {response : RntbdResponse}
    (h : read bytes = .ok response) :
    ∃ declared rest, bytes = declared ++ rest ∧ Declares declared response.body ∧
      ∀ extra, read (declared ++ extra) = .ok response := by
  rcases read_cases bytes with ⟨e, refused, _⟩ | ⟨head, frame, tail, length, rfl, four, reads,
    counted, full⟩
  · rw [refused] at h
    cases h
  rw [read_framed tail four reads counted full] at h
  obtain ⟨p, framed, h⟩ := bind_ok h
  obtain ⟨body, bodyIs, h⟩ := bind_ok h
  cases h
  -- the same frame before any other tail
  have again : ∀ tail', (if p.2.2.payloadPresent then readPayload tail' else .ok []) = .ok body →
      read (head ++ (frame ++ tail')) = .ok (assemble p.1 p.2.1 p.2.2 body) := by
    intro tail' same
    rw [read_framed tail' four reads counted full, readParts, framed]
    show ((if p.2.2.payloadPresent then readPayload tail' else .ok []) >>= _) = _
    rw [same]
    rfl
  cases present : p.2.2.payloadPresent with
  | false =>
    rw [present] at bodyIs again
    cases bodyIs
    refine ⟨head ++ (frame ++ []), tail, by simp, declares_framed four reads counted
      (.inl ⟨rfl, rfl⟩), fun extra => ?_⟩
    rw [append_nil, append_assoc]
    exact again extra rfl
  | true =>
    rw [present] at bodyIs again
    obtain ⟨lengthBytes, bodyLen, rest, readsLength, bodyCounted, rfl⟩ :=
      readPayload_eq_ok (show readPayload tail = .ok body from bodyIs)
    refine ⟨head ++ (frame ++ (lengthBytes ++ body)), rest, by simp, declares_framed four reads
      counted (.inr ⟨bodyLen, bodyCounted, readsLength body⟩), fun extra => ?_⟩
    simp only [append_assoc]
    exact again _ (readPayload_exact readsLength bodyCounted extra)

end RntbdResponse

end AzureSdk.Cosmos.Rntbd
