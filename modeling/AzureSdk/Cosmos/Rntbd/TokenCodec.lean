/-
# Cosmos.Rntbd.TokenCodec — tokens are read back as they were written

`TokenValue.writeTo_spec` goes through the token types once: a value that can be
written occupies its `encodedLen`, and reading its type takes exactly these bytes for
it.  A length that does not fit its prefix is the one way writing fails, so the prefix
that was written is the length.

`Token.readFrom_safe` is the other side, for bytes from the wire: reading a token is
local and never panics.
-/
import AzureSdk.Cosmos.Rntbd.Tokens

namespace AzureSdk.Cosmos.Rntbd

open Theory Theory.Bytes List

/-! ## What is written is read back -/

variable {bytes : List UInt8} {len : Nat}

theorem reads_readExact (fits : bytes.length = len)
    (context : String) : Reads (readExact len context) bytes bytes := by
  intro rest
  subst fits
  simp [readExact]

variable {n width : Nat}

theorem reads_readArray (bytes : { bytes : List UInt8 // bytes.length = n }) :
    Reads (readArray n) bytes.1 bytes := by
  refine (reads_readExact bytes.2 _).last ?_
  rw [dif_pos bytes.2]
  exact reads_pure bytes

theorem reads_readWord (fits : n < 256 ^ width) : Reads (readWord width) (leBytes width n) n := by
  refine (reads_readArray ⟨leBytes width n, length_leBytes width n⟩).last ?_
  show Reads (pure (ofLe (leBytes width n))) [] n
  rw [ofLe_leBytes, Nat.mod_eq_of_lt fits]
  exact reads_pure n

/-- A word is read back as any value that is made of it. -/
theorem reads_wordAs {α : Type} {make : Nat → α} {value : α}
    (fits : n < 256 ^ width) (back : make n = value) :
    Reads (readWord width >>= fun word => pure (make word)) (leBytes width n) value := by
  subst back
  exact (reads_readWord fits).last (reads_pure _)

theorem reads_readU8 (value : UInt8) : Reads readU8 [value] value :=
  (reads_readExact (by rfl) _).last (reads_pure value)

theorem reads_readU16Le (value : UInt16) : Reads readU16Le (leBytes 2 value.toNat) value :=
  reads_wordAs value.toNat_lt UInt16.ofNat_toNat

theorem reads_readU32Le (value : UInt32) : Reads readU32Le (leBytes 4 value.toNat) value :=
  reads_wordAs value.toNat_lt UInt32.ofNat_toNat

theorem reads_readU64Le (value : UInt64) : Reads readU64Le (leBytes 8 value.toNat) value :=
  reads_wordAs value.toNat_lt UInt64.ofNat_toNat

theorem reads_readI32Le (value : Int32) :
    Reads readI32Le (leBytes 4 value.toUInt32.toNat) value := by
  refine reads_wordAs value.toUInt32.toNat_lt ?_
  rw [UInt32.ofNat_toNat, Int32.toInt32_toUInt32]

theorem reads_readI64Le (value : Int64) :
    Reads readI64Le (leBytes 8 value.toUInt64.toNat) value := by
  refine reads_wordAs value.toUInt64.toNat_lt ?_
  rw [UInt64.ofNat_toNat, Int64.toInt64_toUInt64]

theorem reads_readUuidLe (id : Uuid) : Reads readUuidLe (writeUuidLe id) id :=
  (reads_readU32Le id.data1).bind <| (reads_readU16Le id.data2).bind <|
    (reads_readU16Le id.data3).bind <| (reads_readArray id.data4).last (reads_pure id)

@[simp] theorem length_writeUuidLe (id : Uuid) : (writeUuidLe id).length = 16 := by
  simp [writeUuidLe, id.data4.2]

theorem fromUTF8_utf8 (s : String) : String.fromUTF8? ⟨(utf8 s).toArray⟩ = some s :=
  dif_pos s.isValidUTF8

theorem reads_readUtf8 {value : String} (fits : (utf8 value).length = len) :
    Reads (readUtf8 len) (utf8 value) value := by
  refine (reads_readExact fits _).last ?_
  rw [fromUTF8_utf8]
  exact reads_pure value

theorem writeLenPrefixed_eq_ok {limit : String} {value : List UInt8}
    (h : writeLenPrefixed width limit value = .ok bytes) :
    value.length < 256 ^ width ∧ bytes = leBytes width value.length ++ value := by
  unfold writeLenPrefixed at h
  split at h
  case isTrue fits =>
      cases h
      exact ⟨fits, rfl⟩
  case isFalse => cases h

section LengthPrefix

variable {β : Type} {value bytes : List UInt8} {b : β}

theorem reads_lenPrefixed {L : Type} {readLen : Read L} {width : Nat} {limit : String}
    {next : L → Read β} (make : Nat → L) (toNat : L → Nat)
    (lenReads : ∀ len, Reads readLen (leBytes width (toNat len)) len)
    (kept : ∀ {n}, n < 256 ^ width → toNat (make n) = n)
    (valueReads : ∀ len, value.length = toNat len → Reads (next len) value b)
    (written : writeLenPrefixed width limit value = .ok bytes) :
    bytes.length = width + value.length ∧ Reads (readLen >>= next) bytes b := by
  obtain ⟨fits, rfl⟩ := writeLenPrefixed_eq_ok written
  have isLength := kept fits
  have readsLen := lenReads (make value.length)
  rw [isLength] at readsLen
  exact ⟨by simp, readsLen.bind (valueReads _ isLength.symm)⟩

theorem reads_lenPrefixedU8 {next : UInt8 → Read β}
    (valueReads : ∀ len : UInt8, value.length = len.toNat → Reads (next len) value b)
    (written : writeLenPrefixedU8 value = .ok bytes) :
    bytes.length = 1 + value.length ∧ Reads (readU8 >>= next) bytes b :=
  reads_lenPrefixed .ofNat UInt8.toNat (fun len => by simpa [leBytes] using reads_readU8 len)
    UInt8.toNat_ofNat_of_lt' valueReads written

theorem reads_lenPrefixedU16 {next : UInt16 → Read β}
    (valueReads : ∀ len : UInt16, value.length = len.toNat → Reads (next len) value b)
    (written : writeLenPrefixedU16 value = .ok bytes) :
    bytes.length = 2 + value.length ∧ Reads (readU16Le >>= next) bytes b :=
  reads_lenPrefixed .ofNat UInt16.toNat reads_readU16Le UInt16.toNat_ofNat_of_lt' valueReads written

theorem reads_lenPrefixedU32 {next : UInt32 → Read β}
    (valueReads : ∀ len : UInt32, value.length = len.toNat → Reads (next len) value b)
    (written : writeLenPrefixedU32 value = .ok bytes) :
    bytes.length = 4 + value.length ∧ Reads (readU32Le >>= next) bytes b :=
  reads_lenPrefixed .ofNat UInt32.toNat reads_readU32Le UInt32.toNat_ofNat_of_lt' valueReads written

end LengthPrefix

/-- A written value occupies its `encodedLen` and is read back by its type. -/
theorem TokenValue.writeTo_spec {value : TokenValue} (h : value.writeTo = .ok bytes) :
    bytes.length = value.encodedLen ∧ Reads (TokenValue.readFrom value.tokenType) bytes value := by
  cases value with
  | byte value =>
    cases h
    exact ⟨rfl, (reads_readU8 value).last (reads_pure _)⟩
  | uShort value =>
    cases h
    exact ⟨length_leBytes _ _, (reads_readU16Le value).last (reads_pure _)⟩
  | uLong value =>
    cases h
    exact ⟨length_leBytes _ _, (reads_readU32Le value).last (reads_pure _)⟩
  | long value =>
    cases h
    exact ⟨length_leBytes _ _, (reads_readI32Le value).last (reads_pure _)⟩
  | uLongLong value =>
    cases h
    exact ⟨length_leBytes _ _, (reads_readU64Le value).last (reads_pure _)⟩
  | longLong value =>
    cases h
    exact ⟨length_leBytes _ _, (reads_readI64Le value).last (reads_pure _)⟩
  | guid value =>
    cases h
    exact ⟨length_writeUuidLe value, (reads_readUuidLe value).last (reads_pure _)⟩
  | smallString value =>
    exact reads_lenPrefixedU8 (fun len h => (reads_readUtf8 h).last (reads_pure _)) h
  | string value =>
    exact reads_lenPrefixedU16 (fun len h => (reads_readUtf8 h).last (reads_pure _)) h
  | uLongString value =>
    exact reads_lenPrefixedU32 (fun len h => (reads_readUtf8 h).last (reads_pure _)) h
  | smallBytes value =>
    exact reads_lenPrefixedU8 (fun len h => (reads_readExact h _).last (reads_pure _)) h
  | bytes value =>
    exact reads_lenPrefixedU16 (fun len h => (reads_readExact h _).last (reads_pure _)) h
  | uLongBytes value =>
    exact reads_lenPrefixedU32 (fun len h => (reads_readExact h _).last (reads_pure _)) h
  | float bits =>
    cases h
    exact ⟨length_leBytes _ _, (reads_readU32Le bits).last (reads_pure _)⟩
  | double bits =>
    cases h
    exact ⟨length_leBytes _ _, (reads_readU64Le bits).last (reads_pure _)⟩

theorem Token.writeTo_spec {token : Token} (h : token.writeTo = .ok bytes) :
    bytes.length = token.encodedLen ∧ Reads Token.readFrom bytes token := by
  obtain ⟨value, written, h⟩ := bind_ok h
  cases h
  obtain ⟨length, readsValue⟩ := TokenValue.writeTo_spec written
  constructor
  · simp only [length_append, length_leBytes, length_singleton, length, Token.encodedLen]
    omega
  · refine (reads_readU16Le token.id).bind ((reads_readU8 _).bind ?_)
    rw [TokenType.tryFrom_toU8]
    exact (readsValue.last (reads_pure token)).lift

/-! ## Reading bytes from the wire -/

theorem readExact_eq_ok {context : String} {src rest : List UInt8}
    (h : readExact len context src = .ok (bytes, rest)) :
    bytes.length = len ∧ src = bytes ++ rest := by
  unfold readExact at h
  split at h
  case isTrue => cases h
  case isFalse enough =>
      cases h
      refine ⟨?_, (take_append_drop len src).symm⟩
      rw [length_take]
      omega

theorem safe_readExact (len : Nat) (context : String) :
    Safe RntbdFault.IsPanic (readExact len context) := by
  constructor
  · intro src bytes rest h
    obtain ⟨length, split⟩ := readExact_eq_ok h
    exact ⟨bytes, split, reads_readExact length context⟩
  · intro src e h
    unfold readExact at h
    split at h
    · cases h
      exact id
    · cases h

theorem takes_readExact (len : Nat) (context : String) : Takes len (readExact len context) := by
  intro src bytes rest h
  obtain ⟨length, rfl⟩ := readExact_eq_ok h
  rw [length_append]
  omega

/-- `copy_from_slice` gets the length it needs. -/
theorem safe_readArray (n : Nat) : Safe RntbdFault.IsPanic (readArray n) := by
  refine (safe_readExact n _).bind (fun bytes => ?_) fun bytes returned => ?_
  · split
    · exact local_pure _
    · exact local_throw _
  · obtain ⟨src, rest, h⟩ := returned
    rw [dif_pos (readExact_eq_ok h).1]
    exact safe_pure _

theorem safe_readWord (width : Nat) : Safe RntbdFault.IsPanic (readWord width) :=
  (safe_readArray width).map _

theorem safe_readU8 : Safe RntbdFault.IsPanic readU8 := by
  refine (safe_readExact 1 _).bind (fun bytes => ?_) fun bytes returned => ?_
  · split
    · exact local_pure _
    · exact local_throw _
  · obtain ⟨src, rest, h⟩ := returned
    obtain ⟨byte, rfl⟩ := length_eq_one_iff.mp (readExact_eq_ok h).1
    exact safe_pure byte

theorem safe_readU16Le : Safe RntbdFault.IsPanic readU16Le := (safe_readWord 2).map _

theorem safe_readU32Le : Safe RntbdFault.IsPanic readU32Le := (safe_readWord 4).map _

theorem safe_readUuidLe : Safe RntbdFault.IsPanic readUuidLe :=
  safe_readU32Le.then fun _ => safe_readU16Le.then fun _ => safe_readU16Le.then fun _ =>
    (safe_readArray 8).map _

theorem safe_readUtf8 (len : Nat) : Safe RntbdFault.IsPanic (readUtf8 len) := by
  refine (safe_readExact len _).then fun bytes => ?_
  split
  · exact safe_pure _
  · exact safe_throw id

theorem TokenValue.readFrom_safe (type : TokenType) :
    Safe RntbdFault.IsPanic (TokenValue.readFrom type) := by
  cases type with
  | byte => exact safe_readU8.map _
  | uShort => exact safe_readU16Le.map _
  | uLong | float => exact safe_readU32Le.map _
  | long => exact ((safe_readWord 4).map _).map _
  | uLongLong | double | longLong => exact ((safe_readWord 8).map _).map _
  | guid => exact safe_readUuidLe.map _
  | smallString => exact safe_readU8.then fun len => (safe_readUtf8 _).map _
  | string => exact safe_readU16Le.then fun len => (safe_readUtf8 _).map _
  | uLongString => exact safe_readU32Le.then fun len => (safe_readUtf8 _).map _
  | smallBytes => exact safe_readU8.then fun len => (safe_readExact _ _).map _
  | bytes => exact safe_readU16Le.then fun len => (safe_readExact _ _).map _
  | uLongBytes => exact safe_readU32Le.then fun len => (safe_readExact _ _).map _
  | invalid => exact safe_throw id

theorem Token.safe_rest (id : UInt16) :
    Safe RntbdFault.IsPanic (do
      let typeByte ← readU8
      let tokenType ← (TokenType.tryFrom typeByte : Coded TokenType)
      let value ← TokenValue.readFrom tokenType
      pure (⟨id, value⟩ : Token)) := by
  refine safe_readU8.then fun typeByte => ?_
  refine (safe_lift fun e h => ?_).then fun type => (TokenValue.readFrom_safe type).map _
  cases e with
  | panic message => exact absurd h (TokenType.tryFrom_ne_panic typeByte message)
  | dataConversion | invalidUtf8 => exact fun h => h

theorem Token.readFrom_safe : Safe RntbdFault.IsPanic Token.readFrom :=
  safe_readU16Le.then Token.safe_rest

/-- A token takes at least its id, so that a loop over tokens ends. -/
theorem Token.readFrom_takes : Takes 2 Token.readFrom := by
  have array : Takes 2 (readArray 2) := by
    refine (takes_readExact 2 _).bind fun bytes => ?_
    split
    · exact local_pure _
    · exact local_throw _
  have word : Takes 2 readU16Le :=
    (array.bind fun _ => local_pure _).bind fun _ => local_pure _
  exact word.bind fun id => (Token.safe_rest id).isLocal

end AzureSdk.Cosmos.Rntbd
