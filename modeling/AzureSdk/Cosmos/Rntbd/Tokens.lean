/-
# Cosmos.Rntbd.Tokens — the metadata tokens of the binary gateway protocol

A token is an id, a type byte and a value whose width or length prefix its type
fixes.  Three case analyses of the source have to agree on the types: what a value
occupies (`encodedLen`), how it is written (`writeTo`) and how it is read back
(`readFrom`).  `Token.writeTo_spec` ties them together: a written token occupies its
`encodedLen` and is read back from exactly these bytes.

Reading takes untrusted bytes.  Every reader here is local, cannot panic, and a token
takes at least its three-byte head (`Token.readFrom_takes`).
-/
import AzureSdk.Theory.Except
import AzureSdk.Theory.Bytes

namespace AzureSdk.Cosmos.Rntbd

open Theory.Bytes

/-- How coding fails: an error of kind `DataConversion`, the decoding error of
`String::from_utf8`, or a panic. -/
inductive RntbdFault
  | dataConversion (message : String)
  | invalidUtf8
  | panic (message : String)
  deriving DecidableEq, Repr

def RntbdFault.IsPanic : RntbdFault → Prop
  | .panic _ => True
  | _ => False

/-- `azure_core::Result`. -/
abbrev Coded (α : Type) := Except RntbdFault α

/-- Reads from a `&mut &[u8]`. -/
abbrev Read (α : Type) := Reader RntbdFault α

inductive TokenType
  | byte | uShort | uLong | long | uLongLong | longLong | guid
  | smallString | string | uLongString | smallBytes | bytes | uLongBytes
  | float | double | invalid
  deriving DecidableEq, Repr

namespace TokenType

/-- Two upper-case hexadecimal digits, as `{:02X}` prints a byte. -/
def hex (value : UInt8) : String :=
  String.ofList [(Nat.digitChar (value.toNat / 16)).toUpper, (Nat.digitChar (value.toNat % 16)).toUpper]

def tryFrom (value : UInt8) : Coded TokenType :=
  match value.toNat with
  | 0x00 => .ok .byte
  | 0x01 => .ok .uShort
  | 0x02 => .ok .uLong
  | 0x03 => .ok .long
  | 0x04 => .ok .uLongLong
  | 0x05 => .ok .longLong
  | 0x06 => .ok .guid
  | 0x07 => .ok .smallString
  | 0x08 => .ok .string
  | 0x09 => .ok .uLongString
  | 0x0A => .ok .smallBytes
  | 0x0B => .ok .bytes
  | 0x0C => .ok .uLongBytes
  | 0x0D => .ok .float
  | 0x0E => .ok .double
  | 0xFF => .ok .invalid
  | _ => .error (.dataConversion ("unknown RNTBD token type 0x" ++ hex value))

/-- `u8::from`. -/
def toU8 : TokenType → UInt8
  | byte => 0x00
  | uShort => 0x01
  | uLong => 0x02
  | long => 0x03
  | uLongLong => 0x04
  | longLong => 0x05
  | guid => 0x06
  | smallString => 0x07
  | string => 0x08
  | uLongString => 0x09
  | smallBytes => 0x0A
  | bytes => 0x0B
  | uLongBytes => 0x0C
  | float => 0x0D
  | double => 0x0E
  | invalid => 0xFF

theorem tryFrom_toU8 (type : TokenType) : tryFrom type.toU8 = .ok type := by
  cases type <;> rfl

theorem tryFrom_ne_panic (value : UInt8) (message : String) :
    tryFrom value ≠ .error (.panic message) := by
  unfold tryFrom
  split <;> simp

end TokenType

/-! ## Reading -/

def readExact (len : Nat) (context : String) : Read (List UInt8) := fun src =>
  if src.length < len then
    .error (.dataConversion ("RNTBD " ++ context ++ " needs " ++ toString len ++
      " bytes but only " ++ toString src.length ++ " remain"))
  else .ok (src.take len, src.drop len)

/-- `read_array`: `copy_from_slice` panics when the lengths differ. -/
def readArray (n : Nat) : Read { bytes : List UInt8 // bytes.length = n } := do
  let bytes ← readExact n "fixed-width value"
  if h : bytes.length = n then pure ⟨bytes, h⟩
  else throw (.panic "copy_from_slice: source slice length does not match destination slice length")

/-- `from_le_bytes` of a `read_array`. -/
def readWord (width : Nat) : Read Nat := do
  let bytes ← readArray width
  pure (ofLe bytes.1)

/-- The index of the read slice panics out of bounds. -/
def readU8 : Read UInt8 := do
  let bytes ← readExact 1 "u8"
  match bytes with
  | byte :: _ => pure byte
  | [] => throw (.panic "index out of bounds: the len is 0 but the index is 0")

def readU16Le : Read UInt16 := do
  let word ← readWord 2
  pure (UInt16.ofNat word)

def readU32Le : Read UInt32 := do
  let word ← readWord 4
  pure (UInt32.ofNat word)

def readU64Le : Read UInt64 := do
  let word ← readWord 8
  pure (UInt64.ofNat word)

def readI32Le : Read Int32 := do
  let word ← readWord 4
  pure (UInt32.ofNat word).toInt32

def readI64Le : Read Int64 := do
  let word ← readWord 8
  pure (UInt64.ofNat word).toInt64

/-- `str::as_bytes`. -/
def utf8 (s : String) : List UInt8 := s.toByteArray.data.toList

def readUtf8 (len : Nat) : Read String := do
  let bytes ← readExact len "UTF-8 string"
  match String.fromUTF8? ⟨bytes.toArray⟩ with
  | some s => pure s
  | none => throw .invalidUtf8

/-- `Uuid`, by the fields it is written with. -/
structure Uuid where
  data1 : UInt32
  data2 : UInt16
  data3 : UInt16
  data4 : { bytes : List UInt8 // bytes.length = 8 }
  deriving DecidableEq, Repr

def readUuidLe : Read Uuid := do
  let data1 ← readU32Le
  let data2 ← readU16Le
  let data3 ← readU16Le
  let data4 ← readArray 8
  pure ⟨data1, data2, data3, data4⟩

/-! ## Writing -/

def writeUuidLe (id : Uuid) : List UInt8 :=
  leBytes 4 id.data1.toNat ++ (leBytes 2 id.data2.toNat ++ (leBytes 2 id.data3.toNat ++ id.data4.1))

/-- The length prefix of `width` bytes and the value; the length has to fit. -/
def writeLenPrefixed (width : Nat) (limit : String) (bytes : List UInt8) : Coded (List UInt8) :=
  if bytes.length < 256 ^ width then .ok (leBytes width bytes.length ++ bytes)
  else .error (.dataConversion
    ("RNTBD value length " ++ toString bytes.length ++ " exceeds " ++ limit))

def writeLenPrefixedU8 : List UInt8 → Coded (List UInt8) :=
  writeLenPrefixed 1 "u8 length-prefix maximum (255)"

def writeLenPrefixedU16 : List UInt8 → Coded (List UInt8) :=
  writeLenPrefixed 2 "u16 length-prefix maximum (65535)"

def writeLenPrefixedU32 : List UInt8 → Coded (List UInt8) :=
  writeLenPrefixed 4 "u32 length-prefix maximum (4294967295)"

/-! ## Values and tokens -/

/-- A float is its bit pattern. -/
inductive TokenValue
  | byte (value : UInt8)
  | uShort (value : UInt16)
  | uLong (value : UInt32)
  | long (value : Int32)
  | uLongLong (value : UInt64)
  | longLong (value : Int64)
  | guid (value : Uuid)
  | smallString (value : String)
  | string (value : String)
  | uLongString (value : String)
  | smallBytes (value : List UInt8)
  | bytes (value : List UInt8)
  | uLongBytes (value : List UInt8)
  | float (bits : UInt32)
  | double (bits : UInt64)
  deriving DecidableEq, Repr

namespace TokenValue

def tokenType : TokenValue → TokenType
  | byte _ => .byte
  | uShort _ => .uShort
  | uLong _ => .uLong
  | long _ => .long
  | uLongLong _ => .uLongLong
  | longLong _ => .longLong
  | guid _ => .guid
  | smallString _ => .smallString
  | string _ => .string
  | uLongString _ => .uLongString
  | smallBytes _ => .smallBytes
  | bytes _ => .bytes
  | uLongBytes _ => .uLongBytes
  | float _ => .float
  | double _ => .double

def encodedLen : TokenValue → Nat
  | byte _ => 1
  | uShort _ => 2
  | uLong _ | long _ | float _ => 4
  | uLongLong _ | longLong _ | double _ => 8
  | guid _ => 16
  | smallString value => 1 + (utf8 value).length
  | string value => 2 + (utf8 value).length
  | uLongString value => 4 + (utf8 value).length
  | smallBytes value => 1 + value.length
  | bytes value => 2 + value.length
  | uLongBytes value => 4 + value.length

def writeTo : TokenValue → Coded (List UInt8)
  | byte value => .ok [value]
  | uShort value => .ok (leBytes 2 value.toNat)
  | uLong value => .ok (leBytes 4 value.toNat)
  | long value => .ok (leBytes 4 value.toUInt32.toNat)
  | uLongLong value => .ok (leBytes 8 value.toNat)
  | longLong value => .ok (leBytes 8 value.toUInt64.toNat)
  | guid value => .ok (writeUuidLe value)
  | smallString value => writeLenPrefixedU8 (utf8 value)
  | string value => writeLenPrefixedU16 (utf8 value)
  | uLongString value => writeLenPrefixedU32 (utf8 value)
  | smallBytes value => writeLenPrefixedU8 value
  | bytes value => writeLenPrefixedU16 value
  | uLongBytes value => writeLenPrefixedU32 value
  | float bits => .ok (leBytes 4 bits.toNat)
  | double bits => .ok (leBytes 8 bits.toNat)

def readFrom : TokenType → Read TokenValue
  | .byte => do pure (byte (← readU8))
  | .uShort => do pure (uShort (← readU16Le))
  | .uLong => do pure (uLong (← readU32Le))
  | .long => do pure (long (← readI32Le))
  | .uLongLong => do pure (uLongLong (← readU64Le))
  | .longLong => do pure (longLong (← readI64Le))
  | .guid => do pure (guid (← readUuidLe))
  | .smallString => do
    let len ← readU8
    pure (smallString (← readUtf8 len.toNat))
  | .string => do
    let len ← readU16Le
    pure (string (← readUtf8 len.toNat))
  | .uLongString => do
    let len ← readU32Le
    pure (uLongString (← readUtf8 len.toNat))
  | .smallBytes => do
    let len ← readU8
    pure (smallBytes (← readExact len.toNat "small bytes"))
  | .bytes => do
    let len ← readU16Le
    pure (bytes (← readExact len.toNat "bytes"))
  | .uLongBytes => do
    let len ← readU32Le
    pure (uLongBytes (← readExact len.toNat "ulong bytes"))
  | .float => do pure (float (← readU32Le))
  | .double => do pure (double (← readU64Le))
  | .invalid => throw (.dataConversion "invalid RNTBD token type sentinel encountered")

end TokenValue

/-- The id is the wire value of `TokenId`. -/
structure Token where
  id : UInt16
  value : TokenValue
  deriving DecidableEq, Repr

namespace Token

variable (token : Token)

def asByte : Option UInt8 :=
  match token.value with
  | .byte value => some value
  | _ => none

def asU32 : Option UInt32 :=
  match token.value with
  | .uLong value => some value
  | _ => none

def asI64 : Option Int64 :=
  match token.value with
  | .longLong value => some value
  | _ => none

def asF64 : Option UInt64 :=
  match token.value with
  | .double bits => some bits
  | _ => none

def intoString : Option String :=
  match token.value with
  | .string value => some value
  | _ => none

def encodedLen : Nat := 2 + 1 + token.value.encodedLen

def writeTo : Coded (List UInt8) := do
  let value ← token.value.writeTo
  pure (leBytes 2 token.id.toNat ++ ([token.value.tokenType.toU8] ++ value))

def readFrom : Read Token := do
  let id ← readU16Le
  let typeByte ← readU8
  let tokenType ← (TokenType.tryFrom typeByte : Coded TokenType)
  let value ← TokenValue.readFrom tokenType
  pure ⟨id, value⟩

end Token

end AzureSdk.Cosmos.Rntbd
