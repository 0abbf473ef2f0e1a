/-
# Cosmos.Rntbd.Response — reading response frames

The bytes come from the wire.  `read` checks the declared length against the buffer,
reads the tokens from the slice the length declares, and takes the body from what
follows when a `PayloadPresent` token announces one.  The loop over the tokens ends
because a token takes bytes; every slice it makes is in bounds.
-/
import AzureSdk.Cosmos.Error
import AzureSdk.Cosmos.Rntbd.Request

namespace AzureSdk.Cosmos.Rntbd

open Theory.Bytes

/-- The token ids a response is read for. -/
inductive RntbdResponseToken
  | payloadPresent | continuationToken | eTag | retryAfterMilliseconds | lsn | requestCharge
  | ownerFullName | subStatus | partitionKeyRangeId | itemLsn | globalCommittedLsn
  | transportRequestId | sessionToken
  deriving DecidableEq, Repr

namespace RntbdResponseToken

def tryFrom (value : UInt16) : Option RntbdResponseToken :=
  match value.toNat with
  | 0x0000 => some .payloadPresent
  | 0x0003 => some .continuationToken
  | 0x0004 => some .eTag
  | 0x000C => some .retryAfterMilliseconds
  | 0x0013 => some .lsn
  | 0x0015 => some .requestCharge
  | 0x0017 => some .ownerFullName
  | 0x001C => some .subStatus
  | 0x0021 => some .partitionKeyRangeId
  | 0x0032 => some .itemLsn
  | 0x0029 => some .globalCommittedLsn
  | 0x0035 => some .transportRequestId
  | 0x003E => some .sessionToken
  | _ => none

end RntbdResponseToken

/-- Both codes are cut to `u16`. -/
def mapRntbdStatusToCosmosStatus (httpStatus : UInt32) (subStatus : Option UInt32) : CosmosStatus :=
  ⟨httpStatus.toUInt16.toNat, subStatus.map fun code => code.toUInt16.toNat⟩

/-- The request charge is the bit pattern of its `f64`. -/
structure RntbdResponse where
  status : CosmosStatus
  activityId : Uuid
  body : List UInt8
  continuationToken : Option String
  etag : Option String
  retryAfterMs : Option UInt32
  lsn : Option Int64
  requestCharge : Option UInt64
  ownerFullName : Option String
  partitionKeyRangeId : Option String
  itemLsn : Option Int64
  globalCommittedLsn : Option Int64
  transportRequestId : Option UInt32
  sessionToken : Option String
  deriving DecidableEq, Repr

/-- The variables the loop over the tokens fills. -/
structure Metadata where
  payloadPresent : Bool := false
  continuationToken : Option String := none
  etag : Option String := none
  retryAfterMs : Option UInt32 := none
  lsn : Option Int64 := none
  requestCharge : Option UInt64 := none
  ownerFullName : Option String := none
  subStatus : Option UInt32 := none
  partitionKeyRangeId : Option String := none
  itemLsn : Option Int64 := none
  globalCommittedLsn : Option Int64 := none
  transportRequestId : Option UInt32 := none
  sessionToken : Option String := none
  deriving DecidableEq, Repr

def unexpectedTokenType (name : String) : RntbdFault :=
  .dataConversion ("RNTBD token " ++ name ++ " had an unexpected value type")

/-- `ok_or_else(|| unexpected_token_type(name))`. -/
def expect {α : Type} (value : Option α) (name : String) : Coded α :=
  match value with
  | some a => .ok a
  | none => .error (unexpectedTokenType name)

variable (token : Token)

def expectString (name : String) : Coded String := expect token.intoString name

def expectByte (name : String) : Coded UInt8 := expect token.asByte name

def expectU32 (name : String) : Coded UInt32 := expect token.asU32 name

def expectI64 (name : String) : Coded Int64 := expect token.asI64 name

def expectF64 (name : String) : Coded UInt64 := expect token.asF64 name

namespace Metadata

/-- The body of the loop: a known id sets its variable, an unknown one is skipped. -/
def store (m : Metadata) (token : Token) : Coded Metadata :=
  match RntbdResponseToken.tryFrom token.id with
  | some .payloadPresent => do
    let value ← expectByte token "PayloadPresent"
    pure { m with payloadPresent := value != 0 }
  | some .continuationToken => do
    let value ← expectString token "ContinuationToken"
    pure { m with continuationToken := some value }
  | some .eTag => do
    let value ← expectString token "ETag"
    pure { m with etag := some value }
  | some .retryAfterMilliseconds => do
    let value ← expectU32 token "RetryAfterMilliseconds"
    pure { m with retryAfterMs := some value }
  | some .lsn => do
    let value ← expectI64 token "LSN"
    pure { m with lsn := some value }
  | some .requestCharge => do
    let value ← expectF64 token "RequestCharge"
    pure { m with requestCharge := some value }
  | some .ownerFullName => do
    let value ← expectString token "OwnerFullName"
    pure { m with ownerFullName := some value }
  | some .subStatus => do
    let value ← expectU32 token "SubStatus"
    pure { m with subStatus := some value }
  | some .partitionKeyRangeId => do
    let value ← expectString token "PartitionKeyRangeId"
    pure { m with partitionKeyRangeId := some value }
  | some .itemLsn => do
    let value ← expectI64 token "ItemLSN"
    pure { m with itemLsn := some value }
  | some .globalCommittedLsn => do
    let value ← expectI64 token "GlobalCommittedLSN"
    pure { m with globalCommittedLsn := some value }
  | some .transportRequestId => do
    let value ← expectU32 token "TransportRequestID"
    pure { m with transportRequestId := some value }
  | some .sessionToken => do
    let value ← expectString token "SessionToken"
    pure { m with sessionToken := some value }
  | none => .ok m

/-- `while !frame.is_empty()`: the bound is the number of bytes left, and a token takes
some of them. -/
def readTokens : (bound : Nat) → (frame : List UInt8) → frame.length ≤ bound → Metadata →
    Coded Metadata
  | _, [], _, m => .ok m
  | 0, _ :: _, h, _ => absurd h (by simp)
  | bound + 1, byte :: frame, h, m =>
    match taken : Token.readFrom (byte :: frame) with
    | .error fault => .error fault
    | .ok (token, rest) => do
      let m ← m.store token
      readTokens bound rest (by
        have := Token.readFrom_takes _ _ _ taken
        omega) m

end Metadata

/-- `bytes[from..to]`, which panics out of bounds. -/
def slice (bytes : List UInt8) (start stop : Nat) : Coded (List UInt8) :=
  if start ≤ stop ∧ stop ≤ bytes.length then .ok ((bytes.take stop).drop start)
  else .error (.panic "range out of bounds of slice")

namespace RntbdResponse

/-- The frame without its length: status, activity id and tokens. -/
def readFrame (frame : List UInt8) : Coded (UInt32 × Uuid × Metadata) := do
  let (httpStatus, frame) ← readU32Le frame
  let (activityId, frame) ← readUuidLe frame
  let m ← Metadata.readTokens frame.length frame le_rfl {}
  pure (httpStatus, activityId, m)

/-- A body behind its length. -/
def readPayload (tail : List UInt8) : Coded (List UInt8) := do
  let (bodyLen, tail) ← readU32Le tail
  if bodyLen.toNat > tail.length then
    .error (.dataConversion ("RNTBD response body length " ++ toString bodyLen.toNat ++
      " exceeds remaining buffer length " ++ toString tail.length))
  else slice tail 0 bodyLen.toNat

/-- What follows the frame is a body when one is announced. -/
def readBody (bytes : List UInt8) (totalLen : Nat) (payloadPresent : Bool) :
    Coded (List UInt8) :=
  if payloadPresent then do
    let tail ← slice bytes totalLen bytes.length
    readPayload tail
  else .ok []

def assemble (httpStatus : UInt32) (activityId : Uuid) (m : Metadata) (body : List UInt8) :
    RntbdResponse where
  status := mapRntbdStatusToCosmosStatus httpStatus m.subStatus
  activityId := activityId
  body := body
  continuationToken := m.continuationToken
  etag := m.etag
  retryAfterMs := m.retryAfterMs
  lsn := m.lsn
  requestCharge := m.requestCharge
  ownerFullName := m.ownerFullName
  partitionKeyRangeId := m.partitionKeyRangeId
  itemLsn := m.itemLsn
  globalCommittedLsn := m.globalCommittedLsn
  transportRequestId := m.transportRequestId
  sessionToken := m.sessionToken

def read (bytes : List UInt8) : Coded RntbdResponse := do
  let (length, _) ← readU32Le bytes
  let totalLen := length.toNat
  if totalLen > bytes.length then
    .error (.dataConversion ("RNTBD response length " ++ toString totalLen ++
      " exceeds buffer length " ++ toString bytes.length))
  else if totalLen < 24 then
    .error (.dataConversion ("RNTBD response length " ++ toString totalLen ++
      " is smaller than the 24-byte header"))
  else do
    let frame ← slice bytes 4 totalLen
    let (httpStatus, activityId, m) ← readFrame frame
    let body ← readBody bytes totalLen m.payloadPresent
    pure (assemble httpStatus activityId m body)

end RntbdResponse

end AzureSdk.Cosmos.Rntbd
