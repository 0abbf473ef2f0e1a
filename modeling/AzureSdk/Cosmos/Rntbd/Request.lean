/-
# Cosmos.Rntbd.Request — request frames

A frame is a 24-byte header, the metadata tokens, and after them the body with its
length.  `LengthInBytes` counts the header and the tokens and not the body; the
receiver finds the end of the token stream by it.  `write_eq_ok` gives the layout of
a written frame, and `request_frame_decodable` what a receiver reads from it.
-/
import AzureSdk.Cosmos.Models
import AzureSdk.Cosmos.Rntbd.TokenCodec

namespace AzureSdk.Cosmos.Rntbd

open Theory Theory.Bytes List

/-- `RntbdResourceType::from`, by its wire id; distributed transactions are `unreachable!`. -/
def rntbdResourceType : ResourceType → Coded UInt16
  | .databaseAccount => .ok 0x0014
  | .database => .ok 0x0001
  | .documentCollection => .ok 0x0002
  | .document => .ok 0x0003
  | .storedProcedure => .ok 0x0007
  | .trigger => .ok 0x0009
  | .userDefinedFunction => .ok 0x000A
  | .partitionKeyRange => .ok 0x0016
  | .offer => .ok 0x000F
  | .distributedTransactionBatch =>
    .error (.panic "ResourceType::DistributedTransactionBatch must not reach RNTBD encoding")

/-- `RntbdOperationType::from`, by its wire id. -/
def rntbdOperationType : OperationType → Coded UInt16
  | .create => .ok 0x0001
  | .read => .ok 0x0003
  | .readFeed => .ok 0x0004
  | .delete => .ok 0x0005
  | .replace => .ok 0x0006
  | .execute => .ok 0x0008
  | .sqlQuery => .ok 0x0009
  | .queryPlan => .ok 0x0042
  | .query => .ok 0x000F
  | .head => .ok 0x0011
  | .headFeed => .ok 0x0012
  | .upsert => .ok 0x0013
  | .batch => .ok 0x0025
  | .patch =>
    .error (.panic "OperationType::Patch must be handled by patch_handler before RNTBD encoding")
  | .commitDistributedTransaction | .readDistributedTransaction =>
    .error (.panic "distributed transaction operations must not reach RNTBD encoding")

structure RntbdRequestFrame where
  resourceType : ResourceType
  operationType : OperationType
  activityId : Uuid
  metadata : List Token
  body : Option (List UInt8)
  deriving DecidableEq, Repr

/-- The loop that writes the tokens; the first that cannot be written ends it. -/
def writeTokens : List Token → Coded (List UInt8)
  | [] => .ok []
  | token :: tokens => do
    let first ← token.writeTo
    let rest ← writeTokens tokens
    pure (first ++ rest)

/-- `u32::try_from` of a length, written in little-endian order. -/
def writeLength (n : Nat) (message : String) : Coded (List UInt8) :=
  if n < 2 ^ 32 then .ok (leBytes 4 n) else .error (.dataConversion message)

namespace RntbdRequestFrame

def headerLen (frame : RntbdRequestFrame) : Nat :=
  24 + (frame.metadata.map Token.encodedLen).sum

/-- The body behind its length; an absent body is written as nothing. -/
def writeBody : Option (List UInt8) → Coded (List UInt8)
  | none => .ok []
  | some body => do
    let length ← writeLength body.length
      ("RNTBD request payload length " ++ toString body.length ++ " exceeds u32::MAX")
    pure (length ++ body)

/-- `RntbdRequestFrame::write` into a `Vec<u8>`. -/
def write (frame : RntbdRequestFrame) : Coded (List UInt8) := do
  let length ← writeLength frame.headerLen
    ("RNTBD request header length " ++ toString frame.headerLen ++ " exceeds u32::MAX")
  let resource ← rntbdResourceType frame.resourceType
  let operation ← rntbdOperationType frame.operationType
  let tokens ← writeTokens frame.metadata
  let body ← writeBody frame.body
  pure (length ++ (leBytes 2 resource.toNat ++ (leBytes 2 operation.toNat ++
    (writeUuidLe frame.activityId ++ (tokens ++ body)))))

end RntbdRequestFrame

/-! ## The layout of what is written -/

theorem writeLength_eq_ok {n : Nat} {message : String} {bytes : List UInt8}
    (h : writeLength n message = .ok bytes) : n < 2 ^ 32 ∧ bytes = leBytes 4 n := by
  unfold writeLength at h
  split at h
  case isTrue fits =>
      cases h
      exact ⟨fits, rfl⟩
  case isFalse => cases h

theorem reads_length {n : Nat} (fits : n < 2 ^ 32) :
    Reads readU32Le (leBytes 4 n) (UInt32.ofNat n) := by
  have isLength : (UInt32.ofNat n).toNat = n := UInt32.toNat_ofNat_of_lt' fits
  have reads := reads_readU32Le (UInt32.ofNat n)
  rwa [isLength] at reads

/-- The written tokens occupy what the header counts and are read back one by one. -/
theorem writeTokens_spec : ∀ {tokens : List Token} {bytes : List UInt8},
    writeTokens tokens = .ok bytes →
      bytes.length = (tokens.map Token.encodedLen).sum ∧ ReadsAll Token.readFrom bytes tokens
  | [], bytes, h => by
    cases h
    exact ⟨rfl, .nil⟩
  | token :: tokens, bytes, h => by
    obtain ⟨first, written, h⟩ := bind_ok h
    obtain ⟨rest, others, h⟩ := bind_ok h
    cases h
    obtain ⟨length, reads⟩ := Token.writeTo_spec written
    obtain ⟨lengths, readsOthers⟩ := writeTokens_spec others
    constructor
    · rw [length_append, length, lengths]
      rfl
    · refine .cons (fun none_ => ?_) (reads _) readsOthers
      rw [(append_eq_nil_iff.mp none_).1, length_nil, Token.encodedLen] at length
      omega

theorem RntbdRequestFrame.write_eq_ok {frame : RntbdRequestFrame} {bytes : List UInt8}
    (h : frame.write = .ok bytes) :
    frame.headerLen < 2 ^ 32 ∧ ∃ types tokens body, types.length = 20 ∧
      writeTokens frame.metadata = .ok tokens ∧ writeBody frame.body = .ok body ∧
      bytes = leBytes 4 frame.headerLen ++ (types ++ (tokens ++ body)) := by
  obtain ⟨length, lengthIs, h⟩ := bind_ok h
  obtain ⟨resource, _, h⟩ := bind_ok h
  obtain ⟨operation, _, h⟩ := bind_ok h
  obtain ⟨tokens, tokensAre, h⟩ := bind_ok h
  obtain ⟨body, bodyIs, h⟩ := bind_ok h
  cases h
  obtain ⟨fits, rfl⟩ := writeLength_eq_ok lengthIs
  refine ⟨fits, leBytes 2 resource.toNat ++ (leBytes 2 operation.toNat ++
    writeUuidLe frame.activityId), tokens, body, ?_, tokensAre, bodyIs, ?_⟩
  · simp
  · simp only [append_assoc]

/-- A written frame is decodable: its `LengthInBytes` ends the token stream, the stream
reads back as the metadata, and what follows is the body behind its length. -/
theorem request_frame_decodable {frame : RntbdRequestFrame} {bytes : List UInt8}
    (h : frame.write = .ok bytes) :
    ∃ lengthInBytes : UInt32, readU32Le bytes = .ok (lengthInBytes, bytes.drop 4) ∧
      lengthInBytes.toNat = 24 + (frame.metadata.map Token.encodedLen).sum ∧
      lengthInBytes.toNat ≤ bytes.length ∧
      ReadsAll Token.readFrom ((bytes.take lengthInBytes.toNat).drop 24) frame.metadata ∧
      match frame.body with
      | none => bytes.drop lengthInBytes.toNat = []
      | some body => ∃ bodyLen : UInt32, bodyLen.toNat = body.length ∧
        readU32Le (bytes.drop lengthInBytes.toNat) = .ok (bodyLen, body) := by
  obtain ⟨fits, types, tokens, body, typesLength, written, bodyIs, rfl⟩ :=
    RntbdRequestFrame.write_eq_ok h
  obtain ⟨tokensLength, readsTokens⟩ := writeTokens_spec written
  have isLength : (UInt32.ofNat frame.headerLen).toNat = frame.headerLen :=
    UInt32.toNat_ofNat_of_lt' fits
  have header : (leBytes 4 frame.headerLen ++ types).length = 24 := by simp [typesLength]
  -- the header and the tokens end where `LengthInBytes` says
  have counted : frame.headerLen = (leBytes 4 frame.headerLen ++ types ++ tokens).length := by
    rw [length_append, header, tokensLength]
    rfl
  have framed : leBytes 4 frame.headerLen ++ (types ++ (tokens ++ body)) =
      leBytes 4 frame.headerLen ++ types ++ tokens ++ body := by
    simp only [append_assoc]
  refine ⟨UInt32.ofNat frame.headerLen, ?_, isLength, ?_, ?_, ?_⟩
  · rw [reads_length fits, drop_left' (by simp)]
  · rw [isLength, framed, length_append, ← counted]
    omega
  · rw [isLength, framed, take_left' counted.symm, drop_left' header]
    exact readsTokens
  · rw [isLength, framed, drop_left' counted.symm]
    cases bodyCase : frame.body with
    | none =>
      rw [bodyCase] at bodyIs
      cases bodyIs
      rfl
    | some payload =>
      rw [bodyCase] at bodyIs
      obtain ⟨length, lengthIs, bodyIs⟩ := bind_ok bodyIs
      cases bodyIs
      obtain ⟨payloadFits, rfl⟩ := writeLength_eq_ok lengthIs
      exact ⟨_, UInt32.toNat_ofNat_of_lt' payloadFits, reads_length payloadFits payload⟩

/-- A create request with one token and a two-byte body. -/
def createRequest : RntbdRequestFrame where
  resourceType := .document
  operationType := .create
  activityId := ⟨1, 2, 3, ⟨[0, 1, 2, 3, 4, 5, 6, 7], rfl⟩⟩
  metadata := [⟨0x00CE, .string "account"⟩]
  body := some [0x7b, 0x7d]

theorem createRequest_decodable :
    ∃ bytes, createRequest.write = .ok bytes ∧
      ∃ lengthInBytes : UInt32, readU32Le bytes = .ok (lengthInBytes, bytes.drop 4) ∧
        lengthInBytes.toNat = 36 ∧
        ReadsAll Token.readFrom ((bytes.take lengthInBytes.toNat).drop 24) createRequest.metadata ∧
        readU32Le (bytes.drop lengthInBytes.toNat) = .ok (2, [0x7b, 0x7d]) := by
  have written : createRequest.write = .ok ([36, 0, 0, 0, 3, 0, 1, 0, 1, 0, 0, 0, 2, 0, 3, 0,
    0, 1, 2, 3, 4, 5, 6, 7, 206, 0, 8, 7, 0, 97, 99, 99, 111, 117, 110, 116, 2, 0, 0, 0, 123, 125]) := by
    decide +kernel
  obtain ⟨lengthInBytes, field, counted, _, tokens, bodyLen, isLength, body⟩ :=
    request_frame_decodable written
  have two : bodyLen = 2 := UInt32.toNat_inj.mp isLength
  exact ⟨_, written, lengthInBytes, field, counted, tokens, two ▸ body⟩

end AzureSdk.Cosmos.Rntbd
