/-
# Cosmos.Rntbd.ResponseFields — what a response holds

A frame the service writes carries any list of tokens: known and unknown ids, in any
order, any of them repeated.  `fieldsOf` says what a reader keeps of it: per known id
the value of its last token.  `read_written` is that `read` returns exactly this, and
`read_mistyped` that a known id with a value of another type is refused by name.
-/
import Mathlib.Data.List.Induction
import AzureSdk.Cosmos.Rntbd.ResponseRead

namespace AzureSdk.Cosmos.Rntbd

open Theory.Bytes List RntbdResponseToken Token Metadata RntbdResponse

namespace RntbdResponseToken

def id : RntbdResponseToken → UInt16
  | payloadPresent => 0x0000
  | continuationToken => 0x0003
  | eTag => 0x0004
  | retryAfterMilliseconds => 0x000C
  | lsn => 0x0013
  | requestCharge => 0x0015
  | ownerFullName => 0x0017
  | subStatus => 0x001C
  | partitionKeyRangeId => 0x0021
  | itemLsn => 0x0032
  | globalCommittedLsn => 0x0029
  | transportRequestId => 0x0035
  | sessionToken => 0x003E

/-- The type of the field a token of the id is read into. -/
def tokenType : RntbdResponseToken → TokenType
  | payloadPresent => .byte
  | continuationToken | eTag | ownerFullName | partitionKeyRangeId | sessionToken => .string
  | retryAfterMilliseconds | subStatus | transportRequestId => .uLong
  | lsn | itemLsn | globalCommittedLsn => .longLong
  | requestCharge => .double

/-- The name an error gives the field. -/
def name : RntbdResponseToken → String
  | payloadPresent => "PayloadPresent"
  | continuationToken => "ContinuationToken"
  | eTag => "ETag"
  | retryAfterMilliseconds => "RetryAfterMilliseconds"
  | lsn => "LSN"
  | requestCharge => "RequestCharge"
  | ownerFullName => "OwnerFullName"
  | subStatus => "SubStatus"
  | partitionKeyRangeId => "PartitionKeyRangeId"
  | itemLsn => "ItemLSN"
  | globalCommittedLsn => "GlobalCommittedLSN"
  | transportRequestId => "TransportRequestID"
  | sessionToken => "SessionToken"

theorem tryFrom_eq_some_iff {value : UInt16} {field : RntbdResponseToken} :
    tryFrom value = some field ↔ value = field.id := by
  constructor
  · intro h
    unfold tryFrom at h
    split at h <;> cases h <;> exact UInt16.toNat_inj.mp (by assumption)
  · rintro rfl
    cases field <;> rfl

end RntbdResponseToken

/-! ## The last value of an id -/

/-- The value of the last token of the id. -/
def last {α : Type} (field : RntbdResponseToken) (value : Token → Option α) (tokens : List Token) :
    Option α :=
  (tokens.reverse.find? fun token => token.id == field.id).bind value

theorem last_concat {α : Type} (field : RntbdResponseToken) (value : Token → Option α)
    (tokens : List Token) (token : Token) :
    last field value (tokens ++ [token]) =
      if token.id = field.id then value token else last field value tokens := by
  unfold last
  rw [reverse_append, reverse_singleton, singleton_append, find?_cons]
  by_cases same : token.id = field.id
  · simp [same]
  · rw [if_neg same, beq_false_of_ne same]

/-- What the tokens leave in the variables of the loop. -/
def fieldsOf (tokens : List Token) : Metadata where
  payloadPresent := (last .payloadPresent asByte tokens).any (· != 0)
  continuationToken := last .continuationToken intoString tokens
  etag := last .eTag intoString tokens
  retryAfterMs := last .retryAfterMilliseconds asU32 tokens
  lsn := last .lsn asI64 tokens
  requestCharge := last .requestCharge asF64 tokens
  ownerFullName := last .ownerFullName intoString tokens
  subStatus := last .subStatus asU32 tokens
  partitionKeyRangeId := last .partitionKeyRangeId intoString tokens
  itemLsn := last .itemLsn asI64 tokens
  globalCommittedLsn := last .globalCommittedLsn asI64 tokens
  transportRequestId := last .transportRequestId asU32 tokens
  sessionToken := last .sessionToken intoString tokens

/-- A known id comes with a value of its field's type. -/
def Token.Typed (token : Token) : Prop :=
  ∀ field, tryFrom token.id = some field →
    token.value.tokenType = field.tokenType

variable {token : Token} {tokens after before : List Token} {field : RntbdResponseToken}

theorem store_fieldsOf (typed : token.Typed) :
    (fieldsOf tokens).store token = .ok (fieldsOf (tokens ++ [token])) := by
  cases known : tryFrom token.id with
  | none =>
    have other : ∀ field : RntbdResponseToken, token.id ≠ field.id := by
      intro field same
      rw [tryFrom_eq_some_iff.mpr same] at known
      cases known
    simp only [store, known, fieldsOf, last_concat, other, if_false]
  | some field =>
    have isType := typed field known
    obtain ⟨id, value⟩ := token
    obtain rfl : id = field.id := tryFrom_eq_some_iff.mp known
    -- the type of the field leaves one constructor for the value
    cases field <;> cases value <;> first
      | (cases isType; done)
      | simp only [fieldsOf, last_concat]
        rfl

theorem store_mistyped {m : Metadata} (known : tryFrom token.id = some field)
    (other : token.value.tokenType ≠ field.tokenType) :
    m.store token = .error (unexpectedTokenType field.name) := by
  obtain ⟨id, value⟩ := token
  cases field <;> cases value <;> first
    | exact absurd rfl other
    | simp only [store, known]
      rfl

/-- The loop keeps the last value of every id; by induction on the tokens from the end. -/
theorem foldlM_store (typed : ∀ token ∈ tokens, token.Typed) :
    tokens.foldlM store {} = .ok (fieldsOf tokens) := by
  induction tokens using reverseRecOn with
  | nil => rfl
  | append_singleton tokens token ih =>
    rw [foldlM_append, ih fun t ht => typed t (mem_append_left _ ht)]
    show (fieldsOf tokens).store token >>= pure = _
    rw [store_fieldsOf (typed token (by simp))]
    rfl

theorem foldlM_store_mistyped (typed : ∀ t ∈ before, t.Typed)
    (known : tryFrom token.id = some field) (other : token.value.tokenType ≠ field.tokenType) :
    (before ++ token :: after).foldlM store {} =
      .error (unexpectedTokenType field.name) := by
  rw [foldlM_append, foldlM_store typed]
  show (fieldsOf before).store token >>= _ = _
  rw [store_mistyped known other]
  rfl

/-- A token of an unknown id leaves the values of all others alone. -/
theorem fieldsOf_unknown (unknown : tryFrom token.id = none) :
    fieldsOf (before ++ token :: after) = fieldsOf (before ++ after) := by
  have skipped : ∀ {α : Type} (field : RntbdResponseToken) (value : Token → Option α),
      last field value (before ++ token :: after) = last field value (before ++ after) := by
    intro α field value
    have other : token.id ≠ field.id := by
      intro same
      rw [tryFrom_eq_some_iff.mpr same] at unknown
      cases unknown
    simp [last, find?_append, other]
  simp only [fieldsOf, skipped]

/-! ## Frames -/

/-- A response frame as the service writes it: the metadata is any list of tokens that can
be written, and a body follows when the last `PayloadPresent` announces one. -/
structure ResponseFrame where
  httpStatus : UInt32
  activityId : Uuid
  metadata : List Token
  tokens : List UInt8
  written : writeTokens metadata = .ok tokens
  fits : 24 + tokens.length < 2 ^ 32
  body : List UInt8
  bodyFits : body.length < 2 ^ 32
  announced : (fieldsOf metadata).payloadPresent = false → body = []

namespace ResponseFrame

variable (frame : ResponseFrame)

/-- What the length counts, without the length itself. -/
def counted : List UInt8 :=
  leBytes 4 frame.httpStatus.toNat ++ (writeUuidLe frame.activityId ++ frame.tokens)

def payload : List UInt8 :=
  if (fieldsOf frame.metadata).payloadPresent then leBytes 4 frame.body.length ++ frame.body
  else []

def bytes : List UInt8 :=
  leBytes 4 (24 + frame.tokens.length) ++ (frame.counted ++ frame.payload)

theorem length_counted : frame.counted.length = 20 + frame.tokens.length := by
  simp only [counted, length_append, length_leBytes, length_writeUuidLe]
  omega

open RntbdResponse

theorem readFrame_counted :
    readFrame frame.counted = (frame.metadata.foldlM store {} >>= fun m =>
      .ok (frame.httpStatus, frame.activityId, m)) := by
  unfold readFrame counted
  rw [reads_readU32Le frame.httpStatus]
  show (readUuidLe (writeUuidLe frame.activityId ++ frame.tokens) >>= _) = _
  rw [reads_readUuidLe frame.activityId]
  show (readAll frame.tokens {} >>= _) = _
  rw [readAll_eq_foldlM (writeTokens_spec frame.written).2]
  rfl

theorem read_bytes (extra : List UInt8) :
    read (frame.bytes ++ extra) = readParts frame.counted (frame.payload ++ extra) := by
  have isLength : (UInt32.ofNat (24 + frame.tokens.length)).toNat = 24 + frame.tokens.length :=
    UInt32.toNat_ofNat_of_lt' frame.fits
  have size := frame.length_counted
  rw [bytes, append_assoc, append_assoc]
  apply read_framed _ (length_leBytes _ _) (reads_length frame.fits)
  · rw [isLength, length_leBytes]
    omega
  · omega

theorem readPayload_payload (extra : List UInt8) :
    (if (fieldsOf frame.metadata).payloadPresent then readPayload (frame.payload ++ extra)
      else .ok []) = .ok frame.body := by
  unfold payload
  split
  case isTrue =>
      exact readPayload_exact (reads_length frame.bodyFits)
        (UInt32.toNat_ofNat_of_lt' frame.bodyFits) extra
  case isFalse absent => rw [frame.announced (by simpa using absent)]

variable {frame : ResponseFrame}

/-- A frame whose tokens have the types of their fields is read, whatever follows it. -/
theorem read_written (typed : ∀ token ∈ frame.metadata, token.Typed) (extra : List UInt8) :
    read (frame.bytes ++ extra) =
      .ok (assemble frame.httpStatus frame.activityId (fieldsOf frame.metadata) frame.body) := by
  rw [read_bytes, readParts, readFrame_counted, foldlM_store typed]
  show ((if (fieldsOf frame.metadata).payloadPresent then readPayload (frame.payload ++ extra)
      else .ok []) >>= _) = _
  rw [readPayload_payload]
  rfl

/-- The first known id with a value of another type is refused by the name of its field. -/
theorem read_mistyped {before after : List Token} {token : Token}
    {field : RntbdResponseToken} (split : frame.metadata = before ++ token :: after)
    (typed : ∀ t ∈ before, t.Typed) (known : tryFrom token.id = some field)
    (other : token.value.tokenType ≠ field.tokenType) (extra : List UInt8) :
    read (frame.bytes ++ extra) = .error (unexpectedTokenType field.name) := by
  rw [read_bytes, readParts, readFrame_counted, split, foldlM_store_mistyped typed known other]
  rfl

end ResponseFrame

/-- Reading a response is total and exact.  No byte string makes it panic; a response is
read from the bytes its lengths declare; a well-formed frame is read with the last value of
every known id and its body, unknown ids change nothing, and a known id of another type is
the one thing a written frame is refused for. -/
theorem response_read_total_and_exact :
    (∀ bytes e, read bytes = .error e → ¬ e.IsPanic) ∧
    (∀ bytes response, read bytes = .ok response →
      ∃ declared rest, bytes = declared ++ rest ∧ RntbdResponse.Declares declared response.body ∧
        ∀ extra, read (declared ++ extra) = .ok response) ∧
    (∀ frame : ResponseFrame, (∀ token ∈ frame.metadata, token.Typed) → ∀ extra,
      read (frame.bytes ++ extra) = .ok
        { status := mapRntbdStatusToCosmosStatus frame.httpStatus
            (last .subStatus asU32 frame.metadata)
          activityId := frame.activityId
          body := frame.body
          continuationToken := last .continuationToken intoString frame.metadata
          etag := last .eTag intoString frame.metadata
          retryAfterMs := last .retryAfterMilliseconds asU32 frame.metadata
          lsn := last .lsn asI64 frame.metadata
          requestCharge := last .requestCharge asF64 frame.metadata
          ownerFullName := last .ownerFullName intoString frame.metadata
          partitionKeyRangeId := last .partitionKeyRangeId intoString frame.metadata
          itemLsn := last .itemLsn asI64 frame.metadata
          globalCommittedLsn := last .globalCommittedLsn asI64 frame.metadata
          transportRequestId := last .transportRequestId asU32 frame.metadata
          sessionToken := last .sessionToken intoString frame.metadata }) ∧
    (∀ before token after, tryFrom token.id = none →
      fieldsOf (before ++ token :: after) = fieldsOf (before ++ after)) ∧
    ∀ (frame : ResponseFrame) before token after field, frame.metadata = before ++ token :: after →
      (∀ t ∈ before, t.Typed) → tryFrom token.id = some field →
      token.value.tokenType ≠ field.tokenType → ∀ extra,
        read (frame.bytes ++ extra) = .error (unexpectedTokenType field.name) :=
  ⟨noPanic_read, fun _ _ => read_declared,
    fun _ typed extra => ResponseFrame.read_written typed extra,
    fun _ _ _ unknown => fieldsOf_unknown unknown,
    fun _ _ _ _ _ split typed known other extra =>
      ResponseFrame.read_mistyped split typed known other extra⟩

/-- Two entity tags around an unknown id, and a body. -/
def taggedTwice : ResponseFrame where
  httpStatus := 200
  activityId := createRequest.activityId
  metadata := [⟨0x0004, .string "a"⟩, ⟨0x7777, .smallBytes [4, 0]⟩, ⟨0x0004, .string "b"⟩,
    ⟨0x0000, .byte 1⟩]
  tokens := [4, 0, 8, 1, 0, 97, 119, 119, 10, 2, 4, 0, 4, 0, 8, 1, 0, 98, 0, 0, 0, 1]
  written := by decide +kernel
  fits := by decide
  body := [123, 125]
  bodyFits := by decide
  announced := by decide +kernel

theorem taggedTwice_read :
    ∃ response, read (taggedTwice.bytes ++ [9, 9]) = .ok response ∧
      response.etag = some "b" ∧ response.body = [123, 125] := by
  refine ⟨_, response_read_total_and_exact.2.2.1 taggedTwice ?_ [9, 9], by decide +kernel, rfl⟩
  intro token member field known
  have isId := tryFrom_eq_some_iff.mp known
  simp only [taggedTwice, mem_cons, not_mem_nil, or_false] at member
  rcases member with rfl | rfl | rfl | rfl <;> cases field <;>
    first | rfl | exact absurd isId (by decide)

end AzureSdk.Cosmos.Rntbd
