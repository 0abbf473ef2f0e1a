/-
# Cosmos.Patch.Handler — a patch as a loop of read and replace

The service has no patch the driver would use: the handler reads the item, applies the
operations to what it has read and replaces the item on the condition that its ETag is
still the one it has read.  A 412 answer means that another writer was faster, and the
handler starts over, up to the attempt limit.

The read and the replace go through the operation pipeline, which sends a request again
when `evaluateTransportResult` says so.  The item is a register with versions; what a
transmission does to it and what the client learns of it are two things, since a request
and a response can be lost.  A `World` is the item and the phase of one call; an `Event`
is what happens next, of the call or of another writer.
-/
import AzureSdk.Theory.Register
import AzureSdk.Cosmos.Session.Segment
import AzureSdk.Cosmos.Patch.PartitionKey
import AzureSdk.Cosmos.Pipeline.RetryBound

namespace AzureSdk.Cosmos.Patch

open Theory Theory.Json Cosmos.Session Cosmos.Pipeline

abbrev Etag := String

/-! ## Before the loop -/

inductive Precondition
  | ifMatch (etag : Etag)
  | ifNoneMatch (etag : Etag)
  deriving DecidableEq, Repr

/-- The body of the operation, parsed as `PatchInstructions`. -/
inductive PatchBody
  | missing
  | invalid
  | instructions (operations : List PatchOperation)

/-- A patch operation as the handler gets it: `pkPaths` are the partition key paths of the
container where the operation names an item, `none` where it does not. -/
structure PatchCall where
  precondition : Option Precondition
  body : PatchBody
  pkPaths : Option (List Text)
  sessionToken : Option Text
  maxAttempts : Option { n : UInt8 // n ≠ 0 }

def defaultPatchMaxAttempts : Nat := 5

def PatchCall.attempts (call : PatchCall) : Nat :=
  match call.maxAttempts with
  | some n => n.val.toNat
  | none => defaultPatchMaxAttempts

def PatchCall.operations (call : PatchCall) : List PatchOperation :=
  match call.body with
  | .instructions operations => operations
  | _ => []

def serializationResponseBodyInvalid : CosmosStatus := ⟨500, some 20020⟩

/-- The checks of `execute_with_dispatcher` before its loop. -/
def preflight (call : PatchCall) : Result Unit := do
  if call.precondition.isSome then
    fail .badRequest
      "PATCH does not support caller-set preconditions; the handler manages If-Match internally"
  let operations ← match call.body with
    | .missing => fail .badRequest "PATCH operation requires a PatchInstructions body"
    | .invalid =>
      fail serializationResponseBodyInvalid "failed to parse PATCH body as PatchInstructions"
    | .instructions operations => .ok operations
  if operations.isEmpty then
    fail .badRequest "PATCH operation must include at least one PatchOperation"
  let pkPaths ← match call.pkPaths with
    | none => fail .badRequest "PATCH dispatch requires an item-level operation with a partition key"
    | some pkPaths => .ok pkPaths
  validatePartitionKeyPaths operations pkPaths

/-! ## The loop -/

/-- How a patch fails: in a check of the handler, in a read or replace, or out of attempts,
with the last 412. -/
inductive PatchFailure
  | handler (fault : Fault)
  | subOperation (error : AbortError)
  | exhausted (message : String) (last412 : Option AbortError)

def exhaustionError (attempts : Nat) (last412 : Option AbortError) : PatchFailure :=
  .exhausted ("patch_item: ETag conflict after " ++ toString attempts ++ " attempts") last412

/-- The response of a patch, by its ETag and its body. -/
structure PatchResponse where
  etag : Option Etag
  body : Value

/-- The body of the replace where it has one, else what was sent
with the new ETag in it. -/
def synthesizePostImageBody (merged : Value) (replaceBody : Option Value)
    (replaceEtag : Option Etag) : Value :=
  match replaceBody, replaceEtag, merged with
  | some body, _, _ => body
  | none, some etag, .object members =>
    .object (Members.insert "_etag".toList (.string etag.toList) members)
  | none, _, merged => merged

/-- What an attempt of the loop carries to the next: the attempts left after it, the freshest
session token and the last 412. -/
structure Loop where
  left : Nat
  effectiveSessionToken : Option Text
  last412 : Option AbortError

/-- The body of a read is not one payload, or not JSON. -/
inductive UnreadableBody
  | notSingle
  | notJson (error : String)
  deriving DecidableEq, Repr

structure ReadResponse where
  etag : Option Etag
  sessionToken : Option Text
  body : Except UnreadableBody Value

/-- `build_replace_sub_op`. -/
structure ReplaceOp where
  ifMatch : Etag
  body : Value
  sessionToken : Option Text

/-- `Display` of `PatchEvalError`. -/
def PatchEvalError.display : PatchEvalError → String
  | .invalidPath p => "invalid JSON Pointer: '" ++ String.ofList p ++ "'"
  | .missingParent p => "missing parent path: '" ++ String.ofList p ++ "'"
  | .missingTarget p => "missing path: '" ++ String.ofList p ++ "'"
  | .invalidArrayIndex token path =>
    "invalid array index '" ++ String.ofList token ++ "' in path '" ++ String.ofList path ++ "'"
  | .arrayIndexOutOfRange index len path =>
    "array index " ++ toString index ++ " out of range (len=" ++ toString len ++ ") in path '" ++
      String.ofList path ++ "'"
  | .typeMismatch expected actual path =>
    "type mismatch at '" ++ String.ofList path ++ "': expected " ++ expected ++ ", got " ++ actual
  | .cannotRemoveRoot => "cannot remove root document"
  | .invalidMove message => "invalid move: " ++ String.ofList message

def ReadResponse.requireEtag (response : ReadResponse) : Result Etag :=
  match response.etag with
  | none => fail .badRequest "PATCH cannot proceed: the Read response did not include an ETag"
  | some etag => .ok etag

def ReadResponse.value (response : ReadResponse) : Result Value :=
  match response.body with
  | .error .notSingle =>
    fail serializationResponseBodyInvalid "PATCH could not extract Read response body"
  | .error (.notJson error) =>
    fail serializationResponseBodyInvalid
      ("PATCH could not deserialize current item body: " ++ error)
  | .ok value => .ok value

/-- `apply_patch_ops`, with its errors as the driver's. -/
def merge (operations : List PatchOperation) (value : Value) : Result Value :=
  match applyPatchOps value operations with
  | .error error => fail .badRequest error.display
  | .ok merged => .ok merged

/-- From the response of the read to the replace. -/
def mergeRead (operations : List PatchOperation) (loop : Loop) (response : ReadResponse) :
    Result (Loop × ReplaceOp) := do
  let etag ← response.requireEtag
  let value ← response.value
  let merged ← merge operations value
  .ok ({ loop with effectiveSessionToken := response.sessionToken <|> loop.effectiveSessionToken },
    ⟨etag, merged, response.sessionToken⟩)

/-- Only an answer of the service counts. -/
def isPreconditionFailed : AbortError → Bool
  | .service status _ _ => status.statusCode == 412
  | _ => false

/-- The session token of a 412 joins the one carried so far. -/
def foldSessionToken (carried : Option Text) : Option Text → Option Text
  | none => carried
  | some token412 =>
    match carried with
    | none => some token412
    | some prev =>
      match SessionToken.merge prev token412 with
      | .ok merged => some merged
      | .error _ => some token412

/-! ## One call and the item -/

inductive Phase
  | reading (loop : Loop)
  | replacing (loop : Loop) (op : ReplaceOp) (retryState : OperationRetryState)
  | finished (result : Except PatchFailure PatchResponse)

structure World where
  item : Register Etag Value
  phase : Phase

/-- The next turn of the loop, or its end. -/
def nextAttempt (attempts left : Nat) (effectiveSessionToken : Option Text)
    (last412 : Option AbortError) : Phase :=
  match left with
  | 0 => .finished (.error (exhaustionError attempts last412))
  | left + 1 => .reading ⟨left, effectiveSessionToken, last412⟩

/-- `execute_with_dispatcher`, up to its first read. -/
def begin (call : PatchCall) (item : Register Etag Value) : World where
  item := item
  phase := match preflight call with
    | .error fault => .finished (.error (.handler fault))
    | .ok () => nextAttempt call.attempts call.attempts call.sessionToken none

/-- The outcome is not the answer of the item: a transport error, a timeout, or an error of
the service other than 412. -/
def isForeign : TransportOutcome → Bool
  | .success .. => false
  | .httpError status .. => status.statusCode != 412
  | _ => true

/-- What becomes of one transmission of a replace: it does not take effect, the item refuses
it, or the item takes it under a new tag.  The answer of the item may be lost; the client then
sees another outcome. -/
inductive Delivery
  | unprocessed (outcome : TransportOutcome)
  | refused (subStatus : Option Nat) (sessionToken : Option Text) (lost : Option TransportOutcome)
  | committed (tag : Etag) (contentResponse : Bool) (lost : Option TransportOutcome)

/-- The client sees the answer, or what comes in its place. -/
def observed (answer : TransportOutcome) : Option TransportOutcome → Option TransportOutcome
  | none => some answer
  | some outcome => if isForeign outcome then some outcome else none

/-- A transmission arrives: the item after it and what the client sees. -/
def deliver (item : Register Etag Value) (op : ReplaceOp) :
    Delivery → Option (Register Etag Value × TransportOutcome)
  | .unprocessed outcome => if isForeign outcome then some (item, outcome) else none
  | .refused subStatus _ lost =>
    if item.current.tag = op.ifMatch then none
    else (observed (.httpError ⟨412, subStatus⟩ ⟨none⟩ [] .sent) lost).map (item, ·)
  | .committed tag _ lost => do
    let item ← item.swap op.ifMatch ⟨.own, tag, op.body⟩
    let outcome ← observed (.success ⟨200, none⟩ ⟨none⟩ []) lost
    some (item, outcome)

/-- The session token a 412 brings. -/
def Delivery.sessionToken : Delivery → Option Text
  | .refused _ sessionToken _ => sessionToken
  | _ => none

/-- The response to a replace that went through. -/
def Delivery.response (op : ReplaceOp) : Delivery → PatchResponse
  | .committed tag contentResponse _ =>
    ⟨some tag,
      synthesizePostImageBody op.body (if contentResponse then some op.body else none) (some tag)⟩
  | _ => ⟨none, op.body⟩

/-- What the operation loop changes in the state it retries with. -/
structure Rerouting where
  location : LocationIndex
  partitionKeyRangeId : Option String
  pendingWriteEffects : List LocationEffect

def Rerouting.apply (r : Rerouting) (s : OperationRetryState) : OperationRetryState :=
  { s with
    location := r.location
    partitionKeyRangeId := r.partitionKeyRangeId
    pendingWriteEffects := r.pendingWriteEffects }

inductive Event
  /-- Another writer commits. -/
  | otherCommit (tag : Etag) (body : Value)
  /-- The read is answered with a version of the item, not always the current one; the
  pipeline will start the replace with the retry state. -/
  | readAnswered (index : Nat) (hasEtag : Bool) (unreadable : Option UnreadableBody)
    (sessionToken : Option Text) (retryState : OperationRetryState)
  | readFailed (error : AbortError)
  /-- The replace is sent. -/
  | replaceSent (delivery : Delivery) (endpoint : CosmosEndpoint) (random : Nat)
    (rerouting : Rerouting)
  /-- The pipeline gives up between transmissions: the deadline, or no route. -/
  | replaceGivenUp (fault : Fault)

def readResponse (version : Version Etag Value) (hasEtag : Bool)
    (unreadable : Option UnreadableBody) (sessionToken : Option Text) : ReadResponse where
  etag := if hasEtag then some version.tag else none
  sessionToken := sessionToken
  body := match unreadable with
    | some fault => .error fault
    | none => .ok version.body

/-- The replace sub-operation, by its types. -/
def replaceOperation : CosmosOperation := ⟨.document, .replace⟩

section Step

variable (scaling : Scaling) (call : PatchCall)

def afterRead (loop : Loop) (response : ReadResponse) (retryState : OperationRetryState) : Phase :=
  match mergeRead call.operations loop response with
  | .error fault => .finished (.error (.handler fault))
  | .ok (loop, op) => .replacing loop op retryState

/-- A transmission of the replace is evaluated. -/
def afterReplace (loop : Loop) (op : ReplaceOp) (delivery : Delivery) (rerouting : Rerouting)
    (action : OperationAction) : Phase :=
  match action with
  | .complete _ => .finished (.ok (delivery.response op))
  | .abort error =>
    if isPreconditionFailed error then
      nextAttempt call.attempts loop.left
        (foldSessionToken loop.effectiveSessionToken delivery.sessionToken) (some error)
    else .finished (.error (.subOperation error))
  | .failoverRetry newState _ | .inRegionRetry newState _ | .sessionRetry newState
  | .dtxRetry newState _ => .replacing loop op (rerouting.apply newState)

/-- One event, where it can happen. -/
def step (w : World) : Event → Option World
  | .otherCommit tag body => do
    let item ← w.item.commit ⟨.other, tag, body⟩
    some { w with item }
  | .readAnswered index hasEtag unreadable sessionToken retryState =>
    match w.phase with
    | .reading loop => do
      let version ← w.item.versions[index]?
      let response := readResponse version hasEtag unreadable sessionToken
      some { w with phase := afterRead call loop response retryState }
    | _ => none
  | .readFailed error =>
    match w.phase with
    | .reading _ => some { w with phase := .finished (.error (.subOperation error)) }
    | _ => none
  | .replaceSent delivery endpoint random rerouting =>
    match w.phase with
    | .replacing loop op retryState => do
      let (item, outcome) ← deliver w.item op delivery
      let (action, _) :=
        evaluateTransportResult scaling replaceOperation ⟨endpoint, outcome, random⟩ retryState
      some ⟨item, afterReplace call loop op delivery rerouting action⟩
    | _ => none
  | .replaceGivenUp fault =>
    match w.phase with
    | .replacing _ _ _ => some { w with phase := .finished (.error (.handler fault)) }
    | _ => none

def run (w : World) (events : List Event) : Option World := events.foldlM (step scaling call) w

end Step

end AzureSdk.Cosmos.Patch
