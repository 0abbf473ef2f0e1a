/-
# Cosmos.Error — statuses, errors and results

A driver call ends in a value, in a `CosmosError` (HTTP status, optional
sub-status, message) or in a panic.  A panic is kept apart from an error: the
source never catches one, so it is a bug wherever it can be reached.
-/
import AzureSdk.Theory.Except

namespace AzureSdk.Cosmos

/-- An HTTP status code with an optional sub-status. -/
structure CosmosStatus where
  statusCode : Nat
  subStatus : Option Nat
  deriving DecidableEq, Repr

namespace CosmosStatus

def badRequest : CosmosStatus := ⟨400, none⟩
def clientQueryPlanInvalidTopOffsetLimit : CosmosStatus := ⟨400, some 20114⟩
def clientQueryPlanComplexProjectionUnsupported : CosmosStatus := ⟨400, some 20115⟩
def clientTopologyProviderMissing : CosmosStatus := ⟨500, some 20201⟩
def clientContinuationTokenShapeMismatch : CosmosStatus := ⟨500, some 20203⟩
def clientContinuationTokenUnexpectedNestedShape : CosmosStatus := ⟨500, some 20204⟩
def clientContinuationTokenInvalidEpkRange : CosmosStatus := ⟨500, some 20205⟩
def clientSplitRetriesExhausted : CosmosStatus := ⟨500, some 20206⟩
def clientContinuationTokenSavedRangeUnhonored : CosmosStatus := ⟨500, some 20213⟩
def clientNoOverlappingFeedRangesForSessionToken : CosmosStatus := ⟨410, some 20300⟩
def clientQueryPlanProducedEmptyRanges : CosmosStatus := ⟨500, some 20302⟩
def clientTopologyResolutionFailed : CosmosStatus := ⟨503, some 20305⟩
def clientQueryPlanRangeNotCoveredByTopology : CosmosStatus := ⟨500, some 20307⟩

variable (s : CosmosStatus)

/-- `is_partition_topology_change`: 410 with partition-key-range-gone (1002),
completing-split (1007) or completing-partition-migration (1008). -/
def isPartitionTopologyChange : Bool :=
  s.statusCode == 410 &&
    (s.subStatus == some 1002 || s.subStatus == some 1007 || s.subStatus == some 1008)

def isThrottled : Bool := s.statusCode == 429

def isRetryWith : Bool := s.statusCode == 449

def isGone : Bool := s.statusCode == 410

def isWriteForbidden : Bool := s.statusCode == 403 && s.subStatus == some 3

def isDatabaseAccountNotFound : Bool :=
  s.statusCode == 403 && s.subStatus == some 1008

def isReadSessionNotAvailable : Bool :=
  s.statusCode == 404 && s.subStatus == some 1002

/-- `StatusCode::is_server_error`. -/
def isServerError : Bool := decide (500 ≤ s.statusCode ∧ s.statusCode < 600)

end CosmosStatus

/-- `CosmosError`, with the fields the driver logic reads. -/
structure CosmosError where
  status : CosmosStatus
  message : String
  deriving DecidableEq, Repr

/-- How a call fails: an error it returns, or a panic. -/
inductive Fault
  | error (e : CosmosError)
  | panic (message : String)
  deriving DecidableEq, Repr

abbrev Result (α : Type) := Except Fault α

/-- `CosmosError::builder().with_status(..).with_message(..).build()` as a failure. -/
def fail {α : Type} (status : CosmosStatus) (message : String) : Result α :=
  .error (.error ⟨status, message⟩)

/-! ## Calls that do not panic -/

/-- The call returns a value or an error. -/
def NoPanic {α : Type} (x : Result α) : Prop := ∀ message, x ≠ .error (.panic message)

variable {α β : Type}

theorem noPanic_ok (a : α) : NoPanic (.ok a : Result α) := by
  intro message h
  cases h

theorem noPanic_fail (status : CosmosStatus) (text : String) :
    NoPanic (fail status text : Result α) := by
  intro message h
  cases h

variable {f : α → Result β}

theorem NoPanic.bind {x : Result α} (hx : NoPanic x)
    (hf : ∀ a, x = .ok a → NoPanic (f a)) : NoPanic (x >>= f) := by
  cases x with
  | ok a => exact hf a rfl
  | error fault =>
    intro message h
    exact hx message (by simpa [Bind.bind, Except.bind] using h)

theorem NoPanic.mapM : ∀ {l : List α}, (∀ a ∈ l, NoPanic (f a)) → NoPanic (l.mapM f)
  | [], _ => noPanic_ok []
  | a :: l, each => by
    rw [List.mapM_cons]
    refine (each a (.head _)).bind fun b _ => ?_
    refine (NoPanic.mapM fun x hx => each x (.tail _ hx)).bind fun bs _ => ?_
    exact noPanic_ok (b :: bs)

theorem NoPanic.foldlM {f : β → α → Result β} (each : ∀ b a, NoPanic (f b a)) :
    ∀ (l : List α) (b : β), NoPanic (l.foldlM f b)
  | [], b => noPanic_ok b
  | a :: l, b => by
    exact (each b a).bind fun c _ => NoPanic.foldlM each l c

end AzureSdk.Cosmos
