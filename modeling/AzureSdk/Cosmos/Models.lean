/-
# Cosmos.Models — resource and operation types
-/
namespace AzureSdk.Cosmos

inductive ResourceType
  | databaseAccount | database | documentCollection | document | storedProcedure | trigger
  | userDefinedFunction | partitionKeyRange | offer | distributedTransactionBatch
  deriving DecidableEq, Repr

inductive OperationType
  | create | read | readFeed | replace | delete | upsert | query | sqlQuery | queryPlan | batch
  | head | headFeed | execute | patch | commitDistributedTransaction | readDistributedTransaction
  deriving DecidableEq, Repr

def OperationType.isReadOnly : OperationType → Bool
  | .read | .readFeed | .query | .sqlQuery | .queryPlan | .head | .headFeed
  | .readDistributedTransaction => true
  | _ => false

def ResourceType.isPartitioned (resourceType : ResourceType) (operationType : OperationType) :
    Bool :=
  match resourceType with
  | .document => operationType != .queryPlan
  | .storedProcedure => operationType == .execute
  | _ => false

/-- `CosmosOperation`, by its types. -/
structure CosmosOperation where
  resourceType : ResourceType
  operationType : OperationType
  deriving DecidableEq, Repr

def CosmosOperation.isReadOnly (operation : CosmosOperation) : Bool :=
  operation.operationType.isReadOnly

def CosmosOperation.isPartitioned (operation : CosmosOperation) : Bool :=
  operation.resourceType.isPartitioned operation.operationType

end AzureSdk.Cosmos
