/-
# EventHubs.Ownership — who owns a partition

The record a checkpoint store keeps for each partition of an event hub, the name it is
kept under, and who the client is that asks for it.
-/
import AzureSdk.Core.Error

namespace AzureSdk.EventHubs

open Core

/-- Times are counted from some fixed moment. -/
structure Ownership where
  fullyQualifiedNamespace : String
  eventHubName : String
  consumerGroup : String
  partitionId : String
  ownerId : Option String
  etag : Option String
  lastModifiedTime : Option Int
  deriving DecidableEq, Repr

structure ConsumerClientDetails where
  fullyQualifiedNamespace : String
  eventhubName : String
  consumerGroup : String
  clientId : String
  deriving DecidableEq, Repr

/-- `check_non_empty_parameter!`, with the text of the field. -/
def checkNonEmptyParameter (field value : String) : Result Unit :=
  if value = "" then .error ⟨.other, "Required field " ++ field ++ " is empty"⟩ else .ok ()

namespace Ownership

def getOwnershipPrefixName (fullyQualifiedNamespace eventHubName consumerGroup : String) :
    Result String := do
  checkNonEmptyParameter "fully_qualified_namespace" fullyQualifiedNamespace
  checkNonEmptyParameter "event_hub_name" eventHubName
  checkNonEmptyParameter "consumer_group" consumerGroup
  .ok (fullyQualifiedNamespace ++ "/" ++ eventHubName ++ "/" ++ consumerGroup ++ "/ownership/")

def getOwnershipName (fullyQualifiedNamespace eventHubName consumerGroup partitionId : String) :
    Result String := do
  checkNonEmptyParameter "fully_qualified_namespace" fullyQualifiedNamespace
  checkNonEmptyParameter "event_hub_name" eventHubName
  checkNonEmptyParameter "consumer_group" consumerGroup
  checkNonEmptyParameter "partition_id" partitionId
  let start ← getOwnershipPrefixName fullyQualifiedNamespace eventHubName consumerGroup
  .ok (start ++ partitionId)

end Ownership

end AzureSdk.EventHubs
