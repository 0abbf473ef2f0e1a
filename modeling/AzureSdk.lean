import AzureSdk.Cosmos.Dataflow.ChangeFeed
import AzureSdk.Cosmos.Session.Container
import AzureSdk.Cosmos.Session.LatestOrder
import AzureSdk.Cosmos.Session.Total
import AzureSdk.Cosmos.Rntbd.ResponseFields
import AzureSdk.Cosmos.Patch.HandlerRuns
import AzureSdk.Cosmos.Cache.Freshness
import AzureSdk.Cosmos.Transport.Selectable
import AzureSdk.Cosmos.Transport.Capacity
import AzureSdk.Cosmos.Query.PkFilter
import AzureSdk.EventHubs.Convergence
import AzureSdk.EventHubs.CheckpointStore
import AzureSdk.EventHubs.Processor
import AzureSdk.EventHubs.Authorizer
import AzureSdk.Storage.DownloadInto
import AzureSdk.Storage.DownloadRanges
import AzureSdk.Storage.Sas
import AzureSdk.Core.BearerToken
import AzureSdk.Core.Poller
import AzureSdk.Core.Retry
import AzureSdk.Core.PagerResume
import AzureSdk.Cosmos.Patch.InPlace
import AzureSdk.Cosmos.Patch.Laws
import AzureSdk.Cosmos.Patch.Move
import AzureSdk.Cosmos.Dataflow.FreshPlan
import AzureSdk.Cosmos.Dataflow.QueryPlan
import AzureSdk.Cosmos.Emulator.RangesFeed
import AzureSdk.Cosmos.Emulator.Transactions
import AzureSdk.Cosmos.RoutingMapExact
import AzureSdk.Cosmos.Pipeline.Hedging
import AzureSdk.Cosmos.Query.Like
import AzureSdk.Cosmos.Query.OrderBy
import AzureSdk.Cosmos.Query.Reports
