import Diynamo.Api.Types
import Diynamo.Client.Cli
import Diynamo.Client.Http
import Diynamo.Client.Public
import Diynamo.Cluster.Agreement
import Diynamo.Cluster.Delegate
import Diynamo.Cluster.Ring
import Diynamo.Coordinator.Convergence
import Diynamo.Coordinator.CorruptHints
import Diynamo.Coordinator.Get
import Diynamo.Coordinator.Handoff
import Diynamo.Coordinator.HandoffLoop
import Diynamo.Coordinator.HintDelivery
import Diynamo.Coordinator.HintIsolation
import Diynamo.Coordinator.NodeUrl
import Diynamo.Coordinator.PartialDelivery
import Diynamo.Coordinator.Put
import Diynamo.Coordinator.ReadRepair
import Diynamo.Coordinator.ReconcileFailure
import Diynamo.Coordinator.Respawn
import Diynamo.Coordinator.Roster
import Diynamo.Coordinator.Service
import Diynamo.Coordinator.UuidMachine
import Diynamo.Coordinator.WriteRace
import Diynamo.Lib.Binary
import Diynamo.Lib.LastWrite
import Diynamo.Lib.Ordered
import Diynamo.Lib.Percent
import Diynamo.Lib.Run
import Diynamo.Lib.Url
import Diynamo.Lib.UrlPath
import Diynamo.Lib.Utf8
import Diynamo.Lib.Words
import Diynamo.Server.Handlers
import Diynamo.Server.Requests
import Diynamo.Server.Router
import Diynamo.Store.HintArrivals
import Diynamo.Store.HintMap
import Diynamo.Store.Hints
import Diynamo.Store.Raw
import Diynamo.Store.RocksDb
import Diynamo.System.Accounting
import Diynamo.System.Availability
import Diynamo.System.DataLoss
import Diynamo.System.Deliveries
import Diynamo.System.Divergence
import Diynamo.System.Durability
import Diynamo.System.EventLoops
import Diynamo.System.Isolation
import Diynamo.System.MonotoneReads
import Diynamo.System.OwnRings
import Diynamo.System.Placement
import Diynamo.System.Progress
import Diynamo.System.Provenance
import Diynamo.System.PublicApi
import Diynamo.System.Quorum
import Diynamo.System.Recovery
import Diynamo.System.Rules
import Diynamo.System.Sequential
import Diynamo.System.Step
import Diynamo.System.Transport
import Diynamo.System.WellFormed
