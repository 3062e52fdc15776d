import Inference.Lib.Run
import Inference.LeaseFencing
import Inference.RowInvariant
import Inference.Handlers
import Inference.LatencyAware
import Inference.Servicer
import Inference.Pool.Deadline
import Inference.GatewayFaults
import Inference.LeaseRenewal
import Inference.Bookkeeping
import Inference.Deploy.Rollout
import Inference.Deploy.DrainSound
import Inference.Deploy.Metrics
import Inference.Deploy.Accounting
import Inference.V73.Locks
import Inference.V73.Publication
import Inference.V73.Download
import Inference.V73.Confinement
import Inference.Pool.Omission
import Inference.Pool.Retry
import Inference.Pool.Membership
import Inference.Pool.Routing
import Inference.Pool.Queue
import Inference.Discovery
import Inference.Text.SingleFlight
import Inference.Text.Gateway
import Inference.Waiting
import Inference.Pool.Replies
import Inference.Pool.Work
import Inference.Cluster
import Inference.Convergence
import Inference.Durable
import Inference.Local.Serving
import Inference.Ensemble
import Inference.Deploy.History
