import NdnRepo.Held.StoreRun
import NdnRepo.Held.ConcurrentRead
import NdnRepo.Held.Crash
import NdnRepo.Held.Durable
import NdnRepo.Held.Rot
import NdnRepo.Cluster.Erasure
import NdnRepo.Repo.FailClosed
import NdnRepo.Cluster.Coverage
import NdnRepo.Cluster.Placement
import NdnRepo.Cluster.Rounds
import NdnRepo.Cluster.Gossip
import NdnRepo.Repo.CmdCodec
import NdnRepo.Cluster.Specs
import NdnRepo.Cluster.Designation
import NdnRepo.Cluster.Damaged
import NdnRepo.Repo.Retry
import NdnRepo.Repo.Cancel
import NdnRepo.Repo.Malformed
import NdnRepo.Repo.Service
import NdnRepo.Cluster.Announce
import NdnRepo.Cluster.Late
import NdnRepo.Cluster.Described
import NdnRepo.Repo.Push
import NdnRepo.Repo.Route
import NdnRepo.Repo.Loop
import NdnRepo.Cluster.Copies
import NdnRepo.Held.Restart
import NdnRepo.Repo.Tasks
import NdnRepo.Repo.Lives
import NdnRepo.Held.Blind
import NdnRepo.Repo.Settles
import NdnRepo.Repo.Daemon
import NdnRepo.Cluster.Deployment
