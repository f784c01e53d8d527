import NdnRepo.Lib.Rank

/-!
# The coordination state

Every node of a cluster folds what it hears into a `ClusterState` and decides
from it alone which jobs to claim and which to release.  A job is covered when as
many live nodes claim it as its replication asks for.  A node is live while its
last heartbeat is recent.  Nodes are ranked by utilisation, then by name.

The maps are association lists, whose order is that of an iteration over the
source's hash maps.
-/

namespace NdnRepo.Cluster

/-- A `HashMap`.  Its entries are listed in iteration order. -/
abbrev HashMap (K V : Type) := AList fun _ : K => V

/-- `u64::MAX`. -/
def u64Max : ℕ := 2 ^ 64 - 1

/-- `u16::MAX`. -/
def u16Max : ℕ := 2 ^ 16 - 1

/-- The numbers utilisations are compared as.  All that is used of `f64` is that
those which occur are totally ordered. -/
class Utilization (κ : Type) extends LinearOrder κ where
  /-- `0.0`. -/
  zero : κ
  /-- `used as f64 / total as f64`. -/
  ratio : ℕ → ℕ → κ

/-- What the nodes of a cluster have agreed on. -/
structure ClusterConfig (κ : Type) where
  /-- How many live nodes shall hold each job. -/
  replicationFactor : ℕ
  /-- The heartbeat period. -/
  heartbeatIntervalNs : ℕ
  /-- Heartbeats missed in a row before a node is declared dead. -/
  missedHeartbeats : ℕ
  /-- The utilisation from which on a node accepts no new jobs. -/
  capacityHighWatermark : κ

/-- How long a node may be silent. -/
def ClusterConfig.deadAfterNs {κ : Type} (config : ClusterConfig κ) : ℕ :=
  min (config.heartbeatIntervalNs * config.missedHeartbeats) u64Max

/-- What is known of a node. -/
structure NodeStatus where
  /-- When it was last heard of. -/
  lastHeartbeatNs : ℕ
  /-- The capacity it uses. -/
  capacityUsed : ℕ
  /-- The capacity it has. -/
  capacityTotal : ℕ
deriving DecidableEq

/-- The share of its capacity a node uses, zero if it has none. -/
def NodeStatus.utilization {κ : Type} [Utilization κ] (s : NodeStatus) : κ :=
  if s.capacityTotal = 0 then Utilization.zero
  else Utilization.ratio s.capacityUsed s.capacityTotal

/-- A unit of work. -/
structure Job (Name : Type) where
  /-- How many nodes shall hold it, or 0 for the cluster's default. -/
  replicationFactor : ℕ := 0
  /-- Who claims it, and since when. -/
  claimants : HashMap Name ℕ := ∅
  /-- For an erasure-coded job `(k, n)`: `n` shards, any `k` of which suffice. -/
  erasure : Option (ℕ × ℕ) := none

/-- Which shard of an erasure-coded job a node stores. -/
structure ShardPlan where
  /-- The shard. -/
  index : ℕ
  /-- Shards that suffice. -/
  k : ℕ
  /-- All shards. -/
  n : ℕ
deriving DecidableEq

/-- One node's view of the cluster. -/
structure ClusterState (Name κ : Type) where
  /-- The configuration. -/
  config : ClusterConfig κ
  /-- The nodes heard of. -/
  nodes : HashMap Name NodeStatus
  /-- The jobs heard of. -/
  jobs : HashMap Name (Job Name)

namespace ClusterState

variable {Name κ : Type} [LinearOrder Name] [Utilization κ]

/-- A view of nothing. -/
def new (config : ClusterConfig κ) : ClusterState Name κ := ⟨config, ∅, ∅⟩

/-! ## Observations -/

/-- Record a heartbeat.  Newer timestamps win. -/
def observeHeartbeat (s : ClusterState Name κ) (node : Name) (used total now : ℕ) :
    ClusterState Name κ :=
  let e := (s.nodes.lookup node).getD ⟨0, used, total⟩
  let e := if e.lastHeartbeatNs ≤ now then ⟨now, used, total⟩ else e
  { s with nodes := s.nodes.insert node e }

/-- Register a job. -/
def observeJob (s : ClusterState Name κ) (job : Name) (replicationFactor : ℕ) :
    ClusterState Name κ :=
  let j := (s.jobs.lookup job).getD {}
  let j := if replicationFactor ≠ 0 then { j with replicationFactor := replicationFactor } else j
  { s with jobs := s.jobs.insert job j }

/-- Register an erasure-coded job. -/
def observeErasureJob (s : ClusterState Name κ) (job : Name) (k redundancy : ℕ) :
    ClusterState Name κ :=
  let k := max k 1
  let n := min (k + max redundancy 1) u16Max
  let j := (s.jobs.lookup job).getD {}
  let j := { j with erasure := some (k, n) }
  { s with jobs := s.jobs.insert job j }

/-- Record a claim. -/
def observeClaim (s : ClusterState Name κ) (job node : Name) (ts : ℕ) : ClusterState Name κ :=
  let j := (s.jobs.lookup job).getD {}
  let e := (j.claimants.lookup node).getD 0
  let j := { j with claimants := j.claimants.insert node (max e ts) }
  { s with jobs := s.jobs.insert job j }

/-- Record a release. -/
def observeRelease (s : ClusterState Name κ) (job node : Name) : ClusterState Name κ :=
  match s.jobs.lookup job with
  | none => s
  | some j =>
      let j := { j with claimants := j.claimants.erase node }
      { s with jobs := s.jobs.insert job j }

/-! ## Queries -/

/-- Whether a node was heard of recently. -/
def isLive (s : ClusterState Name κ) (node : Name) (now : ℕ) : Bool :=
  (s.nodes.lookup node).any fun st => now - st.lastHeartbeatNs ≤ s.config.deadAfterNs

/-- Whether a node is below the watermark. -/
def hasCapacity (s : ClusterState Name κ) (node : Name) : Bool :=
  (s.nodes.lookup node).any fun st => (st.utilization : κ) < s.config.capacityHighWatermark

/-- Nodes in the order of their utilisations, then of their names. -/
def sortNodes (live : List (Name × κ)) : List Name :=
  (live.insertionSort fun a b => toLex (a.2, a.1) ≤ toLex (b.2, b.1)).map Prod.fst

/-- The live nodes, ranked. -/
def rankedLiveNodes (s : ClusterState Name κ) (now : ℕ) : List Name :=
  sortNodes ((s.nodes.entries.filter fun e => s.isLive e.1 now).map fun e =>
    (e.1, (e.2.utilization : κ)))

/-- The nodes that should hold a shard each, in the order of the shards. -/
def shardHolders (s : ClusterState Name κ) (count now : ℕ) : List Name :=
  ((s.rankedLiveNodes now).filter fun n => s.hasCapacity n).take count

/-- The shard a node should hold of `n`, cast to `u16`. -/
def shardIndexOf (s : ClusterState Name κ) (selfId : Name) (n now : ℕ) : Option ℕ :=
  ((s.shardHolders n now).idxOf? selfId).map (· % 2 ^ 16)

/-- How many nodes shall hold a job. -/
def effectiveReplication (s : ClusterState Name κ) (job : Job Name) : ℕ :=
  match job.erasure with
  | some (_, n) => n
  | none =>
      if job.replicationFactor ≠ 0 then job.replicationFactor else s.config.replicationFactor

/-- The shard a node should hold of an erasure-coded job. -/
def shardPlan (s : ClusterState Name κ) (job selfId : Name) (now : ℕ) : Option ShardPlan := do
  let j ← s.jobs.lookup job
  let (k, n) ← j.erasure
  let index ← s.shardIndexOf selfId n now
  return ⟨index, k, n⟩

/-- The live nodes that claim a job. -/
def liveClaimants (s : ClusterState Name κ) (job : Name) (now : ℕ) : List Name :=
  match s.jobs.lookup job with
  | some j => j.claimants.keys.filter fun n => s.isLive n now
  | none => []

/-- Whether too few live nodes claim a job. -/
def isUnderReplicated (s : ClusterState Name κ) (job : Name) (now : ℕ) : Bool :=
  match s.jobs.lookup job with
  | some j => (s.liveClaimants job now).length < s.effectiveReplication j
  | none => false

/-- The jobs too few live nodes claim. -/
def underReplicatedJobs (s : ClusterState Name κ) (now : ℕ) : List Name :=
  s.jobs.keys.filter fun j => s.isUnderReplicated j now

/-- The nodes to claim a job next. -/
def designatedClaimers (s : ClusterState Name κ) (job : Name) (now : ℕ) : List Name :=
  match s.jobs.lookup job with
  | none => []
  | some j =>
      let need := s.effectiveReplication j - (s.liveClaimants job now).length
      if need = 0 then []
      else ((s.rankedLiveNodes now).filter fun n =>
        s.hasCapacity n && !decide (n ∈ j.claimants)).take need

/-- Whether a node is to claim a job. -/
def shouldClaim (s : ClusterState Name κ) (job selfNode : Name) (now : ℕ) : Bool :=
  (s.designatedClaimers job now).any (· = selfNode)

/-- The jobs a node is to claim. -/
def jobsToClaim (s : ClusterState Name κ) (selfNode : Name) (now : ℕ) : List Name :=
  (s.underReplicatedJobs now).filter fun j => s.shouldClaim j selfNode now

/-- The live claimants that keep a job. -/
def designatedKeepers (s : ClusterState Name κ) (job : Name) (now : ℕ) : List Name :=
  match s.jobs.lookup job with
  | none => []
  | some j =>
      (sortNodes ((s.liveClaimants job now).map fun n =>
        (n, ((s.nodes.lookup n).map fun st => (st.utilization : κ)).getD Utilization.zero))).take
          (s.effectiveReplication j)

/-- The jobs a node claims and is not to keep. -/
def jobsToRelease (s : ClusterState Name κ) (selfNode : Name) (now : ℕ) : List Name :=
  (s.jobs.entries.filter fun e => decide (selfNode ∈ e.2.claimants) && s.isLive selfNode now &&
    !(s.designatedKeepers e.1 now).contains selfNode).map Sigma.fst

/-- The live nodes. -/
def liveNodes (s : ClusterState Name κ) (now : ℕ) : List Name :=
  s.nodes.keys.filter fun n => s.isLive n now

end ClusterState

end NdnRepo.Cluster
