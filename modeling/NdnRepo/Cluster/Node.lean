import NdnRepo.Cluster.View

/-!
# A cluster node

A node folds the messages it hears into its view, and at each tick records its
own heartbeat, releases the jobs others keep and claims those it is designated
for.  A tick changes the node's own view exactly as the messages it publishes
change the view of a node that hears them (`tick_state`).

What a tick decides is decided by the view after its heartbeat, `beat`
(`mem_tick_drop`, `mem_tick_ingest`).
-/

namespace NdnRepo.Cluster

open Rank

/-- A coordination message. -/
inductive ClusterMsg (Name : Type) where
  /-- A node is alive. -/
  | heartbeat (node : Name) (capacityUsed capacityTotal epoch : ℕ)
  /-- There is a job. -/
  | job (target : Name) (replicationFactor : ℕ) (erasure : Option (ℕ × ℕ))
  /-- A node claims a job. -/
  | claim (job node : Name) (ts : ℕ)
  /-- A node gives a job up. -/
  | release (job node : Name)
deriving DecidableEq

/-- What a node is told to ingest: a whole object, or one shard of it. -/
structure IngestTarget (Name : Type) where
  /-- The job. -/
  job : Name
  /-- The shard, for an erasure-coded job. -/
  shard : Option ShardPlan
deriving DecidableEq

/-- What a tick decides. -/
structure TickOutcome (Name : Type) where
  /-- The messages to gossip. -/
  publish : List (ClusterMsg Name)
  /-- The jobs newly claimed. -/
  ingest : List Name
  /-- The jobs released. -/
  drop : List Name
deriving DecidableEq

/-- A node's coordination core. -/
structure ClusterNode (Name κ : Type) where
  /-- Who the node is. -/
  selfId : Name
  /-- Its view of the cluster. -/
  state : ClusterState Name κ
  /-- The capacity it uses. -/
  capacityUsed : ℕ
  /-- The capacity it has. -/
  capacityTotal : ℕ
  /-- How often it has ticked. -/
  epoch : ℕ

variable {Name κ : Type} [LinearOrder Name]

/-- Fold a message into a view. -/
def ClusterState.observe (s : ClusterState Name κ) (msg : ClusterMsg Name) (now : ℕ) :
    ClusterState Name κ :=
  match msg with
  | .heartbeat node used total _ => s.observeHeartbeat node used total now
  | .job target _ (some (k, n)) => s.observeErasureJob target k (n - k)
  | .job target replicationFactor none => s.observeJob target replicationFactor
  | .claim job node ts => s.observeClaim job node ts
  | .release job node => s.observeRelease job node

namespace ClusterNode

/-- A node that has heard nothing. -/
def new (selfId : Name) (config : ClusterConfig κ) (capacityTotal : ℕ) : ClusterNode Name κ :=
  ⟨selfId, .new config, 0, capacityTotal, 0⟩

/-- Report the capacity used. -/
def setCapacityUsed (node : ClusterNode Name κ) (used : ℕ) : ClusterNode Name κ :=
  { node with capacityUsed := used }

/-- Learn of a job. -/
def announceJob (node : ClusterNode Name κ) (target : Name) (repl : ℕ) : ClusterNode Name κ :=
  { node with state := node.state.observeJob target repl }

/-- Learn of an erasure-coded job. -/
def announceErasureJob (node : ClusterNode Name κ) (target : Name) (k redundancy : ℕ) :
    ClusterNode Name κ :=
  { node with state := node.state.observeErasureJob target k redundancy }

/-- Fold a message into the node's view. -/
def observe (node : ClusterNode Name κ) (msg : ClusterMsg Name) (now : ℕ) : ClusterNode Name κ :=
  { node with state := node.state.observe msg now }

variable [Utilization κ]

/-- The shard of a job this node should hold. -/
def shardPlan (node : ClusterNode Name κ) (target : Name) (now : ℕ) : Option ShardPlan :=
  node.state.shardPlan target node.selfId now

/-- The view of a node that has recorded its own heartbeat. -/
def beat (node : ClusterNode Name κ) (now : ℕ) : ClusterState Name κ :=
  node.state.observeHeartbeat node.selfId node.capacityUsed node.capacityTotal now

/-- One round: a heartbeat, then releases, then claims. -/
def tick (node : ClusterNode Name κ) (now : ℕ) : TickOutcome Name × ClusterNode Name κ :=
  let epoch := node.epoch + 1
  let state := node.beat now
  let drop := state.jobsToRelease node.selfId now
  let state := drop.foldl (fun s job => s.observeRelease job node.selfId) state
  let ingest := state.jobsToClaim node.selfId now
  let state := ingest.foldl (fun s job => s.observeClaim job node.selfId now) state
  let publish := .heartbeat node.selfId node.capacityUsed node.capacityTotal epoch ::
    (drop.map (fun job => .release job node.selfId) ++
      ingest.map fun job => .claim job node.selfId now)
  (⟨publish, ingest, drop⟩, { node with state := state, epoch := epoch })

end ClusterNode

/-! ## Views that agree -/

namespace ClusterState

/-- Two views differ in claims at most. -/
structure OnlyClaims (s s' : ClusterState Name κ) : Prop where
  /-- They are of one cluster. -/
  config : s.config = s'.config
  /-- They know the same of every node. -/
  status : s.status = s'.status
  /-- They ask for the same replication. -/
  replication : s.replication = s'.replication
  /-- They have the same erasure parameters. -/
  erasure : s.erasure = s'.erasure

/-- Two views say the same, whatever the order of their maps. -/
structure Agree (s s' : ClusterState Name κ) : Prop extends OnlyClaims s s' where
  /-- They know the same claims. -/
  claimants : s.claimants = s'.claimants

namespace OnlyClaims

variable {s s' s'' : ClusterState Name κ}

theorem refl (s : ClusterState Name κ) : OnlyClaims s s := ⟨rfl, rfl, rfl, rfl⟩

theorem trans (h : OnlyClaims s s') (h' : OnlyClaims s' s'') : OnlyClaims s s'' :=
  ⟨h.config.trans h'.config, h.status.trans h'.status, h.replication.trans h'.replication,
    h.erasure.trans h'.erasure⟩

theorem isLive (h : OnlyClaims s s') (node : Name) (now : ℕ) :
    s.isLive node now = s'.isLive node now := by
  have hnode := congrFun h.status node
  simp only [ClusterState.status] at hnode
  simp only [ClusterState.isLive, hnode, h.config]

theorem standing (h : OnlyClaims s s') (now : ℕ) (job : Name) :
    s.standing now job = (s.claimants job).filter fun n => s'.isLive n now := by
  simp only [ClusterState.standing, h.isLive]

variable [Utilization κ]

theorem key (h : OnlyClaims s s') : s.key = s'.key := by
  funext node
  simp only [ClusterState.key, h.status]

theorem spare (h : OnlyClaims s s') (now : ℕ) : s.spare now = s'.spare now := by
  ext node
  have hnode := congrFun h.status node
  simp only [ClusterState.status] at hnode
  simp only [mem_spare, h.isLive, hasCapacity, hnode, h.config]

end OnlyClaims

theorem Agree.refl (s : ClusterState Name κ) : Agree s s := ⟨.refl s, rfl⟩

theorem Agree.standing {s s' : ClusterState Name κ} (h : Agree s s') (now : ℕ) (job : Name) :
    s.standing now job = s'.standing now job := by
  rw [h.toOnlyClaims.standing, h.claimants]
  rfl

end ClusterState

/-! ## What a message does -/

/-- Who a message is from and about. -/
def ClusterMsg.sender : ClusterMsg Name → Option Name
  | .heartbeat node _ _ _ => some node
  | .job _ _ _ => none
  | .claim _ node _ => some node
  | .release _ node => some node

namespace ClusterState

variable {s : ClusterState Name κ} {msg : ClusterMsg Name} {sender : Name}

/-- A message from a node changes nothing that is known of others. -/
theorem observe_of_ne (hsender : msg.sender = some sender) (now : ℕ) {node : Name}
    (hne : node ≠ sender) :
    (s.observe msg now).status node = s.status node ∧
      ∀ job, node ∈ (s.observe msg now).claimants job ↔ node ∈ s.claimants job := by
  cases msg with
  | heartbeat from' used total epoch =>
      obtain rfl : from' = sender := Option.some.inj hsender
      refine ⟨?_, fun job => Iff.rfl⟩
      rw [observe, status_observeHeartbeat, if_neg hne]
  | job target repl erasure => cases hsender
  | claim job from' ts =>
      obtain rfl : from' = sender := Option.some.inj hsender
      refine ⟨rfl, fun other => ?_⟩
      rw [observe, claimants_observeClaim]
      split <;> simp [hne]
  | release job from' =>
      obtain rfl : from' = sender := Option.some.inj hsender
      refine ⟨congrFun (s.status_observeRelease job from') node, fun other => ?_⟩
      rw [observe, claimants_observeRelease]
      split <;> simp [hne]

/-- Only a claim makes a claimant. -/
theorem mem_claimants_observe {now : ℕ} {job z : Name}
    (hz : z ∈ (s.observe msg now).claimants job) :
    z ∈ s.claimants job ∨ ∃ ts, msg = .claim job z ts := by
  cases msg with
  | heartbeat node used total epoch => exact .inl hz
  | job target repl erasure =>
      cases erasure with
      | none =>
          rw [observe, claimants_observeJob] at hz
          exact .inl hz
      | some spec =>
          rw [observe, claimants_observeErasureJob] at hz
          exact .inl hz
  | claim other node ts =>
      rw [observe, claimants_observeClaim] at hz
      split at hz
      next heq =>
        subst heq
        rcases Finset.mem_insert.mp hz with rfl | hz
        · exact .inr ⟨ts, rfl⟩
        · exact .inl hz
      next => exact .inl hz
  | release other node =>
      rw [observe, claimants_observeRelease] at hz
      split at hz
      · exact .inl (Finset.mem_of_mem_erase hz)
      · exact .inl hz

theorem config_observe (msg : ClusterMsg Name) (now : ℕ) :
    (s.observe msg now).config = s.config := by
  cases msg with
  | heartbeat node used total epoch => rfl
  | job target repl erasure => cases erasure <;> rfl
  | claim job node ts => rfl
  | release job node => exact s.config_observeRelease job node

/-- A message from a node keeps the configuration and the jobs known. -/
theorem observe_known (hsender : msg.sender = some sender) (now : ℕ) {job : Name}
    (hknown : (s.replication job).isSome) :
    (s.observe msg now).config = s.config ∧
      (s.observe msg now).replication job = s.replication job ∧
      (s.observe msg now).erasure job = s.erasure job := by
  have hjob : (s.jobs.lookup job).isSome := by simpa [replication] using hknown
  cases msg with
  | heartbeat from' used total epoch => exact ⟨rfl, rfl, rfl⟩
  | job target repl erasure => cases hsender
  | claim other from' ts =>
      exact ⟨rfl, s.replication_observeClaim (fun h => h ▸ hjob) from' ts⟩
  | release other from' =>
      exact ⟨s.config_observeRelease other from', s.replication_observeRelease other from' job⟩

end ClusterState

/-! ## What a tick does -/

section Folds

theorem onlyClaims_observeRelease (s : ClusterState Name κ) (job node : Name) :
    ClusterState.OnlyClaims (s.observeRelease job node) s :=
  ⟨s.config_observeRelease job node, s.status_observeRelease job node,
    funext fun other => (s.replication_observeRelease job node other).1,
    funext fun other => (s.replication_observeRelease job node other).2⟩

/-- Recording releases one after another. -/
theorem foldl_releases (releases : List (Name × Name)) :
    ∀ s : ClusterState Name κ,
      let s' := releases.foldl (fun s r => s.observeRelease r.1 r.2) s
      ClusterState.OnlyClaims s' s ∧
        ∀ job node, node ∈ s'.claimants job ↔ node ∈ s.claimants job ∧ (job, node) ∉ releases := by
  induction releases with
  | nil => exact fun s => ⟨.refl s, by simp⟩
  | cons release releases ih =>
      intro s
      obtain ⟨released, gone⟩ := release
      obtain ⟨honly, hclaims⟩ := ih (s.observeRelease released gone)
      refine ⟨honly.trans (onlyClaims_observeRelease s released gone), fun job node => ?_⟩
      rw [List.foldl_cons, hclaims, ClusterState.claimants_observeRelease]
      by_cases hjob : job = released
      · simp [hjob, and_assoc, and_left_comm]
      · simp [hjob]

variable (node : Name)

/-- Releasing jobs one after another. -/
theorem foldl_observeRelease (jobs : List Name) (s : ClusterState Name κ) :
    let s' := jobs.foldl (fun s job => s.observeRelease job node) s
    ClusterState.OnlyClaims s' s ∧ ∀ job, s'.claimants job =
      if job ∈ jobs then (s.claimants job).erase node else s.claimants job := by
  intro s'
  obtain ⟨honly, hclaims⟩ := foldl_releases (jobs.map fun job => (job, node)) s
  rw [List.foldl_map] at honly hclaims
  refine ⟨honly, fun job => ?_⟩
  ext z
  rw [hclaims]
  split
  next hjob => simp [hjob, and_comm, eq_comm]
  next hjob => simp [hjob]

/-- Claiming known jobs one after another. -/
theorem foldl_observeClaim (now : ℕ) :
    ∀ (jobs : List Name) (s : ClusterState Name κ),
      (∀ job ∈ jobs, (s.replication job).isSome) →
        let s' := jobs.foldl (fun s job => s.observeClaim job node now) s
        ClusterState.OnlyClaims s' s ∧ ∀ job, s'.claimants job =
          if job ∈ jobs then insert node (s.claimants job) else s.claimants job
  | [], s, _ => ⟨.refl s, by simp⟩
  | first :: jobs, s, hknown => by
      have hjob : (s.jobs.lookup first).isSome := by
        simpa [ClusterState.replication] using hknown first (List.mem_cons_self ..)
      have hfirst : ClusterState.OnlyClaims (s.observeClaim first node now) s :=
        ⟨rfl, rfl, funext fun _ => (s.replication_observeClaim (fun _ => hjob) node now).1,
          funext fun _ => (s.replication_observeClaim (fun _ => hjob) node now).2⟩
      obtain ⟨honly, hclaims⟩ :=
        foldl_observeClaim now jobs (s.observeClaim first node now) fun job hjob => by
          rw [hfirst.replication]
          exact hknown job (List.mem_cons_of_mem _ hjob)
      refine ⟨honly.trans hfirst, fun job => ?_⟩
      rw [List.foldl_cons, hclaims, s.claimants_observeClaim]
      by_cases hjob : job ∈ jobs <;> by_cases hone : job = first <;> simp [hjob, hone]

end Folds

namespace ClusterNode

variable [Utilization κ] (node : ClusterNode Name κ) (now : ℕ)

/-- A tick changes the node's view as its own messages would. -/
theorem tick_state :
    (node.tick now).2.state =
      (node.tick now).1.publish.foldl (fun s msg => s.observe msg now) node.state := by
  simp only [tick, List.foldl_cons, List.foldl_append, List.foldl_map, ClusterState.observe]
  rfl

/-- A tick publishes a heartbeat, its releases and its claims. -/
theorem mem_tick_publish {msg : ClusterMsg Name} :
    msg ∈ (node.tick now).1.publish ↔
      msg = .heartbeat node.selfId node.capacityUsed node.capacityTotal (node.epoch + 1) ∨
        (∃ job ∈ (node.tick now).1.drop, msg = .release job node.selfId) ∨
        ∃ job ∈ (node.tick now).1.ingest, msg = .claim job node.selfId now := by
  simp only [tick, List.mem_cons, List.mem_append, List.mem_map, eq_comm]

/-- What a tick publishes is from the node. -/
theorem sender_of_mem_publish {msg : ClusterMsg Name} (h : msg ∈ (node.tick now).1.publish) :
    msg.sender = some node.selfId := by
  rcases (node.mem_tick_publish now).mp h with rfl | ⟨job, -, rfl⟩ | ⟨job, -, rfl⟩ <;> rfl

/-- The jobs a tick releases. -/
theorem mem_tick_drop {job : Name} :
    job ∈ (node.tick now).1.drop ↔ ∃ f, (node.beat now).replication job = some f ∧
      node.selfId ∈ (node.beat now).standing now job ∧
      f ≤ (ahead (node.beat now).key ((node.beat now).standing now job) node.selfId).card :=
  ClusterState.mem_jobsToRelease

/-- The jobs a tick claims are those of the view after the heartbeat.  A job that
was just released has enough live claimants left. -/
theorem mem_tick_ingest {job : Name} :
    job ∈ (node.tick now).1.ingest ↔ ∃ f, (node.beat now).replication job = some f ∧
      node.selfId ∈ (node.beat now).spare now \ (node.beat now).claimants job ∧
      ((node.beat now).standing now job).card + (ahead (node.beat now).key
        ((node.beat now).spare now \ (node.beat now).claimants job) node.selfId).card < f := by
  obtain ⟨honly, hclaims⟩ :=
    foldl_observeRelease node.selfId (node.tick now).1.drop (node.beat now)
  have htick : job ∈ (node.tick now).1.ingest ↔ job ∈ ((node.tick now).1.drop.foldl
      (fun s job => s.observeRelease job node.selfId) (node.beat now)).jobsToClaim node.selfId now :=
    Iff.rfl
  rw [htick, ClusterState.mem_jobsToClaim, honly.replication, honly.spare, honly.key,
    honly.standing, hclaims]
  by_cases hdrop : job ∈ (node.tick now).1.drop
  · obtain ⟨f, hf, hself, hahead⟩ := (node.mem_tick_drop now).mp hdrop
    have hclaimed := (ClusterState.mem_standing.mp hself).1
    have hleft : ahead (node.beat now).key ((node.beat now).standing now job) node.selfId ⊆
        (((node.beat now).claimants job).erase node.selfId).filter
          fun n => (node.beat now).isLive n now := by
      intro z hz
      obtain ⟨hz, hlt⟩ := mem_ahead.mp hz
      obtain ⟨hz, hlive⟩ := ClusterState.mem_standing.mp hz
      have hne : z ≠ node.selfId := by
        rintro rfl
        exact lt_irrefl _ hlt
      exact Finset.mem_filter.mpr ⟨Finset.mem_erase.mpr ⟨hne, hz⟩, hlive⟩
    have hcard := Finset.card_le_card hleft
    rw [if_pos hdrop]
    constructor
    · rintro ⟨f', hf', -, hfew⟩
      obtain rfl := Option.some.inj (hf.symm.trans hf')
      omega
    · rintro ⟨f', -, hmem, -⟩
      exact absurd hclaimed (Finset.mem_sdiff.mp hmem).2
  · rw [if_neg hdrop]
    rfl

/-- No tick releases a job it claims. -/
theorem notMem_drop_of_mem_ingest {job : Name} (h : job ∈ (node.tick now).1.ingest) :
    job ∉ (node.tick now).1.drop := by
  intro hdrop
  obtain ⟨-, -, hmem, -⟩ := (node.mem_tick_ingest now).mp h
  obtain ⟨-, -, hself, -⟩ := (node.mem_tick_drop now).mp hdrop
  exact (Finset.mem_sdiff.mp hmem).2 (ClusterState.mem_standing.mp hself).1

/-- A tick changes the view after its heartbeat in the node's own claims only. -/
theorem tick_view :
    ClusterState.OnlyClaims (node.tick now).2.state (node.beat now) ∧
      ∀ job, (node.tick now).2.state.claimants job =
        if job ∈ (node.tick now).1.ingest then insert node.selfId ((node.beat now).claimants job)
        else if job ∈ (node.tick now).1.drop then
          ((node.beat now).claimants job).erase node.selfId
        else (node.beat now).claimants job := by
  obtain ⟨honly, hclaims⟩ :=
    foldl_observeRelease node.selfId (node.tick now).1.drop (node.beat now)
  obtain ⟨honly', hclaims'⟩ :=
    foldl_observeClaim node.selfId now (node.tick now).1.ingest
      ((node.tick now).1.drop.foldl (fun s job => s.observeRelease job node.selfId)
        (node.beat now)) fun job hjob => by
          obtain ⟨f, hf, -⟩ := (node.mem_tick_ingest now).mp hjob
          rw [honly.replication, hf]
          rfl
  refine ⟨honly'.trans honly, fun job => ?_⟩
  have hjob := hclaims' job
  rw [hclaims] at hjob
  rw [show (node.tick now).2.state.claimants job = _ from hjob]
  split
  next hingest => rw [if_neg (node.notMem_drop_of_mem_ingest now hingest)]
  next => rfl

end ClusterNode

end NdnRepo.Cluster
