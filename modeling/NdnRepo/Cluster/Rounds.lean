import NdnRepo.Cluster.Coverage
import NdnRepo.Cluster.Known

/-!
# Synchronous rounds

In a round all alive nodes tick at once and hear what the others published.  From
then on their views say the same of every node (`known_eq`), so all alive nodes
decide alike, each about itself.

Once the nodes that died count as dead, one round brings every job to its factor,
or to all nodes that have capacity, and the next changes nothing (`converges`).
-/

namespace NdnRepo.Cluster

open Rank Network

variable {Name κ : Type} [LinearOrder Name] [Utilization κ]

/-- In a round the alive nodes tick, and then each hears the messages of the others
in any order that keeps each sender's. -/
def Round (alive : Finset Name) (now : ℕ) (before after : Name → ClusterNode Name κ) : Prop :=
  ∀ x ∈ alive, ∃ inbox : List (Name × ClusterMsg Name), ∃ state : ClusterState Name κ,
    (∀ z, (inbox.filter fun m => m.1 = z).map Prod.snd =
      if z ∈ alive ∧ z ≠ x then ((before z).tick now).1.publish else []) ∧
    ClusterState.Same state
      (inbox.foldl (fun s m => s.observe m.2 now) ((before x).tick now).2.state) ∧
    after x = { ((before x).tick now).2 with state := state }

/-- A run in rounds, one heartbeat interval apart.  Round `r` is that from
`node (r - 1)` to `node r`.  Nodes die between rounds and for good. -/
structure SyncRun (config : ClusterConfig κ) (used total : Name → ℕ)
    (announced : List (Announcement Name)) where
  /-- The nodes that take part in a round, and at 0 those the run starts with. -/
  alive : ℕ → Finset Name
  /-- Dead nodes stay dead. -/
  antitone : Antitone alive
  /-- The time before the first round. -/
  t₀ : ℕ
  /-- The nodes after a round. -/
  node : ℕ → Name → ClusterNode Name κ
  /-- At first the nodes know the jobs. -/
  start : ∀ x ∈ alive 0, ∃ state, ClusterState.Same state (announcedView config announced) ∧
    node 0 x = ⟨x, state, used x, total x, 0⟩
  /-- Every round is one. -/
  round : ∀ r, Round (alive (r + 1)) (t₀ + (r + 1) * config.heartbeatIntervalNs) (node r)
    (node (r + 1))

namespace SyncRun

variable {config : ClusterConfig κ} {used total : Name → ℕ} {announced : List (Announcement Name)}
variable (run : SyncRun config used total announced)

/-- The time of a round. -/
def time (r : ℕ) : ℕ := run.t₀ + r * config.heartbeatIntervalNs

/-- What a node decides in round `r + 1`. -/
def outcome (r : ℕ) (x : Name) : TickOutcome Name := ((run.node r x).tick (run.time (r + 1))).1

/-- What all alive nodes know of a node after a round. -/
def known : ℕ → Name → Knowledge Name
  | 0, _ => ⟨none, fun _ => none⟩
  | r + 1, z =>
      if z ∈ run.alive (r + 1) then
        (run.outcome r z).publish.foldl (fun k msg => k.hear msg (run.time (r + 1)))
          (known r z)
      else known r z

/-- The last round a node took part in. -/
def lastBeat : ℕ → Name → Option ℕ
  | 0, _ => none
  | r + 1, z => if z ∈ run.alive (r + 1) then some (r + 1) else lastBeat r z

/-- Whether a node is below the watermark. -/
def Roomy (config : ClusterConfig κ) (used total : Name → ℕ) (z : Name) : Prop :=
  ((⟨0, used z, total z⟩ : NodeStatus).utilization : κ) < config.capacityHighWatermark

instance : DecidablePred (Roomy config used total) := fun _ =>
  inferInstanceAs (Decidable (_ < _))

/-! ## All alive nodes know the same -/

/-- What is the case of an alive node after every round. -/
structure Settled (r : ℕ) (x : Name) : Prop where
  /-- A node has its own name. -/
  selfId : (run.node r x).selfId = x
  /-- Its usage is constant. -/
  capacityUsed : (run.node r x).capacityUsed = used x
  /-- So is its capacity. -/
  capacityTotal : (run.node r x).capacityTotal = total x
  /-- It keeps the configuration. -/
  sameConfig : (run.node r x).state.config = config
  /-- It knows the announced jobs. -/
  sameJobs : (run.node r x).state.replication = (announcedView config announced).replication
  /-- It knows of each node what all know. -/
  known_eq : ∀ z, (run.node r x).state.known z = run.known r z

variable {run}

theorem settled_zero {x : Name} (hx : x ∈ run.alive 0) : run.Settled 0 x := by
  obtain ⟨state, hsame, hnode⟩ := run.start x hx
  obtain ⟨hconfig, hstatus, hclaims⟩ := announcedView_facts config announced
  refine ⟨by rw [hnode], by rw [hnode], by rw [hnode], ?_, ?_, fun z => ?_⟩
  · rw [hnode]
    exact hsame.config.trans hconfig
  · rw [hnode]
    exact hsame.agree.replication
  · rw [hnode]
    refine (congrFun hsame.known z).trans (Knowledge.ext (hstatus z) (funext fun job => ?_))
    have hnone : z ∉ (announcedView config announced).claimants job := by
      rw [hclaims job]
      exact Finset.notMem_empty z
    rw [ClusterState.mem_claimants_iff, Bool.not_eq_true, Option.isSome_eq_false_iff,
      Option.isNone_iff_eq_none] at hnone
    exact hnone

/-- A node publishes in its own name, and claims only announced jobs. -/
theorem Settled.publish {r : ℕ} {z : Name} (h : run.Settled r z) {msg : ClusterMsg Name}
    (hmsg : msg ∈ (run.outcome r z).publish) :
    msg.sender = some z ∧ ∀ job node ts, msg = .claim job node ts →
      ((announcedView config announced).replication job).isSome := by
  refine ⟨by rw [ClusterNode.sender_of_mem_publish _ _ hmsg, h.selfId], ?_⟩
  rintro job node ts rfl
  rcases ((run.node r z).mem_tick_publish _).mp hmsg with hm | ⟨j, -, hm⟩ | ⟨j, hingest, hm⟩
  · cases hm
  · cases hm
  · -- Nodes claim jobs they know, and these are the announced ones.
    obtain ⟨rfl, -, -⟩ := ClusterMsg.claim.inj hm
    obtain ⟨f, hf, -⟩ := ((run.node r z).mem_tick_ingest _).mp hingest
    have hold : (run.node r z).state.replication job = some f := hf
    rw [← h.sameJobs, hold]
    rfl

/-- Of its own messages a node has heard those in its own name, all of them. -/
theorem Settled.filter_publish {r : ℕ} {x : Name} (h : run.Settled r x) (z : Name) :
    (run.outcome r x).publish.filter (fun msg => msg.sender = some z) =
      if z = x then (run.outcome r x).publish else [] := by
  split
  next hz =>
    rw [List.filter_eq_self]
    exact fun msg hmsg => by simp [(h.publish hmsg).1, hz]
  next hz =>
    rw [List.filter_eq_nil_iff]
    exact fun msg hmsg => by simp [(h.publish hmsg).1, Ne.symm hz]

theorem settled_succ {r : ℕ} {x : Name} (hx : x ∈ run.alive (r + 1))
    (h : ∀ z ∈ run.alive (r + 1), run.Settled r z) : run.Settled (r + 1) x := by
  obtain ⟨inbox, state, hinbox, hsame, hnode⟩ := run.round r x hx
  have hbefore := h x hx
  have hpublished : ∀ m ∈ inbox, m.1 ∈ run.alive (r + 1) ∧ m.2 ∈ (run.outcome r m.1).publish := by
    intro m hm
    have hmem : m.2 ∈ (inbox.filter fun m' => m'.1 = m.1).map Prod.snd :=
      List.mem_map.mpr ⟨m, List.mem_filter.mpr ⟨hm, by simp⟩, rfl⟩
    rw [hinbox] at hmem
    split at hmem
    next hz => exact ⟨hz.1, hmem⟩
    next => exact absurd hmem List.not_mem_nil
  have hpublish : ∀ z ∈ run.alive (r + 1), ∀ msg ∈ (run.outcome r z).publish,
      (∃ z, msg.sender = some z) ∧ ∀ job node ts, msg = .claim job node ts →
        ((announcedView config announced).replication job).isSome := by
    intro z hz msg hmsg
    obtain ⟨hsender, hclaims⟩ := (h z hz).publish hmsg
    exact ⟨⟨z, hsender⟩, hclaims⟩
  have hview : state.Same ((inbox.map Prod.snd).foldl
      (fun s msg => s.observe msg (run.time (r + 1))) (((run.outcome r x).publish).foldl
        (fun s msg => s.observe msg (run.time (r + 1))) (run.node r x).state)) := by
    rw [outcome, ← ClusterNode.tick_state, List.foldl_map]
    exact hsame
  have hstate : (run.node (r + 1) x).state = state := by rw [hnode]
  refine ⟨?_, ?_, ?_, ?_, ?_, fun z => ?_⟩
  · rw [hnode]
    exact hbefore.selfId
  · rw [hnode]
    exact hbefore.capacityUsed
  · rw [hnode]
    exact hbefore.capacityTotal
  · rw [hstate, hview.config, ClusterState.foldl_observe_config,
      ClusterState.foldl_observe_config, hbefore.sameConfig]
  · have hmid := ClusterState.foldl_observe_replication (run.time (r + 1))
      (s := (run.node r x).state) (hbefore.sameJobs ▸ hpublish x hx)
    rw [hbefore.sameJobs] at hmid
    rw [hstate, hview.agree.replication, ClusterState.foldl_observe_replication, hmid]
    intro msg hmsg
    obtain ⟨m, hm, rfl⟩ := List.mem_map.mp hmsg
    obtain ⟨halive, hmem⟩ := hpublished m hm
    rw [hmid]
    exact hpublish m.1 halive m.2 hmem
  · -- Of one sender a node hears the sender's own messages and no others.
    have hinto : (inbox.map Prod.snd).filter (fun msg => msg.sender = some z) =
        if z ∈ run.alive (r + 1) ∧ z ≠ x then (run.outcome r z).publish else [] := by
      refine Eq.trans ?_ (hinbox z)
      rw [List.filter_map]
      congr 1
      refine List.filter_congr fun m hm => ?_
      obtain ⟨halive, hmem⟩ := hpublished m hm
      simp [((h m.1 halive).publish hmem).1]
    rw [hstate, hview.known, ClusterState.known_foldl, ClusterState.known_foldl, hinto,
      hbefore.filter_publish, hbefore.known_eq, SyncRun.known]
    rcases eq_or_ne z x with rfl | hz
    · rw [if_pos rfl, if_neg (fun hnot => hnot.2 rfl), if_pos hx]
      rfl
    · rw [if_neg hz]
      by_cases halive : z ∈ run.alive (r + 1)
      · rw [if_pos ⟨halive, hz⟩, if_pos halive]
        rfl
      · rw [if_neg (fun hboth => halive hboth.1), if_neg halive]
        rfl

/-- All nodes that are alive after a round know the same of every node. -/
theorem settled : ∀ r, ∀ x ∈ run.alive r, run.Settled r x
  | 0, _, hx => settled_zero hx
  | r + 1, _, hx => settled_succ hx fun z hz => settled r z (run.antitone (Nat.le_succ r) hz)

/-! ## Who is live -/

variable {r q : ℕ} {x z : Name}

theorem mem_alive_of_lastBeat : ∀ {r}, run.lastBeat r z = some q → q ≤ r ∧ z ∈ run.alive q
  | 0, h => by cases h
  | r + 1, h => by
      rw [lastBeat] at h
      split at h
      next hz =>
        obtain rfl := Option.some.inj h
        exact ⟨le_rfl, hz⟩
      next =>
        obtain ⟨hq, hz⟩ := mem_alive_of_lastBeat h
        exact ⟨hq.trans (Nat.le_succ r), hz⟩

theorem lastBeat_of_mem (hr : 1 ≤ r) (hz : z ∈ run.alive r) : run.lastBeat r z = some r := by
  cases r with
  | zero => cases hr
  | succ r => rw [lastBeat, if_pos hz]

theorem time_mono {q r : ℕ} (h : q ≤ r) : run.time q ≤ run.time r :=
  Nat.add_le_add_left (Nat.mul_le_mul_right _ h) _

/-- All alive nodes know when a node was last heard of, and its capacity. -/
theorem known_status : ∀ r z, (run.known r z).status =
    (run.lastBeat r z).map fun q => ⟨run.time q, used z, total z⟩
  | 0, _ => rfl
  | r + 1, z => by
      rw [known, lastBeat]
      split
      next hz =>
        have hset := settled r z (run.antitone (Nat.le_succ r) hz)
        obtain ⟨hstatus, -⟩ :=
          (run.node r z).hear_publish (run.time (r + 1)) (run.time (r + 1)) (run.known r z)
        refine Eq.trans hstatus ?_
        rw [hset.capacityUsed, hset.capacityTotal, Knowledge.hear, known_status r z]
        cases hlast : run.lastBeat r z with
        | none => simp
        | some q =>
            have hle := (mem_alive_of_lastBeat hlast).1.trans (Nat.le_succ r)
            simp [time_mono hle]
      next => exact known_status r z

/-- What a node that ticks knows of a node's status. -/
theorem status_beat (hx : x ∈ run.alive (r + 1)) (z : Name) :
    ((run.node r x).beat (run.time (r + 1))).status z =
      if z = x then some ⟨run.time (r + 1), used x, total x⟩
      else (run.lastBeat r z).map fun q => ⟨run.time q, used z, total z⟩ := by
  have hset := settled r x (run.antitone (Nat.le_succ r) hx)
  have hstatus : ∀ z, (run.node r x).state.status z =
      (run.lastBeat r z).map fun q => ⟨run.time q, used z, total z⟩ := fun z =>
    (congrArg Knowledge.status (hset.known_eq z)).trans (known_status r z)
  rw [ClusterNode.beat, ClusterState.status_observeHeartbeat, hset.selfId, hset.capacityUsed,
    hset.capacityTotal, hstatus, hstatus]
  split
  next =>
    cases hlast : run.lastBeat r x with
    | none => simp
    | some q =>
        have hle := (mem_alive_of_lastBeat hlast).1.trans (Nat.le_succ r)
        simp [time_mono hle]
  next => rfl

/-- A node is known to be alive for `missedHeartbeats` rounds after its last. -/
theorem recent_iff (hh : 0 < config.heartbeatIntervalNs) (htime : run.time r ≤ u64Max)
    (hq : q ≤ r) :
    run.time r - run.time q ≤ config.deadAfterNs ↔ r ≤ q + config.missedHeartbeats := by
  have hdiff : run.time r - run.time q = (r - q) * config.heartbeatIntervalNs := by
    rw [time, time, Nat.add_sub_add_left, Nat.sub_mul]
  rw [ClusterConfig.deadAfterNs, le_min_iff, and_iff_left ((Nat.sub_le _ _).trans htime), hdiff,
    mul_comm config.heartbeatIntervalNs, Nat.mul_le_mul_right_iff hh]
  omega

variable {V : Finset Name}

/-- Once the dead count as dead, the nodes that are live in a ticking node's view
are the alive ones. -/
theorem isLive_beat (hh : 0 < config.heartbeatIntervalNs) (hm : 1 ≤ config.missedHeartbeats)
    (htime : run.time (r + 1) ≤ u64Max) (hr : 1 ≤ r) (hV : run.alive (r + 1) = V)
    (hdead : run.alive (r + 1 - config.missedHeartbeats) = V) (hx : x ∈ V) :
    ((run.node r x).beat (run.time (r + 1))).isLive z (run.time (r + 1)) = true ↔ z ∈ V := by
  subst hV
  have hset := settled r x (run.antitone (Nat.le_succ r) hx)
  have hconfig : ((run.node r x).beat (run.time (r + 1))).config = config := hset.sameConfig
  rw [ClusterState.isLive_iff, hconfig, status_beat hx]
  split
  next hzx => simp [hzx, hx]
  next hzx =>
    constructor
    · rintro ⟨st, hst, hrecent⟩
      obtain ⟨q, hlast, rfl⟩ := Option.map_eq_some_iff.mp hst
      obtain ⟨hq, hz⟩ := mem_alive_of_lastBeat hlast
      have hlate := (recent_iff hh htime (hq.trans (Nat.le_succ r))).mp hrecent
      rw [← hdead]
      exact run.antitone (by omega) hz
    · intro hz
      rw [lastBeat_of_mem hr (run.antitone (Nat.le_succ r) hz)]
      exact ⟨_, rfl, (recent_iff hh htime (Nat.le_succ r)).mpr (by omega)⟩

/-- So are those in an alive node's view after the round. -/
theorem isLive_node (hh : 0 < config.heartbeatIntervalNs) (htime : run.time r ≤ u64Max)
    (hr : 1 ≤ r) (hV : run.alive r = V) (hdead : run.alive (r - config.missedHeartbeats) = V)
    (hx : x ∈ V) : (run.node r x).state.isLive z (run.time r) = true ↔ z ∈ V := by
  subst hV
  have hset := settled r x hx
  have hstatus := (congrArg Knowledge.status (hset.known_eq z)).trans (known_status r z)
  rw [ClusterState.isLive_iff, hset.sameConfig, show (run.node r x).state.status z = _ from hstatus]
  constructor
  · rintro ⟨st, hst, hrecent⟩
    obtain ⟨q, hlast, rfl⟩ := Option.map_eq_some_iff.mp hst
    obtain ⟨hq, hz⟩ := mem_alive_of_lastBeat hlast
    have hlate := (recent_iff hh htime hq).mp hrecent
    rw [← hdead]
    exact run.antitone (by omega) hz
  · intro hz
    rw [lastBeat_of_mem hr hz]
    exact ⟨_, rfl, (recent_iff hh htime le_rfl).mpr (by omega)⟩

/-! ## What the alive nodes decide -/

variable {job : Name} {f : ℕ}

theorem hasCapacity_beat (hx : x ∈ run.alive (r + 1)) :
    ((run.node r x).beat (run.time (r + 1))).hasCapacity z = true ↔
      (z = x ∨ (run.lastBeat r z).isSome) ∧ Roomy config used total z := by
  have hset := settled r x (run.antitone (Nat.le_succ r) hx)
  have hconfig : ((run.node r x).beat (run.time (r + 1))).config = config := hset.sameConfig
  rw [ClusterState.hasCapacity_iff, hconfig, status_beat hx]
  split
  next hzx =>
    subst hzx
    simp [Roomy, NodeStatus.utilization]
  next hzx =>
    cases hlast : run.lastBeat r z with
    | none => simp [hzx]
    | some q => simp [Roomy, NodeStatus.utilization]

/-- Only nodes below the watermark claim. -/
theorem roomy_of_claims : ∀ {r z}, ((run.known r z).claims job).isSome → Roomy config used total z
  | 0, _, h => by cases h
  | r + 1, z, h => by
      rw [known] at h
      split at h
      next hz =>
        have hset := settled r z (run.antitone (Nat.le_succ r) hz)
        obtain ⟨-, hclaims⟩ :=
          (run.node r z).hear_publish (run.time (r + 1)) (run.time (r + 1)) (run.known r z)
        rw [outcome, hclaims] at h
        split at h
        next hingest =>
          obtain ⟨-, -, hmem, -⟩ := ((run.node r z).mem_tick_ingest _).mp hingest
          have hcap := (ClusterState.mem_spare.mp (Finset.mem_sdiff.mp hmem).1).2
          rw [hset.selfId, hasCapacity_beat hz] at hcap
          exact hcap.2
        next =>
          split at h
          · cases h
          · exact roomy_of_claims h
      next => exact roomy_of_claims h

/-- Some nodes' claims of a job after a round. -/
def claiming (run : SyncRun config used total announced) (V : Finset Name) (r : ℕ) (job : Name) :
    Finset Name :=
  V.filter fun z => ((run.known r z).claims job).isSome

theorem claiming_subset : run.claiming V r job ⊆ V := Finset.filter_subset _ _

theorem claiming_subset_roomy : run.claiming V r job ⊆ V.filter (Roomy config used total) := by
  intro z hz
  obtain ⟨hz, hclaims⟩ := Finset.mem_filter.mp hz
  exact Finset.mem_filter.mpr ⟨hz, roomy_of_claims hclaims⟩

/-- In round `r + 1` the dead count as dead, and the nodes have heard of each other. -/
structure Calm (run : SyncRun config used total announced) (r : ℕ) (V : Finset Name) : Prop where
  /-- Rounds take time. -/
  interval : 0 < config.heartbeatIntervalNs
  /-- A node may be silent between rounds. -/
  missed : 1 ≤ config.missedHeartbeats
  /-- The time fits its type. -/
  time_le : run.time (r + 1) ≤ u64Max
  /-- There was a round before. -/
  pos : 1 ≤ r
  /-- The alive nodes. -/
  alive_eq : run.alive (r + 1) = V
  /-- The nodes heard of recently are the alive ones. -/
  heard_eq : run.alive (r + 1 - config.missedHeartbeats) = V

namespace Calm

variable (h : run.Calm r V)

include h

theorem alive_before : run.alive r = V := by
  have hm := h.missed
  refine le_antisymm ?_ ?_
  · rw [← h.heard_eq]
    exact run.antitone (by omega)
  · rw [← h.alive_eq]
    exact run.antitone (Nat.le_succ r)

theorem mem_claimants_beat (hx : x ∈ V) {z : Name} :
    z ∈ ((run.node r x).beat (run.time (r + 1))).claimants job ↔
      ((run.known r z).claims job).isSome := by
  rw [← (settled r x (h.alive_before ▸ hx)).known_eq]
  exact ClusterState.mem_claimants_iff

theorem standing_beat (hx : x ∈ V) :
    ((run.node r x).beat (run.time (r + 1))).standing (run.time (r + 1)) job =
      run.claiming V r job := by
  ext z
  rw [ClusterState.mem_standing, h.mem_claimants_beat hx, claiming, Finset.mem_filter, and_comm,
    isLive_beat h.interval h.missed h.time_le h.pos h.alive_eq h.heard_eq hx]

theorem eligible_beat (hx : x ∈ V) :
    ((run.node r x).beat (run.time (r + 1))).spare (run.time (r + 1)) \
        ((run.node r x).beat (run.time (r + 1))).claimants job =
      V.filter (Roomy config used total) \ run.claiming V r job := by
  ext z
  rw [Finset.mem_sdiff, Finset.mem_sdiff, ClusterState.mem_spare, h.mem_claimants_beat hx,
    claiming, Finset.mem_filter, Finset.mem_filter, hasCapacity_beat (h.alive_eq.symm ▸ hx),
    isLive_beat h.interval h.missed h.time_le h.pos h.alive_eq h.heard_eq hx]
  constructor
  · rintro ⟨⟨hz, -, hroomy⟩, hnot⟩
    exact ⟨⟨hz, hroomy⟩, fun hboth => hnot hboth.2⟩
  · rintro ⟨⟨hz, hroomy⟩, hnot⟩
    have hlast := lastBeat_of_mem (z := z) h.pos (h.alive_before.symm ▸ hz)
    exact ⟨⟨hz, Or.inr (by rw [hlast]; rfl), hroomy⟩, fun hclaims => hnot ⟨hz, hclaims⟩⟩

theorem ahead_beat (hx : x ∈ V) {S : Finset Name} (hS : S ⊆ V) :
    ahead ((run.node r x).beat (run.time (r + 1))).key S x =
      ahead (steadyRank (κ := κ) used total) S x := by
  have hkey : ∀ z ∈ V, ((run.node r x).beat (run.time (r + 1))).key z =
      steadyRank used total z := by
    intro z hz
    have hlast := lastBeat_of_mem (z := z) h.pos (h.alive_before.symm ▸ hz)
    rw [ClusterState.key, status_beat (h.alive_eq.symm ▸ hx), hlast]
    split
    next hzx =>
      subst hzx
      rfl
    next => rfl
  refine Finset.filter_congr fun z hz => ?_
  rw [hkey z (hS hz), hkey x hx]

theorem mem_drop (hf : (announcedView config announced).replication job = some f) (hx : x ∈ V) :
    job ∈ (run.outcome r x).drop ↔ x ∈ run.claiming V r job ∧
      f ≤ (ahead (steadyRank (κ := κ) used total) (run.claiming V r job) x).card := by
  have hset := settled r x (h.alive_before ▸ hx)
  have hrepl : ((run.node r x).beat (run.time (r + 1))).replication job = some f :=
    (congrFun hset.sameJobs job).trans hf
  rw [outcome, ClusterNode.mem_tick_drop, hset.selfId, hrepl, h.standing_beat hx,
    h.ahead_beat hx claiming_subset]
  simp

theorem mem_ingest (hf : (announcedView config announced).replication job = some f) (hx : x ∈ V) :
    job ∈ (run.outcome r x).ingest ↔
      x ∈ V.filter (Roomy config used total) \ run.claiming V r job ∧
        (run.claiming V r job).card + (ahead (steadyRank (κ := κ) used total)
          (V.filter (Roomy config used total) \ run.claiming V r job) x).card < f := by
  have hset := settled r x (h.alive_before ▸ hx)
  have hrepl : ((run.node r x).beat (run.time (r + 1))).replication job = some f :=
    (congrFun hset.sameJobs job).trans hf
  rw [outcome, ClusterNode.mem_tick_ingest, hset.selfId, hrepl, h.standing_beat hx,
    h.eligible_beat hx,
    h.ahead_beat hx (Finset.sdiff_subset.trans (Finset.filter_subset _ _))]
  simp

/-- A round leaves the first of the claims and adds the first of the eligible nodes. -/
theorem claiming_succ (hf : (announcedView config announced).replication job = some f) :
    run.claiming V (r + 1) job =
      first (steadyRank (κ := κ) used total) (run.claiming V r job) f ∪
        first (steadyRank (κ := κ) used total)
          (V.filter (Roomy config used total) \ run.claiming V r job)
          (f - (run.claiming V r job).card) := by
  ext x
  by_cases hx : x ∈ V
  · have hnew : x ∈ run.claiming V (r + 1) job ↔ job ∈ (run.outcome r x).ingest ∨
        (job ∉ (run.outcome r x).drop ∧ x ∈ run.claiming V r job) := by
      obtain ⟨-, hclaims⟩ :=
        (run.node r x).hear_publish (run.time (r + 1)) (run.time (r + 1)) (run.known r x)
      rw [claiming, claiming, Finset.mem_filter, Finset.mem_filter, known,
        if_pos (h.alive_eq.symm ▸ hx), outcome, hclaims]
      split
      next hingest => simp [hx, hingest]
      next hingest =>
        split
        next hdrop => simp [hingest, hdrop]
        next hdrop => simp [hx, hingest, hdrop]
    have hroom : ∀ a, (run.claiming V r job).card + a < f ↔
        a < f - (run.claiming V r job).card := fun a => by omega
    rw [hnew, h.mem_drop hf hx, h.mem_ingest hf hx, hroom, Finset.mem_union, mem_first, mem_first,
      not_and, not_le]
    constructor
    · rintro (hfresh | ⟨hkeep, hmem⟩)
      · exact Or.inr hfresh
      · exact Or.inl ⟨hmem, hkeep hmem⟩
    · rintro (⟨hmem, hlt⟩ | hfresh)
      · exact Or.inr ⟨fun _ => hlt, hmem⟩
      · exact Or.inl hfresh
  · have hout : x ∉ run.claiming V r job ∧ x ∉ V.filter (Roomy config used total) :=
      ⟨fun hmem => hx (claiming_subset hmem), fun hmem => hx (Finset.mem_filter.mp hmem).1⟩
    have hout' : x ∉ run.claiming V (r + 1) job := fun hmem => hx (claiming_subset hmem)
    simp [hout, hout']

/-- A round brings a job to its factor, or to all nodes below the watermark. -/
theorem card_claiming_succ (hf : (announcedView config announced).replication job = some f) :
    (run.claiming V (r + 1) job).card = min f (V.filter (Roomy config used total)).card := by
  have hdisjoint : Disjoint (first (steadyRank (κ := κ) used total) (run.claiming V r job) f)
      (first (steadyRank (κ := κ) used total)
        (V.filter (Roomy config used total) \ run.claiming V r job)
        (f - (run.claiming V r job).card)) :=
    Finset.disjoint_sdiff.mono (Finset.filter_subset _ _) (Finset.filter_subset _ _)
  have hsub : run.claiming V r job ⊆ V.filter (Roomy config used total) := claiming_subset_roomy
  have hcard := Finset.card_le_card hsub
  rw [h.claiming_succ hf, Finset.card_union_of_disjoint hdisjoint, card_first steadyRank_injective,
    card_first steadyRank_injective, Finset.card_sdiff_of_subset hsub]
  omega

/-- A job that is brought there is left there. -/
theorem unchanged (hf : (announcedView config announced).replication job = some f)
    (hcard : (run.claiming V r job).card = min f (V.filter (Roomy config used total)).card)
    (hx : x ∈ V) : job ∉ (run.outcome r x).drop ∧ job ∉ (run.outcome r x).ingest := by
  rw [h.mem_drop hf hx, h.mem_ingest hf hx]
  constructor
  · rintro ⟨hmem, hle⟩
    have hlt : (ahead (steadyRank (κ := κ) used total) (run.claiming V r job) x).card <
        (run.claiming V r job).card := by
      refine Finset.card_lt_card ⟨Finset.filter_subset _ _, fun hsub => ?_⟩
      exact notMem_ahead_self (hsub hmem)
    omega
  · rintro ⟨hmem, hlt⟩
    have hall : run.claiming V r job = V.filter (Roomy config used total) :=
      Finset.eq_of_subset_of_card_le claiming_subset_roomy (by omega)
    rw [hall, Finset.sdiff_self] at hmem
    exact Finset.notMem_empty x hmem

/-- A node that changes nothing publishes its heartbeat. -/
theorem publish_eq (hx : x ∈ V)
    (hcard : ∀ job f, (announcedView config announced).replication job = some f →
      (run.claiming V r job).card = min f (V.filter (Roomy config used total)).card) :
    (run.outcome r x).publish =
      [.heartbeat x (used x) (total x) ((run.node r x).epoch + 1)] := by
  have hset := settled r x (h.alive_before ▸ hx)
  have hknown : ∀ job f, ((run.node r x).beat (run.time (r + 1))).replication job = some f →
      (announcedView config announced).replication job = some f := fun job f hf =>
    (congrFun hset.sameJobs job).symm.trans hf
  have hdrop : (run.outcome r x).drop = [] := by
    rw [List.eq_nil_iff_forall_not_mem]
    intro job hmem
    obtain ⟨f, hf, -⟩ := ((run.node r x).mem_tick_drop _).mp hmem
    have hf := hknown job f hf
    exact (h.unchanged hf (hcard job f hf) hx).1 hmem
  have hingest : (run.outcome r x).ingest = [] := by
    rw [List.eq_nil_iff_forall_not_mem]
    intro job hmem
    obtain ⟨f, hf, -⟩ := ((run.node r x).mem_tick_ingest _).mp hmem
    have hf := hknown job f hf
    exact (h.unchanged hf (hcard job f hf) hx).2 hmem
  have hpublish : (run.outcome r x).publish = .heartbeat (run.node r x).selfId
      (run.node r x).capacityUsed (run.node r x).capacityTotal ((run.node r x).epoch + 1) ::
        ((run.outcome r x).drop.map (fun job => .release job (run.node r x).selfId) ++
          (run.outcome r x).ingest.map fun job =>
            .claim job (run.node r x).selfId (run.time (r + 1))) := rfl
  rw [hpublish, hdrop, hingest, hset.selfId, hset.capacityUsed, hset.capacityTotal]
  rfl

end Calm

/-! ## Convergence -/

/-- From round 3 on, and from `missedHeartbeats + 2` rounds after the last death on,
the alive nodes see the same live claimants of each job, as many as it asks for or
else all nodes below the watermark, and publish heartbeats only. -/
theorem converges (run : SyncRun config used total announced)
    (hh : 0 < config.heartbeatIntervalNs) (hm : 1 ≤ config.missedHeartbeats) (hr : 3 ≤ r)
    (htime : run.time r ≤ u64Max)
    (hdeaths : run.alive (r - (config.missedHeartbeats + 1)) = run.alive r) :
    (∀ job f, (announcedView config announced).replication job = some f →
      ∃ S : Finset Name, S.card = min f ((run.alive r).filter (Roomy config used total)).card ∧
        ∀ x ∈ run.alive r,
          ((run.node r x).state.liveClaimants job (run.time r)).Nodup ∧
          ((run.node r x).state.liveClaimants job (run.time r)).toFinset = S) ∧
      ∀ q, r ≤ q + 1 → run.alive (q + 1) = run.alive r → run.time (q + 1) ≤ u64Max →
        ∀ x ∈ run.alive r, (run.outcome q x).publish =
          [.heartbeat x (used x) (total x) ((run.node q x).epoch + 1)] := by
  have halive : ∀ {q j}, r ≤ q → run.alive q = run.alive r →
      r - (config.missedHeartbeats + 1) ≤ j → j ≤ q → run.alive j = run.alive r :=
    fun _ hq hlo hhi => le_antisymm (hdeaths ▸ run.antitone hlo) (hq ▸ run.antitone hhi)
  have hcalm : ∀ {q p}, r ≤ q + 1 → run.alive (q + 1) = run.alive r →
      run.time (q + 1) ≤ u64Max → p ≤ q → r ≤ p + 2 → run.Calm p (run.alive r) :=
    fun hrq hq hqtime hpq hrp => ⟨hh, hm, (time_mono (by omega)).trans hqtime, by omega,
      halive hrq hq (by omega) (by omega), halive hrq hq (by omega) (by omega)⟩
  refine ⟨fun job f hf => ?_, fun q hrq hq hqtime x hx => ?_⟩
  · obtain ⟨q, rfl⟩ : ∃ q, r = q + 1 := ⟨r - 1, by omega⟩
    have hround := hcalm le_rfl rfl htime le_rfl (Nat.le_succ _)
    refine ⟨run.claiming (run.alive (q + 1)) (q + 1) job, hround.card_claiming_succ hf,
      fun x hx => ?_⟩
    obtain ⟨hnodup, hset⟩ :=
      (run.node (q + 1) x).state.liveClaimants_eq (run.time (q + 1)) job
    refine ⟨hnodup, hset.trans (Finset.ext fun z => ?_)⟩
    rw [ClusterState.mem_standing, ClusterState.mem_claimants_iff, and_comm,
      isLive_node hh htime (by omega) rfl (halive le_rfl rfl (by omega) (by omega)) hx,
      claiming, Finset.mem_filter, ← (settled (q + 1) x hx).known_eq]
    rfl
  · obtain ⟨p, rfl⟩ : ∃ p, q = p + 1 := ⟨q - 1, by omega⟩
    have hbefore := hcalm (p := p) hrq hq hqtime (Nat.le_succ p) (by omega)
    have hround := hcalm hrq hq hqtime le_rfl (by omega)
    exact hround.publish_eq hx fun job f hf => hbefore.card_claiming_succ hf

/-! ## Runs for every schedule -/

/-- A node after a round in which it hears the others one after another. -/
def nextNode (alive : Finset Name) (now : ℕ) (before : Name → ClusterNode Name κ) (x : Name) :
    ClusterNode Name κ :=
  let inbox := ((alive.erase x).sort (· ≤ ·)).flatMap fun z =>
    ((before z).tick now).1.publish.map fun msg => (z, msg)
  let ticked := ((before x).tick now).2
  { ticked with state := inbox.foldl (fun s m => s.observe m.2 now) ticked.state }

omit [LinearOrder Name] in
/-- Messages of different senders, sender after sender, show each sender's as they are. -/
theorem filter_flatMap_tag [DecidableEq Name] {α : Type} (p : Name → List α) (z : Name) :
    ∀ {l : List Name}, l.Nodup →
      ((l.flatMap fun y => (p y).map fun a => (y, a)).filter fun m => m.1 = z).map Prod.snd =
        if z ∈ l then p z else []
  | [], _ => by simp
  | y :: l, hnodup => by
      obtain ⟨hy, hnodup⟩ := List.nodup_cons.mp hnodup
      rw [List.flatMap_cons, List.filter_append, List.map_append, filter_flatMap_tag p z hnodup,
        List.filter_map, List.map_map]
      rcases eq_or_ne y z with rfl | hne
      · simp [hy, Function.comp_def]
      · simp [hne, hne.symm, Function.comp_def]

theorem round_nextNode (alive : Finset Name) (now : ℕ) (before : Name → ClusterNode Name κ) :
    Round alive now before (nextNode alive now before) := by
  intro x _
  refine ⟨_, _, fun z => ?_, ⟨rfl, rfl, rfl⟩, rfl⟩
  rw [filter_flatMap_tag _ z (Finset.sort_nodup _ _)]
  simp [and_comm]

/-- The run of a schedule of deaths. -/
def ofSchedule (config : ClusterConfig κ) (used total : Name → ℕ)
    (announced : List (Announcement Name)) (alive : ℕ → Finset Name) (antitone : Antitone alive)
    (t₀ : ℕ) : SyncRun config used total announced where
  alive := alive
  antitone := antitone
  t₀ := t₀
  node := Nat.rec (fun x => ⟨x, announcedView config announced, used x, total x, 0⟩) fun r before =>
    nextNode (alive (r + 1)) (t₀ + (r + 1) * config.heartbeatIntervalNs) before
  start := fun _ _ => ⟨_, ⟨rfl, rfl, rfl⟩, rfl⟩
  round := fun _ => round_nextNode _ _ _

/-- Node 0, which holds the job, dies after round 3. -/
def firstDies (r : ℕ) : Finset ℕ := if r ≤ 3 then {0, 1, 2} else {1, 2}

theorem firstDies_antitone : Antitone firstDies := by
  intro q r hqr
  rw [firstDies, firstDies]
  split
  next hr => rw [if_pos (hqr.trans hr)]
  next =>
    split
    · decide
    · exact le_rfl

/-- Three rounds after the death of its only claimant a job has one again. -/
theorem converges_firstDies : letI := exactUtilization
    let run := ofSchedule (⟨1, 1000, 1, 3 / 4⟩ : ClusterConfig ℚ) (fun _ => 0) (fun _ => 1000)
      [.job 7 0] firstDies firstDies_antitone 0
    ∃ S : Finset ℕ, S.card = 1 ∧ ∀ x ∈ ({1, 2} : Finset ℕ),
      ((run.node 6 x).state.liveClaimants 7 (run.time 6)).Nodup ∧
        ((run.node 6 x).state.liveClaimants 7 (run.time 6)).toFinset = S := by
  let _ := exactUtilization
  intro run
  obtain ⟨S, hcard, hsame⟩ := (converges (r := 6) run (by decide) (by decide) (by decide)
    (by decide +kernel) (by decide +kernel)).1 7 1 (by decide +kernel)
  exact ⟨S, hcard.trans (by decide +kernel), hsame⟩

end SyncRun

end NdnRepo.Cluster
