import NdnRepo.Cluster.Coord

/-!
# What a view says, and what is decided from it

A view is read through three functions.  `status` is what it knows of a node,
`claimants` who claims a job, and `replication` how many nodes shall hold a job it
knows.  The first part says what each observation does to these.

The second part says what is decided, by ranks.  A claimant releases a job when
enough live claimants are ahead of it (`mem_jobsToRelease`).  A node claims a job
when the live claimants and the eligible nodes ahead of it are too few
(`mem_jobsToClaim`).  A shard index is the number of live nodes with capacity
ahead (`shardIndexOf_eq`).  None of this depends on the order of a map.
-/

namespace NdnRepo.Cluster

open Rank

namespace ClusterState

variable {Name κ : Type} [LinearOrder Name]

/-! ## Reading a view -/

/-- What is known of a node. -/
def status (s : ClusterState Name κ) (node : Name) : Option NodeStatus := s.nodes.lookup node

/-- Who claims a job. -/
def claimants (s : ClusterState Name κ) (job : Name) : Finset Name :=
  match s.jobs.lookup job with
  | some j => j.claimants.keys.toFinset
  | none => ∅

/-- How many nodes shall hold a job, if it is known. -/
def replication (s : ClusterState Name κ) (job : Name) : Option ℕ :=
  (s.jobs.lookup job).map s.effectiveReplication

/-- The erasure parameters of a job, if it is known and erasure-coded. -/
def erasure (s : ClusterState Name κ) (job : Name) : Option (ℕ × ℕ) :=
  (s.jobs.lookup job).bind Job.erasure

theorem mem_claimants {s : ClusterState Name κ} {job node : Name} :
    node ∈ s.claimants job ↔ ∃ j, s.jobs.lookup job = some j ∧ node ∈ j.claimants := by
  unfold claimants
  cases s.jobs.lookup job with
  | none => simp
  | some j => simp [AList.mem_keys]

/-! ## What observations do -/

section Observations

variable (s : ClusterState Name κ)

theorem status_observeHeartbeat (node other : Name) (used total now : ℕ) :
    (s.observeHeartbeat node used total now).status other =
      if other = node then
        some (if ((s.status node).getD ⟨0, used, total⟩).lastHeartbeatNs ≤ now
          then ⟨now, used, total⟩ else (s.status node).getD ⟨0, used, total⟩)
      else s.status other := by
  by_cases h : other = node
  · subst h
    rw [status, observeHeartbeat, AList.lookup_insert, if_pos rfl]
    rfl
  · simp [observeHeartbeat, status, AList.lookup_insert_ne h, h]

@[simp] theorem jobs_observeHeartbeat (node : Name) (used total now : ℕ) :
    (s.observeHeartbeat node used total now).jobs = s.jobs := rfl

@[simp] theorem config_observeHeartbeat (node : Name) (used total now : ℕ) :
    (s.observeHeartbeat node used total now).config = s.config := rfl

@[simp] theorem status_observeClaim (job node : Name) (ts : ℕ) :
    (s.observeClaim job node ts).status = s.status := rfl

@[simp] theorem config_observeClaim (job node : Name) (ts : ℕ) :
    (s.observeClaim job node ts).config = s.config := rfl

theorem claimants_observeClaim (job other node : Name) (ts : ℕ) :
    (s.observeClaim job node ts).claimants other =
      if other = job then insert node (s.claimants other) else s.claimants other := by
  by_cases h : other = job
  · subst h
    ext z
    rw [if_pos rfl, Finset.mem_insert]
    simp only [mem_claimants, observeClaim, AList.lookup_insert, Option.some.injEq, exists_eq_left',
      AList.mem_insert]
    cases s.jobs.lookup other with
    | none => simp
    | some j => simp
  · simp [claimants, observeClaim, AList.lookup_insert_ne h, h]

/-- A claim changes nothing else of a job that is known. -/
theorem replication_observeClaim {job other : Name} (hjob : other = job → (s.jobs.lookup job).isSome)
    (node : Name) (ts : ℕ) :
    (s.observeClaim job node ts).replication other = s.replication other ∧
      (s.observeClaim job node ts).erasure other = s.erasure other := by
  by_cases h : other = job
  · obtain ⟨j, hj⟩ := Option.isSome_iff_exists.mp (hjob h)
    subst h
    simp [replication, erasure, observeClaim, hj, effectiveReplication]
  · simp only [replication, erasure, observeClaim, AList.lookup_insert_ne h]
    exact ⟨rfl, trivial⟩

@[simp] theorem status_observeRelease (job node : Name) :
    (s.observeRelease job node).status = s.status := by
  unfold observeRelease
  split <;> rfl

@[simp] theorem config_observeRelease (job node : Name) :
    (s.observeRelease job node).config = s.config := by
  unfold observeRelease
  split <;> rfl

theorem claimants_observeRelease (job other node : Name) :
    (s.observeRelease job node).claimants other =
      if other = job then (s.claimants other).erase node else s.claimants other := by
  cases hj : s.jobs.lookup job with
  | none =>
      by_cases h : other = job
      · subst h
        simp [observeRelease, hj, claimants]
      · simp [observeRelease, hj, h]
  | some j =>
      by_cases h : other = job
      · subst h
        ext z
        simp [observeRelease, hj, mem_claimants, AList.mem_erase]
      · simp [observeRelease, hj, claimants, AList.lookup_insert_ne h, h]

theorem replication_observeRelease (job node other : Name) :
    (s.observeRelease job node).replication other = s.replication other ∧
      (s.observeRelease job node).erasure other = s.erasure other := by
  cases hj : s.jobs.lookup job with
  | none => simp [observeRelease, hj]
  | some j =>
      by_cases h : other = job
      · subst h
        simp [replication, erasure, observeRelease, hj, effectiveReplication]
      · simp only [replication, erasure, observeRelease, hj, AList.lookup_insert_ne h]
        exact ⟨rfl, trivial⟩

theorem claimants_observeJob (job : Name) (replicationFactor : ℕ) :
    (s.observeJob job replicationFactor).claimants = s.claimants := by
  funext other
  by_cases h : other = job
  · subst h
    cases hj : s.jobs.lookup other <;> simp only [claimants, observeJob, AList.lookup_insert, hj] <;>
      split <;> rfl
  · simp [claimants, observeJob, AList.lookup_insert_ne h]

/-- A job's factor does not change its erasure parameters. -/
theorem erasure_observeJob (job : Name) (replicationFactor : ℕ) :
    (s.observeJob job replicationFactor).erasure = s.erasure := by
  funext other
  rcases eq_or_ne other job with rfl | h
  · cases hj : s.jobs.lookup other <;> simp only [erasure, observeJob, AList.lookup_insert, hj] <;>
      split <;> rfl
  · simp [erasure, observeJob, AList.lookup_insert_ne h]

theorem erasure_observeErasureJob (job other : Name) (k redundancy : ℕ) :
    (s.observeErasureJob job k redundancy).erasure other =
      if other = job then some (max k 1, min (max k 1 + max redundancy 1) u16Max)
      else s.erasure other := by
  rcases eq_or_ne other job with rfl | h
  · simp [erasure, observeErasureJob]
  · simp [erasure, observeErasureJob, AList.lookup_insert_ne h, h]

variable {s} in
/-- An erasure-coded job is held by as many nodes as it has shards. -/
theorem replication_of_erasure {job : Name} {k n : ℕ} (h : s.erasure job = some (k, n)) :
    s.replication job = some n := by
  obtain ⟨j, hj, he⟩ := Option.bind_eq_some_iff.mp h
  simp [replication, hj, effectiveReplication, he]

theorem claimants_observeErasureJob (job : Name) (k redundancy : ℕ) :
    (s.observeErasureJob job k redundancy).claimants = s.claimants := by
  funext other
  by_cases h : other = job
  · subst h
    cases hj : s.jobs.lookup other <;>
      simp only [claimants, observeErasureJob, AList.lookup_insert, hj] <;> rfl
  · simp [claimants, observeErasureJob, AList.lookup_insert_ne h]

end Observations

/-! ## Live nodes -/

section Live

variable (s : ClusterState Name κ) (now : ℕ)

/-- The live claimants of a job. -/
def standing (job : Name) : Finset Name := (s.claimants job).filter fun n => s.isLive n now

variable {s now}

theorem mem_nodes_of_isLive {node : Name} (h : s.isLive node now = true) : node ∈ s.nodes := by
  rw [← AList.lookup_isSome]
  cases hst : s.nodes.lookup node with
  | none => simp [isLive, hst] at h
  | some st => rfl

theorem mem_standing {job node : Name} :
    node ∈ s.standing now job ↔ node ∈ s.claimants job ∧ s.isLive node now = true := by
  simp [standing]

/-- A node's entry has its status. -/
theorem lookup_of_mem_entries {e : (_ : Name) × NodeStatus} (h : e ∈ s.nodes.entries) :
    s.nodes.lookup e.1 = some e.2 :=
  (List.mem_dlookup_iff s.nodes.nodupKeys).mpr h

variable (now) in
/-- The live claimants are counted once each. -/
theorem liveClaimants_eq (job : Name) :
    (s.liveClaimants job now).Nodup ∧ (s.liveClaimants job now).toFinset = s.standing now job := by
  unfold liveClaimants standing claimants
  cases s.jobs.lookup job with
  | none => simp
  | some j => exact ⟨j.claimants.keys_nodup.filter _, by rw [List.toFinset_filter]⟩

theorem mem_liveClaimants {job node : Name} :
    node ∈ s.liveClaimants job now ↔ node ∈ s.standing now job := by
  rw [← (s.liveClaimants_eq now job).2, List.mem_toFinset]

theorem length_liveClaimants (job : Name) :
    (s.liveClaimants job now).length = (s.standing now job).card := by
  obtain ⟨hnodup, hset⟩ := s.liveClaimants_eq now job
  rw [← hset, List.toFinset_card_of_nodup hnodup]

end Live

/-! ## What is decided -/

section Decisions

variable [Utilization κ]

/-- What nodes are ranked by. -/
def key (s : ClusterState Name κ) (node : Name) : κ ×ₗ Name :=
  toLex (((s.status node).map NodeStatus.utilization).getD Utilization.zero, node)

theorem key_injective (s : ClusterState Name κ) : Function.Injective s.key := by
  intro a b h
  exact congrArg (fun u => (ofLex u).2) h

variable (s : ClusterState Name κ) (now : ℕ)

/-- The live nodes with capacity. -/
def spare : Finset Name := (s.nodes.keys.filter fun n => s.isLive n now && s.hasCapacity n).toFinset

variable {s now}

theorem mem_spare {node : Name} :
    node ∈ s.spare now ↔ s.isLive node now = true ∧ s.hasCapacity node = true := by
  simp only [spare, List.mem_toFinset, List.mem_filter, Bool.and_eq_true, and_iff_right_iff_imp]
  exact fun h => AList.mem_keys.mp (mem_nodes_of_isLive h.1)

/-- Sorting nodes is sorting them by their keys. -/
theorem sortNodes_map (l : List Name) :
    sortNodes (l.map fun n =>
        (n, ((s.status n).map fun st => (st.utilization : κ)).getD Utilization.zero)) =
      l.insertionSort fun a b => s.key a ≤ s.key b := by
  have hsort := List.map_insertionSort (fun a b => s.key a ≤ s.key b)
    (fun a b : Name × κ => toLex (a.2, a.1) ≤ toLex (b.2, b.1))
    (fun n => (n, ((s.status n).map fun st => (st.utilization : κ)).getD Utilization.zero)) l
    (fun a _ b _ => Iff.rfl)
  rw [sortNodes, ← hsort, List.map_map]
  exact List.map_id _

theorem rankedLiveNodes_eq :
    s.rankedLiveNodes now = (s.nodes.keys.filter fun n => s.isLive n now).insertionSort
      fun a b => s.key a ≤ s.key b := by
  rw [rankedLiveNodes, ← sortNodes_map, AList.keys, List.keys, List.filter_map, List.map_map]
  congr 1
  apply List.map_congr_left
  intro e he
  have hlookup := lookup_of_mem_entries (List.mem_filter.mp he).1
  simp [status, hlookup]

/-- The ranked nodes are in strict order, and are the live ones. -/
theorem pairwise_rankedLiveNodes :
    (s.rankedLiveNodes now).Pairwise fun a b => s.key a < s.key b := by
  rw [rankedLiveNodes_eq]
  exact pairwise_insertionSort s.key_injective (s.nodes.keys_nodup.filter _)

theorem mem_rankedLiveNodes {node : Name} :
    node ∈ s.rankedLiveNodes now ↔ s.isLive node now = true := by
  rw [rankedLiveNodes_eq, List.mem_insertionSort, List.mem_filter, and_iff_right_iff_imp]
  exact fun h => AList.mem_keys.mp (mem_nodes_of_isLive h)

theorem toFinset_spare :
    ((s.rankedLiveNodes now).filter fun n => s.hasCapacity n).toFinset = s.spare now := by
  ext node
  rw [List.mem_toFinset, List.mem_filter, mem_rankedLiveNodes, mem_spare]

/-- The holders are the first live nodes with capacity. -/
theorem mem_shardHolders {node : Name} {n : ℕ} :
    node ∈ s.shardHolders n now ↔ node ∈ first s.key (s.spare now) n := by
  have hsorted : ((s.rankedLiveNodes now).filter fun n => s.hasCapacity n).Pairwise
      fun a b => s.key a < s.key b := pairwise_rankedLiveNodes.filter _
  rw [shardHolders, mem_take_of_pairwise hsorted, toFinset_spare]

/-- The shards go to them in order. -/
theorem shardIndexOf_eq (selfId : Name) (n : ℕ) :
    s.shardIndexOf selfId n now =
      if selfId ∈ first s.key (s.spare now) n then
        some ((ahead s.key (s.spare now) selfId).card % 2 ^ 16) else none := by
  have hsorted : ((s.rankedLiveNodes now).filter fun n => s.hasCapacity n).Pairwise
      fun a b => s.key a < s.key b := pairwise_rankedLiveNodes.filter _
  rw [shardIndexOf]
  split
  next hin =>
    have hhold := mem_shardHolders.mpr hin
    have hfull := List.mem_of_mem_take hhold
    have hidx : (s.shardHolders n now).idxOf selfId = (ahead s.key (s.spare now) selfId).card := by
      rw [← toFinset_spare, ← idxOf_of_pairwise hsorted hfull]
      exact (List.take_prefix n _).idxOf_eq_of_mem hhold
    rw [idxOf?_of_mem hhold, hidx]
    rfl
  next hout =>
    rw [List.idxOf?_eq_none_iff.mpr (mt mem_shardHolders.mp hout)]
    rfl

/-- Up to `u16::MAX` shards, the index is the rank. -/
theorem shardIndexOf_eq_rank {n : ℕ} (hn : n ≤ u16Max) {x : Name}
    (hx : x ∈ first s.key (s.spare now) n) :
    s.shardIndexOf x n now = some (ahead s.key (s.spare now) x).card := by
  have hmax : u16Max = 65535 := rfl
  have hrank := (mem_first.mp hx).2
  rw [shardIndexOf_eq, if_pos hx, Nat.mod_eq_of_lt (by omega)]

variable (s now) in
/-- A plan is of the job's parameters and the node's index. -/
theorem shardPlan_eq (job node : Name) : s.shardPlan job node now =
    (s.erasure job).bind fun kn =>
      (s.shardIndexOf node kn.2 now).map fun index => ⟨index, kn.1, kn.2⟩ := by
  rw [shardPlan, erasure]
  cases s.jobs.lookup job with
  | none => rfl
  | some j =>
      cases he : j.erasure with
      | none => simp [he]
      | some kn => cases hi : s.shardIndexOf node kn.2 now <;> simp [he, hi]

/-- One of the first `n` live nodes with capacity has the shard of its rank. -/
theorem shardPlan_of_mem_first {job x : Name} {k n : ℕ} (hjob : s.erasure job = some (k, n))
    (hn : n ≤ u16Max) (hx : x ∈ first s.key (s.spare now) n) :
    s.shardPlan job x now = some ⟨(ahead s.key (s.spare now) x).card, k, n⟩ := by
  rw [shardPlan_eq, hjob, Option.bind_some, shardIndexOf_eq_rank hn hx, Option.map_some]

variable (s now) in
/-- The eligible nodes come first in the ranking, as many as are missing. -/
theorem designatedClaimers_eq (job : Name) : s.designatedClaimers job now =
    (s.replication job).elim [] fun f => ((s.rankedLiveNodes now).filter fun n =>
      s.hasCapacity n && !decide (n ∈ s.claimants job)).take (f - (s.standing now job).card) := by
  rw [designatedClaimers, replication]
  cases hj : s.jobs.lookup job with
  | none => rfl
  | some j =>
      simp only [length_liveClaimants, claimants, hj, List.mem_toFinset, AList.mem_keys,
        Option.map_some, Option.elim_some]
      split
      next hnone => rw [hnone, List.take_zero]
      next => rfl

/-- The first of the eligible nodes are designated, as many as are missing. -/
theorem mem_designatedClaimers {job node : Name} :
    node ∈ s.designatedClaimers job now ↔ ∃ f, s.replication job = some f ∧
      node ∈ first s.key (s.spare now \ s.claimants job) (f - (s.standing now job).card) := by
  have hsorted : ((s.rankedLiveNodes now).filter fun n =>
      s.hasCapacity n && !decide (n ∈ s.claimants job)).Pairwise
        fun a b => s.key a < s.key b := pairwise_rankedLiveNodes.filter _
  have hset : ((s.rankedLiveNodes now).filter fun n =>
      s.hasCapacity n && !decide (n ∈ s.claimants job)).toFinset =
        s.spare now \ s.claimants job := by
    ext n
    simp [mem_rankedLiveNodes, mem_spare, and_assoc]
  rw [designatedClaimers_eq]
  cases s.replication job with
  | none => simp
  | some f =>
      simp only [Option.elim_some, Option.some.injEq, exists_eq_left']
      rw [mem_take_of_pairwise hsorted, hset]

/-- Of the live nodes with capacity ahead of a designated node, those that claim the job
are live claimants, and the others are fewer than are missing. -/
theorem mem_first_spare_of_designated {job x : Name} {n : ℕ} (hn : s.replication job = some n)
    (hx : x ∈ s.designatedClaimers job now) : x ∈ first s.key (s.spare now) n := by
  obtain ⟨f, hf, hfirst⟩ := mem_designatedClaimers.mp hx
  obtain rfl : n = f := Option.some.inj (hn.symm.trans hf)
  obtain ⟨hmem, hrank⟩ := mem_first.mp hfirst
  have hsub : ahead s.key (s.spare now) x ⊆
      s.standing now job ∪ ahead s.key (s.spare now \ s.claimants job) x := by
    intro z hz
    obtain ⟨hspare, hlt⟩ := mem_ahead.mp hz
    by_cases hclaims : z ∈ s.claimants job
    · exact Finset.mem_union_left _ (mem_standing.mpr ⟨hclaims, (mem_spare.mp hspare).1⟩)
    · exact Finset.mem_union_right _
        (mem_ahead.mpr ⟨Finset.mem_sdiff.mpr ⟨hspare, hclaims⟩, hlt⟩)
  have hcard := (Finset.card_le_card hsub).trans (Finset.card_union_le _ _)
  exact mem_first.mpr ⟨(Finset.mem_sdiff.mp hmem).1, by omega⟩

/-- A node claims the jobs for which the live claimants and the eligible nodes
ahead of it are too few. -/
theorem mem_jobsToClaim {job selfNode : Name} :
    job ∈ s.jobsToClaim selfNode now ↔ ∃ f, s.replication job = some f ∧
      selfNode ∈ s.spare now \ s.claimants job ∧
      (s.standing now job).card +
        (ahead s.key (s.spare now \ s.claimants job) selfNode).card < f := by
  have hunder : job ∈ s.underReplicatedJobs now ↔ ∃ f, s.replication job = some f ∧
      (s.standing now job).card < f := by
    rw [underReplicatedJobs, List.mem_filter, ← AList.mem_keys, ← AList.lookup_isSome]
    cases hj : s.jobs.lookup job with
    | none => simp [replication, hj]
    | some j => simp [isUnderReplicated, replication, hj, length_liveClaimants]
  have hshould : s.shouldClaim job selfNode now = true ↔
      selfNode ∈ s.designatedClaimers job now := by
    simp [shouldClaim]
  rw [jobsToClaim, List.mem_filter, hunder, hshould, mem_designatedClaimers]
  constructor
  · rintro ⟨⟨f, hf, hfew⟩, f', hf', hfirst⟩
    obtain rfl := Option.some.inj (hf.symm.trans hf')
    obtain ⟨hmem, hrank⟩ := mem_first.mp hfirst
    exact ⟨f, hf, hmem, by omega⟩
  · rintro ⟨f, hf, hmem, hrank⟩
    exact ⟨⟨f, hf, by omega⟩, f, hf, mem_first.mpr ⟨hmem, by omega⟩⟩

variable (s now) in
/-- The live claimants are sorted, and the first keep the job. -/
theorem designatedKeepers_eq (job : Name) : s.designatedKeepers job now =
    (s.replication job).elim [] fun f =>
      ((s.liveClaimants job now).insertionSort fun a b => s.key a ≤ s.key b).take f := by
  rw [designatedKeepers, replication]
  cases s.jobs.lookup job with
  | none => rfl
  | some j =>
      rw [← sortNodes_map]
      rfl

/-- The first of the live claimants keep a job. -/
theorem mem_designatedKeepers {job node : Name} :
    node ∈ s.designatedKeepers job now ↔ ∃ f, s.replication job = some f ∧
      node ∈ first s.key (s.standing now job) f := by
  obtain ⟨hnodup, hset⟩ := s.liveClaimants_eq now job
  have hsorted := pairwise_insertionSort s.key_injective hnodup
  have hsame : ((s.liveClaimants job now).insertionSort
      fun a b => s.key a ≤ s.key b).toFinset = s.standing now job := by
    rw [← hset]
    exact List.toFinset_eq_of_perm _ _ (List.perm_insertionSort _ _)
  rw [designatedKeepers_eq]
  cases s.replication job with
  | none => simp
  | some f =>
      simp only [Option.elim_some, Option.some.injEq, exists_eq_left']
      rw [mem_take_of_pairwise hsorted, hsame]

/-- A live claimant releases the jobs for which enough live claimants are ahead of it. -/
theorem mem_jobsToRelease {job selfNode : Name} :
    job ∈ s.jobsToRelease selfNode now ↔ ∃ f, s.replication job = some f ∧
      selfNode ∈ s.standing now job ∧ f ≤ (ahead s.key (s.standing now job) selfNode).card := by
  have hentry : job ∈ s.jobsToRelease selfNode now ↔ selfNode ∈ s.standing now job ∧
      selfNode ∉ s.designatedKeepers job now := by
    rw [jobsToRelease, mem_standing, mem_claimants]
    simp only [List.mem_map, List.mem_filter, Bool.and_eq_true, Bool.not_eq_true',
      decide_eq_true_eq, Sigma.exists, List.contains_eq_mem, decide_eq_false_iff_not]
    constructor
    · rintro ⟨job', j, ⟨hentry, ⟨hclaims, hlive⟩, hkeep⟩, rfl⟩
      exact ⟨⟨⟨j, (List.mem_dlookup_iff s.jobs.nodupKeys).mpr hentry, hclaims⟩, hlive⟩, hkeep⟩
    · rintro ⟨⟨⟨j, hj, hclaims⟩, hlive⟩, hkeep⟩
      exact ⟨job, j, ⟨(List.mem_dlookup_iff s.jobs.nodupKeys).mp hj, ⟨hclaims, hlive⟩, hkeep⟩, rfl⟩
  rw [hentry, mem_designatedKeepers]
  constructor
  · rintro ⟨hstand, hkeep⟩
    obtain ⟨j, hj, -⟩ := mem_claimants.mp (mem_standing.mp hstand).1
    have hf : s.replication job = some (s.effectiveReplication j) := by simp [replication, hj]
    refine ⟨_, hf, hstand, not_lt.mp fun hrank => ?_⟩
    exact hkeep ⟨_, hf, mem_first.mpr ⟨hstand, hrank⟩⟩
  · rintro ⟨f, hf, hstand, hrank⟩
    refine ⟨hstand, ?_⟩
    rintro ⟨f', hf', hfirst⟩
    obtain rfl := Option.some.inj (hf.symm.trans hf')
    exact absurd (mem_first.mp hfirst).2 (not_lt.mpr hrank)

end Decisions

end ClusterState

end NdnRepo.Cluster
