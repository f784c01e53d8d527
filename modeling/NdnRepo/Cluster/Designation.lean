import NdnRepo.Cluster.Placement

/-!
# Exactly enough

What a view decides for a job is exact.  The nodes designated to claim it are as many as
are missing, or all that are eligible, and no eligible node goes before them
(`designatedClaimers_exact`).  When all live nodes trim on one view, the claimants left
are as many as wanted, and there is nothing more to trim (`trimming_exact`).  A tick
moves the number of live claimants towards the number wanted and not past it
(`tick_towards_factor`).

A designated node is one of the first `n` live nodes with capacity, where `n` is the
number of shards.  The eligible nodes before it are fewer than are missing, and the
others before it claim the job.  So it has a shard to store
(`claimers_have_shards`).
-/

namespace NdnRepo.Cluster

open Rank

variable {Name κ : Type} [LinearOrder Name] [Utilization κ]

namespace ClusterState

/-! ## Claims -/

section Claims

variable (s : ClusterState Name κ) (job : Name) (now : ℕ)

/-- The wanted number of claimants of a job, none if it is not known. -/
def wanted : ℕ := (s.replication job).getD 0

variable {s job now} in
theorem mem_designatedClaimers_iff {node : Name} :
    node ∈ s.designatedClaimers job now ↔ node ∈ first s.key (s.spare now \ s.claimants job)
      (s.wanted job - (s.standing now job).card) := by
  rw [mem_designatedClaimers, wanted]
  cases s.replication job with
  | none => simp
  | some f => simp

theorem nodup_designatedClaimers : (s.designatedClaimers job now).Nodup := by
  have hranked : (s.rankedLiveNodes now).Nodup := by
    rw [rankedLiveNodes_eq]
    exact (List.perm_insertionSort _ _).nodup_iff.mpr (s.nodes.keys_nodup.filter _)
  unfold designatedClaimers
  split
  · exact List.nodup_nil
  · simp only
    split
    · exact List.nodup_nil
    · exact (hranked.filter _).sublist (List.take_sublist _ _)

theorem toFinset_designatedClaimers : (s.designatedClaimers job now).toFinset =
    first s.key (s.spare now \ s.claimants job) (s.wanted job - (s.standing now job).card) := by
  ext node
  rw [List.mem_toFinset, mem_designatedClaimers_iff]

theorem length_designatedClaimers : (s.designatedClaimers job now).length =
    min (s.wanted job - (s.standing now job).card) (s.spare now \ s.claimants job).card := by
  rw [← List.toFinset_card_of_nodup (s.nodup_designatedClaimers job now),
    toFinset_designatedClaimers, card_first s.key_injective]

omit [Utilization κ] in
/-- Recording claims of a job one after another. -/
theorem foldl_claims (claims : List (Name × ℕ)) :
    ∀ s : ClusterState Name κ,
      let s' := claims.foldl (fun s c => s.observeClaim job c.1 c.2) s
      s'.status = s.status ∧ s'.config = s.config ∧
        s'.claimants job = s.claimants job ∪ (claims.map Prod.fst).toFinset := by
  induction claims with
  | nil => exact fun s => ⟨rfl, rfl, by simp⟩
  | cons claim claims ih =>
      intro s
      obtain ⟨hstatus, hconfig, hclaims⟩ := ih (s.observeClaim job claim.1 claim.2)
      refine ⟨hstatus, hconfig, ?_⟩
      rw [List.foldl_cons, hclaims, claimants_observeClaim, if_pos rfl, List.map_cons,
        List.toFinset_cons, Finset.insert_union, Finset.union_insert]

omit [Utilization κ] in
/-- Whether a node is live depends on its status and the configuration. -/
theorem isLive_congr {s s' : ClusterState Name κ} (hstatus : s'.status = s.status)
    (hconfig : s'.config = s.config) (node : Name) (now : ℕ) :
    s'.isLive node now = s.isLive node now := by
  have hnode := congrFun hstatus node
  simp only [status] at hnode
  simp only [isLive, hnode, hconfig]

/-- The nodes designated to claim a job are eligible, exactly enough, and the first in
the order.  When they have claimed it, it has the number of live claimants wanted, or as
many as there are nodes for. -/
theorem designatedClaimers_exact (s : ClusterState Name κ) (job : Name) (now : ℕ) :
    let eligible := s.spare now \ s.claimants job
    let live := (s.liveClaimants job now).length
    (s.designatedClaimers job now).Nodup ∧
      (∀ node ∈ s.designatedClaimers job now, s.isLive node now = true ∧
        s.hasCapacity node = true ∧ node ∉ s.claimants job) ∧
      (s.designatedClaimers job now).length = min (s.wanted job - live) eligible.card ∧
      (∀ node ∈ s.designatedClaimers job now, ∀ other ∈ eligible,
        other ∉ s.designatedClaimers job now → s.key node < s.key other) ∧
      ∀ claims : List (Name × ℕ),
        (∀ node, node ∈ claims.map Prod.fst ↔ node ∈ s.designatedClaimers job now) →
          ((claims.foldl (fun s c => s.observeClaim job c.1 c.2) s).liveClaimants job now).length =
            max live (min (s.wanted job) (live + eligible.card)) := by
  intro eligible live
  have hmem : ∀ node ∈ s.designatedClaimers job now, node ∈ s.spare now ∧ node ∉ s.claimants job :=
    fun node hnode => Finset.mem_sdiff.mp (mem_first.mp (mem_designatedClaimers_iff.mp hnode)).1
  have hlive : live = (s.standing now job).card := length_liveClaimants job
  have hlength := s.length_designatedClaimers job now
  refine ⟨s.nodup_designatedClaimers job now, fun node hnode => ?_, ?_, ?_, ?_⟩
  · obtain ⟨hspare, hclaims⟩ := hmem node hnode
    obtain ⟨hlive, hcapacity⟩ := mem_spare.mp hspare
    exact ⟨hlive, hcapacity, hclaims⟩
  · rw [hlive]
    exact hlength
  · intro node hnode other hother hout
    rw [mem_designatedClaimers_iff] at hnode hout
    exact lt_of_mem_first hnode hother hout
  · intro claims hclaims
    obtain ⟨hstatus, hconfig, hnew⟩ := foldl_claims job claims s
    have hset : (claims.map Prod.fst).toFinset = (s.designatedClaimers job now).toFinset := by
      ext node
      rw [List.mem_toFinset, List.mem_toFinset, hclaims]
    -- The designated nodes are live and claimed nothing before.
    have hstanding : (claims.foldl (fun s c => s.observeClaim job c.1 c.2) s).standing now job =
        s.standing now job ∪ (s.designatedClaimers job now).toFinset := by
      ext node
      rw [mem_standing, hnew, isLive_congr hstatus hconfig, hset, Finset.mem_union,
        Finset.mem_union, mem_standing, List.mem_toFinset]
      constructor
      · rintro ⟨hold | hdesignated, hnode⟩
        · exact Or.inl ⟨hold, hnode⟩
        · exact Or.inr hdesignated
      · rintro (⟨hold, hnode⟩ | hdesignated)
        · exact ⟨Or.inl hold, hnode⟩
        · exact ⟨Or.inr hdesignated, (mem_spare.mp (hmem node hdesignated).1).1⟩
    have hdisjoint : Disjoint (s.standing now job) (s.designatedClaimers job now).toFinset := by
      refine Finset.disjoint_left.mpr fun node hnode hdesignated => ?_
      exact (hmem node (List.mem_toFinset.mp hdesignated)).2 (mem_standing.mp hnode).1
    rw [length_liveClaimants, hstanding, Finset.card_union_of_disjoint hdisjoint,
      List.toFinset_card_of_nodup (s.nodup_designatedClaimers job now), hlength, hlive]
    have heligible : eligible.card = (s.spare now \ s.claimants job).card := rfl
    omega

end Claims

/-! ## Releases -/

section Releases

variable {s : ClusterState Name κ} {now : ℕ} {job node : Name}

theorem mem_jobsToRelease_iff : job ∈ s.jobsToRelease node now ↔
    node ∈ s.standing now job ∧ node ∉ first s.key (s.standing now job) (s.wanted job) := by
  rw [mem_jobsToRelease, wanted]
  constructor
  · rintro ⟨f, hf, hnode, hrank⟩
    refine ⟨hnode, fun hfirst => ?_⟩
    rw [hf] at hfirst
    exact absurd (mem_first.mp hfirst).2 (not_lt.mpr hrank)
  · rintro ⟨hnode, hout⟩
    obtain ⟨j, hj, -⟩ := mem_claimants.mp (mem_standing.mp hnode).1
    have hf : s.replication job = some (s.effectiveReplication j) := by simp [replication, hj]
    rw [hf] at hout
    refine ⟨_, hf, hnode, not_lt.mp fun hrank => ?_⟩
    exact hout (mem_first.mpr ⟨hnode, hrank⟩)

/-- When every live node releases what it finds to release in one view, each job keeps as
many live claimants as wanted, or all of them, and these are the first in the order.
There is nothing to release afterwards. -/
theorem trimming_exact {releases : List (Name × Name)}
    (hreleases : ∀ job node, (job, node) ∈ releases ↔
      s.isLive node now = true ∧ job ∈ s.jobsToRelease node now) :
    let s' := releases.foldl (fun s r => s.observeRelease r.1 r.2) s
    (∀ job, (s'.liveClaimants job now).length =
          min (s.liveClaimants job now).length (s.wanted job) ∧
        (∀ node ∈ s'.liveClaimants job now, node ∈ s.liveClaimants job now) ∧
        ∀ node ∈ s'.liveClaimants job now, ∀ other ∈ s.liveClaimants job now,
          other ∉ s'.liveClaimants job now → s.key node < s.key other) ∧
      ∀ node, s'.jobsToRelease node now = [] := by
  intro s'
  obtain ⟨honly, hclaims⟩ := foldl_releases releases s
  have hkept : ∀ job, s'.standing now job = first s.key (s.standing now job) (s.wanted job) := by
    intro job
    ext node
    rw [mem_standing, hclaims, honly.isLive, hreleases, mem_jobsToRelease_iff]
    constructor
    · rintro ⟨⟨hclaim, hkeep⟩, hlive⟩
      have hnode := mem_standing.mpr ⟨hclaim, hlive⟩
      exact not_not.mp fun hout => hkeep ⟨hlive, hnode, hout⟩
    · intro hfirst
      obtain ⟨hclaim, hlive⟩ := mem_standing.mp (mem_first.mp hfirst).1
      exact ⟨⟨hclaim, fun hrelease => hrelease.2.2 hfirst⟩, hlive⟩
  refine ⟨fun job => ⟨?_, fun node hnode => ?_, fun node hnode other hother hout => ?_⟩,
    fun node => ?_⟩
  · rw [length_liveClaimants, length_liveClaimants, hkept, card_first s.key_injective, min_comm]
  · rw [mem_liveClaimants, hkept] at hnode
    rw [mem_liveClaimants]
    exact (mem_first.mp hnode).1
  · rw [mem_liveClaimants, hkept] at hnode hout
    rw [mem_liveClaimants] at hother
    exact lt_of_mem_first hnode hother hout
  · rw [List.eq_nil_iff_forall_not_mem]
    intro job hjob
    obtain ⟨hnode, hout⟩ := mem_jobsToRelease_iff.mp hjob
    have hwanted : s'.wanted job = s.wanted job := by rw [wanted, wanted, honly.replication]
    rw [hkept, hwanted, honly.key] at hout
    rw [hkept] at hnode
    -- Fewer are ahead among the claimants kept than were among all.
    have hsub : first s.key (s.standing now job) (s.wanted job) ⊆ s.standing now job :=
      Finset.filter_subset _ _
    have hfew := (Finset.card_le_card (ahead_mono hsub)).trans_lt (mem_first.mp hnode).2
    exact hout (mem_first.mpr ⟨hnode, hfew⟩)

end Releases

end ClusterState

namespace ClusterNode

/-! ## Ticks -/

section Ticks

variable (node : ClusterNode Name κ) (now : ℕ)

theorem nodup_tick : (node.tick now).1.ingest.Nodup ∧ (node.tick now).1.drop.Nodup := by
  constructor
  · exact ((AList.keys_nodup _).filter _).filter _
  · exact (node.beat now).jobs.keys_nodup.sublist (List.filter_sublist.map _)

omit [Utilization κ] in
/-- A node is live once it has recorded its heartbeat. -/
theorem isLive_beat : (node.beat now).isLive node.selfId now = true := by
  have hstatus := node.state.status_observeHeartbeat node.selfId node.selfId node.capacityUsed
    node.capacityTotal now
  rw [if_pos rfl] at hstatus
  rw [ClusterState.status] at hstatus
  rw [ClusterState.isLive, beat, hstatus]
  split
  next => simp
  next hlate =>
    -- The clock has stepped back, and the node was heard of later than now.
    simp only [Option.any_some, decide_eq_true_eq]
    omega

/-- The live claimants after a tick. -/
theorem standing_tick (job : Name) : (node.tick now).2.state.standing now job =
    if job ∈ (node.tick now).1.ingest then insert node.selfId ((node.beat now).standing now job)
    else if job ∈ (node.tick now).1.drop then ((node.beat now).standing now job).erase node.selfId
    else (node.beat now).standing now job := by
  obtain ⟨honly, hclaims⟩ := node.tick_view now
  have hlive := node.isLive_beat now
  ext z
  rw [honly.standing, Finset.mem_filter, hclaims]
  split
  next =>
    rw [Finset.mem_insert, Finset.mem_insert, ClusterState.mem_standing]
    constructor
    · rintro ⟨rfl | hz, hzlive⟩
      · exact Or.inl rfl
      · exact Or.inr ⟨hz, hzlive⟩
    · rintro (rfl | hz)
      · exact ⟨Or.inl rfl, hlive⟩
      · exact ⟨Or.inr hz.1, hz.2⟩
  next =>
    split
    next => rw [Finset.mem_erase, Finset.mem_erase, ClusterState.mem_standing, and_assoc]
    next => rw [ClusterState.mem_standing]

/-- A tick claims jobs of which the node is no claimant and too few are. -/
theorem too_few_of_ingest {job : Name} (h : job ∈ (node.tick now).1.ingest) {f : ℕ}
    (hf : (node.beat now).replication job = some f) :
    node.selfId ∉ (node.beat now).claimants job ∧
      ((node.beat now).standing now job).card < f := by
  obtain ⟨f', hf', hmem, hfew⟩ := (node.mem_tick_ingest now).mp h
  obtain rfl := Option.some.inj (hf.symm.trans hf')
  exact ⟨(Finset.mem_sdiff.mp hmem).2, lt_of_le_of_lt (Nat.le_add_right _ _) hfew⟩

/-- It releases jobs of which the node is a claimant and too many are. -/
theorem too_many_of_drop {job : Name} (h : job ∈ (node.tick now).1.drop) {f : ℕ}
    (hf : (node.beat now).replication job = some f) :
    node.selfId ∈ (node.beat now).standing now job ∧
      f < ((node.beat now).standing now job).card := by
  obtain ⟨f', hf', hmem, hmany⟩ := (node.mem_tick_drop now).mp h
  obtain rfl := Option.some.inj (hf.symm.trans hf')
  refine ⟨hmem, lt_of_le_of_lt hmany (Finset.card_lt_card ?_)⟩
  exact Finset.filter_ssubset.mpr ⟨node.selfId, hmem, lt_irrefl _⟩

/-- A tick moves the number of live claimants of a job towards the number wanted and not
past it, and neither claims nor releases the job when they are the same.  It releases
what the node claimed and claims what it did not, each job once. -/
theorem tick_towards_factor :
    let before := node.beat now
    let out := (node.tick now).1
    let after := (node.tick now).2.state
    (∀ job f, before.replication job = some f →
      let live := (before.liveClaimants job now).length
      let live' := (after.liveClaimants job now).length
      (f < live → f ≤ live' ∧ live' ≤ live) ∧
        (live = f → live' = live ∧ job ∉ out.ingest ∧ job ∉ out.drop) ∧
        (live < f → live ≤ live' ∧ live' ≤ f)) ∧
      (∀ job ∈ out.ingest, job ∉ out.drop) ∧ out.ingest.Nodup ∧ out.drop.Nodup ∧
      (∀ job ∈ out.drop, node.selfId ∈ node.state.claimants job) ∧
      ∀ job ∈ out.ingest, node.selfId ∉ node.state.claimants job := by
  intro before out after
  refine ⟨fun job f hf => ?_, fun job hjob => node.notMem_drop_of_mem_ingest now hjob,
    (node.nodup_tick now).1, (node.nodup_tick now).2, fun job hjob => ?_, fun job hjob => ?_⟩
  · intro live live'
    have hlive : live = ((node.beat now).standing now job).card :=
      ClusterState.length_liveClaimants job
    have hlive' : live' = ((node.tick now).2.state.standing now job).card :=
      ClusterState.length_liveClaimants job
    have hstanding := node.standing_tick now job
    by_cases hingest : job ∈ out.ingest
    · obtain ⟨hnew, hfew⟩ := node.too_few_of_ingest now hingest hf
      have hout : node.selfId ∉ (node.beat now).standing now job := fun h =>
        hnew (ClusterState.mem_standing.mp h).1
      rw [if_pos hingest] at hstanding
      have hcard := Finset.card_insert_of_notMem hout
      rw [← hstanding] at hcard
      exact ⟨fun h => by omega, fun h => by omega, fun h => by omega⟩
    · rw [if_neg hingest] at hstanding
      by_cases hdrop : job ∈ out.drop
      · obtain ⟨hself, hmany⟩ := node.too_many_of_drop now hdrop hf
        rw [if_pos hdrop] at hstanding
        have hcard := Finset.card_erase_of_mem hself
        rw [← hstanding] at hcard
        exact ⟨fun h => by omega, fun h => by omega, fun h => by omega⟩
      · rw [if_neg hdrop] at hstanding
        have hsame : live' = live := by rw [hlive, hlive', ← hstanding]
        exact ⟨fun h => by omega, fun _ => ⟨hsame, hingest, hdrop⟩, fun h => by omega⟩
  · obtain ⟨f, hf, -⟩ := (node.mem_tick_drop now).mp hjob
    exact (ClusterState.mem_standing.mp (node.too_many_of_drop now hjob hf).1).1
  · obtain ⟨f, hf, -⟩ := (node.mem_tick_ingest now).mp hjob
    exact (node.too_few_of_ingest now hjob hf).1

end Ticks

end ClusterNode

/-- A node designated to claim an erasure-coded job is one of its holders, each with a
shard of its own.  A node that claims one has a shard in its view after the tick. -/
theorem claimers_have_shards (job : Name) (now : ℕ) :
    (∀ (s : ClusterState Name κ) k n, s.erasure job = some (k, n) → n ≤ u16Max →
      (∀ x ∈ s.designatedClaimers job now, x ∈ s.shardHolders n now ∧
        ∃ index < n, s.shardPlan job x now = some ⟨index, k, n⟩) ∧
      ∀ x ∈ s.designatedClaimers job now, ∀ y ∈ s.designatedClaimers job now, x ≠ y →
        (s.shardPlan job x now).map ShardPlan.index ≠ (s.shardPlan job y now).map ShardPlan.index) ∧
    ∀ node : ClusterNode Name κ, job ∈ (node.tick now).1.ingest →
      ∀ k n, (node.tick now).2.state.erasure job = some (k, n) → n ≤ u16Max →
        ∃ index < n, (node.tick now).2.shardPlan job now = some ⟨index, k, n⟩ := by
  constructor
  · intro s k n hjob hn
    have hfirst : ∀ {x}, x ∈ s.designatedClaimers job now → x ∈ first s.key (s.spare now) n :=
      ClusterState.mem_first_spare_of_designated (ClusterState.replication_of_erasure hjob)
    have hplan : ∀ x ∈ s.designatedClaimers job now,
        (ahead s.key (s.spare now) x).card < n ∧ s.shardPlan job x now =
          some ⟨(ahead s.key (s.spare now) x).card, k, n⟩ := by
      intro x hx
      exact ⟨(mem_first.mp (hfirst hx)).2, ClusterState.shardPlan_of_mem_first hjob hn (hfirst hx)⟩
    refine ⟨fun x hx => ⟨?_, _, (hplan x hx).1, (hplan x hx).2⟩, fun x hx y hy hne => ?_⟩
    · exact ClusterState.mem_shardHolders.mpr (hfirst hx)
    · rw [(hplan x hx).2, (hplan y hy).2]
      have hrank := card_ahead_ne s.key_injective (mem_first.mp (hfirst hx)).1
        (mem_first.mp (hfirst hy)).1 hne
      simpa using hrank
  · intro node hingest k n hjob hn
    have hbeat : (node.beat now).erasure job = some (k, n) := by
      rw [← (node.tick_view now).1.erasure]
      exact hjob
    obtain ⟨hplan, hlt⟩ := Network.shardPlan_of_ingest hn hbeat hingest
    exact ⟨_, hlt, hplan⟩

/-! ## A small view -/

/-- A job that one node shall hold is claimed by two, the fuller of which is node 0. -/
def crowded : ClusterState ℕ ℚ :=
  ((((ClusterState.new ⟨1, 5000000000, 3, 3 / 4⟩).observeHeartbeat 0 500 1000 1).observeHeartbeat
    1 0 1000 1).observeClaim 7 0 1).observeClaim 7 1 1

theorem trimming_exact_crowded : letI := Network.exactUtilization
    ((crowded.observeRelease 7 0).liveClaimants 7 1).length = 1 ∧
      (crowded.observeRelease 7 0).jobsToRelease 1 1 = [] := by
  let _ := Network.exactUtilization
  have hreleases : ∀ job node, (job, node) ∈ [(7, 0)] ↔
      crowded.isLive node 1 = true ∧ job ∈ crowded.jobsToRelease node 1 := by
    have hfirst : crowded.jobsToRelease 0 1 = [7] := by decide +kernel
    have hsecond : crowded.jobsToRelease 1 1 = [] := by decide +kernel
    have hlive : crowded.isLive 0 1 = true := by decide +kernel
    have hkeys : crowded.nodes.keys = [1, 0] := by decide +kernel
    intro job node
    constructor
    · intro hmem
      obtain ⟨rfl, rfl⟩ := Prod.mk.inj (List.mem_singleton.mp hmem)
      exact ⟨hlive, by simp [hfirst]⟩
    · rintro ⟨hnode, hjob⟩
      have hknown := AList.mem_keys.mp (ClusterState.mem_nodes_of_isLive hnode)
      rw [hkeys] at hknown
      rcases List.mem_pair.mp hknown with rfl | rfl
      · simp [hsecond] at hjob
      · simpa [hfirst] using hjob
  obtain ⟨hkept, hdone⟩ := ClusterState.trimming_exact hreleases
  refine ⟨(hkept 7).1.trans ?_, hdone 1⟩
  decide +kernel

end NdnRepo.Cluster
