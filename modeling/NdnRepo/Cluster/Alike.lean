import NdnRepo.Cluster.Known

/-!
# Views that decide alike

A decision looks at the configuration, at the capacities and claims that are
recorded, at the jobs' parameters and at which nodes are live.  It does not look at
when a node was last heard of in any other way, nor at the order of a map.  So views
that agree in this decide alike, and return their lists in the same order.
-/

namespace NdnRepo.Cluster

open Rank

variable {Name κ : Type}

/-- The capacity recorded for a node, used and total. -/
def Knowledge.capacity (k : Knowledge Name) : Option (ℕ × ℕ) :=
  k.status.map fun st => (st.capacityUsed, st.capacityTotal)

/-- The same is known but for when the node was heard of. -/
structure Knowledge.Alike (k k' : Knowledge Name) : Prop where
  /-- The same capacity is recorded. -/
  capacity : k.capacity = k'.capacity
  /-- The same claims are. -/
  claims : k.claims = k'.claims

namespace ClusterState

variable [LinearOrder Name]

/-- Two views have recorded the same. -/
structure Alike (s s' : ClusterState Name κ) : Prop where
  /-- They have the same configuration. -/
  config : s.config = s'.config
  /-- They have recorded the same capacity and claims of every node. -/
  known : ∀ node, (s.known node).Alike (s'.known node)
  /-- They know the same jobs with the same parameters. -/
  spec : s.spec = s'.spec

namespace Alike

variable {s s' : ClusterState Name κ} (h : Alike s s')

include h

theorem claimants (job : Name) : s.claimants job = s'.claimants job := by
  ext node
  rw [mem_claimants_iff, mem_claimants_iff]
  have hclaims := congrFun (h.known node).claims job
  exact Iff.of_eq (congrArg (fun t => t.isSome = true) hclaims)

theorem replication (job : Name) : s.replication job = s'.replication job := by
  rw [replication_eq_spec, replication_eq_spec, h.config, h.spec]

theorem erasure (job : Name) : s.erasure job = s'.erasure job := by
  rw [erasure_eq_spec, erasure_eq_spec, h.spec]

variable [Utilization κ]

/-- The capacity decides the utilisation. -/
theorem utilization (node : Name) :
    (s.status node).map (NodeStatus.utilization (κ := κ)) =
      (s'.status node).map NodeStatus.utilization := by
  have hcap := (h.known node).capacity
  simp only [Knowledge.capacity, ClusterState.known] at hcap
  cases hst : s.status node with
  | none =>
      cases hst' : s'.status node with
      | none => rfl
      | some st' => rw [hst, hst'] at hcap; cases hcap
  | some st =>
      cases hst' : s'.status node with
      | none => rw [hst, hst'] at hcap; cases hcap
      | some st' =>
          rw [hst, hst'] at hcap
          obtain ⟨hused, htotal⟩ := Prod.mk.inj (Option.some.inj hcap)
          simp [NodeStatus.utilization, hused, htotal]

theorem key : s.key = s'.key := by
  funext node
  rw [ClusterState.key, ClusterState.key, h.utilization]

theorem hasCapacity (node : Name) : s.hasCapacity node = s'.hasCapacity node := by
  have hany : ∀ v : ClusterState Name κ, v.hasCapacity node =
      ((v.status node).map (NodeStatus.utilization (κ := κ))).any
        fun u => decide (u < v.config.capacityHighWatermark) := fun v => by
    simp only [ClusterState.hasCapacity, status, Option.any_map]
  rw [hany, hany, h.utilization, h.config]

variable {now now' : ℕ} (hlive : ∀ node, s.isLive node now = s'.isLive node now')

include hlive

theorem rankedLiveNodes : s.rankedLiveNodes now = s'.rankedLiveNodes now' := by
  refine eq_of_pairwise s.key pairwise_rankedLiveNodes ?_ fun node => ?_
  · rw [h.key]
    exact pairwise_rankedLiveNodes
  · rw [mem_rankedLiveNodes, mem_rankedLiveNodes, hlive]

omit [Utilization κ] in
theorem standing (job : Name) : s.standing now job = s'.standing now' job := by
  ext node
  rw [mem_standing, mem_standing, h.claimants, hlive]

theorem shardHolders (count : ℕ) : s.shardHolders count now = s'.shardHolders count now' := by
  simp only [ClusterState.shardHolders, h.rankedLiveNodes hlive, h.hasCapacity]

theorem shardPlan (job node : Name) : s.shardPlan job node now = s'.shardPlan job node now' := by
  simp only [shardPlan_eq, h.erasure, shardIndexOf, h.shardHolders hlive]

theorem designatedClaimers (job : Name) :
    s.designatedClaimers job now = s'.designatedClaimers job now' := by
  simp only [designatedClaimers_eq, h.replication, h.rankedLiveNodes hlive, h.hasCapacity,
    h.claimants, h.standing hlive]

theorem designatedKeepers (job : Name) :
    s.designatedKeepers job now = s'.designatedKeepers job now' := by
  have hsorted : ∀ (v : ClusterState Name κ) (t : ℕ), ((v.liveClaimants job t).insertionSort
      fun a b => v.key a ≤ v.key b).Pairwise fun a b => v.key a < v.key b := fun v t =>
    pairwise_insertionSort v.key_injective (v.liveClaimants_eq t job).1
  have hlists : (s.liveClaimants job now).insertionSort (fun a b => s.key a ≤ s.key b) =
      (s'.liveClaimants job now').insertionSort fun a b => s'.key a ≤ s'.key b := by
    refine eq_of_pairwise s.key (hsorted s now) ?_ fun n => ?_
    · rw [h.key]
      exact hsorted s' now'
    · rw [List.mem_insertionSort, List.mem_insertionSort, mem_liveClaimants, mem_liveClaimants,
        h.standing hlive]
  simp only [designatedKeepers_eq, h.replication, hlists]

end Alike

end ClusterState

end NdnRepo.Cluster
