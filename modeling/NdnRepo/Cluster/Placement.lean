import NdnRepo.Cluster.Network

/-!
# Shard placement

A node that claims an erasure-coded job is handed the shard of its rank among the
live nodes with capacity, in its own view at that time.  Where two holders' views
agree about the two of them, so that one sees the other and all that are ahead of
the other ahead of itself, the shards differ (`shards_distinct`).  Nodes that have
not heard of each other do not agree.
-/

namespace NdnRepo.Cluster

open Rank

variable {Name κ : Type} [LinearOrder Name]

namespace Network

/-- The members that were handed a job and have not dropped it since. -/
def holders (members : Finset Name) (job : Name) (net : Network Name κ) : Finset Name :=
  members.filter fun x => (net.handed x job).isSome

section Agrees

variable [Utilization κ]

/-- The live nodes with capacity that a view shows ahead of a node. -/
def placedAhead (view : ClusterState Name κ) (now : ℕ) (x : Name) : Finset Name :=
  ahead view.key (view.spare now) x

/-- One of two nodes is ahead of the other, with all that are ahead of it. -/
def Nested (x : Name) (A : Finset Name) (y : Name) (B : Finset Name) : Prop :=
  insert x A ⊆ B ∨ insert y B ⊆ A

/-- A node that is to claim a job agrees with every other holder, as of when that
one was handed the job, about the two of them. -/
def Agrees (members : Finset Name) (job : Name) (net : Network Name κ) : Action Name κ → Prop
  | .tick x now => ((net.node x).beat now).shouldClaim job x now = true →
      ∀ y ∈ members, y ≠ x → ∀ h, net.handed y job = some h →
        Nested x (placedAhead ((net.node x).beat now) now x) y (placedAhead h.view h.now y)
  | _ => True

end Agrees

section Nested

variable {x y : Name} {A B : Finset Name}

theorem Nested.symm (h : Nested x A y B) : Nested y B x A := Or.symm h

/-- Nodes of which one is ahead of the other have different ranks. -/
theorem Nested.card_ne (h : Nested x A y B) (hx : x ∉ A) (hy : y ∉ B) : A.card ≠ B.card := by
  rcases h with h | h
  · have hcard := Finset.card_le_card h
    rw [Finset.card_insert_of_notMem hx] at hcard
    omega
  · have hcard := Finset.card_le_card h
    rw [Finset.card_insert_of_notMem hy] at hcard
    omega

end Nested

/-! ## What a tick hands out -/

section Steps

variable [Utilization κ] {members : Finset Name} {job : Name} {net : Network Name κ}
variable {action : Action Name κ}

variable (members job net action) in
/-- A node keeps what it was handed, or ticks and drops the job or is handed it. -/
theorem step_handed (y : Name) :
    (net.step members action).handed y job = net.handed y job ∨
      (∃ now, action = .tick y now ∧ (net.step members action).handed y job = none) ∨
      ∃ now, action = .tick y now ∧ job ∈ ((net.node y).tick now).1.ingest ∧
        (net.step members action).handed y job =
          some ⟨⟨job, ((net.node y).tick now).2.shardPlan job now⟩,
            ((net.node y).tick now).2.state, now⟩ := by
  cases action with
  | tick x now =>
      rcases eq_or_ne y x with rfl | hy
      · simp only [step, tick, if_pos]
        split
        next => exact Or.inr (Or.inl ⟨now, rfl, rfl⟩)
        next =>
          split
          next hingest => exact Or.inr (Or.inr ⟨now, rfl, hingest, rfl⟩)
          next => exact Or.inl rfl
      · left
        simp [step, tick, hy]
  | setCapacityUsed x used => exact Or.inl rfl
  | deliver sender receiver now =>
      left
      simp only [step, deliver]
      split <;> rfl
  | lose sender receiver => exact Or.inl rfl
  | rehash x state => exact Or.inl rfl

variable {node : ClusterNode Name κ} {now k n : ℕ}

/-- A node that is handed a job is designated to claim it. -/
theorem mem_designated_of_ingest (h : job ∈ (node.tick now).1.ingest) :
    node.selfId ∈ (node.beat now).designatedClaimers job now := by
  obtain ⟨f, hf, hmem, hfew⟩ := (node.mem_tick_ingest now).mp h
  exact ClusterState.mem_designatedClaimers.mpr ⟨f, hf, mem_first.mpr ⟨hmem, by omega⟩⟩

/-- Fewer than `n` nodes are ahead of a node that claims one of `n` shards. -/
theorem card_placedAhead_lt (hn : (node.beat now).replication job = some n)
    (h : job ∈ (node.tick now).1.ingest) :
    (placedAhead (node.beat now) now node.selfId).card < n :=
  (mem_first.mp (ClusterState.mem_first_spare_of_designated hn (mem_designated_of_ingest h))).2

/-- A node that claims a job is handed the shard of its rank. -/
theorem shardPlan_of_ingest (hn : n ≤ u16Max) (herasure : (node.beat now).erasure job = some (k, n))
    (h : job ∈ (node.tick now).1.ingest) :
    (node.tick now).2.shardPlan job now =
        some ⟨(placedAhead (node.beat now) now node.selfId).card, k, n⟩ ∧
      (placedAhead (node.beat now) now node.selfId).card < n := by
  have honly := (node.tick_view now).1
  have hlt := card_placedAhead_lt (ClusterState.replication_of_erasure herasure) h
  have hself : node.selfId ∈ (node.beat now).spare now := by
    obtain ⟨-, -, hmem, -⟩ := (node.mem_tick_ingest now).mp h
    exact (Finset.mem_sdiff.mp hmem).1
  have hfirst : node.selfId ∈
      first (node.tick now).2.state.key ((node.tick now).2.state.spare now) n := by
    rw [honly.key, honly.spare]
    exact mem_first.mpr ⟨hself, hlt⟩
  have hafter : (node.tick now).2.state.erasure job = some (k, n) := honly.erasure ▸ herasure
  have hplan := ClusterState.shardPlan_of_mem_first hafter hn hfirst
  rw [honly.key, honly.spare] at hplan
  exact ⟨hplan, hlt⟩

/-- A node that is handed a job should claim it. -/
theorem shouldClaim_of_ingest (h : job ∈ (node.tick now).1.ingest) :
    (node.beat now).shouldClaim job node.selfId now = true := by
  simpa [ClusterState.shouldClaim] using mem_designated_of_ingest h

variable (node now) in
/-- Who is ahead of a node is judged in the view after its heartbeat. -/
theorem placedAhead_tick (x : Name) :
    placedAhead (node.tick now).2.state now x = placedAhead (node.beat now) now x := by
  have honly := (node.tick_view now).1
  rw [placedAhead, honly.key, honly.spare]
  rfl

/-! ## Runs -/

/-- Each holder has the shard of its rank in the view it was handed it from, and
the holders agree about each other. -/
structure Placed (members : Finset Name) (job : Name) (k n : ℕ) (net : Network Name κ) : Prop
    extends Sane members job n (some (k, n)) net where
  /-- A holder has the shard of its rank. -/
  rank : ∀ x ∈ members, ∀ h, net.handed x job = some h →
    h.target = ⟨job, some ⟨(placedAhead h.view h.now x).card, k, n⟩⟩ ∧
      (placedAhead h.view h.now x).card < n
  /-- Two holders agree about each other. -/
  nested : ∀ x ∈ members, ∀ y ∈ members, x ≠ y → ∀ h h', net.handed x job = some h →
    net.handed y job = some h' →
      Nested x (placedAhead h.view h.now x) y (placedAhead h'.view h'.now y)

theorem placed_step (hn : n ≤ u16Max) (h : Placed members job k n net)
    (hvalid : net.Valid members action) (hagrees : net.Agrees members job action) :
    Placed members job k n (net.step members action) := by
  refine ⟨sane_step h.toSane hvalid, fun x hx h' hh' => ?_,
    fun x hx y hy hne h₁ h₂ hh₁ hh₂ => ?_⟩
  · rcases step_handed members job net action x with
      hsame | ⟨now, -, hnone⟩ | ⟨now, -, hingest, hsome⟩
    · exact h.rank x hx h' (hsame.symm.trans hh')
    · cases hnone.symm.trans hh'
    · obtain rfl := Option.some.inj (hsome.symm.trans hh')
      have herasure : ((net.node x).beat now).erasure job = some (k, n) := h.erasure x hx
      obtain ⟨hplan, hlt⟩ := shardPlan_of_ingest hn herasure hingest
      simp only [placedAhead_tick]
      rw [h.self x] at hplan hlt
      exact ⟨congrArg (IngestTarget.mk job) hplan, hlt⟩
  · -- A node that is handed the job now agrees with one that holds it.
    have hfresh : ∀ z, ∀ w ∈ members, w ≠ z → ∀ now, action = .tick z now →
        job ∈ ((net.node z).tick now).1.ingest → ∀ h', net.handed w job = some h' →
          Nested z (placedAhead ((net.node z).tick now).2.state now z) w
            (placedAhead h'.view h'.now w) := by
      rintro z w hw hwz now rfl hingest h' hh'
      have hclaims := shouldClaim_of_ingest hingest
      rw [h.self z] at hclaims
      rw [placedAhead_tick]
      exact hagrees hclaims w hw hwz h' hh'
    rcases step_handed members job net action x with
      hx' | ⟨now, -, hx'⟩ | ⟨now, haction, hingest, hx'⟩
    · rcases step_handed members job net action y with
        hy' | ⟨now, -, hy'⟩ | ⟨now, haction, hingest, hy'⟩
      · exact h.nested x hx y hy hne h₁ h₂ (hx'.symm.trans hh₁) (hy'.symm.trans hh₂)
      · cases hy'.symm.trans hh₂
      · obtain rfl := Option.some.inj (hy'.symm.trans hh₂)
        exact (hfresh y x hx hne now haction hingest h₁ (hx'.symm.trans hh₁)).symm
    · cases hx'.symm.trans hh₁
    · obtain rfl := Option.some.inj (hx'.symm.trans hh₁)
      rcases step_handed members job net action y with
        hy' | ⟨now', haction', -⟩ | ⟨now', haction', -⟩
      · exact hfresh x y hy hne.symm now haction hingest h₂ (hy'.symm.trans hh₂)
      · exact absurd (Action.tick.inj (haction.symm.trans haction')).1 hne
      · exact absurd (Action.tick.inj (haction.symm.trans haction')).1 hne

end Steps

section Runs

variable {members : Finset Name} {job : Name} {k n : ℕ} {config : ClusterConfig κ}
variable {used total : Name → ℕ} {announced : List (Announcement Name)}

/-- Announced jobs have at most `u16::MAX` shards. -/
theorem le_of_announced :
    ∀ {announced : List (Announcement Name)} {s : ClusterState Name κ},
      (∀ k n, s.erasure job = some (k, n) → n ≤ u16Max) →
        ∀ k n, (announced.foldl ClusterState.announce s).erasure job = some (k, n) → n ≤ u16Max
  | [], _, hs, k, n, h => hs k n h
  | first :: announced, s, hs, k, n, h => by
      refine le_of_announced (s := s.announce first) (fun k n hfirst => ?_) k n h
      cases first with
      | job target repl =>
          rw [ClusterState.announce, ClusterState.erasure_observeJob] at hfirst
          exact hs k n hfirst
      | erasureJob target k' redundancy =>
          rw [ClusterState.announce, ClusterState.erasure_observeErasureJob] at hfirst
          split at hfirst
          · obtain ⟨-, rfl⟩ := Prod.mk.inj (Option.some.inj hfirst)
            exact min_le_right _ _
          · exact hs k n hfirst

variable [Utilization κ] {actions : List (Action Name κ)}

theorem placed_start (he : (announcedView config announced).erasure job = some (k, n)) :
    Placed members job k n (start config used total announced) := by
  have hrepl : (announcedView config announced).replication job = some n :=
    ClusterState.replication_of_erasure he
  refine ⟨he ▸ sane_start hrepl, fun _ _ _ h => ?_, fun _ _ _ _ _ _ _ h => ?_⟩
  · cases h
  · cases h

/-- The holders of a job have different shards of it, and if they are as many as
there are shards they have them all. -/
def ShardsDistinct (members : Finset Name) (job : Name) (k n : ℕ) (net : Network Name κ) : Prop :=
  ∃ index : Name → ℕ,
    (∀ x ∈ holders members job net, ∃ h, net.handed x job = some h ∧
      h.target = ⟨job, some ⟨index x, k, n⟩⟩) ∧
    Set.InjOn index (holders members job net) ∧
    ((holders members job net).card = n → (holders members job net).image index = Finset.range n)

omit [Utilization κ] [LinearOrder Name] in
/-- Different indices below `n` that are `n` many are all of them. -/
theorem image_eq_range {S : Finset Name} {index : Name → ℕ} (hinj : Set.InjOn index S)
    (hlt : ∀ x ∈ S, index x < n) (hcard : S.card = n) : S.image index = Finset.range n := by
  have hsub : S.image index ⊆ Finset.range n := by
    intro i hi
    obtain ⟨x, hx, rfl⟩ := Finset.mem_image.mp hi
    exact Finset.mem_range.mpr (hlt x hx)
  refine Finset.eq_of_subset_of_card_le hsub ?_
  rw [Finset.card_range, Finset.card_image_of_injOn hinj, hcard]

/-- The holders' shards are distinct in every run in which each node that claims
the job agrees with the holders. -/
theorem shards_distinct (he : (announcedView config announced).erasure job = some (k, n))
    (hruns : Runs members (Agrees members job) (start config used total announced) actions) :
    ShardsDistinct members job k n ((start config used total announced).steps members actions) := by
  have hn : n ≤ u16Max := le_of_announced (fun _ _ h => by cases h) k n he
  have hplaced := runs_induction (Placed members job k n)
    (fun net action h hvalid hagrees => placed_step hn h hvalid hagrees) hruns (placed_start he)
  generalize (start config used total announced).steps members actions = net at hplaced ⊢
  have hheld : ∀ x ∈ holders members job net, x ∈ members ∧ ∃ h, net.handed x job = some h := by
    intro x hx
    obtain ⟨hx, hsome⟩ := Finset.mem_filter.mp hx
    exact ⟨hx, Option.isSome_iff_exists.mp hsome⟩
  let index : Name → ℕ := fun x =>
    ((net.handed x job).map fun h => (placedAhead h.view h.now x).card).getD 0
  have hindex : ∀ {x h}, net.handed x job = some h →
      index x = (placedAhead h.view h.now x).card := fun hh => by simp [index, hh]
  have hinj : Set.InjOn index (holders members job net) := by
    intro x hx y hy hxy
    obtain ⟨hx, h, hh⟩ := hheld x hx
    obtain ⟨hy, h', hh'⟩ := hheld y hy
    by_contra hne
    rw [hindex hh, hindex hh'] at hxy
    exact (hplaced.nested x hx y hy hne h h' hh hh').card_ne notMem_ahead_self
      notMem_ahead_self hxy
  refine ⟨index, fun x hx => ?_, hinj, image_eq_range hinj fun x hx => ?_⟩
  · obtain ⟨hx, h, hh⟩ := hheld x hx
    refine ⟨h, hh, ?_⟩
    rw [hindex hh]
    exact (hplaced.rank x hx h hh).1
  · obtain ⟨hx, h, hh⟩ := hheld x hx
    rw [hindex hh]
    exact (hplaced.rank x hx h hh).2

/-- Node 1 claims the job after it has heard of node 0 and its claim. -/
theorem shards_distinct_pair : letI := exactUtilization
    ShardsDistinct {0, 1} 7 1 2 ((pairStart 0 (.erasureJob 7 1 1)).steps {0, 1}
      ([.tick 0 1] ++ (exchange 1 ++ [.tick 1 2]))) := by
  let _ := exactUtilization
  refine shards_distinct (by decide +kernel) ?_
  simp only [exchange, List.cons_append, List.nil_append, Runs, Valid, Agrees, Nested]
  decide +kernel

/-- Two nodes that have not heard of each other are handed the same shard. -/
theorem shards_collide : letI := exactUtilization
    let net := (pairStart 0 (.erasureJob 7 1 1)).steps {0, 1} [.tick 0 1, .tick 1 1]
    (holders {0, 1} 7 net).card = 2 ∧
      (net.handed 0 7).map Handed.target = some ⟨7, some ⟨0, 1, 2⟩⟩ ∧
      (net.handed 1 7).map Handed.target = some ⟨7, some ⟨0, 1, 2⟩⟩ ∧
      ¬ ShardsDistinct {0, 1} 7 1 2 net := by
  let _ := exactUtilization
  intro net
  have hcard : (holders {0, 1} 7 net).card = 2 := by decide +kernel
  have h₀ : (net.handed 0 7).map Handed.target = some ⟨7, some ⟨0, 1, 2⟩⟩ := by decide +kernel
  have h₁ : (net.handed 1 7).map Handed.target = some ⟨7, some ⟨0, 1, 2⟩⟩ := by decide +kernel
  refine ⟨hcard, h₀, h₁, ?_⟩
  rintro ⟨index, htarget, hinj, -⟩
  have hindex : ∀ x ∈ holders {0, 1} 7 net,
      (net.handed x 7).map Handed.target = some ⟨7, some ⟨index x, 1, 2⟩⟩ := by
    intro x hx
    obtain ⟨h, hh, ht⟩ := htarget x hx
    rw [hh, Option.map_some, ht]
  have hmem : 0 ∈ holders {0, 1} 7 net ∧ 1 ∈ holders {0, 1} 7 net := by decide +kernel
  have hzero := h₀.symm.trans (hindex 0 hmem.1)
  have hone := h₁.symm.trans (hindex 1 hmem.2)
  simp only [Option.some.injEq, IngestTarget.mk.injEq, ShardPlan.mk.injEq, and_true,
    true_and] at hzero hone
  exact absurd (hinj hmem.1 hmem.2 (hzero.symm.trans hone)) (by decide)

end Runs

end Network

end NdnRepo.Cluster
