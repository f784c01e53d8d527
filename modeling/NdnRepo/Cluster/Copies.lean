import NdnRepo.Cluster.Coverage
import NdnRepo.Cluster.WireNetwork

/-!
# Copies

A loop's listener that does as told holds copies of jobs.  Loops count on each other when they
release a job, and know of each other by what they publish, as bytes and some time ago, if
it is not lost.  If releases follow one ranking of the nodes, then once enough members hold a
job enough always will (`copies_kept`).

It is so in particular if every loop reports the same use of its capacity at every tick
(`copies_kept_of_steady`).  A loop that has not ticked yet has reported none.  So it is the
network in which every node knows its use from the start that is followed (`reported`).
-/

namespace NdnRepo.Cluster

open Rank Steps

namespace WireNetwork

variable {Name κ β : Type} [LinearOrder Name] [LinearOrder β]

/-- The members whose listeners hold a job. -/
def holders (members : Finset Name) (job : Name) (w : WireNetwork Name κ) : Finset Name :=
  members.filter fun x => (ClusterRun.holdings (w.loop x).effects job).isSome

variable [Utilization κ] [NdnTlvWriter] [NameTlvWriter Name]
variable {members : Finset Name} {job : Name} {f : ℕ} {e : Option (ℕ × ℕ)} {rank : Name → β}
variable {w : WireNetwork Name κ} {net : Network Name κ}

/-- The claimants that a tick's view, after its heartbeat, shows ahead of the node. -/
def countedOn (w : WireNetwork Name κ) (job x : Name) (now capacity : ℕ) : Finset Name :=
  let view := ((w.loop x).node.setCapacityUsed capacity).beat now
  ahead view.key (view.standing now job) x

/-- A loop that ticks, claims a job and counts on at least `f` claimants ahead of it counts on
nodes ranked before it only. -/
def Follows (rank : Name → β) (job : Name) (f : ℕ) (w : WireNetwork Name κ) :
    WireAction Name κ → Prop
  | .tick x now capacity => (w.loop x).done = false →
      x ∈ (w.loop x).node.state.claimants job → f ≤ (w.countedOn job x now capacity).card →
        ∀ z ∈ w.countedOn job x now capacity, rank z < rank x
  | _ => True

/-! ## Holders and owners -/

omit [Utilization κ] [LinearOrder β] in
/-- Who holds a job is who claims it. -/
theorem holders_eq (hrefines : Refines w net) (htruthful : Truthful w) :
    holders members job w = Network.owners members job net := by
  ext x
  have hholds := (htruthful.holds x).claims job
  rw [htruthful.self x] at hholds
  rw [holders, Finset.mem_filter, hholds, Network.mem_owners, hrefines.node]

/-- An action that follows the ranking is actions that do. -/
theorem follows_nodeActions (hrefines : Refines w net) {action : WireAction Name κ}
    (hallowed : w.Allowed members action) (hfollows : w.Follows rank job f action) :
    Network.Runs members (Network.Follows rank job f) net (w.nodeActions action) := by
  have hvalid := (refines_step hrefines hallowed).1
  cases action with
  | tick x now capacity =>
      cases hdone : (w.loop x).done with
      | true =>
          rw [nodeActions, hdone, if_pos rfl]
          trivial
      | false =>
          rw [nodeActions, hdone, if_neg Bool.false_ne_true] at hvalid ⊢
          refine ⟨hvalid.1, trivial, hvalid.2.1, ?_, trivial⟩
          have hnode : (net.step members (.setCapacityUsed x capacity)).node x =
              (w.loop x).node.setCapacityUsed capacity := by
            simp only [Network.step, Function.update_self, hrefines.node]
          rw [Network.Follows, Network.countedOn, hnode]
          exact hfollows hdone
  | deliver sender receiver now =>
      rw [nodeActions] at hvalid ⊢
      split
      next => trivial
      next =>
        split
        next => exact ⟨hallowed, trivial, trivial⟩
        next => trivial
  | lose sender receiver =>
      rw [nodeActions]
      split
      next => exact ⟨trivial, trivial, trivial⟩
      next => trivial
  | other sender receiver raw => trivial
  | cancel x => trivial
  | rehash x state => exact ⟨hvalid.1, trivial, trivial⟩

/-! ## Runs that follow a ranking -/

/-- The loops drive nodes that are covered, and their listeners do as told. -/
def CoveredBy (members : Finset Name) (rank : Name → β) (job : Name) (f : ℕ)
    (e : Option (ℕ × ℕ)) (w : WireNetwork Name κ) : Prop :=
  Truthful w ∧ ∃ net, Refines w net ∧ Network.Covered members rank job f e net

/-- An action that follows the ranking keeps them covered, and enough copies enough. -/
theorem CoveredBy.step (h : CoveredBy members rank job f e w) {action : WireAction Name κ}
    (hallowed : w.Allowed members action) (hfollows : w.Follows rank job f action) :
    CoveredBy members rank job f e (w.step members action) ∧
      (f ≤ (holders members job w).card →
        f ≤ (holders members job (w.step members action)).card) := by
  obtain ⟨htruthful, net, hrefines, hcovered⟩ := h
  have hruns := follows_nodeActions hrefines hallowed hfollows
  have htruthful' := truthful_step htruthful hallowed
  have hrefines' : Refines (w.step members action) (net.steps members (w.nodeActions action)) :=
    (refines_step hrefines hallowed).2
  refine ⟨⟨htruthful', _, hrefines', hcovered.steps hruns⟩, fun hheld => ?_⟩
  rw [holders_eq hrefines htruthful] at hheld
  rw [holders_eq hrefines' htruthful']
  exact hcovered.kept hruns hheld

/-- Once enough members hold a job enough always will, in every run whose releases follow one
ranking of the nodes. -/
theorem copies_kept {config : ClusterConfig κ} {total : Name → ℕ}
    {announced : List (Announcement Name)} {actions later : List (WireAction Name κ)}
    (hf : (announcedView config announced).replication job = some f)
    (hrun : Admits (step members)
      (fun w action => w.Allowed members action ∧ w.Follows rank job f action)
      (start config total announced) (actions ++ later))
    (hheld : f ≤ (holders members job
      (run (step members) (start config total announced) actions)).card) :
    f ≤ (holders members job
      (run (step members) (start config total announced) (actions ++ later))).card := by
  have hstart : CoveredBy members rank job f ((announcedView config announced).erasure job)
      (start config total announced) :=
    ⟨truthful_start config total announced, _, refines_start config total announced,
      Network.covered_start hf⟩
  obtain ⟨hfirst, hlater⟩ := admits_append.mp hrun
  have hkeeps : ∀ (w : WireNetwork Name κ) (action : WireAction Name κ),
      CoveredBy members rank job f ((announcedView config announced).erasure job) w →
      w.Allowed members action ∧ w.Follows rank job f action →
      CoveredBy members rank job f ((announcedView config announced).erasure job)
        (w.step members action) := fun _ _ h hok => (h.step hok.1 hok.2).1
  have hcovered := invariant hkeeps hstart hfirst _ (run_mem_states _ _)
  have hstep : ∀ (w : WireNetwork Name κ) (action : WireAction Name κ),
      CoveredBy members rank job f ((announcedView config announced).erasure job) w ∧
        f ≤ (holders members job w).card →
      w.Allowed members action ∧ w.Follows rank job f action →
      CoveredBy members rank job f ((announcedView config announced).erasure job)
          (w.step members action) ∧
        f ≤ (holders members job (w.step members action)).card := by
    rintro w action ⟨hcovered, hheld⟩ ⟨hallowed, hfollows⟩
    obtain ⟨hnext, hkept⟩ := hcovered.step hallowed hfollows
    exact ⟨hnext, hkept hheld⟩
  rw [run_append]
  exact (invariant hstep ⟨hcovered, hheld⟩ hlater _ (run_mem_states _ _)).2

/-! ## Steady use of capacity -/

/-- Every node knows its use of capacity. -/
def reported (used : Name → ℕ) (net : Network Name κ) : Network Name κ :=
  { net with node := fun x => (net.node x).setCapacityUsed (used x) }

/-- The loops drive nodes that report what they are known to use. -/
def Weighs (used total : Name → ℕ) (w : WireNetwork Name κ) : Prop :=
  ∃ net, Refines w net ∧ Network.Weighed used total (reported used net)

/-- Every tick reports the same use of capacity. -/
def Steady (used : Name → ℕ) : WireAction Name κ → Prop
  | .tick x _ capacity => capacity = used x
  | _ => True

variable {used total : Name → ℕ}

omit [Utilization κ] in
theorem weighs_start (config : ClusterConfig κ) (announced : List (Announcement Name)) :
    Weighs used total (start config total announced) := by
  refine ⟨_, refines_start config total announced, ?_⟩
  have hnode : ∀ x, ((Network.start config (fun _ => 0) total announced).node x).setCapacityUsed
      (used x) = (Network.start config used total announced).node x := fun x => by
    rw [Network.node_start, Network.node_start]
    rfl
  have hsame : reported used (Network.start config (fun _ => 0) total announced) =
      Network.start config used total announced := by
    rw [reported, funext hnode]
    rfl
  rw [hsame]
  exact Network.weighed_start

omit [Utilization κ] [NdnTlvWriter] [NameTlvWriter Name] in
/-- One node becomes another. -/
theorem reported_update (net : Network Name κ) (x : Name) (node : ClusterNode Name κ)
    (queue : Name → Name → List (ClusterMsg Name))
    (handed : Name → Name → Option (Handed Name κ)) :
    reported used ⟨Function.update net.node x node, queue, handed⟩ =
      ⟨Function.update (reported used net).node x (node.setCapacityUsed (used x)), queue, handed⟩ := by
  refine congrArg (fun node => (⟨node, _, _⟩ : Network Name κ)) (funext fun y => ?_)
  rcases eq_or_ne y x with rfl | hne
  · simp only [Function.update_self]
  · simp only [Function.update_of_ne hne, reported]

omit [NdnTlvWriter] [NameTlvWriter Name] in
/-- A tick after a report is a tick of a node that knew its use before. -/
theorem reported_tick (net : Network Name κ) (x : Name) (now : ℕ) :
    reported used ((net.step members (.setCapacityUsed x (used x))).tick members x now) =
      (reported used net).tick members x now := by
  have hreport : reported used (net.step members (.setCapacityUsed x (used x))) =
      reported used net := by
    rw [Network.step, reported_update]
    exact congrArg (fun node => (⟨node, _, _⟩ : Network Name κ)) (Function.update_eq_self x _)
  have hself : (net.step members (.setCapacityUsed x (used x))).node x =
      (reported used net).node x := by
    simp only [Network.step, Function.update_self, reported]
  rw [Network.tick, Network.tick, reported_update, hreport, hself]
  rfl

omit [Utilization κ] [NdnTlvWriter] [NameTlvWriter Name] in
/-- What a node uses does not matter for what it hears. -/
theorem reported_deliver (net : Network Name κ) (sender receiver : Name) (now : ℕ) :
    reported used (net.deliver sender receiver now) =
      (reported used net).deliver sender receiver now := by
  rw [Network.deliver, Network.deliver]
  cases hqueue : net.queue sender receiver with
  | nil => simp only [reported, hqueue]
  | cons msg rest =>
      have hreported : (reported used net).queue sender receiver = msg :: rest := hqueue
      simp only [hreported]
      exact reported_update net receiver _ _ _

/-- Ticks that report what was reported keep what is known of it. -/
theorem Weighs.step (h : Weighs used total w) {action : WireAction Name κ}
    (hallowed : w.Allowed members action) (hsteady : Steady used action) :
    Weighs used total (w.step members action) := by
  obtain ⟨net, hrefines, hweighed⟩ := h
  obtain ⟨hvalid, hrefines'⟩ := refines_step hrefines hallowed
  refine ⟨_, hrefines', ?_⟩
  cases action with
  | tick x now capacity =>
      obtain rfl : capacity = used x := hsteady
      rw [nodeActions]
      split
      next => exact hweighed
      next =>
        have hnext : Network.Weighed used total ((reported used net).step members (.tick x now)) :=
          Network.weighed_step hweighed hallowed.1 trivial
        exact (reported_tick net x now).symm ▸ hnext
  | deliver sender receiver now =>
      rw [nodeActions]
      split
      next => exact hweighed
      next =>
        split
        next =>
          have hnext : Network.Weighed used total
              ((reported used net).step members (.deliver sender receiver now)) :=
            Network.weighed_step hweighed hallowed trivial
          exact (reported_deliver net sender receiver now).symm ▸ hnext
        next => exact hweighed
  | lose sender receiver =>
      rw [nodeActions]
      split
      next =>
        have hnext : Network.Weighed used total
            ((reported used net).step members (.lose sender receiver)) :=
          Network.weighed_step hweighed trivial trivial
        exact hnext
      next => exact hweighed
  | other sender receiver raw => exact hweighed
  | cancel x => exact hweighed
  | rehash x state =>
      have hagree : ClusterState.Agree state ((reported used net).node x).state := hvalid.1.2
      have hnext : Network.Weighed used total
          ((reported used net).step members (.rehash x state)) :=
        Network.weighed_step hweighed ⟨hallowed.1, hagree⟩ trivial
      exact (reported_update net x _ _ _).symm ▸ hnext

/-- Nodes that know what is reported follow the ranking by it. -/
theorem Weighs.follows (h : Weighs used total w) {action : WireAction Name κ}
    (hsteady : Steady used action) :
    w.Follows (Network.steadyRank (κ := κ) used total) job f action := by
  obtain ⟨net, hrefines, hweighed⟩ := h
  cases action with
  | tick x now capacity =>
      obtain rfl : capacity = used x := hsteady
      intro _ hclaims hcard
      have hnode : (reported used net).node x = (w.loop x).node.setCapacityUsed (used x) :=
        congrArg (fun node => node.setCapacityUsed (used x)) (hrefines.node x)
      have hfollows : Network.Follows (Network.steadyRank (κ := κ) used total) job f
          (reported used net) (.tick x now) := Network.follows_of_weighed hweighed _
      rw [Network.Follows, Network.countedOn, hnode] at hfollows
      exact hfollows hclaims hcard
  | deliver sender receiver now => trivial
  | lose sender receiver => trivial
  | other sender receiver raw => trivial
  | cancel x => trivial
  | rehash x state => trivial

/-- Where every tick of a loop reports the same use of capacity, the loops follow the ranking
by it. -/
theorem admits_follows_of_steady {config : ClusterConfig κ} {announced : List (Announcement Name)}
    {actions : List (WireAction Name κ)}
    (hrun : Admits (WireNetwork.step members)
      (fun w action => w.Allowed members action ∧ Steady used action)
      (start config total announced) actions) :
    Admits (WireNetwork.step members)
      (fun w action => w.Allowed members action ∧
        w.Follows (Network.steadyRank (κ := κ) used total) job f action)
      (start config total announced) actions := by
  have himp : ∀ (w : WireNetwork Name κ) (action : WireAction Name κ), Weighs used total w →
      w.Allowed members action ∧ Steady used action →
      w.Allowed members action ∧
        w.Follows (Network.steadyRank (κ := κ) used total) job f action :=
    fun _ _ h hok => ⟨hok.1, h.follows hok.2⟩
  have hkeeps : ∀ (w : WireNetwork Name κ) (action : WireAction Name κ), Weighs used total w →
      w.Allowed members action ∧ Steady used action → Weighs used total (w.step members action) :=
    fun _ _ h hok => h.step hok.1 hok.2
  exact hrun.imp himp hkeeps (weighs_start config announced)

/-- Then enough copies stay enough. -/
theorem copies_kept_of_steady {config : ClusterConfig κ} {announced : List (Announcement Name)}
    {actions later : List (WireAction Name κ)}
    (hf : (announcedView config announced).replication job = some f)
    (hrun : Admits (WireNetwork.step members) (Allowed members) (start config total announced)
      (actions ++ later))
    (hsteady : ∀ action ∈ actions ++ later, Steady used action)
    (hheld : f ≤ (holders members job
      (run (WireNetwork.step members) (start config total announced) actions)).card) :
    f ≤ (holders members job
      (run (WireNetwork.step members) (start config total announced) (actions ++ later))).card := by
  have hboth : Admits (WireNetwork.step members)
      (fun w action => w.Allowed members action ∧ Steady used action)
      (start config total announced) (actions ++ later) := by
    refine admits_iff.mpr fun before action rest heq => ⟨admits_iff.mp hrun _ _ _ heq, ?_⟩
    exact hsteady action (heq ▸ List.mem_append_right _ (List.mem_cons_self ..))
  exact copies_kept hf (admits_follows_of_steady hboth) hheld

end WireNetwork

/-- `/a` has claimed the job.  Nobody drops it, and someone holds it in the end. -/
theorem WireNetwork.copies_kept_of_steady_pairStart :
    letI := Network.exactUtilization
    letI := blockTlvWriter
    1 ≤ (holders pairNames [(8, ascii "j")] (run (step pairNames) pairStart pairActions)).card := by
  let _ := Network.exactUtilization
  let _ := blockTlvWriter
  have hf : (announcedView (⟨1, 5000000000, 3, 3 / 4⟩ : ClusterConfig ℚ)
      [.job ([(8, ascii "j")] : TypedName) 0]).replication [(8, ascii "j")] = some 1 := by
    decide +kernel
  have hsteady : ∀ action ∈ pairActions, Steady (fun _ => 7) action := by
    simp only [pairActions, List.forall_mem_cons, List.not_mem_nil, false_imp_iff, implies_true,
      and_true, Steady]
  have hrun := admits_pairActions
  have hheld : 1 ≤ (holders pairNames [(8, ascii "j")]
      (run (step pairNames) pairStart (pairActions.take 1))).card := by decide +kernel
  rw [← List.take_append_drop 1 pairActions] at hsteady hrun ⊢
  exact copies_kept_of_steady hf hrun hsteady hheld

end NdnRepo.Cluster
