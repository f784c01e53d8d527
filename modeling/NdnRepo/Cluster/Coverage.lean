import NdnRepo.Cluster.Network

/-!
# Coverage

A node that releases a job counts on the claimants its view ranks ahead of it.
They may have released the job themselves, counting on others, and so on.  If all
nodes rank each other the same way this comes to an end at nodes that do hold the
job: whoever once claimed it and does not any more has enough owners ranked before
it (`Backed`), at every moment.

So coverage is kept in every run whose releases follow one ranking
(`coverage_kept`).  Utilisations that never change are such a ranking
(`coverage_kept_of_steady`).  Where they change, two nodes can each count on the other.
-/

namespace NdnRepo.Cluster

open Rank

variable {Name κ β : Type} [LinearOrder Name]

namespace Network

/-- The members that claim a job in their own view. -/
def owners (members : Finset Name) (job : Name) (net : Network Name κ) : Finset Name :=
  members.filter fun x => x ∈ (net.node x).state.claimants job

theorem mem_owners {members : Finset Name} {job x : Name} {net : Network Name κ} :
    x ∈ owners members job net ↔ x ∈ members ∧ x ∈ (net.node x).state.claimants job := by
  simp [owners]

section Follows

variable [Utilization κ] [LinearOrder β]

/-- The claimants a node's view, after its heartbeat, shows ahead of it. -/
def countedOn (net : Network Name κ) (job x : Name) (now : ℕ) : Finset Name :=
  let view := (net.node x).beat now
  ahead view.key (view.standing now job) x

/-- A node that ticks, claims a job and counts on at least `f` claimants ahead of
it counts on nodes ranked before it only. -/
def Follows (rank : Name → β) (job : Name) (f : ℕ) (net : Network Name κ) :
    Action Name κ → Prop
  | .tick x now => x ∈ (net.node x).state.claimants job → f ≤ (net.countedOn job x now).card →
      ∀ z ∈ net.countedOn job x now, rank z < rank x
  | _ => True

end Follows

section Backed

variable [LinearOrder β] {rank : Name → β} {f : ℕ} {O : Finset Name} {x z : Name}

/-- A node is an owner, or enough owners are ranked before it. -/
def Backed (rank : Name → β) (f : ℕ) (O : Finset Name) (z : Name) : Prop :=
  z ∈ O ∨ f ≤ (ahead rank O z).card

omit [LinearOrder Name] in
theorem Backed.mono {O' : Finset Name} (h : Backed rank f O z) (hsub : O ⊆ O') :
    Backed rank f O' z :=
  h.imp (fun hz => hsub hz) fun hf => hf.trans (Finset.card_le_card (ahead_mono hsub))

/-- Who counts on enough backed nodes ranked before it has enough owners ranked
before it. -/
theorem le_card_ahead_of_backed {K : Finset Name} (hcard : f ≤ K.card)
    (hrank : ∀ z ∈ K, rank z < rank x) (hback : ∀ z ∈ K, Backed rank f O z) :
    f ≤ (ahead rank O x).card := by
  by_cases hall : K ⊆ O
  · have hsub : K ⊆ ahead rank O x := fun z hz => mem_ahead.mpr ⟨hall hz, hrank z hz⟩
    exact hcard.trans (Finset.card_le_card hsub)
  · obtain ⟨z, hz, hout⟩ := Finset.not_subset.mp hall
    have hz' := (hback z hz).resolve_left hout
    exact hz'.trans (Finset.card_le_card (ahead_subset_of_lt (hrank z hz)))

/-- When a node with enough owners before it gives up, all backed nodes stay so. -/
theorem Backed.erase (h : Backed rank f O z) (hx : f ≤ (ahead rank O x).card) :
    Backed rank f (O.erase x) z := by
  have hkeep : ∀ {w}, ¬ rank x < rank w → ahead rank (O.erase x) w = ahead rank O w := by
    intro w hw
    ext y
    simp only [mem_ahead, Finset.mem_erase]
    constructor
    · rintro ⟨⟨-, hy⟩, hlt⟩
      exact ⟨hy, hlt⟩
    · rintro ⟨hy, hlt⟩
      exact ⟨⟨fun he => hw (he ▸ hlt), hy⟩, hlt⟩
  rcases lt_or_ge (rank x) (rank z) with hlt | hge
  · right
    rw [← hkeep (lt_irrefl (rank x))] at hx
    exact hx.trans (Finset.card_le_card (ahead_subset_of_lt hlt))
  · rcases eq_or_ne z x with rfl | hne
    · right
      rw [hkeep (lt_irrefl _)]
      exact hx
    · rcases h with hz | hf
      · exact Or.inl (Finset.mem_erase.mpr ⟨hne, hz⟩)
      · right
        rw [hkeep hge.not_gt]
        exact hf

end Backed

/-! ## Steps -/

section Steps

variable [Utilization κ] {members : Finset Name} {job : Name} {f : ℕ} {e : Option (ℕ × ℕ)}
variable {net : Network Name κ} {action : Action Name κ}

/-- A node owns a job as before, or it ticks and claims or releases it. -/
theorem owners_step (hsane : Sane members job f e net) (hvalid : net.Valid members action) :
    (owners members job (net.step members action) = owners members job net) ∨
      (∃ x now, action = .tick x now ∧ x ∈ members ∧
        job ∈ ((net.node x).tick now).1.ingest ∧
        owners members job (net.step members action) = insert x (owners members job net)) ∨
      ∃ x now, action = .tick x now ∧ x ∈ members ∧
        job ∈ ((net.node x).tick now).1.drop ∧
        owners members job (net.step members action) = (owners members job net).erase x := by
  -- A node that does not tick claims what it claimed.
  have hsame : ∀ y, (∀ now, action ≠ .tick y now) →
      (y ∈ ((net.step members action).node y).state.claimants job ↔
        y ∈ (net.node y).state.claimants job) := by
    intro y hy
    rcases step_state hvalid y with hagree | ⟨now, htick, -⟩ | ⟨z, now, msg, -, hne, -, hmsg, hobs⟩
    · rw [hagree.claimants]
    · exact absurd htick (hy now)
    · rw [hobs]
      exact (ClusterState.observe_of_ne (hsane.sender z y msg hmsg) now hne.symm).2 job
  cases action with
  | tick x now =>
      have hself := hsane.self x
      have hclaims := ((net.node x).tick_view now).2 job
      rw [hself] at hclaims
      have hx : x ∈ ((net.step members (.tick x now)).node x).state.claimants job ↔
          x ∈ ((net.node x).tick now).2.state.claimants job := by
        simp [step, tick]
      have hother : ∀ y, y ≠ x → (y ∈ owners members job (net.step members (.tick x now)) ↔
          y ∈ owners members job net) := by
        intro y hy
        rw [mem_owners, mem_owners, hsame y fun now' h => hy (Action.tick.inj h).1.symm]
      by_cases hingest : job ∈ ((net.node x).tick now).1.ingest
      · refine Or.inr (Or.inl ⟨x, now, rfl, hvalid, hingest, ?_⟩)
        ext y
        rcases eq_or_ne y x with rfl | hy
        · rw [mem_owners, hx, hclaims, if_pos hingest]
          simp [show y ∈ members from hvalid]
        · rw [hother y hy, Finset.mem_insert, or_iff_right hy]
      · rw [if_neg hingest] at hclaims
        by_cases hdrop : job ∈ ((net.node x).tick now).1.drop
        · refine Or.inr (Or.inr ⟨x, now, rfl, hvalid, hdrop, ?_⟩)
          ext y
          rcases eq_or_ne y x with rfl | hy
          · rw [mem_owners, hx, hclaims, if_pos hdrop]
            simp
          · rw [hother y hy, Finset.mem_erase, and_iff_right hy]
        · left
          ext y
          rcases eq_or_ne y x with rfl | hy
          · rw [mem_owners, hx, hclaims, if_neg hdrop, mem_owners]
            rfl
          · exact hother y hy
  | setCapacityUsed x used =>
      left
      ext y
      rw [mem_owners, mem_owners, hsame y fun now h => by cases h]
  | deliver sender receiver now =>
      left
      ext y
      rw [mem_owners, mem_owners, hsame y fun now h => by cases h]
  | lose sender receiver =>
      left
      ext y
      rw [mem_owners, mem_owners, hsame y fun now h => by cases h]
  | rehash x state =>
      left
      ext y
      rw [mem_owners, mem_owners, hsame y fun now h => by cases h]

variable [LinearOrder β] {rank : Name → β} {x : Name}

/-- Every node that is known or on its way to be known as a claimant is backed. -/
structure Covered (members : Finset Name) (rank : Name → β) (job : Name) (f : ℕ)
    (e : Option (ℕ × ℕ)) (net : Network Name κ) : Prop extends Sane members job f e net where
  /-- A claimant in a member's view is backed. -/
  heard : ∀ x ∈ members, ∀ z ∈ (net.node x).state.claimants job,
    Backed rank f (owners members job net) z
  /-- So is a claimant a message tells of. -/
  coming : ∀ x y ts, .claim job x ts ∈ net.queue x y → x ∈ members →
    Backed rank f (owners members job net) x

omit [LinearOrder β] in
/-- Who is handed a job claims it. -/
theorem mem_owners_of_ingest (hself : (net.node x).selfId = x) (hx : x ∈ members) {now : ℕ}
    (hingest : job ∈ ((net.node x).tick now).1.ingest) :
    x ∈ owners members job (net.step members (.tick x now)) := by
  have hclaims := ((net.node x).tick_view now).2 job
  rw [if_pos hingest, hself] at hclaims
  rw [mem_owners]
  exact ⟨hx, by simp [step, tick, hclaims]⟩

section Follows

variable (h : Covered members rank job f e net) (hvalid : net.Valid members action)
  (hfollows : net.Follows rank job f action)

include h hfollows in
/-- Who releases has enough owners before it. -/
theorem Covered.le_card_ahead_of_drop {now : ℕ} (haction : action = .tick x now) (hx : x ∈ members)
    (hdrop : job ∈ ((net.node x).tick now).1.drop) :
    f ≤ (ahead rank (owners members job net) x).card := by
  subst haction
  obtain ⟨f', hf', hstand, hcard⟩ := ((net.node x).mem_tick_drop now).mp hdrop
  obtain rfl : f = f' := Option.some.inj ((h.replication x hx).symm.trans hf')
  rw [h.self x] at hstand hcard
  have hclaims := (ClusterState.mem_standing.mp hstand).1
  refine le_card_ahead_of_backed hcard (hfollows hclaims hcard) fun z hz => ?_
  exact h.heard x hx z (ClusterState.mem_standing.mp (mem_ahead.mp hz).1).1

include h hvalid hfollows

/-- Backed nodes stay so. -/
theorem Covered.backed_step {z : Name} (hz : Backed rank f (owners members job net) z) :
    Backed rank f (owners members job (net.step members action)) z := by
  rcases owners_step h.toSane hvalid with heq | ⟨x, now, -, -, -, heq⟩ |
    ⟨x, now, haction, hx, hdrop, heq⟩
  · rw [heq]
    exact hz
  · rw [heq]
    exact hz.mono (Finset.subset_insert x _)
  · rw [heq]
    exact hz.erase (h.le_card_ahead_of_drop hfollows haction hx hdrop)

/-- A step that follows the ranking keeps all backed. -/
theorem covered_step : Covered members rank job f e (net.step members action) := by
  refine ⟨sane_step h.toSane hvalid, fun x hx z hz => ?_, fun x y ts hmsg hx => ?_⟩
  · have hheard : z ∈ (net.node x).state.claimants job →
        Backed rank f (owners members job (net.step members action)) z := fun hold =>
      h.backed_step hvalid hfollows (h.heard x hx z hold)
    rcases step_state hvalid x with hagree | ⟨now, rfl, htick⟩ |
      ⟨sender, now, msg, hsender, -, -, hmsg, hobs⟩
    · rw [hagree.claimants] at hz
      exact hheard hz
    · rw [htick, ((net.node x).tick_view now).2, h.self x] at hz
      split at hz
      next hingest =>
        rcases Finset.mem_insert.mp hz with rfl | hz
        · exact Or.inl (mem_owners_of_ingest (h.self z) hx hingest)
        · exact hheard hz
      next =>
        split at hz
        · exact hheard (Finset.mem_of_mem_erase hz)
        · exact hheard hz
    · rw [hobs] at hz
      rcases ClusterState.mem_claimants_observe hz with hz | ⟨ts, rfl⟩
      · exact hheard hz
      · obtain rfl : z = sender := Option.some.inj (h.sender sender x _ hmsg)
        exact h.backed_step hvalid hfollows (h.coming z x ts hmsg hsender)
  · rcases step_queue hmsg with hold | ⟨now, rfl, hnew⟩
    · exact h.backed_step hvalid hfollows (h.coming x y ts hold hx)
    · rcases ((net.node x).mem_tick_publish now).mp hnew with hm | ⟨j, -, hm⟩ | ⟨j, hingest, hm⟩
      · cases hm
      · cases hm
      · obtain ⟨rfl, -, -⟩ := ClusterMsg.claim.inj hm
        exact Or.inl (mem_owners_of_ingest (h.self x) hx hingest)

/-- Enough owners stay enough. -/
theorem Covered.le_card_owners_step (hf : f ≤ (owners members job net).card) :
    f ≤ (owners members job (net.step members action)).card := by
  rcases owners_step h.toSane hvalid with heq | ⟨x, now, -, -, -, heq⟩ |
    ⟨x, now, haction, hx, hdrop, heq⟩
  · rwa [heq]
  · rw [heq]
    exact hf.trans (Finset.card_le_card (Finset.subset_insert x _))
  · rw [heq]
    have hahead := h.le_card_ahead_of_drop hfollows haction hx hdrop
    refine hahead.trans (Finset.card_le_card fun z hz => ?_)
    obtain ⟨hz, hlt⟩ := mem_ahead.mp hz
    refine Finset.mem_erase.mpr ⟨?_, hz⟩
    rintro rfl
    exact lt_irrefl _ hlt

end Follows

end Steps

/-! ## Runs -/

section Runs

variable {members : Finset Name} {job : Name} {f : ℕ} {config : ClusterConfig κ}
variable {used total : Name → ℕ} {announced : List (Announcement Name)}

theorem covered_start [LinearOrder β] {rank : Name → β}
    (hf : (announcedView config announced).replication job = some f) :
    Covered members rank job f ((announcedView config announced).erasure job)
      (start config used total announced) := by
  refine ⟨sane_start hf, fun x _ z hz => ?_, fun x y ts hmsg _ => absurd hmsg List.not_mem_nil⟩
  rw [node_start, (announcedView_facts config announced).2.2 job] at hz
  exact absurd hz (Finset.notMem_empty z)

variable [Utilization κ] {actions later : List (Action Name κ)}

/-- A run whose releases follow one ranking keeps the invariant. -/
theorem Covered.steps [LinearOrder β] {rank : Name → β} {e : Option (ℕ × ℕ)}
    {net : Network Name κ} (h : Covered members rank job f e net)
    (hruns : Runs members (Follows rank job f) net actions) :
    Covered members rank job f e (net.steps members actions) :=
  runs_induction _ (fun _ _ h hvalid hfollows => covered_step h hvalid hfollows) hruns h

/-- It keeps enough claimants. -/
theorem Covered.kept [LinearOrder β] {rank : Name → β} {e : Option (ℕ × ℕ)}
    {net : Network Name κ} (h : Covered members rank job f e net)
    (hruns : Runs members (Follows rank job f) net later)
    (hcovered : f ≤ (owners members job net).card) :
    f ≤ (owners members job (net.steps members later)).card :=
  (runs_induction (fun net => Covered members rank job f e net ∧ f ≤ (owners members job net).card)
    (fun _ _ h hvalid hfollows =>
      ⟨covered_step h.1 hvalid hfollows, h.1.le_card_owners_step hvalid hfollows h.2⟩)
    hruns ⟨h, hcovered⟩).2

/-- Once enough members claim a job they always will, in every run whose releases
follow one ranking of the nodes. -/
theorem coverage_kept [LinearOrder β] {rank : Name → β}
    (hf : (announcedView config announced).replication job = some f)
    (hruns : Runs members (Follows rank job f) (start config used total announced)
      (actions ++ later))
    (hcovered : f ≤ (owners members job
      ((start config used total announced).steps members actions)).card) :
    f ≤ (owners members job
      ((start config used total announced).steps members (actions ++ later))).card := by
  obtain ⟨hfirst, hlater⟩ := runs_append.mp hruns
  rw [steps_append]
  exact ((covered_start hf).steps hfirst).kept hlater hcovered

/-- Two nodes that have not heard of each other both claim a job, and once they
have one of them releases it. -/
theorem coverage_kept_pair : letI := exactUtilization
    1 ≤ (owners {0, 1} 7 ((pairStart 0 (.job 7 0)).steps {0, 1}
      ([.tick 0 1, .tick 1 1] ++ (exchange 1 ++ [.tick 0 2, .tick 1 2])))).card := by
  let _ := exactUtilization
  have hruns : Runs {0, 1} (Follows (id : ℕ → ℕ) 7 1) (pairStart 0 (.job 7 0))
      ([.tick 0 1, .tick 1 1] ++ (exchange 1 ++ [.tick 0 2, .tick 1 2])) := by
    simp only [exchange, List.cons_append, List.nil_append, Runs, Valid, Follows]
    decide +kernel
  exact coverage_kept (by decide +kernel) hruns (by decide +kernel)

/-! ## Two nodes that count on each other -/

/-- The nodes hear of each other while both are full. -/
def meeting : List (Action ℕ ℚ) := [.tick 0 1, .tick 1 1] ++ exchange 1

/-- Both become empty, claim and hear of it. -/
def claiming : List (Action ℕ ℚ) :=
  [.setCapacityUsed 0 0, .setCapacityUsed 1 0, .tick 0 2, .tick 1 2] ++ exchange 2

/-- Node 0 becomes half full and leaves the job to node 1, which has not heard of
it and leaves the job to node 0. -/
def releasing : List (Action ℕ ℚ) := [.setCapacityUsed 0 500, .tick 0 3, .tick 1 3]

/-- All members are live in all members' views. -/
def AllLive (members : Finset Name) (now : ℕ) (net : Network Name κ) : Prop :=
  ∀ x ∈ members, ∀ y ∈ members, (net.node x).state.isLive y now = true

/-- Two live nodes that both claim a job both release it. -/
theorem coverage_lost : letI := exactUtilization
    Runs {0, 1} (fun net _ => AllLive {0, 1} 3 net)
        ((pairStart 1000 (.job 7 0)).steps {0, 1} meeting) (claiming ++ releasing) ∧
      (owners {0, 1} 7
        ((pairStart 1000 (.job 7 0)).steps {0, 1} (meeting ++ claiming))).card = 2 ∧
      (owners {0, 1} 7
        ((pairStart 1000 (.job 7 0)).steps {0, 1} (meeting ++ claiming ++ releasing))).card = 0 := by
  let _ := exactUtilization
  refine ⟨?_, by decide +kernel, by decide +kernel⟩
  simp only [claiming, exchange, releasing, List.cons_append, List.nil_append, Runs, Valid, AllLive]
  decide +kernel

/-! ## Steady utilisations -/

/-- No node's usage becomes another than it was. -/
def Steady (used : Name → ℕ) (_ : Network Name κ) : Action Name κ → Prop
  | .setCapacityUsed x u => u = used x
  | _ => True

/-- All that is known and said of a node's capacity is what it is. -/
structure Weighed (used total : Name → ℕ) (net : Network Name κ) : Prop where
  /-- A node knows its own. -/
  own : ∀ x, (net.node x).selfId = x ∧ (net.node x).capacityUsed = used x ∧
    (net.node x).capacityTotal = total x
  /-- So does every node that knows it. -/
  heard : ∀ x z st, (net.node x).state.status z = some st →
    st.capacityUsed = used z ∧ st.capacityTotal = total z
  /-- And every node that is told. -/
  coming : ∀ x y z u t epoch, .heartbeat z u t epoch ∈ net.queue x y → u = used z ∧ t = total z

omit [Utilization κ] in
/-- A heartbeat with the right capacity leaves right capacities. -/
theorem weighed_observeHeartbeat {s : ClusterState Name κ} {node : Name} (now : ℕ)
    (h : ∀ z st, s.status z = some st → st.capacityUsed = used z ∧ st.capacityTotal = total z)
    {z : Name} {st : NodeStatus}
    (hst : (s.observeHeartbeat node (used node) (total node) now).status z = some st) :
    st.capacityUsed = used z ∧ st.capacityTotal = total z := by
  rw [ClusterState.status_observeHeartbeat] at hst
  split at hst
  next heq =>
    subst heq
    cases hold : s.status z with
    | none =>
        rw [hold] at hst
        split at hst <;> cases hst <;> exact ⟨rfl, rfl⟩
    | some old =>
        rw [hold] at hst
        split at hst
        · cases hst
          exact ⟨rfl, rfl⟩
        · cases hst
          exact h z old hold
  next => exact h z st hst

omit [Utilization κ] in
theorem weighed_start : Weighed used total (start config used total announced) := by
  refine ⟨fun x => ?_, fun x z st hst => ?_, fun x y z u t epoch h => absurd h List.not_mem_nil⟩
  · rw [node_start]
    exact ⟨rfl, rfl, rfl⟩
  · rw [node_start, (announcedView_facts config announced).2.1 z] at hst
    cases hst

variable (members) in
theorem step_capacity (net : Network Name κ) (action : Action Name κ) (x : Name) :
    ((net.step members action).node x).capacityTotal = (net.node x).capacityTotal ∧
      (((net.step members action).node x).capacityUsed = (net.node x).capacityUsed ∨
        ∃ u, action = .setCapacityUsed x u ∧
          ((net.step members action).node x).capacityUsed = u) := by
  rcases step_node members net action x with hnode | ⟨now, -, hnode⟩ | ⟨used, haction, hnode⟩ |
    ⟨sender, now, msg, -, -, hnode⟩ | ⟨state, -, hnode⟩
  · rw [hnode]
    exact ⟨rfl, .inl rfl⟩
  · rw [hnode]
    exact ⟨rfl, .inl rfl⟩
  · rw [hnode]
    exact ⟨rfl, .inr ⟨used, haction, rfl⟩⟩
  · rw [hnode]
    exact ⟨rfl, .inl rfl⟩
  · rw [hnode]
    exact ⟨rfl, .inl rfl⟩

theorem weighed_step {net : Network Name κ} {action : Action Name κ}
    (h : Weighed used total net) (hvalid : net.Valid members action)
    (hsteady : Steady used net action) : Weighed used total (net.step members action) := by
  have hbeat : ∀ x now z st, ((net.node x).beat now).status z = some st →
      st.capacityUsed = used z ∧ st.capacityTotal = total z := by
    intro x now z st hst
    obtain ⟨hself, hused, htotal⟩ := h.own x
    rw [ClusterNode.beat, hself, hused, htotal] at hst
    exact weighed_observeHeartbeat now (h.heard x) hst
  refine ⟨fun x => ?_, fun x z st hst => ?_, fun x y z u t epoch hmsg => ?_⟩
  · obtain ⟨hself, hused, htotal⟩ := h.own x
    obtain ⟨htotal', hused'⟩ := step_capacity members net action x
    refine ⟨(step_selfId x).trans hself, ?_, htotal'.trans htotal⟩
    rcases hused' with hsame | ⟨u, rfl, hu⟩
    · exact hsame.trans hused
    · exact hu.trans hsteady
  · rcases step_state hvalid x with hagree | ⟨now, -, htick⟩ | ⟨sender, now, msg, -, -, -, hmsg, hobs⟩
    · rw [hagree.status] at hst
      exact h.heard x z st hst
    · rw [htick, ((net.node x).tick_view now).1.status] at hst
      exact hbeat x now z st hst
    · rw [hobs] at hst
      cases msg with
      | heartbeat node u t epoch =>
          obtain ⟨rfl, rfl⟩ := h.coming sender x node u t epoch hmsg
          exact weighed_observeHeartbeat now (h.heard x) hst
      | job target repl erasure =>
          cases erasure with
          | none => exact h.heard x z st hst
          | some kn => exact h.heard x z st hst
      | claim j node ts => exact h.heard x z st hst
      | release j node =>
          rw [ClusterState.observe, ClusterState.status_observeRelease] at hst
          exact h.heard x z st hst
  · rcases step_queue hmsg with hold | ⟨now, -, hnew⟩
    · exact h.coming x y z u t epoch hold
    · rcases ((net.node x).mem_tick_publish now).mp hnew with hm | ⟨j, -, hm⟩ | ⟨j, -, hm⟩
      · obtain ⟨rfl, rfl, rfl, -⟩ := ClusterMsg.heartbeat.inj hm
        obtain ⟨hself, hused, htotal⟩ := h.own x
        rw [hself]
        exact ⟨hused, htotal⟩
      · cases hm
      · cases hm

/-- The ranking by the utilisations as they are, then by name. -/
def steadyRank (used total : Name → ℕ) (x : Name) : κ ×ₗ Name :=
  toLex ((⟨0, used x, total x⟩ : NodeStatus).utilization, x)

omit [LinearOrder Name] in
theorem steadyRank_injective : Function.Injective (steadyRank (κ := κ) used total) :=
  fun _ _ h => congrArg (fun u => (ofLex u).2) h

/-- Views that know what is the case follow the ranking by what is the case. -/
theorem follows_of_weighed {net : Network Name κ} (h : Weighed used total net)
    (action : Action Name κ) : Follows (steadyRank (κ := κ) used total) job f net action := by
  cases action with
  | tick x now =>
      intro _ _ z hz
      obtain ⟨hz, hlt⟩ := mem_ahead.mp hz
      have hview : ∀ y st, ((net.node x).beat now).status y = some st →
          ((net.node x).beat now).key y = steadyRank used total y := by
        intro y st hst
        obtain ⟨hself, hused, htotal⟩ := h.own x
        have hright := hst
        rw [ClusterNode.beat, hself, hused, htotal] at hright
        obtain ⟨hu, ht⟩ := weighed_observeHeartbeat now (h.heard x) hright
        simp [ClusterState.key, steadyRank, hst, NodeStatus.utilization, hu, ht]
      have hx : ∃ st, ((net.node x).beat now).status x = some st := by
        rw [ClusterNode.beat, ClusterState.status_observeHeartbeat, if_pos (h.own x).1.symm]
        exact ⟨_, rfl⟩
      have hzlive := ClusterState.mem_nodes_of_isLive (ClusterState.mem_standing.mp hz).2
      obtain ⟨stz, hstz⟩ := Option.isSome_iff_exists.mp (AList.lookup_isSome.mpr hzlive)
      obtain ⟨stx, hstx⟩ := hx
      rwa [hview z stz hstz, hview x stx hstx] at hlt
  | setCapacityUsed x u => trivial
  | deliver sender receiver now => trivial
  | lose sender receiver => trivial
  | rehash x state => trivial

/-- Coverage is kept in every run in which no utilisation changes. -/
theorem coverage_kept_of_steady
    (hf : (announcedView config announced).replication job = some f)
    (hruns : Runs members (Steady used) (start config used total announced) (actions ++ later))
    (hcovered : f ≤ (owners members job
      ((start config used total announced).steps members actions)).card) :
    f ≤ (owners members job
      ((start config used total announced).steps members (actions ++ later))).card := by
  have hfollows := Runs.imp (Weighed used total) (Follows (steadyRank (κ := κ) used total) job f)
    (fun net action h hvalid hsteady => weighed_step h hvalid hsteady)
    (fun net action h _ _ => follows_of_weighed h action) hruns weighed_start
  obtain ⟨hfirst, hlater⟩ := runs_append.mp hfollows
  rw [steps_append]
  exact ((covered_start hf).steps hfirst).kept hlater hcovered

end Runs

end Network

end NdnRepo.Cluster
