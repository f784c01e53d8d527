import NdnRepo.Cluster.Alike
import NdnRepo.Cluster.Network
import NdnRepo.Lib.Grouping
import NdnRepo.Lib.Steps

/-!
# Messages that are heard late

A node's heartbeats carry its epoch, its claims a time, and its releases neither.  A
peer reads no epoch: it stamps a heartbeat with its own clock, and keeps the one heard
at the latest time.  Nor does it compare times of a claim and a release: it does what
the one heard last says (`known_of_heard`).

So the peer ends with the sender's last word exactly if it hears the last word last, or
another one that says the same (`lastWord_iff`).  Messages heard in the order in which
they were published satisfy this (`inOrder_of_eq`).
-/

namespace NdnRepo.Cluster

open Grouping

variable {Name κ : Type} [LinearOrder Name]

/-- What can happen to a node. -/
inductive NodeEvent (Name : Type) where
  /-- It hears a message. -/
  | observe (msg : ClusterMsg Name) (now : ℕ)
  /-- It is told of a job. -/
  | announce (announcement : Announcement Name)
  /-- The capacity it uses changes. -/
  | setCapacityUsed (used : ℕ)
  /-- It ticks. -/
  | tick (now : ℕ)

/-- What a node publishes at an event, and the node after it. -/
def ClusterNode.step [Utilization κ] (node : ClusterNode Name κ) :
    NodeEvent Name → List (ClusterMsg Name) × ClusterNode Name κ
  | .observe msg now => ([], node.observe msg now)
  | .announce announcement => ([], node.announce announcement)
  | .setCapacityUsed used => ([], node.setCapacityUsed used)
  | .tick now => ((node.tick now).1.publish, (node.tick now).2)

/-- What a node publishes in a run. -/
def ClusterNode.published [Utilization κ] (node : ClusterNode Name κ)
    (events : List (NodeEvent Name)) : List (ClusterMsg Name) :=
  (Steps.outputs ClusterNode.step node events).flatten

/-- The node after a run. -/
def ClusterNode.after [Utilization κ] (node : ClusterNode Name κ)
    (events : List (NodeEvent Name)) : ClusterNode Name κ :=
  Steps.run (fun node event => (ClusterNode.step node event).2) node events

/-- A message of a sender that is heard, and when. -/
def NodeEvent.heardFrom (sender : Name) : NodeEvent Name → Option (ClusterMsg Name × ℕ)
  | .observe msg now => if msg.sender = some sender then some (msg, now) else none
  | _ => none

/-- Whether a message takes a job up or gives it up. -/
def ClusterMsg.takes (job : Name) : ClusterMsg Name → Option Bool
  | .claim other _ _ => if other = job then some true else none
  | .release other _ => if other = job then some false else none
  | _ => none

/-- The epoch of a heartbeat, with the capacity it reports. -/
def ClusterMsg.beat : ClusterMsg Name → Option (ℕ × ℕ × ℕ)
  | .heartbeat _ used total epoch => some (epoch, used, total)
  | _ => none

/-- The time at which a heartbeat is heard, with the capacity it reports. -/
def ClusterMsg.beatAt (m : ClusterMsg Name × ℕ) : Option (ℕ × ℕ × ℕ) :=
  m.1.beat.map fun b => (m.2, b.2)

/-- A run of a node, and one of a peer that hears each message of the first once, in any
order and at any time. -/
structure Exchange (Name κ : Type) [LinearOrder Name] [Utilization κ] where
  /-- The node. -/
  node : Name
  /-- The peer. -/
  peer : Name
  /-- They are different. -/
  peer_ne : peer ≠ node
  /-- The configuration. -/
  config : ClusterConfig κ
  /-- Their capacities. -/
  capacityTotal : Name → ℕ
  /-- What happens to the node. -/
  events : List (NodeEvent Name)
  /-- What happens to the peer. -/
  peerEvents : List (NodeEvent Name)
  /-- The peer hears what the node publishes. -/
  complete : ((peerEvents.filterMap (NodeEvent.heardFrom node)).map Prod.fst).Perm
    ((ClusterNode.new node config (capacityTotal node)).published events)

namespace Exchange

variable [Utilization κ] (e : Exchange Name κ)

/-- What the node publishes. -/
def published : List (ClusterMsg Name) :=
  (ClusterNode.new e.node e.config (e.capacityTotal e.node)).published e.events

/-- What the peer hears of it, and when. -/
def heard : List (ClusterMsg Name × ℕ) := e.peerEvents.filterMap (NodeEvent.heardFrom e.node)

/-- The peer's view in the end. -/
def view : ClusterState Name κ :=
  ((ClusterNode.new e.peer e.config (e.capacityTotal e.peer)).after e.peerEvents).state

/-- The capacity reported in the highest epoch. -/
def lastCapacity : Option (ℕ × ℕ) :=
  (maxByKey Prod.fst (e.published.filterMap ClusterMsg.beat)).map Prod.snd

/-- The capacity reported by the heartbeat that is heard at the latest time. -/
def heardCapacity : Option (ℕ × ℕ) :=
  (maxByKey Prod.fst (e.heard.filterMap ClusterMsg.beatAt)).map Prod.snd

/-- The peer knows the node's last word. -/
structure LastWord : Prop where
  /-- It has the capacity reported in the highest epoch. -/
  capacity : (e.view.known e.node).capacity = e.lastCapacity
  /-- It has the node as a claimant of the jobs it claimed last. -/
  claims : ∀ job, e.node ∈ e.view.claimants job ↔
    lastSome (ClusterMsg.takes job) e.published = some true

/-- What is heard last says the same as what was published last. -/
structure InOrder : Prop where
  /-- The heartbeat heard at the latest time reports the capacity of the highest epoch. -/
  capacity : e.heardCapacity = e.lastCapacity
  /-- A job's claim or release heard last is of the kind published last. -/
  claims : ∀ job, lastSome (ClusterMsg.takes job) (e.heard.map Prod.fst) =
    lastSome (ClusterMsg.takes job) e.published

end Exchange

/-! ## What a peer knows of a sender -/

namespace Knowledge

/-- What is known of a node of which some messages were heard, each at its time. -/
def ofHeard (heard : List (ClusterMsg Name × ℕ)) : Knowledge Name :=
  heard.foldl (fun k m => k.hear m.1 m.2) ⟨none, fun _ => none⟩

omit [LinearOrder Name] in
theorem filterMap_beatAt_concat (heard : List (ClusterMsg Name × ℕ)) (msg : ClusterMsg Name)
    (now : ℕ) : (heard ++ [(msg, now)]).filterMap ClusterMsg.beatAt =
      heard.filterMap ClusterMsg.beatAt ++ (msg.beat.map fun b => (now, b.2)).toList := by
  rw [List.filterMap_append]
  cases msg <;> rfl

/-- A heartbeat replaces the one heard at the latest time, unless it is heard earlier.  Other
messages replace none. -/
theorem status_hear {k : Knowledge Name} {beats : List (ℕ × ℕ × ℕ)}
    (h : k.status = (maxByKey Prod.fst beats).map (fun b => ⟨b.1, b.2.1, b.2.2⟩))
    (msg : ClusterMsg Name) (now : ℕ) : (k.hear msg now).status =
      (maxByKey Prod.fst (beats ++ (msg.beat.map fun b => (now, b.2)).toList)).map
        (fun b => ⟨b.1, b.2.1, b.2.2⟩) := by
  cases msg with
  | heartbeat from' used total epoch =>
      have hbeat : ((ClusterMsg.heartbeat from' used total epoch).beat.map fun b =>
          (now, b.2)).toList = [(now, used, total)] := rfl
      rw [hbeat, maxByKey_concat, hear, h]
      cases maxByKey Prod.fst beats with
      | none => simp
      | some b =>
          by_cases hlt : now < b.1
          · simp [hlt]
          · simp [hlt, not_lt.mp hlt]
  | job | claim | release => simpa [ClusterMsg.beat, hear] using h

/-- A claim takes a job up and a release gives it up.  Other messages leave it. -/
theorem isSome_claims_hear (k : Knowledge Name) (msg : ClusterMsg Name) (now : ℕ) (job : Name) :
    ((k.hear msg now).claims job).isSome = (msg.takes job).getD (k.claims job).isSome := by
  cases msg with
  | heartbeat | job => rfl
  | claim other from' ts =>
      by_cases hjob : job = other
      · simp [hear, ClusterMsg.takes, hjob]
      · simp [hear, ClusterMsg.takes, hjob, Ne.symm hjob]
  | release other from' =>
      by_cases hjob : job = other
      · simp [hear, ClusterMsg.takes, hjob]
      · simp [hear, ClusterMsg.takes, hjob, Ne.symm hjob]

/-- The status is that of the heartbeat heard at the latest time, and the jobs claimed are
those whose claim was heard after every release. -/
theorem known_of_heard (heard : List (ClusterMsg Name × ℕ)) :
    (ofHeard heard).status =
        (maxByKey Prod.fst (heard.filterMap ClusterMsg.beatAt)).map
          (fun b => ⟨b.1, b.2.1, b.2.2⟩) ∧
      ∀ job, ((ofHeard heard).claims job).isSome ↔
        lastSome (ClusterMsg.takes job) (heard.map Prod.fst) = some true := by
  induction heard using List.reverseRecOn with
  | nil => exact ⟨rfl, fun job => by simp [ofHeard]⟩
  | append_singleton heard m ih =>
      obtain ⟨hstatus, hclaims⟩ := ih
      obtain ⟨msg, now⟩ := m
      have hlast : ofHeard (heard ++ [(msg, now)]) = (ofHeard heard).hear msg now :=
        List.foldl_append
      rw [hlast, filterMap_beatAt_concat, List.map_append]
      refine ⟨status_hear hstatus msg now, fun job => ?_⟩
      rw [isSome_claims_hear, List.map_singleton, lastSome_concat]
      cases msg.takes job with
      | none => exact hclaims job
      | some taken => simp

end Knowledge

namespace ClusterNode

variable [Utilization κ]

theorem selfId_step (node : ClusterNode Name κ) (event : NodeEvent Name) :
    (node.step event).2.selfId = node.selfId := by
  cases event with
  | observe msg now => rfl
  | announce announcement => cases announcement <;> rfl
  | setCapacityUsed used => rfl
  | tick now => rfl

/-- What a node knows of another changes by the other's messages only. -/
theorem known_step (node : ClusterNode Name κ) {z : Name} (hz : z ≠ node.selfId)
    (event : NodeEvent Name) : (node.step event).2.state.known z =
      (event.heardFrom z).elim (node.state.known z) fun m => (node.state.known z).hear m.1 m.2 := by
  cases event with
  | observe msg now =>
      rw [NodeEvent.heardFrom]
      split
      next h => exact node.state.known_observe_of_sender h now
      next h => exact node.state.known_observe_of_ne h now
  | announce announcement =>
      cases announcement with
      | job target repl => exact node.state.known_observeJob target repl z
      | erasureJob target k redundancy =>
          exact node.state.known_observeErasureJob target k redundancy z
  | setCapacityUsed used => rfl
  | tick now =>
      have hnone : (node.tick now).1.publish.filter (fun msg => msg.sender = some z) = [] := by
        refine List.filter_eq_nil_iff.mpr fun msg hmsg => ?_
        rw [node.sender_of_mem_publish now hmsg]
        simpa using Ne.symm hz
      change (node.tick now).2.state.known z = node.state.known z
      rw [tick_state, ClusterState.known_foldl, hnone]
      rfl

/-- So after a run it is what the other's messages say, in the order heard. -/
theorem known_after {z : Name} : ∀ (events : List (NodeEvent Name)) (node : ClusterNode Name κ),
    z ≠ node.selfId → (node.after events).state.known z =
      (events.filterMap (NodeEvent.heardFrom z)).foldl (fun k m => k.hear m.1 m.2)
        (node.state.known z)
  | [], _, _ => rfl
  | event :: events, node, hz => by
      have ih := known_after events (node.step event).2 (node.selfId_step event ▸ hz)
      have hstep := node.known_step hz event
      rw [after, Steps.run_cons]
      refine ih.trans ?_
      rw [hstep]
      cases h : event.heardFrom z with
      | none => rw [List.filterMap_cons_none h, Option.elim_none]
      | some m => rw [List.filterMap_cons_some h, Option.elim_some, List.foldl_cons]

end ClusterNode

namespace Exchange

variable [Utilization κ] (e : Exchange Name κ)

/-- What the peer knows of the node. -/
theorem known_view : (e.view.known e.node) = Knowledge.ofHeard e.heard :=
  ClusterNode.known_after e.peerEvents _ e.peer_ne.symm

/-- The peer ends with the node's last word exactly if what it hears last says the same. -/
theorem lastWord_iff : e.LastWord ↔ e.InOrder := by
  obtain ⟨hstatus, hclaims⟩ := Knowledge.known_of_heard e.heard
  have hcapacity : (e.view.known e.node).capacity = e.heardCapacity := by
    rw [e.known_view, Knowledge.capacity, hstatus, Option.map_map]
    rfl
  have hclaimed : ∀ job, e.node ∈ e.view.claimants job ↔
      lastSome (ClusterMsg.takes job) (e.heard.map Prod.fst) = some true := by
    intro job
    rw [ClusterState.mem_claimants_iff, ← hclaims, ← e.known_view]
    rfl
  -- The same jobs are spoken of, so a last word that is no claim is a release.
  have hsame : ∀ job, (lastSome (ClusterMsg.takes job) (e.heard.map Prod.fst)).isSome =
      (lastSome (ClusterMsg.takes job) e.published).isSome :=
    fun job => isSome_lastSome_of_perm e.complete
  constructor
  · rintro ⟨hcap, hjobs⟩
    refine ⟨hcapacity ▸ hcap, fun job => ?_⟩
    have hiff := (hclaimed job).symm.trans (hjobs job)
    have hboth := hsame job
    revert hiff hboth
    generalize lastSome (ClusterMsg.takes job) (e.heard.map Prod.fst) = x
    generalize lastSome (ClusterMsg.takes job) e.published = y
    revert x y
    decide
  · rintro ⟨hcap, hjobs⟩
    exact ⟨hcapacity.trans hcap, fun job => by rw [hclaimed, hjobs]⟩

/-! ## Messages in order -/

end Exchange

namespace ClusterNode

variable [Utilization κ]

/-- A tick publishes one heartbeat, of the next epoch.  Other events publish none. -/
theorem beats_step (node : ClusterNode Name κ) (event : NodeEvent Name) :
    (node.step event).1.filterMap ClusterMsg.beat = [] ∧
        (node.step event).2.epoch = node.epoch ∨
      (∃ capacity, (node.step event).1.filterMap ClusterMsg.beat = [(node.epoch + 1, capacity)]) ∧
        (node.step event).2.epoch = node.epoch + 1 := by
  cases event with
  | observe msg now => exact .inl ⟨rfl, rfl⟩
  | announce announcement => cases announcement <;> exact .inl ⟨rfl, rfl⟩
  | setCapacityUsed used => exact .inl ⟨rfl, rfl⟩
  | tick now =>
      refine .inr ⟨⟨(node.capacityUsed, node.capacityTotal), ?_⟩, rfl⟩
      simp [step, tick, ClusterMsg.beat, List.filterMap_append, List.filterMap_map,
        Function.comp_def]

/-- The epochs published increase. -/
theorem epochs_published : ∀ (events : List (NodeEvent Name)) (node : ClusterNode Name κ),
    let epochs := ((node.published events).filterMap ClusterMsg.beat).map Prod.fst
    epochs.Pairwise (· < ·) ∧ ∀ epoch ∈ epochs, node.epoch < epoch
  | [], _ => ⟨.nil, nofun⟩
  | event :: events, node => by
      obtain ⟨hsorted, hlater⟩ := epochs_published events (node.step event).2
      have hpublished : node.published (event :: events) =
          (node.step event).1 ++ (node.step event).2.published events := rfl
      rw [hpublished, List.filterMap_append, List.map_append]
      rcases node.beats_step event with ⟨hnone, hepoch⟩ | ⟨⟨capacity, hone⟩, hepoch⟩
      · rw [hnone]
        exact ⟨hsorted, fun epoch h => hepoch ▸ hlater epoch h⟩
      · rw [hone]
        rw [hepoch] at hlater
        refine ⟨List.pairwise_cons.mpr ⟨hlater, hsorted⟩, fun epoch h => ?_⟩
        rcases List.mem_cons.mp h with rfl | h
        · exact Nat.lt_succ_self _
        · exact (Nat.lt_succ_self _).trans (hlater epoch h)

end ClusterNode

omit [LinearOrder Name] in
/-- Heartbeats are heard at times of messages, with the capacities they report. -/
theorem beatAt_heard (heard : List (ClusterMsg Name × ℕ)) :
    ((heard.filterMap ClusterMsg.beatAt).map Prod.fst).Sublist (heard.map Prod.snd) ∧
      (heard.filterMap ClusterMsg.beatAt).map Prod.snd =
        ((heard.map Prod.fst).filterMap ClusterMsg.beat).map Prod.snd := by
  induction heard with
  | nil => exact ⟨.slnil, rfl⟩
  | cons m heard ih =>
      obtain ⟨htimes, hcapacities⟩ := ih
      cases hbeat : m.1.beat with
      | none =>
          have hnone : ClusterMsg.beatAt m = none := by
            rw [ClusterMsg.beatAt, hbeat]
            rfl
          rw [List.filterMap_cons_none hnone, List.map_cons, List.map_cons,
            List.filterMap_cons_none hbeat]
          exact ⟨htimes.cons _, hcapacities⟩
      | some b =>
          have hsome : ClusterMsg.beatAt m = some (m.2, b.2) := by
            rw [ClusterMsg.beatAt, hbeat]
            rfl
          rw [List.filterMap_cons_some hsome, List.map_cons, List.map_cons, List.map_cons,
            List.map_cons, List.filterMap_cons_some hbeat, List.map_cons, hcapacities]
          exact ⟨htimes.cons_cons _, rfl⟩

namespace Exchange

variable [Utilization κ] (e : Exchange Name κ)

/-- Messages heard as they were published, by a clock that does not go back, are in order. -/
theorem inOrder_of_eq (hsame : e.heard.map Prod.fst = e.published)
    (hclock : (e.heard.map Prod.snd).Pairwise (· ≤ ·)) : e.InOrder := by
  refine ⟨?_, fun job => by rw [hsame]⟩
  have hepochs : ((e.published.filterMap ClusterMsg.beat).map Prod.fst).Pairwise (· < ·) :=
    (ClusterNode.epochs_published e.events _).1
  obtain ⟨htimes, hcapacities⟩ := beatAt_heard e.heard
  rw [heardCapacity, lastCapacity, maxByKey_of_pairwise (hclock.sublist htimes),
    maxByKey_of_pairwise (hepochs.imp le_of_lt), ← List.getLast?_map, ← List.getLast?_map,
    hcapacities, hsame]

end Exchange

/-! ## A late claim -/

/-- Node 0 claims a job and releases it, and uses more capacity.  Node 1 hears the
second tick's messages first. -/
def lateExchange : letI := Network.exactUtilization; Exchange ℕ ℚ :=
  letI := Network.exactUtilization
  { node := 0
    peer := 1
    peer_ne := by decide
    config := ⟨1, 5000000000, 3, 3 / 4⟩
    capacityTotal := fun _ => 1000
    events := [.announce (.job 7 0), .tick 1, .observe (.heartbeat 1 0 1000 1) 2,
      .observe (.claim 7 1 2) 2, .setCapacityUsed 500, .tick 3]
    peerEvents := [.tick 2, .observe (.heartbeat 0 500 1000 2) 4, .observe (.release 7 0) 4,
      .observe (.heartbeat 0 0 1000 1) 5, .observe (.claim 7 0 1) 5]
    complete := by decide +kernel }

theorem late_not_lastWord : letI := Network.exactUtilization
    lateExchange.lastCapacity = some (500, 1000) ∧
      (lateExchange.view.known 0).capacity = some (0, 1000) ∧
      lastSome (ClusterMsg.takes 7) lateExchange.published = some false ∧
      0 ∈ lateExchange.view.claimants 7 ∧ ¬lateExchange.LastWord := by
  let _ := Network.exactUtilization
  have hlast : lateExchange.lastCapacity = some (500, 1000) := by decide +kernel
  have hview : (lateExchange.view.known 0).capacity = some (0, 1000) := by decide +kernel
  refine ⟨hlast, hview, by decide +kernel, by decide +kernel, fun h => ?_⟩
  have heq : (lateExchange.view.known 0).capacity = lateExchange.lastCapacity := h.capacity
  rw [hlast, hview] at heq
  exact absurd heq (by decide)

end NdnRepo.Cluster
