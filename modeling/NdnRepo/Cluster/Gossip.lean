import NdnRepo.Cluster.Alike
import NdnRepo.Cluster.Network

/-!
# Announcements in a run

A gossip run is a run of the network in which jobs are announced at any nodes at any
time, and in which each node's clock does not go back.  It records what each node was
told and which messages it applied, its own at its ticks included.

What a node knows of another is decided by the messages of that one it applied
(`Logged.known`), and its job parameters by what it was told itself
(`Logged.spec_eq`).  So nodes that were told the same and applied the same streams
decide alike (`decide_alike`), but claims do not carry a job's parameters.
-/

namespace NdnRepo.Cluster

open Network

variable {Name κ : Type} [LinearOrder Name]

/-- A network with what its nodes were told and heard. -/
structure Gossip (Name κ : Type) where
  /-- The network. -/
  net : Network Name κ
  /-- The announcements made at a node. -/
  told : Name → List (Announcement Name)
  /-- The messages a node applied, the latest last. -/
  heard : Name → List (ClusterMsg Name)
  /-- When a node last applied messages. -/
  clock : Name → ℕ

namespace Gossip

/-- What can happen next. -/
inductive Event (Name κ : Type) where
  /-- The network does something. -/
  | act (action : Action Name κ)
  /-- A job is announced at a node. -/
  | announce (x : Name) (announcement : Announcement Name)

/-- Nodes that were told nothing. -/
def start (config : ClusterConfig κ) (used total : Name → ℕ) : Gossip Name κ :=
  ⟨Network.start config used total [], fun _ => [], fun _ => [], fun _ => 0⟩

section Steps

variable [Utilization κ] (members : Finset Name) (g : Gossip Name κ)

/-- The messages a node applies. -/
def applied : Action Name κ → Name → List (ClusterMsg Name)
  | .tick x now, y => if y = x then ((g.net.node x).tick now).1.publish else []
  | .deliver sender receiver _, y =>
      if y = receiver then (g.net.queue sender receiver).take 1 else []
  | _, _ => []

/-- The node whose clock an action reads, and what it shows. -/
def reads : Action Name κ → Option (Name × ℕ)
  | .tick x now => some (x, now)
  | .deliver _ receiver now => some (receiver, now)
  | _ => none

/-- The gossip after an event. -/
def step : Event Name κ → Gossip Name κ
  | .act action =>
      { net := g.net.step members action
        told := g.told
        heard := fun y => g.heard y ++ g.applied action y
        clock := match reads action with
          | some (x, now) => Function.update g.clock x now
          | none => g.clock }
  | .announce x announcement =>
      { g with
        net := { g.net with
          node := Function.update g.net.node x ((g.net.node x).announce announcement) }
        told := Function.update g.told x (g.told x ++ [announcement]) }

/-- The gossip after a run. -/
def steps (g : Gossip Name κ) (events : List (Event Name κ)) : Gossip Name κ :=
  events.foldl (step members) g

omit [Utilization κ] in
/-- Members act and are told, no clock goes back, and a rehash keeps the maps. -/
def Valid : Event Name κ → Prop
  | .act (.tick x now) => x ∈ members ∧ g.clock x ≤ now
  | .act (.deliver sender receiver now) =>
      (sender ∈ members ∧ receiver ∈ members ∧ sender ≠ receiver) ∧ g.clock receiver ≤ now
  | .act (.setCapacityUsed x _) => x ∈ members
  | .act (.lose _ _) => True
  | .act (.rehash x state) => x ∈ members ∧ state.Same (g.net.node x).state
  | .announce x _ => x ∈ members

/-- Every event of a run is valid where it happens. -/
def Runs : Gossip Name κ → List (Event Name κ) → Prop
  | _, [] => True
  | g, event :: events => g.Valid members event ∧ Runs (g.step members event) events

end Steps

/-! ## What a node has recorded -/

/-- What is known of a node from its messages alone, if they are heard at time 0. -/
def recount (msgs : List (ClusterMsg Name)) : Knowledge Name :=
  msgs.foldl (fun k msg => k.hear msg 0) ⟨none, fun _ => none⟩

/-- The messages of one node. -/
def stream (msgs : List (ClusterMsg Name)) (z : Name) : List (ClusterMsg Name) :=
  msgs.filter fun msg => msg.sender = some z

/-- What a view is made of: what its node was told and heard up to some time. -/
structure Recorded (config : ClusterConfig κ) (told : List (Announcement Name))
    (heard : List (ClusterMsg Name)) (clock : ℕ) (s : ClusterState Name κ) : Prop where
  /-- All messages are from some node. -/
  sent : ∀ msg ∈ heard, ∃ z, msg.sender = some z
  /-- The configuration is kept. -/
  configured : s.config = config
  /-- What is known of a node is decided by its messages. -/
  known : ∀ z, (s.known z).Alike (recount (stream heard z))
  /-- No node was heard of later. -/
  past : ∀ z st, s.status z = some st → st.lastHeartbeatNs ≤ clock
  /-- A job's parameters are those announced, or the default ones. -/
  spec_eq : ∀ job, (s.spec job).getD (0, none) =
    ((announcedView config told).spec job).getD (0, none)
  /-- A job is known if it was announced or claimed. -/
  spec_isSome : ∀ job, (s.spec job).isSome ↔ ((announcedView config told).spec job).isSome ∨
    ∃ node ts, .claim job node ts ∈ heard

section Recorded

variable {config : ClusterConfig κ} {told : List (Announcement Name)}
variable {heard : List (ClusterMsg Name)} {clock now : ℕ} {s : ClusterState Name κ}

/-- A message is not heard of later than now. -/
theorem last_hear {k : Knowledge Name} (hk : ∀ st, k.status = some st → st.lastHeartbeatNs ≤ now)
    (msg : ClusterMsg Name) :
    ∀ st, (k.hear msg now).status = some st → st.lastHeartbeatNs ≤ now := by
  intro st hst
  cases msg with
  | heartbeat node used total epoch =>
      simp only [Knowledge.hear, Option.some.injEq] at hst
      split at hst
      next => rw [← hst]
      next hlate =>
        cases hstatus : k.status with
        | none => simp [hstatus] at hlate
        | some old => simp [hstatus, hk old hstatus] at hlate
  | job target repl erasure => exact hk st hst
  | claim job node ts => exact hk st hst
  | release job node => exact hk st hst

theorem last_recount : ∀ (msgs : List (ClusterMsg Name)) {k : Knowledge Name},
    (∀ st, k.status = some st → st.lastHeartbeatNs ≤ 0) →
      ∀ st, (msgs.foldl (fun k msg => k.hear msg 0) k).status = some st →
        st.lastHeartbeatNs ≤ 0
  | [], _, hk => hk
  | msg :: msgs, _, hk => last_recount msgs (last_hear hk msg)

/-- What is recorded of a node changes alike by a message, whenever it is heard. -/
theorem hear_alike {k k' : Knowledge Name} {now' : ℕ} (h : k.Alike k')
    (hpast : ∀ st, k.status = some st → st.lastHeartbeatNs ≤ now)
    (hpast' : ∀ st, k'.status = some st → st.lastHeartbeatNs ≤ now') (msg : ClusterMsg Name) :
    (k.hear msg now).Alike (k'.hear msg now') := by
  cases msg with
  | heartbeat node used total epoch =>
      have hnew : ∀ {k : Knowledge Name} {t : ℕ},
          (∀ st, k.status = some st → st.lastHeartbeatNs ≤ t) →
            (k.hear (.heartbeat node used total epoch) t).capacity = some (used, total) := by
        intro k t hp
        cases hst : k.status with
        | none => simp [Knowledge.capacity, Knowledge.hear, hst]
        | some st => simp [Knowledge.capacity, Knowledge.hear, hst, hp st hst]
      exact ⟨(hnew hpast).trans (hnew hpast').symm, h.claims⟩
  | job target repl erasure => exact h
  | claim job node ts =>
      refine ⟨h.capacity, ?_⟩
      simp only [Knowledge.hear, h.claims]
  | release job node =>
      refine ⟨h.capacity, ?_⟩
      simp only [Knowledge.hear, h.claims]

theorem recorded_new : Recorded config [] [] 0 (.new config : ClusterState Name κ) := by
  refine ⟨fun _ h => absurd h List.not_mem_nil, rfl, fun z => ⟨rfl, rfl⟩, fun z st h => ?_,
    fun job => rfl, fun job => ?_⟩
  · cases h
  · simp [announcedView]

theorem Recorded.later (h : Recorded config told heard clock s) (hnow : clock ≤ now) :
    Recorded config told heard now s :=
  ⟨h.sent, h.configured, h.known, fun z st hst => (h.past z st hst).trans hnow, h.spec_eq,
    h.spec_isSome⟩

theorem Recorded.same {s' : ClusterState Name κ} (h : Recorded config told heard clock s)
    (hsame : s'.Same s) : Recorded config told heard clock s' := by
  refine ⟨h.sent, hsame.config.trans h.configured, fun z => ?_, fun z st hst => ?_, fun job => ?_,
    fun job => ?_⟩
  · rw [hsame.known]
    exact h.known z
  · have hstatus := congrArg Knowledge.status (congrFun hsame.known z)
    exact h.past z st (hstatus.symm.trans hst)
  · rw [hsame.spec]
    exact h.spec_eq job
  · rw [hsame.spec]
    exact h.spec_isSome job

theorem Recorded.announce (h : Recorded config told heard clock s)
    (announcement : Announcement Name) :
    Recorded config (told ++ [announcement]) heard clock (s.announce announcement) := by
  have htold : announcedView config (told ++ [announcement]) =
      (announcedView config told).announce announcement := List.foldl_append
  cases announcement with
  | job target repl =>
      refine ⟨h.sent, h.configured, fun z => ?_, h.past, fun job => ?_, fun job => ?_⟩
      · rw [ClusterState.announce, ClusterState.known_observeJob]
        exact h.known z
      · simp only [htold, ClusterState.announce, ClusterState.spec_observeJob]
        split
        · simp only [Option.getD_some, h.spec_eq job]
        · exact h.spec_eq job
      · simp only [htold, ClusterState.announce, ClusterState.spec_observeJob]
        split
        · simp
        · exact h.spec_isSome job
  | erasureJob target k redundancy =>
      refine ⟨h.sent, h.configured, fun z => ?_, h.past, fun job => ?_, fun job => ?_⟩
      · rw [ClusterState.announce, ClusterState.known_observeErasureJob]
        exact h.known z
      · simp only [htold, ClusterState.announce, ClusterState.spec_observeErasureJob]
        split
        · simp only [Option.getD_some, h.spec_eq job]
        · exact h.spec_eq job
      · simp only [htold, ClusterState.announce, ClusterState.spec_observeErasureJob]
        split
        · simp
        · exact h.spec_isSome job

theorem Recorded.observe (h : Recorded config told heard clock s) {msg : ClusterMsg Name} {z : Name}
    (hsender : msg.sender = some z) (hnow : clock ≤ now) :
    Recorded config told (heard ++ [msg]) now (s.observe msg now) := by
  refine ⟨fun m hm => ?_, ?_, fun w => ?_, fun w st hst => ?_, fun job => ?_, fun job => ?_⟩
  · rcases List.mem_append.mp hm with hm | hm
    · exact h.sent m hm
    · exact ⟨z, (List.mem_singleton.mp hm) ▸ hsender⟩
  · rw [ClusterState.config_observe, h.configured]
  · have hpast : ∀ st, (s.known w).status = some st → st.lastHeartbeatNs ≤ now :=
      fun st hst => (h.past w st hst).trans hnow
    have hzero : ∀ st, (recount (stream heard w)).status = some st → st.lastHeartbeatNs ≤ 0 :=
      last_recount _ fun _ h => by cases h
    by_cases hw : msg.sender = some w
    · have hstream : stream (heard ++ [msg]) w = stream heard w ++ [msg] := by
        simp [stream, hw]
      rw [ClusterState.known_observe_of_sender s hw, hstream, recount, List.foldl_append]
      exact hear_alike (h.known w) hpast hzero msg
    · have hstream : stream (heard ++ [msg]) w = stream heard w := by
        simp [stream, hw]
      rw [ClusterState.known_observe_of_ne s hw, hstream]
      exact h.known w
  · have hpast := fun st hst => (h.past w st hst).trans hnow
    by_cases hw : msg.sender = some w
    · have hstatus := congrArg Knowledge.status (ClusterState.known_observe_of_sender s hw now)
      exact last_hear hpast msg st (hstatus.symm.trans hst)
    · have hstatus := congrArg Knowledge.status (ClusterState.known_observe_of_ne s hw now)
      exact hpast st (hstatus.symm.trans hst)
  · rw [← h.spec_eq job]
    cases msg with
    | heartbeat node used total epoch => rfl
    | job target repl erasure => cases hsender
    | claim other node ts =>
        rw [ClusterState.observe, ClusterState.spec_observeClaim]
        split <;> rfl
    | release other node => rw [ClusterState.observe, ClusterState.spec_observeRelease]
  · simp only [List.mem_append, List.mem_singleton, exists_or, ← or_assoc, ← h.spec_isSome job]
    cases msg with
    | heartbeat node used total epoch => simp [ClusterState.observe, ClusterState.spec]
    | job target repl erasure => cases hsender
    | claim other node ts =>
        rw [ClusterState.observe, ClusterState.spec_observeClaim]
        split
        next heq => simp [heq]
        next hne => simp [hne]
    | release other node => simp [ClusterState.observe, ClusterState.spec_observeRelease]

theorem Recorded.foldl :
    ∀ {msgs heard : List (ClusterMsg Name)} {clock : ℕ} {s : ClusterState Name κ},
      Recorded config told heard clock s → clock ≤ now → (∀ msg ∈ msgs, ∃ z, msg.sender = some z) →
        Recorded config told (heard ++ msgs) now (msgs.foldl (fun s msg => s.observe msg now) s)
  | [], _, _, _, h, hnow, _ => by
      rw [List.append_nil]
      exact h.later hnow
  | msg :: msgs, heard, _, s, h, hnow, hsent => by
      obtain ⟨z, hz⟩ := hsent msg (List.mem_cons_self ..)
      have hrest := fun m hm => hsent m (List.mem_cons_of_mem _ hm)
      have ih := Recorded.foldl (h.observe hz hnow) le_rfl hrest
      rwa [List.append_assoc, List.singleton_append] at ih

/-- Views of nodes that were told the same and heard the same of each node. -/
theorem Recorded.alike {heard' : List (ClusterMsg Name)} {clock' : ℕ} {s' : ClusterState Name κ}
    (h : Recorded config told heard clock s) (h' : Recorded config told heard' clock' s')
    (hstreams : ∀ z, stream heard z = stream heard' z) : s.Alike s' := by
  have hheard : ∀ msg, msg ∈ heard ↔ msg ∈ heard' := by
    have hone : ∀ {l l' : List (ClusterMsg Name)}, (∀ msg ∈ l, ∃ z, msg.sender = some z) →
        (∀ z, stream l z = stream l' z) → ∀ msg ∈ l, msg ∈ l' := by
      intro l l' hsent heq msg hmsg
      obtain ⟨z, hz⟩ := hsent msg hmsg
      have hin : msg ∈ stream l z := List.mem_filter.mpr ⟨hmsg, by simp [hz]⟩
      rw [heq z] at hin
      exact (List.mem_filter.mp hin).1
    exact fun msg => ⟨hone h.sent hstreams msg, hone h'.sent (fun z => (hstreams z).symm) msg⟩
  refine ⟨h.configured.trans h'.configured.symm, fun z => ?_, funext fun job => ?_⟩
  · have hleft := h.known z
    have hright := h'.known z
    rw [hstreams z] at hleft
    exact ⟨hleft.capacity.trans hright.capacity.symm, hleft.claims.trans hright.claims.symm⟩
  · have hvalue := (h.spec_eq job).trans (h'.spec_eq job).symm
    have hsome : (s.spec job).isSome ↔ (s'.spec job).isSome := by
      rw [h.spec_isSome, h'.spec_isSome]
      simp only [hheard]
    cases hs : s.spec job with
    | none =>
        cases hs' : s'.spec job with
        | none => rfl
        | some sp' => simp [hs, hs'] at hsome
    | some sp =>
        cases hs' : s'.spec job with
        | none => simp [hs, hs'] at hsome
        | some sp' =>
            rw [hs, hs'] at hvalue
            exact congrArg some hvalue

end Recorded

/-! ## Runs -/

/-- Every view is made of what its node was told and heard. -/
structure Logged (config : ClusterConfig κ) (g : Gossip Name κ) : Prop where
  /-- A node has its own name. -/
  self : ∀ x, (g.net.node x).selfId = x
  /-- A message on its way is from its sender. -/
  sender : ∀ x y, ∀ msg ∈ g.net.queue x y, msg.sender = some x
  /-- A view is made of what its node was told and heard. -/
  recorded : ∀ x, Recorded config (g.told x) (g.heard x) (g.clock x) (g.net.node x).state

section Runs

variable {config : ClusterConfig κ} {used total : Name → ℕ}

theorem logged_start : Logged config (start config used total : Gossip Name κ) := by
  refine ⟨fun x => rfl, fun _ _ _ h => absurd h List.not_mem_nil, fun x => ?_⟩
  exact recorded_new

variable [Utilization κ] {members : Finset Name} {g : Gossip Name κ} {event : Event Name κ}

theorem recorded_act {action : Action Name κ} (h : Logged config g)
    (hvalid : g.Valid members (.act action)) (y : Name) :
    Recorded config (g.told y) ((g.step members (.act action)).heard y)
      ((g.step members (.act action)).clock y)
      ((g.step members (.act action)).net.node y).state := by
  have hold := h.recorded y
  cases action with
  | tick x now =>
      rcases eq_or_ne y x with rfl | hy
      · have hnow : g.clock y ≤ now := hvalid.2
        have hsent : ∀ msg ∈ ((g.net.node y).tick now).1.publish, ∃ z, msg.sender = some z :=
          fun msg hmsg => ⟨_, ClusterNode.sender_of_mem_publish _ _ hmsg⟩
        simp only [step, reads, applied, if_pos, Function.update_self, Network.step, Network.tick]
        rw [ClusterNode.tick_state]
        exact hold.foldl hnow hsent
      · simp only [step, reads, applied, if_neg hy, List.append_nil, Function.update_of_ne hy,
          Network.step, Network.tick]
        exact hold
  | setCapacityUsed x used =>
      simp only [step, reads, applied, List.append_nil, Network.step]
      rcases eq_or_ne y x with rfl | hy
      · rw [Function.update_self]
        exact hold
      · rw [Function.update_of_ne hy]
        exact hold
  | deliver sender receiver now =>
      simp only [step, reads, applied, Network.step, Network.deliver]
      rcases eq_or_ne y receiver with rfl | hy
      · have hnow : g.clock y ≤ now := hvalid.2
        rw [if_pos rfl, Function.update_self]
        cases hqueue : g.net.queue sender y with
        | nil =>
            rw [List.take_nil, List.append_nil]
            exact hold.later hnow
        | cons msg rest =>
            simp only [Function.update_self]
            exact hold.observe (h.sender sender y msg (hqueue ▸ List.mem_cons_self ..)) hnow
      · rw [if_neg hy, List.append_nil, Function.update_of_ne hy]
        cases hqueue : g.net.queue sender receiver with
        | nil => exact hold
        | cons msg rest =>
            simp only [Function.update_of_ne hy]
            exact hold
  | lose sender receiver =>
      simp only [step, reads, applied, List.append_nil, Network.step, Network.lose]
      exact hold
  | rehash x state =>
      simp only [step, reads, applied, List.append_nil, Network.step]
      rcases eq_or_ne y x with rfl | hy
      · rw [Function.update_self]
        exact hold.same hvalid.2
      · rw [Function.update_of_ne hy]
        exact hold

theorem logged_step (h : Logged config g) (hvalid : g.Valid members event) :
    Logged config (g.step members event) := by
  cases event with
  | act action =>
      refine ⟨fun x => (step_selfId x).trans (h.self x), fun x y msg hmsg => ?_,
        recorded_act h hvalid⟩
      rcases step_queue hmsg with hold | ⟨now, -, hnew⟩
      · exact h.sender x y msg hold
      · rw [ClusterNode.sender_of_mem_publish _ _ hnew, h.self x]
  | announce x announcement =>
      refine ⟨fun y => ?_, h.sender, fun y => ?_⟩
      · rcases eq_or_ne y x with rfl | hy
        · simp only [step, Function.update_self]
          cases announcement <;> exact h.self y
        · simp only [step, Function.update_of_ne hy]
          exact h.self y
      · rcases eq_or_ne y x with rfl | hy
        · simp only [step, Function.update_self]
          have hnew := (h.recorded y).announce announcement
          cases announcement <;> exact hnew
        · simp only [step, Function.update_of_ne hy]
          exact h.recorded y

theorem logged_steps :
    ∀ {events : List (Event Name κ)} {g : Gossip Name κ}, Runs members g events →
      Logged config g → Logged config (g.steps members events)
  | [], _, _, h => h
  | event :: _, g, ⟨hvalid, hruns⟩, h => by
      have ih := logged_steps hruns (logged_step h hvalid)
      exact ih

/-! ## Nodes that have seen the same -/

variable {events : List (Event Name κ)}

/-- Nodes that were told the same and applied the same messages of each node, in any
interleaving and at any times, have recorded the same, and decide alike whenever
they judge the same nodes live. -/
theorem decide_alike (hruns : Runs members (start config used total) events) {x y : Name}
    (htold : ((start config used total).steps members events).told x =
      ((start config used total).steps members events).told y)
    (hstreams : ∀ z, stream (((start config used total).steps members events).heard x) z =
      stream (((start config used total).steps members events).heard y) z) :
    let s := (((start config used total).steps members events).net.node x).state
    let s' := (((start config used total).steps members events).net.node y).state
    (∀ job, s.spec job = s'.spec job) ∧
      (∀ job node, s.claimTime job node = s'.claimTime job node) ∧
      (∀ node, (s.known node).capacity = (s'.known node).capacity) ∧
      ∀ now now', (∀ node, s.isLive node now = s'.isLive node now') →
        (∀ job, s.designatedClaimers job now = s'.designatedClaimers job now') ∧
          (∀ job, s.designatedKeepers job now = s'.designatedKeepers job now') ∧
          (∀ count, s.shardHolders count now = s'.shardHolders count now') ∧
          ∀ job node, s.shardPlan job node now = s'.shardPlan job node now' := by
  have hlogged := logged_steps hruns logged_start
  have hleft := hlogged.recorded x
  rw [htold] at hleft
  have halike := hleft.alike (hlogged.recorded y) hstreams
  exact ⟨fun job => congrFun halike.spec job,
    fun job node => congrFun (halike.known node).claims job,
    fun node => (halike.known node).capacity,
    fun now now' hlive => ⟨halike.designatedClaimers hlive, halike.designatedKeepers hlive,
      halike.shardHolders hlive, halike.shardPlan hlive⟩⟩

/-! ## Nodes that know a job from its claims -/

/-- The parameters some announcements give a job, the default ones if there is none. -/
def announcedSpec (config : ClusterConfig κ) (told : List (Announcement Name)) (job : Name) :
    ℕ × Option (ℕ × ℕ) :=
  ((announcedView config told).spec job).getD (0, none)

/-- A node that knows a job has the parameters announced at the node itself. -/
theorem parameters_of_told (hruns : Runs members (start config used total) events) (x job : Name)
    (hknown : ((((start config used total).steps members events).net.node x).state.spec
      job).isSome) :
    let g := (start config used total).steps members events
    (g.net.node x).state.replication job =
        some (ClusterState.replicationOf config (announcedSpec config (g.told x) job)) ∧
      (g.net.node x).state.erasure job = (announcedSpec config (g.told x) job).2 := by
  have hrecorded := (logged_steps hruns logged_start).recorded x
  have hspec := hrecorded.spec_eq job
  obtain ⟨sp, hsp⟩ := Option.isSome_iff_exists.mp hknown
  rw [hsp, Option.getD_some] at hspec
  intro g
  rw [ClusterState.replication_eq_spec, ClusterState.erasure_eq_spec, hsp, hrecorded.configured,
    hspec]
  exact ⟨rfl, rfl⟩

end Runs

/-! ## Small inputs -/

/-- Two nodes of which no one was told anything. -/
def pair : Gossip ℕ ℚ := start ⟨1, 5000000000, 3, 3 / 4⟩ (fun _ => 0) (fun _ => 1000)

/-- Both nodes are told of a job, claim it and hear of each other. -/
def toldBoth : List (Event ℕ ℚ) :=
  [.announce 0 (.job 7 0), .announce 1 (.job 7 0), .act (.tick 0 1), .act (.tick 1 2)] ++
    (exchange 3).map Event.act

theorem runs_toldBoth : letI := exactUtilization; Runs {0, 1} pair toldBoth := by
  let _ := exactUtilization
  simp only [toldBoth, exchange, List.map_cons, List.map_nil, List.cons_append, List.nil_append,
    Runs, Valid]
  decide +kernel

theorem decide_alike_toldBoth : letI := exactUtilization
    let g := pair.steps {0, 1} toldBoth
    (g.net.node 0).state.designatedKeepers 7 4 = (g.net.node 1).state.designatedKeepers 7 5 := by
  let _ := exactUtilization
  intro g
  have hsenders : ∀ x ∈ ({0, 1} : Finset ℕ), ∀ msg ∈ g.heard x,
      msg.sender = some 0 ∨ msg.sender = some 1 := by decide +kernel
  have hnodes : ∀ x ∈ ({0, 1} : Finset ℕ), ∀ z ∈ (g.net.node x).state.nodes.keys,
      z = 0 ∨ z = 1 := by decide +kernel
  have hnone : ∀ x ∈ ({0, 1} : Finset ℕ), ∀ z, stream (g.heard x) (z + 2) = [] := by
    intro x hx z
    refine List.filter_eq_nil_iff.mpr fun msg hmsg => ?_
    rcases hsenders x hx msg hmsg with h | h <;> simp [h]
  have hdead : ∀ x ∈ ({0, 1} : Finset ℕ), ∀ z now,
      (g.net.node x).state.isLive (z + 2) now = false := by
    intro x hx z now
    refine Bool.eq_false_iff.mpr fun hlive => ?_
    have hkey := AList.mem_keys.mp (ClusterState.mem_nodes_of_isLive hlive)
    rcases hnodes x hx _ hkey with h | h <;> omega
  have hstreams : ∀ z, stream (g.heard 0) z = stream (g.heard 1) z
    | 0 => by decide +kernel
    | 1 => by decide +kernel
    | z + 2 => (hnone 0 (by decide) z).trans (hnone 1 (by decide) z).symm
  have hlive : ∀ z, (g.net.node 0).state.isLive z 4 = (g.net.node 1).state.isLive z 5
    | 0 => by decide +kernel
    | 1 => by decide +kernel
    | z + 2 => (hdead 0 (by decide) z 4).trans (hdead 1 (by decide) z 5).symm
  obtain ⟨-, -, -, hdecisions⟩ :=
    decide_alike (x := 0) (y := 1) runs_toldBoth (by decide +kernel) hstreams
  exact (hdecisions 4 5 hlive).2.1 7

/-- Node 0 is told of a job, claims it, and node 1 hears of the claim. -/
def toldOne : List (Event ℕ ℚ) :=
  [.announce 0 (.job 7 2), .act (.tick 0 1), .act (.tick 1 1)] ++ (exchange 1).map Event.act

theorem runs_toldOne : letI := exactUtilization; Runs {0, 1} pair toldOne := by
  let _ := exactUtilization
  simp only [toldOne, exchange, List.map_cons, List.map_nil, List.cons_append, List.nil_append,
    Runs, Valid]
  decide +kernel

theorem parameters_of_toldOne : letI := exactUtilization
    let g := pair.steps {0, 1} toldOne
    (g.net.node 1).state.replication 7 =
        some (ClusterState.replicationOf ⟨1, 5000000000, 3, 3 / 4⟩
          (announcedSpec ⟨1, 5000000000, 3, (3 / 4 : ℚ)⟩ (g.told 1) 7)) ∧
      (g.net.node 1).state.erasure 7 =
        (announcedSpec ⟨1, 5000000000, 3, (3 / 4 : ℚ)⟩ (g.told 1) 7).2 := by
  let _ := exactUtilization
  exact parameters_of_told runs_toldOne 1 7 (by decide +kernel)

/-- All messages are delivered and node 1 asks for another number of holders than
node 0, at which the job was announced. -/
theorem factors_differ : letI := exactUtilization
    Runs {0, 1} pair toldOne ∧
      (∀ x ∈ ({0, 1} : Finset ℕ), ∀ y ∈ ({0, 1} : Finset ℕ),
        (pair.steps {0, 1} toldOne).net.queue x y = []) ∧
      ((pair.steps {0, 1} toldOne).net.node 0).state.replication 7 = some 2 ∧
      ((pair.steps {0, 1} toldOne).net.node 1).state.replication 7 = some 1 := by
  let _ := exactUtilization
  exact ⟨runs_toldOne, by decide +kernel, by decide +kernel, by decide +kernel⟩

end Gossip

end NdnRepo.Cluster
