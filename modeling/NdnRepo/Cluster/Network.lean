import NdnRepo.Cluster.Node

/-!
# Nodes that gossip

Any number of nodes tick and hear each other.  They start with one configuration and
have heard the same announcements.  What a node publishes goes to every other member
through a queue of its own, so each sender's messages are heard in order and after
any delay, but any of them may be lost.  The clocks are unrelated.

`handed` records, as `run` hands them out, the ingest targets a node has and has
not dropped since, together with the view each was made from.
-/

namespace NdnRepo.Cluster

/-- Work announced to a node. -/
inductive Announcement (Name : Type) where
  /-- A job held in whole copies. -/
  | job (target : Name) (repl : ℕ)
  /-- An erasure-coded job. -/
  | erasureJob (target : Name) (k redundancy : ℕ)
deriving DecidableEq

/-- An ingest target a node was handed, and the view it was made from. -/
structure Handed (Name κ : Type) where
  /-- The target. -/
  target : IngestTarget Name
  /-- The node's view then. -/
  view : ClusterState Name κ
  /-- The node's time then. -/
  now : ℕ

/-- The nodes, the messages on their way and the targets handed out. -/
structure Network (Name κ : Type) where
  /-- The nodes. -/
  node : Name → ClusterNode Name κ
  /-- From a sender to a receiver, oldest first. -/
  queue : Name → Name → List (ClusterMsg Name)
  /-- The targets of a node, by job. -/
  handed : Name → Name → Option (Handed Name κ)

/-- What can happen next. -/
inductive Action (Name κ : Type) where
  /-- A node ticks. -/
  | tick (x : Name) (now : ℕ)
  /-- A node's capacity usage changes. -/
  | setCapacityUsed (x : Name) (used : ℕ)
  /-- A node hears the oldest message on its way from another. -/
  | deliver (sender receiver : Name) (now : ℕ)
  /-- The oldest message on its way from a node to another is lost. -/
  | lose (sender receiver : Name)
  /-- The iteration order of a node's hash maps changes. -/
  | rehash (x : Name) (state : ClusterState Name κ)

variable {Name κ : Type} [LinearOrder Name]

/-- A node is told of a job. -/
def ClusterNode.announce (node : ClusterNode Name κ) : Announcement Name → ClusterNode Name κ
  | .job target repl => node.announceJob target repl
  | .erasureJob target k redundancy => node.announceErasureJob target k redundancy

/-- A view is told of a job. -/
def ClusterState.announce (s : ClusterState Name κ) : Announcement Name → ClusterState Name κ
  | .job target repl => s.observeJob target repl
  | .erasureJob target k redundancy => s.observeErasureJob target k redundancy

/-- The view of a node that has heard the announcements and nothing else. -/
def announcedView (config : ClusterConfig κ) (announced : List (Announcement Name)) :
    ClusterState Name κ :=
  announced.foldl ClusterState.announce (.new config)

namespace Network

/-- Nodes that know their own capacity and have heard the announcements. -/
def start (config : ClusterConfig κ) (used total : Name → ℕ)
    (announced : List (Announcement Name)) : Network Name κ :=
  ⟨fun x => announced.foldl ClusterNode.announce
      ((ClusterNode.new x config (total x)).setCapacityUsed (used x)),
    fun _ _ => [], fun _ _ => none⟩

section Steps

variable [Utilization κ] (members : Finset Name) (net : Network Name κ)

/-- A node ticks.  `run` publishes, then hands out the claimed jobs with their
shards, then drops the released ones. -/
def tick (x : Name) (now : ℕ) : Network Name κ :=
  let out := ((net.node x).tick now).1
  let node := ((net.node x).tick now).2
  { node := Function.update net.node x node
    queue := fun sender receiver =>
      if sender = x ∧ receiver ∈ members ∧ receiver ≠ x then
        net.queue sender receiver ++ out.publish
      else net.queue sender receiver
    handed := fun y job =>
      if y = x then
        if job ∈ out.drop then none
        else if job ∈ out.ingest then some ⟨⟨job, node.shardPlan job now⟩, node.state, now⟩
        else net.handed y job
      else net.handed y job }

omit [Utilization κ] in
/-- A node hears a message. -/
def deliver (sender receiver : Name) (now : ℕ) : Network Name κ :=
  match net.queue sender receiver with
  | [] => net
  | msg :: rest =>
      { net with
        node := Function.update net.node receiver ((net.node receiver).observe msg now)
        queue := fun s r => if s = sender ∧ r = receiver then rest else net.queue s r }

omit [Utilization κ] in
/-- A message is not heard. -/
def lose (sender receiver : Name) : Network Name κ :=
  { net with
    queue := fun s r =>
      if s = sender ∧ r = receiver then (net.queue s r).tail else net.queue s r }

/-- The network after an action. -/
def step : Action Name κ → Network Name κ
  | .tick x now => net.tick members x now
  | .setCapacityUsed x used =>
      { net with node := Function.update net.node x ((net.node x).setCapacityUsed used) }
  | .deliver sender receiver now => net.deliver sender receiver now
  | .lose sender receiver => net.lose sender receiver
  | .rehash x state =>
      { net with node := Function.update net.node x { net.node x with state := state } }

/-- The network after a run. -/
def steps (net : Network Name κ) (actions : List (Action Name κ)) : Network Name κ :=
  actions.foldl (step members) net

omit [Utilization κ] in
/-- Members act, messages go to others, and a rehash changes no entry. -/
def Valid : Action Name κ → Prop
  | .tick x _ => x ∈ members
  | .setCapacityUsed x _ => x ∈ members
  | .deliver sender receiver _ => sender ∈ members ∧ receiver ∈ members ∧ sender ≠ receiver
  | .lose _ _ => True
  | .rehash x state => x ∈ members ∧ ClusterState.Agree state (net.node x).state

/-- Every action of a run is valid and meets a condition where it is taken. -/
def Runs (meets : Network Name κ → Action Name κ → Prop) :
    Network Name κ → List (Action Name κ) → Prop
  | _, [] => True
  | net, action :: actions =>
      net.Valid members action ∧ meets net action ∧ Runs meets (net.step members action) actions

end Steps

/-! ## Runs -/

section Runs

variable [Utilization κ] {members : Finset Name} {net : Network Name κ}
variable {meets : Network Name κ → Action Name κ → Prop}

theorem steps_append (net : Network Name κ) (actions later : List (Action Name κ)) :
    net.steps members (actions ++ later) = (net.steps members actions).steps members later :=
  List.foldl_append

theorem runs_append :
    ∀ {actions later : List (Action Name κ)} {net : Network Name κ},
      Runs members meets net (actions ++ later) ↔
        Runs members meets net actions ∧ Runs members meets (net.steps members actions) later
  | [], later, net => by simp [Runs, steps]
  | action :: actions, later, net => by
      rw [List.cons_append, Runs, Runs, runs_append]
      simp only [steps, List.foldl_cons, and_assoc]

/-- What every valid step that meets the condition keeps, every run keeps. -/
theorem runs_induction (inv : Network Name κ → Prop)
    (hstep : ∀ net action, inv net → net.Valid members action → meets net action →
      inv (net.step members action)) :
    ∀ {actions : List (Action Name κ)} {net : Network Name κ},
      Runs members meets net actions → inv net → inv (net.steps members actions)
  | [], _, _, h => h
  | action :: actions, net, ⟨hvalid, hmeets, hrest⟩, h => by
      have hnext := hstep net action h hvalid hmeets
      have ih := runs_induction inv hstep hrest hnext
      exact ih

/-- Where an invariant turns one condition into another, runs that meet the one
meet the other. -/
theorem Runs.imp (inv : Network Name κ → Prop) (meets' : Network Name κ → Action Name κ → Prop)
    (hstep : ∀ net action, inv net → net.Valid members action → meets net action →
      inv (net.step members action))
    (himp : ∀ net action, inv net → net.Valid members action → meets net action →
      meets' net action) :
    ∀ {actions : List (Action Name κ)} {net : Network Name κ},
      Runs members meets net actions → inv net → Runs members meets' net actions
  | [], _, _, _ => trivial
  | action :: _, net, ⟨hvalid, hmeets, hrest⟩, h => by
      have hnext := hstep net action h hvalid hmeets
      have ih := Runs.imp inv meets' hstep himp hrest hnext
      exact ⟨hvalid, himp net action h hvalid hmeets, ih⟩

end Runs

/-! ## The start -/

theorem foldl_announce (announced : List (Announcement Name)) :
    ∀ node : ClusterNode Name κ, announced.foldl ClusterNode.announce node =
      { node with state := announced.foldl ClusterState.announce node.state } := by
  induction announced with
  | nil => exact fun node => rfl
  | cons first announced ih =>
      intro node
      rw [List.foldl_cons, ih]
      cases first <;> rfl

theorem node_start (config : ClusterConfig κ) (used total : Name → ℕ)
    (announced : List (Announcement Name)) (x : Name) :
    (start config used total announced).node x =
      ⟨x, announcedView config announced, used x, total x, 0⟩ :=
  foldl_announce announced _

/-- Announcements tell of no node and no claim. -/
theorem announcedView_facts (config : ClusterConfig κ) (announced : List (Announcement Name)) :
    (announcedView config announced).config = config ∧
      (∀ x, (announcedView config announced).status x = none) ∧
      ∀ job, (announcedView config announced).claimants job = ∅ := by
  have hfold : ∀ (announced : List (Announcement Name)) (s : ClusterState Name κ),
      (announced.foldl ClusterState.announce s).config = s.config ∧
        (announced.foldl ClusterState.announce s).status = s.status ∧
        (announced.foldl ClusterState.announce s).claimants = s.claimants := by
    intro announced
    induction announced with
    | nil => exact fun s => ⟨rfl, rfl, rfl⟩
    | cons first announced ih =>
        intro s
        obtain ⟨hconfig, hstatus, hclaims⟩ := ih (s.announce first)
        cases first with
        | job target repl =>
            exact ⟨hconfig, hstatus, hclaims.trans (s.claimants_observeJob target repl)⟩
        | erasureJob target k redundancy =>
            exact ⟨hconfig, hstatus,
              hclaims.trans (s.claimants_observeErasureJob target k redundancy)⟩
  obtain ⟨hconfig, hstatus, hclaims⟩ := hfold announced (.new config)
  exact ⟨hconfig, fun x => congrFun hstatus x, fun job => congrFun hclaims job⟩

/-! ## What a step does -/

section Effects

variable [Utilization κ] {members : Finset Name} {net : Network Name κ} {action : Action Name κ}

variable (members net action) in
/-- A node is what it was, or the action is one of its own. -/
theorem step_node (y : Name) :
    (net.step members action).node y = net.node y ∨
      (∃ now, action = .tick y now ∧
        (net.step members action).node y = ((net.node y).tick now).2) ∨
      (∃ used, action = .setCapacityUsed y used ∧
        (net.step members action).node y = (net.node y).setCapacityUsed used) ∨
      (∃ sender now msg, action = .deliver sender y now ∧ msg ∈ net.queue sender y ∧
        (net.step members action).node y = (net.node y).observe msg now) ∨
      ∃ state, action = .rehash y state ∧
        (net.step members action).node y = { net.node y with state := state } := by
  cases action with
  | tick x now =>
      rcases eq_or_ne y x with rfl | hne
      · exact .inr (.inl ⟨now, rfl, Function.update_self ..⟩)
      · exact .inl (Function.update_of_ne hne ..)
  | setCapacityUsed x used =>
      rcases eq_or_ne y x with rfl | hne
      · exact .inr (.inr (.inl ⟨used, rfl, Function.update_self ..⟩))
      · exact .inl (Function.update_of_ne hne ..)
  | deliver sender receiver now =>
      simp only [step, deliver]
      cases hqueue : net.queue sender receiver with
      | nil => exact .inl rfl
      | cons msg rest =>
          rcases eq_or_ne y receiver with rfl | hne
          · have hmsg : msg ∈ net.queue sender y := hqueue ▸ List.mem_cons_self ..
            exact .inr (.inr (.inr (.inl ⟨sender, now, msg, rfl, hmsg, Function.update_self ..⟩)))
          · exact .inl (Function.update_of_ne hne ..)
  | lose sender receiver => exact .inl rfl
  | rehash x state =>
      rcases eq_or_ne y x with rfl | hne
      · exact .inr (.inr (.inr (.inr ⟨state, rfl, Function.update_self ..⟩)))
      · exact .inl (Function.update_of_ne hne ..)

/-- A node's view stays what it was, or the node ticks, or it hears a message. -/
theorem step_state (hvalid : net.Valid members action) (y : Name) :
    ClusterState.Agree ((net.step members action).node y).state (net.node y).state ∨
      (∃ now, action = .tick y now ∧
        ((net.step members action).node y).state = ((net.node y).tick now).2.state) ∨
      ∃ sender now msg, sender ∈ members ∧ sender ≠ y ∧ action = .deliver sender y now ∧
        msg ∈ net.queue sender y ∧
        ((net.step members action).node y).state = (net.node y).state.observe msg now := by
  rcases step_node members net action y with hsame | ⟨now, htick, hnode⟩ | ⟨used, -, hnode⟩ |
    ⟨sender, now, msg, rfl, hmsg, hnode⟩ | ⟨state, rfl, hnode⟩
  · exact .inl (hsame ▸ .refl _)
  · exact .inr (.inl ⟨now, htick, hnode ▸ rfl⟩)
  · refine .inl ?_
    rw [hnode]
    exact .refl _
  · obtain ⟨hsender, -, hne⟩ := hvalid
    exact .inr (.inr ⟨sender, now, msg, hsender, hne, rfl, hmsg, hnode ▸ rfl⟩)
  · refine .inl ?_
    rw [hnode]
    exact hvalid.2

/-- A message on its way was on its way before, or its sender publishes it. -/
theorem step_queue {x y : Name} {msg : ClusterMsg Name}
    (h : msg ∈ (net.step members action).queue x y) :
    msg ∈ net.queue x y ∨
      ∃ now, action = .tick x now ∧ msg ∈ ((net.node x).tick now).1.publish := by
  cases action with
  | tick z now =>
      simp only [step, tick] at h
      split at h
      next hcond =>
        obtain ⟨rfl, -⟩ := hcond
        exact (List.mem_append.mp h).imp id fun hnew => ⟨now, rfl, hnew⟩
      next => exact Or.inl h
  | setCapacityUsed z used => exact Or.inl h
  | deliver sender receiver now =>
      simp only [step, deliver] at h
      cases hqueue : net.queue sender receiver with
      | nil => exact Or.inl (by simpa [hqueue] using h)
      | cons first rest =>
          simp only [hqueue] at h
          split at h
          next hcond =>
            obtain ⟨rfl, rfl⟩ := hcond
            exact Or.inl (hqueue ▸ List.mem_cons_of_mem _ h)
          next => exact Or.inl h
  | lose sender receiver =>
      simp only [step, lose] at h
      split at h
      next => exact Or.inl (List.mem_of_mem_tail h)
      next => exact Or.inl h
  | rehash z state => exact Or.inl h

theorem step_selfId (y : Name) :
    ((net.step members action).node y).selfId = (net.node y).selfId := by
  rcases step_node members net action y with hnode | ⟨_, -, hnode⟩ | ⟨_, -, hnode⟩ |
    ⟨_, _, _, -, -, hnode⟩ | ⟨_, -, hnode⟩
  all_goals exact (congrArg ClusterNode.selfId hnode).trans rfl

end Effects

/-! ## What every run keeps -/

/-- Nodes are who they are, messages are from their senders, and all members know
a job's replication and erasure parameters. -/
structure Sane (members : Finset Name) (job : Name) (f : ℕ) (e : Option (ℕ × ℕ))
    (net : Network Name κ) : Prop where
  /-- A node has its own name. -/
  self : ∀ x, (net.node x).selfId = x
  /-- A message on its way is from its sender. -/
  sender : ∀ x y, ∀ msg ∈ net.queue x y, msg.sender = some x
  /-- A member knows how many nodes shall hold the job. -/
  replication : ∀ x ∈ members, (net.node x).state.replication job = some f
  /-- A member knows the job's erasure parameters. -/
  erasure : ∀ x ∈ members, (net.node x).state.erasure job = e

section Sane

variable {members : Finset Name} {job : Name} {f : ℕ} {e : Option (ℕ × ℕ)}

theorem sane_start {config : ClusterConfig κ} {used total : Name → ℕ}
    {announced : List (Announcement Name)}
    (hf : (announcedView config announced).replication job = some f) :
    Sane members job f ((announcedView config announced).erasure job)
      (start config used total announced) := by
  refine ⟨fun x => ?_, fun _ _ _ h => absurd h List.not_mem_nil, fun x _ => ?_, fun x _ => ?_⟩
  · rw [node_start]
  · rw [node_start]
    exact hf
  · rw [node_start]

variable [Utilization κ] {net : Network Name κ} {action : Action Name κ}

theorem sane_step (h : Sane members job f e net) (hvalid : net.Valid members action) :
    Sane members job f e (net.step members action) := by
  have hspec : ∀ x ∈ members, ((net.step members action).node x).state.replication job = some f ∧
      ((net.step members action).node x).state.erasure job = e := by
    intro x hx
    have hold := And.intro (h.replication x hx) (h.erasure x hx)
    rcases step_state hvalid x with hagree | ⟨now, -, htick⟩ | ⟨sender, now, msg, -, -, -, hmsg, hobs⟩
    · rw [hagree.replication, hagree.erasure]
      exact hold
    · rw [htick, ((net.node x).tick_view now).1.replication, ((net.node x).tick_view now).1.erasure]
      exact hold
    · have hknown : ((net.node x).state.replication job).isSome := by rw [hold.1]; rfl
      obtain ⟨-, hrepl, herasure⟩ :=
        ClusterState.observe_known (h.sender sender x msg hmsg) now hknown
      rw [hobs, hrepl, herasure]
      exact hold
  refine ⟨fun x => (step_selfId x).trans (h.self x), fun x y msg hmsg => ?_,
    fun x hx => (hspec x hx).1, fun x hx => (hspec x hx).2⟩
  rcases step_queue hmsg with hold | ⟨now, -, hnew⟩
  · exact h.sender x y msg hold
  · rw [ClusterNode.sender_of_mem_publish _ _ hnew, h.self x]

end Sane

/-! ## Small inputs -/

/-- Utilisations as exact fractions. -/
@[reducible] def exactUtilization : Utilization ℚ :=
  { (inferInstance : LinearOrder ℚ) with
    zero := 0
    ratio := fun used total => used / total }

/-- Two nodes, 0 and 1, of the same capacity that have heard one announcement.  Jobs
are held once by default. -/
def pairStart (used : ℕ) (announced : Announcement ℕ) : Network ℕ ℚ :=
  start ⟨1, 5000000000, 3, 3 / 4⟩ (fun _ => used) (fun _ => 1000) [announced]

/-- The two nodes hear up to two messages each. -/
def exchange (now : ℕ) : List (Action ℕ ℚ) :=
  [.deliver 0 1 now, .deliver 0 1 now, .deliver 1 0 now, .deliver 1 0 now]

end Network

end NdnRepo.Cluster
