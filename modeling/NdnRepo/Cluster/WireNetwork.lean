import NdnRepo.Cluster.Driver

/-!
# Loops that gossip

Every node is driven by `run`, and what the loops exchange is bytes.  They start with one
configuration and the same announcements.  A sender's publications arrive in order, after
any delay, but any of them may be lost.  Other publications may be made in the coordination
group, but none that is read as a message, so no job is announced there.  Loops may be
cancelled, and a loop that was left neither ticks nor hears anything.

Such a network does what a network of nodes that exchange messages does
(`simulates_network`), so whatever is shown of every run of the one holds of the other.  No
one speaks in another's name, so what a loop's listener holds is always what its node
claims (`holds_claims`).
-/

namespace NdnRepo.Cluster

open Steps

/-- The loops, and the publications on their way. -/
structure WireNetwork (Name κ : Type) where
  /-- The loops. -/
  loop : Name → ClusterRun Name κ
  /-- From a sender to a receiver, oldest first. -/
  queue : Name → Name → List Bytes

/-- What can happen next. -/
inductive WireAction (Name κ : Type) where
  /-- A loop's ticker fires. -/
  | tick (x : Name) (now capacity : ℕ)
  /-- A loop receives the oldest publication on its way from another. -/
  | deliver (sender receiver : Name) (now : ℕ)
  /-- The oldest publication on its way from a loop to another is lost. -/
  | lose (sender receiver : Name)
  /-- Something else is published. -/
  | other (sender receiver : Name) (raw : Bytes)
  /-- A loop is cancelled. -/
  | cancel (x : Name)
  /-- The iteration order of a node's hash maps changes. -/
  | rehash (x : Name) (state : ClusterState Name κ)

/-- What an effect publishes. -/
def RunEffect.raw? {Name : Type} : RunEffect Name → Option Bytes
  | .publish raw => some raw
  | _ => none

namespace WireNetwork

section Loops

variable {Name κ : Type} [LinearOrder Name] [NdnTlvWriter] [NameTlvWriter Name] [Utilization κ]
variable (members : Finset Name)

omit [NdnTlvWriter] [NameTlvWriter Name] [Utilization κ] in
/-- Loops about to start, of nodes that have heard the announcements. -/
def start (config : ClusterConfig κ) (total : Name → ℕ) (announced : List (Announcement Name)) :
    WireNetwork Name κ :=
  ⟨fun x => ⟨announced.foldl ClusterNode.announce (.new x config (total x)), false, []⟩,
    fun _ _ => []⟩

/-- A loop's ticker fires. -/
def tick (w : WireNetwork Name κ) (x : Name) (now capacity : ℕ) : WireNetwork Name κ :=
  if (w.loop x).done then w
  else
    { loop := Function.update w.loop x ((w.loop x).step (.ticked now capacity))
      queue := fun sender receiver =>
        if sender = x ∧ receiver ∈ members ∧ receiver ≠ x then
          w.queue sender receiver ++
            (ClusterRun.tick (w.loop x).node now capacity).1.filterMap RunEffect.raw?
        else w.queue sender receiver }

/-- A loop receives a publication. -/
def deliver (w : WireNetwork Name κ) (sender receiver : Name) (now : ℕ) : WireNetwork Name κ :=
  if (w.loop receiver).done then w
  else
    match w.queue sender receiver with
    | [] => w
    | raw :: rest =>
        { loop := Function.update w.loop receiver
            ((w.loop receiver).step (.received (some raw) now))
          queue := fun s r => if s = sender ∧ r = receiver then rest else w.queue s r }

/-- A publication does not fit the sender's channel, or is not fetched. -/
def lose (w : WireNetwork Name κ) (sender receiver : Name) : WireNetwork Name κ :=
  { w with
    queue := fun s r =>
      if s = sender ∧ r = receiver then (w.queue s r).tail else w.queue s r }

/-- The network after an action. -/
def step (w : WireNetwork Name κ) : WireAction Name κ → WireNetwork Name κ
  | .tick x now capacity => w.tick members x now capacity
  | .deliver sender receiver now => w.deliver sender receiver now
  | .lose sender receiver => w.lose sender receiver
  | .other sender receiver raw =>
      { w with queue := fun s r =>
          if s = sender ∧ r = receiver then w.queue s r ++ [raw] else w.queue s r }
  | .cancel x => { w with loop := Function.update w.loop x ((w.loop x).step .cancelled) }
  | .rehash x state =>
      { w with
        loop := Function.update w.loop x
          { w.loop x with node := { (w.loop x).node with state := state } } }

/-- Members act, publications go to others, what a tick publishes fits its fields, what else
is published is no message, and a rehash changes no entry. -/
def Allowed (w : WireNetwork Name κ) : WireAction Name κ → Prop
  | .tick x now capacity => x ∈ members ∧ ((w.loop x).done = false →
      ∀ msg ∈ (((w.loop x).node.setCapacityUsed capacity).tick now).1.publish,
        msg.Fits ∧ msg.encode.length < 2 ^ 64)
  | .deliver sender receiver _ => sender ∈ members ∧ receiver ∈ members ∧ sender ≠ receiver
  | .lose _ _ => True
  | .other _ _ raw => (ClusterMsg.decode raw : Option (ClusterMsg Name)) = none
  | .cancel _ => True
  | .rehash x state => x ∈ members ∧ ClusterState.Agree state (w.loop x).node.state

/-- The actions of nodes that an action consists of. -/
def nodeActions (w : WireNetwork Name κ) : WireAction Name κ → List (Action Name κ)
  | .tick x now capacity =>
      if (w.loop x).done then [] else [.setCapacityUsed x capacity, .tick x now]
  | .deliver sender receiver now =>
      if (w.loop receiver).done then []
      else
        match (w.queue sender receiver).head?.bind
            fun raw => (ClusterMsg.decode raw : Option (ClusterMsg Name)) with
        | some _ => [.deliver sender receiver now]
        | none => []
  | .lose sender receiver =>
      match (w.queue sender receiver).head?.bind
          fun raw => (ClusterMsg.decode raw : Option (ClusterMsg Name)) with
      | some _ => [.lose sender receiver]
      | none => []
  | .other _ _ _ => []
  | .cancel _ => []
  | .rehash x state => [.rehash x state]

/-- The loops drive the nodes of a network, their publications are its messages, and who
does as they tell holds the targets it hands out. -/
structure Refines (w : WireNetwork Name κ) (net : Network Name κ) : Prop where
  /-- The nodes are those of the loops. -/
  node : ∀ x, net.node x = (w.loop x).node
  /-- The messages are those published. -/
  queue : ∀ sender receiver,
    (w.queue sender receiver).filterMap ClusterMsg.decode = net.queue sender receiver
  /-- The targets are those handed out. -/
  handed : ∀ x job, ClusterRun.holdings (w.loop x).effects job =
    (net.handed x job).map Handed.target

/-! ## Messages and their bytes -/

omit [LinearOrder Name] [Utilization κ] in
/-- Messages that fit are read back from their publications. -/
theorem filterMap_decode_encode {msgs : List (ClusterMsg Name)}
    (hfits : ∀ msg ∈ msgs, msg.Fits ∧ msg.encode.length < 2 ^ 64) :
    (msgs.map ClusterMsg.encode).filterMap ClusterMsg.decode = msgs := by
  induction msgs with
  | nil => rfl
  | cons msg msgs ih =>
      obtain ⟨hfit, hlen⟩ := hfits msg (List.mem_cons_self ..)
      have hread := ClusterMsg.decode_of_rearranged msg.encode_rearranged hfit hlen
      rw [List.map_cons, List.filterMap_cons_some hread,
        ih fun m hm => hfits m (List.mem_cons_of_mem _ hm)]

omit [LinearOrder Name] [NdnTlvWriter] [NameTlvWriter Name] [Utilization κ] in
/-- Without the oldest publication the oldest message is gone if the one was the other, and
no message else. -/
theorem filterMap_tail (read : Bytes → Option (ClusterMsg Name)) (raws : List Bytes) :
    raws.tail.filterMap read =
      (raws.head?.bind read).elim (raws.filterMap read) fun _ => (raws.filterMap read).tail := by
  cases raws with
  | nil => rfl
  | cons raw rest =>
      rw [List.tail_cons, List.head?_cons, Option.bind_some]
      cases hread : read raw with
      | none => rw [List.filterMap_cons_none hread, Option.elim_none]
      | some msg => rw [List.filterMap_cons_some hread, Option.elim_some, List.tail_cons]

/-- What a tick publishes. -/
theorem filterMap_raw_tick (node : ClusterNode Name κ) (now capacity : ℕ) :
    (ClusterRun.tick node now capacity).1.filterMap RunEffect.raw? =
      ((node.setCapacityUsed capacity).tick now).1.publish.map ClusterMsg.encode := by
  have hpublish : ∀ msgs : List (ClusterMsg Name),
      (msgs.map fun m => RunEffect.publish m.encode).filterMap
        (RunEffect.raw? : RunEffect Name → Option Bytes) = msgs.map ClusterMsg.encode := by
    intro msgs
    induction msgs with
    | nil => rfl
    | cons msg msgs ih =>
        have hraw : (RunEffect.publish msg.encode : RunEffect Name).raw? = some msg.encode := rfl
        rw [List.map_cons, List.filterMap_cons_some hraw, ih, List.map_cons]
  have hingest : ∀ (jobs : List Name) (plan : Name → Option ShardPlan),
      (jobs.map fun job => RunEffect.ingest ⟨job, plan job⟩).filterMap RunEffect.raw? = [] := by
    intro jobs plan
    induction jobs with
    | nil => rfl
    | cons job jobs ih =>
        have hraw : (RunEffect.ingest ⟨job, plan job⟩).raw? = none := rfl
        rw [List.map_cons, List.filterMap_cons_none hraw, ih]
  have hdrop : ∀ jobs : List Name,
      (jobs.map RunEffect.drop).filterMap RunEffect.raw? = [] := by
    intro jobs
    induction jobs with
    | nil => rfl
    | cons job jobs ih =>
        have hraw : (RunEffect.drop job).raw? = none := rfl
        rw [List.map_cons, List.filterMap_cons_none hraw, ih]
  rw [ClusterRun.tick_fst, List.filterMap_append, List.filterMap_append, hpublish, hingest, hdrop,
    List.append_nil, List.append_nil]

/-! ## One action -/

section Refinement

variable {members} {w : WireNetwork Name κ} {net : Network Name κ}

omit [Utilization κ] in
theorem refines_start (config : ClusterConfig κ) (total : Name → ℕ)
    (announced : List (Announcement Name)) :
    Refines (start config total announced) (Network.start config (fun _ => 0) total announced) :=
  ⟨fun _ => rfl, fun _ _ => rfl, fun _ _ => rfl⟩

/-- A tick is a report of the capacity and a tick. -/
theorem Refines.tick (h : Refines w net) {x : Name} {now capacity : ℕ}
    (hdone : (w.loop x).done = false)
    (hfits : ∀ msg ∈ (((w.loop x).node.setCapacityUsed capacity).tick now).1.publish,
      msg.Fits ∧ msg.encode.length < 2 ^ 64) :
    Refines (w.tick members x now capacity)
      ((net.step members (.setCapacityUsed x capacity)).tick members x now) := by
  have hnode : ((net.step members (.setCapacityUsed x capacity)).node x) =
      (w.loop x).node.setCapacityUsed capacity := by
    simp only [Network.step, Function.update_self, h.node]
  rw [WireNetwork.tick, hdone, if_neg Bool.false_ne_true]
  refine ⟨fun y => ?_, fun sender receiver => ?_, fun y job => ?_⟩
  · rcases eq_or_ne y x with rfl | hne
    · simp only [Network.tick, hnode, Function.update_self, ClusterRun.step_ticked hdone]
      rfl
    · simp only [Network.tick, Function.update_of_ne hne, Network.step, h.node]
  · simp only [Network.tick, hnode]
    split
    next =>
      rw [List.filterMap_append, filterMap_raw_tick, filterMap_decode_encode hfits, h.queue]
      rfl
    next => exact h.queue sender receiver
  · rcases eq_or_ne y x with rfl | hne
    · simp only [Network.tick, hnode, Function.update_self, ClusterRun.step_ticked hdone, if_true,
        ClusterRun.holdings, run_append, ClusterRun.follow_tick]
      split
      next => rfl
      next =>
        split
        next => rfl
        next => exact h.handed y job
    · simp only [Network.tick, Function.update_of_ne hne, if_neg hne]
      exact h.handed y job

/-- A publication that is a message is heard as the message, and any other is passed over. -/
theorem Refines.deliver (h : Refines w net) {sender receiver : Name} (now : ℕ)
    (hdone : (w.loop receiver).done = false) {raw : Bytes} {rest : List Bytes}
    (hqueue : w.queue sender receiver = raw :: rest) :
    Refines (w.deliver sender receiver now)
      ((ClusterMsg.decode raw : Option (ClusterMsg Name)).elim net
        fun _ => net.deliver sender receiver now) := by
  have hheard := h.queue sender receiver
  rw [hqueue] at hheard
  rw [WireNetwork.deliver, hdone, if_neg Bool.false_ne_true, hqueue]
  simp only
  cases hdecode : (ClusterMsg.decode raw : Option (ClusterMsg Name)) with
  | none =>
      rw [List.filterMap_cons_none hdecode] at hheard
      rw [ClusterRun.step_ignores hdecode, Function.update_eq_self]
      refine ⟨h.node, fun s r => ?_, h.handed⟩
      simp only
      split
      next hsr =>
        obtain ⟨rfl, rfl⟩ := hsr
        exact hheard
      next => exact h.queue s r
  | some msg =>
      rw [List.filterMap_cons_some hdecode] at hheard
      rw [ClusterRun.step_received hdone hdecode, Option.elim_some, Network.deliver, ← hheard]
      refine ⟨fun y => ?_, fun s r => ?_, fun y job => ?_⟩
      · rcases eq_or_ne y receiver with rfl | hne
        · simp only [Function.update_self, h.node]
        · simp only [Function.update_of_ne hne, h.node]
      · simp only
        split
        next => rfl
        next => exact h.queue s r
      · rcases eq_or_ne y receiver with rfl | hne
        · simp only [Function.update_self]
          exact h.handed y job
        · simp only [Function.update_of_ne hne]
          exact h.handed y job

omit [Utilization κ] in
/-- A publication that is a message is lost as the message, and no one misses any other. -/
theorem Refines.lose (h : Refines w net) (sender receiver : Name) :
    Refines (w.lose sender receiver)
      (((w.queue sender receiver).head?.bind
        fun raw => (ClusterMsg.decode raw : Option (ClusterMsg Name))).elim net
          fun _ => net.lose sender receiver) := by
  have hrest := filterMap_tail (ClusterMsg.decode : Bytes → Option (ClusterMsg Name))
    (w.queue sender receiver)
  rw [h.queue sender receiver] at hrest
  cases hmsg : (w.queue sender receiver).head?.bind
      fun raw => (ClusterMsg.decode raw : Option (ClusterMsg Name)) with
  | none =>
      rw [hmsg, Option.elim_none] at hrest
      refine ⟨h.node, fun s r => ?_, h.handed⟩
      simp only [WireNetwork.lose, Option.elim_none]
      split
      next hsr =>
        obtain ⟨rfl, rfl⟩ := hsr
        exact hrest
      next => exact h.queue s r
  | some msg =>
      rw [hmsg, Option.elim_some] at hrest
      refine ⟨h.node, fun s r => ?_, h.handed⟩
      simp only [WireNetwork.lose, Option.elim_some, Network.lose]
      split
      next hsr =>
        obtain ⟨rfl, rfl⟩ := hsr
        exact hrest
      next => exact h.queue s r

/-- Every action is some actions of the nodes. -/
theorem refines_step (h : Refines w net) {action : WireAction Name κ}
    (hallowed : w.Allowed members action) :
    Admits (Network.step members) (Network.Valid members) net (w.nodeActions action) ∧
      Refines (w.step members action)
        (run (Network.step members) net (w.nodeActions action)) := by
  cases action with
  | tick x now capacity =>
      obtain ⟨hx, hfits⟩ := hallowed
      cases hdone : (w.loop x).done with
      | true =>
          simp only [nodeActions, step, WireNetwork.tick, hdone, if_true]
          exact ⟨trivial, h⟩
      | false =>
          simp only [nodeActions, step, hdone, Bool.false_eq_true, if_false]
          exact ⟨⟨hx, hx, trivial⟩, h.tick hdone (hfits hdone)⟩
  | deliver sender receiver now =>
      cases hdone : (w.loop receiver).done with
      | true =>
          simp only [nodeActions, step, WireNetwork.deliver, hdone, if_true]
          exact ⟨trivial, h⟩
      | false =>
          simp only [nodeActions, step, hdone, Bool.false_eq_true, if_false]
          cases hqueue : w.queue sender receiver with
          | nil =>
              simp only [WireNetwork.deliver, hqueue]
              exact ⟨trivial, by simpa using h⟩
          | cons raw rest =>
              have hnext := h.deliver now hdone hqueue
              cases hdecode : (ClusterMsg.decode raw : Option (ClusterMsg Name)) with
              | none =>
                  rw [hdecode] at hnext
                  simp only [List.head?_cons, Option.bind_some, hdecode]
                  exact ⟨trivial, hnext⟩
              | some msg =>
                  rw [hdecode] at hnext
                  simp only [List.head?_cons, Option.bind_some, hdecode]
                  exact ⟨⟨hallowed, trivial⟩, hnext⟩
  | lose sender receiver =>
      have hnext := h.lose sender receiver
      simp only [nodeActions, step]
      cases hmsg : (w.queue sender receiver).head?.bind
          fun raw => (ClusterMsg.decode raw : Option (ClusterMsg Name)) with
      | none =>
          rw [hmsg, Option.elim_none] at hnext
          exact ⟨trivial, hnext⟩
      | some msg =>
          rw [hmsg, Option.elim_some] at hnext
          exact ⟨⟨trivial, trivial⟩, hnext⟩
  | other sender receiver raw =>
      refine ⟨trivial, h.node, fun s r => ?_, h.handed⟩
      simp only [step]
      split
      next =>
        have hnone : (ClusterMsg.decode raw : Option (ClusterMsg Name)) = none := hallowed
        rw [List.filterMap_append, List.filterMap_cons_none hnone, List.filterMap_nil,
          List.append_nil]
        exact h.queue s r
      next => exact h.queue s r
  | cancel x =>
      have hstop : ((w.loop x).step .cancelled).node = (w.loop x).node ∧
          ((w.loop x).step .cancelled).effects = (w.loop x).effects := by
        cases hdone : (w.loop x).done with
        | true => rw [ClusterRun.step_of_done hdone]; exact ⟨rfl, rfl⟩
        | false => rw [(ClusterRun.step_stops hdone).1]; exact ⟨rfl, rfl⟩
      refine ⟨trivial, fun y => ?_, h.queue, fun y job => ?_⟩
      · rcases eq_or_ne y x with rfl | hne
        · simp only [step, Function.update_self, hstop.1]
          exact h.node y
        · simp only [step, Function.update_of_ne hne]
          exact h.node y
      · rcases eq_or_ne y x with rfl | hne
        · simp only [step, Function.update_self, hstop.2]
          exact h.handed y job
        · simp only [step, Function.update_of_ne hne]
          exact h.handed y job
  | rehash x state =>
      obtain ⟨hx, hagree⟩ := hallowed
      rw [← h.node x] at hagree
      refine ⟨⟨⟨hx, hagree⟩, trivial⟩, fun y => ?_, h.queue, fun y job => ?_⟩
      · rcases eq_or_ne y x with rfl | hne
        · simp [nodeActions, step, Network.step, h.node]
        · simp [nodeActions, step, Network.step, h.node, hne]
      · rcases eq_or_ne y x with rfl | hne
        · simpa [nodeActions, step, Network.step] using h.handed y job
        · simpa [nodeActions, step, Network.step, hne] using h.handed y job

end Refinement

/-! ## Whole runs -/

omit [NdnTlvWriter] [NameTlvWriter Name] in
/-- A run of nodes that is admissible is one whose every action is valid. -/
theorem runs_of_admits : ∀ {actions : List (Action Name κ)} {net : Network Name κ},
    Admits (Network.step members) (Network.Valid members) net actions →
      Network.Runs members (fun _ _ => True) net actions
  | [], _, _ => trivial
  | _ :: _, _, ⟨hvalid, hrest⟩ => ⟨hvalid, trivial, runs_of_admits hrest⟩

/-- What the loops do, a network of nodes that exchange messages does. -/
theorem simulates_network {config : ClusterConfig κ} {total : Name → ℕ}
    {announced : List (Announcement Name)} {actions : List (WireAction Name κ)}
    (hrun : Admits (step members) (Allowed members) (start config total announced) actions) :
    ∃ actions', Network.Runs members (fun _ _ => True)
        (Network.start config (fun _ => 0) total announced) actions' ∧
      Refines (run (step members) (start config total announced) actions)
        ((Network.start config (fun _ => 0) total announced).steps members actions') := by
  have hstart := refines_start config total announced
  have hstep : ∀ (w : WireNetwork Name κ) (net : Network Name κ) (action : WireAction Name κ),
      Refines w net → Allowed members w action →
      Admits (Network.step members) (Network.Valid members) net (w.nodeActions action) ∧
        Refines (w.step members action)
          (run (Network.step members) net (w.nodeActions action)) :=
    fun _ _ _ hrefines hallowed => refines_step hrefines hallowed
  obtain ⟨hvalid, hend⟩ := simulates hstep hstart hrun
  exact ⟨_, runs_of_admits members hvalid, hend⟩

/-! ## Speaking in one's own name -/

/-- Loops have their own names, what is on its way and is a message is from its sender, and
what a loop's listener holds is what its node claims. -/
structure Truthful (w : WireNetwork Name κ) : Prop where
  /-- A loop drives the node of its name. -/
  self : ∀ x, (w.loop x).node.selfId = x
  /-- A message on its way is from its sender. -/
  sender : ∀ x y, ∀ raw ∈ w.queue x y, ∀ msg, ClusterMsg.decode raw = some msg →
    msg.sender = some x
  /-- What is held is what the node claims. -/
  holds : ∀ x, (w.loop x).HoldsClaims

section Truthful

variable {members} {w : WireNetwork Name κ}

omit [Utilization κ] in
theorem truthful_start (config : ClusterConfig κ) (total : Name → ℕ)
    (announced : List (Announcement Name)) :
    Truthful (start config total announced) := by
  have hnode : ∀ x, ((start config total announced).loop x).node =
      ⟨x, announcedView config announced, 0, total x, 0⟩ :=
    fun x => Network.node_start config (fun _ => 0) total announced x
  refine ⟨fun x => ?_, fun x y raw h => absurd h List.not_mem_nil,
    fun x => ⟨trivial, fun job => ?_⟩⟩
  · rw [hnode]
  · have hnone := (Network.announcedView_facts config announced).2.2 job
    rw [hnode, hnone]
    exact ⟨fun h => (Bool.false_ne_true h).elim, fun h => absurd h (Finset.notMem_empty _)⟩

omit [Utilization κ] in
/-- The loops of a network after one of them took a turn. -/
theorem Truthful.update (h : Truthful w) {x : Name} {r : ClusterRun Name κ}
    {queue : Name → Name → List Bytes} (hself : r.node.selfId = x) (hholds : r.HoldsClaims)
    (hqueue : ∀ s t, ∀ raw ∈ queue s t, raw ∈ w.queue s t ∨
      ∀ msg : ClusterMsg Name, ClusterMsg.decode raw = some msg → msg.sender = some s) :
    Truthful ⟨Function.update w.loop x r, queue⟩ := by
  refine ⟨fun y => ?_, fun s t raw hraw msg hmsg => ?_, fun y => ?_⟩
  · rcases eq_or_ne y x with rfl | hne
    · simpa only [Function.update_self] using hself
    · simpa only [Function.update_of_ne hne] using h.self y
  · rcases hqueue s t raw hraw with hold | hnew
    · exact h.sender s t raw hold msg hmsg
    · exact hnew msg hmsg
  · rcases eq_or_ne y x with rfl | hne
    · simpa only [Function.update_self] using hholds
    · simpa only [Function.update_of_ne hne] using h.holds y

/-- A tick publishes in the node's name. -/
theorem Truthful.tick (h : Truthful w) {x : Name} {now capacity : ℕ}
    (hdone : (w.loop x).done = false)
    (hfits : ∀ msg ∈ (((w.loop x).node.setCapacityUsed capacity).tick now).1.publish,
      msg.Fits ∧ msg.encode.length < 2 ^ 64) :
    Truthful (w.tick members x now capacity) := by
  rw [WireNetwork.tick, hdone, if_neg Bool.false_ne_true, ClusterRun.step_ticked hdone]
  refine h.update (h.self x) ((h.holds x).tick now capacity) fun s t raw hraw => ?_
  split at hraw
  next hcond =>
    rcases List.mem_append.mp hraw with hold | hnew
    · exact Or.inl hold
    · rw [filterMap_raw_tick] at hnew
      obtain ⟨sent, hsent, rfl⟩ := List.mem_map.mp hnew
      obtain ⟨hfit, hlen⟩ := hfits sent hsent
      have hread := ClusterMsg.decode_of_rearranged sent.encode_rearranged hfit hlen
      refine Or.inr fun msg hmsg => ?_
      obtain rfl := Option.some.inj (hread.symm.trans hmsg)
      rw [ClusterNode.sender_of_mem_publish _ _ hsent, hcond.1]
      exact congrArg some (h.self x)
  next => exact Or.inl hraw

/-- What is heard from another is not in one's own name. -/
theorem Truthful.deliver (h : Truthful w) {sender receiver : Name} (hne : sender ≠ receiver)
    (now : ℕ) : Truthful (w.deliver sender receiver now) := by
  rw [WireNetwork.deliver]
  split
  next => exact h
  next hdone =>
    rw [Bool.not_eq_true] at hdone
    cases hqueue : w.queue sender receiver with
    | nil => exact h
    | cons raw rest =>
        have hrest : ∀ s t, ∀ other ∈ (if s = sender ∧ t = receiver then rest else w.queue s t),
            other ∈ w.queue s t := by
          intro s t other hother
          split at hother
          next hcond =>
            obtain ⟨rfl, rfl⟩ := hcond
            exact hqueue ▸ List.mem_cons_of_mem _ hother
          next => exact hother
        have hhonest : (w.loop receiver).Honest (.received (some raw) now) := by
          intro _ msg hmsg hself
          have hfrom := h.sender sender receiver raw (hqueue ▸ List.mem_cons_self ..) msg hmsg
          rw [hfrom, h.self receiver] at hself
          exact absurd (Option.some.inj hself) hne
        have hstep := (ClusterRun.holdsClaims_step (h.holds receiver) _).mpr hhonest
        refine h.update ?_ hstep fun s t other hother => Or.inl (hrest s t other hother)
        cases hmsg : (ClusterMsg.decode raw : Option (ClusterMsg Name)) with
        | none =>
            rw [ClusterRun.step_ignores hmsg]
            exact h.self receiver
        | some msg =>
            rw [ClusterRun.step_received hdone hmsg]
            exact h.self receiver

/-- Every action leaves what is held what is claimed. -/
theorem truthful_step (h : Truthful w) {action : WireAction Name κ}
    (hallowed : w.Allowed members action) : Truthful (w.step members action) := by
  cases action with
  | tick x now capacity =>
      cases hdone : (w.loop x).done with
      | true =>
          rw [step, WireNetwork.tick, hdone, if_pos rfl]
          exact h
      | false => exact h.tick hdone (hallowed.2 hdone)
  | deliver sender receiver now => exact h.deliver hallowed.2.2 now
  | lose sender receiver =>
      refine ⟨h.self, fun s t raw hraw => ?_, h.holds⟩
      simp only [step, WireNetwork.lose] at hraw
      split at hraw
      next => exact h.sender s t raw (List.mem_of_mem_tail hraw)
      next => exact h.sender s t raw hraw
  | other sender receiver raw =>
      refine ⟨h.self, fun s t other hother msg hmsg => ?_, h.holds⟩
      simp only [step] at hother
      split at hother
      next =>
        rcases List.mem_append.mp hother with hold | hnew
        · exact h.sender s t other hold msg hmsg
        · have hnone : (ClusterMsg.decode raw : Option (ClusterMsg Name)) = none := hallowed
          rw [List.mem_singleton.mp hnew, hnone] at hmsg
          cases hmsg
      next => exact h.sender s t other hother msg hmsg
  | cancel x =>
      have hstep := (ClusterRun.holdsClaims_step (h.holds x) .cancelled).mpr trivial
      refine h.update ?_ hstep fun s t other hother => Or.inl hother
      cases hdone : (w.loop x).done with
      | true =>
          rw [ClusterRun.step_of_done hdone]
          exact h.self x
      | false =>
          rw [(ClusterRun.step_stops hdone).1]
          exact h.self x
  | rehash x state =>
      obtain ⟨-, hagree⟩ := hallowed
      have hclaims : ∀ job, state.claimants job = (w.loop x).node.state.claimants job :=
        fun job => congrFun hagree.claimants job
      refine h.update (h.self x) ⟨(h.holds x).due, fun job => ?_⟩
        fun s t other hother => Or.inl hother
      rw [hclaims]
      exact (h.holds x).claims job

/-- What a loop's listener holds is always what its node claims: it is told to ingest only
what it does not hold and to drop only what it holds. -/
theorem holds_claims {config : ClusterConfig κ} {total : Name → ℕ}
    {announced : List (Announcement Name)} {actions : List (WireAction Name κ)}
    (hrun : Admits (step members) (Allowed members) (start config total announced) actions) :
    ∀ w ∈ states (step members) (start config total announced) actions,
      ∀ x, (w.loop x).HoldsClaims := by
  have hstep : ∀ (w : WireNetwork Name κ) (action : WireAction Name κ),
      Truthful w → Allowed members w action → Truthful (w.step members action) :=
    fun _ _ h hallowed => truthful_step h hallowed
  intro w hw
  exact (invariant hstep (truthful_start config total announced) hrun w hw).holds

end Truthful

end Loops

/-- `/a` and `/b`. -/
def pairNames : Finset TypedName := {[(8, ascii "a")], [(8, ascii "b")]}

/-- `/a` ticks and claims a job, its heartbeat is heard and its claim is lost, something else
is published, and `/a` stops. -/
def pairActions : List (WireAction TypedName ℚ) :=
  [.tick [(8, ascii "a")] 1 7, .other [(8, ascii "a")] [(8, ascii "b")] [],
    .deliver [(8, ascii "a")] [(8, ascii "b")] 2, .lose [(8, ascii "a")] [(8, ascii "b")],
    .deliver [(8, ascii "a")] [(8, ascii "b")] 2, .cancel [(8, ascii "a")],
    .tick [(8, ascii "a")] 3 7]

/-- Their loops, that have heard of a job `/j`. -/
def pairStart : WireNetwork TypedName ℚ :=
  start ⟨1, 5000000000, 3, 3 / 4⟩ (fun _ => 1000) [.job [(8, ascii "j")] 0]

theorem admits_pairActions :
    letI := Network.exactUtilization
    letI := blockTlvWriter
    Admits (step pairNames) (Allowed pairNames) pairStart pairActions := by
  let _ := Network.exactUtilization
  let _ := blockTlvWriter
  have hpublish : (((pairStart.loop [(8, ascii "a")]).node.setCapacityUsed 7).tick 1).1.publish =
      [.heartbeat [(8, ascii "a")] 7 1000 1, .claim [(8, ascii "j")] [(8, ascii "a")] 1] := by
    decide +kernel
  have hfits : ∀ msg ∈ (((pairStart.loop [(8, ascii "a")]).node.setCapacityUsed 7).tick 1).1.publish,
      msg.Fits ∧ msg.encode.length < 2 ^ 64 := by
    rw [hpublish]
    intro msg hmsg
    rcases List.mem_pair.mp hmsg with rfl | rfl
    · exact ⟨by simp only [ClusterMsg.Fits]; decide, by decide +kernel⟩
    · exact ⟨by simp only [ClusterMsg.Fits]; decide, by decide +kernel⟩
  have hends : ([(8, ascii "a")] : TypedName) ∈ pairNames ∧ [(8, ascii "b")] ∈ pairNames ∧
      ([(8, ascii "a")] : TypedName) ≠ [(8, ascii "b")] := by decide
  have hstopped : ((run (step pairNames) pairStart (pairActions.take 6)).loop
      [(8, ascii "a")]).done = true := by decide +kernel
  have hother : (ClusterMsg.decode [] : Option (ClusterMsg TypedName)) = none := by decide +kernel
  refine ⟨⟨hends.1, fun _ => hfits⟩, hother, hends, trivial, hends, trivial, ⟨hends.1, ?_⟩, trivial⟩
  intro hrunning
  exact absurd (hstopped.symm.trans hrunning) (by decide)

theorem simulates_network_pairStart :
    letI := Network.exactUtilization
    letI := blockTlvWriter
    ∃ actions', Network.Runs pairNames (fun _ _ => True)
        (Network.start ⟨1, 5000000000, 3, 3 / 4⟩ (fun _ => 0) (fun _ => 1000)
          [.job [(8, ascii "j")] 0]) actions' ∧
      Refines (run (step pairNames) pairStart pairActions)
        ((Network.start ⟨1, 5000000000, 3, 3 / 4⟩ (fun _ => 0) (fun _ => 1000)
          [.job [(8, ascii "j")] 0]).steps pairNames actions') := by
  let _ := Network.exactUtilization
  let _ := blockTlvWriter
  exact simulates_network pairNames admits_pairActions

theorem holds_claims_pairStart :
    letI := Network.exactUtilization
    letI := blockTlvWriter
    let ended := (run (step pairNames) pairStart pairActions).loop [(8, ascii "a")]
    ended.HoldsClaims ∧ (ClusterRun.holdings ended.effects [(8, ascii "j")]).isSome := by
  let _ := Network.exactUtilization
  let _ := blockTlvWriter
  exact ⟨holds_claims admits_pairActions _ (run_mem_states _ _) _, by decide +kernel⟩

end WireNetwork

end NdnRepo.Cluster
