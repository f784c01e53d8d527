import NdnRepo.Cluster.Designation
import NdnRepo.Cluster.Late
import NdnRepo.Cluster.Msg
import NdnRepo.Lib.Simulation

/-!
# The loop of a node

`run` waits for a publication of the coordination group, for its ticker or to be cancelled.
A publication that is a message is folded into the view, and any other is ignored.  At a
tick it reports the capacity used, publishes what the tick decided, and hands out first the
targets to ingest and then the jobs to drop.

`holdings` is what someone holds who does as told.  As long as no one else speaks in the
node's name these are the jobs it claims, it is told to ingest only what it does not hold
and to drop only what it holds (`holds_claims_iff`).
-/

namespace NdnRepo.Cluster

open Steps

/-- What `run` does to the world outside. -/
inductive RunEffect (Name : Type) where
  /-- `publish_msg`. -/
  | publish (raw : Bytes)
  /-- A target for `ingest_tx`. -/
  | ingest (target : IngestTarget Name)
  /-- A job for `drop_tx`. -/
  | drop (job : Name)
deriving DecidableEq

/-- What the loop finds ready. -/
inductive RunEvent where
  /-- `cancel.cancelled()`. -/
  | cancelled
  /-- `incoming.recv()`: a publication, or nothing once no sender is left. -/
  | received (msg : Option Bytes) (now : ℕ)
  /-- `ticker.tick()`, with what `capacity()` reports. -/
  | ticked (now capacity : ℕ)

/-- The loop of `run` between two turns. -/
structure ClusterRun (Name κ : Type) where
  /-- The node. -/
  node : ClusterNode Name κ
  /-- Whether the loop was left. -/
  done : Bool
  /-- What it has done so far. -/
  effects : List (RunEffect Name)

namespace ClusterRun

section Loop

variable {Name κ : Type} [LinearOrder Name] [NdnTlvWriter] [NameTlvWriter Name] [Utilization κ]

/-- What a tick does, and the node after it. -/
def tick (node : ClusterNode Name κ) (now capacity : ℕ) :
    List (RunEffect Name) × ClusterNode Name κ :=
  let (out, node) := (node.setCapacityUsed capacity).tick now
  (out.publish.map (fun m => .publish m.encode) ++
    (out.ingest.map (fun job => .ingest ⟨job, node.shardPlan job now⟩) ++
      out.drop.map .drop), node)

/-- One turn of the loop. -/
def step (r : ClusterRun Name κ) (event : RunEvent) : ClusterRun Name κ :=
  if r.done then r
  else
    match event with
    | .cancelled => { r with done := true }
    | .received none _ => { r with done := true }
    | .received (some raw) now =>
        match ClusterMsg.decode raw with
        | some m => { r with node := r.node.observe m now }
        | none => r
    | .ticked now capacity =>
        let (effects, node) := tick r.node now capacity
        { r with node := node, effects := r.effects ++ effects }

variable {r : ClusterRun Name κ}

theorem step_of_done (h : r.done = true) (event : RunEvent) : r.step event = r := if_pos h

/-- The loop is left when it is cancelled or no sender is left. -/
theorem step_stops (h : r.done = false) :
    r.step .cancelled = { r with done := true } ∧
      ∀ now, r.step (.received none now) = { r with done := true } := by
  simp [step, h]

/-- A message is folded into the view. -/
theorem step_received (h : r.done = false) {raw : Bytes} {msg : ClusterMsg Name}
    (hdecode : ClusterMsg.decode raw = some msg) (now : ℕ) :
    r.step (.received (some raw) now) = { r with node := r.node.observe msg now } := by
  simp [step, h, hdecode]

/-- Any other publication is ignored. -/
theorem step_ignores {raw : Bytes}
    (hdecode : (ClusterMsg.decode raw : Option (ClusterMsg Name)) = none) (now : ℕ) :
    r.step (.received (some raw) now) = r := by
  simp [step, hdecode]

theorem step_ticked (h : r.done = false) (now capacity : ℕ) :
    r.step (.ticked now capacity) =
      { r with
        node := (tick r.node now capacity).2
        effects := r.effects ++ (tick r.node now capacity).1 } := by
  simp [step, h]

end Loop

/-! ## Doing as told -/

section Holdings

variable {Name : Type} [DecidableEq Name]

/-- What is held after an effect by someone who does as told. -/
def follow (held : Name → Option (IngestTarget Name)) :
    RunEffect Name → Name → Option (IngestTarget Name)
  | .publish _ => held
  | .ingest target => Function.update held target.job (some target)
  | .drop job => Function.update held job none

/-- What is to be ingested is not held, and what is to be dropped is. -/
def Due (held : Name → Option (IngestTarget Name)) : RunEffect Name → Prop
  | .publish _ => True
  | .ingest target => held target.job = none
  | .drop job => (held job).isSome

/-- What is held after some effects by someone who held nothing. -/
def holdings (effects : List (RunEffect Name)) : Name → Option (IngestTarget Name) :=
  Steps.run follow (fun _ => none) effects

variable {held : Name → Option (IngestTarget Name)} {jobs : List Name}

theorem follow_publishes {α : Type} (encode : α → Bytes) (msgs : List α) :
    Steps.run follow held (msgs.map fun m => .publish (encode m)) = held ∧
      Admits follow Due held (msgs.map fun m => .publish (encode m)) := by
  induction msgs with
  | nil => exact ⟨rfl, trivial⟩
  | cons msg msgs ih => exact ⟨ih.1, trivial, ih.2⟩

/-- Targets are held once they are handed out. -/
theorem follow_ingests (plan : Name → Option ShardPlan) :
    ∀ (jobs : List Name) (held : Name → Option (IngestTarget Name)),
      Steps.run follow held (jobs.map fun job => .ingest ⟨job, plan job⟩) =
        (fun job => if job ∈ jobs then some ⟨job, plan job⟩ else held job) ∧
      (jobs.Nodup → (∀ job ∈ jobs, held job = none) →
        Admits follow Due held (jobs.map fun job => .ingest ⟨job, plan job⟩))
  | [], held => ⟨by simp, fun _ _ => trivial⟩
  | first :: jobs, held => by
      obtain ⟨hrun, hdue⟩ := follow_ingests plan jobs (follow held (.ingest ⟨first, plan first⟩))
      refine ⟨?_, fun hnodup hnone => ⟨hnone first (List.mem_cons_self ..), ?_⟩⟩
      · rw [List.map_cons, run_cons, hrun]
        funext job
        rcases eq_or_ne job first with rfl | hne
        · by_cases hmem : job ∈ jobs <;> simp [hmem, follow]
        · simp [hne, follow]
      · obtain ⟨hfirst, hnodup⟩ := List.nodup_cons.mp hnodup
        refine hdue hnodup fun job hjob => ?_
        rw [follow, Function.update_of_ne (ne_of_mem_of_not_mem hjob hfirst)]
        exact hnone job (List.mem_cons_of_mem _ hjob)

/-- Jobs are no longer held once they are dropped. -/
theorem follow_drops : ∀ (jobs : List Name) (held : Name → Option (IngestTarget Name)),
    Steps.run follow held (jobs.map .drop) = (fun job => if job ∈ jobs then none else held job) ∧
      (jobs.Nodup → (∀ job ∈ jobs, (held job).isSome) → Admits follow Due held (jobs.map .drop))
  | [], held => ⟨by simp, fun _ _ => trivial⟩
  | first :: jobs, held => by
      obtain ⟨hrun, hdue⟩ := follow_drops jobs (follow held (.drop first))
      refine ⟨?_, fun hnodup hsome => ⟨hsome first (List.mem_cons_self ..), ?_⟩⟩
      · rw [List.map_cons, run_cons, hrun]
        funext job
        rcases eq_or_ne job first with rfl | hne
        · by_cases hmem : job ∈ jobs <;> simp [hmem, follow]
        · simp [hne, follow]
      · obtain ⟨hfirst, hnodup⟩ := List.nodup_cons.mp hnodup
        refine hdue hnodup fun job hjob => ?_
        rw [follow, Function.update_of_ne (ne_of_mem_of_not_mem hjob hfirst)]
        exact hsome job (List.mem_cons_of_mem _ hjob)

end Holdings

section Ticks

variable {Name κ : Type} [LinearOrder Name] [NdnTlvWriter] [NameTlvWriter Name] [Utilization κ]
variable (node : ClusterNode Name κ) (now capacity : ℕ)

/-- A tick publishes, then hands out targets, then drops jobs. -/
theorem tick_fst : (tick node now capacity).1 =
    ((node.setCapacityUsed capacity).tick now).1.publish.map (fun m => .publish m.encode) ++
      (((node.setCapacityUsed capacity).tick now).1.ingest.map (fun job =>
          .ingest ⟨job, (tick node now capacity).2.shardPlan job now⟩) ++
        ((node.setCapacityUsed capacity).tick now).1.drop.map .drop) := rfl

/-- After a tick the targets it claimed are held, and the jobs it released are not. -/
theorem follow_tick (held : Name → Option (IngestTarget Name)) :
    Steps.run follow held (tick node now capacity).1 = fun job =>
      if job ∈ ((node.setCapacityUsed capacity).tick now).1.drop then none
      else if job ∈ ((node.setCapacityUsed capacity).tick now).1.ingest then
        some ⟨job, (tick node now capacity).2.shardPlan job now⟩
      else held job := by
  rw [tick_fst, run_append, run_append, (follow_publishes _ _).1, (follow_ingests _ _ held).1,
    (follow_drops _ _).1]

/-- A tick says what is due to someone who holds what the node claims. -/
theorem due_tick {held : Name → Option (IngestTarget Name)}
    (hheld : ∀ job, (held job).isSome ↔ node.selfId ∈ node.state.claimants job) :
    Admits follow Due held (tick node now capacity).1 := by
  have hbeat : ∀ job, ((node.setCapacityUsed capacity).beat now).claimants job =
      node.state.claimants job := fun job => rfl
  obtain ⟨hingest, hdrop⟩ := (node.setCapacityUsed capacity).nodup_tick now
  rw [tick_fst, admits_append, admits_append, (follow_publishes _ _).1, (follow_ingests _ _ held).1]
  refine ⟨(follow_publishes _ _).2, (follow_ingests _ _ held).2 hingest fun job hjob => ?_,
    (follow_drops _ _).2 hdrop fun job hjob => ?_⟩
  · obtain ⟨-, -, hmem, -⟩ := ((node.setCapacityUsed capacity).mem_tick_ingest now).mp hjob
    rw [Finset.mem_sdiff, hbeat] at hmem
    exact Option.not_isSome_iff_eq_none.mp (mt (hheld job).mp hmem.2)
  · obtain ⟨-, -, hself, -⟩ := ((node.setCapacityUsed capacity).mem_tick_drop now).mp hjob
    have hclaimed := (ClusterState.mem_standing.mp hself).1
    rw [hbeat] at hclaimed
    split
    next => rfl
    next => exact (hheld job).mpr hclaimed

end Ticks

end ClusterRun

/-! ## What the node claims -/

/-- A message changes its sender's claims, and only those of the job it is about. -/
theorem ClusterState.mem_claimants_observe_iff {Name κ : Type} [LinearOrder Name]
    (s : ClusterState Name κ) (msg : ClusterMsg Name) (now : ℕ) (job z : Name) :
    z ∈ (s.observe msg now).claimants job ↔
      if msg.sender = some z then (msg.takes job).getD (decide (z ∈ s.claimants job)) = true
      else z ∈ s.claimants job := by
  have hclaimed : ∀ s : ClusterState Name κ,
      z ∈ s.claimants job ↔ ((s.known z).claims job).isSome := fun s => mem_claimants_iff
  split
  next hsender =>
    have hbefore : ((s.known z).claims job).isSome = decide (z ∈ s.claimants job) := by
      rw [Bool.eq_iff_iff, decide_eq_true_eq, hclaimed]
    rw [hclaimed, s.known_observe_of_sender hsender, Knowledge.isSome_claims_hear, hbefore]
  next hsender => rw [hclaimed, s.known_observe_of_ne hsender, ← hclaimed]

namespace ClusterRun

section Claims

variable {Name κ : Type} [LinearOrder Name] [NdnTlvWriter] [NameTlvWriter Name] [Utilization κ]

omit [NdnTlvWriter] [NameTlvWriter Name] [Utilization κ] in
/-- What is held is what the node claims, and every effect was due. -/
structure HoldsClaims (r : ClusterRun Name κ) : Prop where
  /-- Every effect was due. -/
  due : Admits follow Due (fun _ => none) r.effects
  /-- What the node claims is held. -/
  claims : ∀ job, (holdings r.effects job).isSome ↔ r.node.selfId ∈ r.node.state.claimants job

/-- No one else speaks in the node's name: what it hears in its name it knows. -/
def Honest (r : ClusterRun Name κ) : RunEvent → Prop
  | .received (some raw) _ => r.done = false → ∀ msg, ClusterMsg.decode raw = some msg →
      msg.sender = some r.node.selfId → ∀ job, ∀ taken ∈ msg.takes job,
        (taken = true ↔ r.node.selfId ∈ r.node.state.claimants job)
  | _ => True

variable {r : ClusterRun Name κ}

omit [NdnTlvWriter] [NameTlvWriter Name] [Utilization κ] in
/-- A message leaves what is held what the node claims, exactly if it says what is known. -/
theorem holdsClaims_observe (h : r.HoldsClaims) (msg : ClusterMsg Name) (now : ℕ) :
    ({ r with node := r.node.observe msg now } : ClusterRun Name κ).HoldsClaims ↔
      (msg.sender = some r.node.selfId → ∀ job, ∀ taken ∈ msg.takes job,
        (taken = true ↔ r.node.selfId ∈ r.node.state.claimants job)) := by
  have hiff : ∀ job, ((holdings r.effects job).isSome ↔
      r.node.selfId ∈ (r.node.observe msg now).state.claimants job) ↔
        (msg.sender = some r.node.selfId → ∀ taken ∈ msg.takes job,
          (taken = true ↔ r.node.selfId ∈ r.node.state.claimants job)) := by
    intro job
    have hobserve := r.node.state.mem_claimants_observe_iff msg now job r.node.selfId
    rw [h.claims, show (r.node.observe msg now).state = r.node.state.observe msg now from rfl,
      hobserve]
    cases hsender : decide (msg.sender = some r.node.selfId) with
    | false => simp [of_decide_eq_false hsender]
    | true =>
        rw [if_pos (of_decide_eq_true hsender)]
        cases htakes : msg.takes job with
        | none => simp
        | some taken => simp [of_decide_eq_true hsender, iff_comm]
  constructor
  · intro h' hsender job
    exact (hiff job).mp (h'.claims job) hsender
  · intro hhonest
    exact ⟨h.due, fun job => (hiff job).mpr fun hsender => hhonest hsender job⟩

/-- A tick leaves what is held what the node claims. -/
theorem HoldsClaims.tick (h : r.HoldsClaims) (now capacity : ℕ) :
    ({ r with
        node := (ClusterRun.tick r.node now capacity).2
        effects := r.effects ++ (ClusterRun.tick r.node now capacity).1 } :
      ClusterRun Name κ).HoldsClaims := by
  obtain ⟨-, hclaims⟩ := (r.node.setCapacityUsed capacity).tick_view now
  refine ⟨admits_append.mpr ⟨h.due, due_tick r.node now capacity h.claims⟩, fun job => ?_⟩
  rw [holdings, run_append, follow_tick]
  have hafter := hclaims job
  have hbefore : ((r.node.setCapacityUsed capacity).beat now).claimants job =
      r.node.state.claimants job := rfl
  rw [hbefore] at hafter
  have hnode : (ClusterRun.tick r.node now capacity).2.state.claimants job = _ := hafter
  have hself : (r.node.setCapacityUsed capacity).selfId = r.node.selfId := rfl
  have hsame : (ClusterRun.tick r.node now capacity).2.selfId = r.node.selfId := rfl
  simp only [hnode, hself, hsame]
  split
  next hdrop =>
    have hingest := mt ((r.node.setCapacityUsed capacity).notMem_drop_of_mem_ingest now)
      (not_not.mpr hdrop)
    simp [hingest]
  next hdrop =>
    split
    next => simp
    next => exact h.claims job

/-- An event leaves what is held what the node claims, exactly if it is honest. -/
theorem holdsClaims_step (h : r.HoldsClaims) (event : RunEvent) :
    (r.step event).HoldsClaims ↔ r.Honest event := by
  cases hdone : r.done with
  | true =>
      rw [step_of_done hdone]
      refine ⟨fun _ => ?_, fun _ => h⟩
      cases event with
      | cancelled => trivial
      | received msg now =>
          cases msg with
          | none => trivial
          | some raw =>
              intro hfalse
              rw [hdone] at hfalse
              cases hfalse
      | ticked now capacity => trivial
  | false =>
      cases event with
      | cancelled =>
          rw [(step_stops hdone).1]
          exact ⟨fun _ => trivial, fun _ => ⟨h.due, h.claims⟩⟩
      | received msg now =>
          cases msg with
          | none =>
              rw [(step_stops hdone).2 now]
              exact ⟨fun _ => trivial, fun _ => ⟨h.due, h.claims⟩⟩
          | some raw =>
              simp only [Honest, hdone, true_implies]
              cases hdecode : (ClusterMsg.decode raw : Option (ClusterMsg Name)) with
              | none =>
                  rw [step_ignores hdecode]
                  simpa using h
              | some msg =>
                  rw [step_received hdone hdecode, holdsClaims_observe h msg now]
                  simp only [Option.some.injEq, forall_eq']
      | ticked now capacity =>
          rw [step_ticked hdone]
          exact ⟨fun _ => trivial, fun _ => h.tick now capacity⟩

/-- Someone who does as told holds exactly the jobs the node claims, is told to ingest only
what is not held and to drop only what is, in every state of a run, exactly if no one else
speaks in the node's name. -/
theorem holds_claims_iff {node : ClusterNode Name κ}
    (hfree : ∀ job, node.selfId ∉ node.state.claimants job) (events : List RunEvent) :
    (∀ r ∈ states step (⟨node, false, []⟩ : ClusterRun Name κ) events, r.HoldsClaims) ↔
      Admits step Honest (⟨node, false, []⟩ : ClusterRun Name κ) events := by
  have hstart : (⟨node, false, []⟩ : ClusterRun Name κ).HoldsClaims :=
    ⟨trivial, fun job => by simpa [holdings] using hfree job⟩
  rw [forall_states_iff fun r event h => holdsClaims_step h event]
  exact and_iff_right hstart

end Claims

/-- A node `/a` that was told of a job `/j`. -/
def toldNode : ClusterNode TypedName ℚ :=
  (ClusterNode.new [(8, ascii "a")] ⟨1, 5000000000, 3, 3 / 4⟩ 1000).announceJob [(8, ascii "j")] 0

/-- It ticks, hears that `/b` is alive, and ticks again. -/
def toldRun [NdnTlvWriter] : List RunEvent :=
  [.ticked 1 0,
    .received (some (ClusterMsg.encode (.heartbeat ([(8, ascii "b")] : TypedName) 0 1000 1))) 2,
    .ticked 3 500]

theorem holds_claims_toldRun :
    letI := Network.exactUtilization
    letI := blockTlvWriter
    (run step (⟨toldNode, false, []⟩ : ClusterRun TypedName ℚ) toldRun).HoldsClaims := by
  let _ := Network.exactUtilization
  let _ := blockTlvWriter
  have hclaimants : ∀ job, toldNode.state.claimants job = ∅ := fun job => by
    rw [toldNode, ClusterNode.announceJob, ClusterState.claimants_observeJob]
    rfl
  refine (holds_claims_iff (fun job => by simp [hclaimants]) toldRun).mpr
    ⟨trivial, ?_, trivial, trivial⟩ _ (run_mem_states _ _)
  intro _ msg hdecode hsender
  have hheard : (ClusterMsg.decode (ClusterMsg.encode
      (.heartbeat ([(8, ascii "b")] : TypedName) 0 1000 1)) : Option (ClusterMsg TypedName)) =
        some (.heartbeat [(8, ascii "b")] 0 1000 1) := by decide +kernel
  obtain rfl := Option.some.inj (hheard.symm.trans hdecode)
  exact absurd hsender (by decide +kernel)

end ClusterRun

end NdnRepo.Cluster
