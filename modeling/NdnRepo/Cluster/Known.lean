import NdnRepo.Cluster.Node

/-!
# What is known of a node

All that a view knows of a node, its status and its claims, changes by the node's
own messages only, and by each in a way that depends on nothing else in the view
(`known_observe_of_sender`,
`known_observe_of_ne`).  So it is decided by the node's messages in the order they are
heard, whatever is heard of others in between (`known_foldl`).

A job's parameters change by announcements only.  Claims make a job known, with
the default parameters if it was not.
-/

namespace NdnRepo.Cluster

variable {Name κ : Type} [LinearOrder Name]

/-- What is known of a node. -/
@[ext] structure Knowledge (Name : Type) where
  /-- Its status. -/
  status : Option NodeStatus
  /-- When it claimed the jobs it claims. -/
  claims : Name → Option ℕ

/-- What is known of a node after one of its messages is heard. -/
def Knowledge.hear (k : Knowledge Name) (msg : ClusterMsg Name) (now : ℕ) : Knowledge Name :=
  match msg with
  | .heartbeat _ used total _ =>
      let e := k.status.getD ⟨0, used, total⟩
      { k with status := some (if e.lastHeartbeatNs ≤ now then ⟨now, used, total⟩ else e) }
  | .job _ _ _ => k
  | .claim job _ ts =>
      { k with claims := Function.update k.claims job (some (max ((k.claims job).getD 0) ts)) }
  | .release job _ => { k with claims := Function.update k.claims job none }

namespace ClusterState

variable (s : ClusterState Name κ)

/-- When a node claimed a job, if it claims it. -/
def claimTime (job node : Name) : Option ℕ :=
  (s.jobs.lookup job).bind fun j => j.claimants.lookup node

/-- What a view knows of a node. -/
def known (node : Name) : Knowledge Name := ⟨s.status node, fun job => s.claimTime job node⟩

variable {s}

theorem mem_claimants_iff {job node : Name} :
    node ∈ s.claimants job ↔ (s.claimTime job node).isSome := by
  rw [mem_claimants, claimTime]
  cases s.jobs.lookup job with
  | none => simp
  | some j => simp [AList.lookup_isSome]

/-! ## Messages -/

variable (s)

theorem claimTime_observeClaim (job other node z : Name) (ts : ℕ) :
    (s.observeClaim job node ts).claimTime other z =
      if other = job ∧ z = node then some (max ((s.claimTime other z).getD 0) ts)
      else s.claimTime other z := by
  rcases eq_or_ne other job with rfl | hjob
  · rcases eq_or_ne z node with rfl | hz
    · cases hj : s.jobs.lookup other <;>
        simp [claimTime, observeClaim, hj, -AList.insert_empty]
    · cases hj : s.jobs.lookup other <;>
        simp [claimTime, observeClaim, hj, hz, -AList.insert_empty, AList.lookup_insert_ne hz]
  · simp [claimTime, observeClaim, AList.lookup_insert_ne hjob, hjob]

theorem claimTime_observeRelease (job other node z : Name) :
    (s.observeRelease job node).claimTime other z =
      if other = job ∧ z = node then none else s.claimTime other z := by
  cases hj : s.jobs.lookup job with
  | none =>
      rcases eq_or_ne other job with rfl | hjob
      · simp [claimTime, observeRelease, hj]
      · simp [observeRelease, hj, hjob]
  | some j =>
      rcases eq_or_ne other job with rfl | hjob
      · rcases eq_or_ne z node with rfl | hz
        · simp [claimTime, observeRelease, hj]
        · simp [claimTime, observeRelease, hj, hz, AList.lookup_erase_ne hz]
      · simp [claimTime, observeRelease, hj, AList.lookup_insert_ne hjob, hjob]

theorem claimTime_observeJob (job : Name) (replicationFactor : ℕ) :
    (s.observeJob job replicationFactor).claimTime = s.claimTime := by
  funext other z
  rcases eq_or_ne other job with rfl | h
  · cases hj : s.jobs.lookup other <;> simp only [claimTime, observeJob, AList.lookup_insert, hj] <;>
      split <;> rfl
  · simp [claimTime, observeJob, AList.lookup_insert_ne h]

theorem claimTime_observeErasureJob (job : Name) (k redundancy : ℕ) :
    (s.observeErasureJob job k redundancy).claimTime = s.claimTime := by
  funext other z
  rcases eq_or_ne other job with rfl | h
  · cases hj : s.jobs.lookup other <;>
      simp only [claimTime, observeErasureJob, AList.lookup_insert, hj] <;> rfl
  · simp [claimTime, observeErasureJob, AList.lookup_insert_ne h]

/-- Announcements say nothing of nodes. -/
theorem known_observeJob (job : Name) (replicationFactor : ℕ) (z : Name) :
    (s.observeJob job replicationFactor).known z = s.known z :=
  Knowledge.ext rfl (funext fun other =>
    congrFun (congrFun (s.claimTime_observeJob job replicationFactor) other) z)

theorem known_observeErasureJob (job : Name) (k redundancy : ℕ) (z : Name) :
    (s.observeErasureJob job k redundancy).known z = s.known z :=
  Knowledge.ext rfl (funext fun other =>
    congrFun (congrFun (s.claimTime_observeErasureJob job k redundancy) other) z)

section Messages

variable {msg : ClusterMsg Name} {z : Name}

/-- A message changes what is known of its sender. -/
theorem known_observe_of_sender (h : msg.sender = some z) (now : ℕ) :
    (s.observe msg now).known z = (s.known z).hear msg now := by
  cases msg with
  | heartbeat node used total epoch =>
      obtain rfl : node = z := Option.some.inj h
      rw [known, observe, status_observeHeartbeat, if_pos rfl]
      rfl
  | job target repl erasure => cases h
  | claim job node ts =>
      obtain rfl : node = z := Option.some.inj h
      refine Knowledge.ext rfl (funext fun other => ?_)
      simp only [known, observe, claimTime_observeClaim, and_true, Knowledge.hear,
        Function.update_apply]
      split
      next h => rw [h]
      next => rfl
  | release job node =>
      obtain rfl : node = z := Option.some.inj h
      refine Knowledge.ext (congrFun (s.status_observeRelease job node) node)
        (funext fun other => ?_)
      simp only [known, observe, claimTime_observeRelease, and_true, Knowledge.hear,
        Function.update_apply]

/-- A message changes nothing that is known of others. -/
theorem known_observe_of_ne (h : msg.sender ≠ some z) (now : ℕ) :
    (s.observe msg now).known z = s.known z := by
  cases msg with
  | heartbeat node used total epoch =>
      have hz : z ≠ node := fun heq => h (congrArg some heq.symm)
      rw [known, observe, status_observeHeartbeat, if_neg hz]
      rfl
  | job target repl erasure =>
      cases erasure with
      | none => exact s.known_observeJob target repl z
      | some kn => exact s.known_observeErasureJob target kn.1 (kn.2 - kn.1) z
  | claim job node ts =>
      have hz : z ≠ node := fun heq => h (congrArg some heq.symm)
      refine Knowledge.ext rfl (funext fun other => ?_)
      simp [known, observe, claimTime_observeClaim, hz]
  | release job node =>
      have hz : z ≠ node := fun heq => h (congrArg some heq.symm)
      refine Knowledge.ext (congrFun (s.status_observeRelease job node) z) (funext fun other => ?_)
      simp [known, observe, claimTime_observeRelease, hz]

end Messages

/-- What is known of a node is decided by its own messages. -/
theorem known_foldl (now : ℕ) (z : Name) :
    ∀ (msgs : List (ClusterMsg Name)) (s : ClusterState Name κ),
      (msgs.foldl (fun s msg => s.observe msg now) s).known z =
        (msgs.filter fun msg => msg.sender = some z).foldl (fun k msg => k.hear msg now) (s.known z)
  | [], _ => rfl
  | msg :: msgs, s => by
      rw [List.foldl_cons, known_foldl now z msgs]
      by_cases h : msg.sender = some z
      · rw [known_observe_of_sender s h, List.filter_cons_of_pos (by simpa using h),
          List.foldl_cons]
      · rw [known_observe_of_ne s h, List.filter_cons_of_neg (by simpa using h)]

theorem foldl_observe_config (now : ℕ) :
    ∀ {msgs : List (ClusterMsg Name)} {s : ClusterState Name κ},
      (msgs.foldl (fun s msg => s.observe msg now) s).config = s.config
  | [], _ => rfl
  | msg :: msgs, s => by
      rw [List.foldl_cons, foldl_observe_config now, config_observe]

/-- Messages from nodes change no job parameters if they claim known jobs only. -/
theorem foldl_observe_replication (now : ℕ) :
    ∀ {msgs : List (ClusterMsg Name)} {s : ClusterState Name κ},
      (∀ msg ∈ msgs, (∃ z, msg.sender = some z) ∧
        ∀ job node ts, msg = .claim job node ts → (s.replication job).isSome) →
        (msgs.foldl (fun s msg => s.observe msg now) s).replication = s.replication
  | [], _, _ => rfl
  | msg :: msgs, s, h => by
      obtain ⟨⟨z, hz⟩, hclaim⟩ := h msg (List.mem_cons_self ..)
      have hmsg : (s.observe msg now).replication = s.replication := by
        funext job
        cases msg with
        | heartbeat node used total epoch => rfl
        | job target repl erasure => cases hz
        | claim other node ts =>
            have hknown : (s.jobs.lookup other).isSome := by
              simpa [replication] using hclaim other node ts rfl
            exact (s.replication_observeClaim (fun _ => hknown) node ts).1
        | release other node => exact (s.replication_observeRelease other node job).1
      rw [List.foldl_cons, foldl_observe_replication now, hmsg]
      intro m hm
      rw [hmsg]
      exact h m (List.mem_cons_of_mem _ hm)

/-- Liveness is decided by the status. -/
theorem isLive_iff {node : Name} {now : ℕ} : s.isLive node now = true ↔
    ∃ st, s.status node = some st ∧ now - st.lastHeartbeatNs ≤ s.config.deadAfterNs := by
  simp [isLive, status, Option.any_eq_true]

/-- So is capacity. -/
theorem hasCapacity_iff [Utilization κ] {node : Name} : s.hasCapacity node = true ↔
    ∃ st, s.status node = some st ∧ (st.utilization : κ) < s.config.capacityHighWatermark := by
  simp [hasCapacity, status, Option.any_eq_true]

/-! ## Job parameters -/

/-- A job's own factor and its erasure parameters. -/
def spec (job : Name) : Option (ℕ × Option (ℕ × ℕ)) :=
  (s.jobs.lookup job).map fun j => (j.replicationFactor, j.erasure)

/-- How many nodes shall hold a job of given parameters. -/
def replicationOf (config : ClusterConfig κ) : ℕ × Option (ℕ × ℕ) → ℕ
  | (_, some (_, n)) => n
  | (repl, none) => if repl ≠ 0 then repl else config.replicationFactor

theorem replication_eq_spec (job : Name) :
    s.replication job = (s.spec job).map (replicationOf s.config) := by
  rw [replication, spec, Option.map_map]
  congr 1
  funext j
  simp only [effectiveReplication, Function.comp_apply, replicationOf]
  cases j.erasure <;> rfl

theorem erasure_eq_spec (job : Name) : s.erasure job = (s.spec job).bind Prod.snd := by
  rw [erasure, spec, Option.bind_map]
  rfl

/-- A claim makes a job known. -/
theorem spec_observeClaim (job other node : Name) (ts : ℕ) :
    (s.observeClaim job node ts).spec other =
      if other = job then some ((s.spec other).getD (0, none)) else s.spec other := by
  rcases eq_or_ne other job with rfl | h
  · cases hj : s.jobs.lookup other <;> simp [spec, observeClaim, hj]
  · simp [spec, observeClaim, AList.lookup_insert_ne h, h]

theorem spec_observeRelease (job node : Name) : (s.observeRelease job node).spec = s.spec := by
  funext other
  cases hj : s.jobs.lookup job with
  | none => simp [observeRelease, hj]
  | some j =>
      rcases eq_or_ne other job with rfl | h
      · simp [spec, observeRelease, hj]
      · simp [spec, observeRelease, hj, AList.lookup_insert_ne h]

theorem spec_observeJob (job other : Name) (replicationFactor : ℕ) :
    (s.observeJob job replicationFactor).spec other =
      if other = job then
        some (if replicationFactor ≠ 0 then replicationFactor else ((s.spec other).getD (0, none)).1,
          ((s.spec other).getD (0, none)).2)
      else s.spec other := by
  rcases eq_or_ne other job with rfl | h
  · cases hj : s.jobs.lookup other <;> simp only [spec, observeJob, AList.lookup_insert, hj] <;>
      split <;> rfl
  · simp [spec, observeJob, AList.lookup_insert_ne h, h]

theorem spec_observeErasureJob (job other : Name) (k redundancy : ℕ) :
    (s.observeErasureJob job k redundancy).spec other =
      if other = job then
        some (((s.spec other).getD (0, none)).1,
          some (max k 1, min (max k 1 + max redundancy 1) u16Max))
      else s.spec other := by
  rcases eq_or_ne other job with rfl | h
  · cases hj : s.jobs.lookup other <;> simp [spec, observeErasureJob, hj]
  · simp [spec, observeErasureJob, AList.lookup_insert_ne h, h]

/-! ## The same maps -/

variable {s}

/-- Two views are the same but for the order of their maps. -/
structure Same (s s' : ClusterState Name κ) : Prop where
  /-- They have the same configuration. -/
  config : s.config = s'.config
  /-- They know the same of every node. -/
  known : s.known = s'.known
  /-- They know the same jobs with the same parameters. -/
  spec : s.spec = s'.spec

variable {s' : ClusterState Name κ}

/-- They say the same. -/
theorem Same.agree (h : Same s s') : Agree s s' := by
  refine ⟨⟨h.config, funext fun node => ?_, funext fun job => ?_, funext fun job => ?_⟩,
    funext fun job => Finset.ext fun node => ?_⟩
  · exact congrArg Knowledge.status (congrFun h.known node)
  · rw [replication_eq_spec, replication_eq_spec, h.config, h.spec]
  · rw [erasure_eq_spec, erasure_eq_spec, h.spec]
  · have hclaims := congrFun (congrArg Knowledge.claims (congrFun h.known node)) job
    rw [mem_claimants_iff, mem_claimants_iff]
    exact Iff.of_eq (congrArg (fun t => t.isSome = true) hclaims)

end ClusterState

/-! ## What a tick tells -/

namespace Knowledge

variable (node : Name) (now : ℕ)

theorem foldl_hear_release : ∀ (jobs : List Name) (k : Knowledge Name),
    let k' := (jobs.map fun job => ClusterMsg.release job node).foldl (fun k msg => k.hear msg now) k
    k'.status = k.status ∧ ∀ job, k'.claims job = if job ∈ jobs then none else k.claims job
  | [], k => ⟨rfl, fun job => by simp⟩
  | first :: jobs, k => by
      obtain ⟨hstatus, hclaims⟩ := foldl_hear_release jobs (k.hear (.release first node) now)
      refine ⟨hstatus, fun job => ?_⟩
      rw [List.map_cons, List.foldl_cons, hclaims]
      by_cases hjob : job ∈ jobs <;> by_cases hone : job = first <;> simp [hjob, hone, hear]

theorem foldl_hear_claim (ts : ℕ) : ∀ (jobs : List Name) (k : Knowledge Name),
    let k' := (jobs.map fun job => ClusterMsg.claim job node ts).foldl
      (fun k msg => k.hear msg now) k
    k'.status = k.status ∧
      ∀ job, (k'.claims job).isSome = if job ∈ jobs then true else (k.claims job).isSome
  | [], k => ⟨rfl, fun job => by simp⟩
  | first :: jobs, k => by
      obtain ⟨hstatus, hclaims⟩ := foldl_hear_claim ts jobs (k.hear (.claim first node ts) now)
      refine ⟨hstatus, fun job => ?_⟩
      rw [List.map_cons, List.foldl_cons, hclaims]
      by_cases hjob : job ∈ jobs <;> by_cases hone : job = first <;> simp [hjob, hone, hear]

end Knowledge

/-- What is known of a node after the messages of one of its ticks are heard. -/
theorem ClusterNode.hear_publish [Utilization κ] (node : ClusterNode Name κ) (ts now : ℕ)
    (k : Knowledge Name) :
    let k' := (node.tick ts).1.publish.foldl (fun k msg => k.hear msg now) k
    k'.status = (k.hear (.heartbeat node.selfId node.capacityUsed node.capacityTotal
        (node.epoch + 1)) now).status ∧
      ∀ job, (k'.claims job).isSome = if job ∈ (node.tick ts).1.ingest then true
        else if job ∈ (node.tick ts).1.drop then false else (k.claims job).isSome := by
  let k₁ := k.hear (.heartbeat node.selfId node.capacityUsed node.capacityTotal (node.epoch + 1)) now
  let k₂ := ((node.tick ts).1.drop.map fun job => ClusterMsg.release job node.selfId).foldl
    (fun k msg => k.hear msg now) k₁
  obtain ⟨hstatus₁, hclaims₁⟩ :=
    Knowledge.foldl_hear_release node.selfId now (node.tick ts).1.drop k₁
  obtain ⟨hstatus₂, hclaims₂⟩ :=
    Knowledge.foldl_hear_claim node.selfId now ts (node.tick ts).1.ingest k₂
  have hpublish : (node.tick ts).1.publish.foldl (fun k msg => k.hear msg now) k =
      ((node.tick ts).1.ingest.map fun job => ClusterMsg.claim job node.selfId ts).foldl
        (fun k msg => k.hear msg now) k₂ := by
    simp only [ClusterNode.tick, List.foldl_cons, List.foldl_append, k₂, k₁]
  rw [hpublish]
  refine ⟨hstatus₂.trans hstatus₁, fun job => ?_⟩
  rw [hclaims₂, hclaims₁]
  split
  · rfl
  · split <;> rfl

end NdnRepo.Cluster
