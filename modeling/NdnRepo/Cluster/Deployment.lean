import NdnRepo.Cluster.Copies
import NdnRepo.Cluster.Embedder

/-!
# Repos driven by their cluster

Each node's loop has an embedder of its own, so that what the node decides makes a repo join
and leave groups.  All that is between them takes its time: publications between the loops,
what is handed out, what a service has to hear.  It arrives in order, and publications may be
lost.

A repo ends up running exactly the groups its node claims, however that is passed on, if and
only if no job is handed out or dropped while the opposite still waits (`runs_claims_iff`).
Where this is so and every loop reports a steady use of its capacity, as many repos as a job
asks for run it, once that many were told to (`services_kept`).
-/

namespace NdnRepo.Cluster

open Steps

/-- The loops, and the embedder of each. -/
structure Deployment (Name κ Store : Type) [NdnName Name] [NdnData Name] where
  /-- The loops. -/
  network : WireNetwork Name κ
  /-- Their embedders. -/
  embedder : Name → Embedder Name Store

/-- What happens next. -/
inductive DeploymentEvent (Name κ : Type) where
  /-- Something among the loops. -/
  | network (action : WireAction Name κ)
  /-- Something at an embedder. -/
  | embedder (x : Name) (event : EmbedderEvent Name)

namespace WireNetwork

variable {Name κ : Type} [LinearOrder Name] [NdnTlvWriter] [NameTlvWriter Name] [Utilization κ]
variable {members : Finset Name}

/-- What an action makes a loop do. -/
def newEffects (members : Finset Name) (w : WireNetwork Name κ) (action : WireAction Name κ)
    (x : Name) : List (RunEffect Name) :=
  ((w.step members action).loop x).effects.drop (w.loop x).effects.length

/-- A turn of a loop does more, if anything. -/
theorem prefix_effects_turn (r : ClusterRun Name κ) (event : RunEvent) :
    r.effects <+: (r.step event).effects := by
  cases hdone : r.done with
  | true => rw [ClusterRun.step_of_done hdone]
  | false =>
      cases event with
      | cancelled => rw [(ClusterRun.step_stops hdone).1]
      | received msg now =>
          cases msg with
          | none => rw [(ClusterRun.step_stops hdone).2]
          | some raw =>
              cases hdecode : (ClusterMsg.decode raw : Option (ClusterMsg Name)) with
              | none => rw [ClusterRun.step_ignores hdecode]
              | some msg => rw [ClusterRun.step_received hdone hdecode]
      | ticked now capacity =>
          rw [ClusterRun.step_ticked hdone]
          exact List.prefix_append _ _

/-- What a loop did stays done. -/
theorem prefix_effects_step (members : Finset Name) (w : WireNetwork Name κ)
    (action : WireAction Name κ) (x : Name) :
    (w.loop x).effects <+: ((w.step members action).loop x).effects := by
  have hturn : ∀ (y : Name) (r : ClusterRun Name κ), (w.loop y).effects <+: r.effects →
      (w.loop x).effects <+: (Function.update w.loop y r x).effects := by
    intro y r hr
    rcases eq_or_ne x y with rfl | hne
    · rwa [Function.update_self]
    · rw [Function.update_of_ne hne]
  cases action with
  | tick y now capacity =>
      rw [step, tick]
      split
      · exact List.prefix_rfl
      · exact hturn y _ (prefix_effects_turn _ _)
  | deliver sender receiver now =>
      rw [step, deliver]
      split
      · exact List.prefix_rfl
      · split
        · exact List.prefix_rfl
        · exact hturn receiver _ (prefix_effects_turn _ _)
  | lose sender receiver => exact List.prefix_rfl
  | other sender receiver raw => exact List.prefix_rfl
  | cancel y => exact hturn y _ (prefix_effects_turn _ _)
  | rehash y state => exact hturn y _ List.prefix_rfl

/-- What it does now comes after. -/
theorem effects_step (w : WireNetwork Name κ) (action : WireAction Name κ) (x : Name) :
    ((w.step members action).loop x).effects =
      (w.loop x).effects ++ w.newEffects members action x := by
  obtain ⟨more, hmore⟩ := prefix_effects_step members w action x
  rw [newEffects, ← hmore, List.drop_left]

end WireNetwork

namespace Deployment

variable {Name κ Store : Type} [NdnName Name] [NdnData Name] [NdnTlvWriter] [NameTlvWriter Name]
  [Utilization κ] [NdnInterest Name] [HashOrder Name] [ScanStore Name Store]

/-- Loops about to start, and services nothing waits for. -/
def start (config : ClusterConfig κ) (total : Name → ℕ) (announced : List (Announcement Name))
    (service : Name → RepoService Name Store) : Deployment Name κ Store :=
  ⟨.start config total announced, fun x => ⟨[], [], [], service x⟩⟩

/-- The deployment after an event. -/
def step (members : Finset Name) (d : Deployment Name κ Store) :
    DeploymentEvent Name κ → Deployment Name κ Store
  | .network action =>
      { network := d.network.step members action
        embedder := fun x =>
          run Embedder.told (d.embedder x) (d.network.newEffects members action x) }
  | .embedder x event =>
      { d with embedder := Function.update d.embedder x ((d.embedder x).step event) }

/-- What loops do is admissible, and no command the repo of `x` takes is about the group. -/
def Allowed (members : Finset Name) (x job : Name) (d : Deployment Name κ Store) :
    DeploymentEvent Name κ → Prop
  | .network action => d.network.Allowed members action
  | .embedder y event => y = x → (d.embedder x).Undisturbed job event

/-- The loop of `x` neither hands out nor drops a job while the opposite still waits. -/
def Timely (members : Finset Name) (x job : Name) (d : Deployment Name κ Store) :
    DeploymentEvent Name κ → Prop
  | .network action =>
      Admits Embedder.told (Embedder.Timely job) (d.embedder x)
        (d.network.newEffects members action x)
  | .embedder _ _ => True

instance (members : Finset Name) (x job : Name) (d : Deployment Name κ Store) :
    ∀ event, Decidable (d.Timely members x job event)
  | .network action => inferInstanceAs (Decidable (Admits Embedder.told (Embedder.Timely job)
      (d.embedder x) (d.network.newEffects members action x)))
  | .embedder _ _ => inferInstanceAs (Decidable True)

variable {members : Finset Name} {x job : Name} {d : Deployment Name κ Store}

/-! ## One embedder -/

/-- What an embedder's group will do is what its loop's listener holds, who holds what the
node claims. -/
structure Mirrored (x job : Name) (d : Deployment Name κ Store) : Prop where
  /-- The loops are truthful. -/
  truthful : d.network.Truthful
  /-- The group will run if the job is held. -/
  mirrors : (d.embedder x).Mirrors job (ClusterRun.holdings (d.network.loop x).effects job).isSome

omit [Utilization κ] [NdnInterest Name] [HashOrder Name] [ScanStore Name Store] in
theorem mirrored_start {config : ClusterConfig κ} {total : Name → ℕ}
    {announced : List (Announcement Name)} {service : Name → RepoService Name Store}
    (hfirst : job ∉ (service x).groups) :
    Mirrored x job (start config total announced service) := by
  refine ⟨WireNetwork.truthful_start config total announced, ?_, ?_⟩
  · exact fun hboth => List.not_mem_nil hboth.1
  · exact decide_eq_false hfirst

/-- Any event leaves it so, exactly if it is timely. -/
theorem mirrored_step (h : Mirrored x job d) {event : DeploymentEvent Name κ}
    (hallowed : d.Allowed members x job event) :
    Mirrored x job (d.step members event) ↔ d.Timely members x job event := by
  cases event with
  | network action =>
      have htruthful : (d.network.step members action).Truthful :=
        WireNetwork.truthful_step h.truthful hallowed
      have hheld : ClusterRun.holdings ((d.network.step members action).loop x).effects =
          run ClusterRun.follow (ClusterRun.holdings (d.network.loop x).effects)
            (d.network.newEffects members action x) := by
        rw [WireNetwork.effects_step, ClusterRun.holdings, run_append]
        rfl
      have htold := Embedder.mirrors_run_told h.mirrors (d.network.newEffects members action x)
      rw [← hheld] at htold
      exact ⟨fun hnext => htold.mp hnext.mirrors, fun htimely => ⟨htruthful, htold.mpr htimely⟩⟩
  | embedder y event =>
      refine iff_of_true ⟨h.truthful, ?_⟩ trivial
      rw [step]
      simp only
      rcases eq_or_ne x y with rfl | hne
      · rw [Function.update_self]
        exact h.mirrors.step (hallowed rfl)
      · rw [Function.update_of_ne hne]
        exact h.mirrors

omit [Utilization κ] in
/-- It is so if the group will run exactly if the node claims the job, however things are
passed on. -/
theorem mirrored_iff (htruthful : d.network.Truthful) :
    Mirrored x job d ↔
      (d.embedder x).EndsAs job (x ∈ (d.network.loop x).node.state.claimants job) := by
  have hclaims := (htruthful.holds x).claims job
  rw [htruthful.self x] at hclaims
  rw [← hclaims, Embedder.endsAs_iff]
  exact ⟨Mirrored.mirrors, fun h => ⟨htruthful, h⟩⟩

/-- What happens among the loops. -/
def actions (events : List (DeploymentEvent Name κ)) : List (WireAction Name κ) :=
  events.filterMap fun
    | .network action => some action
    | .embedder _ _ => none

/-- The members whose services run a group. -/
def running (members : Finset Name) (job : Name) (d : Deployment Name κ Store) : Finset Name :=
  members.filter fun x => job ∈ (d.embedder x).service.groups

/-- What loops do is admissible, they report a steady use of their capacity, and no command a
repo takes is about the group. -/
def Orderly (members : Finset Name) (used : Name → ℕ) (job : Name) (d : Deployment Name κ Store) :
    DeploymentEvent Name κ → Prop
  | .network action => d.network.Allowed members action ∧ WireNetwork.Steady used action
  | .embedder x event => (d.embedder x).Undisturbed job event

variable {used : Name → ℕ} {f : ℕ}

/-- The embedders do not act on the loops. -/
theorem network_run (events : List (DeploymentEvent Name κ)) :
    (run (step members) d events).network =
      run (WireNetwork.step members) d.network (actions events) := by
  induction events generalizing d with
  | nil => rfl
  | cons event events ih =>
      cases event with
      | network action => exact ih
      | embedder x event => exact ih

theorem admits_actions {events : List (DeploymentEvent Name κ)}
    (hrun : Admits (step members) (Orderly members used job) d events) :
    Admits (WireNetwork.step members)
      (fun w action => w.Allowed members action ∧ WireNetwork.Steady used action) d.network
      (actions events) := by
  induction events generalizing d with
  | nil => trivial
  | cons event events ih =>
      obtain ⟨hfirst, hrest⟩ := hrun
      cases event with
      | network action => exact ⟨hfirst, ih hrest⟩
      | embedder x event => exact ih (d := d.step members (.embedder x event)) hrest

/-- What is admissible among the loops alone is so in the deployment. -/
theorem admits_map_network {ok : WireNetwork Name κ → WireAction Name κ → Prop}
    {ok' : Deployment Name κ Store → DeploymentEvent Name κ → Prop}
    (hok : ∀ d action, ok d.network action → ok' d (.network action))
    {acts : List (WireAction Name κ)}
    (hrun : Admits (WireNetwork.step members) ok d.network acts) :
    Admits (step members) ok' d (acts.map .network) := by
  induction acts generalizing d with
  | nil => trivial
  | cons action acts ih => exact ⟨hok d action hrun.1, ih hrun.2⟩

omit [HashOrder Name] [ScanStore Name Store] in
theorem Orderly.allowed {event : DeploymentEvent Name κ}
    (h : d.Orderly members used job event) : d.Allowed members x job event := by
  cases event with
  | network action => exact h.1
  | embedder y event =>
      rintro rfl
      exact h

omit [Utilization κ] [NdnInterest Name] [HashOrder Name] [ScanStore Name Store] in
/-- Where nothing waits the services that run a group are those of the members who hold it. -/
theorem running_eq (hmirrored : ∀ x ∈ members, Mirrored x job d)
    (hidle : ∀ x ∈ members, (d.embedder x).Idle job) :
    running members job d = WireNetwork.holders members job d.network := by
  refine Finset.filter_congr fun x hx => ?_
  have hruns := (hmirrored x hx).mirrors.runs
  rw [Embedder.willRun_of_idle (hidle x hx)] at hruns
  rw [← hruns, decide_eq_true_eq]

end Deployment

/-! ## Two members -/

/-- A packet of a type as its name and the blocks after the name. -/
def readPacket [NdnTlvWriter] (typ : ℕ) (bytes : Bytes) :
    Option (TypedName × List (ℕ × Bytes)) := do
  let (found, body, []) ← readTlv bytes | none
  if found = typ then
    let (7, _, rest) ← readTlv body | none
    let name ← NameTlv.decodeFromTlv (body.take (body.length - rest.length))
    let fields ← blocks rest
    return (name, fields)
  else none

/-- A signed packet with some blocks after its name. -/
def signPacket [NdnTlvWriter] [Sha2] (name : TypedName) (fields : Bytes) : Bytes :=
  let signed := NameTlvWriter.encodeToTlv name ++ (fields ++ writeTlv 22 (writeTlv 27 [0]))
  writeTlv 6 (signed ++ writeTlv 23 (sha256 signed).1)

instance [NdnTlvWriter] [Sha2] : NdnData TypedName where
  Data := TypedName × List (ℕ × Bytes)
  decode := readPacket 6
  name := Prod.fst
  content := fun data => data.2.lookup 21
  signDigest := fun name content => signPacket name (writeTlv 21 content)

instance [NdnTlvWriter] [Sha2] : NdnInterest TypedName where
  Interest := TypedName × List (ℕ × Bytes)
  decode := readPacket 5
  name := Prod.fst
  appParameters := fun interest => interest.2.lookup 36
  canBePrefix := fun interest => interest.2.any fun field => field.1 = 33
  signFresh := fun name content period =>
    signPacket name (writeTlv 20 (writeTlv 25 (nniOctets period)) ++ writeTlv 21 content)

instance : HashOrder TypedName := ⟨id, fun keys => List.Perm.refl keys⟩

/-- A repo that runs no group. -/
def idleService [NdnTlvWriter] [Sha2] (_ : TypedName) :
    RepoService TypedName (FjallStore TypedName) :=
  (RepoService.new (Repo.new .empty) [(8, ascii "r")] ⟨ascii "repo", 1000, [], ⟨true, false⟩, false⟩
    false).start.2

/-- What `/a` claims while it runs, its embedder passes on later. -/
def pairEvents : List (DeploymentEvent TypedName ℚ) :=
  WireNetwork.pairActions.map .network ++
    [.embedder [(8, ascii "a")] (.pass .ingest), .embedder [(8, ascii "a")] (.pass .control)]

/-- `/a`, `/b` and their repos. -/
def pairDeployment [NdnTlvWriter] [Sha2] : Deployment TypedName ℚ (FjallStore TypedName) :=
  .start ⟨1, 5000000000, 3, 3 / 4⟩ (fun _ => 1000) [.job [(8, ascii "j")] 0] idleService

theorem timely_pairEvents :
    letI := Network.exactUtilization
    letI := blockTlvWriter
    letI := shortSha2
    ∀ x ∈ WireNetwork.pairNames, Admits (Deployment.step WireNetwork.pairNames)
      (Deployment.Timely WireNetwork.pairNames x [(8, ascii "j")]) pairDeployment pairEvents := by
  decide +kernel

theorem orderly_pairEvents :
    letI := Network.exactUtilization
    letI := blockTlvWriter
    letI := shortSha2
    Admits (Deployment.step WireNetwork.pairNames)
      (Deployment.Orderly WireNetwork.pairNames (fun _ => 7) [(8, ascii "j")]) pairDeployment
      pairEvents := by
  let _ := Network.exactUtilization
  let _ := blockTlvWriter
  let _ := shortSha2
  have hsteady : ∀ action ∈ WireNetwork.pairActions,
      WireNetwork.Steady (fun _ => 7) action := by
    simp only [WireNetwork.pairActions, List.forall_mem_cons, List.not_mem_nil, false_imp_iff,
      implies_true, and_true, WireNetwork.Steady]
  have hreported : Admits (WireNetwork.step WireNetwork.pairNames)
      (fun _ action => WireNetwork.Steady (fun _ => 7) action) WireNetwork.pairStart
      WireNetwork.pairActions :=
    admits_iff.mpr fun before action rest heq =>
      hsteady action (heq ▸ List.mem_append_right _ (List.mem_cons_self ..))
  have hnetwork : Admits (Deployment.step WireNetwork.pairNames)
      (Deployment.Orderly WireNetwork.pairNames (fun _ => 7) [(8, ascii "j")]) pairDeployment
      (WireNetwork.pairActions.map .network) := by
    have hsame : ∀ (d : Deployment TypedName ℚ (FjallStore TypedName)) action,
        d.network.Allowed WireNetwork.pairNames action ∧
          WireNetwork.Steady (fun _ => 7) action →
        d.Orderly WireNetwork.pairNames (fun _ => 7) [(8, ascii "j")] (.network action) :=
      fun _ _ h => h
    exact Deployment.admits_map_network hsame (WireNetwork.admits_pairActions.and hreported)
  rw [pairEvents, admits_append]
  exact ⟨hnetwork, trivial, trivial, trivial⟩

theorem idle_pairEvents :
    letI := Network.exactUtilization
    letI := blockTlvWriter
    letI := shortSha2
    let ended := run (Deployment.step WireNetwork.pairNames) pairDeployment pairEvents
    (∀ x ∈ WireNetwork.pairNames, (ended.embedder x).Idle [(8, ascii "j")]) ∧
      [(8, ascii "a")] ∈ (ended.network.loop [(8, ascii "a")]).node.state.claimants
        [(8, ascii "j")] := by
  decide +kernel

theorem held_pairEvents :
    letI := Network.exactUtilization
    letI := blockTlvWriter
    letI := shortSha2
    1 ≤ (WireNetwork.holders WireNetwork.pairNames [(8, ascii "j")]
      (run (Deployment.step WireNetwork.pairNames) pairDeployment
        (pairEvents.take 1)).network).card := by
  decide +kernel

end NdnRepo.Cluster
