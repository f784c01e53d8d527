import NdnRepo.Cluster.Driver
import NdnRepo.Repo.Served

/-!
# Between a loop and a repo

What `run` hands out reaches a `RepoService` over three channels.  One task passes the
targets on as joins, and another the jobs to drop as leaves, both to the control channel of
the service.  A channel keeps its order, but the two tasks take turns in any order.

So a job that waits in both channels may end up joined or left, as the tasks please.  If no
job does, then the service will run the groups the loop's listener holds, however the tasks
take turns (`endsAs_iff`).
-/

namespace NdnRepo

/-! ## Groups that a command is about -/

/-- The group a command joins or leaves. -/
def RepoCmd.group? {Name : Type} : RepoCmd Name → Option Name
  | .syncJoin j => j.group
  | .syncLeave l => l.group
  | .blobFetch _ => none

/-- The group a control is about. -/
def RepoControl.group {Name : Type} : RepoControl Name → Name
  | .join group => group
  | .leave group => group

namespace RepoService

variable {Name Store : Type} [NdnName Name] [NdnData Name] [NameTlv Name] [NdnTlvWriter]
  [NdnInterest Name] [HashOrder Name] [ScanStore Name Store]
variable {s : RepoService Name Store} {job : Name}

/-- The command a packet is. -/
def commandIn (s : RepoService Name Store) (raw : Bytes) : Option (RepoCmd Name) :=
  ((interestIn Name raw).bind s.commandOf).bind RepoCmd.decode

omit [NameTlv Name] [NdnTlvWriter] [NdnInterest Name] [ScanStore Name Store] in
/-- Doing what a command asks starts and stops its group only. -/
theorem mem_follow {cmd : Option (RepoCmd Name)} (hother : ∀ c ∈ cmd, c.group? ≠ some job) :
    job ∈ (s.follow cmd).2.groups ↔ job ∈ s.groups := by
  cases cmd with
  | none => exact Iff.rfl
  | some cmd =>
      have hcmd := hother cmd rfl
      cases cmd with
      | syncJoin j =>
          rw [follow]
          cases hgroup : j.group with
          | none => exact Iff.rfl
          | some group =>
              have hne : job ≠ group := fun heq => hcmd (hgroup.trans (congrArg some heq.symm))
              rw [mem_startGroup, or_iff_right hne]
      | syncLeave l =>
          rw [follow]
          cases hgroup : l.group with
          | none => exact Iff.rfl
          | some group =>
              have hne : job ≠ group := fun heq => hcmd (hgroup.trans (congrArg some heq.symm))
              rw [mem_stopGroup, and_iff_right hne]
      | blobFetch b => exact Iff.rfl

/-- A command starts and stops its own group only, whatever the repo answers. -/
theorem mem_handleCommandInterest {interest : NdnInterest.Interest Name}
    {ap : Bytes}
    (hother : ∀ c ∈ (RepoCmd.decode ap : Option (RepoCmd Name)), c.group? ≠ some job) :
    job ∈ (s.handleCommandInterest interest ap).2.groups ↔ job ∈ s.groups := by
  rw [handleCommandInterest]
  simp only
  split
  next => exact mem_follow hother
  next => exact Iff.rfl

/-- A packet that is no command about a group leaves it as it was. -/
theorem mem_dispatch {raw : Bytes} (hother : ∀ c ∈ s.commandIn raw, c.group? ≠ some job) :
    job ∈ (s.dispatch raw).2.groups ↔ job ∈ s.groups := by
  rw [dispatch]
  split
  next hhead =>
    split
    next => exact Iff.rfl
    next interest hinterest =>
      split
      next ap hap =>
        have hin : interestIn Name raw = some interest := (if_pos hhead).trans hinterest
        refine mem_handleCommandInterest fun c hc => hother c ?_
        rw [commandIn, hin, Option.bind_some, hap]
        exact hc
      next =>
        simp only
        split
        next => split <;> exact Iff.rfl
        next => exact Iff.rfl
  next => split <;> exact Iff.rfl
  next => exact Iff.rfl

end RepoService

namespace Cluster

open Steps

/-! ## The embedder -/

/-- The tasks between a loop and a repo service, and the service. -/
structure Embedder (Name Store : Type) [NdnName Name] [NdnData Name] where
  /-- `ingest_rx`: the targets to pass on, oldest first. -/
  ingests : List (IngestTarget Name)
  /-- `drop_rx`: the jobs to drop. -/
  drops : List Name
  /-- `ctl_rx`: what the service has still to hear. -/
  controls : List (RepoControl Name)
  /-- The service. -/
  service : RepoService Name Store

/-- What passes on from one channel to the next. -/
inductive Pass where
  /-- The oldest target becomes a join. -/
  | ingest
  /-- The oldest job to drop becomes a leave. -/
  | drop
  /-- The service hears the oldest control. -/
  | control

/-- What happens to an embedder besides what its loop does. -/
inductive EmbedderEvent (Name : Type) where
  /-- Something is passed on. -/
  | pass (pass : Pass)
  /-- The service takes a packet. -/
  | received (raw : Bytes)
  /-- A group's `SvSync` has fetched a packet. -/
  | ingested (name : Name) (wire : Bytes)

namespace Embedder

section Channels

variable {Name Store : Type} [NdnName Name] [NdnData Name]

/-- The loop does something: what it hands out goes into its channel. -/
def told (e : Embedder Name Store) : RunEffect Name → Embedder Name Store
  | .publish _ => e
  | .ingest target => { e with ingests := e.ingests ++ [target] }
  | .drop job => { e with drops := e.drops ++ [job] }

/-- A job waits to be passed on as a join. -/
def Joins (e : Embedder Name Store) (job : Name) : Prop :=
  job ∈ e.ingests.map IngestTarget.job

/-- It waits to be passed on as a leave. -/
def Leaves (e : Embedder Name Store) (job : Name) : Prop := job ∈ e.drops

instance (e : Embedder Name Store) (job : Name) : Decidable (e.Joins job) :=
  inferInstanceAs (Decidable (_ ∈ _))

instance (e : Embedder Name Store) (job : Name) : Decidable (e.Leaves job) :=
  inferInstanceAs (Decidable (_ ∈ _))

/-- Nothing about a job waits in any channel. -/
def Idle (e : Embedder Name Store) (job : Name) : Prop :=
  ¬e.Joins job ∧ ¬e.Leaves job ∧ ∀ ctl ∈ e.controls, ctl.group ≠ job

instance (e : Embedder Name Store) (job : Name) : Decidable (e.Idle job) :=
  inferInstanceAs (Decidable (_ ∧ _ ∧ _))

/-- A job is not handed out while it waits to be dropped, nor the other way round. -/
def Timely (job : Name) (e : Embedder Name Store) : RunEffect Name → Prop
  | .publish _ => True
  | .ingest target => target.job = job → ¬e.Leaves job
  | .drop other => other = job → ¬e.Joins job

instance (job : Name) (e : Embedder Name Store) : ∀ effect, Decidable (Timely job e effect)
  | .publish _ => inferInstanceAs (Decidable True)
  | .ingest target => inferInstanceAs (Decidable (target.job = job → ¬e.Leaves job))
  | .drop other => inferInstanceAs (Decidable (other = job → ¬e.Joins job))

/-- Whether a group runs after the service heard something. -/
def heed (job : Name) (runs : Bool) : RepoControl Name → Bool
  | .join group => if group = job then true else runs
  | .leave group => if group = job then false else runs

/-- Whether a group runs once the service has heard what it has to. -/
def heedAll (e : Embedder Name Store) (job : Name) : Bool :=
  run (heed job) (decide (job ∈ e.service.groups)) e.controls

/-- Whether it runs once a job that waits is passed on too. -/
def willRun (e : Embedder Name Store) (job : Name) : Bool :=
  if e.Leaves job then false else if e.Joins job then true else e.heedAll job

/-- A job does not wait in both channels, and its group will run if it is held. -/
structure Mirrors (job : Name) (held : Bool) (e : Embedder Name Store) : Prop where
  /-- It waits in one channel at most. -/
  once : ¬(e.Joins job ∧ e.Leaves job)
  /-- The group will run if it is held. -/
  runs : e.willRun job = held

end Channels

section Events

variable {Name Store : Type} [NdnName Name] [NdnData Name] [NameTlv Name] [NdnTlvWriter]
  [NdnInterest Name] [HashOrder Name] [ScanStore Name Store]

/-- Pass something on. -/
def pass (e : Embedder Name Store) : Pass → Embedder Name Store
  | .ingest =>
      match e.ingests with
      | [] => e
      | target :: rest => { e with ingests := rest, controls := e.controls ++ [.join target.job] }
  | .drop =>
      match e.drops with
      | [] => e
      | job :: rest => { e with drops := rest, controls := e.controls ++ [.leave job] }
  | .control =>
      match e.controls with
      | [] => e
      | ctl :: rest => { e with controls := rest, service := e.service.next (.control ctl) }

/-- The embedder after an event. -/
def step (e : Embedder Name Store) : EmbedderEvent Name → Embedder Name Store
  | .pass pass => e.pass pass
  | .received raw => { e with service := e.service.next (.received raw) }
  | .ingested name wire => { e with service := e.service.next (.ingested name wire) }

/-- No command the service takes is about the group. -/
def Undisturbed (job : Name) (e : Embedder Name Store) : EmbedderEvent Name → Prop
  | .received raw => ∀ cmd ∈ e.service.commandIn raw, cmd.group? ≠ some job
  | _ => True

/-- However things are passed on, once nothing about a job waits its group runs if it is
held, and only then. -/
def EndsAs (e : Embedder Name Store) (job : Name) (held : Prop) : Prop :=
  ∀ passes, (run pass e passes).Idle job →
    (job ∈ (run pass e passes).service.groups ↔ held)

end Events

/-! ## What the service hears -/

section Heeding

variable {Name : Type} [NdnName Name] {job : Name} {runs : Bool}

theorem run_heed_of_ne {controls : List (RepoControl Name)}
    (hne : ∀ ctl ∈ controls, ctl.group ≠ job) : run (heed job) runs controls = runs := by
  induction controls with
  | nil => rfl
  | cons ctl controls ih =>
      have hfirst : heed job runs ctl = runs := by
        have hgroup := hne ctl (List.mem_cons_self ..)
        cases ctl with
        | join group => exact if_neg hgroup
        | leave group => exact if_neg hgroup
      rw [run_cons, hfirst]
      exact ih fun ctl hctl => hne ctl (List.mem_cons_of_mem _ hctl)

/-- Joins leave a group running that one of them is about. -/
theorem run_heed_joins (targets : List (IngestTarget Name)) :
    run (heed job) runs (targets.map fun target => .join target.job) =
      if job ∈ targets.map IngestTarget.job then true else runs := by
  induction targets generalizing runs with
  | nil => rfl
  | cons target targets ih =>
      rw [List.map_cons, run_cons, ih, heed, List.map_cons]
      rcases eq_or_ne target.job job with heq | hne
      · simp [heq]
      · simp [hne, hne.symm]

/-- Leaves leave it stopped. -/
theorem run_heed_leaves (jobs : List Name) :
    run (heed job) runs (jobs.map .leave) = if job ∈ jobs then false else runs := by
  induction jobs generalizing runs with
  | nil => rfl
  | cons first jobs ih =>
      rw [List.map_cons, run_cons, ih, heed]
      rcases eq_or_ne first job with heq | hne
      · simp [heq]
      · simp [hne, hne.symm]

/-- Once nothing waits what will run does. -/
theorem willRun_of_idle {Store : Type} [NdnData Name] {e : Embedder Name Store}
    (h : e.Idle job) : e.willRun job = decide (job ∈ e.service.groups) := by
  obtain ⟨hjoins, hleaves, hcontrols⟩ := h
  rw [willRun, if_neg hleaves, if_neg hjoins, heedAll, run_heed_of_ne hcontrols]

end Heeding

section Passing

variable {Name Store : Type} [NdnName Name] [NdnData Name] [NameTlv Name] [NdnTlvWriter]
  [NdnInterest Name] [HashOrder Name] [ScanStore Name Store]
variable {e : Embedder Name Store} {job : Name} {held : Bool}

/-- The service heeds a control. -/
theorem decide_mem_next (s : RepoService Name Store) (ctl : RepoControl Name) :
    decide (job ∈ (s.next (.control ctl)).groups) = heed job (decide (job ∈ s.groups)) ctl := by
  cases ctl with
  | join group =>
      rw [heed, RepoService.next, RepoService.step]
      simp only [RepoService.mem_startGroup]
      rcases eq_or_ne group job with rfl | hne
      · simp
      · simp [hne, hne.symm]
  | leave group =>
      rw [heed, RepoService.next, RepoService.step]
      simp only [RepoService.mem_stopGroup]
      rcases eq_or_ne group job with rfl | hne
      · simp
      · simp [hne, hne.symm]

/-- Passing something on changes nothing about what will run. -/
theorem Mirrors.pass (h : Mirrors job held e) (p : Pass) : Mirrors job held (e.pass p) := by
  obtain ⟨honce, hwill⟩ := h
  cases p with
  | ingest =>
      rw [Embedder.pass]
      cases hingests : e.ingests with
      | nil => exact ⟨honce, hwill⟩
      | cons target rest =>
          have hjoins : e.Joins job ↔ job = target.job ∨ job ∈ rest.map IngestTarget.job := by
            rw [Joins, hingests, List.map_cons, List.mem_cons]
          have hsame : willRun { e with
              ingests := rest
              controls := e.controls ++ [.join target.job] } job = e.willRun job := by
            simp only [willRun, heedAll, Leaves, hjoins, run_append, run_cons, run_nil, heed]
            rcases eq_or_ne target.job job with heq | hne
            · simp [heq, Joins]
            · simp [hne, hne.symm, Joins]
          exact ⟨fun hboth => honce ⟨hjoins.mpr (Or.inr hboth.1), hboth.2⟩, hsame.trans hwill⟩
  | drop =>
      rw [Embedder.pass]
      cases hdrops : e.drops with
      | nil => exact ⟨honce, hwill⟩
      | cons first rest =>
          have hleaves : e.Leaves job ↔ job = first ∨ job ∈ rest := by
            rw [Leaves, hdrops, List.mem_cons]
          have hsame : willRun { e with
              drops := rest
              controls := e.controls ++ [.leave first] } job = e.willRun job := by
            simp only [willRun, heedAll, Joins, hleaves, run_append, run_cons, run_nil, heed]
            rcases eq_or_ne first job with heq | hne
            · have hnot : ¬job ∈ e.ingests.map IngestTarget.job := fun hjoins =>
                honce ⟨hjoins, hleaves.mpr (Or.inl heq.symm)⟩
              simp [heq, hnot]
            · simp [hne, hne.symm, Leaves]
          exact ⟨fun hboth => honce ⟨hboth.1, hleaves.mpr (Or.inr hboth.2)⟩, hsame.trans hwill⟩
  | control =>
      rw [Embedder.pass]
      cases hcontrols : e.controls with
      | nil => exact ⟨honce, hwill⟩
      | cons ctl rest =>
          have hheed : heedAll { e with
              controls := rest
              service := e.service.next (.control ctl) } job = e.heedAll job := by
            simp only [heedAll, hcontrols, run_cons, decide_mem_next]
          have hsame : willRun { e with
              controls := rest
              service := e.service.next (.control ctl) } job = e.willRun job := by
            rw [willRun, hheed]
            rfl
          exact ⟨honce, hsame.trans hwill⟩

/-- However things are passed on. -/
theorem Mirrors.run (h : Mirrors job held e) (passes : List Pass) :
    Mirrors job held (Steps.run Embedder.pass e passes) := by
  induction passes generalizing e with
  | nil => exact h
  | cons p passes ih => exact ih (h.pass p)

/-! ## Two schedules -/

/-- Every target is passed on. -/
theorem run_ingests (e : Embedder Name Store) :
    run pass e (List.replicate e.ingests.length .ingest) = { e with
      ingests := []
      controls := e.controls ++ e.ingests.map fun target => .join target.job } := by
  obtain ⟨ingests, drops, controls, service⟩ := e
  induction ingests generalizing controls with
  | nil => simp
  | cons target rest ih =>
      rw [List.length_cons, List.replicate_succ, run_cons, pass]
      simp only [ih, List.map_cons, List.append_assoc, List.singleton_append]

/-- Every job to drop is passed on. -/
theorem run_drops (e : Embedder Name Store) :
    run pass e (List.replicate e.drops.length .drop) = { e with
      drops := []
      controls := e.controls ++ e.drops.map .leave } := by
  obtain ⟨ingests, drops, controls, service⟩ := e
  induction drops generalizing controls with
  | nil => simp
  | cons first rest ih =>
      rw [List.length_cons, List.replicate_succ, run_cons, pass]
      simp only [ih, List.map_cons, List.append_assoc, List.singleton_append]

/-- The service hears everything. -/
theorem run_controls (e : Embedder Name Store) (job : Name) :
    ∃ service, run pass e (List.replicate e.controls.length .control) =
        { e with controls := [], service := service } ∧
      decide (job ∈ service.groups) = e.heedAll job := by
  obtain ⟨ingests, drops, controls, service⟩ := e
  induction controls generalizing service with
  | nil => exact ⟨service, rfl, rfl⟩
  | cons ctl rest ih =>
      obtain ⟨last, hrun, hruns⟩ := ih (service.next (.control ctl))
      refine ⟨last, hrun, hruns.trans ?_⟩
      simp only [heedAll, run_cons, decide_mem_next]

/-- Where the targets are passed on first the group ends up as it will run. -/
theorem exists_ingestsFirst (e : Embedder Name Store) (job : Name) :
    ∃ passes, (run pass e passes).Idle job ∧
      decide (job ∈ (run pass e passes).service.groups) = e.willRun job := by
  let joined : Embedder Name Store := { e with
    ingests := []
    controls := e.controls ++ e.ingests.map fun target => .join target.job }
  let left : Embedder Name Store := { joined with
    drops := []
    controls := joined.controls ++ joined.drops.map .leave }
  obtain ⟨service, hrun, hruns⟩ := left.run_controls job
  refine ⟨List.replicate e.ingests.length .ingest ++ (List.replicate joined.drops.length .drop ++
    List.replicate left.controls.length .control), ?_⟩
  rw [run_append, run_append, run_ingests, run_drops, hrun]
  refine ⟨⟨List.not_mem_nil, List.not_mem_nil, fun _ h => absurd h List.not_mem_nil⟩,
    hruns.trans ?_⟩
  simp only [heedAll, left, joined, run_append, run_heed_joins, run_heed_leaves]
  rfl

/-- Where the jobs to drop are, a group runs that waits to be joined. -/
theorem exists_dropsFirst (hjoins : e.Joins job) :
    ∃ passes, (run pass e passes).Idle job ∧ job ∈ (run pass e passes).service.groups := by
  let left : Embedder Name Store := { e with
    drops := []
    controls := e.controls ++ e.drops.map .leave }
  let joined : Embedder Name Store := { left with
    ingests := []
    controls := left.controls ++ left.ingests.map fun target => .join target.job }
  obtain ⟨service, hrun, hruns⟩ := joined.run_controls job
  refine ⟨List.replicate e.drops.length .drop ++ (List.replicate left.ingests.length .ingest ++
    List.replicate joined.controls.length .control), ?_⟩
  rw [run_append, run_append, run_drops, run_ingests, hrun]
  refine ⟨⟨List.not_mem_nil, List.not_mem_nil, fun _ h => absurd h List.not_mem_nil⟩,
    of_decide_eq_true (hruns.trans ?_)⟩
  simp only [heedAll, left, joined, run_append, run_heed_joins]
  exact if_pos hjoins

/-- However things are passed on, the group ends up running if it is held, exactly if it
does not wait in both channels and will run if it is held. -/
theorem endsAs_iff : e.EndsAs job (held = true) ↔ Mirrors job held e := by
  constructor
  · intro h
    obtain ⟨passes, hidle, hruns⟩ := e.exists_ingestsFirst job
    have hheld : e.willRun job = held := by
      rw [← hruns, Bool.eq_iff_iff, decide_eq_true_eq]
      exact h passes hidle
    refine ⟨fun hboth => ?_, hheld⟩
    obtain ⟨passes', hidle', hruns'⟩ := exists_dropsFirst hboth.1
    have hleft : e.willRun job = false := if_pos hboth.2
    rw [← hheld, hleft] at h
    exact Bool.false_ne_true ((h passes' hidle').mp hruns')
  · intro h passes hidle
    have hend := (h.run passes).runs
    rw [willRun_of_idle hidle] at hend
    rw [← hend, decide_eq_true_eq]

/-- A service nothing disturbs runs the group as before. -/
theorem Mirrors.step (h : Mirrors job held e) {event : EmbedderEvent Name}
    (hundisturbed : e.Undisturbed job event) : Mirrors job held (e.step event) := by
  cases event with
  | pass p => exact h.pass p
  | received raw =>
      have hsame : decide (job ∈ (e.service.next (.received raw)).groups) =
          decide (job ∈ e.service.groups) :=
        decide_eq_decide.mpr (RepoService.mem_dispatch hundisturbed)
      have hheed : heedAll { e with service := e.service.next (.received raw) } job =
          e.heedAll job := by
        rw [heedAll, hsame]
        rfl
      have hwill : willRun { e with service := e.service.next (.received raw) } job =
          e.willRun job := by
        rw [willRun, hheed]
        rfl
      exact ⟨h.once, hwill.trans h.runs⟩
  | ingested name wire => exact ⟨h.once, h.runs⟩

end Passing

/-! ## What the loop does -/

section Telling

variable {Name Store : Type} [NdnName Name] [NdnData Name]
variable {e : Embedder Name Store} {job : Name} {held : Name → Option (IngestTarget Name)}

/-- What waits still does. -/
theorem waits_told (effect : RunEffect Name) (hboth : e.Joins job ∧ e.Leaves job) :
    (e.told effect).Joins job ∧ (e.told effect).Leaves job := by
  cases effect with
  | publish raw => exact hboth
  | ingest target =>
      refine ⟨?_, hboth.2⟩
      rw [Joins, told, List.map_append]
      exact List.mem_append_left _ hboth.1
  | drop other => exact ⟨hboth.1, List.mem_append_left _ hboth.2⟩

theorem waits_run_told (effects : List (RunEffect Name)) (hboth : e.Joins job ∧ e.Leaves job) :
    (run told e effects).Joins job ∧ (run told e effects).Leaves job := by
  induction effects generalizing e with
  | nil => exact hboth
  | cons effect effects ih => exact ih (waits_told effect hboth)

theorem joins_told_ingest (target : IngestTarget Name) :
    (e.told (.ingest target)).Joins job ↔ e.Joins job ∨ target.job = job := by
  rw [Joins, told, List.map_append, List.mem_append, List.map_singleton, List.mem_singleton,
    eq_comm]
  exact Iff.rfl

theorem leaves_told_drop (other : Name) :
    (e.told (.drop other)).Leaves job ↔ e.Leaves job ∨ other = job := by
  rw [Leaves, told, List.mem_append, List.mem_singleton, eq_comm]
  exact Iff.rfl

/-- What is not timely waits in both channels. -/
theorem waits_of_not_timely {effect : RunEffect Name} (h : ¬Timely job e effect) :
    (e.told effect).Joins job ∧ (e.told effect).Leaves job := by
  cases effect with
  | publish raw => exact absurd trivial h
  | ingest target =>
      rw [Timely, Classical.not_imp, not_not] at h
      exact ⟨(joins_told_ingest target).mpr (Or.inr h.1), h.2⟩
  | drop other =>
      rw [Timely, Classical.not_imp, not_not] at h
      exact ⟨h.2, (leaves_told_drop other).mpr (Or.inr h.1)⟩

/-- What is timely is mirrored. -/
theorem Mirrors.told (h : Mirrors job (held job).isSome e) {effect : RunEffect Name}
    (htimely : Timely job e effect) :
    Mirrors job (ClusterRun.follow held effect job).isSome (e.told effect) := by
  have hruns := h.runs
  cases effect with
  | publish raw => exact h
  | ingest target =>
      have hleaves : (e.told (.ingest target)).Leaves job ↔ e.Leaves job := Iff.rfl
      have hheed : (e.told (.ingest target)).heedAll job = e.heedAll job := rfl
      refine ⟨fun hboth => ?_, ?_⟩
      · rcases (joins_told_ingest target).mp hboth.1 with hold | heq
        · exact h.once ⟨hold, hboth.2⟩
        · exact htimely heq hboth.2
      · simp only [willRun, joins_told_ingest, hleaves, hheed] at hruns ⊢
        rcases eq_or_ne target.job job with rfl | hne
        · simp [ClusterRun.follow, htimely rfl]
        · rw [ClusterRun.follow, Function.update_of_ne hne.symm, ← hruns]
          simp [hne]
  | drop other =>
      have hjoins : (e.told (.drop other)).Joins job ↔ e.Joins job := Iff.rfl
      have hheed : (e.told (.drop other)).heedAll job = e.heedAll job := rfl
      refine ⟨fun hboth => ?_, ?_⟩
      · rcases (leaves_told_drop other).mp hboth.2 with hold | heq
        · exact h.once ⟨hboth.1, hold⟩
        · exact htimely heq hboth.1
      · simp only [willRun, hjoins, leaves_told_drop, hheed] at hruns ⊢
        rcases eq_or_ne other job with rfl | hne
        · simp [ClusterRun.follow]
        · rw [ClusterRun.follow, Function.update_of_ne hne.symm, ← hruns]
          simp [hne]

/-- What the loop does leaves the group about to run if the job is held, exactly if all of
it is timely. -/
theorem mirrors_run_told (h : Mirrors job (held job).isSome e) (effects : List (RunEffect Name)) :
    Mirrors job (run ClusterRun.follow held effects job).isSome (run Embedder.told e effects) ↔
      Admits Embedder.told (Timely job) e effects := by
  induction effects generalizing e held with
  | nil => exact iff_of_true h trivial
  | cons effect effects ih =>
      rw [run_cons, run_cons, Admits]
      constructor
      · intro hend
        have htimely : Timely job e effect := by
          by_contra huntimely
          exact hend.once (waits_run_told effects (waits_of_not_timely huntimely))
        exact ⟨htimely, (ih (h.told htimely)).mp hend⟩
      · rintro ⟨htimely, hrest⟩
        exact (ih (h.told htimely)).mpr hrest

end Telling

end Embedder

end Cluster

end NdnRepo
