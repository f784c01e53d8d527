import NdnRepo.Lib.Steps
import NdnRepo.Repo.CmdCodec
import NdnRepo.Repo.Books

/-!
# The running repo

`RepoService` takes packets from a forwarder.  A command is answered, and a join or
leave that succeeds starts or stops the ingestion of a group.  Other Interests under a
group are answered from the store or handed to the group's `SvSync`, as Data is.
Groups are started and stopped in two other ways: at startup, and by a control channel.

Which groups are joined is kept twice, in the repo and in the service, and only
commands change both (`agrees_iff`).  The names to fetch are taken all at once and
handed to groups that cover them.  A name no running group covers is dropped
(`fetches_kept_iff`).
-/

namespace NdnRepo

/-- What is used of `ndn_packet::Interest` and of answers to one. -/
class NdnInterest (Name : Type) where
  /-- A decoded Interest. -/
  Interest : Type
  /-- `Interest::decode`. -/
  decode : Bytes → Option Interest
  /-- `interest.name`. -/
  name : Interest → Name
  /-- `interest.app_parameters()`. -/
  appParameters : Interest → Option Bytes
  /-- `interest.selectors().can_be_prefix`. -/
  canBePrefix : Interest → Bool
  /-- `DataBuilder::new(name, content).freshness(period).sign_digest_sha256()`. -/
  signFresh : Name → Bytes → ℕ → Bytes

/-- The order a `HashMap` is iterated in, by its keys. -/
class HashOrder (Name : Type) where
  /-- The keys in order. -/
  order : List Name → List Name
  /-- None is lost. -/
  perm : ∀ keys, (order keys).Perm keys

/-- What the service sets of an `SvSync`'s configuration. -/
structure SvSyncConfig where
  /-- Merging a vector acknowledges what it has. -/
  autoAck : Bool
  /-- Packets of other publishers are served too. -/
  serveAllStored : Bool
deriving DecidableEq

/-- The service's configuration. -/
structure RepoServiceConfig (Name : Type) where
  /-- The repo's component within each group. -/
  nodeId : Bytes
  /-- How long answers to commands are fresh. -/
  responseFreshness : ℕ
  /-- The groups to join at startup. -/
  initialGroups : List Name
  /-- How groups are synchronised. -/
  svs : SvSyncConfig
  /-- Whether only what is held is acknowledged. -/
  twoPhaseIngest : Bool

/-- Control from outside the network. -/
inductive RepoControl (Name : Type) where
  | join (group : Name)
  | leave (group : Name)

/-- A group that is ingested: what its `SvSync` and its ingestion were started with. -/
structure GroupHandle (Name : Type) where
  /-- The repo's name within the group. -/
  repoNode : Name
  /-- How it is synchronised. -/
  svs : SvSyncConfig
  /-- The gate on what is ingested. -/
  validator : Option (Bytes → Bool)
  /-- Whether only what is held is acknowledged. -/
  twoPhase : Bool

/-- What the service does to the world outside. -/
inductive ServiceEffect (Name : Type) where
  /-- Ask for packets under a prefix. -/
  | register (routed : Name)
  /-- Join a group and spawn its ingestion. -/
  | spawn (group : Name) (handle : GroupHandle Name)
  /-- Stop a group's ingestion. -/
  | cancel (group : Name)
  /-- `ingest_name` of a group's `SvSync`. -/
  | ingestName (group name : Name)
  /-- A packet for a group's `SvSync`. -/
  | netIn (group : Name) (raw : Bytes)
  /-- A packet for the forwarder. -/
  | send (wire : Bytes)

/-- The running repository. -/
structure RepoService (Name Store : Type) [NdnName Name] [NdnData Name] where
  /-- The repository. -/
  repo : Repo Name Store
  /-- The prefix of commands. -/
  repoPrefix : Name
  /-- The configuration. -/
  config : RepoServiceConfig Name
  /-- The groups that are ingested. -/
  groups : AList fun _ : Name => GroupHandle Name
  /-- Whether someone registers prefixes. -/
  registers : Bool

/-- What happens to the service. -/
inductive ServiceEvent (Name : Type) where
  /-- A packet arrives. -/
  | received (raw : Bytes)
  /-- The control channel tells it something. -/
  | control (ctl : RepoControl Name)
  /-- A group's `SvSync` has fetched a packet. -/
  | ingested (name : Name) (wire : Bytes)

namespace RepoService

variable {Name Store : Type} [NdnName Name] [NdnData Name]

/-- A service that runs nothing yet. -/
def new (repo : Repo Name Store) (repoPrefix : Name) (config : RepoServiceConfig Name)
    (registers : Bool) : RepoService Name Store :=
  ⟨repo, repoPrefix, config, ∅, registers⟩

/-! ## Groups -/

/-- Ask for a prefix to be routed here. -/
def emitRegister (s : RepoService Name Store) (routed : Name) : List (ServiceEffect Name) :=
  if s.registers then [.register routed] else []

/-- What a group is started with. -/
def groupHandle (s : RepoService Name Store) (group : Name) : GroupHandle Name where
  repoNode := append group s.config.nodeId
  svs := if s.config.twoPhaseIngest then
      { s.config.svs with autoAck := false, serveAllStored := true }
    else s.config.svs
  validator := s.repo.ingestValidator
  twoPhase := s.config.twoPhaseIngest

/-- Start ingesting a group, if it is not ingested. -/
def startGroup (s : RepoService Name Store) (group : Name) :
    List (ServiceEffect Name) × RepoService Name Store :=
  if group ∈ s.groups then ([], s)
  else
    let handle := s.groupHandle group
    (s.emitRegister group ++ [.spawn group handle],
      { s with groups := s.groups.insert group handle })

/-- Stop ingesting a group. -/
def stopGroup (s : RepoService Name Store) (group : Name) :
    List (ServiceEffect Name) × RepoService Name Store :=
  if group ∈ s.groups then ([.cancel group], { s with groups := s.groups.erase group })
  else ([], s)

/-- Startup: the command prefix and the groups of the configuration. -/
def start (s : RepoService Name Store) : List (ServiceEffect Name) × RepoService Name Store :=
  s.config.initialGroups.foldl
    (fun (effects, s) group =>
      let (more, s) := s.startGroup group
      (effects ++ more, s))
    (s.emitRegister s.repoPrefix, s)

section Hash

variable [HashOrder Name]

/-- The first group, in the order of the map, that covers a name. -/
def groupOf (s : RepoService Name Store) (name : Name) : Option Name :=
  (HashOrder.order s.groups.keys).find? fun group => hasPrefix name group

/-- Whether a group covers a name. -/
def inAnyGroup (s : RepoService Name Store) (name : Name) : Bool :=
  s.groups.keys.any fun group => hasPrefix name group

/-- Hand a packet to the `SvSync` of a group that covers it. -/
def routeToGroup (s : RepoService Name Store) (name : Name) (raw : Bytes) :
    List (ServiceEffect Name) :=
  match s.groupOf name with
  | some group => [.netIn group raw]
  | none => []

/-- Take the names to fetch and hand each to a group that covers it. -/
def drivePendingFetches (s : RepoService Name Store) :
    List (ServiceEffect Name) × RepoService Name Store :=
  let (names, repo) := s.repo.takePendingFetches
  (names.filterMap fun name => (s.groupOf name).map fun group => .ingestName group name,
    { s with repo := repo })

end Hash

/-! ## Packets -/

variable [NameTlv Name] [NdnTlvWriter] [NdnInterest Name] [HashOrder Name] [ScanStore Name Store]

omit [NameTlv Name] [NdnTlvWriter] [NdnInterest Name] [ScanStore Name Store] in
/-- Do what a successful command asks of the service. -/
def follow (s : RepoService Name Store) :
    Option (RepoCmd Name) → List (ServiceEffect Name) × RepoService Name Store
  | some (.syncJoin j) =>
      match j.group with
      | some group => s.startGroup group
      | none => ([], s)
  | some (.syncLeave l) =>
      match l.group with
      | some group => s.stopGroup group
      | none => ([], s)
  | some (.blobFetch _) => s.drivePendingFetches
  | none => ([], s)

/-- Answer a command and do what it asks for. -/
def handleCommandInterest (s : RepoService Name Store) (interest : NdnInterest.Interest Name)
    (ap : Bytes) : List (ServiceEffect Name) × RepoService Name Store :=
  let parsed : Option (RepoCmd Name) := RepoCmd.decode ap
  let (res, repo) := s.repo.handleCommand ap
  let s := { s with repo := repo }
  let (effects, s) := if res.status = 200 then s.follow parsed else ([], s)
  (effects ++ [.send (NdnInterest.signFresh (NdnInterest.name interest) res.encode
    s.config.responseFreshness)], s)

omit [NameTlv Name] [NdnTlvWriter] [HashOrder Name] in
/-- A stored packet that answers an Interest. -/
def serveFromStore (s : RepoService Name Store) (interest : NdnInterest.Interest Name) :
    Option Bytes :=
  if NdnInterest.canBePrefix interest then
    ScanStore.findUnder s.repo.store (NdnInterest.name interest)
  else DataStore.get s.repo.store (NdnInterest.name interest)

/-- The command an Interest carries, if it is one. -/
def commandOf (s : RepoService Name Store) (interest : NdnInterest.Interest Name) : Option Bytes :=
  if hasPrefix (NdnInterest.name interest) s.repoPrefix then
    (NdnInterest.appParameters interest).filter fun ap =>
      (RepoCmd.decode ap : Option (RepoCmd Name)).isSome
  else none

/-- Handle a packet. -/
def dispatch (s : RepoService Name Store) (raw : Bytes) :
    List (ServiceEffect Name) × RepoService Name Store :=
  match raw.head? with
  | some 0x05 =>
      match (NdnInterest.decode raw : Option (NdnInterest.Interest Name)) with
      | none => ([], s)
      | some interest =>
          match s.commandOf interest with
          | some ap => s.handleCommandInterest interest ap
          | none =>
              let name := NdnInterest.name interest
              if s.inAnyGroup name then
                match s.serveFromStore interest with
                | some wire => ([.send wire], s)
                | none => (s.routeToGroup name raw, s)
              else ([], s)
  | some 0x06 =>
      match (NdnData.decode raw : Option (NdnData.Data Name)) with
      | some data => (s.routeToGroup (NdnData.name data) raw, s)
      | none => ([], s)
  | _ => ([], s)

/-- One turn of the loop, or a packet stored meanwhile. -/
def step (s : RepoService Name Store) :
    ServiceEvent Name → List (ServiceEffect Name) × RepoService Name Store
  | .received raw => s.dispatch raw
  | .control (.join group) => s.startGroup group
  | .control (.leave group) => s.stopGroup group
  | .ingested name wire => ([], { s with repo := s.repo.ingest name wire })

/-- The service after an event. -/
def next (s : RepoService Name Store) (event : ServiceEvent Name) : RepoService Name Store :=
  (s.step event).2

end RepoService

namespace RepoService

variable {Name Store : Type} [NdnName Name] [NdnData Name]

/-! ## The groups that run -/

/-- The repo has joined the groups the service ingests. -/
def Agrees (s : RepoService Name Store) : Prop :=
  ∀ group, group ∈ s.repo.joinedGroups ↔ group ∈ s.groups

theorem mem_startGroup {s : RepoService Name Store} {group other : Name} :
    other ∈ (s.startGroup group).2.groups ↔ other = group ∨ other ∈ s.groups := by
  rw [startGroup]
  split
  next h => exact ⟨Or.inr, fun hor => hor.elim (fun heq => heq ▸ h) id⟩
  next => exact AList.mem_insert _

@[simp] theorem repo_startGroup (s : RepoService Name Store) (group : Name) :
    (s.startGroup group).2.repo = s.repo := by
  rw [startGroup]
  split <;> rfl

theorem mem_stopGroup {s : RepoService Name Store} {group other : Name} :
    other ∈ (s.stopGroup group).2.groups ↔ other ≠ group ∧ other ∈ s.groups := by
  rw [stopGroup]
  split
  next => exact AList.mem_erase
  next h =>
    refine ⟨fun hother => ⟨?_, hother⟩, And.right⟩
    rintro rfl
    exact h hother

@[simp] theorem repo_stopGroup (s : RepoService Name Store) (group : Name) :
    (s.stopGroup group).2.repo = s.repo := by
  rw [stopGroup]
  split <;> rfl

/-- Startup adds the groups of the configuration and leaves the repo alone. -/
theorem start_eq (s : RepoService Name Store) :
    s.start.2.repo = s.repo ∧
      ∀ group, group ∈ s.start.2.groups ↔ group ∈ s.config.initialGroups ∨ group ∈ s.groups := by
  have hfold : ∀ (groups : List Name) (effects : List (ServiceEffect Name))
      (s : RepoService Name Store),
      let s' := (groups.foldl (fun (effects, s) group =>
        let (more, s) := RepoService.startGroup s group
        (effects ++ more, s)) (effects, s)).2
      s'.repo = s.repo ∧ ∀ group, group ∈ s'.groups ↔ group ∈ groups ∨ group ∈ s.groups := by
    intro groups
    induction groups with
    | nil => exact fun effects s => ⟨rfl, fun group => by simp⟩
    | cons first groups ih =>
        intro effects s
        obtain ⟨hrepo, hgroups⟩ := ih (effects ++ (s.startGroup first).1) (s.startGroup first).2
        refine ⟨hrepo.trans (s.repo_startGroup first), fun group => ?_⟩
        rw [List.foldl_cons, hgroups, mem_startGroup, List.mem_cons]
        tauto
  exact hfold ..

variable [NameTlv Name] [NdnTlvWriter] [NdnInterest Name] [HashOrder Name] [ScanStore Name Store]
variable {s : RepoService Name Store}

/-- What a command leaves behind: a group joined and started, a joined group left and
stopped, or the groups as they were. -/
theorem handleCommandInterest_cases (interest : NdnInterest.Interest Name) (ap : Bytes) :
    (∃ group, (s.handleCommandInterest interest ap).2 =
        (startGroup { s with repo.groups := s.repo.groups.insert group } group).2) ∨
      (∃ group ∈ s.repo.groups, (s.handleCommandInterest interest ap).2 =
        (stopGroup { s with repo.groups := s.repo.groups.erase group } group).2) ∨
      (s.handleCommandInterest interest ap).2.repo.groups = s.repo.groups ∧
        (s.handleCommandInterest interest ap).2.groups = s.groups := by
  rw [handleCommandInterest, Repo.handleCommand]
  generalize (RepoCmd.decode ap : Option (RepoCmd Name)) = parsed
  cases parsed with
  | none => exact Or.inr (Or.inr ⟨rfl, rfl⟩)
  | some cmd =>
      cases cmd with
      | syncJoin j =>
          rcases s.repo.handleSyncJoin_cases j with ⟨hstatus, hrepo⟩ | ⟨group, hgroup, hjoin⟩
          · exact Or.inr (Or.inr (by simp [hstatus, hrepo]))
          · exact Or.inl ⟨group, by simp [hjoin, RepoCmdRes.ok, follow, hgroup]⟩
      | syncLeave l =>
          rcases s.repo.handleSyncLeave_cases l with ⟨hstatus, hrepo⟩ | ⟨group, hgroup, hin, hleave⟩
          · exact Or.inr (Or.inr (by simp [hstatus, hrepo]))
          · exact Or.inr (Or.inl ⟨group, hin, by simp [hleave, RepoCmdRes.ok, follow, hgroup]⟩)
      | blobFetch b =>
          obtain ⟨hres, hgroups, -⟩ := s.repo.handleBlobFetch_eq b
          refine Or.inr (Or.inr ?_)
          simp [hres, RepoCmdRes.ok, follow, drivePendingFetches, Repo.takePendingFetches, hgroups]

/-- An agreement is kept by every command. -/
theorem Agrees.handleCommandInterest (h : s.Agrees) (interest : NdnInterest.Interest Name)
    (ap : Bytes) : (s.handleCommandInterest interest ap).2.Agrees := by
  simp only [Agrees, Repo.mem_joinedGroups] at h ⊢
  intro other
  rcases s.handleCommandInterest_cases interest ap with
    ⟨group, heq⟩ | ⟨group, -, heq⟩ | ⟨hrepo, hgroups⟩
  · rw [heq, repo_startGroup, mem_startGroup, Std.ExtTreeSet.mem_insert, h other,
      compare_eq_iff_eq, eq_comm]
  · rw [heq, repo_stopGroup, mem_stopGroup, Std.ExtTreeSet.mem_erase, h other, Ne,
      compare_eq_iff_eq, eq_comm]
  · rw [hrepo, hgroups]
    exact h other

/-- So it is by every packet. -/
theorem Agrees.dispatch (h : s.Agrees) (raw : Bytes) : (s.dispatch raw).2.Agrees := by
  rw [RepoService.dispatch]
  split
  · split
    · exact h
    · split
      · exact h.handleCommandInterest _ _
      · simp only
        split
        · split
          · exact h
          · exact h
        · exact h
  · split
    · exact h
    · exact h
  · exact h

/-- Control changes nothing: it joins a group that runs or leaves one that does not. -/
def ControlIdle (s : RepoService Name Store) : ServiceEvent Name → Prop
  | .control (.join group) => group ∈ s.groups
  | .control (.leave group) => group ∉ s.groups
  | _ => True

/-- Control that changes something ends an agreement, and nothing else does. -/
theorem agrees_next (h : s.Agrees) (event : ServiceEvent Name) :
    (s.next event).Agrees ↔ s.ControlIdle event := by
  cases event with
  | received raw => exact iff_of_true (h.dispatch raw) trivial
  | ingested name wire =>
      refine iff_of_true ?_ trivial
      have hgroups : (s.repo.ingest name wire).groups = s.repo.groups := by
        rw [Repo.ingest]
        split <;> rfl
      intro group
      rw [Repo.mem_joinedGroups]
      show group ∈ (s.repo.ingest name wire).groups ↔ group ∈ s.groups
      rw [hgroups, ← Repo.mem_joinedGroups]
      exact h group
  | control ctl =>
      cases ctl with
      | join group =>
          constructor
          · intro hnext
            have hrunning : group ∈ (s.startGroup group).2.groups := mem_startGroup.mpr (Or.inl rfl)
            have hjoined := (hnext group).mpr hrunning
            rw [next, step, repo_startGroup] at hjoined
            exact (h group).mp hjoined
          · intro hidle other
            rw [next, step, repo_startGroup, mem_startGroup, h other]
            exact ⟨Or.inr, fun hor => hor.elim (fun heq => heq ▸ hidle) id⟩
      | leave group =>
          constructor
          · intro hnext hin
            have hjoined : group ∈ (s.stopGroup group).2.repo.joinedGroups := by
              rw [repo_stopGroup]
              exact (h group).mpr hin
            exact (mem_stopGroup.mp ((hnext group).mp hjoined)).1 rfl
          · intro hidle other
            rw [next, step, repo_stopGroup, mem_stopGroup, h other]
            refine ⟨fun hin => ⟨?_, hin⟩, And.right⟩
            rintro rfl
            exact hidle hin

/-- How a command to leave a group is answered, and what it stops: right if the group is
left exactly if it runs. -/
def LeavesRight (s : RepoService Name Store) : Prop :=
  ∀ (interest : NdnInterest.Interest Name) (ap : Bytes) (protocol : Option Name) (group : Name),
    RepoCmd.decode ap = some (.syncLeave ⟨protocol, some group⟩) →
      let answer := fun res : RepoCmdRes => ServiceEffect.send (NdnInterest.signFresh
        (NdnInterest.name interest) res.encode s.config.responseFreshness)
      (s.handleCommandInterest interest ap).1 =
          (if group ∈ s.groups then [.cancel group, answer .ok]
            else [answer (.err 500 "group not joined")]) ∧
        group ∉ (s.handleCommandInterest interest ap).2.groups

theorem Agrees.leavesRight (h : s.Agrees) : s.LeavesRight := by
  intro interest ap protocol group hcmd
  have hgroup : group ∈ s.repo.groups ↔ group ∈ s.groups := by
    rw [← Repo.mem_joinedGroups]
    exact h group
  simp only [RepoService.handleCommandInterest, Repo.handleCommand, hcmd, Repo.handleSyncLeave,
    hgroup]
  split
  next hin =>
    simp [RepoCmdRes.ok, follow, stopGroup, hin]
  next hout => simp [RepoCmdRes.err, hout]

/-- The repo's joined groups are those that run, in every state of a run, exactly if
they were those of the configuration at startup and control changes nothing.  While
they are, commands to leave a group are answered right. -/
theorem agrees_iff (repo : Repo Name Store) (repoPrefix : Name) (config : RepoServiceConfig Name)
    (registers : Bool) (events : List (ServiceEvent Name)) :
    let s := (new repo repoPrefix config registers).start.2
    ((∀ t ∈ Steps.states next s events, t.Agrees) ↔
      (∀ group, group ∈ repo.joinedGroups ↔ group ∈ config.initialGroups) ∧
        Steps.Admits next ControlIdle s events) ∧
      ∀ t : RepoService Name Store, t.Agrees → t.LeavesRight := by
  intro s
  obtain ⟨hrepo, hgroups⟩ := (new repo repoPrefix config registers).start_eq
  have hstart : s.Agrees ↔
      ∀ group, group ∈ repo.joinedGroups ↔ group ∈ config.initialGroups := by
    simp only [s, Agrees, hrepo, hgroups]
    simp [new]
  refine ⟨?_, fun t ht => ht.leavesRight⟩
  rw [← hstart]
  exact Steps.forall_states_iff (fun _ event h => agrees_next h event) s events

/-! ## The names to fetch -/

/-- The name a packet asks to be fetched, if it is a `BlobFetch` with a name. -/
def fetchOf (s : RepoService Name Store) (raw : Bytes) : Option Name :=
  if raw.head? = some 0x05 then do
    let interest ← (NdnInterest.decode raw : Option (NdnInterest.Interest Name))
    let ap ← s.commandOf interest
    match (RepoCmd.decode ap : Option (RepoCmd Name)) with
    | some (.blobFetch b) => b.name
    | _ => none
  else none

/-- A name is handed, in the course of some events, to the `ingest_name` of a running
group that covers it. -/
def Handed (name : Name) : RepoService Name Store → List (ServiceEvent Name) → Prop
  | _, [] => False
  | s, event :: events =>
      (∃ group ∈ s.groups, hasPrefix name group = true ∧
        .ingestName group name ∈ (s.step event).1) ∨ Handed name (s.next event) events

/-- The name an event asks to be fetched is covered by a running group. -/
def Covered (s : RepoService Name Store) : ServiceEvent Name → Prop
  | .received raw => ∀ name, s.fetchOf raw = some name →
      ∃ group ∈ s.groups, hasPrefix name group = true
  | _ => True

omit [NameTlv Name] [NdnTlvWriter] [NdnInterest Name] [ScanStore Name Store] in
/-- A group is found exactly if one covers the name. -/
theorem groupOf_eq_some {name group : Name} (h : s.groupOf name = some group) :
    group ∈ s.groups ∧ hasPrefix name group = true := by
  have hmem := (HashOrder.perm s.groups.keys).mem_iff.mp (List.mem_of_find?_eq_some h)
  exact ⟨AList.mem_keys.mpr hmem, List.find?_some h⟩

omit [NameTlv Name] [NdnTlvWriter] [NdnInterest Name] [ScanStore Name Store] in
theorem groupOf_isSome {name : Name} :
    (s.groupOf name).isSome = true ↔ ∃ group ∈ s.groups, hasPrefix name group = true := by
  rw [groupOf, List.find?_isSome]
  exact exists_congr fun group => and_congr_left fun _ => (HashOrder.perm _).mem_iff

/-- A fetch is answered with success, empties the queue, and hands its name to the group
found for it, if one is. -/
theorem step_fetch {raw : Bytes} {name : Name} (h : s.fetchOf raw = some name) :
    (∃ interest : NdnInterest.Interest Name, NdnInterest.decode raw = some interest ∧
      .send (NdnInterest.signFresh (NdnInterest.name interest) RepoCmdRes.ok.encode
        s.config.responseFreshness) ∈ (s.step (.received raw)).1) ∧
      (s.next (.received raw)).repo.pendingFetches = [] ∧
        ∀ group, .ingestName group name ∈ (s.step (.received raw)).1 ↔
          s.groupOf name = some group := by
  rw [fetchOf] at h
  split at h
  next hhead =>
    simp only [bind, Option.bind_eq_some_iff] at h
    obtain ⟨interest, hinterest, ap, hap, hcmd⟩ := h
    split at hcmd
    next b hb =>
      obtain ⟨hres, hgroups, hpending⟩ := s.repo.handleBlobFetch_eq b
      have hdispatch : s.step (.received raw) = s.handleCommandInterest interest ap := by
        simp only [step, dispatch, hhead, hinterest, hap]
      have hsame : ∀ repo : Repo Name Store, groupOf { s with repo := repo } = s.groupOf :=
        fun _ => rfl
      rw [next, hdispatch]
      simp only [handleCommandInterest, Repo.handleCommand, hb, hres, RepoCmdRes.ok, if_true,
        follow, drivePendingFetches, Repo.takePendingFetches, hpending, hcmd, hsame]
      refine ⟨⟨interest, hinterest, by simp⟩, trivial, fun group => ?_⟩
      simp only [List.mem_append, List.mem_filterMap, List.mem_singleton, Option.map_eq_some_iff,
        ServiceEffect.ingestName.injEq, Option.mem_toList, reduceCtorEq, or_false]
      constructor
      · rintro ⟨_, -, _, hfound, rfl, rfl⟩
        exact hfound
      · intro hfound
        exact ⟨name, Or.inr rfl, group, hfound, rfl, rfl⟩
    next => cases hcmd
  next => cases h

/-- A name that is asked for is handed at once, or is lost. -/
theorem kept_iff {raw : Bytes} {name : Name} (h : s.fetchOf raw = some name) :
    (name ∈ (s.next (.received raw)).repo.pendingFetches ∨ Handed name s [.received raw]) ↔
      ∃ group ∈ s.groups, hasPrefix name group = true := by
  obtain ⟨-, hpending, heffects⟩ := step_fetch h
  simp only [hpending, List.not_mem_nil, Handed, heffects, or_false, false_or]
  constructor
  · rintro ⟨group, hin, hcovers, -⟩
    exact ⟨group, hin, hcovers⟩
  · intro hcovered
    obtain ⟨group, hfound⟩ := Option.isSome_iff_exists.mp (groupOf_isSome.mpr hcovered)
    obtain ⟨hin, hcovers⟩ := groupOf_eq_some hfound
    exact ⟨group, hin, hcovers, hfound⟩

/-- In every run: each name that a `BlobFetch` asks for is, at every later point, queued
or handed to a running group that covers it, exactly if each is covered by a running
group when it is asked for. -/
theorem fetches_kept_iff (s : RepoService Name Store) (events : List (ServiceEvent Name)) :
    (∀ before raw later rest, events = before ++ .received raw :: (later ++ rest) →
      ∀ name, (Steps.run next s before).fetchOf raw = some name →
        name ∈ (Steps.run next s (before ++ .received raw :: later)).repo.pendingFetches ∨
          Handed name (Steps.run next s before) (.received raw :: later)) ↔
      Steps.Admits next Covered s events := by
  rw [Steps.admits_iff]
  constructor
  · intro h before event rest heq
    cases event with
    | received raw =>
        intro name hname
        have hkept := h before raw [] rest heq name hname
        rw [Steps.run_append] at hkept
        exact (kept_iff hname).mp hkept
    | control ctl => trivial
    | ingested name wire => trivial
  · intro h before raw later rest heq name hname
    have hcovered := h before (.received raw) (later ++ rest) heq name hname
    obtain ⟨-, hpending, -⟩ := step_fetch hname
    rcases (kept_iff hname).mpr hcovered with hqueued | hhanded
    · rw [hpending] at hqueued
      cases hqueued
    · rcases hhanded with hnow | hnever
      · exact Or.inr (Or.inl hnow)
      · cases hnever

end RepoService

/-! ## Two runs that go wrong -/

/-- An Interest as its name and the blocks after the name: CanBePrefix (33) and the
parameters (36). -/
instance [NdnTlvWriter] [Sha2] : NdnInterest Components where
  Interest := BlockData
  decode := fun bytes => do
    let (5, body, []) ← readTlv bytes | none
    let (7, _, rest) ← readTlv body | none
    let name ← NameTlv.decodeFromTlv (body.take (body.length - rest.length))
    let rest ← blocks rest
    return ⟨name, rest⟩
  name := BlockData.name
  appParameters := fun interest => interest.rest.lookup 36
  canBePrefix := fun interest => interest.rest.any fun field => field.1 = 33
  signFresh := fun name content period =>
    let signed := nameBlock name ++ (Tlv.write 20 (Tlv.write 25 (nniOctets period)) ++
      (Tlv.write 21 content ++ Tlv.write 22 (Tlv.write 27 [0])))
    Tlv.write 6 (signed ++ Tlv.write 23 (sha256 signed).1)

instance : HashOrder Components := ⟨id, fun keys => List.Perm.refl keys⟩

/-- A repo that commands reach under `/r`, with some groups of its configuration. -/
def smallService [NdnTlv] [Sha2] (initialGroups : List Components) :
    RepoService Components (FjallStore Components) :=
  (RepoService.new (Repo.new .empty) [[8, 1, 114]] ⟨ascii "repo", 1000, initialGroups,
    ⟨true, false⟩, false⟩ false).start.2

/-- A command under `/r`. -/
def commandInterest (ap : Bytes) : Bytes :=
  Tlv.write 5 (nameBlock [[8, 1, 114]] ++ Tlv.write 36 ap)

/-- The command to leave `/g`. -/
def leaveCommand : Bytes :=
  Tlv.write TlvType.syncLeave (Tlv.write TlvType.group (nameBlock [[8, 1, 103]]))

/-- The command to fetch `/b`. -/
def fetchCommand : Bytes :=
  Tlv.write TlvType.blobFetch (Tlv.write TlvType.blobName (nameBlock [[8, 1, 98]]))

/-- A group of the configuration runs and is not joined.  Leaving it is refused, and it
runs on. -/
theorem initial_group_not_left :
    letI := shortSha2
    letI := blockTlvWriter
    let s := smallService [[[8, 1, 103]]]
    let t := s.next (.received (commandInterest leaveCommand))
    ([[8, 1, 103]] : Components) ∈ s.groups ∧ s.repo.joinedGroups = [] ∧
      (s.repo.handleCommand leaveCommand).1 = .err 500 "group not joined" ∧
      ([[8, 1, 103]] : Components) ∈ t.groups := by
  decide +kernel

/-- A name fetched while no group runs is lost. -/
theorem fetch_lost :
    letI := shortSha2
    letI := blockTlvWriter
    let s := smallService []
    s.fetchOf (commandInterest fetchCommand) = some [[8, 1, 98]] ∧
      (s.repo.handleCommand fetchCommand).1 = .ok ∧
      (s.next (.received (commandInterest fetchCommand))).repo.pendingFetches = [] ∧
      ¬ RepoService.Handed [[8, 1, 98]] s [.received (commandInterest fetchCommand)] := by
  let _ := shortSha2
  let _ := blockTlvWriter
  have hfetch : (smallService []).fetchOf (commandInterest fetchCommand) = some [[8, 1, 98]] := by
    decide +kernel
  have hgroups : (smallService []).groups.keys = [] := by decide +kernel
  refine ⟨hfetch, by decide +kernel, by decide +kernel, fun hhanded => ?_⟩
  obtain ⟨group, hin, -⟩ := (RepoService.kept_iff hfetch).mp (Or.inr hhanded)
  have hkey := AList.mem_keys.mp hin
  rw [hgroups] at hkey
  cases hkey

end NdnRepo
