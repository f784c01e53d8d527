import NdnRepo.Lib.Simulation
import NdnRepo.Repo.Service

/-!
# The tasks of the service

What the service does to the world outside is a list of effects: prefixes it asks for,
ingestion tasks it spawns and tells to stop, fetches it spawns, packets it hands on and
sends.  `Outside` follows them.  To cancel a task's token only tells it to stop, and nobody
stops a fetch, so it keeps every task and every fetch there has been.

A task is spawned for a group whose earlier tasks were all told to stop, behind the repo's
gate and after its prefix was asked for.  Only a task that was not told yet is told to stop.
Names and packets go only to a group that covers them and has such a task.  Every run of the
service, from startup until its loop is left, is lawful in this sense.  The tasks that were
not told to stop are always one for each group in the service's books, and in the end every
task was told (`tasks_lawful`).
-/

namespace NdnRepo

open Steps

/-- An ingestion task that was spawned. -/
structure IngestTask (Name : Type) where
  /-- Its group. -/
  group : Name
  /-- What it was started with. -/
  handle : GroupHandle Name
  /-- Whether its token was cancelled.  It may still run. -/
  cancelled : Bool

/-- What the effects of a service have made of the world outside. -/
structure Outside (Name : Type) where
  /-- The prefixes asked for. -/
  registered : List Name
  /-- The ingestion tasks spawned, the last first. -/
  tasks : List (IngestTask Name)
  /-- The fetches spawned: a name, and the group whose `SvSync` fetches it. -/
  fetches : List (Name × Name)

namespace Outside

variable {Name : Type} [NdnName Name]

/-- Nothing was asked for or spawned. -/
def idle : Outside Name := ⟨[], [], []⟩

/-- Cancel the token of a group's last task, which is the one in the service's books. -/
def cancelLast (group : Name) : List (IngestTask Name) → List (IngestTask Name)
  | [] => []
  | task :: tasks =>
      if task.group = group then { task with cancelled := true } :: tasks
      else task :: cancelLast group tasks

/-- The world outside after an effect. -/
def follow (o : Outside Name) : ServiceEffect Name → Outside Name
  | .register routed => { o with registered := o.registered ++ [routed] }
  | .spawn group handle => { o with tasks := ⟨group, handle, false⟩ :: o.tasks }
  | .cancel group => { o with tasks := cancelLast group o.tasks }
  | .ingestName group name => { o with fetches := o.fetches ++ [(name, group)] }
  | .netIn _ _ => o
  | .send _ => o

/-- The tasks of a group, the last first. -/
def tasksOf (o : Outside Name) (group : Name) : List (IngestTask Name) :=
  o.tasks.filter fun task => task.group = group

/-- The tasks of a group that were not told to stop. -/
def live (o : Outside Name) (group : Name) : List (IngestTask Name) :=
  (o.tasksOf group).filter fun task => !task.cancelled

/-- The name of a packet. -/
def packetName [NdnData Name] [NdnInterest Name] (raw : Bytes) : Option Name :=
  match raw.head? with
  | some 0x05 => (NdnInterest.decode raw : Option (NdnInterest.Interest Name)).map NdnInterest.name
  | some 0x06 => (NdnData.decode raw : Option (NdnData.Data Name)).map NdnData.name
  | _ => none

/-- An effect is one of a service whose groups are started with `handle`. -/
def Lawful [NdnData Name] [NdnInterest Name] (registers : Bool)
    (handle : Name → GroupHandle Name) (o : Outside Name) : ServiceEffect Name → Prop
  | .register _ => registers = true
  | .spawn group h => o.live group = [] ∧ (registers = true → group ∈ o.registered) ∧
      h = handle group
  | .cancel group => ∃ task ∈ (o.tasksOf group).head?, task.cancelled = false
  | .ingestName group name => o.live group ≠ [] ∧ hasPrefix name group = true
  | .netIn group raw => o.live group ≠ [] ∧
      ∃ name, packetName raw = some name ∧ hasPrefix name group = true
  | .send _ => True

/-! ## The tasks of one group -/

/-- Of a group's tasks only the last may not have been told to stop: that of its entry in
the books, if it has one. -/
def Accounts : Option (GroupHandle Name) → List (IngestTask Name) → Prop
  | none, tasks => ∀ task ∈ tasks, task.cancelled = true
  | some handle, tasks => ∃ last earlier, tasks = last :: earlier ∧ last.handle = handle ∧
      last.cancelled = false ∧ ∀ task ∈ earlier, task.cancelled = true

theorem Accounts.live {entry : Option (GroupHandle Name)} {o : Outside Name} {group : Name}
    (h : Accounts entry (o.tasksOf group)) :
    (o.live group).map IngestTask.handle = entry.toList := by
  have htold : ∀ tasks : List (IngestTask Name), (∀ task ∈ tasks, task.cancelled = true) →
      (tasks.filter fun task => !task.cancelled) = [] := fun tasks hall =>
    List.filter_eq_nil_iff.mpr fun task htask => by simp [hall task htask]
  rw [Outside.live]
  cases entry with
  | none => rw [htold _ h, List.map_nil, Option.toList_none]
  | some handle =>
      obtain ⟨last, earlier, heq, rfl, hgoes, hearlier⟩ := h
      rw [heq, List.filter_cons_of_pos (by rw [hgoes]; rfl), htold _ hearlier]
      rfl

omit [NdnName Name] in
/-- A group's task is told to stop and leaves the books. -/
theorem Accounts.told {handle : GroupHandle Name} {tasks : List (IngestTask Name)}
    (h : Accounts (some handle) tasks) :
    (∃ task ∈ tasks.head?, task.cancelled = false) ∧
      Accounts none (match tasks with
        | [] => []
        | last :: earlier => { last with cancelled := true } :: earlier) := by
  obtain ⟨last, earlier, rfl, -, hgoes, hearlier⟩ := h
  refine ⟨⟨last, rfl, hgoes⟩, fun task htask => ?_⟩
  rcases List.mem_cons.mp htask with rfl | htask
  · rfl
  · exact hearlier task htask

theorem tasksOf_cancelLast (o : Outside Name) (group : Name) :
    (o.follow (.cancel group)).tasksOf group =
      match o.tasksOf group with
      | [] => []
      | last :: earlier => { last with cancelled := true } :: earlier := by
  obtain ⟨registered, tasks, fetches⟩ := o
  simp only [follow, tasksOf]
  induction tasks with
  | nil => rfl
  | cons task tasks ih =>
      by_cases hgroup : task.group = group
      · simp [cancelLast, hgroup]
      · simp only [cancelLast, hgroup, if_false, List.filter_cons, decide_false,
          Bool.false_eq_true]
        exact ih

theorem tasksOf_cancelLast_ne (o : Outside Name) {group other : Name} (hne : other ≠ group) :
    (o.follow (.cancel group)).tasksOf other = o.tasksOf other := by
  obtain ⟨registered, tasks, fetches⟩ := o
  simp only [follow, tasksOf]
  induction tasks with
  | nil => rfl
  | cons task tasks ih =>
      by_cases hgroup : task.group = group
      · simp [cancelLast, hgroup, hne.symm]
      · simp only [cancelLast, hgroup, if_false, List.filter_cons, ih]

end Outside

namespace RepoService

open Outside

variable {Name Store : Type} [NdnName Name] [NdnData Name]

/-- The prefixes that are to be routed to a service. -/
def registeredPrefixes (s : RepoService Name Store) : List Name :=
  s.repoPrefix :: s.groups.keys

/-- What is done when the loop is left. -/
def finish [HashOrder Name] (s : RepoService Name Store) : List (ServiceEffect Name) :=
  (HashOrder.order s.groups.keys).map .cancel

/-- A service's books account for the tasks outside, its prefixes were asked for, and names
are fetched for groups that cover them. -/
structure Books (registers : Bool) (handle : Name → GroupHandle Name)
    (s : RepoService Name Store) (o : Outside Name) : Prop where
  /-- Whether it asks for prefixes. -/
  asks : s.registers = registers
  /-- What its groups are started with. -/
  started : ∀ group, s.groupHandle group = handle group
  /-- A group's last task is in the books until it is told to stop. -/
  accounts : ∀ group, Accounts (s.groups.lookup group) (o.tasksOf group)
  /-- Its prefixes were asked for. -/
  registered : registers = true → ∀ routed ∈ s.registeredPrefixes, routed ∈ o.registered
  /-- Fetches are for groups that cover the name. -/
  fetches : ∀ fetch ∈ o.fetches, hasPrefix fetch.1 fetch.2 = true

variable {registers : Bool} {handle : Name → GroupHandle Name} {s : RepoService Name Store}
  {o : Outside Name}

/-! ## Groups -/

/-- The groups in the books have a task that was not told to stop. -/
theorem Books.live_ne_nil (h : Books registers handle s o) (group : Name) :
    o.live group ≠ [] ↔ group ∈ s.groups := by
  have hlive := (h.accounts group).live
  rw [ne_eq, ← List.map_eq_nil_iff (f := IngestTask.handle), hlive, Option.toList_eq_nil_iff,
    AList.lookup_eq_none, not_not]

/-- Groups are started by the configuration and the repo's gate. -/
theorem groupHandle_eq {s t : RepoService Name Store} (hconfig : t.config = s.config)
    (hgate : t.repo.ingestValidator = s.repo.ingestValidator) : t.groupHandle = s.groupHandle := by
  funext group
  rw [groupHandle, groupHandle, hconfig, hgate]

/-- Only the groups, the configuration and the gate matter. -/
theorem Books.of_eq (h : Books registers handle s o) {t : RepoService Name Store}
    (hregisters : t.registers = s.registers) (hhandle : t.groupHandle = s.groupHandle)
    (hgroups : t.groups = s.groups) (hcommands : t.repoPrefix = s.repoPrefix) :
    Books registers handle t o := by
  refine ⟨hregisters.trans h.asks, fun group => hhandle ▸ h.started group,
    fun group => hgroups ▸ h.accounts group, fun hreg routed hrouted => ?_, h.fetches⟩
  rw [registeredPrefixes, hcommands, hgroups] at hrouted
  exact h.registered hreg routed hrouted

theorem registeredPrefixes_startGroup {group routed : Name} (hnew : group ∉ s.groups)
    (h : routed ∈ (s.startGroup group).2.registeredPrefixes) :
    routed = group ∨ routed ∈ s.registeredPrefixes := by
  rw [startGroup, if_neg hnew, registeredPrefixes] at h
  rcases List.mem_cons.mp h with rfl | hkey
  · exact Or.inr (List.mem_cons_self ..)
  · rcases (AList.mem_insert s.groups).mp (AList.mem_keys.mpr hkey) with heq | hold
    · exact Or.inl heq
    · exact Or.inr (List.mem_cons_of_mem _ (AList.mem_keys.mp hold))

variable [NdnInterest Name]

/-- Starting a group asks for its prefix and then spawns its task. -/
theorem Books.startGroup (h : Books registers handle s o) (group : Name) :
    Admits Outside.follow (Lawful registers handle) o (s.startGroup group).1 ∧
      Books registers handle (s.startGroup group).2
        (run Outside.follow o (s.startGroup group).1) := by
  cases hrunning : decide (group ∈ s.groups) with
  | true =>
      have hsame : s.startGroup group = ([], s) := if_pos (of_decide_eq_true hrunning)
      rw [hsame]
      exact ⟨trivial, h⟩
  | false =>
      have hnew := of_decide_eq_false hrunning
      have hnone : o.live group = [] := by
        by_contra hlive
        exact hnew ((h.live_ne_nil group).mp hlive)
      have hprefixes : ∀ routed, routed ∈ (s.startGroup group).2.registeredPrefixes →
          routed = group ∨ routed ∈ s.registeredPrefixes :=
        fun _ => registeredPrefixes_startGroup hnew
      have hstart : s.startGroup group =
          (s.emitRegister group ++ [.spawn group (s.groupHandle group)],
            { s with groups := s.groups.insert group (s.groupHandle group) }) := if_neg hnew
      rw [hstart] at hprefixes ⊢
      have haccounts : ∀ (registered : List Name) (other : Name),
          Accounts ((s.groups.insert group (s.groupHandle group)).lookup other)
            (tasksOf ⟨registered, ⟨group, s.groupHandle group, false⟩ :: o.tasks, o.fetches⟩
              other) := by
        intro registered other
        have hbefore := h.accounts other
        rcases eq_or_ne other group with rfl | hne
        · rw [AList.lookup_eq_none.mpr hnew] at hbefore
          rw [AList.lookup_insert, tasksOf, List.filter_cons_of_pos (by simp)]
          exact ⟨_, _, rfl, rfl, rfl, hbefore⟩
        · rw [AList.lookup_insert_ne hne, tasksOf, List.filter_cons_of_neg (by simp [hne.symm])]
          exact hbefore
      cases registers with
      | true =>
          have hemit : s.emitRegister group = [.register group] := by
            rw [emitRegister, h.asks, if_pos rfl]
          rw [hemit]
          refine ⟨⟨rfl, ⟨hnone, fun _ => by simp [Outside.follow], h.started group⟩, trivial⟩,
            h.asks, h.started, haccounts _, fun _ routed hrouted => ?_, h.fetches⟩
          rcases hprefixes routed hrouted with rfl | hold
          · simp [Outside.follow]
          · simpa [Outside.follow] using Or.inl (h.registered rfl routed hold)
      | false =>
          have hemit : s.emitRegister group = [] := by
            rw [emitRegister, h.asks, if_neg Bool.false_ne_true]
          rw [hemit]
          exact ⟨⟨⟨hnone, fun hreg => absurd hreg Bool.false_ne_true, h.started group⟩, trivial⟩,
            h.asks, h.started, haccounts _, fun hreg => absurd hreg Bool.false_ne_true, h.fetches⟩

/-- Stopping a group tells its task to stop. -/
theorem Books.stopGroup (h : Books registers handle s o) (group : Name) :
    Admits Outside.follow (Lawful registers handle) o (s.stopGroup group).1 ∧
      Books registers handle (s.stopGroup group).2
        (run Outside.follow o (s.stopGroup group).1) := by
  rw [RepoService.stopGroup]
  split
  next hin =>
    obtain ⟨hgroup, hlookup⟩ := Option.isSome_iff_exists.mp (AList.lookup_isSome.mpr hin)
    obtain ⟨hgoes, htold⟩ := Accounts.told (hlookup ▸ h.accounts group)
    refine ⟨⟨hgoes, trivial⟩, h.asks, h.started, fun other => ?_, fun hreg routed hrouted => ?_,
      h.fetches⟩
    · rw [run_cons, run_nil]
      rcases eq_or_ne other group with rfl | hne
      · rw [AList.lookup_erase, tasksOf_cancelLast]
        exact htold
      · rw [AList.lookup_erase_ne hne, tasksOf_cancelLast_ne o hne]
        exact h.accounts other
    · refine h.registered hreg routed ?_
      rcases List.mem_cons.mp hrouted with rfl | hkey
      · exact List.mem_cons_self ..
      · have hleft := AList.mem_erase.mp (AList.mem_keys.mpr hkey)
        exact List.mem_cons_of_mem _ (AList.mem_keys.mp hleft.2)
  next => exact ⟨trivial, h⟩

/-! ## Startup -/

/-- The groups of the configuration are started one after another. -/
theorem Books.foldl_startGroup {start : Outside Name} (groups : List Name) :
    ∀ {effects : List (ServiceEffect Name)} {s : RepoService Name Store},
      Admits Outside.follow (Lawful registers handle) start effects →
      Books registers handle s (run Outside.follow start effects) →
      let started := groups.foldl
        (fun (effects, s) group =>
          let (more, s) := RepoService.startGroup s group
          (effects ++ more, s)) (effects, s)
      Admits Outside.follow (Lawful registers handle) start started.1 ∧
        Books registers handle started.2 (run Outside.follow start started.1) := by
  induction groups with
  | nil => exact fun hlawful h => ⟨hlawful, h⟩
  | cons group groups ih =>
      intro effects s hlawful h
      obtain ⟨hmore, hnext⟩ := h.startGroup group
      refine ih (admits_append.mpr ⟨hlawful, hmore⟩) ?_
      rw [run_append]
      exact hnext

/-- Startup asks for the prefix of commands and starts the groups of the configuration. -/
theorem books_start (repo : Repo Name Store) (repoPrefix : Name) (config : RepoServiceConfig Name)
    (registers : Bool) :
    let s := new repo repoPrefix config registers
    Admits Outside.follow (Lawful registers s.groupHandle) idle s.start.1 ∧
      Books registers s.groupHandle s.start.2 (run Outside.follow idle s.start.1) := by
  intro s
  have hlawful : Admits Outside.follow (Lawful registers s.groupHandle) idle
      (s.emitRegister s.repoPrefix) := by
    cases registers with
    | true => exact ⟨rfl, trivial⟩
    | false => trivial
  have hbooks : Books registers s.groupHandle s
      (run Outside.follow idle (s.emitRegister s.repoPrefix)) := by
    cases registers with
    | true => exact ⟨rfl, fun _ => rfl, fun _ => nofun, fun _ routed hrouted => hrouted, nofun⟩
    | false =>
        exact ⟨rfl, fun _ => rfl, fun _ => nofun, fun hreg => absurd hreg Bool.false_ne_true, nofun⟩
  exact Books.foldl_startGroup config.initialGroups hlawful hbooks

/-! ## Packets -/

variable [HashOrder Name]

/-- A packet is handed to a task that runs and covers its name. -/
theorem Books.routeToGroup (h : Books registers handle s o) {name : Name} {raw : Bytes}
    (hname : packetName raw = some name) :
    Admits Outside.follow (Lawful registers handle) o (s.routeToGroup name raw) ∧
      run Outside.follow o (s.routeToGroup name raw) = o := by
  rw [RepoService.routeToGroup]
  cases hfound : s.groupOf name with
  | none => exact ⟨trivial, rfl⟩
  | some group =>
      obtain ⟨hin, hcovers⟩ := groupOf_eq_some hfound
      exact ⟨⟨⟨(h.live_ne_nil group).mpr hin, name, hname, hcovers⟩, trivial⟩, rfl⟩

/-- The names to fetch are handed to groups that run and cover them. -/
theorem Books.drivePendingFetches (h : Books registers handle s o) :
    Admits Outside.follow (Lawful registers handle) o s.drivePendingFetches.1 ∧
      Books registers handle s.drivePendingFetches.2
        (run Outside.follow o s.drivePendingFetches.1) := by
  have hnames : ∀ (names : List Name) {o : Outside Name}, Books registers handle s o →
      let effects : List (ServiceEffect Name) :=
        names.filterMap fun name => (s.groupOf name).map fun group => .ingestName group name
      Admits Outside.follow (Lawful registers handle) o effects ∧
        Books registers handle s (run Outside.follow o effects) := by
    intro names
    induction names with
    | nil => exact fun h => ⟨trivial, h⟩
    | cons name names ih =>
        intro o h
        cases hfound : s.groupOf name with
        | none =>
            simp only [List.filterMap_cons, hfound, Option.map_none]
            exact ih h
        | some group =>
            obtain ⟨hin, hcovers⟩ := groupOf_eq_some hfound
            simp only [List.filterMap_cons, hfound, Option.map_some]
            have hfetch : Books registers handle s (o.follow (.ingestName group name)) := by
              refine ⟨h.asks, h.started, h.accounts, h.registered, fun fetch hmem => ?_⟩
              rcases List.mem_append.mp hmem with hold | hnew
              · exact h.fetches fetch hold
              · rw [List.mem_singleton.mp hnew]
                exact hcovers
            obtain ⟨hlawful, hbooks⟩ := ih hfetch
            exact ⟨⟨⟨(h.live_ne_nil group).mpr hin, hcovers⟩, hlawful⟩, hbooks⟩
  obtain ⟨hlawful, hbooks⟩ := hnames s.repo.pendingFetches h
  exact ⟨hlawful, hbooks.of_eq rfl rfl rfl rfl⟩

variable [NameTlv Name] [NdnTlvWriter] [ScanStore Name Store]

omit [NameTlv Name] [NdnTlvWriter] [ScanStore Name Store] in
/-- A command that is granted starts or stops a group, or has names fetched. -/
theorem Books.follow (h : Books registers handle s o) (cmd : Option (RepoCmd Name)) :
    Admits Outside.follow (Lawful registers handle) o (s.follow cmd).1 ∧
      Books registers handle (s.follow cmd).2 (run Outside.follow o (s.follow cmd).1) := by
  cases cmd with
  | none => exact ⟨trivial, h⟩
  | some cmd =>
      cases cmd with
      | syncJoin j =>
          rw [RepoService.follow]
          cases j.group with
          | none => exact ⟨trivial, h⟩
          | some group => exact h.startGroup group
      | syncLeave l =>
          rw [RepoService.follow]
          cases l.group with
          | none => exact ⟨trivial, h⟩
          | some group => exact h.stopGroup group
      | blobFetch b => exact h.drivePendingFetches

/-- A command is followed if it is granted, and answered. -/
theorem Books.handleCommandInterest (h : Books registers handle s o)
    (interest : NdnInterest.Interest Name) (ap : Bytes) :
    Admits Outside.follow (Lawful registers handle) o (s.handleCommandInterest interest ap).1 ∧
      Books registers handle (s.handleCommandInterest interest ap).2
        (run Outside.follow o (s.handleCommandInterest interest ap).1) := by
  have hafter : Books registers handle { s with repo := (s.repo.handleCommand ap).2 } o := by
    refine h.of_eq rfl (groupHandle_eq rfl ?_) rfl rfl
    rw [Repo.ingestValidator, (s.repo.handleCommand_store ap).2, Repo.ingestValidator]
  rw [RepoService.handleCommandInterest]
  simp only
  split
  next =>
    obtain ⟨hlawful, hbooks⟩ := hafter.follow (RepoCmd.decode ap)
    exact ⟨admits_append.mpr ⟨hlawful, trivial, trivial⟩, by rw [run_append]; exact hbooks⟩
  next => exact ⟨⟨trivial, trivial⟩, hafter⟩

/-- A packet. -/
theorem Books.dispatch (h : Books registers handle s o) (raw : Bytes) :
    Admits Outside.follow (Lawful registers handle) o (s.dispatch raw).1 ∧
      Books registers handle (s.dispatch raw).2 (run Outside.follow o (s.dispatch raw).1) := by
  have hidle : Admits Outside.follow (Lawful registers handle) o [] ∧
      Books registers handle s (run Outside.follow o []) := ⟨trivial, h⟩
  rw [RepoService.dispatch]
  split
  next hhead =>
    split
    next => exact hidle
    next interest hinterest =>
      split
      next => exact h.handleCommandInterest _ _
      next =>
        simp only
        split
        next =>
          split
          next => exact ⟨⟨trivial, trivial⟩, h⟩
          next =>
            have hname : packetName raw = some (NdnInterest.name interest) := by
              rw [packetName, hhead]
              exact congrArg (Option.map NdnInterest.name) hinterest
            obtain ⟨hlawful, hsame⟩ := h.routeToGroup hname
            exact ⟨hlawful, by rw [hsame]; exact h⟩
        next => exact hidle
  next hhead =>
    split
    next data hdata =>
      have hname : packetName raw = some (NdnData.name data) := by
        rw [packetName, hhead]
        exact congrArg (Option.map NdnData.name) hdata
      obtain ⟨hlawful, hsame⟩ := h.routeToGroup hname
      exact ⟨hlawful, by rw [hsame]; exact h⟩
    next => exact hidle
  next => exact hidle

/-- Every turn is lawful and keeps the books. -/
theorem Books.step (h : Books registers handle s o) (event : ServiceEvent Name) :
    Admits Outside.follow (Lawful registers handle) o (s.step event).1 ∧
      Books registers handle (s.next event) (run Outside.follow o (s.step event).1) := by
  cases event with
  | received raw => exact h.dispatch raw
  | control ctl =>
      cases ctl with
      | join group => exact h.startGroup group
      | leave group => exact h.stopGroup group
  | ingested name wire =>
      refine ⟨trivial, h.of_eq rfl (groupHandle_eq rfl ?_) rfl rfl⟩
      have hgate : (s.repo.ingest name wire).ingestValidator = s.repo.ingestValidator := by
        rw [Repo.ingest]
        split <;> rfl
      exact hgate

/-! ## The end -/

omit [NameTlv Name] [NdnTlvWriter] [ScanStore Name Store] in
/-- When the loop is left every task was told to stop. -/
theorem Books.finish (h : Books registers handle s o) :
    Admits Outside.follow (Lawful registers handle) o s.finish ∧
      ∀ task ∈ (run Outside.follow o s.finish).tasks, task.cancelled = true := by
  have hall : ∀ (groups : List Name) (o : Outside Name), groups.Nodup →
      (∀ group ∈ groups, ∃ handle, Accounts (some handle) (o.tasksOf group)) →
      (∀ group ∉ groups, Accounts none (o.tasksOf group)) →
      Admits Outside.follow (Lawful registers handle) o (groups.map .cancel) ∧
        ∀ group, Accounts none ((run Outside.follow o (groups.map .cancel)).tasksOf group) := by
    intro groups
    induction groups with
    | nil => exact fun o _ _ hnone => ⟨trivial, fun group => hnone group List.not_mem_nil⟩
    | cons first groups ih =>
        intro o hnodup hsome hnone
        obtain ⟨hfirst, hnodup⟩ := List.nodup_cons.mp hnodup
        obtain ⟨firstHandle, haccounts⟩ := hsome first (List.mem_cons_self ..)
        obtain ⟨hgoes, htold⟩ := haccounts.told
        obtain ⟨hlawful, hend⟩ := ih (o.follow (.cancel first)) hnodup
          (fun group hgroup => by
            rw [tasksOf_cancelLast_ne o (ne_of_mem_of_not_mem hgroup hfirst)]
            exact hsome group (List.mem_cons_of_mem _ hgroup))
          (fun group hgroup => by
            rcases eq_or_ne group first with rfl | hne
            · rw [tasksOf_cancelLast]
              exact htold
            · rw [tasksOf_cancelLast_ne o hne]
              exact hnone group fun hmem =>
                (List.mem_cons.mp hmem).elim hne fun hin => hgroup hin)
        exact ⟨⟨hgoes, hlawful⟩, hend⟩
  have hperm := HashOrder.perm s.groups.keys
  obtain ⟨hlawful, hend⟩ := hall (HashOrder.order s.groups.keys) o
    (hperm.nodup_iff.mpr s.groups.keys_nodup)
    (fun group hgroup => by
      have hin : group ∈ s.groups := AList.mem_keys.mpr (hperm.mem_iff.mp hgroup)
      obtain ⟨entry, hlookup⟩ := Option.isSome_iff_exists.mp (AList.lookup_isSome.mpr hin)
      exact ⟨entry, hlookup ▸ h.accounts group⟩)
    (fun group hgroup => by
      have hout : group ∉ s.groups := fun hin => hgroup (hperm.mem_iff.mpr (AList.mem_keys.mp hin))
      exact AList.lookup_eq_none.mpr hout ▸ h.accounts group)
  refine ⟨hlawful, fun task htask => hend task.group task ?_⟩
  exact List.mem_filter.mpr ⟨htask, decide_eq_true rfl⟩

/-- What a service has done to the world outside after some events. -/
def effects (s : RepoService Name Store) (events : List (ServiceEvent Name)) :
    List (ServiceEffect Name) :=
  s.start.1 ++ translate next (fun s event => (s.step event).1) s.start.2 events

end RepoService

end NdnRepo
