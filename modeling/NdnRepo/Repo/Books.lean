import NdnRepo.Lib.Steps
import NdnRepo.Repo.FailClosed

/-!
# A repo's books

A repo is driven by commands of any bytes and by its embedder, who takes the names to
fetch.  What it has joined, queued and stored is compared with the history: the calls
and their answers.  A command is refused and changes nothing, or it changes one of the
three (`handleCommand_cases`).  So after every run the books agree with the history
(`keeps_books`).
-/

namespace NdnRepo

/-! ## What a command does -/

namespace Repo

variable {Name Store : Type} [NdnName Name] [NdnData Name]

theorem mem_joinedGroups {repo : Repo Name Store} {group : Name} :
    group ∈ repo.joinedGroups ↔ group ∈ repo.groups :=
  Std.ExtTreeSet.mem_toList

/-- A join is refused and changes nothing, or is of a group, which is joined. -/
theorem handleSyncJoin_cases [NameTlv Name] (repo : Repo Name Store) (j : SyncJoin Name) :
    ((repo.handleSyncJoin j).1.status ≠ 200 ∧ (repo.handleSyncJoin j).2 = repo) ∨
      ∃ group, j.group = some group ∧
        repo.handleSyncJoin j = (.ok, { repo with groups := repo.groups.insert group }) := by
  rw [handleSyncJoin]
  split
  · exact Or.inl ⟨by simp [RepoCmdRes.err], rfl⟩
  · split
    · exact Or.inl ⟨by simp [RepoCmdRes.err], rfl⟩
    next group hgroup =>
      split
      · exact Or.inl ⟨by simp [RepoCmdRes.err], rfl⟩
      · exact Or.inr ⟨group, hgroup, rfl⟩

/-- A leave is refused and changes nothing, or is of a joined group, which is left. -/
theorem handleSyncLeave_cases (repo : Repo Name Store) (l : SyncLeave Name) :
    ((repo.handleSyncLeave l).1.status ≠ 200 ∧ (repo.handleSyncLeave l).2 = repo) ∨
      ∃ group, l.group = some group ∧ group ∈ repo.groups ∧
        repo.handleSyncLeave l = (.ok, { repo with groups := repo.groups.erase group }) := by
  rw [handleSyncLeave]
  split
  · exact Or.inl ⟨by simp [RepoCmdRes.err], rfl⟩
  next group hgroup =>
    split
    next hin => exact Or.inr ⟨group, hgroup, hin, rfl⟩
    next => exact Or.inl ⟨by simp [RepoCmdRes.err], rfl⟩

/-- A blob is always fetched: the groups stay, and its name is queued. -/
theorem handleBlobFetch_eq [DataStore Name Store] (repo : Repo Name Store) (b : BlobFetch Name) :
    (repo.handleBlobFetch b).1 = .ok ∧ (repo.handleBlobFetch b).2.groups = repo.groups ∧
      (repo.handleBlobFetch b).2.pendingFetches = repo.pendingFetches ++ b.name.toList := by
  have hall : ∀ (wires : List Bytes) (repo : Repo Name Store),
      (repo.storeAll wires).groups = repo.groups ∧
        (repo.storeAll wires).pendingFetches = repo.pendingFetches := by
    intro wires
    induction wires with
    | nil => exact fun repo => ⟨rfl, rfl⟩
    | cons wire wires ih =>
        intro repo
        have hwire : (repo.storeData wire).2.groups = repo.groups ∧
            (repo.storeData wire).2.pendingFetches = repo.pendingFetches := by
          rw [storeData]
          cases @NdnData.decode Name _ wire <;> exact ⟨rfl, rfl⟩
        obtain ⟨hgroups, hpending⟩ := ih (repo.storeData wire).2
        exact ⟨hgroups.trans hwire.1, hpending.trans hwire.2⟩
  obtain ⟨hgroups, hpending⟩ := hall b.data repo
  rw [handleBlobFetch]
  cases hname : b.name with
  | none => exact ⟨rfl, hgroups, by simp [hpending]⟩
  | some name => exact ⟨rfl, hgroups, by simp [hpending]⟩

/-- A command is refused and changes nothing, or joins a group, or leaves a joined one, or
is a `BlobFetch`. -/
theorem handleCommand_cases [NameTlv Name] [NdnTlv] [DataStore Name Store]
    (repo : Repo Name Store) (value : Bytes) :
    ((repo.handleCommand value).1.status ≠ 200 ∧ (repo.handleCommand value).2 = repo ∧
        ∀ b : BlobFetch Name, RepoCmd.decode value ≠ some (.blobFetch b)) ∨
      (∃ (j : SyncJoin Name) (group : Name), RepoCmd.decode value = some (.syncJoin j) ∧
        j.group = some group ∧
          repo.handleCommand value = (.ok, { repo with groups := repo.groups.insert group })) ∨
      (∃ (l : SyncLeave Name) (group : Name), RepoCmd.decode value = some (.syncLeave l) ∧
        l.group = some group ∧
          repo.handleCommand value = (.ok, { repo with groups := repo.groups.erase group })) ∨
      ∃ b : BlobFetch Name, RepoCmd.decode value = some (.blobFetch b) ∧
        repo.handleCommand value = repo.handleBlobFetch b := by
  unfold handleCommand
  cases hcmd : (RepoCmd.decode value : Option (RepoCmd Name)) with
  | none => exact Or.inl ⟨by simp [RepoCmdRes.err], rfl, by simp⟩
  | some cmd =>
      cases cmd with
      | syncJoin j =>
          rcases repo.handleSyncJoin_cases j with ⟨hstatus, hrepo⟩ | ⟨group, hgroup, hjoin⟩
          · exact Or.inl ⟨hstatus, hrepo, by simp⟩
          · exact Or.inr (Or.inl ⟨j, group, rfl, hgroup, hjoin⟩)
      | syncLeave l =>
          rcases repo.handleSyncLeave_cases l with ⟨hstatus, hrepo⟩ | ⟨group, hgroup, -, hleave⟩
          · exact Or.inl ⟨hstatus, hrepo, by simp⟩
          · exact Or.inr (Or.inr (Or.inl ⟨l, group, rfl, hgroup, hleave⟩))
      | blobFetch b => exact Or.inr (Or.inr (Or.inr ⟨b, rfl, rfl⟩))

end Repo

/-! ## The history -/

/-- What is asked of a repo. -/
inductive RepoCall where
  /-- A command of some bytes. -/
  | command (value : Bytes)
  /-- The names to fetch. -/
  | takePendingFetches

/-- What it answers. -/
inductive RepoAnswer (Name : Type) where
  /-- The reply to a command. -/
  | reply (res : RepoCmdRes)
  /-- Names to fetch. -/
  | names (names : List Name)

section History

variable {Name : Type} [NdnData Name] [NameTlv Name] [NdnTlv]

/-- The command of a call that was answered with success. -/
def granted : RepoCall × RepoAnswer Name → Option (RepoCmd Name)
  | (.command value, .reply res) => if res.status = 200 then RepoCmd.decode value else none
  | _ => none

/-- A group was joined. -/
def Joins (entry : RepoCall × RepoAnswer Name) (group : Name) : Prop :=
  ∃ j, granted entry = some (.syncJoin j) ∧ j.group = some group

/-- A group was left. -/
def Leaves (entry : RepoCall × RepoAnswer Name) (group : Name) : Prop :=
  ∃ l, granted entry = some (.syncLeave l) ∧ l.group = some group

/-- A group's last join is later than its last leave. -/
def Joined (past : List (RepoCall × RepoAnswer Name)) (group : Name) : Prop :=
  ∃ before entry after, past = before ++ entry :: after ∧ Joins entry group ∧
    ∀ later ∈ after, ¬ Leaves later group

/-- The call is one for the names to fetch. -/
def isTake (entry : RepoCall × RepoAnswer Name) : Bool :=
  match entry.1 with
  | .takePendingFetches => true
  | .command _ => false

/-- The name that a call asks to be fetched. -/
def askedName (entry : RepoCall × RepoAnswer Name) : Option Name :=
  match entry.1 with
  | .takePendingFetches => none
  | .command value =>
      match (RepoCmd.decode value : Option (RepoCmd Name)) with
      | some (.blobFetch b) => b.name
      | _ => none

/-- The names asked for since the last were taken, in order. -/
def asked (past : List (RepoCall × RepoAnswer Name)) : List Name :=
  ((past.reverse.takeWhile fun entry => !isTake entry).reverse).filterMap askedName

/-- The packets a call carries. -/
def pushedBy (entry : RepoCall × RepoAnswer Name) : List Bytes :=
  match entry.1 with
  | .takePendingFetches => []
  | .command value => inlineWires Name value

/-- Whether a wire is Data of a name. -/
def isDataOf [DecidableEq Name] (name : Name) (wire : Bytes) : Bool :=
  (NdnData.decode wire : Option (NdnData.Data Name)).any fun data => NdnData.name data = name

/-- The last packet of a name among those carried by commands. -/
def lastPushed [DecidableEq Name] (past : List (RepoCall × RepoAnswer Name)) (name : Name) :
    Option Bytes :=
  ((past.flatMap pushedBy).filter (isDataOf name)).getLast?

variable {past : List (RepoCall × RepoAnswer Name)} {entry : RepoCall × RepoAnswer Name}

omit [NdnData Name] in
theorem joined_concat {group : Name} : Joined (past ++ [entry]) group ↔
    Joins entry group ∨ (Joined past group ∧ ¬ Leaves entry group) := by
  constructor
  · rintro ⟨before, found, after, heq, hjoins, hlater⟩
    rcases List.eq_nil_or_concat after with rfl | ⟨after, last, rfl⟩
    · obtain ⟨-, hlast⟩ := List.append_inj' heq rfl
      obtain rfl : entry = found := (List.cons.inj hlast).1
      exact Or.inl hjoins
    · rw [List.concat_eq_append, ← List.cons_append, ← List.append_assoc] at heq
      obtain ⟨hpast, hlast⟩ := List.append_inj' heq rfl
      obtain rfl : entry = last := (List.cons.inj hlast).1
      rw [List.concat_eq_append, List.forall_mem_append] at hlater
      exact Or.inr ⟨⟨before, found, after, hpast, hjoins, hlater.1⟩, hlater.2 entry (by simp)⟩
  · rintro (hjoins | ⟨⟨before, found, after, rfl, hjoins, hlater⟩, hstays⟩)
    · exact ⟨past, entry, [], rfl, hjoins, by simp⟩
    · refine ⟨before, found, after ++ [entry], by simp, hjoins, ?_⟩
      rw [List.forall_mem_append]
      exact ⟨hlater, by simpa using hstays⟩

omit [NdnData Name] in
theorem asked_concat : asked (past ++ [entry]) =
    if isTake entry then [] else asked past ++ (askedName entry).toList := by
  unfold asked
  rw [List.reverse_append, List.reverse_singleton, List.singleton_append, List.takeWhile_cons]
  cases isTake entry with
  | true => rfl
  | false => cases h : askedName entry <;> simp [h]

theorem lastPushed_concat [DecidableEq Name] {name : Name} : lastPushed (past ++ [entry]) name =
    (((pushedBy entry).filter (isDataOf name)).getLast?).or (lastPushed past name) := by
  simp [lastPushed, List.flatMap_append, List.filter_append, List.getLast?_append]

end History

/-! ## The books -/

namespace Repo

variable {Name Store : Type} [NdnName Name] [NdnData Name] [NameTlv Name] [NdnTlv]
  [DataStore Name Store]

/-- Answer a call. -/
def call (repo : Repo Name Store) : RepoCall → RepoAnswer Name × Repo Name Store
  | .command value =>
      let (res, repo) := repo.handleCommand value
      (.reply res, repo)
  | .takePendingFetches =>
      let (names, repo) := repo.takePendingFetches
      (.names names, repo)

/-- A repo agrees with its history. -/
structure Books (store : Store) (past : List (RepoCall × RepoAnswer Name))
    (repo : Repo Name Store) : Prop where
  /-- The groups joined are those joined last. -/
  joined : ∀ group, group ∈ repo.groups ↔ Joined past group
  /-- The names queued are those asked for since the last were taken. -/
  asked : repo.pendingFetches = asked past
  /-- A packet is the last one carried by a command, or was there at the start. -/
  stored : ∀ name, repo.get name = (lastPushed past name).or (DataStore.get store name)

omit [NameTlv Name] [NdnTlv] in
/-- The packet of a name after some were stored. -/
theorem get_storeAll (name : Name) :
    ∀ (wires : List Bytes) (repo : Repo Name Store),
      (repo.storeAll wires).get name =
        ((wires.filter (isDataOf name)).getLast?).or (repo.get name) := by
  intro wires
  induction wires with
  | nil => exact fun repo => rfl
  | cons wire wires ih =>
      intro repo
      have hwire : (repo.storeData wire).2.get name =
          if isDataOf name wire then some wire else repo.get name := by
        rw [storeData, isDataOf]
        cases hdata : (NdnData.decode wire : Option (NdnData.Data Name)) with
        | none => simp
        | some data => simp [get, DataStore.get_insert, eq_comm]
      have hcons : repo.storeAll (wire :: wires) = (repo.storeData wire).2.storeAll wires := rfl
      rw [hcons, ih, hwire, List.filter_cons]
      split
      · rw [List.getLast?_cons]
        cases ((wires.filter (isDataOf name)).getLast?) <;> rfl
      · rfl

omit [NameTlv Name] [NdnTlv] in
/-- The packet of a name after a `BlobFetch`. -/
theorem get_handleBlobFetch (repo : Repo Name Store) (b : BlobFetch Name) (name : Name) :
    (repo.handleBlobFetch b).2.get name =
      ((b.data.filter (isDataOf name)).getLast?).or (repo.get name) := by
  rw [← get_storeAll, handleBlobFetch]
  cases b.name <;> rfl

variable {store : Store} {past : List (RepoCall × RepoAnswer Name)} {repo : Repo Name Store}

/-- A command that is no `BlobFetch` changes the groups at most. -/
theorem Books.regroup (h : Books store past repo) {value : Bytes} {res : RepoCmdRes}
    {groups : Std.ExtTreeSet Name}
    (hother : ∀ b : BlobFetch Name, RepoCmd.decode value ≠ some (.blobFetch b))
    (hgroups : ∀ group, group ∈ groups ↔ Joins (.command value, .reply res) group ∨
      (group ∈ repo.groups ∧ ¬ Leaves (.command value, .reply res) group)) :
    Books store (past ++ [(.command value, .reply res)]) { repo with groups := groups } := by
  refine ⟨fun group => ?_, ?_, fun name => ?_⟩
  · rw [joined_concat, ← h.joined]
    exact hgroups group
  · have hasked : askedName ((.command value, .reply res) : RepoCall × RepoAnswer Name) = none := by
      simp only [askedName]
    rw [asked_concat, hasked]
    simp [isTake, h.asked]
  · have hpushed : pushedBy ((.command value, .reply res) : RepoCall × RepoAnswer Name) = [] := by
      simp only [pushedBy, inlineWires]
    rw [lastPushed_concat, hpushed]
    exact h.stored name

/-- A `BlobFetch`. -/
theorem Books.fetch (h : Books store past repo) {value : Bytes} {b : BlobFetch Name}
    (hcmd : RepoCmd.decode value = some (.blobFetch b)) :
    Books store (past ++ [(.command value, .reply .ok)]) (repo.handleBlobFetch b).2 := by
  obtain ⟨-, hgroups, hpending⟩ := repo.handleBlobFetch_eq b
  refine ⟨fun group => ?_, ?_, fun name => ?_⟩
  · rw [joined_concat, hgroups, h.joined]
    simp [Joins, Leaves, granted, hcmd]
  · rw [asked_concat, hpending, h.asked]
    simp [isTake, askedName, hcmd]
  · have hpushed : pushedBy ((.command value, .reply .ok) : RepoCall × RepoAnswer Name) =
        b.data := by
      simp [pushedBy, inlineWires, hcmd]
    rw [get_handleBlobFetch, lastPushed_concat, hpushed, h.stored, Option.or_assoc]

/-- Every call keeps the books. -/
theorem Books.call (h : Books store past repo) (c : RepoCall) :
    Books store (past ++ [(c, (repo.call c).1)]) (repo.call c).2 := by
  cases c with
  | takePendingFetches =>
      refine ⟨fun group => ?_, ?_, fun name => ?_⟩
      · have hsame : (repo.call .takePendingFetches).2.groups = repo.groups := rfl
        rw [joined_concat, hsame, h.joined]
        simp [Joins, Leaves, granted]
      · rw [asked_concat]
        rfl
      · rw [lastPushed_concat]
        exact h.stored name
  | command value =>
      rcases repo.handleCommand_cases value with ⟨hstatus, hrepo, hother⟩ |
        ⟨j, group, hcmd, hgroup, heq⟩ | ⟨l, group, hcmd, hgroup, heq⟩ | ⟨b, hcmd, heq⟩
      · have hcall : repo.call (.command value) = (.reply (repo.handleCommand value).1, repo) :=
          Prod.ext rfl hrepo
        rw [hcall]
        exact h.regroup hother fun group => by simp [Joins, Leaves, granted, hstatus]
      · rw [Repo.call, heq]
        refine h.regroup (by simp [hcmd]) fun other => ?_
        simp [Joins, Leaves, granted, RepoCmdRes.ok, hcmd, hgroup, Std.ExtTreeSet.mem_insert]
      · rw [Repo.call, heq]
        refine h.regroup (by simp [hcmd]) fun other => ?_
        simp [Joins, Leaves, granted, RepoCmdRes.ok, hcmd, hgroup, and_comm]
      · rw [Repo.call, heq]
        have hres := (repo.handleBlobFetch_eq b).1
        have hfetch := h.fetch hcmd
        rw [← hres] at hfetch
        exact hfetch

/-- After every run of calls a repo agrees with its history.  Its groups are in name
order, a leave is granted exactly if the group is joined, and a refused command changes
nothing. -/
theorem keeps_books (store : Store) (validator : Option (NdnData.Data Name → Bool))
    (calls : List RepoCall) :
    let start : Repo Name Store := withOptionalValidator store validator
    let repo := Steps.run (fun r c => (r.call c).2) start calls
    let past := Steps.history Repo.call start calls
    (∀ value, (repo.handleCommand value).1.status ≠ 200 → (repo.handleCommand value).2 = repo) ∧
      repo.joinedGroups.Pairwise (· < ·) ∧
      (∀ group, group ∈ repo.joinedGroups ↔ Joined past group) ∧
      (∀ value (l : SyncLeave Name) group, RepoCmd.decode value = some (.syncLeave l) →
        l.group = some group →
          ((repo.handleCommand value).1.status = 200 ↔ group ∈ repo.joinedGroups)) ∧
      repo.takePendingFetches.1 = asked past ∧
      ∀ name, repo.get name = (lastPushed past name).or (DataStore.get store name) := by
  intro start repo past
  have hstart : Books store [] start :=
    ⟨fun group => by simp [start, withOptionalValidator, Joined], rfl, fun name => rfl⟩
  have hcall : ∀ (past : List (RepoCall × RepoAnswer Name)) (repo : Repo Name Store) c,
      Books store past repo → Books store (past ++ [(c, (repo.call c).1)]) (repo.call c).2 :=
    fun past repo c h => h.call c
  have hbooks : Books store past repo := Steps.history_invariant hcall calls hstart
  refine ⟨fun value hstatus => ?_, ?_, fun group => ?_, fun value l group hcmd hgroup => ?_,
    hbooks.asked, hbooks.stored⟩
  · rcases repo.handleCommand_cases value with ⟨-, hrepo, -⟩ | ⟨j, group, -, -, heq⟩ |
      ⟨l, group, -, -, heq⟩ | ⟨b, -, heq⟩
    · exact hrepo
    · exact absurd (by rw [heq]; rfl) hstatus
    · exact absurd (by rw [heq]; rfl) hstatus
    · exact absurd (by rw [heq, (repo.handleBlobFetch_eq b).1]; rfl) hstatus
  · exact Std.ExtTreeSet.ordered_toList.imp compare_lt_iff_lt.mp
  · rw [mem_joinedGroups, hbooks.joined]
  · rw [mem_joinedGroups]
    simp only [handleCommand, hcmd, handleSyncLeave, hgroup]
    split
    next hin => simp [RepoCmdRes.ok, hin]
    next hout => simp [RepoCmdRes.err, hout]

end Repo

end NdnRepo
