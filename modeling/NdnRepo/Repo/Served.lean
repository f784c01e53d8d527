import NdnRepo.Lib.Simulation
import NdnRepo.Repo.Service

/-!
# What a running repo sends

A service is given packets by commands that carry them and by ingestion.  What it sends is
an answer to the Interest it just received.  The answer to a command says what became of
it.  The answer to another Interest, under a group that runs, is a packet as it was given:
of the names the Interest asks for, the first one a packet was given under, and of the
packets given under that name, the last (`sent_iff`).

So a service with a gate, whose commands carry only packets that verify, sends only such
packets besides its answers to commands (`sent_verifies`).
-/

namespace NdnRepo

open Steps

/-! ## A store filled packet by packet -/

namespace FjallStore

variable {Name : Type} [NdnName Name]

/-- The store after some packets, one after another. -/
def fill (s : FjallStore Name) (given : List (Name × Bytes)) : FjallStore Name :=
  given.foldl (fun s packet => s.insert packet.1 packet.2) s

theorem fill_append (s : FjallStore Name) (given more : List (Name × Bytes)) :
    s.fill (given ++ more) = (s.fill given).fill more := List.foldl_append

/-- The last packet of a name stays. -/
theorem get_fill (name : Name) : ∀ (given : List (Name × Bytes)) (s : FjallStore Name),
    (s.fill given).get name = (given.reverse.lookup name).or (s.get name)
  | [], s => rfl
  | (other, wire) :: given, s => by
      have ih := get_fill name given (s.insert other wire)
      have hlast : List.lookup name [(other, wire)] = if name = other then some wire else none := by
        rw [List.lookup_cons]
        rcases eq_or_ne name other with rfl | hne
        · rw [if_pos rfl, beq_self_eq_true]
        · rw [if_neg hne, beq_false_of_ne hne]
          rfl
      have hcons : s.fill ((other, wire) :: given) = (s.insert other wire).fill given := rfl
      rw [hcons, ih, get_insert, List.reverse_cons, List.lookup_append, hlast, Option.or_assoc]
      split <;> rfl

/-- What is found under a name is the entry of the first name. -/
theorem findUnder_eq_some {s : FjallStore Name} {under : Name} {wire : Bytes} :
    s.findUnder under = some wire ↔
      ∃ name, hasPrefix name under = true ∧ s.get name = some wire ∧
        ∀ other, hasPrefix other under = true → (s.get other).isSome → name ≤ other := by
  rw [findUnder]
  constructor
  · intro h
    obtain ⟨⟨name, record⟩, hhead, rfl⟩ := Option.map_eq_some_iff.mp h
    obtain ⟨rest, hentries⟩ := List.head?_eq_some_iff.mp hhead
    obtain ⟨hget, hunder⟩ := mem_entriesUnder.mp (List.mem_of_mem_head? hhead)
    refine ⟨name, hunder, hget, fun other hother hsome => ?_⟩
    obtain ⟨record', hget'⟩ := Option.isSome_iff_exists.mp hsome
    have hmem := mem_entriesUnder.mpr ⟨hget', hother⟩
    have hsorted := s.sorted_entriesUnder under
    rw [hentries] at hmem hsorted
    rcases List.mem_cons.mp hmem with heq | hlater
    · exact le_of_eq (congrArg Prod.fst heq).symm
    · exact le_of_lt ((List.pairwise_cons.mp hsorted).1 _ hlater)
  · rintro ⟨name, hunder, hget, hfirst⟩
    have hmem := mem_entriesUnder.mpr ⟨hget, hunder⟩
    cases hentries : s.entriesUnder under with
    | nil =>
        rw [hentries] at hmem
        cases hmem
    | cons entry rest =>
        have hsorted := s.sorted_entriesUnder under
        obtain ⟨hget', hunder'⟩ := mem_entriesUnder.mp (hentries ▸ List.mem_cons_self ..)
        have hle := hfirst entry.1 hunder' (by rw [hget']; rfl)
        rw [hentries] at hmem hsorted
        rcases List.mem_cons.mp hmem with heq | hlater
        · rw [← heq]
          rfl
        · exact absurd ((List.pairwise_cons.mp hsorted).1 _ hlater) (not_lt.mpr hle)

end FjallStore

namespace Repo

variable {Name : Type} [NdnName Name] [NdnData Name]

/-- Data packets under their own names. -/
def named (wires : List Bytes) : List (Name × Bytes) :=
  wires.filterMap fun wire =>
    (NdnData.decode wire : Option (NdnData.Data Name)).map fun data => (NdnData.name data, wire)

/-- The packets a command carries are stored under their own names. -/
theorem store_storeAll : ∀ (wires : List Bytes) (repo : Repo Name (FjallStore Name)),
    (repo.storeAll wires).store = repo.store.fill (named wires)
  | [], _ => rfl
  | wire :: wires, repo => by
      have ih := store_storeAll wires (repo.storeData wire).2
      have hcons : repo.storeAll (wire :: wires) = (repo.storeData wire).2.storeAll wires := rfl
      rw [hcons, ih, storeData, named, named, List.filterMap_cons]
      cases (NdnData.decode wire : Option (NdnData.Data Name)) with
      | none => rfl
      | some data => rfl

end Repo

namespace RepoService

variable {Name : Type} [NdnName Name] [NdnData Name] [NameTlv Name] [NdnTlvWriter]
  [NdnInterest Name] [HashOrder Name]

/-! ## Interests -/

/-- The Interest a packet is. -/
def interestIn (Name : Type) [NdnInterest Name] (raw : Bytes) :
    Option (NdnInterest.Interest Name) :=
  if raw.head? = some 0x05 then NdnInterest.decode raw else none

/-- An Interest asks for a name: its own, or any one under it. -/
def Asks (interest : NdnInterest.Interest Name) (name : Name) : Prop :=
  if NdnInterest.canBePrefix interest then hasPrefix name (NdnInterest.name interest) = true
  else name = NdnInterest.name interest

variable {s : RepoService Name (FjallStore Name)} {raw : Bytes}
  {interest : NdnInterest.Interest Name}

/-- A command is answered. -/
theorem dispatch_command {ap : Bytes} (h : interestIn Name raw = some interest)
    (hap : s.commandOf interest = some ap) :
    s.dispatch raw = s.handleCommandInterest interest ap := by
  rw [interestIn] at h
  split at h
  next hhead => simp only [dispatch, hhead, h, hap]
  next => cases h

/-- Another Interest is answered from the store, if it is under a group, or routed. -/
theorem dispatch_interest (h : interestIn Name raw = some interest)
    (hap : s.commandOf interest = none) :
    s.dispatch raw =
      (if s.inAnyGroup (NdnInterest.name interest) then
        match s.serveFromStore interest with
        | some wire => [.send wire]
        | none => s.routeToGroup (NdnInterest.name interest) raw
      else [], s) := by
  rw [interestIn] at h
  split at h
  next hhead =>
    simp only [dispatch, hhead, h, hap]
    split
    next => cases s.serveFromStore interest <;> rfl
    next => rfl
  next => cases h

omit [NameTlv Name] [NdnTlvWriter] [NdnInterest Name] in
theorem send_notMem_routeToGroup (name : Name) (raw wire : Bytes) :
    .send wire ∉ s.routeToGroup name raw := by
  rw [routeToGroup]
  cases s.groupOf name with
  | none => exact List.not_mem_nil
  | some group => simp

/-- Other packets are handed to a group or dropped. -/
theorem dispatch_other (h : interestIn Name raw = none) :
    (s.dispatch raw).2 = s ∧ ∀ wire, .send wire ∉ (s.dispatch raw).1 := by
  rw [interestIn] at h
  rw [dispatch]
  split
  next hhead =>
    rw [if_pos hhead] at h
    rw [h]
    exact ⟨rfl, fun wire => List.not_mem_nil⟩
  next =>
    split
    · exact ⟨rfl, send_notMem_routeToGroup _ raw⟩
    · exact ⟨rfl, fun wire => List.not_mem_nil⟩
  next => exact ⟨rfl, fun wire => List.not_mem_nil⟩

/-! ## What never changes -/

/-- Two services have the same prefix, configuration and gate. -/
structure Alike (s t : RepoService Name (FjallStore Name)) : Prop where
  /-- The prefix of commands. -/
  repoPrefix : t.repoPrefix = s.repoPrefix
  /-- The configuration. -/
  config : t.config = s.config
  /-- The gate. -/
  validator : t.repo.validator = s.repo.validator

omit [NameTlv Name] [NdnTlvWriter] [NdnInterest Name] [HashOrder Name] in
theorem Alike.trans {s t u : RepoService Name (FjallStore Name)} (h : s.Alike t) (h' : t.Alike u) :
    s.Alike u :=
  ⟨h'.repoPrefix.trans h.repoPrefix, h'.config.trans h.config, h'.validator.trans h.validator⟩

omit [NameTlv Name] [NdnTlvWriter] [NdnInterest Name] [HashOrder Name] in
theorem alike_startGroup (group : Name) :
    s.Alike (s.startGroup group).2 ∧ (s.startGroup group).2.repo.store = s.repo.store := by
  rw [startGroup]
  split <;> exact ⟨⟨rfl, rfl, rfl⟩, rfl⟩

omit [NameTlv Name] [NdnTlvWriter] [NdnInterest Name] [HashOrder Name] in
theorem alike_stopGroup (group : Name) :
    s.Alike (s.stopGroup group).2 ∧ (s.stopGroup group).2.repo.store = s.repo.store := by
  rw [stopGroup]
  split <;> exact ⟨⟨rfl, rfl, rfl⟩, rfl⟩

omit [NameTlv Name] [NdnTlvWriter] [NdnInterest Name] in
theorem alike_follow (cmd : Option (RepoCmd Name)) :
    s.Alike (s.follow cmd).2 ∧ (s.follow cmd).2.repo.store = s.repo.store := by
  have hsame : s.Alike s ∧ s.repo.store = s.repo.store := ⟨⟨rfl, rfl, rfl⟩, rfl⟩
  cases cmd with
  | none => exact hsame
  | some cmd =>
      cases cmd with
      | syncJoin j =>
          rw [follow]
          cases j.group with
          | none => exact hsame
          | some group => exact alike_startGroup group
      | syncLeave l =>
          rw [follow]
          cases l.group with
          | none => exact hsame
          | some group => exact alike_stopGroup group
      | blobFetch b => exact ⟨⟨rfl, rfl, rfl⟩, rfl⟩

/-- A command stores the packets it carries. -/
theorem alike_handleCommandInterest (interest : NdnInterest.Interest Name) (ap : Bytes) :
    s.Alike (s.handleCommandInterest interest ap).2 ∧
      (s.handleCommandInterest interest ap).2.repo.store =
        s.repo.store.fill (Repo.named (inlineWires Name ap)) := by
  obtain ⟨hstore, hvalidator⟩ := s.repo.handleCommand_store ap
  rw [Repo.store_storeAll] at hstore
  have hafter : s.Alike { s with repo := (s.repo.handleCommand ap).2 } := ⟨rfl, rfl, hvalidator⟩
  rw [handleCommandInterest]
  simp only
  split
  next =>
    obtain ⟨halike, hsame⟩ := alike_follow
      (s := { s with repo := (s.repo.handleCommand ap).2 }) (RepoCmd.decode ap)
    exact ⟨hafter.trans halike, hsame.trans hstore⟩
  next => exact ⟨hafter, hstore⟩

/-- The packets an event gives to a service, under their names. -/
def givenBy (s : RepoService Name (FjallStore Name)) : ServiceEvent Name → List (Name × Bytes)
  | .received raw =>
      match (interestIn Name raw).bind s.commandOf with
      | some ap => Repo.named (inlineWires Name ap)
      | none => []
  | .control _ => []
  | .ingested name wire => if s.repo.ingestValidator.all (· wire) then [(name, wire)] else []

/-- After an event the store has what it was given, and the rest is as it was. -/
theorem alike_next (event : ServiceEvent Name) :
    s.Alike (s.next event) ∧ (s.next event).repo.store = s.repo.store.fill (s.givenBy event) := by
  cases event with
  | received raw =>
      rw [next, step, givenBy]
      cases hinterest : interestIn Name raw with
      | none =>
          rw [(dispatch_other hinterest).1]
          exact ⟨⟨rfl, rfl, rfl⟩, rfl⟩
      | some interest =>
          rw [Option.bind_some]
          cases hap : s.commandOf interest with
          | none =>
              rw [dispatch_interest hinterest hap]
              exact ⟨⟨rfl, rfl, rfl⟩, rfl⟩
          | some ap =>
              rw [dispatch_command hinterest hap]
              exact alike_handleCommandInterest interest ap
  | control ctl =>
      cases ctl with
      | join group => exact alike_startGroup group
      | leave group => exact alike_stopGroup group
  | ingested name wire =>
      rw [next, step, givenBy, Repo.ingest]
      split <;> exact ⟨⟨rfl, rfl, rfl⟩, rfl⟩

omit [HashOrder Name] in
theorem Alike.commandOf {s t : RepoService Name (FjallStore Name)} (h : s.Alike t) :
    t.commandOf = s.commandOf := by
  funext interest
  rw [RepoService.commandOf, RepoService.commandOf, h.repoPrefix]

omit [HashOrder Name] in
/-- Services that are alike are given the same. -/
theorem Alike.givenBy {s t : RepoService Name (FjallStore Name)} (h : s.Alike t) :
    t.givenBy = s.givenBy := by
  have hgate : t.repo.ingestValidator = s.repo.ingestValidator := by
    rw [Repo.ingestValidator, Repo.ingestValidator, h.validator]
  funext event
  cases event with
  | received raw => rw [RepoService.givenBy, RepoService.givenBy, h.commandOf]
  | control ctl => rfl
  | ingested name wire => rw [RepoService.givenBy, RepoService.givenBy, hgate]

/-- The packets some events give to a service. -/
def given (s : RepoService Name (FjallStore Name)) (events : List (ServiceEvent Name)) :
    List (Name × Bytes) := events.flatMap s.givenBy

/-- After a run the store has what it was given. -/
theorem alike_run : ∀ (events : List (ServiceEvent Name)) (s : RepoService Name (FjallStore Name)),
    s.Alike (run next s events) ∧ (run next s events).repo.store = s.repo.store.fill (s.given events)
  | [], s => ⟨⟨rfl, rfl, rfl⟩, rfl⟩
  | event :: events, s => by
      obtain ⟨halike, hstore⟩ := s.alike_next event
      obtain ⟨hrest, hend⟩ := alike_run events (s.next event)
      refine ⟨halike.trans hrest, ?_⟩
      have hgiven : (s.next event).given events = s.given events := by
        rw [given, halike.givenBy, given]
      rw [run_cons, hend, hstore, hgiven, ← FjallStore.fill_append]
      rfl

/-! ## What is sent -/

/-- The packet last given under a name by some events, or else there before them. -/
def lastGiven (s : RepoService Name (FjallStore Name)) (events : List (ServiceEvent Name))
    (name : Name) : Option Bytes :=
  ((s.given events).reverse.lookup name).or (s.repo.store.get name)

/-- The packet last given under the first of the names an Interest asks for that one was
given under. -/
def Answers (s : RepoService Name (FjallStore Name)) (events : List (ServiceEvent Name))
    (interest : NdnInterest.Interest Name) (wire : Bytes) : Prop :=
  ∃ name, Asks interest name ∧ s.lastGiven events name = some wire ∧
    ∀ other, Asks interest other → (s.lastGiven events other).isSome → name ≤ other

theorem get_run (s : RepoService Name (FjallStore Name)) (events : List (ServiceEvent Name))
    (name : Name) : (run next s events).repo.store.get name = s.lastGiven events name := by
  rw [(alike_run events s).2, FjallStore.get_fill]
  rfl

theorem serveFromStore_run (events : List (ServiceEvent Name))
    (interest : NdnInterest.Interest Name) (wire : Bytes) :
    (run next s events).serveFromStore interest = some wire ↔ s.Answers events interest wire := by
  have hget := fun name => get_run s events name
  simp only [Answers, ← hget, Asks]
  rw [serveFromStore]
  split
  next => exact FjallStore.findUnder_eq_some
  next =>
    constructor
    · intro h
      exact ⟨_, rfl, h, fun other hother _ => le_of_eq hother.symm⟩
    · rintro ⟨name, rfl, h, -⟩
      exact h

omit [NameTlv Name] [NdnTlvWriter] [NdnInterest Name] [HashOrder Name] in
theorem send_notMem_startGroup (group : Name) (wire : Bytes) :
    .send wire ∉ (s.startGroup group).1 := by
  rw [startGroup]
  split
  next => exact List.not_mem_nil
  next =>
    rw [emitRegister]
    split <;> simp

omit [NameTlv Name] [NdnTlvWriter] [NdnInterest Name] [HashOrder Name] in
theorem send_notMem_stopGroup (group : Name) (wire : Bytes) :
    .send wire ∉ (s.stopGroup group).1 := by
  rw [stopGroup]
  split <;> simp

omit [NameTlv Name] [NdnTlvWriter] [NdnInterest Name] in
/-- What a command asks of the service sends nothing. -/
theorem send_notMem_follow (cmd : Option (RepoCmd Name)) (wire : Bytes) :
    .send wire ∉ (s.follow cmd).1 := by
  cases cmd with
  | none => exact List.not_mem_nil
  | some cmd =>
      cases cmd with
      | syncJoin j =>
          rw [follow]
          cases j.group with
          | none => exact List.not_mem_nil
          | some group => exact send_notMem_startGroup group wire
      | syncLeave l =>
          rw [follow]
          cases l.group with
          | none => exact List.not_mem_nil
          | some group => exact send_notMem_stopGroup group wire
      | blobFetch b =>
          rw [follow, drivePendingFetches]
          intro h
          obtain ⟨name, -, hname⟩ := List.mem_filterMap.mp h
          obtain ⟨group, -, heq⟩ := Option.map_eq_some_iff.mp hname
          cases heq

/-- A command has one answer sent. -/
theorem send_mem_handleCommandInterest (interest : NdnInterest.Interest Name) (ap wire : Bytes) :
    .send wire ∈ (s.handleCommandInterest interest ap).1 ↔
      wire = NdnInterest.signFresh (NdnInterest.name interest)
        (s.repo.handleCommand ap).1.encode s.config.responseFreshness := by
  have hfollow := send_notMem_follow
    (s := { s with repo := (s.repo.handleCommand ap).2 }) (RepoCmd.decode ap) wire
  rw [handleCommandInterest]
  simp only [List.mem_append, List.mem_singleton, ServiceEffect.send.injEq]
  split
  next =>
    rw [(alike_follow _).1.config]
    exact or_iff_right hfollow
  next => exact or_iff_right List.not_mem_nil

/-- Another Interest has the packet sent that serves it, if it is under a group. -/
theorem send_mem_dispatch (h : interestIn Name raw = some interest)
    (hap : s.commandOf interest = none) (wire : Bytes) :
    .send wire ∈ (s.dispatch raw).1 ↔
      (∃ group ∈ s.groups, hasPrefix (NdnInterest.name interest) group = true) ∧
        s.serveFromStore interest = some wire := by
  have hgroup : s.inAnyGroup (NdnInterest.name interest) = true ↔
      ∃ group ∈ s.groups, hasPrefix (NdnInterest.name interest) group = true := by
    rw [inAnyGroup, List.any_eq_true]
    exact Iff.rfl
  rw [dispatch_interest h hap, ← hgroup]
  split
  next hin =>
    rw [hin]
    cases s.serveFromStore interest with
    | none => exact iff_of_false (send_notMem_routeToGroup _ _ _) (by simp)
    | some found => simp [eq_comm]
  next hout => simp [hout]

/-- The Interest in some octets, if it is served, has the packet sent. -/
theorem send_of_served (h : interestIn Name raw = some interest) (wire : Bytes)
    (hap : (interestIn Name raw).bind s.commandOf = none)
    (hunder : (interestIn Name raw).all fun interest => s.inAnyGroup (NdnInterest.name interest))
    (hserved : (interestIn Name raw).bind s.serveFromStore = some wire) :
    s.commandOf interest = none ∧ .send wire ∈ (s.step (.received raw)).1 := by
  rw [h] at hap hunder hserved
  obtain ⟨group, hgroup, hcovers⟩ := List.any_eq_true.mp hunder
  exact ⟨hap, (send_mem_dispatch h hap wire).mpr
    ⟨⟨group, AList.mem_keys.mp hgroup, hcovers⟩, hserved⟩⟩

/-- What is sent in a turn: the answer to a command, or the packet that serves another
Interest under a group. -/
theorem send_mem_step (event : ServiceEvent Name) (wire : Bytes) :
    .send wire ∈ (s.step event).1 ↔
      ∃ raw interest, event = .received raw ∧ interestIn Name raw = some interest ∧
        ((∃ ap, s.commandOf interest = some ap ∧
            wire = NdnInterest.signFresh (NdnInterest.name interest)
              (s.repo.handleCommand ap).1.encode s.config.responseFreshness) ∨
          s.commandOf interest = none ∧
            (∃ group ∈ s.groups, hasPrefix (NdnInterest.name interest) group = true) ∧
            s.serveFromStore interest = some wire) := by
  cases event with
  | received raw =>
      rw [step]
      cases hinterest : interestIn Name raw with
      | none => exact iff_of_false ((dispatch_other hinterest).2 wire) (by simp [hinterest])
      | some interest =>
          have hiff : .send wire ∈ (s.dispatch raw).1 ↔
              ((∃ ap, s.commandOf interest = some ap ∧
                  wire = NdnInterest.signFresh (NdnInterest.name interest)
                    (s.repo.handleCommand ap).1.encode s.config.responseFreshness) ∨
                s.commandOf interest = none ∧
                  (∃ group ∈ s.groups, hasPrefix (NdnInterest.name interest) group = true) ∧
                  s.serveFromStore interest = some wire) := by
            cases hap : s.commandOf interest with
            | none => simp [send_mem_dispatch hinterest hap]
            | some ap => simp [dispatch_command hinterest hap, send_mem_handleCommandInterest]
          rw [hiff]
          constructor
          · exact fun h => ⟨raw, interest, rfl, hinterest, h⟩
          · rintro ⟨_, _, heq, hinterest', h⟩
            cases heq
            cases hinterest.symm.trans hinterest'
            exact h
  | control ctl =>
      cases ctl with
      | join group => exact iff_of_false (send_notMem_startGroup group wire) (by simp)
      | leave group => exact iff_of_false (send_notMem_stopGroup group wire) (by simp)
  | ingested name found => exact iff_of_false List.not_mem_nil (by simp)

omit [HashOrder Name] in
/-- What was last given was there from the start or was given by an event. -/
theorem lastGiven_eq_some {events : List (ServiceEvent Name)} {name : Name} {wire : Bytes}
    (h : s.lastGiven events name = some wire) :
    s.repo.store.get name = some wire ∨ ∃ event ∈ events, (name, wire) ∈ s.givenBy event := by
  rw [lastGiven, Option.or_eq_some_iff] at h
  rcases h with hgiven | ⟨-, hold⟩
  · obtain ⟨later, earlier, heq, -⟩ := List.lookup_eq_some_iff.mp hgiven
    have hmem : (name, wire) ∈ (s.given events).reverse := by simp [heq]
    exact Or.inr (List.mem_flatMap.mp (List.mem_reverse.mp hmem))
  · exact Or.inl hold

/-- A service with a gate, whose packets verify at first.  If those that commands carry do,
then every packet it sends that answers no command does. -/
theorem sent_verifies (s : RepoService Name (FjallStore Name)) {validator : NdnData.Data Name → Bool}
    (hgate : s.repo.validator = some validator)
    (hstore : ∀ name wire, s.repo.store.get name = some wire → Repo.verifies validator wire = true)
    {events : List (ServiceEvent Name)}
    (hpushed : ∀ raw, .received raw ∈ events → ∀ packet ∈ s.givenBy (.received raw),
      Repo.verifies validator packet.2 = true) :
    ∀ before raw rest interest, events = before ++ .received raw :: rest →
      interestIn Name raw = some interest → s.commandOf interest = none →
        ∀ wire, .send wire ∈ ((run next s before).step (.received raw)).1 →
          Repo.verifies validator wire = true := by
  intro before raw rest interest hevents hinterest hap wire hsent
  have hap' := (alike_run before s).1.commandOf ▸ hap
  obtain ⟨-, hserved⟩ := (send_mem_dispatch hinterest hap' wire).mp hsent
  obtain ⟨name, -, hlast, -⟩ := (serveFromStore_run before interest wire).mp hserved
  rcases lastGiven_eq_some hlast with hold | ⟨giving, hgiving, hgiven⟩
  · exact hstore name wire hold
  · have hin : giving ∈ events := hevents ▸ List.mem_append_left _ hgiving
    cases giving with
    | received pushed => exact hpushed pushed hin _ hgiven
    | control ctl => cases hgiven
    | ingested name' wire' =>
        rw [givenBy, Repo.ingestValidator, hgate] at hgiven
        split at hgiven
        next hverifies =>
          cases List.mem_singleton.mp hgiven
          exact hverifies
        next => cases hgiven

end RepoService

/-- An empty repo with a gate. -/
def guardedRepo [NdnTlv] [Sha2] : Repo Components (FjallStore Components) :=
  Repo.withValidator .empty Repo.wantsSigner

/-- It runs and ingests group `/b`. -/
def guardedService [NdnTlv] [Sha2] : RepoService Components (FjallStore Components) :=
  (RepoService.new guardedRepo [[8, 1, 114]]
    ⟨ascii "repo", 1000, [[[8, 1, 98]]], ⟨true, false⟩, false⟩ false).start.2

/-- A signed packet and one that is not. -/
def ingestedPair : List (ServiceEvent Components) :=
  [.ingested [[8, 1, 98]] (Repo.blockData [27, 1, 5] [0]), .ingested [[8, 1, 98]] Repo.digestOnly]

/-- An Interest for their name. -/
def pairInterest : Bytes := Tlv.write 5 (nameBlock [[8, 1, 98]])

/-- Another signed packet of their name is pushed after them. -/
def pushedLast : List (ServiceEvent Components) :=
  ingestedPair ++ [.received (commandInterest (Repo.pushCommand (Repo.blockData [27, 1, 5] [1])))]

/-- Of two packets ingested only the signed one is kept, until the pushed one takes its place.
That is sent. -/
theorem RepoService.sent_verifies_guardedService :
    letI := shortSha2
    letI := blockTlvWriter
    let pushed := Repo.blockData [27, 1, 5] [1]
    .send pushed ∈ ((run RepoService.next guardedService pushedLast).step
        (.received pairInterest)).1 ∧
      @Repo.verifies Components _ Repo.wantsSigner pushed = true := by
  let _ := shortSha2
  let _ := blockTlvWriter
  have hsome : (RepoService.interestIn Components pairInterest).isSome = true := by decide +kernel
  obtain ⟨interest, hinterest⟩ := Option.isSome_iff_exists.mp hsome
  obtain ⟨hlater, hsent⟩ := RepoService.send_of_served hinterest
    (s := run RepoService.next guardedService pushedLast)
    (Repo.blockData [27, 1, 5] [1]) (by decide +kernel) (by decide +kernel) (by decide +kernel)
  have hcommand : guardedService.commandOf interest = none :=
    (RepoService.alike_run pushedLast guardedService).1.commandOf ▸ hlater
  have hstore : ∀ name wire, guardedService.repo.store.get name = some wire →
      @Repo.verifies Components _ Repo.wantsSigner wire = true := by
    intro name wire h
    have hrepo : guardedService.repo = guardedRepo := (RepoService.start_eq _).1
    rw [hrepo] at h
    cases (FjallStore.get_empty name).symm.trans h
  have hpushed : ∀ raw, .received raw ∈ pushedLast ++ [.received pairInterest] →
      ∀ packet ∈ guardedService.givenBy (.received raw),
        @Repo.verifies Components _ Repo.wantsSigner packet.2 = true := by
    intro raw hraw packet hpacket
    have hgiven : guardedService.givenBy (.received (commandInterest
        (Repo.pushCommand (Repo.blockData [27, 1, 5] [1])))) =
          [([[8, 1, 98]], Repo.blockData [27, 1, 5] [1])] := by decide +kernel
    have hnone : guardedService.givenBy (.received pairInterest) = [] := by decide +kernel
    simp only [pushedLast, ingestedPair, List.cons_append, List.nil_append, List.mem_cons,
      reduceCtorEq, ServiceEvent.received.injEq, List.not_mem_nil, or_false, false_or] at hraw
    rcases hraw with rfl | rfl
    · rw [hgiven, List.mem_singleton] at hpacket
      rw [hpacket]
      decide +kernel
    · rw [hnone] at hpacket
      cases hpacket
  exact ⟨hsent, RepoService.sent_verifies guardedService rfl hstore hpushed pushedLast
    pairInterest [] interest rfl hinterest hcommand _ hsent⟩

end NdnRepo
