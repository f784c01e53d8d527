import NdnRepo.Lib.Options
import NdnRepo.Held.Open
import NdnRepo.Repo.Service

/-!
# The daemon

`ndn-repo` is a repository, or with `hold` first a holder of what others publish.  Each reads
its command line from left to right.  Of an option given twice the last value counts, but
groups and namespaces to hold for add up.

A holder in the namespace it holds for can read what it keeps.  So it touches its store or the
forwarder only where the command line names the namespaces to hold for, and its own is not one
of them unless `--in-namespace` accepts that.  It holds for exactly the namespaces named, once
its store is open and the forwarder connected (`starts_iff`).

A repository joins exactly the groups named when it starts (`joins_iff`).
-/

namespace NdnRepo

open Options

/-- What is used of `ndn_app`, of `Name::from_str` and of `{:?}` of texts. -/
class NdnApp (Name : Type) where
  /-- `DEFAULT_FACE_SOCKET`. -/
  defaultFaceSocket : String
  /-- The name a text is, or why it is none. -/
  parseName : String → Except String Name
  /-- A text between quotes, escaped. -/
  debugText : String → String

/-- How reading a command line ends. -/
inductive ArgsOutcome (Args : Type) where
  /-- It is read. -/
  | args (args : Args)
  /-- Usage is printed, and the program exits with success. -/
  | help
  /-- The program fails. -/
  | fails (text : String)

/-- What becomes of a command line that was read, or was not. -/
def ArgsOutcome.of {Args σ : Type} (unknown missing : String → String)
    (finish : σ → ArgsOutcome Args) : Except (Stop String) σ → ArgsOutcome Args
  | .error .help => .help
  | .error (.unknown arg) => .fails (unknown arg)
  | .error (.missing arg) => .fails (missing arg)
  | .error (.refused why) => .fails why
  | .ok s => finish s

/-- A command line is read exactly if it is a sequence of options that make sense together. -/
theorem ArgsOutcome.of_eq_args {Args α σ : Type} {unknown missing : String → String}
    {finish : σ → ArgsOutcome Args} {known : String → Option (Meaning α String)}
    {apply : σ → α → σ} {start : σ} {args : List String} {a : Args} :
    of unknown missing finish (parse known apply args start) = .args a ↔
      ∃ items, Items known args items ∧ finish (items.foldl apply start) = .args a := by
  constructor
  · intro h
    cases hparse : parse known apply args start with
    | error stop => rw [hparse] at h; cases stop <;> cases h
    | ok s =>
        rw [hparse] at h
        obtain ⟨items, hitems, rfl⟩ := parse_eq_ok.mp hparse
        exact ⟨items, hitems, h⟩
  · rintro ⟨items, hitems, h⟩
    rw [parse_eq_ok.mpr ⟨items, hitems, rfl⟩]
    exact h

/-! ## The command line of a repository -/

/-- What the command line of a repository says. -/
structure RepoArgs (Name : Type) where
  /-- The forwarder's socket. -/
  socket : String
  /-- The prefix of commands. -/
  commandPrefix : Name
  /-- The directory of the store. -/
  storeDir : String
  /-- The groups to join at startup. -/
  groups : List Name

/-- An option of a repository. -/
inductive RepoOption (Name : Type) where
  | socket (value : String)
  | commandPrefix (value : String)
  | store (value : String)
  | group (name : Name)

namespace RepoOption

variable {Name : Type}

/-- The socket it gives. -/
def socket? : RepoOption Name → Option String
  | .socket v => some v
  | _ => none

/-- The prefix it gives. -/
def commandPrefix? : RepoOption Name → Option String
  | .commandPrefix v => some v
  | _ => none

/-- The directory it gives. -/
def store? : RepoOption Name → Option String
  | .store v => some v
  | _ => none

/-- The group it gives. -/
def group? : RepoOption Name → Option Name
  | .group name => some name
  | _ => none

end RepoOption

namespace RepoArgs

variable {Name : Type} [NdnApp Name]

/-- What was read so far. -/
structure SoFar (Name : Type) where
  /-- The socket. -/
  socket : String
  /-- The prefix, not parsed yet. -/
  commandPrefix : String
  /-- The directory. -/
  storeDir : String
  /-- The groups. -/
  groups : List Name

/-- The options of a repository. -/
def known : String → Option (Meaning (RepoOption Name) String)
  | "--socket" => some (.value fun v => .ok (.socket v))
  | "--prefix" => some (.value fun v => .ok (.commandPrefix v))
  | "--store" => some (.value fun v => .ok (.store v))
  | "--group" => some (.value fun g =>
      match (NdnApp.parseName g : Except String Name) with
      | .ok name => .ok (.group name)
      | .error _ => .error s!"bad group name: {g}")
  | "-h" => some .help
  | "--help" => some .help
  | _ => none

omit [NdnApp Name] in
/-- What an option sets. -/
def apply (s : SoFar Name) : RepoOption Name → SoFar Name
  | .socket v => { s with socket := v }
  | .commandPrefix v => { s with commandPrefix := v }
  | .store v => { s with storeDir := v }
  | .group name => { s with groups := s.groups ++ [name] }

/-- Nothing read yet: the defaults. -/
def start : SoFar Name := ⟨NdnApp.defaultFaceSocket Name, "/repo", "./repo-data", []⟩

/-- The prefix must be a name. -/
def finish (s : SoFar Name) : ArgsOutcome (RepoArgs Name) :=
  match (NdnApp.parseName s.commandPrefix : Except String Name) with
  | .ok name => .args ⟨s.socket, name, s.storeDir, s.groups⟩
  | .error _ => .fails s!"bad prefix: {s.commandPrefix}"

/-- Read the command line of a repository. -/
def parseArgs (args : List String) : ArgsOutcome (RepoArgs Name) :=
  .of (fun arg => s!"unknown argument: {arg}") (fun arg => s!"{arg} needs a value") finish
    (parse known apply args start)

/-- What options say. -/
structure Reads (items : List (RepoOption Name)) (a : RepoArgs Name) : Prop where
  /-- The last socket, or the default. -/
  socket : a.socket =
    (items.filterMap RepoOption.socket?).getLast?.getD (NdnApp.defaultFaceSocket Name)
  /-- The last prefix, or the default. -/
  commandPrefix : NdnApp.parseName
    ((items.filterMap RepoOption.commandPrefix?).getLast?.getD "/repo") = .ok a.commandPrefix
  /-- The last directory, or the default. -/
  storeDir : a.storeDir = (items.filterMap RepoOption.store?).getLast?.getD "./repo-data"
  /-- All groups. -/
  groups : a.groups = items.filterMap RepoOption.group?

omit [NdnApp Name] in
/-- What options set. -/
theorem foldl_apply (items : List (RepoOption Name)) (s : SoFar Name) : items.foldl apply s =
    ⟨(items.filterMap RepoOption.socket?).getLast?.getD s.socket,
      (items.filterMap RepoOption.commandPrefix?).getLast?.getD s.commandPrefix,
      (items.filterMap RepoOption.store?).getLast?.getD s.storeDir,
      s.groups ++ items.filterMap RepoOption.group?⟩ := by
  rw [← foldl_last apply SoFar.socket (by intro s item; cases item <;> rfl),
    ← foldl_last apply SoFar.commandPrefix
      (by intro s item; cases item <;> rfl),
    ← foldl_last apply SoFar.storeDir (by intro s item; cases item <;> rfl),
    ← foldl_all apply SoFar.groups
      (by intro s item; cases item <;> simp [apply, RepoOption.group?])]

theorem finish_eq_args {s : SoFar Name} {a : RepoArgs Name} :
    finish s = .args a ↔ NdnApp.parseName s.commandPrefix = .ok a.commandPrefix ∧
      a.socket = s.socket ∧ a.storeDir = s.storeDir ∧ a.groups = s.groups := by
  rw [finish]
  cases hname : (NdnApp.parseName s.commandPrefix : Except String Name) with
  | error e => exact ⟨nofun, fun h => nomatch h.1⟩
  | ok name =>
      constructor
      · rintro ⟨⟩
        exact ⟨rfl, rfl, rfl, rfl⟩
      · rintro ⟨⟨⟩, hsocket, hstore, hgroups⟩
        rw [← hsocket, ← hstore, ← hgroups]

/-- A command line is read exactly if it is a sequence of options and the prefix is a name. -/
theorem parseArgs_eq_args {args : List String} {a : RepoArgs Name} :
    parseArgs args = .args a ↔ ∃ items, Items known args items ∧ Reads items a := by
  have hfinish : ∀ items : List (RepoOption Name),
      finish (items.foldl apply start) = .args a ↔ Reads items a := by
    intro items
    rw [finish_eq_args, foldl_apply]
    constructor
    · rintro ⟨hcommand, hsocket, hstore, hgroups⟩
      exact ⟨hsocket, hcommand, hstore, hgroups⟩
    · rintro ⟨hsocket, hcommand, hstore, hgroups⟩
      exact ⟨hcommand, hsocket, hstore, hgroups⟩
  rw [parseArgs, ArgsOutcome.of_eq_args]
  exact exists_congr fun items => and_congr_right fun _ => hfinish items

end RepoArgs

/-! ## The command line of a holder -/

/-- How a holder is called. -/
def holdUsage : String :=
  "ndn-repo hold --device <D> --pib <dir> --socket <fwd.sock> --store <dir> " ++
    "--hold-for <ns>... [--in-namespace] [--erasure <k>/<n>] [--sync-interval-ms <N>]"

/-- What the command line of a holder says. -/
structure HoldArgs (Name : Type) where
  /-- The device. -/
  device : Name
  /-- The directory of its keys. -/
  pib : String
  /-- The forwarder's socket. -/
  socket : String
  /-- The directory of the store. -/
  store : String
  /-- The namespaces to hold for. -/
  holdFor : List Name
  /-- Whether to hold for the device's own namespace is accepted. -/
  inNamespace : Bool
  /-- How held packets are coded. -/
  erasure : Erasure
  /-- The interval between synchronisations, in milliseconds, unless the default. -/
  syncInterval : Option ℕ

/-- An option of a holder. -/
inductive HoldOption (Name : Type) where
  | device (name : Name)
  | pib (value : String)
  | socket (value : String)
  | store (value : String)
  | holdFor (name : Name)
  | inNamespace
  | erasure (e : Erasure)
  | syncInterval (ms : ℕ)

namespace HoldOption

variable {Name : Type}

/-- The device it gives. -/
def device? : HoldOption Name → Option Name
  | .device name => some name
  | _ => none

/-- The directory of keys it gives. -/
def pib? : HoldOption Name → Option String
  | .pib v => some v
  | _ => none

/-- The socket it gives. -/
def socket? : HoldOption Name → Option String
  | .socket v => some v
  | _ => none

/-- The directory of the store it gives. -/
def store? : HoldOption Name → Option String
  | .store v => some v
  | _ => none

/-- The namespace to hold for it gives. -/
def holdFor? : HoldOption Name → Option Name
  | .holdFor name => some name
  | _ => none

/-- Whether it accepts to hold for the own namespace. -/
def inNamespace? : HoldOption Name → Option Bool
  | .inNamespace => some true
  | _ => none

/-- The coding it gives. -/
def erasure? : HoldOption Name → Option Erasure
  | .erasure e => some e
  | _ => none

/-- The interval it gives. -/
def syncInterval? : HoldOption Name → Option ℕ
  | .syncInterval ms => some ms
  | _ => none

end HoldOption

namespace HoldArgs

variable {Name : Type}

/-- What was read so far. -/
structure SoFar (Name : Type) where
  /-- The device. -/
  device : Option Name
  /-- The directory of its keys. -/
  pib : Option String
  /-- The socket. -/
  socket : String
  /-- The directory of the store. -/
  store : Option String
  /-- The namespaces. -/
  holdFor : List Name
  /-- Whether the own one is accepted. -/
  inNamespace : Bool
  /-- How held packets are coded. -/
  erasure : Erasure
  /-- The interval. -/
  syncInterval : Option ℕ

/-- What an option sets. -/
def apply (s : SoFar Name) : HoldOption Name → SoFar Name
  | .device name => { s with device := some name }
  | .pib v => { s with pib := some v }
  | .socket v => { s with socket := v }
  | .store v => { s with store := some v }
  | .holdFor name => { s with holdFor := s.holdFor ++ [name] }
  | .inNamespace => { s with inNamespace := true }
  | .erasure e => { s with erasure := e }
  | .syncInterval ms => { s with syncInterval := some ms }

variable [NdnApp Name]

/-- The value of an option that is a name. -/
def readName (option : String) (item : Name → HoldOption Name) (v : String) :
    Except String (HoldOption Name) :=
  match (NdnApp.parseName v : Except String Name) with
  | .ok name => .ok (item name)
  | .error e => .error s!"{option} {NdnApp.debugText Name v}: {e}"

/-- The options of a holder. -/
def known : String → Option (Meaning (HoldOption Name) String)
  | "--device" => some (.value (readName "--device" .device))
  | "--pib" => some (.value fun v => .ok (.pib v))
  | "--socket" => some (.value fun v => .ok (.socket v))
  | "--store" => some (.value fun v => .ok (.store v))
  | "--hold-for" => some (.value (readName "--hold-for" .holdFor))
  | "--in-namespace" => some (.flag .inNamespace)
  | "--erasure" => some (.value fun v =>
      match Erasure.fromStr v.toList with
      | .ok e => .ok (.erasure e)
      | .error e =>
          let why := e.text (NdnApp.debugText Name) ""
          .error s!"--erasure: {why}")
  | "--sync-interval-ms" => some (.value fun v =>
      match Text.parseUnsigned (2 ^ 64) v.toList with
      | some ms => .ok (.syncInterval ms)
      | none => .error (s!"--sync-interval-ms {NdnApp.debugText Name v}: " ++
          "give a whole number of milliseconds"))
  | "-h" => some .help
  | "--help" => some .help
  | _ => none

/-- An option that must be given was not. -/
def missing (flag : String) : String := s!"{flag} is required; usage: {holdUsage}"

/-- Why a holder must be told what to hold for. -/
def missingHoldFor : String :=
  "--hold-for is required: without it the holder would hold for its own " ++
    "namespace, of whose audience it is, and read what it keeps; name the " ++
    s!"namespaces to hold for (`--hold-for <ns>`, repeatable); usage: {holdUsage}"

/-- What must have been given. -/
def finish (s : SoFar Name) : ArgsOutcome (HoldArgs Name) :=
  if s.holdFor = [] then .fails missingHoldFor
  else
    match s.device, s.pib, s.store with
    | none, _, _ => .fails (missing "--device")
    | _, none, _ => .fails (missing "--pib")
    | _, _, none => .fails (missing "--store")
    | some device, some pib, some store =>
        .args ⟨device, pib, s.socket, store, s.holdFor, s.inNamespace, s.erasure, s.syncInterval⟩

/-- Nothing read yet: the defaults. -/
def start : SoFar Name :=
  ⟨none, none, NdnApp.defaultFaceSocket Name, none, [], false, default, none⟩

/-- Read the command line of a holder, after `hold`. -/
def parse (args : List String) : ArgsOutcome (HoldArgs Name) :=
  .of (fun arg => s!"unknown argument {NdnApp.debugText Name arg}; usage: {holdUsage}")
    (fun arg => s!"{arg} needs a value; usage: {holdUsage}") finish
    (Options.parse known apply args start)

/-- What options say. -/
structure Reads (items : List (HoldOption Name)) (a : HoldArgs Name) : Prop where
  /-- The last device. -/
  device : (items.filterMap HoldOption.device?).getLast? = some a.device
  /-- The last directory of keys. -/
  pib : (items.filterMap HoldOption.pib?).getLast? = some a.pib
  /-- The last socket, or the default. -/
  socket : a.socket =
    (items.filterMap HoldOption.socket?).getLast?.getD (NdnApp.defaultFaceSocket Name)
  /-- The last directory of the store. -/
  store : (items.filterMap HoldOption.store?).getLast? = some a.store
  /-- All namespaces to hold for. -/
  holdFor : a.holdFor = items.filterMap HoldOption.holdFor?
  /-- At least one. -/
  named : a.holdFor ≠ []
  /-- Whether holding for the own namespace is accepted. -/
  inNamespace : a.inNamespace = (items.filterMap HoldOption.inNamespace?).getLast?.getD false
  /-- The last coding, or the default. -/
  erasure : a.erasure = (items.filterMap HoldOption.erasure?).getLast?.getD default
  /-- The last interval, if one is given. -/
  syncInterval : a.syncInterval = (items.filterMap HoldOption.syncInterval?).getLast?

omit [NdnApp Name] in
/-- What options set. -/
theorem foldl_apply (items : List (HoldOption Name)) (s : SoFar Name) : items.foldl apply s =
    ⟨(items.filterMap HoldOption.device?).getLast?.or s.device,
      (items.filterMap HoldOption.pib?).getLast?.or s.pib,
      (items.filterMap HoldOption.socket?).getLast?.getD s.socket,
      (items.filterMap HoldOption.store?).getLast?.or s.store,
      s.holdFor ++ items.filterMap HoldOption.holdFor?,
      (items.filterMap HoldOption.inNamespace?).getLast?.getD s.inNamespace,
      (items.filterMap HoldOption.erasure?).getLast?.getD s.erasure,
      (items.filterMap HoldOption.syncInterval?).getLast?.or s.syncInterval⟩ := by
  rw [← foldl_lastGiven apply SoFar.device
      (by intro s item; cases item <;> rfl),
    ← foldl_lastGiven apply SoFar.pib (by intro s item; cases item <;> rfl),
    ← foldl_last apply SoFar.socket (by intro s item; cases item <;> rfl),
    ← foldl_lastGiven apply SoFar.store (by intro s item; cases item <;> rfl),
    ← foldl_all apply SoFar.holdFor
      (by intro s item; cases item <;> simp [apply, HoldOption.holdFor?]),
    ← foldl_last apply SoFar.inNamespace
      (by intro s item; cases item <;> rfl),
    ← foldl_last apply SoFar.erasure (by intro s item; cases item <;> rfl),
    ← foldl_lastGiven apply SoFar.syncInterval
      (by intro s item; cases item <;> rfl)]

omit [NdnApp Name] in
theorem finish_eq_args {s : SoFar Name} {a : HoldArgs Name} : finish s = .args a ↔
    s.holdFor ≠ [] ∧ s = ⟨some a.device, some a.pib, a.socket, some a.store, a.holdFor,
      a.inNamespace, a.erasure, a.syncInterval⟩ := by
  obtain ⟨device, pib, socket, store, holdFor, inNamespace, erasure, syncInterval⟩ := s
  constructor
  · intro h
    rw [finish] at h
    split at h
    next => cases h
    next hnamed =>
      refine ⟨hnamed, ?_⟩
      cases device with
      | none => cases h
      | some device =>
          cases pib with
          | none => cases h
          | some pib =>
              cases store with
              | none => cases h
              | some store => cases h; rfl
  · rintro ⟨hnamed, ⟨⟩⟩
    exact if_neg hnamed

/-- A command line is read exactly if it is a sequence of options that give all that is needed. -/
theorem parse_eq_args {args : List String} {a : HoldArgs Name} :
    parse args = .args a ↔ ∃ items, Items known args items ∧ Reads items a := by
  have hfinish : ∀ items : List (HoldOption Name),
      finish (items.foldl apply start) = .args a ↔ Reads items a := by
    intro items
    rw [finish_eq_args, foldl_apply]
    simp only [start, Option.or_none, List.nil_append, SoFar.mk.injEq]
    constructor
    · rintro ⟨hnamed, hdevice, hpib, hsocket, hstore, hholdFor, hin, herasure, hinterval⟩
      exact ⟨hdevice, hpib, hsocket.symm, hstore, hholdFor.symm, hholdFor ▸ hnamed, hin.symm,
        herasure.symm, hinterval.symm⟩
    · rintro ⟨hdevice, hpib, hsocket, hstore, hholdFor, hnamed, hin, herasure, hinterval⟩
      exact ⟨hholdFor ▸ hnamed, hdevice, hpib, hsocket.symm, hstore, hholdFor.symm, hin.symm,
        herasure.symm, hinterval.symm⟩
  rw [parse, ArgsOutcome.of_eq_args]
  exact exists_congr fun items => and_congr_right fun _ => hfinish items

end HoldArgs

/-! ## The holder -/

/-- What can be done about an error of a device. -/
inductive NextStep where
  | none
  | retryLater
  | askOwner
  | useOwnerDevice
  | editInstead
  | fixLocal
  | fixName
  | holdFirst
  | fixRequest
  | updateProgram

/-- What the operator is told to do. -/
def nextStep : NextStep → String
  | .none => "nothing: the answer is final"
  | .retryLater => "ask again later, unchanged: no path or holder answered"
  | .askOwner => "ask the collection's owner for membership, a reading key or re-admission"
  | .useOwnerDevice => "do it on a device that holds the owner's key"
  | .editInstead => "remove it with an edit to the collection: it is not yours"
  | .fixLocal => "fix this device: its storage or its keys"
  | .fixName => "ask again with a well-formed name: the message says how"
  | .holdFirst => "ask holders to keep it first (hold), and audit them"
  | .fixRequest => "ask again as the error says: the request, as given, asks for something no " ++
      "device does (a prune past the log, too few holders)"
  | .updateProgram => "run a program that knows the collection's merge rule: this one holds its " ++
      "versions but reads them under no other rule"

/-- What a device is started with. -/
structure HolderStart (Name Keys : Type) where
  /-- The device. -/
  device : Name
  /-- Its keys. -/
  keys : Keys
  /-- The forwarder's socket. -/
  socket : String
  /-- The directory of the store. -/
  store : String
  /-- How held packets are coded. -/
  erasure : Erasure
  /-- The namespaces it holds for. -/
  holdFor : List Name
  /-- The interval between synchronisations, unless the default. -/
  syncInterval : Option ℕ

/-- What a holder does to the world outside. -/
inductive HoldEffect (Name Keys : Type) where
  /-- `HolderStore::open`. -/
  | opens (dir : String) (device : Name) (erasure : Erasure)
  /-- Connect to the forwarder. -/
  | connects (socket : String)
  /-- `Device::start`. -/
  | starts (holder : HolderStart Name Keys)
  /-- Say that it runs. -/
  | ready (device writer : String)
  /-- `layer.shutdown()`. -/
  | shutsDown

/-- What the calls of a holder return. -/
structure HoldWorld (Name Pib Keys : Type) where
  /-- `FilePib::open`. -/
  openPib : String → Except String Pib
  /-- `SecurityManager::from_pib`. -/
  fromPib : Pib → Name → Except String Keys
  /-- `load_persisted_contexts`. -/
  loadContexts : Pib → Keys → Except String Keys
  /-- The namespace of the trust context that governs a name, empty if none does. -/
  namespaceOf : Keys → Name → Name
  /-- The erasure record in a directory. -/
  record : String → RecordFile
  /-- What goes wrong at opening a store there. -/
  faults : String → OpenFaults
  /-- `Node::connect`. -/
  connectNode : String → Except String Unit
  /-- `ForwarderClient::connect`. -/
  connectSync : String → Except String Unit
  /-- `Device::start`: the writer's key, or an error and what can be done about it. -/
  start : HolderStart Name Keys → Except (String × NextStep) String
  /-- Installing the handler of SIGTERM. -/
  terminate : Except String Unit

/-- Refuse to hold for `own`, the device's own namespace, unless the operator accepted it. -/
def refuseOwnNamespace {Name : Type} [NdnName Name] (own : Name) (holdFor : List Name)
    (inNamespace : Bool) : Except String Unit :=
  if inNamespace || own == NdnName.root || !holdFor.contains own then .ok ()
  else
    let own := display own
    .error (s!"--hold-for {own}: {own} is this device's own namespace, so holding for it makes " ++
      s!"the device of every audience `Person({own})` admits (it reads what it keeps) and " ++
      s!"able to sign {own}'s owner records; enroll the holder in a namespace of its own " ++
      s!"and pass `--hold-for {own}`, or pass `--in-namespace` to accept it")

theorem refuseOwnNamespace_eq_ok {Name : Type} [NdnName Name] {own : Name} {holdFor : List Name}
    {inNamespace : Bool} : refuseOwnNamespace own holdFor inNamespace = .ok () ↔
      inNamespace = true ∨ own = NdnName.root ∨ own ∉ holdFor := by
  have hgate : (inNamespace || own == NdnName.root || !holdFor.contains own) = true ↔
      inNamespace = true ∨ own = NdnName.root ∨ own ∉ holdFor := by
    simp [or_assoc]
  rw [← hgate, refuseOwnNamespace]
  split
  next h => exact ⟨fun _ => h, fun _ => rfl⟩
  next h => exact ⟨nofun, fun hpass => absurd hpass h⟩

namespace HoldWorld

variable {Name Pib Keys : Type} [NdnName Name] [NdnApp Name]

omit [NdnApp Name] in
/-- The keys of the device. -/
def keysFor (w : HoldWorld Name Pib Keys) (a : HoldArgs Name) : Except String Keys :=
  match w.openPib a.pib with
  | .error e => .error s!"open PIB {a.pib}: {e}"
  | .ok pib =>
      match w.fromPib pib a.device with
      | .error e => .error (s!"PIB {a.pib}: {e}; " ++
          s!"enroll this device as {display a.device} first (`ndn-fwd enroll`)")
      | .ok keys => (w.loadContexts pib keys).mapError fun e => s!"PIB {a.pib}: {e}"

/-- Open the store, connect, and run the device until it is told to stop. -/
def hold (w : HoldWorld Name Pib Keys) (a : HoldArgs Name) (keys : Keys) :
    Except String Unit × List (HoldEffect Name Keys) :=
  let effects := [.opens a.store a.device a.erasure]
  match (openHolder a.erasure (w.faults a.store) (w.record a.store)).1 with
  | .error e => (.error s!"store {a.store}: {e.text (NdnApp.debugText Name) a.store}", effects)
  | .ok () =>
    let effects := effects ++ [.connects a.socket]
    match w.connectNode a.socket with
    | .error e => (.error s!"connect to the forwarder at {a.socket}: {e}", effects)
    | .ok () =>
      let effects := effects ++ [.connects a.socket]
      match w.connectSync a.socket with
      | .error e => (.error s!"connect to the forwarder at {a.socket}: {e}", effects)
      | .ok () =>
        let holder := ⟨a.device, keys, a.socket, a.store, a.erasure, a.holdFor, a.syncInterval⟩
        let effects := effects ++ [.starts holder]
        match w.start holder with
        | .error (e, next) => (.error s!"{display a.device}: {e} (next: {nextStep next})", effects)
        | .ok writer =>
          let effects := effects ++ [.ready (display a.device) writer]
          match w.terminate with
          | .error _ => (.error "install the SIGTERM handler", effects)
          | .ok () => (.ok (), effects ++ [.shutsDown])

/-- `ndn-repo hold`: how it ends, and what it did. -/
def run (w : HoldWorld Name Pib Keys) (args : List String) :
    Except String Unit × List (HoldEffect Name Keys) :=
  match HoldArgs.parse args with
  | .help => (.ok (), [])
  | .fails text => (.error text, [])
  | .args a =>
    match w.keysFor a with
    | .error text => (.error text, [])
    | .ok keys =>
      match refuseOwnNamespace (w.namespaceOf keys a.device) a.holdFor a.inNamespace with
      | .error text => (.error text, [])
      | .ok () => w.hold a keys

/-- A command line names a device with keys, what it holds for, and its own namespace only if
that is accepted. -/
structure Admitted (w : HoldWorld Name Pib Keys) (args : List String) (a : HoldArgs Name)
    (keys : Keys) : Prop where
  /-- What the command line says. -/
  reads : ∃ items, Items HoldArgs.known args items ∧ HoldArgs.Reads items a
  /-- The device's keys. -/
  hasKeys : w.keysFor a = .ok keys
  /-- To hold for its own namespace is accepted, or it has none, or it does not. -/
  consents : a.inNamespace = true ∨ w.namespaceOf keys a.device = NdnName.root ∨
    w.namespaceOf keys a.device ∉ a.holdFor

variable {w : HoldWorld Name Pib Keys} {args : List String}

/-- A device that is admitted holds. -/
theorem Admitted.run_eq {a : HoldArgs Name} {keys : Keys} (h : w.Admitted args a keys) :
    w.run args = w.hold a keys := by
  have hread : HoldArgs.parse args = .args a := HoldArgs.parse_eq_args.mpr h.reads
  have hgate : refuseOwnNamespace (w.namespaceOf keys a.device) a.holdFor a.inNamespace = .ok () :=
    refuseOwnNamespace_eq_ok.mpr h.consents
  rw [run, hread]
  simp only [h.hasKeys, hgate]

/-- Nothing is done for one that is not. -/
theorem admitted_or_nil (w : HoldWorld Name Pib Keys) (args : List String) :
    (∃ a keys, w.Admitted args a keys) ∨ (w.run args).2 = [] := by
  rw [run]
  cases hread : (HoldArgs.parse args : ArgsOutcome (HoldArgs Name)) with
  | help => exact Or.inr rfl
  | fails text => exact Or.inr rfl
  | args a =>
      cases hkeys : w.keysFor a with
      | error text => exact Or.inr (by simp only [hkeys])
      | ok keys =>
          simp only [hkeys]
          cases hgate : refuseOwnNamespace (w.namespaceOf keys a.device) a.holdFor a.inNamespace with
          | error text => exact Or.inr rfl
          | ok _ => exact Or.inl ⟨a, keys, HoldArgs.parse_eq_args.mp hread, hkeys,
              refuseOwnNamespace_eq_ok.mp hgate⟩

/-- First the store is opened. -/
theorem head?_hold (a : HoldArgs Name) (keys : Keys) :
    (w.hold a keys).2.head? = some (.opens a.store a.device a.erasure) := by
  rw [hold]
  cases (openHolder a.erasure (w.faults a.store) (w.record a.store)).1 with
  | error e => rfl
  | ok _ =>
      cases w.connectNode a.socket with
      | error e => rfl
      | ok _ =>
          cases w.connectSync a.socket with
          | error e => rfl
          | ok _ =>
              simp only
              split
              next => rfl
              next => split <;> rfl

/-- The device is started once the store is open and the forwarder connected. -/
theorem starts_mem_hold {a : HoldArgs Name} {keys : Keys} {holder : HolderStart Name Keys} :
    .starts holder ∈ (w.hold a keys).2 ↔
      (openHolder a.erasure (w.faults a.store) (w.record a.store)).1 = .ok () ∧
      w.connectNode a.socket = .ok () ∧ w.connectSync a.socket = .ok () ∧
      holder = ⟨a.device, keys, a.socket, a.store, a.erasure, a.holdFor, a.syncInterval⟩ := by
  rw [hold]
  cases (openHolder a.erasure (w.faults a.store) (w.record a.store)).1 with
  | error e => simp
  | ok _ =>
      cases w.connectNode a.socket with
      | error e => simp
      | ok _ =>
          cases w.connectSync a.socket with
          | error e => simp
          | ok _ =>
              simp only
              split
              next => simp
              next => split <;> simp

/-- A holder touches its store or the forwarder exactly if its command line is read, the device
has keys, and it does not hold for its own namespace unless that is accepted.  It is started
exactly if then the store opens and the forwarder is connected, and it holds for the namespaces
that the command line names. -/
theorem starts_iff (w : HoldWorld Name Pib Keys) (args : List String) :
    ((w.run args).2 ≠ [] ↔ ∃ a keys, w.Admitted args a keys) ∧
    ∀ holder, .starts holder ∈ (w.run args).2 ↔ ∃ a keys, w.Admitted args a keys ∧
      (openHolder a.erasure (w.faults a.store) (w.record a.store)).1 = .ok () ∧
      w.connectNode a.socket = .ok () ∧ w.connectSync a.socket = .ok () ∧
      holder = ⟨a.device, keys, a.socket, a.store, a.erasure, a.holdFor, a.syncInterval⟩ := by
  constructor
  · constructor
    · intro hdone
      exact (admitted_or_nil w args).resolve_right hdone
    · rintro ⟨a, keys, hadmitted⟩
      rw [hadmitted.run_eq]
      intro hnil
      have hfirst := head?_hold (w := w) a keys
      rw [hnil] at hfirst
      cases hfirst
  · intro holder
    constructor
    · intro hstarts
      rcases admitted_or_nil w args with ⟨a, keys, hadmitted⟩ | hnil
      · rw [hadmitted.run_eq] at hstarts
        exact ⟨a, keys, hadmitted, starts_mem_hold.mp hstarts⟩
      · rw [hnil] at hstarts
        cases hstarts
    · rintro ⟨a, keys, hadmitted, hstarted⟩
      rw [hadmitted.run_eq]
      exact starts_mem_hold.mpr hstarted

end HoldWorld

/-! ## The repository -/

/-- What the calls of a repository return. -/
structure RepoWorld (Store : Type) where
  /-- `FjallStore::open`. -/
  openStore : String → Except String Store
  /-- `ForwarderClient::connect`. -/
  connect : String → Except String Unit
  /-- `SvSyncConfig::default`. -/
  svs : SvSyncConfig

namespace RepoWorld

variable {Name Store : Type} [NdnName Name] [NdnData Name] [NdnApp Name]

/-- The service that is run, unless only the usage is asked for. -/
def run (w : RepoWorld Store) (args : List String) :
    Except String (Option (RepoService Name Store)) :=
  match (RepoArgs.parseArgs args : ArgsOutcome (RepoArgs Name)) with
  | .help => .ok none
  | .fails text => .error text
  | .args a =>
    match w.openStore a.storeDir with
    | .error e => .error s!"open store at {a.storeDir}: {e}"
    | .ok store =>
      match w.connect a.socket with
      | .error e => .error s!"connect {a.socket}: {e}"
      | .ok () =>
        .ok (some (.new (Repo.new store) a.commandPrefix
          { nodeId := ascii "repo"
            responseFreshness := 1000
            initialGroups := a.groups
            svs := w.svs
            twoPhaseIngest := false } true))

/-- A repository that runs has joined the groups its command line names, and no other. -/
theorem joins_iff {w : RepoWorld Store} {args : List String} {s : RepoService Name Store}
    (h : w.run args = .ok (some s)) {items : List (RepoOption Name)}
    (hitems : Items RepoArgs.known args items) (group : Name) :
    group ∈ s.start.2.groups ↔ .group group ∈ items := by
  rw [run] at h
  cases hread : (RepoArgs.parseArgs args : ArgsOutcome (RepoArgs Name)) with
  | help => rw [hread] at h; cases h
  | fails text => rw [hread] at h; cases h
  | args a =>
      obtain ⟨items', hitems', hreads⟩ := RepoArgs.parseArgs_eq_args.mp hread
      cases hitems.unique hitems'
      rw [hread] at h
      simp only at h
      cases hopen : w.openStore a.storeDir with
      | error e => rw [hopen] at h; cases h
      | ok store =>
          rw [hopen] at h
          cases hconnect : w.connect a.socket with
          | error e => rw [hconnect] at h; cases h
          | ok _ =>
              rw [hconnect] at h
              cases h
              have hgiven : group ∈ a.groups ↔ .group group ∈ items := by
                rw [hreads.groups, List.mem_filterMap]
                constructor
                · rintro ⟨item, hitem, hgroup⟩
                  cases item <;> cases hgroup
                  exact hitem
                · exact fun hitem => ⟨_, hitem, rfl⟩
              rw [(RepoService.start_eq _).2]
              exact ⟨fun hin => hin.elim hgiven.mp nofun, fun hin => Or.inl (hgiven.mpr hin)⟩

end RepoWorld

/-- `ndn-repo`: a holder if `hold` comes first, and otherwise a repository. -/
def daemon {Name Pib Keys Store : Type} [NdnName Name] [NdnData Name] [NdnApp Name]
    (holder : HoldWorld Name Pib Keys) (repository : RepoWorld Store) :
    List String → (Except String Unit × List (HoldEffect Name Keys)) ⊕
      Except String (Option (RepoService Name Store))
  | "hold" :: args => .inl (holder.run args)
  | args => .inr (repository.run args)

end NdnRepo
