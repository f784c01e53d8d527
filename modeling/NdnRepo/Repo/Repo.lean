import NdnRepo.Held.Store
import NdnRepo.Repo.Cmd

/-!
# The repository engine

A repo answers commands: it joins and leaves groups, stores the Data packets a
command carries and queues the names to be fetched.  Publications of the joined
groups are ingested into its store behind `ingestValidator`.
-/

namespace NdnRepo

/-- A store of packets by name.  What `get` returns is what was last inserted. -/
class DataStore (Name : outParam Type) (Store : Type) [DecidableEq Name] where
  /-- Store a packet. -/
  insert : Store → Name → Bytes → Store
  /-- The packet of a name. -/
  get : Store → Name → Option Bytes
  /-- A store keeps what it is given. -/
  get_insert (s : Store) (name other : Name) (wire : Bytes) :
    get (insert s name wire) other = if other = name then some wire else get s other

/-- A store of packets that is searched by prefix. -/
class ScanStore (Name : outParam Type) (Store : Type) [NdnName Name] extends
    DataStore Name Store where
  /-- A packet under a name. -/
  findUnder : Store → Name → Option Bytes
  /-- It finds one if there is one. -/
  findUnder_isSome (s : Store) (under : Name) : (findUnder s under).isSome = true ↔
    ∃ name wire, hasPrefix name under = true ∧ get s name = some wire

instance {Name : Type} [NdnName Name] : DataStore Name (FjallStore Name) where
  insert := FjallStore.insert
  get := FjallStore.get
  get_insert := FjallStore.get_insert

instance {Name : Type} [NdnName Name] : ScanStore Name (FjallStore Name) where
  findUnder := FjallStore.findUnder
  findUnder_isSome := FjallStore.findUnder_isSome

/-- Why a packet is not stored. -/
inductive RepoError where
  /-- The packet could not be decoded. -/
  | malformedData
deriving DecidableEq

/-- The smallest history-snapshot threshold accepted. -/
def minHistoryThreshold : ℕ := 10

/-- A repository of Data packets. -/
structure Repo (Name Store : Type) [NdnName Name] [NdnData Name] where
  /-- The packets. -/
  store : Store
  /-- The groups joined. -/
  groups : Std.ExtTreeSet Name compare
  /-- The names asked for by `BlobFetch` and not fetched yet. -/
  pendingFetches : List Name
  /-- The trust gate: which Data authenticates. -/
  validator : Option (NdnData.Data Name → Bool)

namespace Repo

variable {Name Store : Type} [NdnName Name] [NdnData Name]

/-- A repo with or without a gate. -/
def withOptionalValidator (store : Store) (validator : Option (NdnData.Data Name → Bool)) :
    Repo Name Store :=
  ⟨store, ∅, [], validator⟩

/-- A repo that ingests anything. -/
def new (store : Store) : Repo Name Store := withOptionalValidator store none

/-- A repo that only ingests Data `validator` accepts. -/
def withValidator (store : Store) (validator : NdnData.Data Name → Bool) : Repo Name Store :=
  withOptionalValidator store (some validator)

/-- Whether a wire is Data that a validator accepts. -/
def verifies (validator : NdnData.Data Name → Bool) (wire : Bytes) : Bool :=
  match NdnData.decode wire with
  | some data => validator data
  | none => false

/-- The gate on what is ingested from a group. -/
def ingestValidator (repo : Repo Name Store) : Option (Bytes → Bool) :=
  repo.validator.map verifies

/-- The groups joined, in name order. -/
def joinedGroups (repo : Repo Name Store) : List Name := repo.groups.toList

/-- The names to fetch, which the caller now has to. -/
def takePendingFetches (repo : Repo Name Store) : List Name × Repo Name Store :=
  (repo.pendingFetches, { repo with pendingFetches := [] })

section Store

variable [DataStore Name Store]

/-- Store a packet under its own name. -/
def storeData (repo : Repo Name Store) (wire : Bytes) : Except RepoError Name × Repo Name Store :=
  match NdnData.decode wire with
  | none => (.error .malformedData, repo)
  | some data =>
      let name := NdnData.name data
      (.ok name, { repo with store := DataStore.insert repo.store name wire })

/-- The packet of a name. -/
def get (repo : Repo Name Store) (name : Name) : Option Bytes := DataStore.get repo.store name

/-- Store the packets a command carries, one after another. -/
def storeAll (repo : Repo Name Store) (wires : List Bytes) : Repo Name Store :=
  wires.foldl (fun repo wire => (repo.storeData wire).2) repo

/-- A `BlobFetch` is answered with success whatever became of its packets. -/
def handleBlobFetch (repo : Repo Name Store) (b : BlobFetch Name) : RepoCmdRes × Repo Name Store :=
  let repo := repo.storeAll b.data
  match b.name with
  | some name => (.ok, { repo with pendingFetches := repo.pendingFetches ++ [name] })
  | none => (.ok, repo)

end Store

/-- Leave a group. -/
def handleSyncLeave (repo : Repo Name Store) (l : SyncLeave Name) :
    RepoCmdRes × Repo Name Store :=
  match l.group with
  | none => (.err 400 "missing group name", repo)
  | some group =>
      if group ∈ repo.groups then (.ok, { repo with groups := repo.groups.erase group })
      else (.err 500 "group not joined", repo)

variable [NameTlv Name]

/-- Join a group.  A missing protocol is SVS-v3, the only one there is. -/
def handleSyncJoin (repo : Repo Name Store) (j : SyncJoin Name) : RepoCmdRes × Repo Name Store :=
  if j.protocol.any (· ≠ syncProtocolSvsV3 Name) then (.err 400 "unknown sync protocol", repo)
  else
    match j.group with
    | none => (.err 400 "missing group name", repo)
    | some group =>
        if j.historyThreshold.any (· < minHistoryThreshold) then
          (.err 400 "invalid history snapshot threshold", repo)
        else (.ok, { repo with groups := repo.groups.insert group })

/-- Process a command and answer it. -/
def handleCommand [NdnTlv] [DataStore Name Store] (repo : Repo Name Store) (cmdValue : Bytes) :
    RepoCmdRes × Repo Name Store :=
  match RepoCmd.decode cmdValue with
  | none => (.err 400 "malformed repo command", repo)
  | some (.syncJoin j) => repo.handleSyncJoin j
  | some (.syncLeave l) => repo.handleSyncLeave l
  | some (.blobFetch b) => repo.handleBlobFetch b

end Repo

end NdnRepo
