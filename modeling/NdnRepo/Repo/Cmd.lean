import NdnRepo.Ndn.Wire

/-!
# Repo commands

A command is one block with the fields of its variant inside.  Blocks of other
types among the fields are passed over.  A malformed block makes the whole
command unreadable, but a field whose name does not decode reads as absent.
-/

namespace NdnRepo

/-! ## Type codes -/
namespace TlvType

def syncJoin : ℕ := 0x1DB0
def syncLeave : ℕ := 0x1DB1
def blobFetch : ℕ := 0x1DB2
def securityConfig : ℕ := 0x1DB4
def protocol : ℕ := 0x191
def group : ℕ := 0x193
def multicastPrefix : ℕ := 0x194
def historySnapshot : ℕ := 0x1A4
def historyThreshold : ℕ := 0x1A5
def blobName : ℕ := 0x1B8
def blobData : ℕ := 0x1BA

end TlvType

/-- Join a group and ingest it. -/
structure SyncJoin (Name : Type) where
  /-- The sync protocol. -/
  protocol : Option Name := none
  /-- The group to join. -/
  group : Option Name := none
  /-- The multicast prefix. -/
  multicastPrefix : Option Name := none
  /-- The history-snapshot threshold, a `u64`. -/
  historyThreshold : Option ℕ := none
  /-- The name of the security configuration to fetch. -/
  securityConfig : Option Name := none
deriving DecidableEq

/-- Leave a group. -/
structure SyncLeave (Name : Type) where
  /-- The sync protocol. -/
  protocol : Option Name := none
  /-- The group to leave. -/
  group : Option Name := none
deriving DecidableEq

/-- Fetch a blob by name, or store the Data packets the command carries. -/
structure BlobFetch (Name : Type) where
  /-- The name to fetch. -/
  name : Option Name := none
  /-- Data wires to store. -/
  data : List Bytes := []
deriving DecidableEq

/-- A parsed command. -/
inductive RepoCmd (Name : Type) where
  | syncJoin (j : SyncJoin Name)
  | syncLeave (l : SyncLeave Name)
  | blobFetch (b : BlobFetch Name)
deriving DecidableEq

/-- The answer to a command. -/
structure RepoCmdRes where
  /-- The status, as HTTP has them. -/
  status : ℕ
  /-- What went wrong, empty on success. -/
  message : String
deriving DecidableEq

namespace RepoCmdRes

/-- Success. -/
def ok : RepoCmdRes := ⟨200, ""⟩

/-- Failure. -/
def err (status : ℕ) (message : String) : RepoCmdRes := ⟨status, message⟩

end RepoCmdRes

section Decode

variable {Name : Type} [NameTlv Name] [NdnTlv]

/-- One field of a `SyncJoin`. -/
def decodeSyncJoinField (j : SyncJoin Name) (field : ℕ × Bytes) : Option (SyncJoin Name) :=
  let (typ, val) := field
  if typ = TlvType.protocol then some { j with protocol := decodeNameContainer val }
  else if typ = TlvType.group then some { j with group := decodeNameContainer val }
  else if typ = TlvType.multicastPrefix then
    some { j with multicastPrefix := decodeNameContainer val }
  else if typ = TlvType.historySnapshot then do
    let inner ← blocks val
    let threshold := inner.foldl
      (fun t (typ, v) => if typ = TlvType.historyThreshold then some (decodeNni v) else t)
      j.historyThreshold
    return { j with historyThreshold := threshold }
  else if typ = TlvType.securityConfig then
    some { j with securityConfig := decodeNameContainer val }
  else some j

/-- The fields of a `SyncJoin`.  Of a repeated field the last one counts. -/
def decodeSyncJoin (value : Bytes) : Option (SyncJoin Name) := do
  let fields ← blocks value
  fields.foldlM decodeSyncJoinField {}

/-- One field of a `SyncLeave`. -/
def decodeSyncLeaveField (l : SyncLeave Name) (field : ℕ × Bytes) : SyncLeave Name :=
  let (typ, val) := field
  if typ = TlvType.protocol then { l with protocol := decodeNameContainer val }
  else if typ = TlvType.group then { l with group := decodeNameContainer val }
  else l

/-- The fields of a `SyncLeave`. -/
def decodeSyncLeave (value : Bytes) : Option (SyncLeave Name) := do
  let fields ← blocks value
  return fields.foldl decodeSyncLeaveField {}

/-- One field of a `BlobFetch`. -/
def decodeBlobFetchField (b : BlobFetch Name) (field : ℕ × Bytes) : BlobFetch Name :=
  let (typ, val) := field
  if typ = TlvType.blobName then { b with name := decodeNameContainer val }
  else if typ = TlvType.blobData then { b with data := b.data ++ [val] }
  else b

/-- The fields of a `BlobFetch`. -/
def decodeBlobFetch (value : Bytes) : Option (BlobFetch Name) := do
  let fields ← blocks value
  return fields.foldl decodeBlobFetchField {}

/-- A command from the value of its Interest's parameters.  What follows its
block is not looked at. -/
def RepoCmd.decode (value : Bytes) : Option (RepoCmd Name) := do
  let (typ, val, _) ← readTlv value
  if typ = TlvType.syncJoin then RepoCmd.syncJoin <$> decodeSyncJoin val
  else if typ = TlvType.syncLeave then RepoCmd.syncLeave <$> decodeSyncLeave val
  else if typ = TlvType.blobFetch then RepoCmd.blobFetch <$> decodeBlobFetch val
  else none

end Decode

/-- The name of the SVS-v3 sync protocol. -/
def syncProtocolSvsV3 (Name : Type) [NdnName Name] [NameTlv Name] : Name :=
  NameTlv.appendVersion
    (NameTlv.appendKeyword (NameTlv.appendKeyword NdnName.root (ascii "ndn")) (ascii "svs")) 3

end NdnRepo
