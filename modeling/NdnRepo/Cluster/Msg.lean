import NdnRepo.Cluster.Node
import NdnRepo.Ndn.Wire

/-!
# Cluster messages on the wire

A message is one block with the blocks of its fields inside.  One parser reads the
fields of every message and stops at a malformed block.  Of a type that occurs more
than once the last block counts, so each field is read apart from the others
(`Fields.foldl_parseField`) and a message is read the same from every order of its fields
(`ClusterMsg.decode_undoes_encode`).

The erasure parameters are two integers of up to 64 bits on the wire and of 16 bits in
the message.  A zero among them means there are none.
-/

open Fields

namespace NdnRepo.Cluster

/-! ## Type codes -/
namespace T

def heartbeat : ℕ := 0x1E00
def job : ℕ := 0x1E01
def claim : ℕ := 0x1E02
def release : ℕ := 0x1E03
def node : ℕ := 0x1E10
def target : ℕ := 0x1E11
def jobRef : ℕ := 0x1E12
def capUsed : ℕ := 0x1E14
def capTotal : ℕ := 0x1E15
def epoch : ℕ := 0x1E16
def repl : ℕ := 0x1E17
def ts : ℕ := 0x1E18
def ecK : ℕ := 0x1E19
def ecN : ℕ := 0x1E1A

end T

/-- The fields of any message, each at its default if it is not there. -/
structure Fields (Name : Type) where
  /-- The node. -/
  node : Option Name := none
  /-- The target of a job. -/
  target : Option Name := none
  /-- The job a claim or a release is about. -/
  job : Option Name := none
  /-- The capacity the node uses. -/
  capUsed : ℕ := 0
  /-- The capacity the node has. -/
  capTotal : ℕ := 0
  /-- How often the node has ticked. -/
  epoch : ℕ := 0
  /-- The replication factor. -/
  repl : ℕ := 0
  /-- The time of a claim. -/
  ts : ℕ := 0
  /-- How many shards are enough. -/
  ecK : ℕ := 0
  /-- How many shards there are. -/
  ecN : ℕ := 0

namespace Fields

variable {Name : Type} [NameTlv Name]

/-- One block among the fields. -/
def parseField (f : Fields Name) (field : ℕ × Bytes) : Fields Name :=
  let (typ, val) := field
  if typ = T.node then { f with node := decodeNameContainer val }
  else if typ = T.target then { f with target := decodeNameContainer val }
  else if typ = T.jobRef then { f with job := decodeNameContainer val }
  else if typ = T.capUsed then { f with capUsed := decodeNni val }
  else if typ = T.capTotal then { f with capTotal := decodeNni val }
  else if typ = T.epoch then { f with epoch := decodeNni val }
  else if typ = T.repl then { f with repl := decodeNni val }
  else if typ = T.ts then { f with ts := decodeNni val }
  else if typ = T.ecK then { f with ecK := decodeNni val }
  else if typ = T.ecN then { f with ecN := decodeNni val }
  else f

/-- The fields before the first malformed block. -/
def parse [NdnTlv] (value : Bytes) : Fields Name := (blocksUpTo value).foldl parseField {}

/-- The types there are fields of. -/
def recognised (typ : ℕ) : Bool :=
  [T.node, T.target, T.jobRef, T.capUsed, T.capTotal, T.epoch, T.repl, T.ts, T.ecK,
    T.ecN].contains typ

/-- Each type has a field of its own. -/
theorem parseField_eq (f : Fields Name) (field : ℕ × Bytes) : f.parseField field =
    ⟨if field.1 = T.node then decodeNameContainer field.2 else f.node,
      if field.1 = T.target then decodeNameContainer field.2 else f.target,
      if field.1 = T.jobRef then decodeNameContainer field.2 else f.job,
      if field.1 = T.capUsed then decodeNni field.2 else f.capUsed,
      if field.1 = T.capTotal then decodeNni field.2 else f.capTotal,
      if field.1 = T.epoch then decodeNni field.2 else f.epoch,
      if field.1 = T.repl then decodeNni field.2 else f.repl,
      if field.1 = T.ts then decodeNni field.2 else f.ts,
      if field.1 = T.ecK then decodeNni field.2 else f.ecK,
      if field.1 = T.ecN then decodeNni field.2 else f.ecN⟩ := by
  obtain ⟨typ, val⟩ := field
  unfold parseField
  by_cases hseen : recognised typ
  · have htyp := List.contains_iff_mem.mp hseen
    simp only [List.mem_cons, List.not_mem_nil, or_false] at htyp
    rcases htyp with rfl | rfl | rfl | rfl | rfl | rfl | rfl | rfl | rfl | rfl <;> rfl
  · have htyp := mt List.contains_iff_mem.mpr hseen
    simp only [List.mem_cons, List.not_mem_nil, or_false, not_or] at htyp
    simp [htyp]

/-- Of each type the last block counts. -/
theorem foldl_parseField (fields : List (ℕ × Bytes)) :
    fields.foldl parseField ({} : Fields Name) =
      ⟨(last fields T.node).bind decodeNameContainer,
        (last fields T.target).bind decodeNameContainer,
        (last fields T.jobRef).bind decodeNameContainer,
        ((last fields T.capUsed).map decodeNni).getD 0,
        ((last fields T.capTotal).map decodeNni).getD 0,
        ((last fields T.epoch).map decodeNni).getD 0,
        ((last fields T.repl).map decodeNni).getD 0,
        ((last fields T.ts).map decodeNni).getD 0,
        ((last fields T.ecK).map decodeNni).getD 0,
        ((last fields T.ecN).map decodeNni).getD 0⟩ := by
  induction fields using List.reverseRecOn with
  | nil => rfl
  | append_singleton fields f ih =>
      rw [List.foldl_append, ih, List.foldl_cons, List.foldl_nil, parseField_eq]
      simp only [last_concat]
      congr 1 <;> split <;> rfl

end Fields

namespace ClusterMsg

/-! ## Encoding and decoding -/

section Decode

variable {Name : Type} [NameTlv Name] [NdnTlv]

/-- A message from a publication.  What follows its block is not looked at. -/
def decode (value : Bytes) : Option (ClusterMsg Name) := do
  let (typ, val, _) ← readTlv value
  if typ = T.heartbeat then
    let f : Fields Name := .parse val
    return .heartbeat (← f.node) f.capUsed f.capTotal f.epoch
  else if typ = T.job then
    let f : Fields Name := .parse val
    let erasure := if f.ecK ≠ 0 ∧ f.ecN ≠ 0 then some (f.ecK % 2 ^ 16, f.ecN % 2 ^ 16) else none
    return .job (← f.target) f.repl erasure
  else if typ = T.claim then
    let f : Fields Name := .parse val
    return .claim (← f.job) (← f.node) f.ts
  else if typ = T.release then
    let f : Fields Name := .parse val
    return .release (← f.job) (← f.node)
  else none

end Decode

variable {Name : Type} [NdnTlvWriter] [NameTlvWriter Name]

/-- A name in its container. -/
def nameContainer (typ : ℕ) (name : Name) : Bytes := writeTlv typ (NameTlvWriter.encodeToTlv name)

/-- A message as a publication. -/
def encode : ClusterMsg Name → Bytes
  | .heartbeat node capacityUsed capacityTotal epoch => writeTlv T.heartbeat
      (nameContainer T.node node ++ (writeNni T.capUsed capacityUsed ++
        (writeNni T.capTotal capacityTotal ++ writeNni T.epoch epoch)))
  | .job target replicationFactor erasure => writeTlv T.job
      (nameContainer T.target target ++ (writeNni T.repl replicationFactor ++
        match erasure with
        | some (k, n) => writeNni T.ecK k ++ writeNni T.ecN n
        | none => []))
  | .claim job' node ts => writeTlv T.claim
      (nameContainer T.jobRef job' ++ (nameContainer T.node node ++ writeNni T.ts ts))
  | .release job' node => writeTlv T.release
      (nameContainer T.jobRef job' ++ nameContainer T.node node)

/-! ## The fields of a message -/

/-- The type of a message. -/
def typ : ClusterMsg Name → ℕ
  | .heartbeat .. => T.heartbeat
  | .job .. => T.job
  | .claim .. => T.claim
  | .release .. => T.release

/-- The field of a name. -/
def nameField (typ : ℕ) (name : Name) : ℕ × Bytes := (typ, NameTlvWriter.encodeToTlv name)

/-- The field of an integer. -/
def nniField (typ value : ℕ) : ℕ × Bytes := (typ, nniOctets value)

/-- The fields of a message. -/
def fields : ClusterMsg Name → List (ℕ × Bytes)
  | .heartbeat node capacityUsed capacityTotal epoch =>
      [nameField T.node node, nniField T.capUsed capacityUsed, nniField T.capTotal capacityTotal,
        nniField T.epoch epoch]
  | .job target replicationFactor none =>
      [nameField T.target target, nniField T.repl replicationFactor]
  | .job target replicationFactor (some (k, n)) =>
      [nameField T.target target, nniField T.repl replicationFactor, nniField T.ecK k,
        nniField T.ecN n]
  | .claim job' node ts => [nameField T.jobRef job', nameField T.node node, nniField T.ts ts]
  | .release job' node => [nameField T.jobRef job', nameField T.node node]

/-- The wires of a message with its fields in any order and blocks of other types
among them. -/
def Rearranged (msg : ClusterMsg Name) (wire : Bytes) : Prop :=
  ∃ fields : List (ℕ × Bytes), (fields.filter fun f => Fields.recognised f.1).Perm msg.fields ∧
    (∀ f ∈ fields, f.1 < 2 ^ 64) ∧ wire = writeTlv msg.typ (writeTlvs fields)

/-- The integers of a message are `u64`, and its erasure parameters are `u16` and
positive. -/
def Fits : ClusterMsg Name → Prop
  | .heartbeat _ capacityUsed capacityTotal epoch =>
      capacityUsed < 2 ^ 64 ∧ capacityTotal < 2 ^ 64 ∧ epoch < 2 ^ 64
  | .job _ replicationFactor erasure => replicationFactor < 2 ^ 64 ∧
      ∀ spec ∈ erasure, (0 < spec.1 ∧ spec.1 < 2 ^ 16) ∧ 0 < spec.2 ∧ spec.2 < 2 ^ 16
  | .claim _ _ ts => ts < 2 ^ 64
  | .release _ _ => True

omit [NdnTlvWriter] in
theorem recognised_of_mem_fields (msg : ClusterMsg Name) :
    ∀ f ∈ msg.fields, Fields.recognised f.1 = true := by
  intro f hf
  cases msg with
  | heartbeat node capacityUsed capacityTotal epoch =>
      simp only [fields, List.mem_cons, List.not_mem_nil, or_false] at hf
      rcases hf with rfl | rfl | rfl | rfl <;> rfl
  | job target replicationFactor erasure =>
      cases erasure with
      | none =>
          simp only [fields, List.mem_cons, List.not_mem_nil, or_false] at hf
          rcases hf with rfl | rfl <;> rfl
      | some spec =>
          simp only [fields, List.mem_cons, List.not_mem_nil, or_false] at hf
          rcases hf with rfl | rfl | rfl | rfl <;> rfl
  | claim job node ts =>
      simp only [fields, List.mem_cons, List.not_mem_nil, or_false] at hf
      rcases hf with rfl | rfl | rfl <;> rfl
  | release job node =>
      simp only [fields, List.mem_cons, List.not_mem_nil, or_false] at hf
      rcases hf with rfl | rfl <;> rfl

theorem encode_eq (msg : ClusterMsg Name) :
    msg.encode = writeTlv msg.typ (writeTlvs msg.fields) := by
  cases msg with
  | heartbeat node capacityUsed capacityTotal epoch =>
      simp [encode, typ, fields, nameContainer, nameField, nniField, writeNni]
  | job target replicationFactor erasure =>
      cases erasure with
      | none => simp [encode, typ, fields, nameContainer, nameField, nniField, writeNni]
      | some spec => simp [encode, typ, fields, nameContainer, nameField, nniField, writeNni]
  | claim job node ts => simp [encode, typ, fields, nameContainer, nameField, nniField, writeNni]
  | release job node => simp [encode, typ, fields, nameContainer, nameField]

/-- A message's own wire is one of its wires. -/
theorem encode_rearranged (msg : ClusterMsg Name) : msg.Rearranged msg.encode := by
  have hseen := msg.recognised_of_mem_fields
  refine ⟨msg.fields, by rw [List.filter_eq_self.mpr hseen], fun f hf => ?_, msg.encode_eq⟩
  exact lt_of_contains (by decide) (hseen f hf)

/-! ## Decoding undoes encoding -/

theorem parse_writeTlvs {fields : List (ℕ × Bytes)} (htypes : ∀ f ∈ fields, f.1 < 2 ^ 64)
    (hlen : (writeTlvs fields).length < 2 ^ 64) :
    (Fields.parse (writeTlvs fields) : Fields Name) =
      fields.foldl Fields.parseField {} := by
  rw [Fields.parse, blocksUpTo_eq (blocks_writeTlvs htypes hlen)]

/-- The name of a field of the message. -/
theorem name_of_perm {msg : ClusterMsg Name} {fields : List (ℕ × Bytes)}
    (hperm : (fields.filter fun f => Fields.recognised f.1).Perm msg.fields)
    (hlen : (writeTlvs fields).length < 2 ^ 64) (tag : ℕ) (name : Name)
    (hseen : Fields.recognised tag = true)
    (hone : all msg.fields tag = [NameTlvWriter.encodeToTlv name]) :
    (last fields tag).bind decodeNameContainer = some name :=
  bind_decodeNameContainer (last_of_perm hperm hseen hone) hlen

omit [NdnTlvWriter] in
/-- The integer of a field of the message. -/
theorem nni_of_perm {msg : ClusterMsg Name} {fields : List (ℕ × Bytes)}
    (hperm : (fields.filter fun f => Fields.recognised f.1).Perm msg.fields) (tag value : ℕ)
    (hseen : Fields.recognised tag = true) (hone : all msg.fields tag = [nniOctets value])
    (hvalue : value < 2 ^ 64) : ((last fields tag).map decodeNni).getD 0 = value :=
  getD_decodeNni (last_of_perm hperm hseen hone) hvalue

omit [NdnTlvWriter] in
/-- A field the message does not have. -/
theorem none_of_perm {msg : ClusterMsg Name} {fields : List (ℕ × Bytes)}
    (hperm : (fields.filter fun f => Fields.recognised f.1).Perm msg.fields) (tag : ℕ)
    (hseen : Fields.recognised tag = true) (hnone : all msg.fields tag = []) :
    last fields tag = none :=
  last_of_perm hperm hseen hnone

/-- An erasure-coded job is read without its parameters where one of them is zero. -/
theorem decode_erasureJob {target : Name} {replicationFactor k n : ℕ} {wire : Bytes}
    (hwire : (ClusterMsg.job target replicationFactor (some (k, n))).Rearranged wire)
    (hrepl : replicationFactor < 2 ^ 64) (hk : k < 2 ^ 16) (hn : n < 2 ^ 16)
    (hlen : wire.length < 2 ^ 64) : decode wire =
      some (.job target replicationFactor (if k ≠ 0 ∧ n ≠ 0 then some (k, n) else none)) := by
  obtain ⟨fields, hperm, htypes, rfl⟩ := hwire
  have hbody := (NdnTlvWriter.length_le_writeTlv _ _).trans_lt hlen
  have hread := readTlv_writeTlv_nil (by decide : T.job < 2 ^ 64) hbody
  have hne : T.job ≠ T.heartbeat := by decide
  have htarget := name_of_perm hperm hbody T.target target rfl rfl
  have hrepl := nni_of_perm hperm T.repl replicationFactor rfl rfl hrepl
  have hecK := nni_of_perm hperm T.ecK k rfl rfl (hk.trans (by norm_num))
  have hecN := nni_of_perm hperm T.ecN n rfl rfl (hn.trans (by norm_num))
  rw [decode, typ, hread]
  simp only [Option.bind_eq_bind, Option.bind_some, parse_writeTlvs htypes hbody,
    Fields.foldl_parseField, if_neg hne, if_true, htarget, hrepl, hecK, hecN, Nat.mod_eq_of_lt hk,
    Nat.mod_eq_of_lt hn]
  rfl

/-- Any wire of a message is read as the message. -/
theorem decode_of_rearranged {msg : ClusterMsg Name} {wire : Bytes} (hwire : msg.Rearranged wire)
    (hfits : msg.Fits) (hlen : wire.length < 2 ^ 64) : decode wire = some msg := by
  cases msg with
  | heartbeat node capacityUsed capacityTotal epoch =>
      obtain ⟨fields, hperm, htypes, rfl⟩ := hwire
      obtain ⟨hused, htotal, hepoch⟩ := hfits
      have hbody := (NdnTlvWriter.length_le_writeTlv _ _).trans_lt hlen
      have hread := readTlv_writeTlv_nil (by decide : T.heartbeat < 2 ^ 64) hbody
      have hnode := name_of_perm hperm hbody T.node node rfl rfl
      have hused := nni_of_perm hperm T.capUsed capacityUsed rfl rfl hused
      have htotal := nni_of_perm hperm T.capTotal capacityTotal rfl rfl htotal
      have hepoch := nni_of_perm hperm T.epoch epoch rfl rfl hepoch
      simp [decode, typ, hread, parse_writeTlvs htypes hbody, Fields.foldl_parseField, hnode,
        hused, htotal, hepoch]
  | job target replicationFactor erasure =>
      obtain ⟨hrepl, hspec⟩ := hfits
      cases erasure with
      | none =>
          obtain ⟨fields, hperm, htypes, rfl⟩ := hwire
          have hbody := (NdnTlvWriter.length_le_writeTlv _ _).trans_lt hlen
          have hread := readTlv_writeTlv_nil (by decide : T.job < 2 ^ 64) hbody
          have hne : T.job ≠ T.heartbeat := by decide
          have htarget := name_of_perm hperm hbody T.target target rfl rfl
          have hrepl := nni_of_perm hperm T.repl replicationFactor rfl rfl hrepl
          have hk := none_of_perm hperm T.ecK rfl rfl
          simp [decode, typ, hread, parse_writeTlvs htypes hbody, Fields.foldl_parseField, hne,
            htarget, hrepl, hk]
      | some spec =>
          obtain ⟨k, n⟩ := spec
          obtain ⟨⟨hkpos, hk⟩, hnpos, hn⟩ := hspec (k, n) rfl
          rw [decode_erasureJob hwire hrepl hk hn hlen, if_pos ⟨hkpos.ne', hnpos.ne'⟩]
  | claim job' node ts =>
      obtain ⟨fields, hperm, htypes, rfl⟩ := hwire
      have hbody := (NdnTlvWriter.length_le_writeTlv _ _).trans_lt hlen
      have hread := readTlv_writeTlv_nil (by decide : T.claim < 2 ^ 64) hbody
      have hheartbeat : T.claim ≠ T.heartbeat := by decide
      have hjob : T.claim ≠ T.job := by decide
      have hjobRef := name_of_perm hperm hbody T.jobRef job' rfl rfl
      have hnode := name_of_perm hperm hbody T.node node rfl rfl
      have hts := nni_of_perm hperm T.ts ts rfl rfl hfits
      simp [decode, typ, hread, parse_writeTlvs htypes hbody, Fields.foldl_parseField, hheartbeat,
        hjob, hjobRef, hnode, hts]
  | release job' node =>
      obtain ⟨fields, hperm, htypes, rfl⟩ := hwire
      have hbody := (NdnTlvWriter.length_le_writeTlv _ _).trans_lt hlen
      have hread := readTlv_writeTlv_nil (by decide : T.release < 2 ^ 64) hbody
      have hheartbeat : T.release ≠ T.heartbeat := by decide
      have hjob : T.release ≠ T.job := by decide
      have hclaim : T.release ≠ T.claim := by decide
      have hjobRef := name_of_perm hperm hbody T.jobRef job' rfl rfl
      have hnode := name_of_perm hperm hbody T.node node rfl rfl
      simp [decode, typ, hread, parse_writeTlvs htypes hbody, Fields.foldl_parseField, hheartbeat,
        hjob, hclaim, hjobRef, hnode]

/-- The wire of a message is one of its wires, and every wire of it is read as the
message. -/
theorem decode_undoes_encode (msg : ClusterMsg Name) (hfits : msg.Fits) :
    msg.Rearranged msg.encode ∧
      ∀ wire : Bytes, msg.Rearranged wire → wire.length < 2 ^ 64 → decode wire = some msg :=
  ⟨msg.encode_rearranged, fun _ hwire hlen => decode_of_rearranged hwire hfits hlen⟩

end ClusterMsg

/-- An erasure-coded job's fields backwards and with a block of another type. -/
def backwardFields [NdnTlvWriter] : List (ℕ × Bytes) :=
  [ClusterMsg.nniField T.ecN 600, (9, [1]), ClusterMsg.nniField T.ecK 4,
    ClusterMsg.nniField T.repl 0, ClusterMsg.nameField T.target ([(8, [97])] : TypedName)]

theorem decode_undoes_encode_job :
    letI := blockTlvWriter
    ClusterMsg.decode (writeTlv T.job (writeTlvs backwardFields)) =
      some (.job ([(8, [97])] : TypedName) 0 (some (4, 600))) := by
  let _ := blockTlvWriter
  have hfits : (ClusterMsg.job ([(8, [97])] : TypedName) 0 (some (4, 600))).Fits := by
    simp [ClusterMsg.Fits]
  have hperm : (backwardFields.filter fun f => Fields.recognised f.1).Perm
      (ClusterMsg.job ([(8, [97])] : TypedName) 0 (some (4, 600))).fields := by decide +kernel
  exact (ClusterMsg.decode_undoes_encode _ hfits).2 _
    ⟨backwardFields, hperm, by decide +kernel, rfl⟩ (by decide +kernel)

end NdnRepo.Cluster
