import NdnRepo.Cluster.Msg

/-!
# Damaged messages

The parser of a message's fields stops at a block it cannot read and keeps the fields
before it.  The decoder then asks for the names that the message needs and takes the
default of every other field that is missing.

So a damaged message is read as soon as the damage is behind its names
(`decode_isSome_iff`): a message cut inside a block is ignored exactly if one of its
names is cut away or into (`whole_iff_names`).
-/

open Fields

namespace NdnRepo.Cluster

namespace ClusterMsg

/-- The types of messages. -/
def types : List ℕ := [T.heartbeat, T.job, T.claim, T.release]

/-- The types of the names that a message of a type needs. -/
def needs (typ : ℕ) : List ℕ :=
  if typ = T.heartbeat then [T.node]
  else if typ = T.job then [T.target]
  else if typ = T.claim ∨ typ = T.release then [T.jobRef, T.node]
  else []

/-! ## What is read -/

section Decode

variable {Name : Type} [NameTlv Name] [NdnTlv]

/-- A message is read exactly if the names that it needs come before the damage. -/
theorem decode_isSome_iff {value body rest : Bytes} {typ : ℕ}
    (hread : readTlv value = some (typ, body, rest)) (htyp : typ ∈ types) :
    (decode value : Option (ClusterMsg Name)).isSome = true ↔ ∀ tag ∈ needs typ,
      ((last (blocksUpTo body) tag).bind decodeNameContainer : Option Name).isSome = true := by
  rw [decode, hread]
  simp only [types, List.mem_cons, List.not_mem_nil, or_false] at htyp
  rcases htyp with rfl | rfl | rfl | rfl
  · cases hnode : ((last (blocksUpTo body) T.node).bind decodeNameContainer : Option Name) <;>
      simp [Fields.parse, Fields.foldl_parseField, needs, hnode]
  · cases htarget : ((last (blocksUpTo body) T.target).bind decodeNameContainer : Option Name) <;>
      simp [Fields.parse, Fields.foldl_parseField, needs, htarget, T.job, T.heartbeat]
  · cases hjob : ((last (blocksUpTo body) T.jobRef).bind decodeNameContainer : Option Name) <;>
      cases hnode : ((last (blocksUpTo body) T.node).bind decodeNameContainer : Option Name) <;>
        simp [Fields.parse, Fields.foldl_parseField, needs, hjob, hnode, T.job, T.heartbeat,
          T.claim]
  · cases hjob : ((last (blocksUpTo body) T.jobRef).bind decodeNameContainer : Option Name) <;>
      cases hnode : ((last (blocksUpTo body) T.node).bind decodeNameContainer : Option Name) <;>
        simp [Fields.parse, Fields.foldl_parseField, needs, hjob, hnode, T.job, T.heartbeat,
          T.claim, T.release]

/-- A message is read only if its body is blocks to the end. -/
def Whole (Name : Type) [NameTlv Name] (value : Bytes) : Prop :=
  ∀ typ body rest, readTlv value = some (typ, body, rest) → typ ∈ types →
    (decode value : Option (ClusterMsg Name)).isSome = true → (blocks body).isSome = true

/-- Where the body of a message is damaged, a name that it needs does not come before
the damage. -/
def NamesDamaged (Name : Type) [NameTlv Name] (value : Bytes) : Prop :=
  ∀ typ body rest, readTlv value = some (typ, body, rest) → typ ∈ types → blocks body = none →
    ∃ tag ∈ needs typ,
      ((last (blocksUpTo body) tag).bind decodeNameContainer : Option Name) = none

theorem whole_iff (value : Bytes) : Whole Name value ↔ NamesDamaged Name value := by
  constructor
  · intro hwhole typ body rest hread htyp hdamaged
    by_contra hnames
    push Not at hnames
    have hsome := (decode_isSome_iff hread htyp).mpr fun tag htag =>
      Option.isSome_iff_ne_none.mpr (hnames tag htag)
    have hblocks := hwhole typ body rest hread htyp hsome
    rw [hdamaged] at hblocks
    cases hblocks
  · intro hdamaged typ body rest hread htyp hsome
    by_contra hblocks
    obtain ⟨tag, htag, hnone⟩ :=
      hdamaged typ body rest hread htyp (Option.not_isSome_iff_eq_none.mp hblocks)
    have hname := (decode_isSome_iff hread htyp).mp hsome tag htag
    rw [hnone] at hname
    cases hname

end Decode

/-! ## Cut messages -/

section Cut

variable {Name : Type} [NdnTlvWriter] [NameTlvWriter Name]

omit [NdnTlvWriter] [NameTlvWriter Name] in
theorem typ_mem_types (msg : ClusterMsg Name) : msg.typ ∈ types := by
  cases msg <;> simp [typ, types]

/-- Where the fields are cut off, the only field of a name is read exactly if it is before
the cut. -/
theorem name_take {msg : ClusterMsg Name} (hlen : (writeTlvs msg.fields).length < 2 ^ 64)
    (before after : List (ℕ × Bytes)) (tag : ℕ) (name : Name)
    (hfields : msg.fields = before ++ nameField tag name :: after)
    (hone : all msg.fields tag = [NameTlvWriter.encodeToTlv name]) (i : ℕ) :
    ((last (msg.fields.take i) tag).bind decodeNameContainer : Option Name).isSome = true ↔
      before.length < i := by
  have hmem : nameField tag name ∈ msg.fields := by simp [hfields]
  have hname := (length_le_writeTlvs hmem).trans_lt hlen
  have hdecode : (decodeNameContainer (NameTlvWriter.encodeToTlv name) : Option Name) =
      some name := NameTlvWriter.decode_encode name hname
  rw [hfields] at hone
  have hlast := last_take hone i
  rw [hfields, nameField, hlast]
  split
  next hi => simp [hdecode, hi]
  next hi => simp [hi]

/-- The names that a message needs are its first fields. -/
theorem needs_take (msg : ClusterMsg Name) (hlen : (writeTlvs msg.fields).length < 2 ^ 64)
    (i : ℕ) : (∀ tag ∈ needs msg.typ,
      ((last (msg.fields.take i) tag).bind decodeNameContainer : Option Name).isSome = true) ↔
        (needs msg.typ).length ≤ i := by
  cases msg with
  | heartbeat node capacityUsed capacityTotal epoch =>
      have hnode := name_take hlen [] _ T.node node rfl rfl i
      have hneeds : needs T.heartbeat = [T.node] := rfl
      simp only [typ, hneeds, List.forall_mem_singleton, hnode]
      rfl
  | job target replicationFactor erasure =>
      have hneeds : needs T.job = [T.target] := rfl
      have htarget : ((last ((job target replicationFactor erasure).fields.take i) T.target).bind
          decodeNameContainer : Option Name).isSome = true ↔ 0 < i := by
        cases erasure with
        | none => exact name_take hlen [] _ T.target target rfl rfl i
        | some spec => exact name_take hlen [] _ T.target target rfl rfl i
      simp only [typ, hneeds, List.forall_mem_singleton, htarget]
      rfl
  | claim job node ts =>
      have hneeds : needs T.claim = [T.jobRef, T.node] := rfl
      have hjob := name_take hlen [] _ T.jobRef job rfl rfl i
      have hnode := name_take hlen [nameField T.jobRef job] _ T.node node rfl rfl i
      simp only [typ, hneeds, List.forall_mem_cons, hjob, hnode, List.length_cons, List.length_nil,
        List.not_mem_nil, IsEmpty.forall_iff, implies_true, and_true]
      omega
  | release job node =>
      have hneeds : needs T.release = [T.jobRef, T.node] := rfl
      have hjob := name_take hlen [] _ T.jobRef job rfl rfl i
      have hnode := name_take hlen [nameField T.jobRef job] _ T.node node rfl rfl i
      simp only [typ, hneeds, List.forall_mem_cons, hjob, hnode, List.length_cons, List.length_nil,
        List.not_mem_nil, IsEmpty.forall_iff, implies_true, and_true]
      omega

/-- A message cut inside a block is ignored exactly if the cut is in or before one of
its names. -/
theorem decode_cut (msg : ClusterMsg Name) (hlen : (writeTlvs msg.fields).length < 2 ^ 64) {i : ℕ}
    {p : Bytes} (hcut : readTlv p = none)
    (hbody : (writeTlvs (msg.fields.take i) ++ p).length < 2 ^ 64) :
    (decode (writeTlv msg.typ (writeTlvs (msg.fields.take i) ++ p)) : Option (ClusterMsg Name)) =
      none ↔ i < (needs msg.typ).length := by
  have htypes : ∀ f ∈ msg.fields.take i, f.1 < 2 ^ 64 := fun f hf =>
    lt_of_contains (by decide) (msg.recognised_of_mem_fields f (List.mem_of_mem_take hf))
  have htyp : msg.typ < 2 ^ 64 := by
    cases msg <;> simp [typ, T.heartbeat, T.job, T.claim, T.release]
  have hread := readTlv_writeTlv_nil htyp hbody
  rw [List.length_append] at hbody
  rw [← Option.not_isSome_iff_eq_none, decode_isSome_iff hread msg.typ_mem_types,
    blocksUpTo_writeTlvs htypes (by omega) hcut, needs_take msg hlen, not_le]

/-- A message is read only if its body is blocks to the end, exactly if damage always
takes a name that it needs.  A message cut inside a block is ignored exactly if that is
one of its names or before them. -/
theorem whole_iff_names (Name : Type) [NameTlvWriter Name] :
    (∀ value : Bytes, Whole Name value ↔ NamesDamaged Name value) ∧
      ∀ (msg : ClusterMsg Name) (i : ℕ) (p : Bytes), (writeTlvs msg.fields).length < 2 ^ 64 →
        (writeTlvs (msg.fields.take i) ++ p).length < 2 ^ 64 → readTlv p = none →
          ((decode (writeTlv msg.typ (writeTlvs (msg.fields.take i) ++ p)) :
            Option (ClusterMsg Name)) = none ↔ i < (needs msg.typ).length) :=
  ⟨whole_iff, fun msg _ _ hlen hbody hcut => msg.decode_cut hlen hcut hbody⟩

end Cut

end ClusterMsg

/-- A heartbeat of the node `/a` cut after its name. -/
def cutHeartbeat : Bytes :=
  letI := blockTlvWriter
  writeTlv T.heartbeat
    (writeTlvs [ClusterMsg.nameField T.node ([(8, [97])] : TypedName)] ++ [253])

/-- It is read as a heartbeat without capacity. -/
theorem decode_cutHeartbeat :
    letI := blockTlvWriter
    ClusterMsg.decode cutHeartbeat = some (.heartbeat ([(8, [97])] : TypedName) 0 0 0) ∧
      ¬ ClusterMsg.Whole TypedName cutHeartbeat := by
  let _ := blockTlvWriter
  have hdecode : ClusterMsg.decode cutHeartbeat =
      some (.heartbeat ([(8, [97])] : TypedName) 0 0 0) := by
    decide +kernel
  refine ⟨hdecode, fun hwhole => ?_⟩
  have hread : readTlv cutHeartbeat = some (T.heartbeat,
      writeTlvs [ClusterMsg.nameField T.node ([(8, [97])] : TypedName)] ++ [253], []) := by
    decide +kernel
  have hblocks := hwhole _ _ _ hread (by decide) (by rw [hdecode]; rfl)
  exact absurd hblocks (by decide +kernel)

end NdnRepo.Cluster
