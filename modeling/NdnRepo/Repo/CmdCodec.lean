import NdnRepo.Repo.Cmd

/-!
# Writing repo commands

A command is written as one block with the blocks of its fields inside.  The decoder
reads the fields of one type apart from those of any other (`decodeSyncJoin_eq`,
`decodeSyncLeave_eq`, `decodeBlobFetch_eq`), so it reads the same command from every
order of the fields and with blocks of other types among them (`commands_read_as_written`).
-/

namespace NdnRepo

open Fields

namespace TlvType

def resStatus : ℕ := 0x291
def resMessage : ℕ := 0x292

end TlvType

/-! ## Encoding -/

/-- One field of an answer. -/
def decodeRepoCmdResField (res : RepoCmdRes) (field : ℕ × Bytes) : Option RepoCmdRes :=
  let (typ, val) := field
  if typ = TlvType.resStatus then some { res with status := decodeNni val }
  else if typ = TlvType.resMessage then do
    let message ← String.fromUTF8? ⟨val.toArray⟩
    return { res with message := message }
  else some res

/-- An answer from the content of its Data packet. -/
def RepoCmdRes.decode [NdnTlv] (value : Bytes) : Option RepoCmdRes := do
  let fields ← blocks value
  fields.foldlM decodeRepoCmdResField ⟨0, ""⟩

section Encode

variable {Name : Type} [NdnTlvWriter] [NameTlvWriter Name]

/-- A name container, if there is a name. -/
def nameContainerOpt (typ : ℕ) : Option Name → Bytes
  | some name => writeTlv typ (NameTlvWriter.encodeToTlv name)
  | none => []

/-- A command as the value of its Interest's parameters. -/
def RepoCmd.encode : RepoCmd Name → Bytes
  | .syncJoin j => writeTlv TlvType.syncJoin
      (nameContainerOpt TlvType.protocol j.protocol ++
        (nameContainerOpt TlvType.group j.group ++
          (nameContainerOpt TlvType.multicastPrefix j.multicastPrefix ++
            ((match j.historyThreshold with
              | some t => writeTlv TlvType.historySnapshot (writeNni TlvType.historyThreshold t)
              | none => []) ++
              nameContainerOpt TlvType.securityConfig j.securityConfig))))
  | .syncLeave l => writeTlv TlvType.syncLeave
      (nameContainerOpt TlvType.protocol l.protocol ++ nameContainerOpt TlvType.group l.group)
  | .blobFetch b => writeTlv TlvType.blobFetch
      (nameContainerOpt TlvType.blobName b.name ++
        (b.data.map fun d => writeTlv TlvType.blobData d).flatten)

omit [NameTlvWriter Name] in
/-- An answer as the content of its Data packet. -/
def RepoCmdRes.encode (res : RepoCmdRes) : Bytes :=
  writeNni TlvType.resStatus res.status ++
    if res.message.isEmpty then []
    else writeTlv TlvType.resMessage res.message.toUTF8.data.toList

end Encode

/-! ## The fields of a body -/

section FieldLists

variable {Name : Type} [NameTlvWriter Name]

/-- The field of a name, if there is one. -/
def nameField (typ : ℕ) (name : Option Name) : List (ℕ × Bytes) :=
  (name.map fun n => (typ, NameTlvWriter.encodeToTlv n)).toList

/-- The fields of a `SyncJoin` whose snapshot container, if it has one, has some
content. -/
def SyncJoin.fields (j : SyncJoin Name) (snapshot : Bytes) : List (ℕ × Bytes) :=
  nameField TlvType.protocol j.protocol ++ (nameField TlvType.group j.group ++
    (nameField TlvType.multicastPrefix j.multicastPrefix ++
      ((j.historyThreshold.map fun _ => (TlvType.historySnapshot, snapshot)).toList ++
        nameField TlvType.securityConfig j.securityConfig)))

/-- The content of the snapshot container of a `SyncJoin`. -/
def SyncJoin.inner (j : SyncJoin Name) : List (ℕ × Bytes) :=
  (j.historyThreshold.map fun t => (TlvType.historyThreshold, nniOctets t)).toList

/-- The types a `SyncJoin` has fields of. -/
def SyncJoin.recognised (typ : ℕ) : Bool :=
  [TlvType.protocol, TlvType.group, TlvType.multicastPrefix, TlvType.historySnapshot,
    TlvType.securityConfig].contains typ

/-- The fields of a `SyncLeave`. -/
def SyncLeave.fields (l : SyncLeave Name) : List (ℕ × Bytes) :=
  nameField TlvType.protocol l.protocol ++ nameField TlvType.group l.group

/-- The types a `SyncLeave` has fields of. -/
def SyncLeave.recognised (typ : ℕ) : Bool := [TlvType.protocol, TlvType.group].contains typ

/-- The fields of a `BlobFetch`. -/
def BlobFetch.fields (b : BlobFetch Name) : List (ℕ × Bytes) :=
  nameField TlvType.blobName b.name ++ b.data.map fun d => (TlvType.blobData, d)

/-- The types a `BlobFetch` has fields of. -/
def BlobFetch.recognised (typ : ℕ) : Bool := [TlvType.blobName, TlvType.blobData].contains typ

theorem fst_of_mem_nameField {typ : ℕ} {name : Option Name} {f : ℕ × Bytes}
    (hf : f ∈ nameField typ name) : f.1 = typ := by
  cases name with
  | none => cases hf
  | some name => exact congrArg Prod.fst (List.mem_singleton.mp hf)

theorem SyncJoin.recognised_of_mem_fields (j : SyncJoin Name) (snapshot : Bytes) :
    ∀ f ∈ j.fields snapshot, SyncJoin.recognised f.1 = true := by
  intro f hf
  simp only [SyncJoin.fields, List.mem_append] at hf
  rcases hf with hf | hf | hf | hf | hf
  · rw [fst_of_mem_nameField hf]; decide
  · rw [fst_of_mem_nameField hf]; decide
  · rw [fst_of_mem_nameField hf]; decide
  · cases hj : j.historyThreshold with
    | none => simp [hj] at hf
    | some t =>
        obtain rfl : f = (TlvType.historySnapshot, snapshot) := by simpa [hj] using hf
        rfl
  · rw [fst_of_mem_nameField hf]; decide

theorem SyncLeave.recognised_of_mem_fields (l : SyncLeave Name) :
    ∀ f ∈ l.fields, SyncLeave.recognised f.1 = true := by
  intro f hf
  rcases List.mem_append.mp hf with hf | hf
  · rw [fst_of_mem_nameField hf]; decide
  · rw [fst_of_mem_nameField hf]; decide

theorem BlobFetch.recognised_of_mem_fields (b : BlobFetch Name) :
    ∀ f ∈ b.fields, BlobFetch.recognised f.1 = true := by
  intro f hf
  rcases List.mem_append.mp hf with hf | hf
  · rw [fst_of_mem_nameField hf]; decide
  · obtain ⟨d, -, rfl⟩ := List.mem_map.mp hf
    rfl

/-- What a `SyncJoin` has of each type. -/
theorem SyncJoin.all_fields (j : SyncJoin Name) (snapshot : Bytes) :
    all (j.fields snapshot) TlvType.protocol =
        (j.protocol.map NameTlvWriter.encodeToTlv).toList ∧
      all (j.fields snapshot) TlvType.group = (j.group.map NameTlvWriter.encodeToTlv).toList ∧
      all (j.fields snapshot) TlvType.multicastPrefix =
        (j.multicastPrefix.map NameTlvWriter.encodeToTlv).toList ∧
      all (j.fields snapshot) TlvType.historySnapshot =
        (j.historyThreshold.map fun _ => snapshot).toList ∧
      all (j.fields snapshot) TlvType.securityConfig =
        (j.securityConfig.map NameTlvWriter.encodeToTlv).toList := by
  simp [SyncJoin.fields, nameField, all_optional, TlvType.protocol, TlvType.group,
    TlvType.multicastPrefix, TlvType.historySnapshot, TlvType.securityConfig]

/-- What a `SyncLeave` has of each type. -/
theorem SyncLeave.all_fields (l : SyncLeave Name) :
    all l.fields TlvType.protocol = (l.protocol.map NameTlvWriter.encodeToTlv).toList ∧
      all l.fields TlvType.group = (l.group.map NameTlvWriter.encodeToTlv).toList := by
  simp [SyncLeave.fields, nameField, all_optional, TlvType.protocol, TlvType.group]

/-- What a `BlobFetch` has of each type. -/
theorem BlobFetch.all_fields (b : BlobFetch Name) :
    all b.fields TlvType.blobName = (b.name.map NameTlvWriter.encodeToTlv).toList ∧
      all b.fields TlvType.blobData = b.data := by
  have hname : all (b.data.map fun d => (TlvType.blobData, d)) TlvType.blobName = [] := by
    simp [all, TlvType.blobData, TlvType.blobName]
  have hdata : all (b.data.map fun d => (TlvType.blobData, d)) TlvType.blobData = b.data := by
    simp [all, List.filter_map, Function.comp_def]
  have hne : TlvType.blobName ≠ TlvType.blobData := by decide
  simp [BlobFetch.fields, nameField, all_optional, hname, hdata, hne]

variable [NdnTlvWriter]

/-- The wires of a command with the fields of its body in any order, the inline
packets in theirs, and blocks of other types among them and in the snapshot
container. -/
inductive RepoCmd.Rearranged : RepoCmd Name → Bytes → Prop where
  | syncJoin {j : SyncJoin Name} {inner fields : List (ℕ × Bytes)}
      (hinner : (inner.filter fun f => f.1 = TlvType.historyThreshold) = j.inner)
      (hfields : (fields.filter fun f => SyncJoin.recognised f.1).Perm (j.fields (writeTlvs inner)))
      (htypes : (∀ f ∈ inner, f.1 < 2 ^ 64) ∧ ∀ f ∈ fields, f.1 < 2 ^ 64) :
      Rearranged (.syncJoin j) (writeTlv TlvType.syncJoin (writeTlvs fields))
  | syncLeave {l : SyncLeave Name} {fields : List (ℕ × Bytes)}
      (hfields : (fields.filter fun f => SyncLeave.recognised f.1).Perm l.fields)
      (htypes : ∀ f ∈ fields, f.1 < 2 ^ 64) :
      Rearranged (.syncLeave l) (writeTlv TlvType.syncLeave (writeTlvs fields))
  | blobFetch {b : BlobFetch Name} {fields : List (ℕ × Bytes)}
      (hfields : (fields.filter fun f => BlobFetch.recognised f.1).Perm b.fields)
      (hdata : all fields TlvType.blobData = b.data)
      (htypes : ∀ f ∈ fields, f.1 < 2 ^ 64) :
      Rearranged (.blobFetch b) (writeTlv TlvType.blobFetch (writeTlvs fields))

/-- The command's threshold, if it has one, is a `u64`. -/
def RepoCmd.Fits : RepoCmd Name → Prop
  | .syncJoin j => ∀ t ∈ j.historyThreshold, t < 2 ^ 64
  | _ => True

theorem writeTlvs_nameField (typ : ℕ) (name : Option Name) :
    writeTlvs (nameField typ name) = nameContainerOpt typ name := by
  cases name with
  | none => rfl
  | some name => simp [nameField, nameContainerOpt]

end FieldLists

/-! ## Decoding, field by field -/

section Decode

variable {Name : Type} [NameTlv Name]

theorem decodeSyncLeave_eq (fields : List (ℕ × Bytes)) :
    fields.foldl decodeSyncLeaveField ({} : SyncLeave Name) =
      ⟨(last fields TlvType.protocol).bind decodeNameContainer,
        (last fields TlvType.group).bind decodeNameContainer⟩ := by
  induction fields using List.reverseRecOn with
  | nil => rfl
  | append_singleton fields f ih =>
      obtain ⟨typ, val⟩ := f
      rw [List.foldl_append, ih, List.foldl_cons, List.foldl_nil, last_concat, last_concat,
        decodeSyncLeaveField]
      split
      next h =>
        subst h
        simp [TlvType.protocol, TlvType.group]
      next =>
        split
        next h => simp
        next h => rfl

theorem decodeBlobFetch_eq (fields : List (ℕ × Bytes)) :
    fields.foldl decodeBlobFetchField ({} : BlobFetch Name) =
      ⟨(last fields TlvType.blobName).bind decodeNameContainer, all fields TlvType.blobData⟩ := by
  induction fields using List.reverseRecOn with
  | nil => rfl
  | append_singleton fields f ih =>
      obtain ⟨typ, val⟩ := f
      rw [List.foldl_append, ih, List.foldl_cons, List.foldl_nil, last_concat, all_append,
        decodeBlobFetchField]
      split
      next h =>
        subst h
        simp [all_cons, TlvType.blobName, TlvType.blobData]
      next =>
        split
        next h => simp [all_cons, h]
        next h => simp [all_cons, h]

/-- The threshold in a snapshot container, or the one before. -/
theorem foldl_threshold (inner : List (ℕ × Bytes)) (t : Option ℕ) :
    inner.foldl (fun t f => if f.1 = TlvType.historyThreshold then some (decodeNni f.2) else t)
        t = ((last inner TlvType.historyThreshold).map decodeNni).or t := by
  induction inner using List.reverseRecOn with
  | nil => rfl
  | append_singleton inner f ih =>
      obtain ⟨typ, v⟩ := f
      rw [List.foldl_append, ih, List.foldl_cons, List.foldl_nil, last_concat]
      by_cases h : typ = TlvType.historyThreshold <;> simp [h]

variable [NdnTlv]

/-- The last threshold of some snapshot containers. -/
def lastThreshold (containers : List Bytes) : Option ℕ :=
  containers.foldl
    (fun t v => ((last ((blocks v).getD []) TlvType.historyThreshold).map decodeNni).or t) none

theorem decodeSyncJoin_eq (fields : List (ℕ × Bytes))
    (hread : ∀ v ∈ all fields TlvType.historySnapshot, (blocks v).isSome) :
    fields.foldlM decodeSyncJoinField ({} : SyncJoin Name) = some
      ⟨(last fields TlvType.protocol).bind decodeNameContainer,
        (last fields TlvType.group).bind decodeNameContainer,
        (last fields TlvType.multicastPrefix).bind decodeNameContainer,
        lastThreshold (all fields TlvType.historySnapshot),
        (last fields TlvType.securityConfig).bind decodeNameContainer⟩ := by
  induction fields using List.reverseRecOn with
  | nil => rfl
  | append_singleton fields f ih =>
      obtain ⟨typ, val⟩ := f
      rw [all_append] at hread
      have ih := ih fun v hv => hread v (List.mem_append_left _ hv)
      rw [List.foldlM_append, ih]
      simp only [Option.bind_eq_bind, Option.bind_some, List.foldlM_cons, List.foldlM_nil,
        last_concat, all_append, all_cons, all_nil, decodeSyncJoinField]
      split
      next h =>
        subst h
        simp [TlvType.protocol, TlvType.group, TlvType.multicastPrefix, TlvType.historySnapshot,
          TlvType.securityConfig]
      next =>
        split
        next h =>
          subst h
          simp [TlvType.group, TlvType.multicastPrefix, TlvType.historySnapshot,
            TlvType.securityConfig]
        next =>
          split
          next h =>
            subst h
            simp [TlvType.multicastPrefix, TlvType.historySnapshot, TlvType.securityConfig]
          next =>
            split
            next h =>
              subst h
              obtain ⟨inner, hinner⟩ := Option.isSome_iff_exists.mp (hread val (by simp [all_cons]))
              have hnew : lastThreshold (all fields TlvType.historySnapshot ++ [val]) =
                  ((last inner TlvType.historyThreshold).map decodeNni).or
                    (lastThreshold (all fields TlvType.historySnapshot)) := by
                simp [lastThreshold, hinner]
              rw [hnew, hinner, Option.bind_some, foldl_threshold]
              simp [TlvType.historySnapshot, TlvType.securityConfig]
            next =>
              split
              next h => simp
              next => simp

end Decode

/-! ## Decoding undoes encoding -/

section RoundTrip

variable {Name : Type} [NdnTlvWriter] [NameTlvWriter Name]

theorem decode_syncLeave {l : SyncLeave Name} {fields : List (ℕ × Bytes)}
    (hfields : (fields.filter fun f => SyncLeave.recognised f.1).Perm l.fields)
    (htypes : ∀ f ∈ fields, f.1 < 2 ^ 64) (hlen : (writeTlvs fields).length < 2 ^ 64) :
    decodeSyncLeave (writeTlvs fields) = some l := by
  have hprotocol := last_of_perm hfields (by decide) l.all_fields.1
  have hgroup := last_of_perm hfields (by decide) l.all_fields.2
  rw [decodeSyncLeave, blocks_writeTlvs htypes hlen]
  simp only [Option.bind_eq_bind, Option.bind_some, Option.pure_def]
  rw [decodeSyncLeave_eq, bind_decodeNameContainer hprotocol hlen,
    bind_decodeNameContainer hgroup hlen]

theorem decode_blobFetch {b : BlobFetch Name} {fields : List (ℕ × Bytes)}
    (hfields : (fields.filter fun f => BlobFetch.recognised f.1).Perm b.fields)
    (hdata : all fields TlvType.blobData = b.data)
    (htypes : ∀ f ∈ fields, f.1 < 2 ^ 64) (hlen : (writeTlvs fields).length < 2 ^ 64) :
    decodeBlobFetch (writeTlvs fields) = some b := by
  have hname := last_of_perm hfields (by decide) b.all_fields.1
  rw [decodeBlobFetch, blocks_writeTlvs htypes hlen]
  simp only [Option.bind_eq_bind, Option.bind_some, Option.pure_def]
  rw [decodeBlobFetch_eq, bind_decodeNameContainer hname hlen, hdata]

theorem decode_syncJoin {j : SyncJoin Name} {inner fields : List (ℕ × Bytes)}
    (hinner : (inner.filter fun f => f.1 = TlvType.historyThreshold) = j.inner)
    (hfields : (fields.filter fun f => SyncJoin.recognised f.1).Perm (j.fields (writeTlvs inner)))
    (hinnerTypes : ∀ f ∈ inner, f.1 < 2 ^ 64) (htypes : ∀ f ∈ fields, f.1 < 2 ^ 64)
    (hfits : ∀ t ∈ j.historyThreshold, t < 2 ^ 64) (hlen : (writeTlvs fields).length < 2 ^ 64) :
    decodeSyncJoin (writeTlvs fields) = some j := by
  obtain ⟨hprotocol, hgroup, hmulticast, hsnapshot, hsecurity⟩ := j.all_fields (writeTlvs inner)
  have hprotocol := last_of_perm hfields (by decide) hprotocol
  have hgroup := last_of_perm hfields (by decide) hgroup
  have hmulticast := last_of_perm hfields (by decide) hmulticast
  have hsnapshot := all_of_perm hfields (by decide) hsnapshot
  have hsecurity := last_of_perm hfields (by decide) hsecurity
  have hthreshold : all inner TlvType.historyThreshold =
      (j.historyThreshold.map nniOctets).toList := by
    rw [all, hinner, SyncJoin.inner]
    cases j.historyThreshold <;> rfl
  have hblocks : ∀ v ∈ all fields TlvType.historySnapshot, blocks v = some inner := by
    intro v hv
    have hmem := mem_of_all hv
    rw [hsnapshot] at hv
    cases hj : j.historyThreshold with
    | none => simp [hj] at hv
    | some t =>
        obtain rfl : v = writeTlvs inner := by simpa [hj] using hv
        exact blocks_writeTlvs hinnerTypes ((length_le_writeTlvs hmem).trans_lt hlen)
  have hlast : lastThreshold (all fields TlvType.historySnapshot) = j.historyThreshold := by
    cases hj : j.historyThreshold with
    | none =>
        rw [hj] at hsnapshot
        rw [hsnapshot]
        rfl
    | some t =>
        have hone : all fields TlvType.historySnapshot = [writeTlvs inner] := by
          rw [hsnapshot, hj]
          rfl
        have hread := hblocks (writeTlvs inner) (by simp [hone])
        rw [hj] at hthreshold
        have hnni := decodeNni_nniOctets (hfits t hj)
        simp [lastThreshold, hone, hread, last, hthreshold, hnni]
  rw [decodeSyncJoin, blocks_writeTlvs htypes hlen]
  simp only [Option.bind_eq_bind, Option.bind_some]
  rw [decodeSyncJoin_eq fields fun v hv => by rw [hblocks v hv]; rfl,
    bind_decodeNameContainer hprotocol hlen, bind_decodeNameContainer hgroup hlen,
    bind_decodeNameContainer hmulticast hlen, bind_decodeNameContainer hsecurity hlen, hlast]

/-- The fields of a `SyncJoin` as it is encoded. -/
theorem SyncJoin.writeTlvs_fields (j : SyncJoin Name) :
    writeTlvs (j.fields (writeTlvs j.inner)) =
      nameContainerOpt TlvType.protocol j.protocol ++
        (nameContainerOpt TlvType.group j.group ++
          (nameContainerOpt TlvType.multicastPrefix j.multicastPrefix ++
            ((match j.historyThreshold with
              | some t => writeTlv TlvType.historySnapshot (writeNni TlvType.historyThreshold t)
              | none => []) ++
              nameContainerOpt TlvType.securityConfig j.securityConfig))) := by
  simp only [SyncJoin.fields, writeTlvs_append, writeTlvs_nameField, SyncJoin.inner]
  cases j.historyThreshold with
  | none => simp
  | some t => simp [writeNni]

/-- A command's own wire is one of its wires. -/
theorem RepoCmd.encode_rearranged : ∀ cmd : RepoCmd Name, cmd.Rearranged cmd.encode
  | .syncJoin j => by
      have hseen := j.recognised_of_mem_fields (writeTlvs j.inner)
      rw [RepoCmd.encode, ← j.writeTlvs_fields]
      refine .syncJoin ?_ (by rw [List.filter_eq_self.mpr hseen]) ⟨?_, ?_⟩
      · cases hj : j.historyThreshold <;> simp [SyncJoin.inner, hj]
      · cases hj : j.historyThreshold <;> simp [SyncJoin.inner, hj, TlvType.historyThreshold]
      · exact fun f hf => lt_of_contains (by decide) (hseen f hf)
  | .syncLeave l => by
      have hseen := l.recognised_of_mem_fields
      have hwrite : writeTlvs l.fields = nameContainerOpt TlvType.protocol l.protocol ++
          nameContainerOpt TlvType.group l.group := by
        simp only [SyncLeave.fields, writeTlvs_append, writeTlvs_nameField]
      rw [RepoCmd.encode, ← hwrite]
      exact .syncLeave (by rw [List.filter_eq_self.mpr hseen])
        fun f hf => lt_of_contains (by decide) (hseen f hf)
  | .blobFetch b => by
      have hseen := b.recognised_of_mem_fields
      have hwrite : writeTlvs b.fields = nameContainerOpt TlvType.blobName b.name ++
          (b.data.map fun d => writeTlv TlvType.blobData d).flatten := by
        simp only [BlobFetch.fields, writeTlvs_append, writeTlvs_nameField]
        simp [writeTlvs, Function.comp_def]
      rw [RepoCmd.encode, ← hwrite]
      exact .blobFetch (by rw [List.filter_eq_self.mpr hseen]) b.all_fields.2
        fun f hf => lt_of_contains (by decide) (hseen f hf)

/-- Any wire of a command is read as the command. -/
theorem RepoCmd.decode_of_rearranged {cmd : RepoCmd Name} {wire : Bytes}
    (hwire : cmd.Rearranged wire) (hfits : cmd.Fits) (hlen : wire.length < 2 ^ 64) :
    RepoCmd.decode wire = some cmd := by
  cases hwire with
  | @syncJoin j inner fields hinner hfields htypes =>
      have hbody := (NdnTlvWriter.length_le_writeTlv _ _).trans_lt hlen
      have hjoin := decode_syncJoin hinner hfields htypes.1 htypes.2 hfits hbody
      have hread := readTlv_writeTlv_nil (by decide : TlvType.syncJoin < 2 ^ 64) hbody
      simp [RepoCmd.decode, hread, hjoin]
  | @syncLeave l fields hfields htypes =>
      have hbody := (NdnTlvWriter.length_le_writeTlv _ _).trans_lt hlen
      have hleave := decode_syncLeave hfields htypes hbody
      have hread := readTlv_writeTlv_nil (by decide : TlvType.syncLeave < 2 ^ 64) hbody
      have hne : TlvType.syncLeave ≠ TlvType.syncJoin := by decide
      simp [RepoCmd.decode, hread, hleave, hne]
  | @blobFetch b fields hfields hdata htypes =>
      have hbody := (NdnTlvWriter.length_le_writeTlv _ _).trans_lt hlen
      have hfetch := decode_blobFetch hfields hdata htypes hbody
      have hread := readTlv_writeTlv_nil (by decide : TlvType.blobFetch < 2 ^ 64) hbody
      have hjoin : TlvType.blobFetch ≠ TlvType.syncJoin := by decide
      have hleave : TlvType.blobFetch ≠ TlvType.syncLeave := by decide
      simp [RepoCmd.decode, hread, hfetch, hjoin, hleave]

omit [NameTlvWriter Name] in
theorem RepoCmdRes.encode_eq (res : RepoCmdRes) : res.encode = writeTlvs
    ((TlvType.resStatus, nniOctets res.status) :: if res.message.isEmpty then []
      else [(TlvType.resMessage, res.message.toUTF8.data.toList)]) := by
  rw [RepoCmdRes.encode]
  split
  next => simp [writeNni]
  next => simp [writeNni]

/-- An answer's wire is read as the answer. -/
theorem RepoCmdRes.decode_encode {res : RepoCmdRes} (hstatus : res.status < 2 ^ 64)
    (hlen : res.encode.length < 2 ^ 64) : RepoCmdRes.decode res.encode = some res := by
  have hnni := decodeNni_nniOctets hstatus
  rw [RepoCmdRes.encode_eq] at hlen ⊢
  split at hlen
  next hempty =>
    have hmessage := String.isEmpty_iff.mp hempty
    have hblocks := blocks_writeTlvs (by simp [TlvType.resStatus]) hlen
    rw [RepoCmdRes.decode, if_pos hempty, hblocks]
    simp [decodeRepoCmdResField, hnni, ← hmessage]
  next hempty =>
    have hblocks := blocks_writeTlvs (by simp [TlvType.resStatus, TlvType.resMessage]) hlen
    have htext : String.fromUTF8? ⟨res.message.toByteArray.data⟩ = some res.message :=
      dif_pos res.message.isValidUTF8
    have hne : TlvType.resMessage ≠ TlvType.resStatus := by decide
    rw [RepoCmdRes.decode, if_neg hempty, hblocks]
    simp [decodeRepoCmdResField, hnni, htext, hne]

/-- The wire of a command is one of its wires, and every wire of it is read as the
command; the wire of an answer is read as the answer. -/
theorem commands_read_as_written :
    (∀ cmd : RepoCmd Name, cmd.Rearranged cmd.encode) ∧
      (∀ (cmd : RepoCmd Name) (wire : Bytes), cmd.Rearranged wire → cmd.Fits →
        wire.length < 2 ^ 64 → RepoCmd.decode wire = some cmd) ∧
      ∀ res : RepoCmdRes, res.status < 2 ^ 64 → res.encode.length < 2 ^ 64 →
        RepoCmdRes.decode res.encode = some res :=
  ⟨RepoCmd.encode_rearranged, fun _ _ => RepoCmd.decode_of_rearranged,
    fun _ => RepoCmdRes.decode_encode⟩

end RoundTrip

/-- A join with a threshold. -/
def thresholdJoin : SyncJoin TypedName where
  protocol := none
  group := some [(8, ascii "g")]
  multicastPrefix := none
  historyThreshold := some 300
  securityConfig := some []

/-- The fields of `thresholdJoin` backwards and with blocks of other types. -/
def thresholdFields [NdnTlvWriter] : List (ℕ × Bytes) :=
  nameField TlvType.securityConfig thresholdJoin.securityConfig ++
    [(9, [1, 2]), (TlvType.historySnapshot, writeTlvs ((9, []) :: thresholdJoin.inner))] ++
    nameField TlvType.group thresholdJoin.group ++ [(TlvType.blobName, [])]

theorem commands_read_as_written_threshold :
    letI := blockTlvWriter
    RepoCmd.decode (writeTlv TlvType.syncJoin (writeTlvs thresholdFields)) =
        some (.syncJoin thresholdJoin) ∧
      RepoCmdRes.decode (RepoCmdRes.err 500 "boom").encode = some (.err 500 "boom") := by
  let _ := blockTlvWriter
  have hwire : (RepoCmd.syncJoin thresholdJoin).Rearranged
      (writeTlv TlvType.syncJoin (writeTlvs thresholdFields)) :=
    @RepoCmd.Rearranged.syncJoin _ _ _ _ ((9, []) :: thresholdJoin.inner) _
      (by decide +kernel) (by decide +kernel) (by decide +kernel)
  have hfits : (RepoCmd.syncJoin thresholdJoin).Fits := by simp [RepoCmd.Fits, thresholdJoin]
  exact ⟨commands_read_as_written.2.1 _ _ hwire hfits (by decide +kernel),
    (@commands_read_as_written TypedName _ _).2.2 _ (by decide) (by decide +kernel)⟩

end NdnRepo
