import NdnRepo.Repo.Books
import NdnRepo.Repo.CmdCodec

/-!
# Malformed fields of commands

The decoder of a command refuses a block it cannot read, in the body and in a snapshot
container.  What is in the block of a field it does not check: a name that does not
decode becomes no name, and a threshold of any width is read modulo `2^64`.

So a command is accepted as soon as its blocks can be read (`RepoCmd.decode_eq_some_iff`), and
it says what its bytes say exactly if no field is malformed (`strict_iff_wellFormed`).
-/

namespace NdnRepo

open Fields

/-! ## What the bytes say -/

section Bytes

variable [NdnTlv]

/-- The type of a command's block and the blocks of its body. -/
def commandFields (value : Bytes) : Option (ℕ × List (ℕ × Bytes)) := do
  let (typ, val, _) ← readTlv value
  let fields ← blocks val
  return (typ, fields)

omit [NdnTlv] in
/-- The types of the fields of a variant that hold a name. -/
def nameTypes (typ : ℕ) : List ℕ :=
  if typ = TlvType.syncJoin then
    [TlvType.protocol, TlvType.group, TlvType.multicastPrefix, TlvType.securityConfig]
  else if typ = TlvType.syncLeave then [TlvType.protocol, TlvType.group]
  else if typ = TlvType.blobFetch then [TlvType.blobName]
  else []

/-- The thresholds in the snapshot containers among some fields. -/
def thresholds (fields : List (ℕ × Bytes)) : List Bytes :=
  (all fields TlvType.historySnapshot).flatMap fun v =>
    all ((blocks v).getD []) TlvType.historyThreshold

/-- The fields are those of a variant, and their blocks can be read. -/
structure Framed (typ : ℕ) (fields : List (ℕ × Bytes)) : Prop where
  /-- The type is that of a variant. -/
  typ_mem : typ ∈ [TlvType.syncJoin, TlvType.syncLeave, TlvType.blobFetch]
  /-- The snapshot containers of a `SyncJoin` hold blocks. -/
  snapshots : typ = TlvType.syncJoin →
    ∀ v ∈ all fields TlvType.historySnapshot, (blocks v).isSome

/-- No field that the variant recognises is malformed. -/
structure WellFormed (Name : Type) [NameTlv Name] (typ : ℕ) (fields : List (ℕ × Bytes)) :
    Prop where
  /-- A name container holds a name. -/
  names : ∀ field ∈ fields, field.1 ∈ nameTypes typ →
    (decodeNameContainer field.2 : Option Name).isSome
  /-- A threshold has 1, 2, 4 or 8 octets. -/
  widths : typ = TlvType.syncJoin → ∀ v ∈ thresholds fields, v.length ∈ [1, 2, 4, 8]

variable {Name : Type} [NameTlv Name]

/-- The command that some fields are, each field read from its last block. -/
def commandOf (integer : Bytes → ℕ) (typ : ℕ) (fields : List (ℕ × Bytes)) :
    Option (RepoCmd Name) :=
  let name (tag : ℕ) : Option Name := (last fields tag).bind decodeNameContainer
  if typ = TlvType.syncJoin then
    some (.syncJoin ⟨name TlvType.protocol, name TlvType.group, name TlvType.multicastPrefix,
      (thresholds fields).getLast?.map integer, name TlvType.securityConfig⟩)
  else if typ = TlvType.syncLeave then
    some (.syncLeave ⟨name TlvType.protocol, name TlvType.group⟩)
  else if typ = TlvType.blobFetch then
    some (.blobFetch ⟨name TlvType.blobName, all fields TlvType.blobData⟩)
  else none

end Bytes

/-! ## What is accepted -/

section Decode

variable {Name : Type} [NameTlv Name] [NdnTlv]

omit [NameTlv Name] in
theorem lastThreshold_eq (fields : List (ℕ × Bytes)) :
    lastThreshold (all fields TlvType.historySnapshot) =
      (thresholds fields).getLast?.map decodeNni := by
  rw [thresholds]
  induction all fields TlvType.historySnapshot using List.reverseRecOn with
  | nil => rfl
  | append_singleton containers v ih =>
      rw [lastThreshold, List.foldl_append, List.foldl_cons, List.foldl_nil, ← lastThreshold, ih,
        List.flatMap_append, List.flatMap_singleton, List.getLast?_append]
      rw [last]
      cases (all ((blocks v).getD []) TlvType.historyThreshold).getLast? <;> rfl

/-- A `SyncJoin` is refused if a snapshot container cannot be read. -/
theorem snapshots_of_foldlM {j : SyncJoin Name} : ∀ {fields : List (ℕ × Bytes)}
    {i : SyncJoin Name}, fields.foldlM decodeSyncJoinField i = some j →
      ∀ v ∈ all fields TlvType.historySnapshot, (blocks v).isSome
  | [], _, _ => by simp
  | (typ, val) :: fields, i, h => by
      rw [List.foldlM_cons, Option.bind_eq_bind, Option.bind_eq_some_iff] at h
      obtain ⟨i', hfield, hrest⟩ := h
      have ih := snapshots_of_foldlM hrest
      intro v hv
      rw [all_cons] at hv
      split at hv
      next htyp =>
        rcases List.mem_cons.mp hv with rfl | hv
        · simp only at htyp
          subst htyp
          simp only [decodeSyncJoinField, TlvType.historySnapshot, TlvType.protocol,
            TlvType.group, TlvType.multicastPrefix, Nat.reduceEqDiff, if_false, if_true,
            Option.bind_eq_bind, Option.bind_eq_some_iff] at hfield
          obtain ⟨inner, hinner, -⟩ := hfield
          rw [hinner]
          rfl
        · exact ih v hv
      next => exact ih v hv

/-- Nothing is accepted without its blocks. -/
theorem RepoCmd.decode_eq_none {value : Bytes} (h : commandFields value = none) :
    (RepoCmd.decode value : Option (RepoCmd Name)) = none := by
  rw [RepoCmd.decode]
  cases hread : readTlv value with
  | none => rfl
  | some block =>
      obtain ⟨typ, val, rest⟩ := block
      cases hblocks : blocks val with
      | none => simp [decodeSyncJoin, decodeSyncLeave, decodeBlobFetch, hblocks]
      | some fields => simp [commandFields, hread, hblocks] at h

theorem RepoCmd.decode_eq {value : Bytes} {typ : ℕ} {fields : List (ℕ × Bytes)}
    (h : commandFields value = some (typ, fields)) :
    (RepoCmd.decode value : Option (RepoCmd Name)) =
      if typ = TlvType.syncJoin then
        (fields.foldlM decodeSyncJoinField {}).map RepoCmd.syncJoin
      else commandOf decodeNni typ fields := by
  simp only [commandFields, Option.bind_eq_bind, Option.bind_eq_some_iff, Option.pure_def,
    Option.some.injEq, Prod.mk.injEq, Prod.exists] at h
  obtain ⟨_, val, rest, hread, _, hblocks, rfl, rfl⟩ := h
  rw [RepoCmd.decode, hread]
  simp only [Option.bind_eq_bind, Option.bind_some, decodeSyncJoin, decodeSyncLeave,
    decodeBlobFetch, hblocks, Option.pure_def, decodeSyncLeave_eq, decodeBlobFetch_eq,
    Option.map_eq_map, Option.map_some, commandOf]
  split
  next => rfl
  next => rfl

/-- A command is accepted exactly if its blocks can be read. -/
theorem RepoCmd.decode_eq_some_iff {value : Bytes} {cmd : RepoCmd Name} :
    RepoCmd.decode value = some cmd ↔ ∃ typ fields, commandFields value = some (typ, fields) ∧
      Framed typ fields ∧ commandOf decodeNni typ fields = some cmd := by
  constructor
  · intro h
    cases hfields : commandFields value with
    | none =>
        rw [decode_eq_none hfields] at h
        cases h
    | some body =>
        obtain ⟨typ, fields⟩ := body
        rw [decode_eq hfields] at h
        refine ⟨typ, fields, rfl, ?_⟩
        split at h
        next hjoin =>
          obtain ⟨j, hj, rfl⟩ := Option.map_eq_some_iff.mp h
          have hsnapshots := snapshots_of_foldlM hj
          refine ⟨⟨by simp [hjoin], fun _ => hsnapshots⟩, ?_⟩
          rw [decodeSyncJoin_eq fields hsnapshots, lastThreshold_eq] at hj
          simp [commandOf, hjoin, ← Option.some.inj hj]
        next hjoin =>
          refine ⟨⟨?_, fun htyp => absurd htyp hjoin⟩, h⟩
          by_contra hother
          simp only [List.mem_cons, List.not_mem_nil, or_false, not_or] at hother
          simp [commandOf, hother] at h
  · rintro ⟨typ, fields, hfields, ⟨-, hsnapshots⟩, hcmd⟩
    rw [decode_eq hfields]
    split
    next hjoin =>
      rw [decodeSyncJoin_eq fields (hsnapshots hjoin), lastThreshold_eq, Option.map_some, ← hcmd]
      simp [commandOf, hjoin]
    next => exact hcmd

/-! ## What is read -/

/-- The command accepted from some bytes has all that they say. -/
structure Strict (Name Store : Type) [NdnName Name] [NdnData Name] [NameTlv Name]
    [DataStore Name Store] (value : Bytes) : Prop where
  /-- The fields of a command that is accepted are well formed, and their values are in the
  command. -/
  accepted : ∀ cmd : RepoCmd Name, RepoCmd.decode value = some cmd →
    ∃ typ fields, commandFields value = some (typ, fields) ∧ WellFormed Name typ fields ∧
      commandOf Octets.ofBe typ fields = some cmd
  /-- A `SyncJoin` with a malformed field is refused. -/
  refused : ∀ fields, commandFields value = some (TlvType.syncJoin, fields) →
    ¬ WellFormed Name TlvType.syncJoin fields → ∀ repo : Repo Name Store,
      (repo.handleCommand value).1.status = 400 ∧ (repo.handleCommand value).2 = repo

/-- Integers of up to 8 octets are read as they are. -/
theorem WellFormed.commandOf_eq {typ : ℕ} {fields : List (ℕ × Bytes)}
    (h : WellFormed Name typ fields) :
    (commandOf decodeNni typ fields : Option (RepoCmd Name)) =
      commandOf Octets.ofBe typ fields := by
  unfold commandOf
  split
  next hjoin =>
    have hread : (thresholds fields).getLast?.map decodeNni =
        (thresholds fields).getLast?.map Octets.ofBe := by
      refine Option.map_congr fun v hv => ?_
      have hwidth := h.widths hjoin v (List.mem_of_getLast? hv)
      have hlt := Octets.ofBe_lt v
      rw [decodeNni_eq, Nat.mod_eq_of_lt]
      simp only [List.mem_cons, List.not_mem_nil, or_false] at hwidth
      rcases hwidth with hwidth | hwidth | hwidth | hwidth <;> rw [hwidth] at hlt <;>
        norm_num at hlt ⊢ <;> omega
    rw [hread]
  next => rfl

/-- A command says what its bytes say exactly if they cannot be read as blocks or no
field is malformed. -/
theorem strict_iff_wellFormed {Store : Type} [NdnName Name] [NdnData Name] [DataStore Name Store]
    (value : Bytes) : Strict Name Store value ↔ ∀ typ fields,
      commandFields value = some (typ, fields) → Framed typ fields →
        WellFormed Name typ fields := by
  constructor
  · intro hstrict typ fields hfields hframed
    obtain ⟨cmd, hcmd⟩ : ∃ cmd : RepoCmd Name, commandOf decodeNni typ fields = some cmd := by
      have htyp := hframed.typ_mem
      simp only [List.mem_cons, List.not_mem_nil, or_false] at htyp
      rcases htyp with rfl | rfl | rfl
      · exact ⟨_, rfl⟩
      · exact ⟨_, rfl⟩
      · exact ⟨_, rfl⟩
    obtain ⟨typ', fields', hfields', hwell, -⟩ :=
      hstrict.accepted cmd (RepoCmd.decode_eq_some_iff.mpr ⟨typ, fields, hfields, hframed, hcmd⟩)
    rw [hfields] at hfields'
    cases hfields'
    exact hwell
  · intro hwell
    refine ⟨fun cmd hcmd => ?_, fun fields hfields hmalformed repo => ?_⟩
    · obtain ⟨typ, fields, hfields, hframed, heq⟩ := RepoCmd.decode_eq_some_iff.mp hcmd
      have hform := hwell typ fields hfields hframed
      exact ⟨typ, fields, hfields, hform, hform.commandOf_eq ▸ heq⟩
    · have hnone : (RepoCmd.decode value : Option (RepoCmd Name)) = none := by
        by_contra hsome
        obtain ⟨cmd, hcmd⟩ := Option.ne_none_iff_exists'.mp hsome
        obtain ⟨typ, fields', hfields', hframed, -⟩ := RepoCmd.decode_eq_some_iff.mp hcmd
        rw [hfields] at hfields'
        cases hfields'
        exact hmalformed (hwell _ _ hfields hframed)
      simp [Repo.handleCommand, hnone, RepoCmdRes.err]

end Decode

/-- A `SyncJoin` of the group `/g` whose protocol is not a name. -/
def malformedJoin : Bytes :=
  Tlv.write TlvType.syncJoin
    (Tlv.write TlvType.protocol [9] ++ Tlv.write TlvType.group (nameBlock [[8, 1, 103]]))

/-- It is joined. -/
theorem joins_malformedJoin :
    letI := shortSha2
    letI := blockTlv
    ((Repo.new FjallStore.empty : Repo Components _).handleCommand malformedJoin).1.status = 200 ∧
      ¬ Strict Components (FjallStore Components) malformedJoin := by
  let _ := shortSha2
  let _ := blockTlv
  have hjoined : ((Repo.new FjallStore.empty : Repo Components _).handleCommand
      malformedJoin).1.status = 200 := by
    decide +kernel
  refine ⟨hjoined, fun h => ?_⟩
  have hfields : commandFields malformedJoin = some (TlvType.syncJoin,
      [(TlvType.protocol, [9]), (TlvType.group, nameBlock [[8, 1, 103]])]) := by
    decide +kernel
  have hmalformed : ¬ WellFormed Components TlvType.syncJoin
      [(TlvType.protocol, [9]), (TlvType.group, nameBlock [[8, 1, 103]])] := by
    intro hwell
    have hname := hwell.names (TlvType.protocol, [9]) (by simp) (by decide)
    exact absurd hname (by decide +kernel)
  have hrefused := (h.refused _ hfields hmalformed (Repo.new FjallStore.empty)).1
  rw [hjoined] at hrefused
  cases hrefused

end NdnRepo
