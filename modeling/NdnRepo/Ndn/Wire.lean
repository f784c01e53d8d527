import NdnRepo.Lib.Fields
import NdnRepo.Lib.Tlv
import NdnRepo.Ndn.Packet

/-!
# TLV blocks and Data packets

What the repository uses of the crates that read and write packets.  `readTlv`
takes one block off some bytes, and all that is known of it is that it consumes
some of them.  A Data packet has a name and may have a content.  Where packets are
written too, reading is known to invert writing.

The instances for `Components` and `TypedName` run the model on small inputs.
-/

namespace NdnRepo

/-- The octets of an ASCII text. -/
def ascii (text : String) : Bytes := text.toList.map fun c => UInt8.ofNat c.toNat

/-- The `ndn_tlv` crate. -/
class NdnTlv where
  /-- `TlvReader::read_tlv`: the type and value of the first block, and the bytes
  after it. -/
  readTlv : Bytes → Option (ℕ × Bytes × Bytes)
  /-- Reading a block consumes bytes. -/
  readTlv_lt {bytes value rest : Bytes} {typ : ℕ} :
    readTlv bytes = some (typ, value, rest) → rest.length < bytes.length

export NdnTlv (readTlv)

/-- How `ndn_packet::Name` is read, and the components `append` does not make. -/
class NameTlv (Name : Type) where
  /-- `Name::decode_from_tlv`. -/
  decodeFromTlv : Bytes → Option Name
  /-- Append a `NameComponent::keyword`. -/
  appendKeyword : Name → Bytes → Name
  /-- `Name::append_version`. -/
  appendVersion : Name → ℕ → Name

/-- What is used of `ndn_packet::Data` and its builder. -/
class NdnData (Name : Type) where
  /-- A decoded packet. -/
  Data : Type
  /-- `Data::decode`. -/
  decode : Bytes → Option Data
  /-- `data.name`. -/
  name : Data → Name
  /-- `data.content()`. -/
  content : Data → Option Bytes
  /-- `DataBuilder::new(name, content).sign_digest_sha256()`. -/
  signDigest : Name → Bytes → Bytes

/-- The name in a name container. -/
def decodeNameContainer {Name : Type} [NameTlv Name] (value : Bytes) : Option Name :=
  NameTlv.decodeFromTlv value

/-- The blocks of some bytes.  Each takes an octet at least, so `fuel` may be
the number of octets. -/
def readTlvs [NdnTlv] : ℕ → Bytes → Option (List (ℕ × Bytes))
  | _, [] => some []
  | 0, _ :: _ => none
  | fuel + 1, bytes => do
      let (typ, value, rest) ← readTlv bytes
      let blocks ← readTlvs fuel rest
      return (typ, value) :: blocks

/-- `while !r.is_empty() { r.read_tlv()? }`: all blocks, or `none` if one is
malformed. -/
def blocks [NdnTlv] (bytes : Bytes) : Option (List (ℕ × Bytes)) := readTlvs bytes.length bytes

/-- The blocks before the first malformed one. -/
def readTlvsUpTo [NdnTlv] : ℕ → Bytes → List (ℕ × Bytes)
  | 0, _ => []
  | fuel + 1, bytes =>
      match readTlv bytes with
      | none => []
      | some (typ, value, rest) =>
          (typ, value) :: if rest.isEmpty then [] else readTlvsUpTo fuel rest

/-- `while let Ok(..) = r.read_tlv()`, left when nothing is left. -/
def blocksUpTo [NdnTlv] (bytes : Bytes) : List (ℕ × Bytes) := readTlvsUpTo bytes.length bytes

theorem readTlv_nil [NdnTlv] : readTlv ([] : Bytes) = none := by
  cases hread : readTlv ([] : Bytes) with
  | none => rfl
  | some block => exact absurd (NdnTlv.readTlv_lt hread) (Nat.not_lt_zero _)

theorem readTlvsUpTo_nil [NdnTlv] (fuel : ℕ) : readTlvsUpTo fuel ([] : Bytes) = [] := by
  cases fuel with
  | zero => rfl
  | succ fuel => simp [readTlvsUpTo, readTlv_nil]

theorem readTlvsUpTo_eq [NdnTlv] :
    ∀ {fuel : ℕ} {bytes : Bytes} {fields : List (ℕ × Bytes)}, bytes.length ≤ fuel →
      readTlvs fuel bytes = some fields → readTlvsUpTo fuel bytes = fields
  | 0, [], _, _, h => by
      cases h
      rfl
  | 0, _ :: _, _, _, h => by cases h
  | fuel + 1, [], _, _, h => by
      cases h
      exact readTlvsUpTo_nil _
  | fuel + 1, first :: tail, fields, hfuel, h => by
      simp only [readTlvs, bind, Option.bind_eq_some_iff, Prod.exists] at h
      obtain ⟨typ, value, rest, hread, blocks, hrest, h⟩ := h
      cases h
      have hlt := NdnTlv.readTlv_lt hread
      have ih := readTlvsUpTo_eq (by simp at hfuel hlt; omega) hrest
      cases rest with
      | nil =>
          have hnil : blocks = [] := by cases fuel <;> simpa [readTlvs] using hrest.symm
          simp [readTlvsUpTo, hread, hnil]
      | cons first' tail' => simp [readTlvsUpTo, hread, ih]

/-- Where no block is malformed these are all of them. -/
theorem blocksUpTo_eq [NdnTlv] {bytes : Bytes} {fields : List (ℕ × Bytes)}
    (h : blocks bytes = some fields) : blocksUpTo bytes = fields :=
  readTlvsUpTo_eq le_rfl h

/-! ## Writing -/

/-- The `ndn_tlv` crate where blocks are written.  Types are of type `u64`, and the
length of some bytes is a `usize`. -/
class NdnTlvWriter extends NdnTlv where
  /-- `TlvWriter::write_tlv`, and `write_nested` of what its argument writes. -/
  writeTlv : ℕ → Bytes → Bytes
  /-- Reading a block inverts writing it. -/
  readTlv_writeTlv {typ : ℕ} {value : Bytes} (rest : Bytes) : typ < 2 ^ 64 →
    value.length < 2 ^ 64 → readTlv (writeTlv typ value ++ rest) = some (typ, value, rest)
  /-- A block is no shorter than its value. -/
  length_le_writeTlv (typ : ℕ) (value : Bytes) : value.length ≤ (writeTlv typ value).length

export NdnTlvWriter (writeTlv)

/-- How `ndn_packet::Name` is written. -/
class NameTlvWriter (Name : Type) extends NameTlv Name where
  /-- `name.encode_to_tlv()`. -/
  encodeToTlv : Name → Bytes
  /-- Reading a name inverts writing it. -/
  decode_encode (name : Name) : (encodeToTlv name).length < 2 ^ 64 →
    decodeFromTlv (encodeToTlv name) = some name

/-- Blocks one after another. -/
def writeTlvs [NdnTlvWriter] (fields : List (ℕ × Bytes)) : Bytes :=
  (fields.map fun f => writeTlv f.1 f.2).flatten

/-- A type in a list of small ones is small. -/
theorem lt_of_contains {types : List ℕ} {typ : ℕ} (hsmall : ∀ t ∈ types, t < 2 ^ 64)
    (h : types.contains typ = true) : typ < 2 ^ 64 :=
  hsmall typ (List.contains_iff_mem.mp h)

section Blocks

variable [NdnTlvWriter]

@[simp] theorem writeTlvs_nil : writeTlvs [] = [] := rfl

@[simp] theorem writeTlvs_cons (f : ℕ × Bytes) (fields : List (ℕ × Bytes)) :
    writeTlvs (f :: fields) = writeTlv f.1 f.2 ++ writeTlvs fields := rfl

@[simp] theorem writeTlvs_append (fields fields' : List (ℕ × Bytes)) :
    writeTlvs (fields ++ fields') = writeTlvs fields ++ writeTlvs fields' := by
  simp [writeTlvs]

/-- A value is no longer than the blocks it is in. -/
theorem length_le_writeTlvs :
    ∀ {fields : List (ℕ × Bytes)} {f : ℕ × Bytes}, f ∈ fields →
      f.2.length ≤ (writeTlvs fields).length
  | g :: fields, f, hf => by
      rw [writeTlvs_cons, List.length_append]
      rcases List.mem_cons.mp hf with rfl | hf
      · have hblock := NdnTlvWriter.length_le_writeTlv f.1 f.2
        omega
      · have hrest := length_le_writeTlvs hf
        omega

/-- A block and nothing after it. -/
theorem readTlv_writeTlv_nil {typ : ℕ} {value : Bytes} (htyp : typ < 2 ^ 64)
    (hvalue : value.length < 2 ^ 64) : readTlv (writeTlv typ value) = some (typ, value, []) := by
  have h := NdnTlvWriter.readTlv_writeTlv [] htyp hvalue
  rwa [List.append_nil] at h

theorem readTlvs_writeTlvs :
    ∀ {fields : List (ℕ × Bytes)} {fuel : ℕ}, (∀ f ∈ fields, f.1 < 2 ^ 64) →
      (writeTlvs fields).length < 2 ^ 64 → (writeTlvs fields).length ≤ fuel →
        readTlvs fuel (writeTlvs fields) = some fields
  | [], fuel, _, _, _ => by cases fuel <;> rfl
  | f :: fields, fuel, htyp, hlen, hfuel => by
      have hvalue := (length_le_writeTlvs (List.mem_cons_self ..)).trans_lt hlen
      have hread := NdnTlvWriter.readTlv_writeTlv (writeTlvs fields)
        (htyp f (List.mem_cons_self ..)) hvalue
      have hlt := NdnTlv.readTlv_lt hread
      rw [← writeTlvs_cons] at hread hlt
      have ih : ∀ fuel, (writeTlvs fields).length ≤ fuel →
          readTlvs fuel (writeTlvs fields) = some fields := fun _ => readTlvs_writeTlvs
        (fun g hg => htyp g (List.mem_cons_of_mem _ hg)) (hlt.trans hlen)
      cases hbytes : writeTlvs (f :: fields) with
      | nil => rw [hbytes] at hlt; exact absurd hlt (Nat.not_lt_zero _)
      | cons first tail =>
          rw [hbytes] at hread hlt hfuel
          cases fuel with
          | zero => cases hfuel
          | succ fuel =>
              have hrest := ih fuel (by omega)
              simp [readTlvs, hread, hrest]

/-- Blocks that were written are read back. -/
theorem blocks_writeTlvs {fields : List (ℕ × Bytes)} (htyp : ∀ f ∈ fields, f.1 < 2 ^ 64)
    (hlen : (writeTlvs fields).length < 2 ^ 64) : blocks (writeTlvs fields) = some fields :=
  readTlvs_writeTlvs htyp hlen le_rfl

theorem readTlvsUpTo_writeTlvs {p : Bytes} (hcut : readTlv p = none) :
    ∀ {fields : List (ℕ × Bytes)} {fuel : ℕ}, (∀ f ∈ fields, f.1 < 2 ^ 64) →
      (writeTlvs fields).length < 2 ^ 64 → (writeTlvs fields ++ p).length ≤ fuel →
        readTlvsUpTo fuel (writeTlvs fields ++ p) = fields
  | [], fuel, _, _, _ => by
      cases fuel with
      | zero => rfl
      | succ fuel => simp [readTlvsUpTo, hcut]
  | f :: fields, fuel, htyp, hlen, hfuel => by
      have hvalue := (length_le_writeTlvs (List.mem_cons_self ..)).trans_lt hlen
      have hread := NdnTlvWriter.readTlv_writeTlv (writeTlvs fields ++ p)
        (htyp f (List.mem_cons_self ..)) hvalue
      have hlt := NdnTlv.readTlv_lt hread
      rw [writeTlvs_cons, List.length_append] at hlen
      rw [← List.append_assoc, ← writeTlvs_cons] at hread hlt
      cases fuel with
      | zero => omega
      | succ fuel =>
          have ih : readTlvsUpTo fuel (writeTlvs fields ++ p) = fields :=
            readTlvsUpTo_writeTlvs hcut (fun g hg => htyp g (List.mem_cons_of_mem _ hg))
              (by omega) (by omega)
          rw [readTlvsUpTo, hread]
          cases hrest : writeTlvs fields ++ p with
          | nil =>
              rw [hrest, readTlvsUpTo_nil] at ih
              rw [← ih]
              rfl
          | cons first tail =>
              rw [hrest] at ih
              simp [ih]

/-- Blocks that were written are read up to what cannot be. -/
theorem blocksUpTo_writeTlvs {fields : List (ℕ × Bytes)} {p : Bytes}
    (htyp : ∀ f ∈ fields, f.1 < 2 ^ 64) (hlen : (writeTlvs fields).length < 2 ^ 64)
    (hcut : readTlv p = none) : blocksUpTo (writeTlvs fields ++ p) = fields :=
  readTlvsUpTo_writeTlvs hcut htyp hlen le_rfl

/-- A name's field is read as the name. -/
theorem bind_decodeNameContainer {Name : Type} [NameTlvWriter Name] {fields : List (ℕ × Bytes)}
    {tag : ℕ} {name : Option Name}
    (h : Fields.last fields tag = name.map NameTlvWriter.encodeToTlv)
    (hlen : (writeTlvs fields).length < 2 ^ 64) :
    (Fields.last fields tag).bind decodeNameContainer = name := by
  cases name with
  | none => rw [h]; rfl
  | some name =>
      have hvalue := (length_le_writeTlvs (Fields.mem_of_last h)).trans_lt hlen
      rw [h]
      exact NameTlvWriter.decode_encode name hvalue

end Blocks

/-! ## Non-negative integers -/

/-- The fewest of 1, 2, 4 or 8 octets that hold a `u64`, big-endian. -/
def nniOctets (value : ℕ) : Bytes :=
  if value ≤ 2 ^ 8 - 1 then Octets.toBe 1 value
  else if value ≤ 2 ^ 16 - 1 then Octets.toBe 2 value
  else if value ≤ 2 ^ 32 - 1 then Octets.toBe 4 value
  else Octets.toBe 8 value

/-- A block that holds a non-negative integer. -/
def writeNni [NdnTlvWriter] (typ value : ℕ) : Bytes := writeTlv typ (nniOctets value)

/-- A big-endian integer.  Octets shifted out of the `u64` are lost. -/
def decodeNni (bytes : Bytes) : ℕ := bytes.foldl (fun v b => (v * 256 + b.toNat) % 2 ^ 64) 0

/-- Reducing at every octet is reducing at the end. -/
theorem foldl_mod (m : ℕ) :
    ∀ (bytes : Bytes) (v : ℕ), bytes.foldl (fun v b => (v * 256 + b.toNat) % m) (v % m) =
      bytes.foldl (fun v b => v * 256 + b.toNat) v % m
  | [], _ => rfl
  | b :: bytes, v => by
      have hhead : (v % m * 256 + b.toNat) % m = (v * 256 + b.toNat) % m := by
        rw [Nat.add_mod, Nat.mul_mod, Nat.mod_mod, ← Nat.mul_mod, ← Nat.add_mod]
      rw [List.foldl_cons, List.foldl_cons, hhead, foldl_mod m bytes]

theorem decodeNni_eq (bytes : Bytes) : decodeNni bytes = Octets.ofBe bytes % 2 ^ 64 := by
  have h := foldl_mod (2 ^ 64) bytes 0
  rw [Nat.zero_mod] at h
  exact h

/-- Decoding a `u64` inverts encoding it. -/
theorem decodeNni_nniOctets {value : ℕ} (h : value < 2 ^ 64) :
    decodeNni (nniOctets value) = value := by
  have hall : ∀ width, value < 256 ^ width → decodeNni (Octets.toBe width value) = value := by
    intro width hwidth
    rw [decodeNni_eq, Octets.ofBe_toBe_of_lt hwidth, Nat.mod_eq_of_lt h]
  unfold nniOctets
  split
  · exact hall 1 (by norm_num; omega)
  · split
    · exact hall 2 (by norm_num; omega)
    · split
      · exact hall 4 (by norm_num; omega)
      · exact hall 8 (by norm_num; omega)

/-- An integer's field is read as the integer. -/
theorem getD_decodeNni {fields : List (ℕ × Bytes)} {tag value : ℕ}
    (h : Fields.last fields tag = some (nniOctets value)) (hvalue : value < 2 ^ 64) :
    ((Fields.last fields tag).map decodeNni).getD 0 = value := by
  rw [h]
  exact decodeNni_nniOctets hvalue

/-! ## Small inputs -/

/-- Blocks as the packet format has them. -/
@[reducible] def blockTlv : NdnTlv := ⟨Tlv.read, Tlv.read_lt⟩

/-- A component from its type and value. -/
def component (typ : ℕ) (value : Bytes) : List ℕ := typ :: value.length :: value.map UInt8.toNat

instance [NdnTlv] : NameTlv Components where
  decodeFromTlv := fun bytes =>
    match readTlv bytes with
    | some (7, value, []) => (blocks value).map fun cs => cs.map fun c => component c.1 c.2
    | _ => none
  appendKeyword := fun name value => name ++ [component 32 value]
  appendVersion := fun name v => name ++ [component 54 (Octets.toBe 1 v)]

/-- The name block of a name. -/
def nameBlock (name : Components) : Bytes :=
  Tlv.write 7 (name.map fun c => Tlv.write (c.headD 0) ((c.drop 2).map UInt8.ofNat)).flatten

/-- A Data packet as its name and the blocks after the name. -/
structure BlockData where
  /-- The name. -/
  name : Components
  /-- The blocks after the name: content (21), signature info (22) and value (23). -/
  rest : List (ℕ × Bytes)
deriving DecidableEq

instance [NdnTlv] [Sha2] : NdnData Components where
  Data := BlockData
  decode := fun bytes => do
    let (6, body, []) ← readTlv bytes | none
    let (7, _, rest) ← readTlv body | none
    let name ← NameTlv.decodeFromTlv (body.take (body.length - rest.length))
    let rest ← blocks rest
    return ⟨name, rest⟩
  name := BlockData.name
  content := fun data => data.rest.lookup 21
  signDigest := fun name content =>
    let signed := nameBlock name ++ (Tlv.write 21 content ++ Tlv.write 22 (Tlv.write 27 [0]))
    Tlv.write 6 (signed ++ Tlv.write 23 (sha256 signed).1)

/-- Blocks as the packet format has them, written and read. -/
@[reducible] def blockTlvWriter : NdnTlvWriter :=
  { blockTlv with
    writeTlv := Tlv.write
    readTlv_writeTlv := fun rest htyp hvalue => Tlv.read_write htyp hvalue rest
    length_le_writeTlv := Tlv.length_le_write }

/-- Names as components of a type and a value. -/
abbrev TypedName := List (UInt16 × Bytes)

/-- A name in its canonical form. -/
def TypedName.components (name : TypedName) : Components :=
  name.map fun c => component c.1.toNat c.2

theorem TypedName.components_injective : Function.Injective TypedName.components := by
  refine List.map_injective_iff.mpr ?_
  rintro ⟨typ, value⟩ ⟨typ', value'⟩ h
  simp only [component, List.cons.injEq] at h
  obtain ⟨htyp, -, hvalue⟩ := h
  have hinj : Function.Injective UInt8.toNat := fun _ _ => UInt8.toNat_inj.mp
  exact Prod.ext (UInt16.toNat_inj.mp htyp) (List.map_injective_iff.mpr hinj hvalue)

instance : NdnName TypedName :=
  { LinearOrder.lift' TypedName.components TypedName.components_injective with
    root := []
    append := fun name c => name ++ [(8, c)]
    hasPrefix := fun name under => under.isPrefixOf name
    display := fun name =>
      String.join (name.map fun c => "/" ++ String.ofList (c.2.map fun o => Char.ofNat o.toNat)) }

/-- The blocks of a name's components. -/
def TypedName.fields (name : TypedName) : List (ℕ × Bytes) :=
  name.map fun c => (c.1.toNat, c.2)

instance [NdnTlvWriter] : NameTlvWriter TypedName where
  decodeFromTlv := fun bytes =>
    match readTlv bytes with
    | some (7, value, []) => (blocks value).map fun cs => cs.map fun c => (UInt16.ofNat c.1, c.2)
    | _ => none
  appendKeyword := fun name value => name ++ [(32, value)]
  appendVersion := fun name v => name ++ [(54, nniOctets v)]
  encodeToTlv := fun name => writeTlv 7 (writeTlvs (TypedName.fields name))
  decode_encode := fun name hlen => by
    have hbody := (NdnTlvWriter.length_le_writeTlv 7 _).trans_lt hlen
    have hread := readTlv_writeTlv_nil (by norm_num : 7 < 2 ^ 64) hbody
    have htyp : ∀ f ∈ TypedName.fields name, f.1 < 2 ^ 64 := by
      intro f hf
      obtain ⟨c, -, rfl⟩ := List.mem_map.mp hf
      exact c.1.toNat_lt.trans (by norm_num)
    have hmap : (TypedName.fields name).map (fun c => (UInt16.ofNat c.1, c.2)) = name := by
      simp [TypedName.fields, Function.comp_def]
    rw [hread]
    exact (congrArg (Option.map _) (blocks_writeTlvs htyp hbody)).trans (congrArg some hmap)

end NdnRepo
