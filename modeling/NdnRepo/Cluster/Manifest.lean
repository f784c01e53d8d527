import NdnRepo.Cluster.Erasure

/-!
# The manifest on the wire

A manifest is written as a header of 20 octets, the object's name, and the digests of the
shards.  The header holds the number of shards and the length of the name, so it decides
the length of the whole (`Parses.length_eq`).  Hence no manifest is a proper prefix of
another (`Parses.eq_of_starts`), and one that is cut or continued is refused.

The main result is `fromBytes_exact`.
-/

namespace NdnRepo.Cluster

open Octets

/-- The component of a manifest's name. -/
def manifestKeyword : Bytes := ascii "manifest"

/-- The name of an object's manifest: `<object>/EC/manifest`. -/
def manifestName {Name : Type} [NdnName Name] (object : Name) : Name :=
  append (append object ecKeyword) manifestKeyword

/-- `b.get(start..stop)`. -/
def getRange (b : Bytes) (start stop : ℕ) : Option Bytes :=
  if start ≤ stop ∧ stop ≤ b.length then some (b.extract start stop) else none

namespace ErasureManifest

variable {Name : Type}

/-- The wire form: `k`, `n`, the lengths of the object, of a shard and of the name, all
big-endian, then the name and the digests. -/
def toBytes [NameTlvWriter Name] (m : ErasureManifest Name) : Bytes :=
  let nameTlv := NameTlvWriter.encodeToTlv m.object
  toBe 2 m.k ++ (toBe 2 m.n ++ (toBe 8 m.originalLen ++ (toBe 4 m.shardLen ++
    (toBe 4 nameTlv.length ++ (nameTlv ++ (m.shardHashes.map List.Vector.toList).flatten)))))

/-- Read the wire form. -/
def fromBytes [NameTlv Name] (b : Bytes) : Option (ErasureManifest Name) :=
  if b.length < 20 then none
  else do
    let k := ofBe (b.extract 0 2)
    let n := ofBe (b.extract 2 4)
    let originalLen := ofBe (b.extract 4 12)
    let shardLen := ofBe (b.extract 12 16)
    let nameEnd := 20 + ofBe (b.extract 16 20)
    let nameTlv ← getRange b 20 nameEnd
    let object ← NameTlv.decodeFromTlv nameTlv
    let hashes := b.drop nameEnd
    if hashes.length ≠ 32 * n then none
    else return ⟨object, k, n, originalLen, shardLen, asChunks 32 hashes⟩

/-! ## What is read -/

/-- Some bytes are the wire form of a manifest. -/
structure Parses [NameTlv Name] (b : Bytes) (m : ErasureManifest Name) : Prop where
  /-- There is a header. -/
  long : 20 ≤ b.length
  /-- It holds `k`. -/
  k : m.k = ofBe (b.extract 0 2)
  /-- It holds `n`. -/
  n : m.n = ofBe (b.extract 2 4)
  /-- It holds the object's length. -/
  originalLen : m.originalLen = ofBe (b.extract 4 12)
  /-- It holds the shards' length. -/
  shardLen : m.shardLen = ofBe (b.extract 12 16)
  /-- The name ends within the bytes. -/
  within : 20 + ofBe (b.extract 16 20) ≤ b.length
  /-- The name is read. -/
  object : NameTlv.decodeFromTlv (b.extract 20 (20 + ofBe (b.extract 16 20))) = some m.object
  /-- As many octets are left as `n` digests have. -/
  rest : b.length - (20 + ofBe (b.extract 16 20)) = 32 * m.n
  /-- They are the digests. -/
  hashes : m.shardHashes = asChunks 32 (b.drop (20 + ofBe (b.extract 16 20)))

theorem fromBytes_eq_some [NameTlv Name] {b : Bytes} {m : ErasureManifest Name} :
    fromBytes b = some m ↔ Parses b m := by
  constructor
  · intro h
    rw [fromBytes] at h
    split at h
    · cases h
    next hlong =>
      simp only [bind, Option.bind_eq_some_iff, getRange] at h
      obtain ⟨nameTlv, hrange, object, hobject, h⟩ := h
      split at hrange
      next hin =>
        obtain rfl := Option.some.inj hrange
        split at h
        · cases h
        next hrest =>
          obtain rfl := Option.some.inj h
          rw [List.length_drop] at hrest
          exact ⟨not_lt.mp hlong, rfl, rfl, rfl, rfl, hin.2, hobject, not_not.mp hrest, rfl⟩
      · cases hrange
  · intro h
    have hrange : getRange b 20 (20 + ofBe (b.extract 16 20)) =
        some (b.extract 20 (20 + ofBe (b.extract 16 20))) :=
      if_pos ⟨Nat.le_add_right _ _, h.within⟩
    have hrest : (b.drop (20 + ofBe (b.extract 16 20))).length = 32 * ofBe (b.extract 2 4) := by
      rw [List.length_drop, h.rest, h.n]
    rw [fromBytes, if_neg (not_lt.mpr h.long)]
    simp only [bind, hrange, Option.bind_some, h.object, hrest, ne_eq, not_true_eq_false, if_false]
    obtain ⟨object, k, n, originalLen, shardLen, shardHashes⟩ := m
    obtain ⟨-, rfl, rfl, rfl, rfl, -, -, -, rfl⟩ := h
    rfl

section Parses

variable [NameTlv Name] {b b' : Bytes} {m m' : ErasureManifest Name}

/-- The header decides the length. -/
theorem Parses.length_eq (h : Parses b m) :
    b.length = 20 + ofBe (b.extract 16 20) + 32 * m.n := by
  have hwithin := h.within
  have hrest := h.rest
  omega

theorem Parses.length_hashes (h : Parses b m) : m.shardHashes.length = m.n := by
  rw [h.hashes, length_asChunks, List.length_drop, h.rest, Nat.mul_div_cancel_left _ (by norm_num)]

/-- What is read is no proper prefix of what is read. -/
theorem Parses.eq_of_starts (h : Parses b m) (h' : Parses b' m') (hb : b <+: b') : b = b' := by
  obtain ⟨tail, rfl⟩ := hb
  have hfield : ∀ start stop, stop ≤ 20 →
      (b ++ tail).extract start stop = b.extract start stop := by
    intro start stop hstop
    have hlong := h.long
    rcases le_or_gt stop start with hle | hlt
    · have hzero : stop - start = 0 := by omega
      simp [List.extract_eq_take_drop, hzero]
    · rw [List.extract_eq_take_drop, List.extract_eq_take_drop,
        List.drop_append_of_le_length (by omega),
        List.take_append_of_le_length (by rw [List.length_drop]; omega)]
  have hlen := h.length_eq
  have hlen' := h'.length_eq
  have hn : m'.n = m.n := by rw [h'.n, h.n, hfield 2 4 (by norm_num)]
  rw [hfield 16 20 le_rfl, hn, ← hlen, List.length_append] at hlen'
  have htail : tail = [] := List.eq_nil_of_length_eq_zero (by omega)
  rw [htail, List.append_nil]

end Parses

/-! ## What is written -/

variable [NameTlvWriter Name]

/-- The fields of a manifest are of their types, it has a digest for each shard, and its
object's name is not too long. -/
structure Fits (m : ErasureManifest Name) : Prop where
  /-- A `u16`. -/
  k : m.k < 2 ^ 16
  /-- A `u16`. -/
  n : m.n < 2 ^ 16
  /-- A `u64`. -/
  originalLen : m.originalLen < 2 ^ 64
  /-- A `u32`. -/
  shardLen : m.shardLen < 2 ^ 32
  /-- A digest for each shard. -/
  hashes : m.shardHashes.length = m.n
  /-- The length of the name fits its field. -/
  name : (NameTlvWriter.encodeToTlv m.object).length < 2 ^ 32

theorem parses_toBytes {m : ErasureManifest Name} (h : m.Fits) : Parses m.toBytes m := by
  have hk : m.toBytes.extract 0 2 = toBe 2 m.k := extract_field [] rfl rfl rfl
  have hn : m.toBytes.extract 2 4 = toBe 2 m.n := extract_field [toBe 2 m.k] rfl (by simp) (by simp)
  have hobjectLen : m.toBytes.extract 4 12 = toBe 8 m.originalLen :=
    extract_field [toBe 2 m.k, toBe 2 m.n] rfl (by simp) (by simp)
  have hshardLen : m.toBytes.extract 12 16 = toBe 4 m.shardLen :=
    extract_field [toBe 2 m.k, toBe 2 m.n, toBe 8 m.originalLen] rfl (by simp) (by simp)
  have hnameLen : ofBe (m.toBytes.extract 16 20) =
      (NameTlvWriter.encodeToTlv m.object).length := by
    have hfield : m.toBytes.extract 16 20 = toBe 4 (NameTlvWriter.encodeToTlv m.object).length :=
      extract_field [toBe 2 m.k, toBe 2 m.n, toBe 8 m.originalLen, toBe 4 m.shardLen] rfl
        (by simp) (by simp)
    rw [hfield, ofBe_toBe_of_lt (by simpa using h.name)]
  have hname : m.toBytes.extract 20 (20 + (NameTlvWriter.encodeToTlv m.object).length) =
      NameTlvWriter.encodeToTlv m.object :=
    extract_field [toBe 2 m.k, toBe 2 m.n, toBe 8 m.originalLen, toBe 4 m.shardLen,
      toBe 4 (NameTlvWriter.encodeToTlv m.object).length] rfl (by simp) rfl
  have hhashes : m.toBytes.drop (20 + (NameTlvWriter.encodeToTlv m.object).length) =
      (m.shardHashes.map List.Vector.toList).flatten :=
    drop_fields [toBe 2 m.k, toBe 2 m.n, toBe 8 m.originalLen, toBe 4 m.shardLen,
      toBe 4 (NameTlvWriter.encodeToTlv m.object).length, NameTlvWriter.encodeToTlv m.object]
      (by simp [toBytes]) (by simp; omega)
  have hlen : m.toBytes.length =
      20 + (NameTlvWriter.encodeToTlv m.object).length + 32 * m.n := by
    simp only [toBytes, List.length_append, toBe_length, length_flatten_toList, h.hashes]
    omega
  refine ⟨by omega, ?_, ?_, ?_, ?_, ?_, ?_, ?_, ?_⟩
  · rw [hk, ofBe_toBe_of_lt (by simpa using h.k)]
  · rw [hn, ofBe_toBe_of_lt (by simpa using h.n)]
  · rw [hobjectLen, ofBe_toBe_of_lt (by simpa using h.originalLen)]
  · rw [hshardLen, ofBe_toBe_of_lt (by simpa using h.shardLen)]
  · rw [hnameLen, hlen]
    omega
  · rw [hnameLen, hname, NameTlvWriter.decode_encode m.object (h.name.trans (by norm_num))]
  · rw [hnameLen, hlen]
    omega
  · rw [hnameLen, hhashes, asChunks_flatten (by norm_num)]

/-- The wire form of a manifest is read back, and nothing else that starts with it or that
it starts with is read.  What is read has a digest for each of its shards, and as many
octets as its header says. -/
theorem fromBytes_exact (Name : Type) [NameTlvWriter Name] :
    (∀ m : ErasureManifest Name, m.Fits →
      fromBytes m.toBytes = some m ∧
      (∀ b, b <+: m.toBytes → b ≠ m.toBytes →
        (fromBytes b : Option (ErasureManifest Name)) = none) ∧
      ∀ b, m.toBytes <+: b → b ≠ m.toBytes →
        (fromBytes b : Option (ErasureManifest Name)) = none) ∧
    ∀ (b : Bytes) (m : ErasureManifest Name), fromBytes b = some m →
      m.shardHashes.length = m.n ∧ b.length = 20 + ofBe (b.extract 16 20) + 32 * m.n := by
  refine ⟨fun m hm => ?_, fun b m h => ?_⟩
  · have hparses := parses_toBytes hm
    refine ⟨fromBytes_eq_some.mpr hparses, fun b hb hne => ?_, fun b hb hne => ?_⟩
    · refine Option.eq_none_iff_forall_ne_some.mpr fun m' hread => hne ?_
      exact (fromBytes_eq_some.mp hread).eq_of_starts hparses hb
    · refine Option.eq_none_iff_forall_ne_some.mpr fun m' hread => hne ?_
      exact (hparses.eq_of_starts (fromBytes_eq_some.mp hread) hb).symm
  · have hparses := fromBytes_eq_some.mp h
    exact ⟨hparses.length_hashes, hparses.length_eq⟩

end ErasureManifest

/-- The manifest of an object `/a` of two octets, in two segments and a parity. -/
def smallManifest [Sha2] : ErasureManifest TypedName :=
  ⟨[(8, ascii "a")], 2, 3, 2, 1, [sha256 [1], sha256 [2], sha256 [3]]⟩

theorem fromBytes_exact_smallManifest :
    letI := shortSha2
    letI := blockTlvWriter
    ErasureManifest.fromBytes smallManifest.toBytes = some smallManifest ∧
      (ErasureManifest.fromBytes (smallManifest.toBytes ++ [0]) :
        Option (ErasureManifest TypedName)) = none := by
  let _ := shortSha2
  let _ := blockTlvWriter
  have hfits : smallManifest.Fits := by
    constructor <;> decide +kernel
  obtain ⟨hread, -, hlonger⟩ := (ErasureManifest.fromBytes_exact TypedName).1 smallManifest hfits
  exact ⟨hread, hlonger _ (List.prefix_append _ _) (by simp)⟩

end NdnRepo.Cluster
