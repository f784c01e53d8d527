import NdnRepo.Cluster.Manifest
import NdnRepo.Lib.CopyCodec

/-!
# What a manifest says of its shards

The manifest that comes with an object's shards describes them (`Describes`), but for
one field.  The length of a shard is cast to 32 bits, so it is wrong for an object with
source segments of `2 ^ 32` octets or more (`describes_iff`).

A manifest that is read may say anything of the object's length.  What is put together
from the shards it verifies is cut to that length but not compared with it, and the room
for it is taken beforehand.  A buffer of more than `maxCapacity` octets ends the call in a
panic (`reconstructCall`).  So a call returns the whole object or none exactly if `k` of the
shards that verify have as many octets as the object, and no more than a buffer
(`allOrNothing_iff`).
-/

namespace NdnRepo.Cluster

open Coding Octets

/-! ## Names of shards -/

/-- A number is printed in digits. -/
theorem isDigit_of_mem_toString {i : ℕ} {c : Char} (hc : c ∈ (toString i).toList) :
    c.isDigit = true := by
  rw [Nat.toString_eq_ofList_toDigits, String.toList_ofList] at hc
  exact Nat.isDigit_of_mem_toDigits (by norm_num) (by norm_num) hc

/-- A printed number is read back from its octets. -/
theorem chars_ascii_toString (i : ℕ) :
    (ascii (toString i)).map (fun o => Char.ofNat o.toNat) = (toString i).toList := by
  have hchars : (toString i).toList.map (fun c => Char.ofNat (UInt8.ofNat c.toNat).toNat) =
      (toString i).toList.map id := by
    refine List.map_congr_left fun c hc => ?_
    have hdigit : c.toNat ≤ 57 := (Char.isDigit_iff_toNat.mp (isDigit_of_mem_toString hc)).2
    rw [UInt8.toNat_ofNat', Nat.mod_eq_of_lt (hdigit.trans_lt (by norm_num)), Char.ofNat_toNat, id]
  rw [ascii, List.map_map]
  exact hchars.trans (List.map_id _)

theorem ascii_toString_injective {i j : ℕ} (h : ascii (toString i) = ascii (toString j)) :
    i = j := by
  have hchars := congrArg (List.map fun o : UInt8 => Char.ofNat o.toNat) h
  rw [chars_ascii_toString, chars_ascii_toString] at hchars
  exact Nat.repr_injective (String.toList_inj.mp hchars)

theorem ascii_toString_ne_manifestKeyword (i : ℕ) : ascii (toString i) ≠ manifestKeyword := by
  intro h
  have hm : 'm' ∈ (toString i).toList := by
    rw [← chars_ascii_toString, h]
    decide +kernel
  exact absurd (isDigit_of_mem_toString hm) (by decide)

/-! ## Source segments -/

/-- How many zeros the last source segments are filled up with. -/
theorem sourceSegments_padding {k : ℕ} (hk : 1 ≤ k) (data : Bytes) :
    ∃ pad, (sourceSegments data k).flatten = data ++ List.replicate pad 0 ∧
      if data = [] then pad = k else pad < k := by
  have hroom := le_segmentLen_mul hk data.length
  refine ⟨segmentLen k data.length * k - data.length, ?_, ?_⟩
  · have hlen : (resize data (segmentLen k data.length * k) 0).length ≤
        k * segmentLen k data.length := by rw [resize_length, Nat.mul_comm]
    rw [sourceSegments, flatten_chunks, List.take_of_length_le hlen, resize,
      List.take_of_length_le hroom]
  · split
    next hnil =>
      have hceil : divCeil 0 k ≤ 1 := (divCeil_le_iff hk).mpr (Nat.zero_le _)
      rw [hnil, List.length_nil, segmentLen, max_eq_right hceil]
      omega
    next hne =>
      have hpos : 0 < data.length := List.length_pos_iff.mpr hne
      have hceil : 1 ≤ divCeil data.length k := by
        rw [Nat.one_le_iff_ne_zero]
        intro hzero
        have hle := (divCeil_le_iff hk).mp hzero.le
        omega
      have hlt : k * divCeil data.length k < data.length + k := mul_divCeil_lt hk
      rw [segmentLen, max_eq_left hceil, Nat.mul_comm]
      omega

/-- The length of a segment fits 32 bits if the object is not too long. -/
theorem segmentLen_lt_iff {k : ℕ} (hk : 1 ≤ k) (len : ℕ) :
    segmentLen k len < u32Bound ↔ len ≤ k * (u32Bound - 1) := by
  have hceil := divCeil_le_iff (a := len) (c := u32Bound - 1) hk
  rw [← hceil, segmentLen, max_lt_iff, u32Bound]
  omega

section Encoding

variable {Name : Type} [NdnName Name]

/-- Shards have different names, none of them that of the manifest, where names differ
that end in different components. -/
theorem shardName_injective
    (happend : ∀ (name : Name) (c c' : Bytes), append name c = append name c' → c = c')
    (manifest : ErasureManifest Name) :
    Function.Injective manifest.shardName ∧
      ∀ i, manifest.shardName i ≠ manifestName manifest.object :=
  ⟨fun _ _ h => ascii_toString_injective (happend _ _ _ h),
    fun i h => ascii_toString_ne_manifestKeyword i (happend _ _ _ h)⟩

/-! ## The manifest of an object -/

variable [Sha2]

/-- A manifest describes the shards of an object it comes with. -/
structure Describes (object : Name) (data : Bytes) (k redundancy : ℕ) (shards : List (Shard Name))
    (manifest : ErasureManifest Name) : Prop where
  /-- It has the parameters. -/
  params : manifest.object = object ∧ manifest.k = k ∧ manifest.n = k + redundancy
  /-- There are `n` shards, in order. -/
  indices : shards.map Shard.index = List.range (k + redundancy)
  /-- Their names are different. -/
  names : (shards.map Shard.name).Nodup
  /-- None is the manifest's. -/
  apart : manifestName object ∉ shards.map Shard.name
  /-- Each shard is as long as the manifest says. -/
  shardLen : ∀ s ∈ shards, s.bytes.length = manifest.shardLen
  /-- The object is. -/
  originalLen : manifest.originalLen = data.length
  /-- It has room in `k` shards. -/
  room : manifest.originalLen ≤ k * manifest.shardLen
  /-- The digests are those of the shards, in order. -/
  hashes : manifest.shardHashes = shards.map fun s => sha256 s.bytes
  /-- The source shards are the object and fewer than `k` zeros, or `k` zeros. -/
  padding : ∃ pad, ((shards.take k).map Shard.bytes).flatten = data ++ List.replicate pad 0 ∧
    if data = [] then pad = k else pad < k

omit [Sha2] in
/-- The fields of the shards a manifest indexes. -/
theorem map_shardsOf (manifest : ErasureManifest Name) (coded : List Bytes) :
    (shardsOf manifest coded).map Shard.index = List.range coded.length ∧
      (shardsOf manifest coded).map Shard.name =
        (List.range coded.length).map manifest.shardName ∧
      (shardsOf manifest coded).map Shard.bytes = coded := by
  refine ⟨?_, ?_, ?_⟩
  · exact List.ext_getElem (by simp [shardsOf]) (by simp [shardsOf])
  · exact List.ext_getElem (by simp [shardsOf]) (by simp [shardsOf])
  · exact List.ext_getElem (by simp [shardsOf]) (by simp [shardsOf])

section Described

variable [Codec UInt8] {k r : ℕ} {object : Name} {data : Bytes} {coded : List Bytes}

omit [Sha2] in
/-- Shards are as long as a source segment. -/
theorem length_of_mem_shardsOf (law : Lawful UInt8 k (k + r))
    (hcoded : codeword k (k + r) (sourceSegments data k) = .ok coded)
    {manifest : ErasureManifest Name} :
    ∀ s ∈ shardsOf manifest coded, s.bytes.length = segmentLen k data.length := by
  obtain ⟨cw, hcw, hall⟩ := law.encodes (segmentLen_pos k data.length)
    (sourceSegments_length data k) (sourceSegments_allLength data k)
  obtain rfl := Except.ok.inj (hcw.symm.trans hcoded)
  obtain ⟨-, -, hbytes⟩ := map_shardsOf manifest cw
  intro s hs
  exact hall _ (hbytes ▸ List.mem_map_of_mem hs)

/-- A manifest describes its shards if their length fits its field. -/
theorem describes_manifestOf_iff
    (happend : ∀ (name : Name) (c c' : Bytes), append name c = append name c' → c = c')
    (law : Lawful UInt8 k (k + r)) (hk : 1 ≤ k)
    (hcoded : codeword k (k + r) (sourceSegments data k) = .ok coded) :
    Describes object data k r (shardsOf (manifestOf object data k (k + r) coded) coded)
        (manifestOf object data k (k + r) coded) ↔ segmentLen k data.length < u32Bound := by
  obtain ⟨hindex, hname, hbytes⟩ := map_shardsOf (manifestOf object data k (k + r) coded) coded
  have hlen : coded.length = k + r :=
    codeword_length (Nat.le_add_right k r) (sourceSegments_length data k) hcoded
  have hshards : ∀ s ∈ shardsOf (manifestOf object data k (k + r) coded) coded,
      s.bytes.length = segmentLen k data.length := length_of_mem_shardsOf law hcoded
  constructor
  · intro h
    have hpos : 0 < (shardsOf (manifestOf object data k (k + r) coded) coded).length := by
      rw [← List.length_map (f := Shard.index), hindex, List.length_range, hlen]
      omega
    have hfirst := List.getElem_mem hpos
    have hfield := (h.shardLen _ hfirst).symm.trans (hshards _ hfirst)
    exact hfield ▸ Nat.mod_lt _ (by norm_num [u32Bound])
  · intro hfits
    have hfield : (manifestOf object data k (k + r) coded).shardLen =
        segmentLen k data.length := Nat.mod_eq_of_lt hfits
    obtain ⟨hinj, hapart⟩ :=
      shardName_injective happend (manifestOf object data k (k + r) coded)
    obtain ⟨parities, hsplit, -⟩ := codeword_eq_append hcoded
    refine ⟨⟨rfl, rfl, rfl⟩, by rw [hindex, hlen], ?_, ?_, ?_, rfl, ?_, ?_, ?_⟩
    · rw [hname]
      exact List.nodup_range.map hinj
    · rw [hname]
      intro hmem
      obtain ⟨i, -, hi⟩ := List.mem_map.mp hmem
      exact hapart i hi
    · intro s hs
      rw [hfield, hshards s hs]
    · rw [hfield, Nat.mul_comm]
      exact le_segmentLen_mul hk data.length
    · conv_lhs => rw [manifestOf, ← hbytes, List.map_map]
      rfl
    · have hsource : ((shardsOf (manifestOf object data k (k + r) coded) coded).take k).map
          Shard.bytes = sourceSegments data k := by
        rw [List.map_take, hbytes, hsplit, List.take_left' (sourceSegments_length data k)]
      rw [hsource]
      exact sourceSegments_padding hk data

/-- Every object is encoded.  Its manifest describes the shards exactly if the object is
not longer than `k` segments of `2 ^ 32 - 1` octets. -/
theorem describes_iff
    (happend : ∀ (name : Name) (c c' : Bytes), append name c = append name c' → c = c')
    (law : Lawful UInt8 k (k + r)) (hk : 1 ≤ k) (hn : k + r ≤ 255) (object : Name) (data : Bytes) :
    ∃ shards manifest, encodeObject object data k r = .ok (shards, manifest) ∧
      (Describes object data k r shards manifest ↔ data.length ≤ k * (u32Bound - 1)) := by
  obtain ⟨coded, hcoded, -, hok⟩ := encodeObject_eq_ok law hk hn object data
  refine ⟨_, _, hok, ?_⟩
  rw [describes_manifestOf_iff happend law hk hcoded, segmentLen_lt_iff hk]

end Described

end Encoding

/-- Typed names that end in different components are different. -/
theorem TypedName.append_inj (name : TypedName) (c c' : Bytes)
    (h : append name c = append name c') : c = c' := by
  have hlast := List.append_cancel_left (h : name ++ [((8 : UInt16), c)] = name ++ [(8, c')])
  cases hlast
  rfl

theorem describes_short :
    letI := shortSha2
    letI := xorCodec
    ∃ shards, encodeObject ([(8, ascii "a")] : TypedName) [1, 2] 2 1 =
        .ok (shards, smallManifest) ∧
      shards.map Shard.bytes = [[1], [2], [3]] ∧
      Describes ([(8, ascii "a")] : TypedName) [1, 2] 2 1 shards smallManifest := by
  let _ := shortSha2
  let _ := xorCodec
  obtain ⟨shards, manifest, hok, hiff⟩ := describes_iff TypedName.append_inj (r := 1)
    (lawful_xorCodec (.inr rfl)) (by norm_num) (by norm_num) [(8, ascii "a")] [1, 2]
  have hsmall : encodeObject ([(8, ascii "a")] : TypedName) [1, 2] 2 1 =
      .ok (shardsOf smallManifest [[1], [2], [3]], smallManifest) := rfl
  obtain ⟨rfl, rfl⟩ := Prod.mk.inj (Except.ok.inj (hok.symm.trans hsmall))
  exact ⟨_, hok, rfl, hiff.mpr (by decide)⟩

/-- An object of one segment of `2 ^ 32` octets.  The manifest says the shard is empty. -/
theorem not_describes_long :
    letI := shortSha2
    letI := copyCodec UInt8
    let data : Bytes := List.replicate (2 ^ 32) 0
    ∃ shards manifest, encodeObject ([(8, ascii "a")] : TypedName) data 1 0 =
        .ok (shards, manifest) ∧
      manifest.shardLen = 0 ∧ (∀ s ∈ shards, s.bytes.length = 2 ^ 32) ∧
      ¬Describes ([(8, ascii "a")] : TypedName) data 1 0 shards manifest := by
  let _ := shortSha2
  let _ := copyCodec UInt8
  intro data
  have hlen : segmentLen 1 data.length = 2 ^ 32 := by
    rw [List.length_replicate]
    decide
  have law : Lawful UInt8 1 (1 + 0) := lawful_copyCodec le_rfl
  obtain ⟨coded, hcoded, -, hok⟩ :=
    encodeObject_eq_ok law le_rfl (by norm_num) ([(8, ascii "a")] : TypedName) data
  refine ⟨_, _, hok, ?_, fun s hs => ?_, fun h => ?_⟩
  · rw [manifestOf, hlen]
    rfl
  · rw [length_of_mem_shardsOf law hcoded s hs, hlen]
  · have hfits := (describes_manifestOf_iff TypedName.append_inj law le_rfl hcoded).mp h
    rw [hlen] at hfits
    exact absurd hfits (by decide)

/-! ## What is put together -/

/-- Why a call does not return. -/
inductive Panic where
  /-- More than `isize::MAX` octets are asked for. -/
  | capacityOverflow
deriving DecidableEq

/-- `isize::MAX`, the octets a `Vec<u8>` can have room for. -/
def maxCapacity : ℕ := 2 ^ 63 - 1

/-- `Vec::with_capacity`. -/
def withCapacity (capacity : ℕ) : Except Panic Bytes :=
  if capacity ≤ maxCapacity then .ok [] else .error .capacityOverflow

/-- `Vec::extend_from_slice`. -/
def extendFromSlice (out seg : Bytes) : Except Panic Bytes :=
  if out.length + seg.length ≤ maxCapacity then .ok (out ++ seg) else .error .capacityOverflow

/-- A buffer takes the segments that it can have room for. -/
theorem foldlM_extendFromSlice :
    ∀ (segs : List Bytes) {out : Bytes}, out.length ≤ maxCapacity →
      segs.foldlM extendFromSlice out =
        if out.length + segs.flatten.length ≤ maxCapacity then .ok (out ++ segs.flatten)
          else .error .capacityOverflow
  | [], out, h => by
      rw [List.flatten_nil, List.length_nil, Nat.add_zero, if_pos h, List.append_nil]
      rfl
  | seg :: segs, out, h => by
      rw [List.foldlM_cons, List.flatten_cons, List.length_append, ← Nat.add_assoc, extendFromSlice]
      split
      next hroom =>
        have hlen : (out ++ seg).length ≤ maxCapacity := by rwa [List.length_append]
        have ih := foldlM_extendFromSlice segs hlen
        rw [List.length_append, List.append_assoc] at ih
        exact ih
      next hfull =>
        rw [if_neg fun hle => hfull ((Nat.le_add_right _ _).trans hle)]
        rfl

section Reconstruction

variable {Name : Type}

/-- The object of recovered segments, in a buffer of the length the manifest says. -/
def putTogether (manifest : ErasureManifest Name) (segs : List Bytes) : Except Panic Bytes := do
  let out ← withCapacity manifest.originalLen
  let out ← (segs.take manifest.k).foldlM extendFromSlice out
  return out.take manifest.originalLen

/-- The object is put together if its length and that of the segments are not too large. -/
theorem putTogether_eq (manifest : ErasureManifest Name) (segs : List Bytes) :
    putTogether manifest segs =
      if manifest.originalLen ≤ maxCapacity ∧
          (segs.take manifest.k).flatten.length ≤ maxCapacity then
        .ok ((segs.take manifest.k).flatten.take manifest.originalLen)
      else .error .capacityOverflow := by
  rw [putTogether, withCapacity]
  by_cases hlen : manifest.originalLen ≤ maxCapacity
  · have hempty : ([] : Bytes).length ≤ maxCapacity := Nat.zero_le _
    have hfold := foldlM_extendFromSlice (segs.take manifest.k) hempty
    rw [List.length_nil, Nat.zero_add, List.nil_append] at hfold
    simp only [hlen, if_true, true_and, bind, Except.bind, hfold]
    by_cases hroom : (segs.take manifest.k).flatten.length ≤ maxCapacity
    · rw [if_pos hroom, if_pos hroom]
      rfl
    · rw [if_neg hroom, if_neg hroom]
  · simp only [hlen, if_false, false_and]
    rfl

variable [Sha2] [Codec UInt8]

/-- What a call of `reconstruct` does. -/
structure Call where
  /-- The shards its decoder absorbs. -/
  absorbed : List (ℕ × Bytes)
  /-- The capacity of its buffer, if it asks for one. -/
  reserved : Option ℕ
  /-- How it ends. -/
  ending : Except Panic (Option Bytes)
deriving DecidableEq

/-- `reconstruct`, with its buffer. -/
def reconstructCall (manifest : ErasureManifest Name) (shards : List (ℕ × Bytes)) : Call :=
  match Codec.newDecoder (α := UInt8) manifest.k manifest.n with
  | .error _ => ⟨[], none, .ok none⟩
  | .ok start =>
      let absorbed := absorbedUntil start [] (shards.filter manifest.verifies)
      let dec := absorbUntil start (shards.filter manifest.verifies)
      if Codec.isComplete dec then
        match Codec.recover dec with
        | .error _ => ⟨absorbed, none, .ok none⟩
        | .ok segs => ⟨absorbed, some manifest.originalLen, (putTogether manifest segs).map some⟩
      else ⟨absorbed, none, .ok none⟩

section Cases

variable {manifest : ErasureManifest Name} {shards : List (ℕ × Bytes)} {start : Codec.Decoder UInt8}

/-- Without `k` shards there is no object. -/
theorem reconstructCall_of_incomplete (hstart : Codec.newDecoder manifest.k manifest.n = .ok start)
    (hfew : Codec.isComplete (absorbUntil start (shards.filter manifest.verifies)) = false) :
    reconstructCall manifest shards =
        ⟨absorbedUntil start [] (shards.filter manifest.verifies), none, .ok none⟩ ∧
      reconstruct manifest shards = none := by
  rw [reconstructCall, reconstruct, hstart]
  simp [hfew]

/-- With `k` shards the segments are put together. -/
theorem reconstructCall_of_complete {segs : List Bytes}
    (hstart : Codec.newDecoder manifest.k manifest.n = .ok start)
    (hcomplete : Codec.isComplete (absorbUntil start (shards.filter manifest.verifies)) = true)
    (hrecover : Codec.recover (absorbUntil start (shards.filter manifest.verifies)) = .ok segs) :
    reconstructCall manifest shards =
        ⟨absorbedUntil start [] (shards.filter manifest.verifies), some manifest.originalLen,
          (putTogether manifest segs).map some⟩ ∧
      reconstruct manifest shards =
        some ((segs.take manifest.k).flatten.take manifest.originalLen) := by
  rw [reconstructCall, reconstruct, hstart]
  simp [hcomplete, hrecover]

/-- A call that returns gives what `reconstruct` does. -/
theorem reconstruct_of_ending {object : Option Bytes}
    (h : (reconstructCall manifest shards).ending = .ok object) :
    reconstruct manifest shards = object := by
  cases hstart : Codec.newDecoder (α := UInt8) manifest.k manifest.n with
  | error e =>
      rw [reconstructCall, hstart] at h
      rw [reconstruct, hstart]
      exact Except.ok.inj h
  | ok start =>
      cases hcomplete : Codec.isComplete (absorbUntil start (shards.filter manifest.verifies)) with
      | false =>
          obtain ⟨hcall, hnone⟩ := reconstructCall_of_incomplete hstart hcomplete
          rw [hcall] at h
          rw [hnone, Except.ok.inj h]
      | true =>
          cases hrecover : Codec.recover (absorbUntil start (shards.filter manifest.verifies)) with
          | error e =>
              rw [reconstructCall, hstart] at h
              rw [reconstruct, hstart]
              simp only [hcomplete, if_true, hrecover] at h ⊢
              exact Except.ok.inj h
          | ok segs =>
              obtain ⟨hcall, hsome⟩ := reconstructCall_of_complete hstart hcomplete hrecover
              rw [hcall, putTogether_eq] at h
              rw [hsome]
              simp only at h
              split at h
              · exact Except.ok.inj h
              · cases h

end Cases

/-- A call returns an object that is whole or none, and asks for no more room than the
shards have that it absorbs. -/
structure AllOrNothing (manifest : ErasureManifest Name) (shards : List (ℕ × Bytes)) : Prop where
  /-- It returns. -/
  returns : ∃ object, (reconstructCall manifest shards).ending = .ok object
  /-- An object is as long as the manifest says. -/
  whole : ∀ object, (reconstructCall manifest shards).ending = .ok (some object) →
    object.length = manifest.originalLen
  /-- The shards account for the buffer. -/
  bounded : ∀ capacity ∈ (reconstructCall manifest shards).reserved,
    capacity ≤ ((reconstructCall manifest shards).absorbed.map fun s => s.2.length).sum

/-- The verified shards as long as the first that fits have `k` indices. -/
structure Enough (fits : ℕ → Prop) [DecidablePred fits] (manifest : ErasureManifest Name)
    (shards : List (ℕ × Bytes)) (L : ℕ) : Prop where
  /-- There is a code with these numbers of shards. -/
  params : 1 ≤ manifest.k ∧ manifest.k ≤ manifest.n ∧ manifest.n ≤ 255
  /-- The first verified shard that fits has the length. -/
  first : ∃ s ∈ (fitting fits (shards.filter manifest.verifies)).head?, s.2.length = L
  /-- There are `k` shards of it. -/
  indices : manifest.k ≤ (indicesOf L (fitting fits (shards.filter manifest.verifies))).card

/-- Where there are enough shards, `k` of them are as long as the manifest says the object
is, or longer, and not too long for a buffer. -/
def Covered (fits : ℕ → Prop) [DecidablePred fits] (manifest : ErasureManifest Name)
    (shards : List (ℕ × Bytes)) : Prop :=
  ∀ L, Enough fits manifest shards L →
    manifest.originalLen ≤ manifest.k * L ∧ manifest.k * L ≤ maxCapacity

variable {fits : ℕ → Prop} [DecidablePred fits] {manifest : ErasureManifest Name}
  {shards : List (ℕ × Bytes)}

omit [Codec UInt8] in
/-- A shard of an index beyond the digests does not verify. -/
theorem index_lt_of_verifies {s : ℕ × Bytes} (h : manifest.verifies s = true) :
    s.1 < manifest.shardHashes.length := by
  rw [ErasureManifest.verifies] at h
  split at h
  next hash hget => exact (List.getElem?_eq_some_iff.mp hget).1
  next => cases h

/-- A call without enough shards gives no object.  With enough it takes room for the length
the manifest says and puts together segments of the shards' length. -/
theorem reconstructCall_cases (law : Uniform UInt8 fits manifest.k manifest.n)
    (hhashes : manifest.shardHashes.length = manifest.n) (shards : List (ℕ × Bytes)) :
    ((∀ L, ¬Enough fits manifest shards L) ∧
        (reconstructCall manifest shards).reserved = none ∧
        (reconstructCall manifest shards).ending = .ok none) ∨
      ∃ L segs, (∀ L', Enough fits manifest shards L' ↔ L' = L) ∧
        segs.length = manifest.k ∧ AllLength L segs ∧
        manifest.k * L ≤
          ((reconstructCall manifest shards).absorbed.map fun s => s.2.length).sum ∧
        (reconstructCall manifest shards).reserved = some manifest.originalLen ∧
        (reconstructCall manifest shards).ending = (putTogether manifest segs).map some := by
  cases hstart : Codec.newDecoder (α := UInt8) manifest.k manifest.n with
  | error e =>
      refine .inl ⟨fun L henough => ?_, ?_, ?_⟩
      · obtain ⟨start, hok⟩ := law.new.mpr henough.params
        rw [hstart] at hok
        cases hok
      · rw [reconstructCall, hstart]
      · rw [reconstructCall, hstart]
  | ok start =>
      have hparams := law.new.mp ⟨start, hstart⟩
      have hidx : ∀ s ∈ shards.filter manifest.verifies, s.1 < manifest.n := fun s hs =>
        hhashes ▸ index_lt_of_verifies (List.mem_filter.mp hs).2
      cases hhead : (fitting fits (shards.filter manifest.verifies)).head? with
      | none =>
          -- No shard fits, so none is absorbed.
          have hnil := List.head?_eq_none_iff.mp hhead
          obtain ⟨hiff, -⟩ := law.until hstart (L := 0) hidx (by rw [hhead]; simp)
          have hfew : Codec.isComplete (absorbUntil start (shards.filter manifest.verifies)) =
              false := by
            rw [Bool.eq_false_iff, ne_eq, hiff, hnil]
            exact Nat.not_le.mpr hparams.1
          obtain ⟨hcall, -⟩ := reconstructCall_of_incomplete hstart hfew
          rw [hcall]
          refine .inl ⟨fun L henough => ?_, rfl, rfl⟩
          obtain ⟨s, hs, -⟩ := henough.first
          rw [hhead] at hs
          cases hs
      | some s =>
          have hfirst : ∀ L', (∃ s' ∈ (fitting fits (shards.filter manifest.verifies)).head?,
              s'.2.length = L') ↔ L' = s.2.length := fun L' => by
            rw [hhead]
            simp [eq_comm]
          obtain ⟨hiff, hcomplete⟩ := law.until hstart (L := s.2.length) hidx
            (fun s' hs' => by rw [Option.some.inj (hhead.symm.trans hs')])
          cases hdone : Codec.isComplete (absorbUntil start (shards.filter manifest.verifies)) with
          | false =>
              obtain ⟨hcall, -⟩ := reconstructCall_of_incomplete hstart hdone
              rw [hcall]
              refine .inl ⟨fun L henough => ?_, rfl, rfl⟩
              obtain rfl := (hfirst L).mp henough.first
              rw [hiff.mpr henough.indices] at hdone
              cases hdone
          | true =>
              obtain ⟨hmany, hall, segs, hrecover, hlen, hsegs⟩ := hcomplete hdone
              obtain ⟨hcall, -⟩ := reconstructCall_of_complete hstart hdone hrecover
              rw [hcall]
              refine .inr ⟨s.2.length, segs, fun L' => ⟨fun henough => ?_, ?_⟩, hlen, hsegs, ?_,
                rfl, rfl⟩
              · exact (hfirst L').mp henough.first
              · rintro rfl
                exact ⟨hparams, (hfirst _).mpr rfl, hiff.mp hdone⟩
              · rw [List.map_congr_left hall, List.map_const', List.sum_replicate, smul_eq_mul]
                exact Nat.mul_le_mul_right _ hmany

/-- A manifest that is read gives back a whole object or none, from a buffer the shards
account for, exactly if they cover the length it says. -/
theorem allOrNothing_iff [NameTlv Name] (b : Bytes) :
    ∀ manifest ∈ (ErasureManifest.fromBytes b : Option (ErasureManifest Name)),
      Uniform UInt8 fits manifest.k manifest.n → ∀ shards,
        AllOrNothing manifest shards ↔ Covered fits manifest shards := by
  intro manifest hread law shards
  have hhashes := (ErasureManifest.fromBytes_eq_some.mp hread).length_hashes
  rcases reconstructCall_cases law hhashes shards with
    ⟨hnone, hreserved, hending⟩ | ⟨L, segs, hL, hlen, hall, hsum, hreserved, hending⟩
  · refine iff_of_true ⟨⟨none, hending⟩, fun object h => ?_, fun capacity h => ?_⟩
      fun L henough => absurd henough (hnone L)
    · rw [hending] at h
      cases h
    · rw [hreserved] at h
      cases h
  · have hflat : (segs.take manifest.k).flatten.length = manifest.k * L := by
      rw [List.take_of_length_le hlen.le, List.length_flatten, List.map_congr_left hall,
        List.map_const', List.sum_replicate, smul_eq_mul, hlen]
    rw [putTogether_eq, hflat] at hending
    have hcovered : Covered fits manifest shards ↔
        manifest.originalLen ≤ manifest.k * L ∧ manifest.k * L ≤ maxCapacity := by
      simp only [Covered, hL, forall_eq]
    rw [hcovered]
    constructor
    · intro h
      obtain ⟨object, hobject⟩ := h.returns
      rw [hending] at hobject
      split at hobject
      next hroom =>
        rw [if_pos hroom] at hending
        have hwhole := h.whole _ hending
        rw [List.length_take, hflat] at hwhole
        exact ⟨min_eq_left_iff.mp hwhole, hroom.2⟩
      next => cases hobject
    · rintro ⟨hle, hroom⟩
      rw [if_pos ⟨hle.trans hroom, hroom⟩] at hending
      refine ⟨⟨_, hending⟩, fun object h => ?_, fun capacity h => ?_⟩
      · obtain rfl := Option.some.inj (Except.ok.inj (hending.symm.trans h))
        rw [List.length_take, hflat, min_eq_left hle]
      · obtain rfl := Option.some.inj (hreserved.symm.trans h)
        exact hle.trans hsum

end Reconstruction

theorem allOrNothing_smallManifest :
    letI := shortSha2
    letI := xorCodec
    AllOrNothing smallManifest [(1, [1]), (2, [3]), (0, [1])] ∧
      reconstructCall smallManifest [(1, [1]), (2, [3]), (0, [1])] =
        ⟨[(2, [3]), (0, [1])], some 2, .ok (some [1, 2])⟩ := by
  let _ := shortSha2
  let _ := xorCodec
  let _ := blockTlvWriter
  have hread : ErasureManifest.fromBytes smallManifest.toBytes = some smallManifest := by
    decide +kernel
  have law : Uniform UInt8 (fun _ => True) smallManifest.k smallManifest.n :=
    uniform_xorCodec (.inr rfl)
  refine ⟨(allOrNothing_iff _ _ hread law [(1, [1]), (2, [3]), (0, [1])]).mpr
    fun L henough => ?_, by decide +kernel⟩
  obtain ⟨s, hs, rfl⟩ := henough.first
  clear henough
  revert s
  decide +kernel

/-- The small manifest, saying another length. -/
def misstated [Sha2] (originalLen : ℕ) : ErasureManifest TypedName :=
  { smallManifest with originalLen := originalLen }

/-- Two octets for a manifest of five, and no answer for one of more than there can be. -/
theorem not_allOrNothing_misstated :
    letI := shortSha2
    letI := xorCodec
    letI := blockTlvWriter
    (ErasureManifest.fromBytes (misstated 5).toBytes = some (misstated 5) ∧
      reconstructCall (misstated 5) [(0, [1]), (2, [3])] =
        ⟨[(0, [1]), (2, [3])], some 5, .ok (some [1, 2])⟩ ∧
      ¬AllOrNothing (misstated 5) [(0, [1]), (2, [3])]) ∧
    ErasureManifest.fromBytes (misstated (2 ^ 64 - 1)).toBytes = some (misstated (2 ^ 64 - 1)) ∧
      reconstructCall (misstated (2 ^ 64 - 1)) [(0, [1]), (2, [3])] =
        ⟨[(0, [1]), (2, [3])], some (2 ^ 64 - 1), .error .capacityOverflow⟩ ∧
      ¬AllOrNothing (misstated (2 ^ 64 - 1)) [(0, [1]), (2, [3])] := by
  let _ := shortSha2
  let _ := xorCodec
  let _ := blockTlvWriter
  have hshort : reconstructCall (misstated 5) [(0, [1]), (2, [3])] =
      ⟨[(0, [1]), (2, [3])], some 5, .ok (some [1, 2])⟩ := by decide +kernel
  have hhuge : reconstructCall (misstated (2 ^ 64 - 1)) [(0, [1]), (2, [3])] =
      ⟨[(0, [1]), (2, [3])], some (2 ^ 64 - 1), .error .capacityOverflow⟩ := by decide +kernel
  refine ⟨⟨by decide +kernel, hshort, fun h => ?_⟩, by decide +kernel, hhuge, fun h => ?_⟩
  · exact absurd (h.whole [1, 2] (by rw [hshort])) (by decide)
  · obtain ⟨object, hobject⟩ := h.returns
    rw [hhuge] at hobject
    cases hobject

end NdnRepo.Cluster
