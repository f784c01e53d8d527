import NdnRepo.Lib.Codec
import NdnRepo.Lib.XorCodec
import NdnRepo.Ndn.Wire

/-!
# Objects as shards

An object is cut into `k` source segments, coded into `n` shards, and indexed by
a manifest that holds the digest of every shard.  `reconstruct` takes shards from
anywhere, keeps those whose digest is the manifest's, and decodes.  A reader
gathers shards one by one (`reconstructWith`) or all at once, each within a time
limit (`reconstructWithAsync`).

The main result is `reconstruct_encodeObject`.  What `reconstruct` returns is
decided by the number of indices whose genuine shard is supplied, whatever else
is supplied.
-/

namespace NdnRepo.Cluster

open Coding Octets

/-- The component that marks an erasure shard: `<object>/EC/<index>`. -/
def ecKeyword : Bytes := ascii "EC"

/-- What a reader needs to find an object's shards and put it together. -/
structure ErasureManifest (Name : Type) where
  /-- The object. -/
  object : Name
  /-- Source segments.  Any `k` shards reconstruct the object. -/
  k : ℕ
  /-- All shards. -/
  n : ℕ
  /-- The exact length of the object. -/
  originalLen : ℕ
  /-- The length of a segment, cast to `u32`. -/
  shardLen : ℕ
  /-- The digest of each shard, in index order. -/
  shardHashes : List Digest
deriving DecidableEq

/-- One erasure shard. -/
structure Shard (Name : Type) where
  /-- Its index: `0..k` source, `k..n` parity. -/
  index : ℕ
  /-- Its name. -/
  name : Name
  /-- Its bytes. -/
  bytes : Bytes
deriving DecidableEq

/-- `tokio::time::error::Elapsed`. -/
inductive Elapsed where
  | elapsed
deriving DecidableEq

section Names

variable {Name : Type} [NdnName Name]

/-- The name of a shard: `<object>/EC/<index>`. -/
def ErasureManifest.shardName (manifest : ErasureManifest Name) (index : ℕ) : Name :=
  append (append manifest.object ecKeyword) (ascii (toString index))

/-- All shard names, in index order. -/
def ErasureManifest.shardNames (manifest : ErasureManifest Name) : List Name :=
  (List.range manifest.n).map manifest.shardName

end Names

/-! ## Encoding -/

/-- The length of a segment of an object of `len` bytes. -/
def segmentLen (k len : ℕ) : ℕ := max (divCeil len k) 1

/-- The `k` source segments of an object: its slices, padded with zeros. -/
def sourceSegments (data : Bytes) (k : ℕ) : List Bytes :=
  let shardLen := segmentLen k data.length
  let padded := resize data (shardLen * k) 0
  (List.range k).map fun i => chunk shardLen i padded

section Encode

variable {Name : Type} [NdnName Name] [Sha2] [Codec UInt8]

/-- The manifest of an object whose coded segments are `coded`. -/
def manifestOf (object : Name) (data : Bytes) (k n : ℕ) (coded : List Bytes) :
    ErasureManifest Name :=
  ⟨object, k, n, data.length, segmentLen k data.length % u32Bound, coded.map sha256⟩

/-- The shards a manifest indexes, from the coded segments. -/
def shardsOf (manifest : ErasureManifest Name) (coded : List Bytes) : List (Shard Name) :=
  coded.mapIdx fun i bytes => ⟨i, manifest.shardName i, bytes⟩

/-- Code an object into `k + redundancy` shards. -/
def encodeObject (object : Name) (data : Bytes) (k redundancy : ℕ) :
    Except CodingError (List (Shard Name) × ErasureManifest Name) :=
  let n := k + redundancy
  if n ≤ 255 ∧ 1 ≤ k then do
    let coded ← codeword k n (sourceSegments data k)
    let manifest := manifestOf object data k n coded
    return (shardsOf manifest coded, manifest)
  else .error (.invalidParameters k k)

end Encode

/-! ## Reconstruction -/

section Reconstruct

variable {Name : Type}

/-- Whether a shard has the digest the manifest holds for its index. -/
def ErasureManifest.verifies [Sha2] (manifest : ErasureManifest Name) (shard : ℕ × Bytes) : Bool :=
  match manifest.shardHashes[shard.1]? with
  | some hash => sha256 shard.2 = hash
  | none => false

/-- The object, from any `k` verified shards. -/
def reconstruct [Sha2] [Codec UInt8] (manifest : ErasureManifest Name)
    (shards : List (ℕ × Bytes)) : Option Bytes :=
  match Codec.newDecoder (α := UInt8) manifest.k manifest.n with
  | .error _ => none
  | .ok dec =>
      let dec := absorbUntil dec (shards.filter manifest.verifies)
      if Codec.isComplete dec then
        match Codec.recover dec with
        | .error _ => none
        | .ok segs => some ((segs.take manifest.k).flatten.take manifest.originalLen)
      else none

variable [NdnName Name] [NdnData Name]

/-- The Data packet of a shard. -/
def shardData (shard : Shard Name) : Bytes := NdnData.signDigest shard.name shard.bytes

/-- The content of a shard's Data packet. -/
def shardContent (Name : Type) [NdnData Name] (wire : Bytes) : Option Bytes :=
  (@NdnData.decode Name _ wire).bind NdnData.content

/-- The shards in the answers for the indices `0..n`. -/
def gathered (Name : Type) [NdnData Name] (answers : List (Option Bytes)) : List (ℕ × Bytes) :=
  answers.zipIdx.filterMap fun (answer, i) =>
    (answer.bind (shardContent Name)).map fun content => (i, content)

/-- The answers of a fetch for some names, one after another. -/
def fetchAll {σ : Type} (fetch : Name → σ → Option Bytes × σ) :
    List Name → σ → List (Option Bytes) × σ
  | [], s => ([], s)
  | name :: names, s =>
      let (answer, s) := fetch name s
      let (answers, s) := fetchAll fetch names s
      (answer :: answers, s)

variable [Sha2] [Codec UInt8]

/-- Fetch every shard, one by one, and reconstruct.  `fetch` may keep a state. -/
def reconstructWith {σ : Type} (manifest : ErasureManifest Name)
    (fetch : Name → σ → Option Bytes × σ) (s : σ) : Option Bytes × σ :=
  let (answers, s) := fetchAll fetch manifest.shardNames s
  (reconstruct manifest (gathered Name answers), s)

/-- The answers of futures that are each awaited within a time limit. -/
def awaitAll {Fut Duration : Type} (timeout : Duration → Fut → Except Elapsed (Option Bytes))
    (perFetchTimeout : Duration) (futs : List Fut) : List (Option Bytes) :=
  futs.map fun fut =>
    match timeout perFetchTimeout fut with
    | .ok (some wire) => some wire
    | _ => none

/-- Fetch all shards at the same time and reconstruct.  `timeout` says how each
future ends. -/
def reconstructWithAsync {Fut Duration : Type} (manifest : ErasureManifest Name)
    (timeout : Duration → Fut → Except Elapsed (Option Bytes)) (perFetchTimeout : Duration)
    (fetch : Name → Fut) : Option Bytes :=
  let answers := awaitAll timeout perFetchTimeout (manifest.shardNames.map fetch)
  reconstruct manifest (gathered Name answers)

end Reconstruct

/-! ## What an encoded object consists of -/

theorem segmentLen_pos (k len : ℕ) : 0 < segmentLen k len :=
  lt_of_lt_of_le Nat.one_pos (Nat.le_max_right _ _)

/-- The source segments have room for the object. -/
theorem le_segmentLen_mul {k : ℕ} (hk : 1 ≤ k) (len : ℕ) : len ≤ segmentLen k len * k :=
  calc len ≤ k * divCeil len k := le_mul_divCeil hk
    _ ≤ k * segmentLen k len := Nat.mul_le_mul_left _ (Nat.le_max_left _ _)
    _ = segmentLen k len * k := Nat.mul_comm _ _

theorem sourceSegments_length (data : Bytes) (k : ℕ) : (sourceSegments data k).length = k := by
  simp [sourceSegments]

theorem sourceSegments_allLength (data : Bytes) (k : ℕ) :
    AllLength (segmentLen k data.length) (sourceSegments data k) := by
  intro segment hsegment
  obtain ⟨i, hi, rfl⟩ := List.mem_map.mp hsegment
  apply chunk_length
  rw [resize_length, Nat.mul_comm]
  exact Nat.mul_le_mul_left _ (List.mem_range.mp hi)

/-- The source segments, put together and cut to the object's length, are the object. -/
theorem sourceSegments_flatten {k : ℕ} (hk : 1 ≤ k) (data : Bytes) :
    (sourceSegments data k).flatten.take data.length = data := by
  have hroom := le_segmentLen_mul hk data.length
  rw [sourceSegments, flatten_chunks, List.take_take, Nat.mul_comm k, Nat.min_eq_left hroom]
  exact take_resize 0 hroom

section Objects

variable {Name : Type} [NdnName Name]

/-- The shards of a manifest, by index. -/
theorem mem_shardsOf {manifest : ErasureManifest Name} {coded : List Bytes} {g : Shard Name} :
    g ∈ shardsOf manifest coded ↔
      ∃ i < coded.length, g = ⟨i, manifest.shardName i, coded.getD i []⟩ := by
  simp only [shardsOf, List.mem_mapIdx]
  constructor
  · rintro ⟨i, hi, rfl⟩
    exact ⟨i, hi, by simp [hi]⟩
  · rintro ⟨i, hi, rfl⟩
    exact ⟨i, hi, by simp [hi]⟩

variable [Sha2] [Codec UInt8] {k r : ℕ}

/-- Every object is encoded, and its coded segments are a codeword. -/
theorem encodeObject_eq_ok (law : Lawful UInt8 k (k + r)) (hk : 1 ≤ k) (hn : k + r ≤ 255)
    (object : Name) (data : Bytes) :
    ∃ coded, codeword k (k + r) (sourceSegments data k) = .ok coded ∧ coded.length = k + r ∧
      encodeObject object data k r =
        .ok (shardsOf (manifestOf object data k (k + r) coded) coded,
          manifestOf object data k (k + r) coded) := by
  obtain ⟨coded, hcoded, -⟩ := law.encodes (segmentLen_pos k data.length)
    (sourceSegments_length data k) (sourceSegments_allLength data k)
  refine ⟨coded, hcoded,
    codeword_length (Nat.le_add_right k r) (sourceSegments_length data k) hcoded, ?_⟩
  simp only [encodeObject, if_pos (And.intro hn hk), hcoded]
  rfl

end Objects

/-! ## Any `k` genuine shards, and nothing else -/

section Genuine

variable {Name : Type}

/-- The indices whose genuine shard is among those supplied. -/
def genuine (shards : List (Shard Name)) (supplied : List (ℕ × Bytes)) : Finset ℕ :=
  ((supplied.filter fun s => shards.any fun g => g.index = s.1 ∧ g.bytes = s.2).map
    Prod.fst).toFinset

/-- SHA-256 tells the genuine shard of an index from any other bytes supplied for it. -/
def Apart [Sha2] (shards : List (Shard Name)) (supplied : List (ℕ × Bytes)) : Prop :=
  ∀ s ∈ supplied, ∀ g ∈ shards, g.index = s.1 → sha256 s.2 = sha256 g.bytes → s.2 = g.bytes

instance [Sha2] (shards : List (Shard Name)) (supplied : List (ℕ × Bytes)) :
    Decidable (Apart shards supplied) := by
  unfold Apart
  infer_instance

variable [NdnName Name] [Sha2] {manifest : ErasureManifest Name} {coded : List Bytes}

omit [Sha2] in
/-- A supplied shard is genuine when it is the coded segment of its index. -/
theorem any_shardsOf_iff (s : ℕ × Bytes) :
    ((shardsOf manifest coded).any fun g => g.index = s.1 ∧ g.bytes = s.2) = true ↔
      s.1 < coded.length ∧ coded.getD s.1 [] = s.2 := by
  simp only [List.any_eq_true, decide_eq_true_eq, mem_shardsOf]
  constructor
  · rintro ⟨g, ⟨i, hi, rfl⟩, rfl, hbytes⟩
    exact ⟨hi, hbytes⟩
  · rintro ⟨hi, hbytes⟩
    exact ⟨_, ⟨s.1, hi, rfl⟩, rfl, hbytes⟩

/-- Where SHA-256 tells shards apart, the verified ones are the genuine ones. -/
theorem verifies_iff (hhashes : manifest.shardHashes = coded.map sha256)
    {supplied : List (ℕ × Bytes)} (apart : Apart (shardsOf manifest coded) supplied)
    {s : ℕ × Bytes} (hs : s ∈ supplied) :
    manifest.verifies s = true ↔ s.1 < coded.length ∧ coded.getD s.1 [] = s.2 := by
  rw [ErasureManifest.verifies, hhashes, List.getElem?_map]
  cases hget : coded[s.1]? with
  | none =>
      have hlong := List.getElem?_eq_none_iff.mp hget
      simp [Nat.not_lt.mpr hlong]
  | some bytes =>
      obtain ⟨hi, rfl⟩ := List.getElem?_eq_some_iff.mp hget
      have hsame := apart s hs _ (mem_shardsOf.mpr ⟨s.1, hi, rfl⟩) rfl
      rw [List.getD_eq_getElem _ _ hi] at hsame ⊢
      simp only [Option.map_some, decide_eq_true_eq, hi, true_and]
      exact ⟨fun h => (hsame h).symm, fun h => by rw [h]⟩

/-- The verified shards are coded segments, at the genuine indices. -/
theorem filter_verifies (hhashes : manifest.shardHashes = coded.map sha256)
    {supplied : List (ℕ × Bytes)} (apart : Apart (shardsOf manifest coded) supplied) :
    ∃ idxs : List ℕ, (∀ i ∈ idxs, i < coded.length) ∧
      idxs.toFinset = genuine (shardsOf manifest coded) supplied ∧
      supplied.filter manifest.verifies = idxs.map fun i => (i, coded.getD i []) := by
  have hverified : ∀ s ∈ supplied.filter manifest.verifies,
      s.1 < coded.length ∧ coded.getD s.1 [] = s.2 := fun s hs =>
    (verifies_iff hhashes apart (List.mem_filter.mp hs).1).mp (List.mem_filter.mp hs).2
  refine ⟨(supplied.filter manifest.verifies).map Prod.fst, ?_, ?_, ?_⟩
  · intro i hi
    obtain ⟨s, hs, rfl⟩ := List.mem_map.mp hi
    exact (hverified s hs).1
  · rw [genuine]
    congr 2
    apply List.filter_congr
    intro s hs
    rw [Bool.eq_iff_iff, verifies_iff hhashes apart hs, any_shardsOf_iff]
  · rw [List.map_map]
    conv_lhs => rw [← List.map_id (supplied.filter manifest.verifies)]
    apply List.map_congr_left
    intro s hs
    exact Prod.ext rfl (hverified s hs).2.symm

variable [Codec UInt8] {k r : ℕ} {object : Name} {data : Bytes}

/-- What is reconstructed from supplied shards. -/
theorem reconstruct_manifestOf (law : Lawful UInt8 k (k + r)) (hk : 1 ≤ k)
    (hcoded : codeword k (k + r) (sourceSegments data k) = .ok coded)
    {supplied : List (ℕ × Bytes)}
    (apart : Apart (shardsOf (manifestOf object data k (k + r) coded) coded) supplied) :
    reconstruct (manifestOf object data k (k + r) coded) supplied =
      if k ≤ (genuine (shardsOf (manifestOf object data k (k + r) coded) coded) supplied).card
        then some data else none := by
  have hlen : coded.length = k + r :=
    codeword_length (Nat.le_add_right k r) (sourceSegments_length data k) hcoded
  obtain ⟨idxs, hidx, hset, hfilter⟩ := filter_verifies rfl apart
  obtain ⟨dec, hnew, hdec⟩ := law.decode_codeword
  obtain ⟨hcomplete, hrecover⟩ := hdec (segmentLen_pos k data.length)
    (sourceSegments_length data k) (sourceSegments_allLength data k) hcoded idxs
    (fun i hi => hlen ▸ hidx i hi)
  rw [reconstruct, hfilter, ← hset]
  simp only [manifestOf, hnew]
  by_cases hfull : k ≤ idxs.toFinset.card
  · have hsegs : (sourceSegments data k).take k = sourceSegments data k :=
      List.take_of_length_le (sourceSegments_length data k).le
    simp only [hcomplete.mpr hfull, hrecover hfull, hsegs, sourceSegments_flatten hk, if_pos hfull,
      ↓reduceIte]
  · simp only [mt hcomplete.mp hfull, if_neg hfull]
    rfl

variable [NdnData Name]

/-- Every object is encoded.  Its manifest then gives back exactly the object from
supplied shards that are genuine at `k` indices or more, and nothing from any
other, however the shards are gathered. -/
theorem reconstruct_encodeObject (law : Lawful UInt8 k (k + r)) (hk : 1 ≤ k) (hn : k + r ≤ 255)
    (object : Name) (data : Bytes) :
    ∃ shards manifest, encodeObject object data k r = .ok (shards, manifest) ∧
      (∀ supplied, Apart shards supplied →
        reconstruct manifest supplied =
          if k ≤ (genuine shards supplied).card then some data else none) ∧
      (∀ (σ : Type) (fetch : Name → σ → Option Bytes × σ) (s : σ),
        let supplied := gathered Name (fetchAll fetch manifest.shardNames s).1
        Apart shards supplied → (reconstructWith manifest fetch s).1 =
          if k ≤ (genuine shards supplied).card then some data else none) ∧
      (∀ (Fut Duration : Type) (timeout : Duration → Fut → Except Elapsed (Option Bytes))
          (perFetchTimeout : Duration) (fetch : Name → Fut),
        let supplied := gathered Name
          (awaitAll timeout perFetchTimeout (manifest.shardNames.map fetch))
        Apart shards supplied → reconstructWithAsync manifest timeout perFetchTimeout fetch =
          if k ≤ (genuine shards supplied).card then some data else none) := by
  obtain ⟨coded, hcoded, -, hok⟩ := encodeObject_eq_ok law hk hn object data
  refine ⟨_, _, hok, ?_, ?_, ?_⟩
  · intro supplied apart
    exact reconstruct_manifestOf law hk hcoded apart
  · intro σ fetch s supplied apart
    exact reconstruct_manifestOf law hk hcoded apart
  · intro Fut Duration timeout perFetchTimeout fetch supplied apart
    exact reconstruct_manifestOf law hk hcoded apart

end Genuine

/-- Supplied for an object of two segments: an index out of range, a forged
segment, a segment and, twice, the parity. -/
def mixedSupply : List (ℕ × Bytes) := [(7, [1]), (2, [3]), (0, [2]), (2, [3]), (1, [2])]

/-- The two segments and the parity of the object `[1, 2]`. -/
def pairShards : List (Shard Components) :=
  [⟨0, [[8, 1, 98], [8, 2, 69, 67], [8, 1, 48]], [1]⟩,
    ⟨1, [[8, 1, 98], [8, 2, 69, 67], [8, 1, 49]], [2]⟩,
    ⟨2, [[8, 1, 98], [8, 2, 69, 67], [8, 1, 50]], [3]⟩]

/-- One holder has lost its shard. -/
def lossyHolders [Sha2] [NdnTlv] (name : Components) (_ : Unit) : Option Bytes × Unit :=
  ((pairShards.drop 1).find? (·.name = name) |>.map shardData, ())

theorem reconstruct_mixedSupply :
    letI := shortSha2
    letI := xorCodec
    letI := blockTlv
    ∃ manifest, encodeObject [[8, 1, 98]] [1, 2] 2 1 = .ok (pairShards, manifest) ∧
      reconstruct manifest mixedSupply = some [1, 2] ∧
      (reconstructWith manifest lossyHolders ()).1 = some [1, 2] := by
  let _ := shortSha2
  let _ := xorCodec
  let _ := blockTlv
  obtain ⟨shards, manifest, hok, hlist, hfetch, -⟩ :=
    reconstruct_encodeObject (k := 2) (r := 1) (lawful_xorCodec (Or.inr rfl)) (by decide) (by decide)
      ([[8, 1, 98]] : Components) [1, 2]
  have hpair : encodeObject ([[8, 1, 98]] : Components) [1, 2] 2 1 =
      .ok (pairShards, manifestOf [[8, 1, 98]] [1, 2] 2 3 [[1], [2], [3]]) := by
    decide +kernel
  have hsame := Except.ok.inj (hok.symm.trans hpair)
  obtain ⟨rfl, rfl⟩ := Prod.mk.inj hsame
  refine ⟨_, hok, ?_, ?_⟩
  · rw [hlist _ (by decide +kernel)]
    decide +kernel
  · rw [hfetch _ _ _ (by decide +kernel)]
    decide +kernel

end NdnRepo.Cluster
