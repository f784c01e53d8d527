import NdnRepo.Lib.Codec
import NdnRepo.Lib.Octets
import NdnRepo.Ndn.Packet

/-!
# Shard records

A held packet's wire is cut into `k` source shards and coded into `n`.  Stripe
`i` stores shard `i` behind a header: its index, the length and the digest of
the wire, and the shard's own digest.

`Erasure.encode` makes the records of a wire and `Erasure.shard` reads one back
and refuses it unless its index, length and digest fit.  `Erasure.shard_stripeRecord`
says a record as written is read back, and `Erasure.segments_flatten` that the
source shards, put together and cut to the wire's length, are the wire.
-/

namespace NdnRepo

open Coding Octets

/-- Octets before a shard's bytes: index, wire length, wire digest, shard digest. -/
def headerLength : ℕ := 1 + 4 + 32 + 32

/-- The `k`-of-`n` parameters: every packet becomes `n` shards, any `k` of
which rebuild it. -/
structure Erasure where
  /-- Shards that rebuild a packet. -/
  k : ℕ
  /-- Shards (and stripes) per packet. -/
  n : ℕ
  /-- At least one shard is needed. -/
  one_le_k : 1 ≤ k
  /-- There are enough shards. -/
  k_le_n : k ≤ n
  /-- The codec works over GF(2^8). -/
  n_le : n ≤ 255
deriving DecidableEq

/-- Why parameters are refused. -/
inductive HeldError where
  /-- `k`/`n` out of range. -/
  | parameters (k n : ℕ)
deriving Repr, DecidableEq

namespace Erasure

/-- `k` of `n`, with `1 ≤ k ≤ n ≤ 255`. -/
def new (k n : ℕ) : Except HeldError Erasure :=
  if h : k = 0 ∨ n < k ∨ n > 255 then .error (.parameters k n)
  else .ok ⟨k, n, by omega, by omega, by omega⟩

/-- 2 of 3: one stripe may be lost, at 1.5 times the packets' size. -/
instance : Inhabited Erasure := ⟨⟨2, 3, by omega, by omega, by omega⟩⟩

/-- The parameters `new` accepts are those of an `Erasure`. -/
theorem new_eq_ok {k n : ℕ} {e : Erasure} : new k n = .ok e ↔ e.k = k ∧ e.n = n := by
  obtain ⟨k', n', h1, h2, h3⟩ := e
  unfold new
  split
  next h =>
    constructor
    · intro he; cases he
    · rintro ⟨rfl, rfl⟩; exact absurd h (by simp only; omega)
  next h =>
    simp only [Except.ok.injEq, Erasure.mk.injEq]
    exact ⟨fun ⟨a, b⟩ => ⟨a.symm, b.symm⟩, fun ⟨a, b⟩ => ⟨a.symm, b.symm⟩⟩

theorem k_pos (e : Erasure) : 0 < e.k := e.one_le_k

/-! ## Encoding -/

/-- The length of every shard of a wire of length `len`. -/
def shardLen (e : Erasure) (len : ℕ) : ℕ := max (divCeil len e.k) 1

theorem shardLen_pos (e : Erasure) (len : ℕ) : 0 < e.shardLen len :=
  lt_of_lt_of_le Nat.one_pos (Nat.le_max_right _ _)

/-- The source shards have room for the wire. -/
theorem le_mul_shardLen (e : Erasure) (len : ℕ) : len ≤ e.k * e.shardLen len :=
  (le_mul_divCeil e.k_pos).trans (Nat.mul_le_mul_left _ (Nat.le_max_left _ _))

/-- Source shard `i` of a wire: its slice of the wire, padded with zeros. -/
def segment (e : Erasure) (wire : Bytes) (i : ℕ) : Bytes :=
  let shardLen := e.shardLen wire.length
  let start := min (i * shardLen) wire.length
  let stop := min ((i + 1) * shardLen) wire.length
  wire.extract start stop ++ List.replicate (shardLen - (stop - start)) 0

/-- The source shards of a wire. -/
def segments (e : Erasure) (wire : Bytes) : List Bytes := (List.range e.k).map (e.segment wire)

section

variable [Sha2]

/-- The record of a shard.  The index and the length are cast to `u8` and `u32`. -/
def record (wire : Bytes) (index : ℕ) (shard : Bytes) : Bytes :=
  UInt8.ofNat index ::
    (toBe 4 wire.length ++ ((sha256 wire).1 ++ ((sha256 shard).1 ++ shard)))

/-- The `n` shard records of `wire`, stripe order. -/
def encode [Codec UInt8] (e : Erasure) (wire : Bytes) : Except CodingError (List Bytes) := do
  let shards ← codeword e.k e.n (e.segments wire)
  return shards.mapIdx (record wire)

end

/-! ## Reading a record -/

/-- One stripe's shard of a packet, checked against its own digest. -/
structure Shard where
  /-- The stripe. -/
  index : ℕ
  /-- The length of the packet's wire. -/
  len : ℕ
  /-- The digest of the packet's wire. -/
  digest : Digest
  /-- The shard's bytes. -/
  body : Bytes

section

variable [Sha2]

/-- Stripe `stripe`'s record of a packet, if it is a good shard of index
`stripe`. -/
def shard (e : Erasure) (stripe : ℕ) (record : Bytes) : Option Shard :=
  if h : headerLength ≤ record.length then
    let len := ofBe (record.extract 1 5)
    let digest : Digest := ⟨record.extract 5 37, by
      simp only [headerLength] at h
      simp
      omega⟩
    let body := record.drop headerLength
    if (record.headD 0).toNat ≠ stripe then none
    else if body.length ≠ e.shardLen len ∨ (sha256 body).1 ≠ record.extract 37 69 then none
    else some ⟨stripe, len, digest, body⟩
  else none

/-- A record as `encode` writes it is read back. -/
theorem shard_record (e : Erasure) {wire body : Bytes} {i : ℕ} (hi : i < 256)
    (hw : wire.length < u32Bound) (hb : body.length = e.shardLen wire.length) :
    e.shard i (record wire i body) = some ⟨i, wire.length, sha256 wire, body⟩ := by
  have hwire : (sha256 wire).1.length = 32 := (sha256 wire).2
  have hbody : (sha256 body).1.length = 32 := (sha256 body).2
  have hlen : (record wire i body).extract 1 5 = toBe 4 wire.length := by
    simp [record]
  have hdigest : (record wire i body).extract 5 37 = (sha256 wire).1 := by
    simp [record, hwire]
  have hown : (record wire i body).extract 37 69 = (sha256 body).1 := by
    simp [record, List.drop_append, List.take_append, hwire, hbody]
  have hdrop : (record wire i body).drop headerLength = body := by
    have h4 : (toBe 4 wire.length).drop 68 = [] := List.drop_of_length_le (by simp)
    have h64 : (sha256 wire).1.drop 64 = [] := List.drop_of_length_le (by omega)
    simp [record, headerLength, List.drop_append, hwire, hbody, h4, h64]
  have hlong : headerLength ≤ (record wire i body).length := by
    simp [record, headerLength, hwire, hbody]
    omega
  have hindex : ((record wire i body).headD 0).toNat = i := by
    simpa [record] using hi
  have hread : ofBe ((record wire i body).extract 1 5) = wire.length := by
    rw [hlen]
    exact ofBe_toBe_of_lt (by simpa [u32Bound] using hw)
  unfold shard
  rw [dif_pos hlong]
  simp only [hindex, hread, hdrop, hdigest, hown, hb, ne_eq, not_true_eq_false, or_self, ↓reduceIte]
  rfl

/-- What a record that is read as a shard is. -/
structure Reads (e : Erasure) (stripe : ℕ) (r : Bytes) (s : Shard) : Prop where
  /-- It has a header. -/
  long : headerLength ≤ r.length
  /-- Its first octet is the stripe. -/
  first : (r.headD 0).toNat = stripe
  /-- The shard is of that index. -/
  index : s.index = stripe
  /-- The length is the one in the header. -/
  len : s.len = ofBe (r.extract 1 5)
  /-- So is the wire's digest. -/
  digest : s.digest.1 = r.extract 5 37
  /-- The bytes are those after the header. -/
  body : s.body = r.drop headerLength
  /-- They are as many as the length asks for. -/
  size : s.body.length = e.shardLen s.len
  /-- They have the digest in the header. -/
  own : (sha256 s.body).1 = r.extract 37 69

theorem reads_of_shard {e : Erasure} {stripe : ℕ} {r : Bytes} {s : Shard}
    (h : e.shard stripe r = some s) : e.Reads stripe r s := by
  unfold shard at h
  split at h
  next hlong =>
    simp only at h
    split at h
    · cases h
    next hfirst =>
      split at h
      · cases h
      next hgood =>
        obtain rfl := Option.some.inj h
        exact ⟨hlong, not_not.mp hfirst, rfl, rfl, rfl, rfl,
          not_not.mp fun hne => hgood (Or.inl hne), not_not.mp fun hne => hgood (Or.inr hne)⟩
  · cases h

variable {e : Erasure} {stripe : ℕ} {r : Bytes} {s : Shard}

theorem Reads.length_len (h : e.Reads stripe r s) : (r.extract 1 5).length = 4 := by
  have hlong := h.long
  simp only [headerLength] at hlong
  simp
  omega

/-- What a good shard says of itself. -/
theorem shard_eq_some (h : e.shard stripe r = some s) :
    s.index = stripe ∧ s.body.length = e.shardLen s.len ∧ s.len < u32Bound := by
  have hreads := reads_of_shard h
  refine ⟨hreads.index, hreads.size, ?_⟩
  have hlt := ofBe_lt (r.extract 1 5)
  rw [hreads.length_len] at hlt
  rw [hreads.len]
  exact hlt

/-- A record that is read as a shard of a wire is the record of that shard. -/
theorem record_of_shard {wire : Bytes} (h : e.shard stripe r = some s)
    (hlen : s.len = wire.length) (hdigest : s.digest = sha256 wire) :
    r = record wire stripe s.body := by
  have hreads := reads_of_shard h
  have hcut : ∀ a b, a ≤ b → r.extract a b ++ r.drop b = r.drop a := by
    intro a b hab
    have hdrop : r.drop b = (r.drop a).drop (b - a) := by
      rw [List.drop_drop, Nat.add_sub_cancel' hab]
    rw [hdrop, List.extract_eq_take_drop, List.take_append_drop]
  have hfirst : UInt8.ofNat stripe = r.headD 0 := by
    rw [← hreads.first, UInt8.ofNat_toNat]
  have hread : toBe 4 wire.length = r.extract 1 5 := by
    have h4 := toBe_ofBe (r.extract 1 5)
    rwa [hreads.length_len, ← hreads.len, hlen] at h4
  rw [record, hfirst, hread, ← hdigest, hreads.digest, hreads.own, hreads.body, headerLength,
    hcut 37 69 (by omega), hcut 5 37 (by omega), hcut 1 5 (by omega)]
  cases r with
  | nil => exact absurd hreads.long (by decide)
  | cons first tail => rfl

end

/-! ## The wire from its source shards -/

/-- Source shard `i` is chunk `i` of the padded wire. -/
theorem segment_eq_chunk (e : Erasure) (wire : Bytes) {i : ℕ} (hi : i < e.k) :
    e.segment wire i = chunk (e.shardLen wire.length) i
      (wire ++ List.replicate (e.k * e.shardLen wire.length - wire.length) 0) := by
  have hroom := e.le_mul_shardLen wire.length
  generalize hL : e.shardLen wire.length = L at hroom
  have hi' : (i + 1) * L ≤ e.k * L := Nat.mul_le_mul_right _ hi
  rw [Nat.succ_mul] at hi'
  simp only [segment, hL, Nat.succ_mul, chunk]
  apply List.ext_getElem
  · simp
    omega
  · intro j h1 h2
    have hj : j < L := by
      simp only [List.length_take] at h2
      omega
    simp only [List.getElem_append, List.extract_eq_take_drop, List.getElem_take,
      List.getElem_drop, List.length_take, List.length_drop, List.getElem_replicate]
    split <;> split
    · congr 1
      omega
    · omega
    · omega
    · rfl

theorem segments_length (e : Erasure) (wire : Bytes) : (e.segments wire).length = e.k := by
  simp [segments]

theorem segments_allLength (e : Erasure) (wire : Bytes) :
    AllLength (e.shardLen wire.length) (e.segments wire) := by
  intro s hs
  obtain ⟨i, hi, rfl⟩ := List.mem_map.mp hs
  have hik : i < e.k := List.mem_range.mp hi
  rw [e.segment_eq_chunk wire hik]
  apply chunk_length
  have hroom := e.le_mul_shardLen wire.length
  have hle : (i + 1) * e.shardLen wire.length ≤ e.k * e.shardLen wire.length :=
    Nat.mul_le_mul_right _ hik
  simp
  omega

/-- The source shards, put together and cut to the wire's length, are the wire. -/
theorem segments_flatten (e : Erasure) (wire : Bytes) :
    (e.segments wire).flatten.take wire.length = wire := by
  have hroom := e.le_mul_shardLen wire.length
  have hchunks : e.segments wire = (List.range e.k).map fun i => chunk (e.shardLen wire.length) i
      (wire ++ List.replicate (e.k * e.shardLen wire.length - wire.length) 0) := by
    apply List.map_congr_left
    intro i hi
    exact e.segment_eq_chunk wire (List.mem_range.mp hi)
  rw [hchunks, flatten_chunks, List.take_take, Nat.min_eq_left hroom, List.take_left']
  rfl

/-! ## A stripe's record of a wire -/

section

variable [Codec UInt8]

/-- The shards of a wire. -/
def shardsOf (e : Erasure) (wire : Bytes) : List Bytes :=
  (codeword e.k e.n (e.segments wire)).toOption.getD []

/-- Stripe `i`'s record of a wire. -/
def stripeRecord [Sha2] (e : Erasure) (wire : Bytes) (i : ℕ) : Bytes :=
  record wire i ((e.shardsOf wire).getD i [])

variable {e : Erasure} (law : Lawful UInt8 e.k e.n)
include law

theorem codeword_segments (wire : Bytes) :
    codeword e.k e.n (e.segments wire) = .ok (e.shardsOf wire) ∧
      AllLength (e.shardLen wire.length) (e.shardsOf wire) := by
  obtain ⟨cw, hcw, hall⟩ :=
    law.encodes (e.shardLen_pos _) (e.segments_length wire) (e.segments_allLength wire)
  have heq : e.shardsOf wire = cw := by simp [shardsOf, hcw, Except.toOption]
  exact ⟨heq ▸ hcw, heq ▸ hall⟩

theorem shardsOf_length (wire : Bytes) : (e.shardsOf wire).length = e.n :=
  codeword_length e.k_le_n (e.segments_length wire) (codeword_segments law wire).1

theorem shardsOf_getD_length (wire : Bytes) {i : ℕ} (hi : i < e.n) :
    ((e.shardsOf wire).getD i []).length = e.shardLen wire.length := by
  have hlt : i < (e.shardsOf wire).length := by rw [shardsOf_length law]; exact hi
  rw [List.getD_eq_getElem _ _ hlt]
  exact (codeword_segments law wire).2 _ (List.getElem_mem hlt)

/-- Every wire is encoded, into one record for each stripe. -/
theorem encode_eq [Sha2] (wire : Bytes) :
    e.encode wire = .ok ((List.range e.n).map (e.stripeRecord wire)) := by
  unfold encode
  rw [(codeword_segments law wire).1]
  simp only [bind, Except.bind, pure, Except.pure, Except.ok.injEq]
  apply List.ext_getElem
  · simp [shardsOf_length law]
  · intro i h1 h2
    have hlt : i < (e.shardsOf wire).length := by simpa using h1
    simp [stripeRecord, List.getElem_mapIdx, hlt]

/-- A stripe's record of a wire is a good shard of it. -/
theorem shard_stripeRecord [Sha2] {wire : Bytes} (hw : wire.length < u32Bound) {i : ℕ} (hi : i < e.n) :
    e.shard i (e.stripeRecord wire i) =
      some ⟨i, wire.length, sha256 wire, (e.shardsOf wire).getD i []⟩ := by
  have h256 : i < 256 := by have := e.n_le; omega
  exact e.shard_record h256 hw (shardsOf_getD_length law wire hi)

end

end Erasure

end NdnRepo
