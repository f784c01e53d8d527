import NdnRepo.Lib.Grouping
import NdnRepo.Held.Record

/-!
# Rebuilding a packet

`Erasure.assemble` reads the stripes' records of a packet, groups the good shards
by the wire they name, and decodes the largest group of at least `k`.

A *provenance* of the records says of each stripe which wire its record is of, or
that it holds no good shard.  Under a provenance `assemble` is decided by
counting (`Provenance.assemble_eq_none`, `Provenance.assemble_eq_some`): the wire
of most stripes comes back if at least `k` hold it, and nothing otherwise.
-/

namespace NdnRepo

open Coding Grouping

/-- A packet rebuilt from its shards, with the stripes that lacked a good shard
of it. -/
structure Assembled where
  /-- The packet's wire. -/
  wire : Bytes
  /-- The stripes to repair. -/
  stale : List ℕ

namespace Erasure

variable [Sha2]

/-- The good shard in a stripe's record, if there is one. -/
def goodShard (e : Erasure) (records : List (Option Bytes)) (stripe : ℕ) : Option Shard :=
  (records.getD stripe none).bind (e.shard stripe)

/-- The good shards, stripe order. -/
def goodShards (e : Erasure) (records : List (Option Bytes)) : List Shard :=
  records.zipIdx.filterMap fun (r, i) => r.bind (e.shard i)

/-- What a shard says it is a shard of. -/
def Shard.wireKey (s : Shard) : ℕ × Digest := (s.len, s.digest)

/-- Good shards grouped by the wire they are shards of. -/
def groups (e : Erasure) (records : List (Option Bytes)) : List ((ℕ × Digest) × List Shard) :=
  groupOn Shard.wireKey (e.goodShards records)

variable [Codec UInt8]

/-- The segments decoded from shards. -/
def decode (e : Erasure) (members : List Shard) : Option (List Bytes) :=
  match Codec.newDecoder (α := UInt8) e.k e.n with
  | .error _ => none
  | .ok dec =>
      (Codec.recover (absorbUntil dec (members.map fun s => (s.index, s.body)))).toOption

/-- Rebuild a packet from its stripes' records, or `none` when fewer than `k`
good shards agree on one wire. -/
def assemble (e : Erasure) (records : List (Option Bytes)) : Option Assembled :=
  match maxByKey (fun g => g.2.length) ((e.groups records).filter fun g => e.k ≤ g.2.length) with
  | none => none
  | some ((len, digest), members) =>
      match e.decode members with
      | none => none
      | some segments =>
          let wire := segments.flatten.take len
          if sha256 wire ≠ digest then none
          else some ⟨wire, (List.range records.length).filter fun i =>
            !members.any fun s => s.index = i⟩

/-! ## Good shards -/

omit [Codec UInt8] in
theorem goodShards_eq (e : Erasure) (records : List (Option Bytes)) :
    e.goodShards records = (List.range records.length).filterMap (e.goodShard records) := by
  have hzip : records.zipIdx =
      (List.range records.length).map fun i => (records.getD i none, i) := by
    apply List.ext_getElem
    · simp
    · intro i h1 h2
      have hi : i < records.length := by simpa using h1
      simp [hi]
  rw [goodShards, hzip, List.filterMap_map]
  rfl

omit [Codec UInt8] in
theorem goodShard_index {e : Erasure} {records : List (Option Bytes)} {i : ℕ} {s : Shard}
    (h : e.goodShard records i = some s) : s.index = i := by
  obtain ⟨r, -, hr⟩ := Option.bind_eq_some_iff.mp h
  exact (shard_eq_some hr).1

/-- The last of the largest groups is decoded, if it is large enough. -/
theorem assemble_eq_some_iff {e : Erasure} {records : List (Option Bytes)} {a : Assembled} :
    e.assemble records = some a ↔ ∃ c members segs,
      maxByKey (fun g => g.2.length) ((e.groups records).filter fun g => e.k ≤ g.2.length) =
        some (c, members) ∧
      e.decode members = some segs ∧ a.wire = segs.flatten.take c.1 ∧ sha256 a.wire = c.2 ∧
      a.stale = (List.range records.length).filter fun i => !members.any fun s => s.index = i := by
  obtain ⟨wire, stale⟩ := a
  unfold assemble
  constructor
  · intro h
    split at h
    · cases h
    next len digest members hmax =>
      split at h
      · cases h
      next segs hdec =>
        simp only at h
        split at h
        · cases h
        next hdigest =>
          cases h
          exact ⟨(len, digest), members, segs, hmax, hdec, rfl, not_not.mp hdigest, rfl⟩
  · rintro ⟨⟨len, digest⟩, members, segs, hmax, hdec, hwire, hdigest, hstale⟩
    simp only at hwire hdigest hstale
    subst hwire hdigest hstale
    simp only [hmax, hdec, ne_eq, not_true_eq_false, ↓reduceIte]

/-! ## Shards of a wire -/

/-- A stripe's good shard of a wire. -/
def shardOf (e : Erasure) (wire : Bytes) (i : ℕ) : Shard :=
  ⟨i, wire.length, sha256 wire, (e.shardsOf wire).getD i []⟩

/-- Good shards of one kind, where these are the shards of a wire in some stripes. -/
theorem goodShards_filter_eq {e : Erasure} {records : List (Option Bytes)} {wire : Bytes}
    {kind : Shard → Bool} {within : ℕ → Bool} (hlen : records.length = e.n)
    (h : ∀ i < e.n, (e.goodShard records i).filter kind =
      if within i then some (e.shardOf wire i) else none) :
    (e.goodShards records).filter kind = ((List.range e.n).filter within).map (e.shardOf wire) := by
  have hcongr : (List.range e.n).filterMap (fun i => (e.goodShard records i).filter kind) =
      (List.range e.n).filterMap fun i => if within i then some (e.shardOf wire i) else none :=
    List.filterMap_congr fun i hi => h i (List.mem_range.mp hi)
  rw [goodShards_eq, hlen, List.filter_filterMap, hcongr, ← List.filterMap_eq_map,
    List.filterMap_filter]
  rfl

/-- The stripes without one of these shards are the others. -/
theorem stale_shardOf (e : Erasure) (wire : Bytes) (within : ℕ → Bool) :
    ((List.range e.n).filter fun i =>
      !(((List.range e.n).filter within).map (e.shardOf wire)).any fun s => s.index = i) =
        (List.range e.n).filter fun i => !within i := by
  refine List.filter_congr fun i hi => ?_
  congr 1
  rw [Bool.eq_iff_iff, List.any_eq_true]
  constructor
  · rintro ⟨s, hs, hindex⟩
    obtain ⟨j, hj, rfl⟩ := List.mem_map.mp hs
    obtain rfl : j = i := of_decide_eq_true hindex
    exact (List.mem_filter.mp hj).2
  · intro hin
    exact ⟨e.shardOf wire i, List.mem_map.mpr ⟨i, List.mem_filter.mpr ⟨hi, hin⟩, rfl⟩,
      decide_eq_true rfl⟩

/-- The shards of a wire, at least `k` of them, decode to its segments. -/
theorem decode_shardOf {e : Erasure} (law : Lawful UInt8 e.k e.n) (wire : Bytes) {idxs : List ℕ}
    (hidx : ∀ i ∈ idxs, i < e.n) (hk : e.k ≤ idxs.toFinset.card) :
    e.decode (idxs.map (e.shardOf wire)) = some (e.segments wire) := by
  obtain ⟨dec, hnew, hdec⟩ := law.decode_codeword
  have hrec := (hdec (e.shardLen_pos wire.length) (e.segments_length wire)
    (e.segments_allLength wire) (codeword_segments law wire).1 idxs hidx).2 hk
  have hmap : (idxs.map (e.shardOf wire)).map (fun s => (s.index, s.body)) =
      idxs.map fun i => (i, (e.shardsOf wire).getD i []) := by
    rw [List.map_map]
    rfl
  simp only [decode, hnew, hmap, hrec, Except.toOption]

/-! ## Provenance -/

/-- Which wire each stripe's record is of.  A stripe without one holds no good
shard.  Different wires of the records have different digests. -/
structure Provenance (e : Erasure) (records : List (Option Bytes)) (origin : ℕ → Option Bytes) :
    Prop where
  /-- There is one record for each stripe. -/
  length : records.length = e.n
  /-- A stripe without a wire holds no good shard. -/
  bad : ∀ i < e.n, origin i = none → e.goodShard records i = none
  /-- A stripe with a wire holds its record of it. -/
  good : ∀ i < e.n, ∀ w, origin i = some w →
    w.length < u32Bound ∧ records.getD i none = some (e.stripeRecord w i)
  /-- SHA-256 tells the wires apart. -/
  apart : ∀ i < e.n, ∀ j < e.n, ∀ w w', origin i = some w → origin j = some w' →
    sha256 w = sha256 w' → w = w'

/-- The stripes that hold a record of a wire. -/
def holders (e : Erasure) (origin : ℕ → Option Bytes) (wire : Bytes) : Finset ℕ :=
  (Finset.range e.n).filter (origin · = some wire)

omit [Sha2] [Codec UInt8] in
theorem mem_holders {e : Erasure} {origin : ℕ → Option Bytes} {wire : Bytes} {i : ℕ} :
    i ∈ e.holders origin wire ↔ i < e.n ∧ origin i = some wire := by
  simp [holders]

namespace Provenance

variable {e : Erasure} {records : List (Option Bytes)} {origin : ℕ → Option Bytes}
variable (law : Lawful UInt8 e.k e.n) (prov : e.Provenance records origin)

include law prov

theorem goodShard_eq {i : ℕ} (hi : i < e.n) :
    e.goodShard records i = (origin i).map (e.shardOf · i) := by
  cases ho : origin i with
  | none => exact prov.bad i hi ho
  | some w =>
      obtain ⟨hw, hr⟩ := prov.good i hi w ho
      rw [goodShard, hr]
      exact shard_stripeRecord law hw hi

/-- The good shards of one wire. -/
theorem goodShards_filter {i : ℕ} (hi : i < e.n) {w : Bytes} (hw : origin i = some w) :
    (e.goodShards records).filter (Shard.wireKey · = (w.length, sha256 w)) =
      ((List.range e.n).filter (origin · = some w)).map (e.shardOf w) := by
  have hsame : ∀ j < e.n, (e.goodShard records j).filter
      (fun s => Shard.wireKey s = (w.length, sha256 w)) =
        if origin j = some w then some (e.shardOf w j) else none := by
    intro j hj
    rw [prov.goodShard_eq law hj]
    cases ho : origin j with
    | none => simp
    | some w' =>
        by_cases hww : w' = w
        · subst hww
          simp [Option.filter, Shard.wireKey, shardOf]
        · have hne : sha256 w' ≠ sha256 w := fun h => hww (prov.apart j hj i hi w' w ho hw h)
          simp [Option.filter, Shard.wireKey, shardOf, hww, hne]
  exact goodShards_filter_eq prov.length fun j hj => by simpa using hsame j hj

/-- A group of the records is that of one wire. -/
theorem mem_groups {c : ℕ × Digest} {ms : List Shard} :
    (c, ms) ∈ e.groups records ↔ ∃ w, (∃ i < e.n, origin i = some w) ∧
      c = (w.length, sha256 w) ∧
      ms = ((List.range e.n).filter (origin · = some w)).map (e.shardOf w) := by
  have hgroups := groupsOf_groupOn Shard.wireKey (e.goodShards records)
  have hmem : ∀ s, s ∈ e.goodShards records ↔
      ∃ i < e.n, ∃ w, origin i = some w ∧ s = e.shardOf w i := by
    intro s
    rw [goodShards_eq, prov.length, List.mem_filterMap]
    constructor
    · rintro ⟨i, hi, hs⟩
      have hi' := List.mem_range.mp hi
      rw [prov.goodShard_eq law hi', Option.map_eq_some_iff] at hs
      obtain ⟨w, hw, rfl⟩ := hs
      exact ⟨i, hi', w, hw, rfl⟩
    · rintro ⟨i, hi, w, hw, rfl⟩
      refine ⟨i, List.mem_range.mpr hi, ?_⟩
      rw [prov.goodShard_eq law hi, hw, Option.map_some]
  constructor
  · intro h
    obtain ⟨s, hs, hc⟩ := hgroups.keys.mp (List.mem_map.mpr ⟨_, h, rfl⟩)
    obtain ⟨i, hi, w, hw, rfl⟩ := (hmem s).mp hs
    have hms := hgroups.members h
    subst hc
    exact ⟨w, ⟨i, hi, hw⟩, rfl, hms.trans (prov.goodShards_filter law hi hw)⟩
  · rintro ⟨w, ⟨i, hi, hw⟩, rfl, rfl⟩
    rw [← prov.goodShards_filter law hi hw]
    exact mem_groupOn_of_mem ((hmem _).mpr ⟨i, hi, w, hw, rfl⟩)

omit prov in
/-- The shards of one wire, at least `k` of them, decode to its segments. -/
theorem decode_members (w : Bytes) (hk : e.k ≤ (e.holders origin w).card) :
    e.decode (((List.range e.n).filter (origin · = some w)).map (e.shardOf w)) =
      some (e.segments w) := by
  refine decode_shardOf law w (fun i hi => List.mem_range.mp (List.mem_filter.mp hi).1) ?_
  rw [List.toFinset_card_of_nodup (List.nodup_range.filter _)]
  exact hk

/-- Fewer than `k` records of every wire: the packet is missing. -/
theorem assemble_eq_none (hfew : ∀ w, (e.holders origin w).card < e.k) :
    e.assemble records = none := by
  have hempty : (e.groups records).filter (fun g => e.k ≤ g.2.length) = [] := by
    rw [List.filter_eq_nil_iff]
    rintro ⟨c, ms⟩ hg
    obtain ⟨w, -, -, rfl⟩ := (prov.mem_groups law).mp hg
    have hw : ((List.range e.n).filter (origin · = some w)).length < e.k := hfew w
    simpa using hw
  simp [assemble, hempty, maxByKey]

/-- At least `k` records of some wire: a wire of most stripes comes back, and the
stale stripes are the others. -/
theorem assemble_of_holders {w : Bytes} (hw : e.k ≤ (e.holders origin w).card) :
    ∃ w', (∀ v, (e.holders origin v).card ≤ (e.holders origin w').card) ∧
      e.assemble records = some ⟨w', (List.range e.n).filter (origin · ≠ some w')⟩ := by
  have hone : ∃ i < e.n, origin i = some w := by
    have hpos : 0 < (e.holders origin w).card := lt_of_lt_of_le e.k_pos hw
    obtain ⟨i, hi⟩ := Finset.card_pos.mp hpos
    exact ⟨i, mem_holders.mp hi⟩
  have hlength : ∀ v, ((List.range e.n).filter (origin · = some v)).length =
      (e.holders origin v).card := fun v => rfl
  cases hmax : maxByKey (fun g => g.2.length)
      ((e.groups records).filter fun g => e.k ≤ g.2.length) with
  | none =>
      have hnil := maxByKey_eq_none.mp hmax
      rw [List.filter_eq_nil_iff] at hnil
      have hg := (prov.mem_groups law).mpr ⟨w, hone, rfl, rfl⟩
      have hlt := hnil _ hg
      simp only [List.length_map, hlength, decide_eq_true_eq] at hlt
      exact absurd hw hlt
  | some g =>
      obtain ⟨c, ms⟩ := g
      obtain ⟨hmem, hbest⟩ := maxByKey_spec hmax
      rw [List.mem_filter] at hmem
      obtain ⟨hg, hk⟩ := hmem
      obtain ⟨w', hw', rfl, rfl⟩ := (prov.mem_groups law).mp hg
      simp only [List.length_map, hlength, decide_eq_true_eq] at hk hbest
      refine ⟨w', fun v => ?_, ?_⟩
      · by_cases hv : e.k ≤ (e.holders origin v).card
        · have hpos : 0 < (e.holders origin v).card := lt_of_lt_of_le e.k_pos hv
          obtain ⟨i, hi⟩ := Finset.card_pos.mp hpos
          have hgv := (prov.mem_groups law).mpr ⟨v, ⟨i, mem_holders.mp hi⟩, rfl, rfl⟩
          have hle := hbest _ (List.mem_filter.mpr ⟨hgv, by simpa [hlength] using hv⟩)
          simpa only [List.length_map, hlength] using hle
        · omega
      · refine assemble_eq_some_iff.mpr ⟨_, _, e.segments w', hmax, decode_members law w' hk,
          (e.segments_flatten w').symm, rfl, ?_⟩
        rw [prov.length, stale_shardOf]
        exact List.filter_congr fun i _ => by simp

/-- What `assemble` returns is a wire that most stripes, at least `k`, hold. -/
theorem assemble_eq_some {a : Assembled} (h : e.assemble records = some a) :
    e.k ≤ (e.holders origin a.wire).card ∧
      (∀ v, (e.holders origin v).card ≤ (e.holders origin a.wire).card) ∧
      a.stale = (List.range e.n).filter (origin · ≠ some a.wire) := by
  by_cases hfew : ∀ w, (e.holders origin w).card < e.k
  · rw [prov.assemble_eq_none law hfew] at h
    cases h
  · obtain ⟨w, hw⟩ := not_forall.mp hfew
    obtain ⟨w', hbest, heq⟩ := prov.assemble_of_holders law (not_lt.mp hw)
    rw [h] at heq
    obtain rfl := Option.some.inj heq
    exact ⟨(not_lt.mp hw).trans (hbest w), hbest, rfl⟩

/-- `assemble` returns something exactly when `k` stripes agree. -/
theorem assemble_isSome :
    (e.assemble records).isSome = true ↔ ∃ w, e.k ≤ (e.holders origin w).card := by
  constructor
  · intro h
    obtain ⟨a, ha⟩ := Option.isSome_iff_exists.mp h
    exact ⟨a.wire, (prov.assemble_eq_some law ha).1⟩
  · rintro ⟨w, hw⟩
    obtain ⟨w', -, heq⟩ := prov.assemble_of_holders law hw
    rw [heq]
    rfl

end Provenance

/-! ## Records of one wire -/

/-- The records of a wire, one in every stripe. -/
def wholeRecords (e : Erasure) (wire : Bytes) : List (Option Bytes) :=
  (List.range e.n).map fun i => some (e.stripeRecord wire i)

theorem getD_wholeRecords (e : Erasure) (wire : Bytes) {i : ℕ} (hi : i < e.n) :
    (e.wholeRecords wire).getD i none = some (e.stripeRecord wire i) := by
  simp [wholeRecords, hi]

/-- The good shards among the records are those of `last`, each in its stripe's
record of it. -/
structure HoldsOnly (e : Erasure) (records : List (Option Bytes)) (last : Option Bytes) :
    Prop where
  /-- There is one record for each stripe. -/
  length : records.length = e.n
  /-- The wire fits the length field. -/
  short : ∀ w, last = some w → w.length < u32Bound
  /-- A stripe holds no good shard or its record of the wire. -/
  only : ∀ i < e.n, e.goodShard records i = none ∨
    ∃ w, last = some w ∧ records.getD i none = some (e.stripeRecord w i)

namespace HoldsOnly

variable {e : Erasure} {records : List (Option Bytes)} {last : Option Bytes}

/-- Losing records, or writing those of the wire, changes nothing. -/
theorem of_getD (h : e.HoldsOnly records last) {records' : List (Option Bytes)}
    (hlen : records'.length = e.n)
    (hget : ∀ i < e.n, records'.getD i none = records.getD i none ∨
      (records'.getD i none).bind (e.shard i) = none ∨
      ∃ w, last = some w ∧ records'.getD i none = some (e.stripeRecord w i)) :
    e.HoldsOnly records' last := by
  refine ⟨hlen, h.short, fun i hi => ?_⟩
  rcases hget i hi with heq | hbad | hwire
  · rcases h.only i hi with hgood | ⟨w, hw, hr⟩
    · exact Or.inl (by rw [goodShard, heq]; exact hgood)
    · exact Or.inr ⟨w, hw, by rw [heq]; exact hr⟩
  · exact Or.inl hbad
  · exact Or.inr hwire

/-- Nothing at all, for a name that was never inserted or was removed. -/
theorem replicate (e : Erasure) : e.HoldsOnly (List.replicate e.n none) none := by
  refine ⟨List.length_replicate, fun w hw => absurd hw nofun, fun i hi => Or.inl ?_⟩
  simp [goodShard, hi]

/-- The stripes' records of a wire. -/
theorem of_wire (e : Erasure) {wire : Bytes} (hw : wire.length < u32Bound) :
    e.HoldsOnly (e.wholeRecords wire) (some wire) :=
  ⟨by simp [wholeRecords], fun w h => Option.some.inj h ▸ hw,
    fun i hi => Or.inr ⟨wire, rfl, e.getD_wholeRecords wire hi⟩⟩

/-- The provenance of such records. -/
theorem provenance (h : e.HoldsOnly records last) :
    e.Provenance records fun i => last.filter fun w =>
      records.getD i none = some (e.stripeRecord w i) := by
  refine ⟨h.length, fun i hi hnone => ?_, fun i hi w hw => ?_, fun i hi j hj w w' hw hw' _ => ?_⟩
  · rcases h.only i hi with hgood | ⟨w, hw, hr⟩
    · exact hgood
    · rw [hw, Option.filter_some, if_pos (decide_eq_true hr)] at hnone
      cases hnone
  · obtain ⟨hlast, hr⟩ := Option.filter_eq_some_iff.mp hw
    exact ⟨h.short w hlast, by simpa using hr⟩
  · have h1 := (Option.filter_eq_some_iff.mp hw).1
    rw [(Option.filter_eq_some_iff.mp hw').1] at h1
    exact (Option.some.inj h1).symm

variable (law : Lawful UInt8 e.k e.n)

include law

/-- A packet that is rebuilt is that wire, and the other stripes hold its records. -/
theorem assemble_eq_some (h : e.HoldsOnly records last) {a : Assembled}
    (ha : e.assemble records = some a) :
    last = some a.wire ∧
      ∀ i < e.n, i ∉ a.stale → records.getD i none = some (e.stripeRecord a.wire i) := by
  obtain ⟨hk, -, hstale⟩ := h.provenance.assemble_eq_some law ha
  have hpos : 0 < (e.holders _ a.wire).card := lt_of_lt_of_le e.k_pos hk
  obtain ⟨i, hi⟩ := Finset.card_pos.mp hpos
  refine ⟨(Option.filter_eq_some_iff.mp (mem_holders.mp hi).2).1, fun j hj hfresh => ?_⟩
  rw [hstale, List.mem_filter, List.mem_range, decide_eq_true_eq, not_and, not_not] at hfresh
  simpa using (Option.filter_eq_some_iff.mp (hfresh hj)).2

/-- With its records in `k` stripes the wire is rebuilt. -/
theorem exists_assemble (h : e.HoldsOnly records last) {w : Bytes} (hlast : last = some w)
    {stripes : Finset ℕ} (hstripes : ∀ i ∈ stripes, i < e.n ∧
      records.getD i none = some (e.stripeRecord w i)) (hk : e.k ≤ stripes.card) :
    ∃ a, e.assemble records = some a := by
  have hsub : stripes ⊆ e.holders (fun i => last.filter fun w =>
      records.getD i none = some (e.stripeRecord w i)) w := by
    intro i hi
    obtain ⟨hlt, hr⟩ := hstripes i hi
    exact mem_holders.mpr ⟨hlt, Option.filter_eq_some_iff.mpr ⟨hlast, by simpa using hr⟩⟩
  obtain ⟨w', -, heq⟩ := h.provenance.assemble_of_holders law (hk.trans (Finset.card_le_card hsub))
  exact ⟨_, heq⟩

end HoldsOnly

end Erasure

end NdnRepo
