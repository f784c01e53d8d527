import NdnRepo.Lib.Sorted
import NdnRepo.Held.Store

/-!
# Repairing keeps the packet

Whatever the stripes hold, a repair of a name leaves the packet the name had
(`ErasureStore.wire_repair`).  The records of a repaired packet need not be those
an insert of its wire writes: shards that no encoder made can agree on a wire.
The source shards a decoder gets first are kept or rewritten from the wire, and
the wire is read from these.
-/

namespace NdnRepo

open Coding Grouping Octets Sorted

namespace Erasure

variable [Sha2] {e : Erasure} {records : List (Option Bytes)}

/-! ## Good shards in order -/

theorem goodShard_of_mem {s : Shard} (h : s ∈ e.goodShards records) :
    s.index < records.length ∧ e.goodShard records s.index = some s := by
  rw [goodShards_eq, List.mem_filterMap] at h
  obtain ⟨i, hi, hs⟩ := h
  have hidx := goodShard_index hs
  exact ⟨hidx ▸ List.mem_range.mp hi, by rw [hidx]; exact hs⟩

theorem mem_goodShards {s : Shard} {i : ℕ} (hi : i < records.length)
    (h : e.goodShard records i = some s) : s ∈ e.goodShards records := by
  rw [goodShards_eq, List.mem_filterMap]
  exact ⟨i, List.mem_range.mpr hi, h⟩

/-- Good shards come with increasing indices. -/
theorem goodShards_increasing : ((e.goodShards records).map Shard.index).Pairwise (· < ·) := by
  rw [goodShards_eq, List.map_filterMap, List.pairwise_filterMap]
  refine List.pairwise_lt_range.imp ?_
  intro i j hij x hx y hy
  simp only [Option.map_eq_some_iff] at hx hy
  obtain ⟨s, hs, rfl⟩ := hx
  obtain ⟨t, ht, rfl⟩ := hy
  rw [goodShard_index hs, goodShard_index ht]
  exact hij

/-- What a good shard says of itself. -/
theorem goodShard_eq_some {i : ℕ} {s : Shard} (h : e.goodShard records i = some s) :
    s.index = i ∧ s.body.length = e.shardLen s.len ∧ s.len < u32Bound := by
  obtain ⟨r, -, hr⟩ := Option.bind_eq_some_iff.mp h
  exact shard_eq_some hr

/-! ## What `assemble` did -/

variable [Codec UInt8]

/-- How `assemble` came to what it returns: the shards it decoded and their
segments. -/
structure Rebuilt (e : Erasure) (records : List (Option Bytes)) (a : Assembled) (c : ℕ × Digest)
    (members : List Shard) (segs : List Bytes) : Prop where
  /-- The shards are those of one wire. -/
  group : members = (e.goodShards records).filter (Shard.wireKey · = c)
  /-- There are enough of them. -/
  enough : e.k ≤ members.length
  /-- They decode to the segments. -/
  decoded : e.decode members = some segs
  /-- The segments make up the wire. -/
  wire_eq : a.wire = segs.flatten.take c.1
  /-- The wire has the digest the shards name. -/
  digest_eq : sha256 a.wire = c.2
  /-- The other stripes are stale. -/
  stale_eq : a.stale = (List.range records.length).filter fun i =>
    !members.any fun s => s.index = i

theorem assemble_cases {a : Assembled} (h : e.assemble records = some a) :
    ∃ c members segs, Rebuilt e records a c members segs := by
  obtain ⟨c, members, segs, hmax, hdec, hwire, hdigest, hstale⟩ := assemble_eq_some_iff.mp h
  have hmem := List.mem_filter.mp (maxByKey_spec hmax).1
  exact ⟨c, members, segs, (groupsOf_groupOn _ _).members hmem.1, by simpa using hmem.2, hdec,
    hwire, hdigest, hstale⟩

/-- When the good shards all name one wire and decode to it, `assemble` returns it. -/
theorem assemble_of_all {c : ℕ × Digest} {segs : List Bytes}
    (hall : ∀ s ∈ e.goodShards records, s.wireKey = c)
    (henough : e.k ≤ (e.goodShards records).length)
    (hdec : e.decode (e.goodShards records) = some segs)
    (hdigest : sha256 (segs.flatten.take c.1) = c.2) :
    e.assemble records = some ⟨segs.flatten.take c.1, (List.range records.length).filter fun i =>
      !(e.goodShards records).any fun s => s.index = i⟩ := by
  have hfilter : (e.goodShards records).filter (Shard.wireKey · = c) = e.goodShards records :=
    List.filter_eq_self.mpr fun s hs => by simpa using hall s hs
  have hgroup : (c, e.goodShards records) ∈ e.groups records := by
    obtain ⟨s, hs⟩ := List.exists_mem_of_length_pos (lt_of_lt_of_le e.k_pos henough)
    have hmem : (s.wireKey, (e.goodShards records).filter (Shard.wireKey · = s.wireKey)) ∈
        e.groups records := mem_groupOn_of_mem hs
    rw [hall s hs, hfilter] at hmem
    exact hmem
  cases hmax : maxByKey (fun g => g.2.length)
      ((e.groups records).filter fun g => e.k ≤ g.2.length) with
  | none =>
      have hnil := maxByKey_eq_none.mp hmax
      rw [List.filter_eq_nil_iff] at hnil
      exact absurd henough (by simpa using hnil _ hgroup)
  | some g =>
      obtain ⟨d, members⟩ := g
      have hmem := (List.mem_filter.mp (maxByKey_spec hmax).1).1
      have hgroups := groupsOf_groupOn Shard.wireKey (e.goodShards records)
      obtain ⟨s, hs, rfl⟩ := hgroups.keys.mp (List.mem_map.mpr ⟨_, hmem, rfl⟩)
      have hmembers : members = e.goodShards records := by
        rw [hgroups.members hmem, hall s hs, hfilter]
      subst hmembers
      simp only [hall s hs] at hmax
      simp only [assemble, hmax, hdec, hdigest, ne_eq, not_true_eq_false, ↓reduceIte]

/-! ## Shards of one wire -/

section Decoded

variable {c : ℕ × Digest} {members : List Shard}

/-- The codeword that the first `k` shards of one wire belong to, and the
segments all of them decode to. -/
theorem decode_group (law : Lawful UInt8 e.k e.n) (hlen : records.length = e.n)
    (hgroup : members = (e.goodShards records).filter (Shard.wireKey · = c))
    (henough : e.k ≤ members.length) :
    ∃ segs cw, segs.length = e.k ∧ AllLength (e.shardLen c.1) segs ∧
      codeword e.k e.n segs = .ok cw ∧ e.decode members = some segs ∧
      ∀ s ∈ members, s.index < e.k → s.body = segs.getD s.index [] := by
  have hsub : members.Sublist (e.goodShards records) := hgroup ▸ List.filter_sublist
  have hincr : (members.map Shard.index).Pairwise (· < ·) :=
    goodShards_increasing.sublist (hsub.map _)
  have hfst : (members.map fun s => (s.index, s.body)).map Prod.fst = members.map Shard.index := by
    rw [List.map_map]
    rfl
  have hnodup : ((members.map fun s => (s.index, s.body)).map Prod.fst).Nodup := by
    rw [hfst]
    exact hincr.imp ne_of_lt
  have hidx : ∀ p ∈ members.map fun s => (s.index, s.body), p.1 < e.n := by
    intro p hp
    obtain ⟨s, hs, rfl⟩ := List.mem_map.mp hp
    exact hlen ▸ (goodShard_of_mem (hsub.subset hs)).1
  have hlength : ∀ p ∈ members.map fun s => (s.index, s.body), p.2.length = e.shardLen c.1 := by
    intro p hp
    obtain ⟨s, hs, rfl⟩ := List.mem_map.mp hp
    have hkey : s.wireKey = c := by
      rw [hgroup] at hs
      simpa using (List.mem_filter.mp hs).2
    rw [← hkey]
    exact (goodShard_eq_some (goodShard_of_mem (hsub.subset hs)).2).2.1
  obtain ⟨dec, segs, cw, hnew, hseglen, hall, hcw, hshard, hrec⟩ := law.decode_first e.k_pos
    e.k_le_n (e.shardLen_pos _) hnodup (by simpa using henough) hidx hlength
  refine ⟨segs, cw, hseglen, hall, hcw, by simp only [decode, hnew, hrec, Except.toOption], ?_⟩
  intro s hs hsk
  -- A source shard stands among the first `k`, so the codeword has it.
  have htake : s.index ∈ (members.map Shard.index).take e.k :=
    mem_take_of_lt hincr (List.mem_map_of_mem hs) hsk
  rw [← hfst, ← List.map_take, List.mem_map] at htake
  obtain ⟨p, hp, hpi⟩ := htake
  obtain ⟨t, ht, rfl⟩ := List.mem_map.mp (List.mem_of_mem_take hp)
  simp only at hpi
  have hst : t = s := by
    have h1 := (goodShard_of_mem (hsub.subset ht)).2
    have h2 := (goodShard_of_mem (hsub.subset hs)).2
    rw [hpi, h2] at h1
    exact (Option.some.inj h1).symm
  have hcwt := hshard _ hp
  simp only [hst] at hcwt
  rw [← hcwt, codeword_getD_of_lt hseglen hcw hsk]

end Decoded

/-! ## Assembling after a repair -/

section Rebuilt

variable {a : Assembled} {c : ℕ × Digest} {members : List Shard} {segs : List Bytes}
  (hreb : Rebuilt e records a c members segs)

include hreb

/-- A member is a good shard of the wire. -/
theorem Rebuilt.goodShard_of_mem {s : Shard} (hs : s ∈ members) :
    e.goodShard records s.index = some s ∧ s.wireKey = c := by
  rw [hreb.group, List.mem_filter] at hs
  exact ⟨(Erasure.goodShard_of_mem hs.1).2, by simpa using hs.2⟩

/-- The shards name a length of 32 bits. -/
theorem Rebuilt.len_lt : c.1 < u32Bound := by
  obtain ⟨s, hs⟩ := List.exists_mem_of_length_pos (lt_of_lt_of_le e.k_pos hreb.enough)
  obtain ⟨hgood, hkey⟩ := hreb.goodShard_of_mem hs
  rw [← hkey]
  exact (goodShard_eq_some hgood).2.2

/-- A stripe that is not stale holds a member. -/
theorem Rebuilt.exists_member (hlen : records.length = e.n) {i : ℕ} (hi : i < e.n)
    (hfresh : i ∉ a.stale) : ∃ s ∈ members, s.index = i := by
  rw [hreb.stale_eq, List.mem_filter] at hfresh
  simpa [hlen, hi] using hfresh

/-- The wire has the length its shards name. -/
theorem Rebuilt.wire_length (hseglen : segs.length = e.k)
    (hall : AllLength (e.shardLen c.1) segs) : a.wire.length = c.1 := by
  have hflat : segs.flatten.length = e.k * e.shardLen c.1 := by
    rw [List.length_flatten, List.map_congr_left hall]
    simp [hseglen]
  rw [hreb.wire_eq, List.length_take, hflat]
  exact Nat.min_eq_left (e.le_mul_shardLen c.1)

/-- A source shard rebuilt from the wire has what the segment has of the wire. -/
theorem Rebuilt.take_body_shardOf (law : Lawful UInt8 e.k e.n) (hseglen : segs.length = e.k)
    (hall : AllLength (e.shardLen c.1) segs) {i : ℕ} (hik : i < e.k) :
    (e.shardOf a.wire i).body.take (c.1 - i * e.shardLen c.1) =
      (segs.getD i []).take (c.1 - i * e.shardLen c.1) := by
  have hlen := hreb.wire_length hseglen hall
  have hsource : (e.shardOf a.wire i).body = (e.segments a.wire).getD i [] :=
    codeword_getD_of_lt (e.segments_length _) (codeword_segments law a.wire).1 hik
  rw [hsource]
  refine (take_flatten_eq_iff c.1 (hlen ▸ e.segments_allLength a.wire) hall
    (by rw [e.segments_length, hseglen])).mp ?_ i (by rwa [e.segments_length])
  rw [← hreb.wire_eq]
  simpa [hlen] using e.segments_flatten a.wire

end Rebuilt

omit [Codec UInt8] in
/-- When every stripe holds a good shard there is one of every index. -/
theorem map_index_goodShards (h : ∀ i < records.length, ∃ s, e.goodShard records i = some s) :
    (e.goodShards records).map Shard.index = List.range records.length := by
  rw [goodShards_eq, List.map_filterMap]
  conv_rhs => rw [← List.filterMap_some (l := List.range records.length)]
  refine List.filterMap_congr fun i hi => ?_
  obtain ⟨s, hs⟩ := h i (List.mem_range.mp hi)
  rw [hs, Option.map_some, goodShard_index hs]

/-- The records after a repair make up the same wire, and no stripe is stale. -/
theorem assemble_repaired {records' : List (Option Bytes)} {a : Assembled}
    (law : Lawful UInt8 e.k e.n) (hlen : records.length = e.n) (hlen' : records'.length = e.n)
    (h : e.assemble records = some a)
    (hafter : ∀ i < e.n, records'.getD i none =
      if i ∈ a.stale then some (e.stripeRecord a.wire i) else records.getD i none) :
    e.assemble records' = some ⟨a.wire, []⟩ := by
  obtain ⟨⟨len, digest⟩, members, segs, hreb⟩ := assemble_cases h
  obtain ⟨segs', cw, hseglen, hall, -, hdec, hbody⟩ :=
    decode_group law hlen hreb.group hreb.enough
  obtain rfl : segs' = segs := by
    rw [hreb.decoded] at hdec
    exact (Option.some.inj hdec).symm
  have hwire : a.wire = segs'.flatten.take len := hreb.wire_eq
  have hdigest : sha256 a.wire = digest := hreb.digest_eq
  have hwirelen : a.wire.length = len := hreb.wire_length hseglen hall
  -- After the repair every stripe holds a good shard of the wire.
  have hgood : ∀ i < e.n, ∃ s, e.goodShard records' i = some s ∧ s.wireKey = (len, digest) ∧
      (i < e.k → s.body.take (len - i * e.shardLen len) =
        (segs'.getD i []).take (len - i * e.shardLen len)) := by
    intro i hi
    by_cases hstale : i ∈ a.stale
    · refine ⟨e.shardOf a.wire i, ?_, ?_, hreb.take_body_shardOf law hseglen hall⟩
      · rw [goodShard, hafter i hi, if_pos hstale]
        exact shard_stripeRecord law (hwirelen ▸ hreb.len_lt) hi
      · rw [Shard.wireKey, shardOf, hwirelen, hdigest]
    · obtain ⟨s, hs, rfl⟩ := hreb.exists_member hlen hi hstale
      obtain ⟨hs', hkey⟩ := hreb.goodShard_of_mem hs
      refine ⟨s, ?_, hkey, fun hik => by rw [hbody s hs hik]⟩
      rw [goodShard, hafter _ hi, if_neg hstale]
      exact hs'
  have hkeys : ∀ s ∈ e.goodShards records', s.wireKey = (len, digest) := by
    intro s hs
    obtain ⟨hi, hs'⟩ := goodShard_of_mem hs
    obtain ⟨t, ht, hkey, -⟩ := hgood s.index (hlen' ▸ hi)
    rw [hs'] at ht
    exact Option.some.inj ht ▸ hkey
  have hindex : (e.goodShards records').map Shard.index = List.range records'.length :=
    map_index_goodShards fun i hi => (hgood i (hlen' ▸ hi)).imp fun _ hs => hs.1
  have hcount : (e.goodShards records').length = e.n := by
    simpa [hlen'] using congrArg List.length hindex
  have hself : (e.goodShards records').filter (Shard.wireKey · = (len, digest)) =
      e.goodShards records' :=
    List.filter_eq_self.mpr fun s hs => by simpa using hkeys s hs
  obtain ⟨segs, cw', hseglen', hall', -, hdec', hbody'⟩ :=
    decode_group law hlen' hself.symm (hcount ▸ e.k_le_n)
  have hsame : segs.flatten.take len = a.wire := by
    rw [hwire, take_flatten_eq_iff len hall' hall (by rw [hseglen, hseglen'])]
    intro i hi
    have hik : i < e.k := hseglen' ▸ hi
    have hin : i < e.n := lt_of_lt_of_le hik e.k_le_n
    obtain ⟨s, hs, -, hagree⟩ := hgood i hin
    have hmem := mem_goodShards (hlen' ▸ hin) hs
    obtain rfl := goodShard_index hs
    rw [← hbody' s hmem hik]
    exact hagree hik
  rw [assemble_of_all hkeys (hcount ▸ e.k_le_n) hdec' (by rw [hsame]; exact hdigest), hsame]
  have hnone : (List.range records'.length).filter (fun i =>
      !(e.goodShards records').any fun s => s.index = i) = [] := by
    rw [List.filter_eq_nil_iff]
    intro i hi
    rw [← hindex] at hi
    obtain ⟨s, hs, hsi⟩ := List.mem_map.mp hi
    simp only [Bool.not_eq_true', Bool.not_eq_false, List.any_eq_true, decide_eq_true_eq]
    exact ⟨s, hs, hsi⟩
  rw [hnone]

end Erasure

/-! ## The store -/

namespace ErasureStore

variable {Name : Type} [NdnName Name] [Sha2] [Codec UInt8]

/-- The packet the records of a name make up. -/
def wire (s : ErasureStore Name) (name : Name) : Option Bytes :=
  (s.erasure.assemble (s.records name)).map Assembled.wire

theorem get_fst_eq_wire (s : ErasureStore Name) (name : Name) : (s.get name).1 = s.wire name :=
  s.get_fst name

variable {s : ErasureStore Name} (law : Lawful UInt8 s.erasure.k s.erasure.n)

include law

/-- After a repair of a packet no stripe of it is stale. -/
theorem assemble_repair {name : Name} {a : Assembled}
    (h : s.erasure.assemble (s.records name) = some a) :
    s.erasure.assemble ((s.repair name).records name) = some ⟨a.wire, []⟩ :=
  Erasure.assemble_repaired law (s.records_length name)
    (by rw [records_length, erasure_repair]) h fun _ hi => getD_records_repair law h hi

/-- A repair changes no packet, whatever the stripes hold. -/
theorem wire_repair (name other : Name) : (s.repair name).wire other = s.wire other := by
  unfold wire
  rw [erasure_repair]
  by_cases ho : other = name
  · subst ho
    cases h : s.erasure.assemble (s.records other) with
    | none => rw [repair_eq_self h, h]
    | some a => rw [assemble_repair law h]; rfl
  · rw [records_repair_of_ne law ho]

end ErasureStore

end NdnRepo
