import NdnRepo.Lib.CopyCodec
import NdnRepo.Lib.XorCodec
import NdnRepo.Held.Repair

/-!
# Bit rot

Rot alters octets of stripes' records, of the header too.  The shard digest covers the
bytes only.  A record whose wire length or wire digest is altered still passes its
check, and names another wire.

Such records make up a rival group, and `assemble` decodes one group only: the last of
the largest.  So the packet comes back, with the missing and the altered stripes as
stale, exactly if no rival group outvotes the intact records
(`assemble_rotted_iff`).  Where `n < 2k` none can (`not_outvoted_of_lt`).
-/

namespace NdnRepo

open Coding Grouping Octets

namespace Erasure

variable [Sha2] {e : Erasure} {records : List (Option Bytes)}

/-! ## Which group is the largest -/

/-- The stripes with a good shard that says it is one of a wire of some length and
digest. -/
def naming (e : Erasure) (records : List (Option Bytes)) (c : ℕ × Digest) : Finset ℕ :=
  (Finset.range e.n).filter fun i => (e.goodShard records i).map Shard.wireKey = some c

/-- More stripes name one wire than another, or as many, and these do not start
first. -/
def Outvotes (e : Erasure) (records : List (Option Bytes)) (d c : ℕ × Digest) : Prop :=
  (e.naming records c).card < (e.naming records d).card ∨
    ((e.naming records c).card = (e.naming records d).card ∧
      ∃ i ∈ e.naming records c, ∀ j ∈ e.naming records d, i < j)

theorem mem_naming (hlen : records.length = e.n) {c : ℕ × Digest} {i : ℕ} :
    i ∈ e.naming records c ↔ ∃ s ∈ e.goodShards records, s.wireKey = c ∧ s.index = i := by
  rw [naming, Finset.mem_filter, Finset.mem_range, Option.map_eq_some_iff]
  constructor
  · rintro ⟨hi, s, hs, hc⟩
    exact ⟨s, mem_goodShards (hlen ▸ hi) hs, hc, goodShard_index hs⟩
  · rintro ⟨s, hs, hc, rfl⟩
    obtain ⟨hlt, hgood⟩ := goodShard_of_mem hs
    exact ⟨hlen ▸ hlt, s, hgood, hc⟩

/-- The group of a wire has a shard of each stripe that names it. -/
theorem length_goodShards_filter (hlen : records.length = e.n) (c : ℕ × Digest) :
    ((e.goodShards records).filter (Shard.wireKey · = c)).length = (e.naming records c).card := by
  have hindex : ((e.goodShards records).filter (Shard.wireKey · = c)).map Shard.index =
      (List.range e.n).filter fun i => (e.goodShard records i).map Shard.wireKey = some c := by
    rw [goodShards_eq, hlen, List.filter_filterMap, List.map_filterMap, ← List.filterMap_eq_filter]
    refine List.filterMap_congr fun i _ => ?_
    rw [Option.guard]
    cases hs : e.goodShard records i with
    | none => simp
    | some s =>
        have hi := goodShard_index hs
        by_cases hc : s.wireKey = c <;> simp [Option.filter, hc, hi]
  rw [← List.length_map Shard.index, hindex]
  rfl

/-- The groups of at least `k` shards. -/
theorem mem_large_groups (hlen : records.length = e.n) {c : ℕ × Digest} {members : List Shard} :
    (c, members) ∈ (e.groups records).filter (fun g => e.k ≤ g.2.length) ↔
      members = (e.goodShards records).filter (Shard.wireKey · = c) ∧
        e.k ≤ (e.naming records c).card := by
  have hgroups := groupsOf_groupOn Shard.wireKey (e.goodShards records)
  rw [List.mem_filter, decide_eq_true_eq]
  constructor
  · rintro ⟨hmem, hk⟩
    have hmembers := hgroups.members hmem
    exact ⟨hmembers, by rwa [← length_goodShards_filter hlen, ← hmembers]⟩
  · rintro ⟨rfl, hk⟩
    obtain ⟨i, hi⟩ := Finset.card_pos.mp (e.k_pos.trans_le hk)
    obtain ⟨s, hs, rfl, -⟩ := (mem_naming hlen).mp hi
    exact ⟨mem_groupOn_of_mem hs, by rwa [length_goodShards_filter hlen]⟩

/-- The groups come in the order of their first stripes. -/
theorem large_groups_pairwise (hlen : records.length = e.n) :
    ((e.groups records).filter fun g => e.k ≤ g.2.length).Pairwise fun g g' =>
      ∃ i ∈ e.naming records g.1, ∀ j ∈ e.naming records g'.1, i < j := by
  have hshards : (e.goodShards records).Pairwise fun s t => s.index < t.index :=
    List.pairwise_map.mp goodShards_increasing
  have hkeys : ((e.groups records).map Prod.fst).Pairwise _ := keys_groupOn_pairwise hshards
  refine ((List.pairwise_map.mp hkeys).filter _).imp ?_
  rintro g g' ⟨s, hs, hkey, hfirst⟩
  refine ⟨s.index, (mem_naming hlen).mpr ⟨s, hs, hkey, rfl⟩, fun j hj => ?_⟩
  obtain ⟨t, ht, hkey', rfl⟩ := (mem_naming hlen).mp hj
  exact hfirst t ht hkey'

/-- The group of a wire is chosen exactly if no other outvotes it. -/
theorem maxByKey_groups_iff (hlen : records.length = e.n) {c : ℕ × Digest}
    (hk : e.k ≤ (e.naming records c).card) :
    maxByKey (fun g => g.2.length) ((e.groups records).filter fun g => e.k ≤ g.2.length) =
        some (c, (e.goodShards records).filter (Shard.wireKey · = c)) ↔
      ∀ d, ¬ e.Outvotes records d c := by
  have horder := large_groups_pairwise (e := e) hlen
  have hmem : (c, (e.goodShards records).filter (Shard.wireKey · = c)) ∈
      (e.groups records).filter fun g => e.k ≤ g.2.length := (mem_large_groups hlen).mpr ⟨rfl, hk⟩
  constructor
  · intro hmax d hout
    obtain ⟨before, after, heq, hbefore, hafter⟩ := maxByKey_eq_some_iff.mp hmax
    have hle : e.k ≤ (e.naming records d).card :=
      hk.trans (hout.elim le_of_lt fun h => h.1.le)
    have hd := (mem_large_groups hlen).mpr ⟨rfl, hle⟩
    rw [heq] at hd horder
    simp only [length_goodShards_filter hlen] at hbefore hafter
    rcases List.mem_append.mp hd with hd | hd
    · have hnot := hbefore _ hd
      rw [length_goodShards_filter hlen] at hnot
      rcases hout with hlt | ⟨-, i, hi, hfirst⟩
      · exact absurd hnot (not_le.mpr hlt)
      · obtain ⟨j, hj, hfirst'⟩ :=
          (List.pairwise_append.mp horder).2.2 _ hd _ (List.mem_cons_self ..)
        exact absurd (hfirst j hj) (not_lt.mpr (hfirst' i hi).le)
    · rcases List.mem_cons.mp hd with hd | hd
      · obtain rfl : d = c := congrArg Prod.fst hd
        rcases hout with hlt | ⟨-, i, hi, hfirst⟩
        · exact lt_irrefl _ hlt
        · exact lt_irrefl _ (hfirst i hi)
      · have hnot := hafter _ hd
        rw [length_goodShards_filter hlen] at hnot
        rcases hout with hlt | ⟨heq, -⟩
        · exact lt_asymm hnot hlt
        · exact absurd heq hnot.ne'
  · intro hnone
    obtain ⟨before, after, heq⟩ := List.append_of_mem hmem
    have hlarge : ∀ g ∈ before ++ (c, (e.goodShards records).filter (Shard.wireKey · = c)) :: after,
        g.2.length = (e.naming records g.1).card := by
      intro g hg
      rw [← heq] at hg
      rw [((mem_large_groups hlen).mp hg).1, length_goodShards_filter hlen]
    rw [heq] at horder ⊢
    refine maxByKey_eq_some_iff.mpr ⟨before, after, rfl, fun g hg => ?_, fun g hg => ?_⟩
    · rw [hlarge g (by simp [hg]), length_goodShards_filter hlen]
      exact not_lt.mp fun hlt => hnone g.1 (Or.inl hlt)
    · rw [hlarge g (by simp [hg]), length_goodShards_filter hlen]
      refine lt_of_le_of_ne (not_lt.mp fun hlt => hnone g.1 (Or.inl hlt)) fun heq => ?_
      have hfirst := (List.pairwise_cons.mp (List.pairwise_append.mp horder).2.1).1 g hg
      exact hnone g.1 (Or.inr ⟨heq.symm, hfirst⟩)

/-! ## Rot -/

/-- A record after rot.  Octets may differ, but bytes that do come with a digest that is
not theirs. -/
structure RottedRecord (original r : Bytes) : Prop where
  /-- No octets are lost or added. -/
  length : r.length = original.length
  /-- Altered bytes do not have the digest in the header. -/
  digest : r.drop headerLength ≠ original.drop headerLength →
    (sha256 (r.drop headerLength)).1 ≠ r.extract 37 69

variable [Codec UInt8]

/-- The records of a packet after rot, some of them missing. -/
structure Rotted (e : Erasure) (wire : Bytes) (records : List (Option Bytes)) : Prop where
  /-- There is a place for each stripe. -/
  length : records.length = e.n
  /-- A stripe has no record, or its record of the wire after rot. -/
  rotted : ∀ i < e.n, ∀ r, records.getD i none = some r → RottedRecord (e.stripeRecord wire i) r

/-- The stripes that hold their records of a wire. -/
def intact (e : Erasure) (wire : Bytes) (records : List (Option Bytes)) : Finset ℕ :=
  (Finset.range e.n).filter fun i => records.getD i none = some (e.stripeRecord wire i)

/-- The intact records of a wire are outvoted. -/
def Outvoted (e : Erasure) (wire : Bytes) (records : List (Option Bytes)) : Prop :=
  ∃ d, e.Outvotes records d (wire.length, sha256 wire)

variable {wire : Bytes}

/-- Rot in an octet of one stripe's header. -/
theorem Rotted.of_header (j : ℕ) {octet : ℕ} (hoctet : octet < headerLength)
    (f : UInt8 → UInt8) :
    e.Rotted wire ((e.wholeRecords wire).modify j (Option.map fun r => r.modify octet f)) := by
  refine ⟨by simp [wholeRecords], fun i hi r hr => ?_⟩
  have hwhole : (e.wholeRecords wire)[i]? = some (some (e.stripeRecord wire i)) := by
    simp [wholeRecords, hi]
  rw [List.getD_eq_getElem?_getD, List.getElem?_modify, hwhole, Option.map_eq_map,
    Option.map_some, Option.getD_some] at hr
  split at hr
  · obtain rfl := Option.some.inj hr
    exact ⟨List.length_modify .., fun hne => absurd (List.drop_modify_of_lt f _ _ _ hoctet) hne⟩
  · obtain rfl := Option.some.inj hr
    exact ⟨rfl, fun hne => absurd rfl hne⟩

section

variable (law : Lawful UInt8 e.k e.n) (hw : wire.length < u32Bound)

include law hw

/-- Of the records after rot only the intact ones name the wire. -/
theorem Rotted.goodShard_eq (h : e.Rotted wire records) {i : ℕ} (hi : i < e.n) :
    (e.goodShard records i).filter (Shard.wireKey · = (wire.length, sha256 wire)) =
      if i ∈ e.intact wire records then some (e.shardOf wire i) else none := by
  by_cases hin : i ∈ e.intact wire records
  · have hr := (Finset.mem_filter.mp hin).2
    rw [if_pos hin, goodShard, hr, Option.bind_some, shard_stripeRecord law hw hi]
    simp [Option.filter, Shard.wireKey, shardOf]
  · rw [if_neg hin, Option.filter_eq_none_iff]
    intro s hs hkey
    obtain ⟨r, hr, hshard⟩ := Option.bind_eq_some_iff.mp hs
    obtain ⟨hlen, hdigest⟩ := Prod.mk.inj (of_decide_eq_true hkey)
    have hreads := reads_of_shard hshard
    -- the check passes, so the bytes are those written
    have hbody : s.body = (e.shardsOf wire).getD i [] := by
      have hsame : r.drop headerLength = (e.stripeRecord wire i).drop headerLength := by
        by_contra hne
        refine (h.rotted i hi r hr).digest hne ?_
        rw [← hreads.body]
        exact hreads.own
      have horiginal := (reads_of_shard (shard_stripeRecord law hw hi)).body
      rw [hreads.body, hsame, ← horiginal]
    have hrecord := record_of_shard hshard hlen hdigest
    rw [hbody] at hrecord
    exact hin (Finset.mem_filter.mpr ⟨Finset.mem_range.mpr hi, by rw [hr, hrecord]; rfl⟩)

theorem Rotted.naming_eq (h : e.Rotted wire records) :
    e.naming records (wire.length, sha256 wire) = e.intact wire records := by
  ext i
  rw [naming, Finset.mem_filter, Finset.mem_range, Option.map_eq_some_iff]
  constructor
  · rintro ⟨hi, s, hs, hkey⟩
    have heq := h.goodShard_eq law hw hi
    rw [hs, Option.filter_some, if_pos (decide_eq_true hkey)] at heq
    split at heq
    next hin => exact hin
    next => cases heq
  · intro hin
    have hi : i < e.n := Finset.mem_range.mp (Finset.mem_filter.mp hin).1
    have heq := h.goodShard_eq law hw hi
    rw [if_pos hin, Option.filter_eq_some_iff] at heq
    exact ⟨hi, _, heq.1, rfl⟩

theorem Rotted.members_eq (h : e.Rotted wire records) :
    (e.goodShards records).filter (Shard.wireKey · = (wire.length, sha256 wire)) =
      ((List.range e.n).filter (· ∈ e.intact wire records)).map (e.shardOf wire) :=
  goodShards_filter_eq h.length fun i hi => by simpa using h.goodShard_eq law hw hi

/-- With more than half of the stripes needed, no rival can outvote `k` intact ones. -/
theorem Rotted.not_outvoted_of_lt (h : e.Rotted wire records)
    (hk : e.k ≤ (e.intact wire records).card) (hn : e.n < 2 * e.k) : ¬ e.Outvoted wire records := by
  rintro ⟨d, hout⟩
  have hself : d ≠ (wire.length, sha256 wire) := by
    rintro rfl
    rcases hout with hlt | ⟨-, i, hi, hfirst⟩
    · exact lt_irrefl _ hlt
    · exact lt_irrefl _ (hfirst i hi)
  have hdisjoint : Disjoint (e.intact wire records) (e.naming records d) := by
    rw [← h.naming_eq law hw, Finset.disjoint_left]
    intro i hi hid
    have heq := (Finset.mem_filter.mp hi).2
    rw [(Finset.mem_filter.mp hid).2] at heq
    exact hself (Option.some.inj heq)
  have hsub : e.intact wire records ∪ e.naming records d ⊆ Finset.range e.n :=
    Finset.union_subset (Finset.filter_subset _ _) (Finset.filter_subset _ _)
  have hcard := Finset.card_le_card hsub
  rw [Finset.card_union_of_disjoint hdisjoint, Finset.card_range] at hcard
  have hle : (e.intact wire records).card ≤ (e.naming records d).card := by
    rw [← h.naming_eq law hw]
    exact hout.elim le_of_lt fun h => h.1.le
  omega

/-- With `k` intact records the packet comes back, and the missing and altered ones are
stale, exactly if no rival outvotes the intact ones. -/
theorem assemble_rotted_iff (h : e.Rotted wire records)
    (hk : e.k ≤ (e.intact wire records).card) :
    e.assemble records =
        some ⟨wire, (List.range e.n).filter fun i => i ∉ e.intact wire records⟩ ↔
      ¬ e.Outvoted wire records := by
  have hnaming : e.k ≤ (e.naming records (wire.length, sha256 wire)).card := by
    rwa [h.naming_eq law hw]
  rw [Outvoted, not_exists, ← maxByKey_groups_iff h.length hnaming, assemble_eq_some_iff]
  constructor
  · rintro ⟨c, members, segs, hmax, -, -, -, hstale⟩
    obtain ⟨hmembers, hlarge⟩ :=
      (mem_large_groups h.length).mp (maxByKey_spec hmax).1
    obtain ⟨i, hi⟩ := Finset.card_pos.mp (e.k_pos.trans_le hlarge)
    obtain ⟨s, hs, rfl, rfl⟩ := (mem_naming h.length).mp hi
    -- a stripe of the group chosen is not stale, so it is intact
    have hfresh : s.index ∈ e.intact wire records := by
      by_contra hout
      have hin : s.index ∈ (List.range e.n).filter fun i => i ∉ e.intact wire records :=
        List.mem_filter.mpr ⟨List.mem_range.mpr (Finset.mem_range.mp (Finset.mem_filter.mp hi).1),
          decide_eq_true hout⟩
      simp only at hstale
      rw [hstale, List.mem_filter] at hin
      have hany : members.any (fun t => t.index = s.index) = true :=
        List.any_eq_true.mpr ⟨s, hmembers ▸ List.mem_filter.mpr ⟨hs, decide_eq_true rfl⟩,
          decide_eq_true rfl⟩
      rw [hany] at hin
      cases hin.2
    rw [← h.naming_eq law hw, naming, Finset.mem_filter, (goodShard_of_mem hs).2,
      Option.map_some] at hfresh
    rw [hmax, hmembers, Option.some.inj hfresh.2]
  · intro hmax
    rw [h.members_eq law hw] at hmax
    refine ⟨_, _, e.segments wire, hmax, decode_shardOf law wire ?_ ?_,
      (e.segments_flatten wire).symm, rfl, ?_⟩
    · exact fun i hi => List.mem_range.mp (List.mem_filter.mp hi).1
    · rw [List.toFinset_card_of_nodup (List.nodup_range.filter _)]
      have hfilter : e.intact wire records =
          (Finset.range e.n).filter (· ∈ e.intact wire records) := by
        ext i
        simp +contextual [intact]
      rw [hfilter] at hk
      exact hk
    · rw [h.length, stale_shardOf]
      exact List.filter_congr fun i _ => by simp

end

/-- The records of a wire, one bit of the wire digest in stripe 1 altered. -/
def rottedRecords (e : Erasure) (wire : Bytes) : List (Option Bytes) :=
  (e.wholeRecords wire).modify 1 (Option.map fun r => r.modify 5 (· ^^^ 1))

omit [Sha2] [Codec UInt8] in
theorem assemble_rottedRecords_default :
    letI := shortSha2
    letI := xorCodec
    (default : Erasure).assemble ((default : Erasure).rottedRecords [1, 2]) =
      some ⟨[1, 2], [1]⟩ := by
  let _ := shortSha2
  let _ := xorCodec
  let e : Erasure := default
  have hlaw : Lawful UInt8 e.k e.n := lawful_xorCodec (Or.inr rfl)
  have hw : ([1, 2] : Bytes).length < u32Bound := by decide
  have hrotted : e.Rotted [1, 2] (e.rottedRecords [1, 2]) := Rotted.of_header 1 (by decide) _
  have hk : e.k ≤ (e.intact [1, 2] (e.rottedRecords [1, 2])).card := by decide +kernel
  have hback := (assemble_rotted_iff hlaw hw hrotted hk).mpr
    (hrotted.not_outvoted_of_lt hlaw hw hk (by decide))
  exact hback.trans (congrArg some (congrArg (Assembled.mk [1, 2]) (by decide +kernel)))

omit [Sha2] [Codec UInt8] in
/-- In a 1-of-2 packet the altered record outvotes the intact one, and the packet is
hidden. -/
theorem assemble_rottedRecords_pair :
    letI := shortSha2
    letI := copyCodec UInt8
    let e : Erasure := ⟨1, 2, by decide, by decide, by decide⟩
    Lawful UInt8 e.k e.n ∧ e.Rotted [1] (e.rottedRecords [1]) ∧
      e.k ≤ (e.intact [1] (e.rottedRecords [1])).card ∧
      e.assemble (e.rottedRecords [1]) = none := by
  let _ := shortSha2
  let _ := copyCodec UInt8
  exact ⟨lawful_copyCodec (by decide), Rotted.of_header 1 (by decide) _, by decide +kernel,
    Option.isNone_iff_eq_none.mp (by decide +kernel)⟩

end Erasure

end NdnRepo
