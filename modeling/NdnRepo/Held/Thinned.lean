import NdnRepo.Held.StoreRun

/-!
# A store that lost records but no packet

Stripes may lose single records.  `ErasureStore.Holds` says that a store still has at
least `k` records of each packet of a map from names to wires.

Such a store reads as the map does: `get` and `contains` agree, and its scans overlook
nothing (`Holds.not_overlooks`), because a stripe that lists `limit` records lists
those of `limit` packets.  Reads, scans, inserts and removes keep it so.
-/

namespace NdnRepo

open Coding Sorted

variable {Name : Type} [NdnName Name] [Sha2] [Codec UInt8]

/-! ## Names that lost some records -/

/-- In how many stripes there is a record. -/
def Erasure.recordCount (e : Erasure) (records : List (Option Bytes)) : ℕ :=
  (List.range e.n).countP fun i => (records.getD i none).isSome

omit [Sha2] [Codec UInt8] in
theorem ErasureStore.contains_eq (s : ErasureStore Name) (name : Name) :
    s.contains name = decide (s.erasure.k ≤ s.erasure.recordCount (s.records name)) := by
  have hstripe : ∀ i : Fin s.erasure.n, (s.stripes i).contains name =
      ((s.records name).getD i.val none).isSome := fun i => by
    rw [ErasureStore.getD_records s name i.isLt, FjallStore.contains_eq]
  simp only [contains, hstripe]
  rw [Erasure.recordCount, ← List.map_coe_finRange_eq_range, List.countP_map]
  rfl

/-- What the stripes hold of a name that lost records but no packet: its wire's record
or none each, of a wire at least `k`. -/
structure Thinned (e : Erasure) (records : List (Option Bytes)) (last : Option Bytes) :
    Prop where
  /-- There is one record for each stripe. -/
  length : records.length = e.n
  /-- The wire fits the length field. -/
  short : ∀ w, last = some w → w.length < u32Bound
  /-- A record is that of the wire. -/
  only : ∀ i < e.n, records.getD i none = none ∨
    ∃ w, last = some w ∧ records.getD i none = some (e.stripeRecord w i)
  /-- There are enough of them. -/
  enough : last.isSome → e.k ≤ e.recordCount records

namespace Thinned

variable {e : Erasure} {records : List (Option Bytes)} {last : Option Bytes}

theorem nothing (e : Erasure) : Thinned e (List.replicate e.n none) none :=
  ⟨List.length_replicate, nofun, fun i hi => Or.inl (by simp [hi]), nofun⟩

theorem whole (e : Erasure) {wire : Bytes} (hw : wire.length < u32Bound) :
    Thinned e (e.wholeRecords wire) (some wire) := by
  refine ⟨by simp [Erasure.wholeRecords], fun w h => Option.some.inj h ▸ hw,
    fun i hi => Or.inr ⟨wire, rfl, e.getD_wholeRecords wire hi⟩, fun _ => ?_⟩
  have hall : e.recordCount (e.wholeRecords wire) = (List.range e.n).length :=
    List.countP_eq_length.mpr fun i hi => by
      rw [e.getD_wholeRecords wire (List.mem_range.mp hi)]
      rfl
  rw [hall, List.length_range]
  exact e.k_le_n

/-- Losing a record, where enough are left. -/
theorem set_none (h : Thinned e records last) (stripe : ℕ)
    (henough : last.isSome → e.k ≤ e.recordCount (records.set stripe none)) :
    Thinned e (records.set stripe none) last := by
  refine ⟨by simp [h.length], h.short, fun i hi => ?_, henough⟩
  by_cases hs : stripe = i
  · subst hs
    exact Or.inl (by simp [h.length, hi])
  · have hget : (records.set stripe none).getD i none = records.getD i none := by simp [hs]
    rw [hget]
    exact h.only i hi

/-- Such a name is kept: it lost the records that are missing. -/
theorem kept (h : Thinned e records last) : ∃ lost : Finset ℕ,
    Run.KeptName e records last lost ∧ lost.card ≤ e.n - e.k := by
  refine ⟨(Finset.range e.n).filter fun i => records.getD i none ≠ last.map (e.stripeRecord · i),
    ⟨⟨h.length, h.short, fun i hi => ?_⟩, fun i hi hpresent => ?_⟩, ?_⟩
  · rcases h.only i hi with hnone | hwire
    · exact Or.inl (by rw [Erasure.goodShard, hnone]; rfl)
    · exact Or.inr hwire
  · simpa [hi] using hpresent
  · cases hlast : last with
    | none =>
        have hempty : (Finset.range e.n).filter (fun i =>
            records.getD i none ≠ Option.map (e.stripeRecord · i) none) = ∅ := by
          rw [Finset.filter_eq_empty_iff]
          intro i hi
          rcases h.only i (Finset.mem_range.mp hi) with hnone | ⟨w, hw, -⟩
          · simpa using hnone
          · rw [hlast] at hw
            cases hw
        rw [hempty]
        simp
    | some w =>
        have henough := h.enough (by rw [hlast]; rfl)
        have hlost : (Finset.range e.n).filter (fun i =>
            records.getD i none ≠ Option.map (e.stripeRecord · i) (some w)) ⊆
              (Finset.range e.n).filter fun i => ¬(records.getD i none).isSome = true := by
          intro i hi
          rw [Finset.mem_filter] at hi ⊢
          refine ⟨hi.1, fun hsome => ?_⟩
          rcases h.only i (Finset.mem_range.mp hi.1) with hnone | ⟨w', hw', hr⟩
          · rw [hnone] at hsome
            cases hsome
          · rw [hlast] at hw'
            exact hi.2 (hw' ▸ hr)
        have hcount : e.recordCount records =
            ((Finset.range e.n).filter fun i => (records.getD i none).isSome = true).card := by
          rw [Erasure.recordCount, List.countP_eq_length_filter,
            ← List.toFinset_card_of_nodup (List.nodup_range.filter _), List.toFinset_filter,
            List.toFinset_range]
        have hsplit := Finset.card_filter_add_card_filter_not
          (s := Finset.range e.n) fun i => (records.getD i none).isSome = true
        have hcard := Finset.card_le_card hlost
        rw [Finset.card_range] at hsplit
        omega

variable (law : Lawful UInt8 e.k e.n) {s : ErasureStore Name} (he : s.erasure = e) {name : Name}

include law he

theorem wire_eq (h : Thinned e (s.records name) last) : s.wire name = last := by
  obtain ⟨lost, hkept, hcard⟩ := h.kept
  exact hkept.wire_eq law he hcard

theorem repair (h : Thinned e (s.records name) last) :
    Thinned e ((s.repair name).records name) last := by
  cases hlast : last with
  | none =>
      have hnone : s.wire name = none := (h.wire_eq law he).trans hlast
      rw [ErasureStore.repair_eq_self (Option.map_eq_none_iff.mp hnone), ← hlast]
      exact h
  | some w =>
      obtain ⟨lost, hkept, -⟩ := h.kept
      rw [(hkept.records_repair law he ((h.wire_eq law he).trans hlast)).2]
      exact whole e (h.short w hlast)

end Thinned

/-! ## A store that lost no packet -/

namespace ErasureStore

/-- A store holds the packets of a map, each in at least `k` stripes. -/
structure Holds (e : Erasure) (s : ErasureStore Name) (last : Name → Option Bytes) : Prop where
  /-- The parameters stay. -/
  erasure : s.erasure = e
  /-- Each name lost no packet. -/
  name : ∀ name, Thinned e (s.records name) (last name)

namespace Holds

variable {e : Erasure} {s : ErasureStore Name} {last : Name → Option Bytes} {name under : Name}
  {limit : ℕ}

theorem openEmpty (e : Erasure) : Holds e (.openEmpty e : ErasureStore Name) fun _ => none :=
  ⟨rfl, fun name => by rw [records_openEmpty]; exact .nothing e⟩

theorem remove (h : Holds e s last) (name : Name) :
    Holds e (s.remove name) (Function.update last name none) := by
  refine ⟨h.erasure, fun other => ?_⟩
  rw [records_remove, Function.update_apply]
  split
  · rw [h.erasure]
    exact .nothing e
  · exact h.name other

theorem contains_eq (h : Holds e s last) : s.contains name = (last name).isSome := by
  rw [s.contains_eq, h.erasure]
  cases hlast : last name with
  | none =>
      have hzero : e.recordCount (s.records name) = 0 := by
        rw [Erasure.recordCount, List.countP_eq_zero]
        intro i hi
        rcases (h.name name).only i (List.mem_range.mp hi) with hnone | ⟨w, hw, -⟩
        · rw [hnone]
          nofun
        · rw [hlast] at hw
          cases hw
      have hpos := e.k_pos
      rw [hzero]
      simpa using hpos.ne'
  | some w => simpa using (h.name name).enough (by rw [hlast]; rfl)

/-- Losing a record keeps the packets, unless it costs one. -/
theorem lose (h : Holds e s last) {stripe : ℕ} {name : Name}
    (hkeeps : s.contains name = true → (s.putRecord stripe name none).contains name = true) :
    Holds e (s.putRecord stripe name none) last := by
  refine ⟨h.erasure, fun other => ?_⟩
  rw [h.contains_eq, ErasureStore.contains_eq, erasure_putRecord, h.erasure] at hkeeps
  rw [records_putRecord] at hkeeps ⊢
  split
  next ho =>
    subst ho
    exact (h.name other).set_none stripe fun hsome => by simpa using hkeeps hsome
  next => exact h.name other

variable (law : Lawful UInt8 e.k e.n)

include law

theorem insert (h : Holds e s last) (name : Name) {wire : Bytes} (hw : wire.length < u32Bound) :
    Holds e (s.insert name wire) (Function.update last name (some wire)) := by
  obtain rfl := h.erasure
  refine ⟨erasure_insert law name wire, fun other => ?_⟩
  rw [records_insert law name other hw, Function.update_apply]
  split
  · exact .whole _ hw
  · exact h.name other

theorem wire_eq (h : Holds e s last) : s.wire name = last name :=
  (h.name name).wire_eq law h.erasure

theorem repair (h : Holds e s last) (name : Name) : Holds e (s.repair name) last := by
  obtain rfl := h.erasure
  refine ⟨erasure_repair name, fun other => ?_⟩
  by_cases ho : other = name
  · subst ho
    exact (h.name other).repair law rfl
  · rw [records_repair_of_ne law ho]
    exact h.name other

theorem mem_packetsUnder (h : Holds e s last) {w : Bytes} :
    (name, w) ∈ s.packetsUnder under ↔ last name = some w ∧ hasPrefix name under = true := by
  rw [ErasureStore.mem_packetsUnder, h.wire_eq law, and_comm]

/-- A stripe that lists `limit` records lists those of `limit` packets. -/
theorem not_overlooks (h : Holds e s last) : ¬s.Overlooks under limit := by
  rintro ⟨c, ⟨⟨i, hlen, hlast⟩, -⟩, hend, hfew, -⟩
  have hnodup : ((s.listed under limit i).map Prod.fst).Nodup :=
    (List.pairwise_map.mpr (s.increasing_listed under limit i)).imp ne_of_lt
  have hsub : ((s.listed under limit i).map Prod.fst).toFinset ⊆
      (s.namesUnder under).filter fun name => name ≤ c ∧ (s.wire name).isSome := by
    intro name hname
    obtain ⟨⟨_, r⟩, hmem, rfl⟩ := List.mem_map.mp (List.mem_toFinset.mp hname)
    obtain ⟨hr, hp⟩ := mem_listed hmem
    refine Finset.mem_filter.mpr ⟨mem_namesUnder.mpr ⟨hp, i, by rw [hr]; rfl⟩,
      hend i _ hmem, ?_⟩
    have hi : i.val < e.n := h.erasure ▸ i.isLt
    rw [h.wire_eq law]
    rcases (h.name _).only i hi with hnone | ⟨w, hw, -⟩
    · rw [getD_records s _ i.isLt, hr] at hnone
      cases hnone
    · rw [hw]
      rfl
  have hcard := Finset.card_le_card hsub
  rw [List.toFinset_card_of_nodup hnodup, List.length_map] at hcard
  omega

theorem scanUnder_fst (h : Holds e s last) (under : Name) (limit : ℕ) :
    (s.scanUnder under limit).1 = upTo limit (s.packetsUnder under) := by
  rcases Nat.eq_zero_or_pos limit with rfl | hpos
  · exact s.scanUnder_zero under
  · rw [upTo, if_neg hpos.ne']
    exact (scanUnder_eq_take_iff (h.erasure ▸ law) hpos).mpr (h.not_overlooks law)

theorem scanUnder_snd (h : Holds e s last) (under : Name) (limit : ℕ) :
    Holds e (s.scanUnder under limit).2 last := by
  have hscan : ∀ (t : ErasureStore Name) stripeLimit, Holds e t last →
      Holds e (t.scan under stripeLimit limit).2 last := fun t stripeLimit ht =>
    scan_induct (P := fun t => Holds e t last) (fun _ name ht => ht.repair law name) stripeLimit ht
  have hfirst := hscan s limit h
  unfold scanUnder
  generalize s.scan under limit limit = got at hfirst
  obtain ⟨first, t⟩ := got
  cases first with
  | some out => exact hfirst
  | none =>
      have hfull := hscan t 0 hfirst
      simp only
      generalize t.scan under 0 limit = got at hfull
      obtain ⟨second, t'⟩ := got
      cases second <;> exact hfull

end Holds

end ErasureStore

end NdnRepo
