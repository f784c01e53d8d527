import NdnRepo.Held.Scan

/-!
# Runs of a store

A store is given packets, loses records, and is read.  `Run` follows such a run
and notes for each name the wire it was last given and the stripes that lost
their record since it was last given or read.

The stripes not lost hold the records of that wire and the others no good shard
of anything (`Run.Kept`).  So a name that lost at most `n - k` of its records is
read back, no name is ever read as anything else, and a read makes up for the
losses (`Run.keeps_what_it_was_given`).
-/

namespace NdnRepo

open Coding Sorted

variable {Name : Type} [NdnName Name] [Sha2] [Codec UInt8]

/-! ## What reads and scans do to the records of a name -/

namespace ErasureStore

variable {s : ErasureStore Name}

theorem get_snd (s : ErasureStore Name) (name : Name) : (s.get name).2 = s.repair name :=
  rebuild_snd rfl

variable (law : Lawful UInt8 s.erasure.k s.erasure.n)

include law

/-- A repair looks only at the records of its name. -/
theorem records_repair_congr {t : ErasureStore Name} {name : Name} (he : t.erasure = s.erasure)
    (hr : t.records name = s.records name) :
    (t.repair name).records name = (s.repair name).records name := by
  have hassemble : t.erasure.assemble (t.records name) = s.erasure.assemble (s.records name) := by
    rw [he, hr]
  cases h : s.erasure.assemble (s.records name) with
  | none => rw [repair_eq_self h, repair_eq_self (hassemble.trans h), hr]
  | some a =>
      rw [records_repair law h, records_repair (he ▸ law) (hassemble.trans h), hr, he]

/-- Judging complete rows repairs their names. -/
theorem records_judge_zero :
    ∀ (rows : List (Name × List (Option Bytes))) (out : List (Name × Bytes))
      (t : ErasureStore Name), t.erasure = s.erasure → (rows.map Prod.fst).Nodup →
        (∀ row ∈ rows, row.2 = t.records row.1) → ∀ name,
          (judge 0 none rows out t).2.records name =
            if name ∈ rows.map Prod.fst then (t.repair name).records name else t.records name
  | [], out, t, _, _, _, name => by simp [judge]
  | (first, records) :: rows, out, t, he, hnodup, hrows, name => by
      rw [List.map_cons, List.nodup_cons] at hnodup
      have hlaw : Lawful UInt8 t.erasure.k t.erasure.n := he ▸ law
      have hrecords : records = t.records first := hrows _ (List.mem_cons_self ..)
      have hstep : ∃ out', (judge 0 none ((first, records) :: rows) out t).2 =
          (judge 0 none rows out' (t.repair first)).2 := by
        rw [← rebuild_snd hrecords, judge, if_neg (fun h => lt_irrefl 0 h.1), if_neg (by simp)]
        generalize t.rebuild first records = got
        obtain ⟨w, t'⟩ := got
        cases w with
        | none => exact ⟨_, rfl⟩
        | some w => exact ⟨_, rfl⟩
      obtain ⟨out', hout⟩ := hstep
      have hother : ∀ row ∈ rows, row.1 ≠ first := fun row hrow h =>
        hnodup.1 (List.mem_map.mpr ⟨row, hrow, h⟩)
      have ih := records_judge_zero rows out' (t.repair first) ((erasure_repair _).trans he)
        hnodup.2 (fun row hrow => by
          rw [records_repair_of_ne hlaw (hother row hrow)]
          exact hrows row (List.mem_cons_of_mem _ hrow)) name
      rw [hout, ih, List.map_cons]
      by_cases hname : name = first
      · subst hname
        rw [if_neg hnodup.1, if_pos (List.mem_cons_self ..)]
      · have hsame := records_repair_of_ne hlaw hname
        by_cases hmem : name ∈ rows.map Prod.fst
        · rw [if_pos hmem, if_pos (List.mem_cons_of_mem _ hmem)]
          exact records_repair_congr hlaw (erasure_repair _) hsame
        · rw [if_neg hmem, if_neg (by simp [hname, hmem]), hsame]

/-- A full scan repairs every name under its prefix. -/
theorem records_scan_full (under name : Name) :
    (s.scan under 0 0).2.records name =
      if hasPrefix name under = true then (s.repair name).records name else s.records name := by
  have hcoll := s.collected_collect under 0
  have hnone : ∀ c, (s.collect under 0).2 ≠ some c := by
    intro c hc
    obtain ⟨i, -, hpos, -⟩ := hcoll.attained c hc
    exact lt_irrefl 0 hpos
  have hrow : ∀ row ∈ (s.collect under 0).1.toList, row.2 = s.records row.1 := by
    rintro ⟨other, row⟩ hmem
    obtain ⟨⟨i, hi⟩, rfl⟩ := mem_rows.mp hmem
    obtain ⟨⟨_, r⟩, hr, rfl⟩ := List.mem_map.mp hi
    exact rowOf_eq_records (mem_listed hr).2 fun c hc => absurd hc (hnone c)
  have hnodup : ((s.collect under 0).1.toList.map Prod.fst).Nodup :=
    (List.pairwise_map.mpr (increasing_toList _)).imp ne_of_lt
  have hscan : (s.scan under 0 0).2 =
      (judge 0 (s.collect under 0).2 (s.collect under 0).1.toList [] s).2 := rfl
  rw [hscan, Option.eq_none_iff_forall_ne_some.mpr hnone,
    records_judge_zero law _ [] s rfl hnodup hrow]
  by_cases hp : hasPrefix name under = true
  · rw [if_pos hp]
    by_cases hmem : name ∈ (s.collect under 0).1.toList.map Prod.fst
    · rw [if_pos hmem]
    · -- A name without a row has no packet, so its repair does nothing.
      rw [if_neg hmem]
      cases hw : s.wire name with
      | none => rw [repair_eq_self (Option.map_eq_none_iff.mp hw)]
      | some w =>
          obtain ⟨i, hi⟩ := exists_record_of_wire hw
          obtain ⟨r, hr⟩ := Option.isSome_iff_exists.mp hi
          have hlook := lookup_listed hp (fun c hc => absurd hc (hnone c)) i
          rw [hr, (s.increasing_listed under 0 i).lookup_eq_some] at hlook
          exact absurd (List.mem_map.mpr
            ⟨_, mem_rows.mpr ⟨⟨i, List.mem_map_of_mem hlook⟩, rfl⟩, rfl⟩) hmem
  · rw [if_neg hp, if_neg]
    intro hmem
    obtain ⟨⟨_, row⟩, hrow', rfl⟩ := List.mem_map.mp hmem
    obtain ⟨⟨i, hi⟩, -⟩ := mem_rows.mp hrow'
    obtain ⟨⟨_, r⟩, hr, rfl⟩ := List.mem_map.mp hi
    exact hp (mem_listed hr).2

omit law in
theorem scanUnder_zero_snd (under : Name) :
    (s.scanUnder under 0).2 = (s.scan under 0 0).2 := by
  have hfull := scan_full_fst s under 0
  unfold scanUnder
  generalize s.scan under 0 0 = got at hfull
  obtain ⟨out, t⟩ := got
  simp only [↓reduceIte] at hfull
  subst hfull
  rfl

theorem records_scanUnder_zero (under name : Name) :
    (s.scanUnder under 0).2.records name =
      if hasPrefix name under = true then (s.repair name).records name else s.records name := by
  rw [scanUnder_zero_snd, records_scan_full law]

omit law in
theorem erasure_scanUnder_zero (under : Name) : (s.scanUnder under 0).2.erasure = s.erasure := by
  rw [scanUnder_zero_snd]
  exact scan_induct (P := fun t => t.erasure = s.erasure)
    (fun t name h => (erasure_repair name).trans h) 0 rfl

end ErasureStore

/-! ## Runs -/

/-- What happens to a store. -/
inductive Event (Name : Type) where
  /-- A packet is inserted. -/
  | insert (name : Name) (wire : Bytes)
  /-- A name is removed. -/
  | remove (name : Name)
  /-- A name is read. -/
  | get (name : Name)
  /-- A full scan under a prefix. -/
  | scan (under : Name)
  /-- A stripe's record of a name is deleted or overwritten. -/
  | lose (stripe : ℕ) (name : Name) (record : Option Bytes)

omit [NdnName Name] [Codec UInt8] in
/-- An insert is accepted when its wire fits, and a lost record is no good shard. -/
def Event.Valid (e : Erasure) : Event Name → Prop
  | .insert _ wire => wire.length < u32Bound
  | .lose stripe _ record => stripe < e.n ∧ record.bind (e.shard stripe) = none
  | _ => True

/-- A store, and what happened to each name. -/
structure Run (Name : Type) [NdnName Name] where
  /-- The store. -/
  store : ErasureStore Name
  /-- The wire of the last insert, unless removed since. -/
  last : Name → Option Bytes
  /-- The stripes that lost their record since the last insert or successful read. -/
  lost : Name → Finset ℕ

namespace Run

omit [Sha2] [Codec UInt8] in
/-- An empty store. -/
def start (e : Erasure) : Run Name := ⟨.openEmpty e, fun _ => none, fun _ => ∅⟩

/-- One event. -/
def step (r : Run Name) : Event Name → Run Name
  | .insert name wire =>
      ⟨r.store.insert name wire, Function.update r.last name (some wire),
        Function.update r.lost name ∅⟩
  | .remove name => ⟨r.store.remove name, Function.update r.last name none, r.lost⟩
  | .get name =>
      let (got, store) := r.store.get name
      ⟨store, r.last, if got.isSome then Function.update r.lost name ∅ else r.lost⟩
  | .scan under =>
      let (out, store) := r.store.scanUnder under 0
      ⟨store, r.last, fun name => if name ∈ out.map Prod.fst then ∅ else r.lost name⟩
  | .lose stripe name record =>
      ⟨r.store.putRecord stripe name record, r.last,
        Function.update r.lost name (insert stripe (r.lost name))⟩

/-- A run of events. -/
def steps (r : Run Name) (events : List (Event Name)) : Run Name := events.foldl step r

/-- What a store keeps of a name. -/
structure KeptName (e : Erasure) (records : List (Option Bytes)) (last : Option Bytes)
    (lost : Finset ℕ) : Prop where
  /-- The good shards are those of the wire. -/
  holds : e.HoldsOnly records last
  /-- A stripe that lost nothing holds its record of it. -/
  present : ∀ i < e.n, i ∉ lost → records.getD i none = last.map (e.stripeRecord · i)

/-- What a store keeps. -/
structure Kept (e : Erasure) (r : Run Name) : Prop where
  /-- The parameters stay. -/
  erasure : r.store.erasure = e
  /-- Each name is kept. -/
  name : ∀ name, KeptName e (r.store.records name) (r.last name) (r.lost name)

/-! ## What one event keeps -/

section Names

variable {e : Erasure} {records : List (Option Bytes)} {last : Option Bytes} {lost : Finset ℕ}

theorem KeptName.whole {wire : Bytes} (hw : wire.length < u32Bound) :
    KeptName e (e.wholeRecords wire) (some wire) lost :=
  ⟨.of_wire e hw, fun _ hi _ => e.getD_wholeRecords wire hi⟩

theorem KeptName.nothing : KeptName e (List.replicate e.n none) none lost :=
  ⟨.replicate e, fun i hi _ => by simp [hi]⟩

/-- Losing a record costs one stripe. -/
theorem KeptName.set (h : KeptName e records last lost) {stripe : ℕ} {record : Option Bytes}
    (hbad : record.bind (e.shard stripe) = none) :
    KeptName e (records.set stripe record) last (insert stripe lost) := by
  have hget : ∀ i < e.n, (records.set stripe record).getD i none =
      if stripe = i then record else records.getD i none := by
    intro i hi
    have hi' : i < records.length := h.holds.length ▸ hi
    by_cases hs : stripe = i
    · subst hs
      simp [hi']
    · simp [hs]
  refine ⟨h.holds.of_getD (by simp [h.holds.length]) fun i hi => ?_, fun i hi hfresh => ?_⟩
  · rw [hget i hi]
    by_cases hs : stripe = i
    · subst hs
      rw [if_pos rfl]
      exact Or.inr (Or.inl hbad)
    · rw [if_neg hs]
      exact Or.inl rfl
  · rw [Finset.mem_insert, not_or] at hfresh
    rw [hget i hi, if_neg (Ne.symm hfresh.1)]
    exact h.present i hi hfresh.2

variable (law : Lawful UInt8 e.k e.n) {s : ErasureStore Name} (he : s.erasure = e) {name : Name}

include law he

/-- A packet that is read is the last one given, and is whole after the read. -/
theorem KeptName.records_repair (h : KeptName e (s.records name) last lost) {w : Bytes}
    (hw : s.wire name = some w) :
    last = some w ∧ (s.repair name).records name = e.wholeRecords w := by
  subst he
  obtain ⟨a, ha, rfl⟩ := Option.map_eq_some_iff.mp hw
  obtain ⟨hlast, hfresh⟩ := h.holds.assemble_eq_some law ha
  refine ⟨hlast, List.ext_getElem (by simp [Erasure.wholeRecords, ErasureStore.erasure_repair]) ?_⟩
  intro i h1 h2
  have hi : i < s.erasure.n := by simpa [Erasure.wholeRecords] using h2
  have hget := ErasureStore.getD_records_repair law ha hi
  rw [List.getD_eq_getElem _ _ h1] at hget
  rw [hget]
  by_cases hstale : i ∈ a.stale
  · simp [Erasure.wholeRecords, hstale]
  · rw [if_neg hstale, hfresh i hi hstale]
    simp [Erasure.wholeRecords]

/-- A read keeps a name, and makes up for its losses when it finds the packet. -/
theorem KeptName.repair (h : KeptName e (s.records name) last lost) :
    KeptName e ((s.repair name).records name) last
      (if (s.wire name).isSome then ∅ else lost) := by
  cases hw : s.wire name with
  | none =>
      rw [ErasureStore.repair_eq_self (Option.map_eq_none_iff.mp hw)]
      exact h
  | some w =>
      obtain ⟨rfl, hwhole⟩ := h.records_repair law he hw
      rw [hwhole]
      exact KeptName.whole (h.holds.short w rfl)

/-- A name that lost at most `n - k` records is read as what was last given. -/
theorem KeptName.wire_eq (h : KeptName e (s.records name) last lost)
    (hbudget : lost.card ≤ e.n - e.k) : s.wire name = last := by
  subst he
  cases hlast : last with
  | none =>
      cases hw : s.wire name with
      | none => rfl
      | some w =>
          have hsome := (h.records_repair law rfl hw).1
          rw [hlast] at hsome
          cases hsome
  | some w =>
      have hstripes : ∀ i ∈ Finset.range s.erasure.n \ lost, i < s.erasure.n ∧
          (s.records name).getD i none = some (s.erasure.stripeRecord w i) := by
        intro i hi
        rw [Finset.mem_sdiff, Finset.mem_range] at hi
        have hpresent := h.present i hi.1 hi.2
        rw [hlast] at hpresent
        exact ⟨hi.1, hpresent⟩
      have hcard := Finset.le_card_sdiff lost (Finset.range s.erasure.n)
      rw [Finset.card_range] at hcard
      have hkn := s.erasure.k_le_n
      obtain ⟨a, ha⟩ := h.holds.exists_assemble law hlast hstripes (by omega)
      have hw : s.wire name = some a.wire := by rw [ErasureStore.wire, ha]; rfl
      have hsome := (h.records_repair law rfl hw).1
      rw [hw, ← hsome, hlast]

/-- Whatever a name lost, it is read as what was last given or not at all. -/
theorem KeptName.wire_or (h : KeptName e (s.records name) last lost) :
    s.wire name = last ∨ s.wire name = none := by
  cases hw : s.wire name with
  | none => exact Or.inr rfl
  | some w => exact Or.inl (h.records_repair law he hw).1.symm

end Names

/-! ## Every run -/

section Runs

variable {e : Erasure} (law : Lawful UInt8 e.k e.n)

theorem kept_start : Kept e (start e : Run Name) := by
  refine ⟨rfl, fun name => ?_⟩
  rw [start, ErasureStore.records_openEmpty]
  exact KeptName.nothing

include law

/-- Every event keeps every name. -/
theorem kept_step {r : Run Name} (h : Kept e r) {event : Event Name} (hvalid : event.Valid e) :
    Kept e (r.step event) := by
  obtain ⟨s, last, lost⟩ := r
  obtain ⟨he, hname⟩ := h
  simp only at he hname
  subst he
  cases event with
  | insert name wire =>
      refine ⟨ErasureStore.erasure_insert law name wire, fun other => ?_⟩
      simp only [step, ErasureStore.records_insert law name other hvalid]
      by_cases ho : other = name
      · subst ho
        simp only [↓reduceIte, Function.update_self]
        exact KeptName.whole hvalid
      · simp only [if_neg ho, Function.update_of_ne ho]
        exact hname other
  | remove name =>
      refine ⟨rfl, fun other => ?_⟩
      simp only [step, ErasureStore.records_remove]
      by_cases ho : other = name
      · subst ho
        simp only [↓reduceIte, Function.update_self]
        exact KeptName.nothing
      · simp only [if_neg ho, Function.update_of_ne ho]
        exact hname other
  | get name =>
      have hstep : step ⟨s, last, lost⟩ (.get name) = ⟨s.repair name, last,
          if (s.wire name).isSome then Function.update lost name ∅ else lost⟩ := by
        rw [← ErasureStore.get_fst_eq_wire, ← ErasureStore.get_snd]
        rfl
      rw [hstep]
      refine ⟨ErasureStore.erasure_repair name, fun other => ?_⟩
      by_cases ho : other = name
      · subst ho
        have hrepair := (hname other).repair law rfl
        cases hw : s.wire other <;> simpa [hw] using hrepair
      · have hother := hname other
        rw [← ErasureStore.records_repair_of_ne law ho] at hother
        cases hw : s.wire name <;> simpa [hw, Function.update_of_ne ho] using hother
  | scan under =>
      have hmem : ∀ other, other ∈ (s.scanUnder under 0).1.map Prod.fst ↔
          hasPrefix other under = true ∧ (s.wire other).isSome = true := by
        intro other
        simp [ErasureStore.scanUnder_zero, ErasureStore.mem_packetsUnder,
          Option.isSome_iff_exists]
      refine ⟨ErasureStore.erasure_scanUnder_zero under, fun other => ?_⟩
      simp only [step, ErasureStore.records_scanUnder_zero law, hmem]
      by_cases hp : hasPrefix other under = true
      · simp only [hp, true_and, ↓reduceIte]
        exact (hname other).repair law rfl
      · simp only [hp, Bool.false_eq_true, false_and, ↓reduceIte]
        exact hname other
  | lose stripe name record =>
      refine ⟨rfl, fun other => ?_⟩
      simp only [step, ErasureStore.records_putRecord]
      by_cases ho : other = name
      · subst ho
        simp only [↓reduceIte, Function.update_self]
        exact (hname other).set hvalid.2
      · simp only [if_neg ho, Function.update_of_ne ho]
        exact hname other

/-- Every run keeps every name. -/
theorem kept_steps : ∀ (events : List (Event Name)) {r : Run Name},
    (∀ event ∈ events, event.Valid e) → Kept e r → Kept e (r.steps events)
  | [], _, _, h => h
  | event :: events, _, hvalid, h =>
      kept_steps events (fun ev hev => hvalid ev (List.mem_cons_of_mem _ hev))
        (kept_step law h (hvalid event (List.mem_cons_self ..)))

/-- A store keeps what it was given.  After any run, a name that lost at most
`n - k` records since it was last inserted or read is read as the wire last
inserted, any other is read as that or not at all, and a read or a full scan that
finds a packet leaves its records in every stripe. -/
theorem keeps_what_it_was_given {events : List (Event Name)}
    (hvalid : ∀ event ∈ events, event.Valid e) (name : Name) :
    let r := (start e).steps events
    ((r.lost name).card ≤ e.n - e.k → (r.store.get name).1 = r.last name) ∧
      ((r.store.get name).1 = r.last name ∨ (r.store.get name).1 = none) ∧
      (∀ w, (r.store.get name).1 = some w →
        (r.store.get name).2.records name = e.wholeRecords w) ∧
      ∀ under w, (name, w) ∈ (r.store.scanUnder under 0).1 →
        r.last name = some w ∧ (r.store.scanUnder under 0).2.records name = e.wholeRecords w := by
  intro r
  have hkept : Kept e r := kept_steps law events hvalid kept_start
  obtain ⟨he, hname⟩ := hkept
  have hlaw : Lawful UInt8 r.store.erasure.k r.store.erasure.n := he ▸ law
  rw [ErasureStore.get_fst_eq_wire, ErasureStore.get_snd]
  refine ⟨(hname name).wire_eq law he, (hname name).wire_or law he,
    fun w hw => ((hname name).records_repair law he hw).2, fun under w hmem => ?_⟩
  rw [ErasureStore.scanUnder_zero, ErasureStore.mem_packetsUnder] at hmem
  rw [ErasureStore.records_scanUnder_zero hlaw, if_pos hmem.1]
  exact (hname name).records_repair law he hmem.2

end Runs

/-- A packet loses a record, is read, and loses another. -/
def lossyRun : List (Event Components) :=
  [.insert [[8, 1, 98]] [1, 2], .lose 1 [[8, 1, 98]] none, .get [[8, 1, 98]],
    .lose 0 [[8, 1, 98]] (some [0])]

omit [Sha2] [Codec UInt8] in
theorem keeps_lossyRun :
    letI := shortSha2
    letI := xorCodec
    (((start default).steps lossyRun).store.get [[8, 1, 98]]).1 = some [1, 2] := by
  let _ := shortSha2
  let _ := xorCodec
  have hvalid : ∀ event ∈ lossyRun, event.Valid default := by
    simp [lossyRun, Event.Valid, u32Bound, Erasure.shard, headerLength]
    decide
  have hkeeps := (keeps_what_it_was_given (lawful_xorCodec (Or.inr rfl)) hvalid [[8, 1, 98]]).1
  exact (hkeeps (by decide +kernel)).trans (by decide +kernel)

end Run

end NdnRepo
