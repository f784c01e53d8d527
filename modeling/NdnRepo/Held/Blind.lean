import NdnRepo.Lib.Steps
import NdnRepo.Held.StoreRun

/-!
# Reads that fail

A stripe that fails to answer is taken to hold nothing: no record is read from it, and a
scan of it lists nothing.  So a packet all of whose shards are there may be found stale,
and is repaired, or be missed.  Which stripes fail may change with every read, also between
a read and the repair it leads to.

Such failures cost nothing but the answer.  A read or a scan finds the packet last given or
none, it does find it if no more than `n - k` stripes failed or lost their record, and the
repairs leave every other record as it was (`finds_despite_faults`).
-/

namespace NdnRepo

open Coding Sorted

variable {Name : Type} [NdnName Name]

/-- The reads that fail in a pass of a scan: those that list a stripe, and those that a
repair of a name makes. -/
structure ReadFaults (Name : Type) where
  /-- The stripes that are not listed. -/
  listing : ℕ → Bool
  /-- The stripes that are not read to repair a name. -/
  repairing : Name → ℕ → Bool

namespace ErasureStore

/-- A store as it is read while some stripes fail. -/
def hide (s : ErasureStore Name) (blind : ℕ → Bool) : ErasureStore Name :=
  { s with stripes := fun i => if blind i then .empty else s.stripes i }

variable [Sha2] [Codec UInt8]

/-- `repair`, while some stripes cannot be read. -/
def repairBlind (s : ErasureStore Name) (blind : ℕ → Bool) (name : Name) : ErasureStore Name :=
  match s.erasure.assemble ((s.hide blind).records name) with
  | none => s
  | some now =>
      if now.stale.isEmpty then s
      else
        match s.erasure.encode now.wire with
        | .ok records =>
            now.stale.foldl (fun s i => s.putRecord i name (some (records.getD i []))) s
        | .error _ => s

/-- `rebuild`, where its repair may not read some stripes. -/
def rebuildBlind (s : ErasureStore Name) (blind : ℕ → Bool) (name : Name)
    (records : List (Option Bytes)) : Option Bytes × ErasureStore Name :=
  match s.erasure.assemble records with
  | none => (none, s)
  | some got => (some got.wire, if got.stale.isEmpty then s else s.repairBlind blind name)

/-- The packet of a name, where some stripes cannot be read, and `again` not for a repair. -/
def getBlind (s : ErasureStore Name) (blind again : ℕ → Bool) (name : Name) :
    Option Bytes × ErasureStore Name :=
  s.rebuildBlind again name ((s.hide blind).records name)

/-- `judge`, where the repairs may not read some stripes. -/
def judgeBlind (blind : Name → ℕ → Bool) (limit : ℕ) (completeTo : Option Name) :
    List (Name × List (Option Bytes)) → List (Name × Bytes) → ErasureStore Name →
      Option (List (Name × Bytes)) × ErasureStore Name
  | [], out, s => (some out, s)
  | (name, records) :: rows, out, s =>
      if 0 < limit ∧ limit ≤ out.length then (some out, s)
      else if completeTo.any (· < name) then (none, s)
      else
        match s.rebuildBlind (blind name) name records with
        | (some wire, s) => judgeBlind blind limit completeTo rows (out ++ [(name, wire)]) s
        | (none, s) => judgeBlind blind limit completeTo rows out s

/-- `scan`, where some reads fail. -/
def scanBlind (s : ErasureStore Name) (faults : ReadFaults Name) (under : Name)
    (stripeLimit limit : ℕ) : Option (List (Name × Bytes)) × ErasureStore Name :=
  let (rows, completeTo) := (s.hide faults.listing).collect under stripeLimit
  judgeBlind faults.repairing limit completeTo rows.toList [] s

/-- The first `limit` (0 = all) packets under a name, where some reads fail, and others when
the scan is made again. -/
def scanUnderBlind (s : ErasureStore Name) (faults again : ReadFaults Name) (under : Name)
    (limit : ℕ) : List (Name × Bytes) × ErasureStore Name :=
  match s.scanBlind faults under limit limit with
  | (some out, s) => (out, s)
  | (none, s) =>
      match s.scanBlind again under 0 limit with
      | (some out, s) => (out, s)
      | (none, s) => ([], s)

/-! ## What is found -/

omit [Sha2] [Codec UInt8] in
@[simp] theorem erasure_hide (s : ErasureStore Name) (blind : ℕ → Bool) :
    (s.hide blind).erasure = s.erasure := rfl

omit [Sha2] [Codec UInt8] in
theorem getD_records_hide (s : ErasureStore Name) (blind : ℕ → Bool) (name : Name) {i : ℕ}
    (hi : i < s.erasure.n) : ((s.hide blind).records name).getD i none =
      if blind i then none else (s.records name).getD i none := by
  have hstripe : ((s.hide blind).stripes ⟨i, hi⟩).get name =
      if blind i then none else (s.stripes ⟨i, hi⟩).get name := by
    have hif : (s.hide blind).stripes ⟨i, hi⟩ =
        if blind i then .empty else s.stripes ⟨i, hi⟩ := rfl
    rw [hif]
    split
    · exact FjallStore.get_empty name
    · rfl
  rw [s.getD_records name hi, ← hstripe]
  exact (s.hide blind).getD_records name hi

theorem getBlind_fst (s : ErasureStore Name) (blind again : ℕ → Bool) (name : Name) :
    (s.getBlind blind again name).1 = (s.hide blind).wire name := by
  rw [getBlind, rebuildBlind, wire, erasure_hide]
  cases s.erasure.assemble ((s.hide blind).records name) <;> rfl

theorem erasure_repairBlind (s : ErasureStore Name) (blind : ℕ → Bool) (name : Name) :
    (s.repairBlind blind name).erasure = s.erasure := by
  rw [repairBlind]
  split
  · rfl
  · split
    · rfl
    · split
      · exact (records_foldl_putRecord name _ _ s).1
      · rfl

theorem rebuildBlind_cases (s : ErasureStore Name) (blind : ℕ → Bool) (name : Name)
    (records : List (Option Bytes)) :
    (s.rebuildBlind blind name records).1 = (s.erasure.assemble records).map Assembled.wire ∧
      ((s.rebuildBlind blind name records).2 = s ∨
        (s.rebuildBlind blind name records).2 = s.repairBlind blind name) := by
  rw [rebuildBlind]
  cases s.erasure.assemble records with
  | none => exact ⟨rfl, Or.inl rfl⟩
  | some got =>
      refine ⟨rfl, ?_⟩
      simp only
      split
      · exact Or.inl rfl
      · exact Or.inr rfl

/-- Judging finds the same, whatever the repairs come to. -/
theorem judgeBlind_fst (blind : Name → ℕ → Bool) (limit : ℕ) (completeTo : Option Name) :
    ∀ (rows : List (Name × List (Option Bytes))) (out : List (Name × Bytes))
      (s t : ErasureStore Name), s.erasure = t.erasure →
        (judgeBlind blind limit completeTo rows out s).1 = (judge limit completeTo rows out t).1
  | [], _, _, _, _ => rfl
  | (name, records) :: rows, out, s, t, he => by
      have ih := judgeBlind_fst blind limit completeTo rows
      obtain ⟨hfst, hsnd⟩ := s.rebuildBlind_cases (blind name) name records
      obtain ⟨hfst', hsnd'⟩ := t.rebuild_cases name records
      have hsame : (s.rebuildBlind (blind name) name records).2.erasure =
          (t.rebuild name records).2.erasure := by
        have hs : (s.rebuildBlind (blind name) name records).2.erasure = s.erasure := by
          rcases hsnd with h | h
          · rw [h]
          · rw [h, erasure_repairBlind]
        have ht : (t.rebuild name records).2.erasure = t.erasure := by
          rcases hsnd' with h | h
          · rw [h]
          · rw [h, erasure_repair]
        rw [hs, ht, he]
      rw [judgeBlind, judge]
      split
      · rfl
      · split
        · rfl
        · rw [he, ← hfst'] at hfst
          generalize s.rebuildBlind (blind name) name records = got at hfst hsame
          generalize t.rebuild name records = got' at hfst hsame
          obtain ⟨w, s'⟩ := got
          obtain ⟨w', t'⟩ := got'
          obtain rfl : w = w' := hfst
          cases w with
          | none => exact ih out s' t' hsame
          | some w => exact ih _ s' t' hsame

/-- What every repair keeps, judging keeps. -/
theorem judgeBlind_induct {P : ErasureStore Name → Prop}
    (hrepair : ∀ s blind name, P s → P (s.repairBlind blind name)) (blind : Name → ℕ → Bool)
    (limit : ℕ) (completeTo : Option Name) :
    ∀ (rows : List (Name × List (Option Bytes))) (out : List (Name × Bytes))
      (s : ErasureStore Name), P s → P (judgeBlind blind limit completeTo rows out s).2
  | [], _, _, h => h
  | (name, records) :: rows, out, s, h => by
      have ih := judgeBlind_induct hrepair blind limit completeTo rows
      have hnext : P (s.rebuildBlind (blind name) name records).2 := by
        rcases (s.rebuildBlind_cases (blind name) name records).2 with hs | hs
        · rw [hs]
          exact h
        · rw [hs]
          exact hrepair s (blind name) name h
      rw [judgeBlind]
      split
      · exact h
      · split
        · exact h
        · generalize s.rebuildBlind (blind name) name records = got at hnext
          obtain ⟨w, t⟩ := got
          cases w with
          | none => exact ih out t hnext
          | some w => exact ih _ t hnext

/-- A scan finds what one of the store as it is read finds. -/
theorem scanBlind_fst (s : ErasureStore Name) (faults : ReadFaults Name) (under : Name)
    (stripeLimit limit : ℕ) : (s.scanBlind faults under stripeLimit limit).1 =
      ((s.hide faults.listing).scan under stripeLimit limit).1 :=
  judgeBlind_fst _ _ _ _ _ s (s.hide faults.listing) rfl

/-- A full scan lists the packets of the store as it is read. -/
theorem scanUnderBlind_zero (s : ErasureStore Name) (faults again : ReadFaults Name)
    (under : Name) : (s.scanUnderBlind faults again under 0).1 =
      (s.hide faults.listing).packetsUnder under := by
  have hfull := (s.scanBlind_fst faults under 0 0).trans (scan_full_fst _ under 0)
  rw [if_pos rfl] at hfull
  rw [scanUnderBlind]
  generalize s.scanBlind faults under 0 0 = got at hfull
  obtain ⟨out, t⟩ := got
  obtain rfl : out = some _ := hfull
  rfl

/-- A scan finds only packets. -/
theorem mem_packetsUnder_of_scan {s : ErasureStore Name} {under : Name} {stripeLimit limit : ℕ}
    {out : List (Name × Bytes)} (h : (s.scan under stripeLimit limit).1 = some out) :
    ∀ packet ∈ out, packet ∈ s.packetsUnder under := by
  have hfound : ∀ packet ∈ found s.erasure (kept (s.collect under stripeLimit).2
      (s.collect under stripeLimit).1.toList), packet ∈ s.packetsUnder under :=
    fun packet hmem => ((mem_found_kept s under stripeLimit packet.1 packet.2).mp hmem).1
  have hjudge := judge_fst limit (s.collect under stripeLimit).2 s.erasure
    (s.collect under stripeLimit).1.toList [] s rfl fun _ => Nat.zero_le _
  have hscan : (s.scan under stripeLimit limit).1 =
      (judge limit (s.collect under stripeLimit).2
        (s.collect under stripeLimit).1.toList [] s).1 := rfl
  rw [hscan, hjudge, List.nil_append] at h
  intro packet hmem
  split at h
  · cases h
    exact hfound packet (List.mem_of_mem_take hmem)
  · split at h
    next hall =>
      cases h
      rw [List.nil_append, ← hall] at hmem
      exact hfound packet hmem
    next => cases h

/-- What every repair keeps, scans keep, and they find packets of such stores as they are
read. -/
theorem scanUnderBlind_induct {P : ErasureStore Name → Prop}
    (hrepair : ∀ s blind name, P s → P (s.repairBlind blind name)) {s : ErasureStore Name}
    (h : P s) (faults again : ReadFaults Name) (under : Name) (limit : ℕ) :
    P (s.scanUnderBlind faults again under limit).2 ∧
      ∀ packet ∈ (s.scanUnderBlind faults again under limit).1,
        ∃ t blind, P t ∧ packet ∈ (t.hide blind).packetsUnder under := by
  have hscan : ∀ (t : ErasureStore Name) (faults : ReadFaults Name) (stripeLimit : ℕ), P t →
      P (t.scanBlind faults under stripeLimit limit).2 ∧
        ∀ out, (t.scanBlind faults under stripeLimit limit).1 = some out →
          ∀ packet ∈ out, ∃ t blind, P t ∧ packet ∈ (t.hide blind).packetsUnder under := by
    intro t faults stripeLimit ht
    refine ⟨judgeBlind_induct hrepair _ _ _ _ [] t ht, fun out hout packet hmem => ?_⟩
    rw [scanBlind_fst] at hout
    exact ⟨t, faults.listing, ht, mem_packetsUnder_of_scan hout packet hmem⟩
  obtain ⟨hfirst, hfound⟩ := hscan s faults limit h
  rw [scanUnderBlind]
  generalize s.scanBlind faults under limit limit = got at hfirst hfound
  obtain ⟨out, t⟩ := got
  cases out with
  | some out => exact ⟨hfirst, hfound out rfl⟩
  | none =>
      obtain ⟨hsecond, hfound'⟩ := hscan t again 0 hfirst
      simp only
      generalize t.scanBlind again under 0 limit = got at hsecond hfound'
      obtain ⟨out', t'⟩ := got
      cases out' with
      | some out' => exact ⟨hsecond, hfound' out' rfl⟩
      | none => exact ⟨hsecond, fun packet hmem => absurd hmem List.not_mem_nil⟩

end ErasureStore

/-! ## Names -/

open ErasureStore Run

variable [Sha2] [Codec UInt8] {e : Erasure} {last : Option Bytes} {lost : Finset ℕ}

/-- The stripes that cannot be read. -/
def hidden (e : Erasure) (blind : ℕ → Bool) : Finset ℕ :=
  (Finset.range e.n).filter fun i => blind i = true

variable {s : ErasureStore Name} {name : Name}

omit [Codec UInt8] in
/-- What cannot be read is as good as lost, to who reads. -/
theorem Run.KeptName.hide [Codec UInt8] (he : s.erasure = e)
    (h : KeptName e (s.records name) last lost) (blind : ℕ → Bool) :
    KeptName e ((s.hide blind).records name) last (lost ∪ hidden e blind) := by
  subst he
  refine ⟨h.holds.of_getD (by simp) fun i hi => ?_, fun i hi hseen => ?_⟩
  · rw [getD_records_hide s blind name hi]
    split
    · exact Or.inr (Or.inl rfl)
    · exact Or.inl rfl
  · rw [Finset.mem_union, not_or, hidden, Finset.mem_filter, Finset.mem_range] at hseen
    rw [getD_records_hide s blind name hi, if_neg fun hblind => hseen.2 ⟨hi, hblind⟩]
    exact h.present i hi hseen.1

omit [Codec UInt8] in
theorem Run.KeptName.mono [Codec UInt8] {records : List (Option Bytes)} {lost' : Finset ℕ}
    (h : KeptName e records last lost) (hsub : lost ⊆ lost') : KeptName e records last lost' :=
  ⟨h.holds, fun i hi hin => h.present i hi fun hlost => hin (hsub hlost)⟩

variable (law : Lawful UInt8 e.k e.n)

include law

/-- A repair leaves the other names alone. -/
theorem ErasureStore.records_repairBlind_of_ne (he : s.erasure = e) (blind : ℕ → Bool)
    {other : Name} (hne : other ≠ name) :
    (s.repairBlind blind name).records other = s.records other := by
  subst he
  rw [repairBlind]
  split
  · rfl
  · split
    · rfl
    · rw [Erasure.encode_eq law]
      exact ((records_foldl_putRecord name _ _ s).2 other).trans (if_neg hne)

/-- A packet found is the one last given, and the stripes that are not stale hold it. -/
theorem Run.KeptName.assemble_hide (he : s.erasure = e) (h : KeptName e (s.records name) last lost)
    {blind : ℕ → Bool} {got : Assembled}
    (hgot : e.assemble ((s.hide blind).records name) = some got) :
    last = some got.wire ∧ ∀ i < e.n, i ∉ got.stale →
      (s.records name).getD i none = some (e.stripeRecord got.wire i) := by
  subst he
  obtain ⟨hlast, hfresh⟩ := (h.hide rfl blind).holds.assemble_eq_some law hgot
  refine ⟨hlast, fun i hi hstale => ?_⟩
  have hread := hfresh i hi hstale
  rw [getD_records_hide s blind name hi] at hread
  split at hread
  · cases hread
  · exact hread

omit law in
/-- A name all of whose records are those of the wire has lost nothing. -/
theorem Run.KeptName.of_all {records records' : List (Option Bytes)}
    (h : KeptName e records last lost) {wire : Bytes} (hlast : last = some wire)
    (hlen : records'.length = e.n)
    (hall : ∀ i < e.n, records'.getD i none = some (e.stripeRecord wire i)) :
    KeptName e records' last ∅ := by
  subst hlast
  exact ⟨h.holds.of_getD hlen fun i hi => Or.inr (Or.inr ⟨wire, rfl, hall i hi⟩),
    fun i hi _ => hall i hi⟩

/-- A repair that reads enough of the stripes makes a name whole, and another changes
nothing. -/
theorem Run.KeptName.repairBlind (he : s.erasure = e) (h : KeptName e (s.records name) last lost)
    (blind : ℕ → Bool) :
    KeptName e ((s.repairBlind blind name).records name) last
      (if ((s.hide blind).wire name).isSome then ∅ else lost) := by
  subst he
  rw [wire, erasure_hide, ErasureStore.repairBlind]
  cases hnow : s.erasure.assemble ((s.hide blind).records name) with
  | none => exact h
  | some now =>
      obtain ⟨hlast, hfresh⟩ := h.assemble_hide law rfl hnow
      simp only [Option.map_some, Option.isSome_some, if_true]
      split
      next hnone =>
        refine h.of_all hlast (by simp) fun i hi => hfresh i hi ?_
        rw [List.isEmpty_iff.mp hnone]
        exact List.not_mem_nil
      next =>
        rw [Erasure.encode_eq law]
        simp only
        obtain ⟨herasure, hrecords⟩ := records_foldl_putRecord name
          (fun i => some (((List.range s.erasure.n).map
            (s.erasure.stripeRecord now.wire)).getD i [])) now.stale s
        refine h.of_all hlast ((records_length ..).trans (congrArg Erasure.n herasure))
          fun i hi => ?_
        rw [hrecords, if_pos rfl, getD_foldl_set _ _ _ _ (by simpa using hi)]
        split
        next => simp [hi]
        next hstale => exact hfresh i hi hstale

/-- A read keeps its name, and makes up for what was lost if both its reads find the
packet. -/
theorem Run.KeptName.getBlind (he : s.erasure = e) (h : KeptName e (s.records name) last lost)
    (blind again : ℕ → Bool) :
    KeptName e ((s.getBlind blind again name).2.records name) last
      (if ((s.hide blind).wire name).isSome ∧ ((s.hide again).wire name).isSome then ∅
        else lost) := by
  have hrepair := h.repairBlind law he again
  subst he
  rw [ErasureStore.getBlind, rebuildBlind]
  cases hgot : s.erasure.assemble ((s.hide blind).records name) with
  | none =>
      have hwire : (s.hide blind).wire name = none := by rw [wire, erasure_hide, hgot]; rfl
      rw [hwire, if_neg fun hboth => Bool.false_ne_true hboth.1]
      exact h
  | some got =>
      have hwire : (s.hide blind).wire name = some got.wire := by
        rw [wire, erasure_hide, hgot]
        rfl
      simp only [hwire, Option.isSome_some, true_and]
      split
      next hnone =>
        obtain ⟨hlast, hfresh⟩ := h.assemble_hide law rfl hgot
        refine (h.of_all hlast (by simp) fun i hi => hfresh i hi ?_).mono (Finset.empty_subset _)
        rw [List.isEmpty_iff.mp hnone]
        exact List.not_mem_nil
      next => exact hrepair

/-! ## Runs -/

/-- What happens to a store whose reads may fail. -/
inductive BlindEvent (Name : Type) where
  /-- A packet is inserted. -/
  | insert (name : Name) (wire : Bytes)
  /-- A name is removed. -/
  | remove (name : Name)
  /-- A name is read, and read again for a repair. -/
  | get (name : Name) (blind again : ℕ → Bool)
  /-- A scan under a prefix, which may be made again. -/
  | scan (under : Name) (limit : ℕ) (faults again : ReadFaults Name)
  /-- A stripe's record of a name is deleted or overwritten. -/
  | lose (stripe : ℕ) (name : Name) (record : Option Bytes)

omit [NdnName Name] [Codec UInt8] law in
/-- An insert is accepted when its wire fits, and a lost record is no good shard. -/
def BlindEvent.Valid (e : Erasure) : BlindEvent Name → Prop
  | .insert _ wire => wire.length < u32Bound
  | .lose stripe _ record => stripe < e.n ∧ record.bind (e.shard stripe) = none
  | _ => True

/-- One event.  A read that finds a packet makes up for what was lost, if the repair's own
read finds it too. -/
def Run.stepBlind (r : Run Name) : BlindEvent Name → Run Name
  | .insert name wire => r.step (.insert name wire)
  | .remove name => r.step (.remove name)
  | .get name blind again =>
      ⟨(r.store.getBlind blind again name).2, r.last,
        if ((r.store.hide blind).wire name).isSome ∧ ((r.store.hide again).wire name).isSome then
          Function.update r.lost name ∅
        else r.lost⟩
  | .scan under limit faults again =>
      ⟨(r.store.scanUnderBlind faults again under limit).2, r.last, r.lost⟩
  | .lose stripe name record => r.step (.lose stripe name record)

/-- A repair keeps every name. -/
theorem Run.Kept.repairBlind {last : Name → Option Bytes} {lost : Name → Finset ℕ}
    (h : Kept e ⟨s, last, lost⟩) (blind : ℕ → Bool) (name : Name) :
    Kept e ⟨s.repairBlind blind name, last, lost⟩ := by
  refine ⟨(erasure_repairBlind s blind name).trans h.erasure, fun other => ?_⟩
  rcases eq_or_ne other name with rfl | hne
  · refine ((h.name other).repairBlind law h.erasure blind).mono ?_
    split
    · exact Finset.empty_subset _
    · exact Finset.Subset.refl _
  · have hsame := records_repairBlind_of_ne law h.erasure blind hne
    exact hsame.symm ▸ h.name other

/-- Every event keeps every name. -/
theorem Run.kept_stepBlind {r : Run Name} (h : Kept e r) {event : BlindEvent Name}
    (hvalid : event.Valid e) : Kept e (r.stepBlind event) := by
  cases event with
  | insert name wire =>
      have hstep : Kept e (r.step (.insert name wire)) := kept_step law h hvalid
      exact hstep
  | remove name =>
      have hstep : Kept e (r.step (.remove name)) := kept_step law h trivial
      exact hstep
  | lose stripe name record =>
      have hstep : Kept e (r.step (.lose stripe name record)) := kept_step law h hvalid
      exact hstep
  | scan under limit faults again =>
      exact scanUnderBlind_induct (P := fun t => Kept e ⟨t, r.last, r.lost⟩)
        (fun t blind name ht => ht.repairBlind law blind name) h faults again under limit |>.1
  | get name blind again =>
      have hcases := (r.store.rebuildBlind_cases again name ((r.store.hide blind).records name)).2
      refine ⟨?_, fun other => ?_⟩
      · rcases hcases with hsame | hrepair
        · exact (congrArg ErasureStore.erasure hsame).trans h.erasure
        · exact (congrArg ErasureStore.erasure hrepair).trans
            ((erasure_repairBlind ..).trans h.erasure)
      · rcases eq_or_ne other name with rfl | hne
        · have hget := (h.name other).getBlind law h.erasure blind again
          simp only [stepBlind]
          split
          next hboth => simpa [hboth] using hget
          next hnot => rwa [if_neg hnot] at hget
        · have hsame : (r.store.getBlind blind again name).2.records other =
              r.store.records other := by
            rcases hcases with hsame | hrepair
            · exact congrArg (fun t => ErasureStore.records t other) hsame
            · exact (congrArg (fun t => ErasureStore.records t other) hrepair).trans
                (records_repairBlind_of_ne law h.erasure again hne)
          simp only [stepBlind, hsame]
          split
          · rw [Function.update_of_ne hne]
            exact h.name other
          · exact h.name other

/-- Every run keeps every name. -/
theorem Run.kept_runBlind {r : Run Name} (h : Kept e r) : ∀ {events : List (BlindEvent Name)},
    (∀ event ∈ events, event.Valid e) → Kept e (Steps.run Run.stepBlind r events) := by
  intro events hvalid
  induction events generalizing r with
  | nil => exact h
  | cons event events ih =>
      exact ih (kept_stepBlind law h (hvalid event (List.mem_cons_self ..)))
        fun ev hev => hvalid ev (List.mem_cons_of_mem _ hev)

/-- After any run with failing reads, and whatever reads fail next: a read finds the packet
last given or none, and it finds it if at most `n - k` stripes have lost their record or
cannot be read.  So does a scan of each name it lists, and a full one lists each such name
under its prefix. -/
theorem Run.finds_despite_faults {events : List (BlindEvent Name)}
    (hvalid : ∀ event ∈ events, event.Valid e) :
    let r := Steps.run Run.stepBlind (start e) events
    (∀ name blind again,
      ((r.store.getBlind blind again name).1 = r.last name ∨
        (r.store.getBlind blind again name).1 = none) ∧
      ((r.lost name ∪ hidden e blind).card ≤ e.n - e.k →
        (r.store.getBlind blind again name).1 = r.last name)) ∧
      ∀ under faults again,
        (∀ limit, ∀ packet ∈ (r.store.scanUnderBlind faults again under limit).1,
          hasPrefix packet.1 under = true ∧ r.last packet.1 = some packet.2) ∧
        ∀ name wire, hasPrefix name under = true → r.last name = some wire →
          (r.lost name ∪ hidden e faults.listing).card ≤ e.n - e.k →
            (name, wire) ∈ (r.store.scanUnderBlind faults again under 0).1 := by
  intro r
  have hkept : Kept e r := kept_runBlind law kept_start hvalid
  have hread : ∀ {t : ErasureStore Name}, Kept e ⟨t, r.last, r.lost⟩ → ∀ blind name,
      ((t.hide blind).wire name = r.last name ∨ (t.hide blind).wire name = none) ∧
        ((r.lost name ∪ hidden e blind).card ≤ e.n - e.k →
          (t.hide blind).wire name = r.last name) := by
    intro t ht blind name
    have hname := (ht.name name).hide ht.erasure blind
    exact ⟨hname.wire_or law (s := t.hide blind) ht.erasure,
      hname.wire_eq law (s := t.hide blind) ht.erasure⟩
  refine ⟨fun name blind again => ?_, fun under faults again => ⟨fun limit packet hmem => ?_, ?_⟩⟩
  · rw [getBlind_fst]
    exact hread hkept blind name
  · obtain ⟨t, blind, ht, hpacket⟩ := (scanUnderBlind_induct
      (P := fun t => Kept e ⟨t, r.last, r.lost⟩)
      (fun t blind name ht => ht.repairBlind law blind name) hkept faults again under limit).2
      packet hmem
    obtain ⟨hunder, hwire⟩ := mem_packetsUnder.mp hpacket
    refine ⟨hunder, ?_⟩
    rcases (hread ht blind packet.1).1 with hlast | hnone
    · exact hlast ▸ hwire
    · cases hnone.symm.trans hwire
  · intro name wire hunder hlast hbudget
    rw [scanUnderBlind_zero, mem_packetsUnder]
    exact ⟨hunder, ((hread hkept faults.listing name).2 hbudget).trans hlast⟩

/-- A packet loses a record, and is read while another stripe fails, as it does for the
repair of a second read.  The third makes it whole. -/
def blindRun : List (BlindEvent Components) :=
  [.insert [[8, 1, 98]] [1, 2], .lose 1 [[8, 1, 98]] none,
    .get [[8, 1, 98]] (· = 0) (fun _ => false), .get [[8, 1, 98]] (fun _ => false) (· = 2),
    .get [[8, 1, 98]] (fun _ => false) fun _ => false]

omit [Sha2] [Codec UInt8] law in
theorem Run.finds_blindRun :
    letI := shortSha2
    letI := xorCodec
    let r := Steps.run Run.stepBlind (start default) blindRun
    (r.store.getBlind (· = 2) (fun _ => true) [[8, 1, 98]]).1 = some [1, 2] := by
  let _ := shortSha2
  let _ := xorCodec
  have hvalid : ∀ event ∈ blindRun, event.Valid default := by
    simp [blindRun, BlindEvent.Valid, u32Bound]
    decide
  have hfinds := (Run.finds_despite_faults (lawful_xorCodec (Or.inr rfl)) hvalid).1 [[8, 1, 98]]
    (· = 2) (fun _ => true)
  exact (hfinds.2 (by decide +kernel)).trans (by decide +kernel)

end NdnRepo
