import NdnRepo.Lib.XorCodec
import NdnRepo.Held.Repair

/-!
# Interrupted writes

An insert, a remove and a repair write the stripes one after another and nothing
records that they are done.  `insertFirst`, `removeFirst` and `repairFirst` stop
after the first `m` stripe writes.

The read after a crash counts records: `m` stripes hold the new ones and `n - m`
the old.  It returns the old wire or the new one, except that an insert over
another wire may leave fewer than `k` records of either (`get_after_interrupted`).
-/

namespace NdnRepo

open Coding

variable {Name : Type} [NdnName Name] [Sha2] [Codec UInt8]

namespace ErasureStore

/-! ## Operations that stop -/

/-- An insert that stops after `m` stripe writes. -/
def insertFirst (s : ErasureStore Name) (m : ℕ) (name : Name) (wire : Bytes) :
    ErasureStore Name :=
  if u32Bound ≤ wire.length then s.insert name wire
  else
    match s.erasure.encode wire with
    | .error _ => s.insert name wire
    | .ok records =>
        (records.take m).zipIdx.foldl (fun s (record, i) => s.putRecord i name (some record)) s

/-- A remove that stops after `m` stripe writes. -/
def removeFirst (s : ErasureStore Name) (m : ℕ) (name : Name) : ErasureStore Name :=
  (List.range m).foldl (fun s i => s.putRecord i name none) s

/-- A repair that stops after `m` stripe writes. -/
def repairFirst (s : ErasureStore Name) (m : ℕ) (name : Name) : ErasureStore Name :=
  match s.erasure.assemble (s.records name) with
  | none => s
  | some now =>
      match s.erasure.encode now.wire with
      | .ok records =>
          (now.stale.take m).foldl (fun s i => s.putRecord i name (some (records.getD i []))) s
      | .error _ => s

section Interrupted

variable {s : ErasureStore Name} (law : Lawful UInt8 s.erasure.k s.erasure.n)

omit [Sha2] [Codec UInt8] in
/-- Writing the stripes `stale` of a name. -/
theorem getD_records_foldl (stale : List ℕ) (s : ErasureStore Name) (name : Name)
    (f : ℕ → Option Bytes) {i : ℕ} (hi : i < s.erasure.n) :
    ((stale.foldl (fun s i => s.putRecord i name (f i)) s).records name).getD i none =
      if i ∈ stale then f i else (s.records name).getD i none := by
  rw [(records_foldl_putRecord name f stale s).2 name, if_pos rfl,
    getD_foldl_set f i stale _ (by simpa using hi)]

include law

theorem insertFirst_eq_foldl {m : ℕ} (hm : m ≤ s.erasure.n) (name : Name) {wire : Bytes}
    (hw : wire.length < u32Bound) :
    s.insertFirst m name wire = (List.range m).foldl
      (fun t i => t.putRecord i name (some (s.erasure.stripeRecord wire i))) s := by
  have hzip : (((List.range s.erasure.n).map (s.erasure.stripeRecord wire)).take m).zipIdx =
      (List.range m).map fun i => (s.erasure.stripeRecord wire i, i) := by
    apply List.ext_getElem
    · simp [hm]
    · intro i h1 h2
      simp
  unfold insertFirst
  rw [if_neg (not_le.mpr hw), Erasure.encode_eq law]
  simp only [hzip, List.foldl_map]

omit [Sha2] [Codec UInt8] law in
theorem erasure_foldl (stale : List ℕ) (s : ErasureStore Name) (name : Name)
    (f : ℕ → Option Bytes) :
    (stale.foldl (fun s i => s.putRecord i name (f i)) s).erasure = s.erasure :=
  (records_foldl_putRecord name f stale s).1

/-- All `n` writes are the insert. -/
theorem insertFirst_all (name other : Name) {wire : Bytes} (hw : wire.length < u32Bound) :
    (s.insertFirst s.erasure.n name wire).records other = (s.insert name wire).records other := by
  rw [insertFirst_eq_foldl law (le_refl _) name hw]
  by_cases ho : other = name
  · subst ho
    apply List.ext_getElem
    · rw [records_length, records_length, erasure_foldl, erasure_insert law]
    · intro i h1 h2
      have hi : i < s.erasure.n := by rwa [records_length, erasure_insert law] at h2
      have hget := getD_records_foldl (List.range s.erasure.n) s other
        (fun i => some (s.erasure.stripeRecord wire i)) hi
      rw [List.getD_eq_getElem _ _ h1] at hget
      simp [hget, hi, records_insert law other other hw]
  · rw [(records_foldl_putRecord name _ _ s).2 other, if_neg ho, records_insert law name other hw,
      if_neg ho]

omit [Sha2] [Codec UInt8] law in
/-- All `n` writes are the remove. -/
theorem removeFirst_all (s : ErasureStore Name) (name other : Name) :
    (s.removeFirst s.erasure.n name).records other = (s.remove name).records other := by
  unfold removeFirst
  by_cases ho : other = name
  · subst ho
    apply List.ext_getElem
    · rw [records_length, records_length, erasure_foldl (f := fun _ => none), erasure_remove]
    · intro i h1 h2
      have hi : i < s.erasure.n := by simpa using h2
      have hget := getD_records_foldl (List.range s.erasure.n) s other (fun _ => none) hi
      rw [List.getD_eq_getElem _ _ h1] at hget
      simp [hget, hi, records_remove]
  · rw [(records_foldl_putRecord name (fun _ => none) _ s).2 other, if_neg ho, records_remove,
      if_neg ho]

omit law in
/-- A repair that may write every stale stripe is the repair. -/
theorem repairFirst_all (s : ErasureStore Name) (name : Name) :
    s.repairFirst s.erasure.n name = s.repair name := by
  unfold repairFirst repair
  cases h : s.erasure.assemble (s.records name) with
  | none => rfl
  | some now =>
      obtain ⟨_, _, _, hreb⟩ := Erasure.assemble_cases h
      have hlen : now.stale.length ≤ s.erasure.n := by
        rw [hreb.stale_eq]
        refine (List.length_filter_le _ _).trans ?_
        simp
      by_cases hstale : now.stale.isEmpty = true
      · rw [List.isEmpty_iff] at hstale
        simp only [hstale, List.take_nil, List.foldl_nil, List.isEmpty_nil, ↓reduceIte]
        split <;> rfl
      · simp only [hstale, List.take_of_length_le hlen]
        rfl

/-! ## Reading after the crash -/

omit [Sha2] [Codec UInt8] law in
/-- The stripes that hold a wire when the first `m` have one origin and the others
another. -/
theorem card_holders_split (e : Erasure) {m : ℕ} (hm : m ≤ e.n) (old new : Option Bytes)
    (w : Bytes) : (e.holders (fun i => if i < m then new else old) w).card =
      (if new = some w then m else 0) + (if old = some w then e.n - m else 0) := by
  have hsplit : e.holders (fun i => if i < m then new else old) w =
      ((Finset.range m).filter fun _ => new = some w) ∪
        ((Finset.Ico m e.n).filter fun _ => old = some w) := by
    ext i
    simp only [Erasure.mem_holders, Finset.mem_union, Finset.mem_filter, Finset.mem_range,
      Finset.mem_Ico]
    by_cases hi : i < m
    · simp [hi, lt_of_lt_of_le hi hm]
    · simp [hi, not_lt.mp hi]
  have hdisj : Disjoint ((Finset.range m).filter fun _ => new = some w)
      ((Finset.Ico m e.n).filter fun _ => old = some w) := by
    rw [Finset.disjoint_left]
    intro i hi hi'
    simp only [Finset.mem_filter, Finset.mem_range, Finset.mem_Ico] at hi hi'
    omega
  rw [hsplit, Finset.card_union_of_disjoint hdisj, Finset.filter_const, Finset.filter_const,
    apply_ite Finset.card, apply_ite Finset.card]
  simp

omit law in
/-- What is read of a name when the first `m` stripes hold the records of `new` and the
others those of `old`. -/
theorem wire_split {e : Erasure} (law : Lawful UInt8 e.k e.n) {t : ErasureStore Name}
    (he : t.erasure = e) (name : Name) {m : ℕ} (hm : m ≤ e.n) (old new : Option Bytes)
    (hshort : ∀ w, old = some w ∨ new = some w → w.length < u32Bound)
    (hsha : ∀ w w', old = some w → new = some w' → sha256 w = sha256 w' → w = w')
    (hrecords : ∀ i < e.n, (t.records name).getD i none =
      if i < m then new.map (e.stripeRecord · i) else old.map (e.stripeRecord · i)) :
    (∀ w, t.wire name = some w → old = some w ∨ new = some w) ∧
      (t.wire name = none ↔ ∀ w, (if new = some w then m else 0) +
        (if old = some w then e.n - m else 0) < e.k) := by
  subst he
  have hside : ∀ i w, (if i < m then new else old) = some w → old = some w ∨ new = some w := by
    intro i w h
    split at h
    · exact Or.inr h
    · exact Or.inl h
  have hprov : t.erasure.Provenance (t.records name) fun i => if i < m then new else old := by
    refine ⟨t.records_length name, fun i hi hnone => ?_, fun i hi w hw => ?_,
      fun i hi j hj w w' hw hw' heq => ?_⟩
    · rw [Erasure.goodShard, hrecords i hi, ← apply_ite (Option.map (t.erasure.stripeRecord · i)),
        hnone]
      rfl
    · refine ⟨hshort w (hside i w hw), ?_⟩
      rw [hrecords i hi, ← apply_ite (Option.map (t.erasure.stripeRecord · i)), hw]
      rfl
    · rcases hside i w hw with h | h <;> rcases hside j w' hw' with h' | h'
      · exact Option.some.inj (h.symm.trans h')
      · exact hsha w w' h h' heq
      · exact (hsha w' w h' h heq.symm).symm
      · exact Option.some.inj (h.symm.trans h')
  constructor
  · intro w hw
    obtain ⟨a, ha, rfl⟩ := Option.map_eq_some_iff.mp hw
    have hk := (hprov.assemble_eq_some law ha).1
    obtain ⟨i, hi⟩ := Finset.card_pos.mp (lt_of_lt_of_le t.erasure.k_pos hk)
    exact hside i a.wire (Erasure.mem_holders.mp hi).2
  · rw [ErasureStore.wire, Option.map_eq_none_iff, ← Option.not_isSome_iff_eq_none,
      hprov.assemble_isSome law, not_exists]
    refine forall_congr' fun w => ?_
    rw [card_holders_split t.erasure hm, not_le]

omit law in
/-- When only one wire is there to read, it is read if `k` stripes hold it. -/
theorem wire_split_one {e : Erasure} (law : Lawful UInt8 e.k e.n) {t : ErasureStore Name}
    (he : t.erasure = e) (name : Name) {m : ℕ} (hm : m ≤ e.n) (old new : Option Bytes)
    {w : Bytes} (hw : w.length < u32Bound) (hone : ∀ v, old = some v ∨ new = some v → v = w)
    (hrecords : ∀ i < e.n, (t.records name).getD i none =
      if i < m then new.map (e.stripeRecord · i) else old.map (e.stripeRecord · i)) :
    t.wire name =
      if e.k ≤ (if new = some w then m else 0) + (if old = some w then e.n - m else 0) then some w
      else none := by
  obtain ⟨hsome, hnone⟩ := wire_split law he name hm old new (fun v hv => hone v hv ▸ hw)
    (fun v v' hv hv' _ => (hone v (Or.inl hv)).trans (hone v' (Or.inr hv')).symm) hrecords
  by_cases hk : e.k ≤ (if new = some w then m else 0) + (if old = some w then e.n - m else 0)
  · rw [if_pos hk]
    cases hr : t.wire name with
    | none => exact absurd (hnone.mp hr w) (not_lt.mpr hk)
    | some v => rw [hone v (hsome v hr)]
  · rw [if_neg hk]
    refine hnone.mpr fun v => ?_
    by_cases hv : v = w
    · rw [hv]
      exact not_le.mp hk
    · rw [if_neg fun h => hv (hone v (Or.inr h)), if_neg fun h => hv (hone v (Or.inl h))]
      exact e.k_pos

/-- The records while an insert of `wire` has written `m` stripes. -/
theorem getD_records_insertFirst {m : ℕ} (hm : m ≤ s.erasure.n) (name : Name) {wire : Bytes}
    (hw : wire.length < u32Bound) {i : ℕ} (hi : i < s.erasure.n) :
    ((s.insertFirst m name wire).records name).getD i none =
      if i < m then some (s.erasure.stripeRecord wire i) else (s.records name).getD i none := by
  rw [insertFirst_eq_foldl law hm name hw, getD_records_foldl (List.range m) s name
    (fun i => some (s.erasure.stripeRecord wire i)) hi]
  simp only [List.mem_range]

theorem erasure_insertFirst {m : ℕ} (hm : m ≤ s.erasure.n) (name : Name) {wire : Bytes}
    (hw : wire.length < u32Bound) : (s.insertFirst m name wire).erasure = s.erasure := by
  rw [insertFirst_eq_foldl law hm name hw, erasure_foldl]

/-- An insert over a wire, interrupted. -/
theorem wire_insertFirst {name : Name} {w₁ w₂ : Bytes} {m : ℕ} (hm : m ≤ s.erasure.n)
    (h₁ : w₁.length < u32Bound) (h₂ : w₂.length < u32Bound)
    (hsha : sha256 w₁ = sha256 w₂ → w₁ = w₂)
    (hold : s.records name = s.erasure.wholeRecords w₁) :
    (∀ w, (s.insertFirst m name w₂).wire name = some w → w = w₁ ∨ w = w₂) ∧
      ((s.insertFirst m name w₂).wire name = none ↔
        w₁ ≠ w₂ ∧ m < s.erasure.k ∧ s.erasure.n - m < s.erasure.k) := by
  obtain ⟨hsome, hnone⟩ := wire_split law (erasure_insertFirst law hm name h₂) name hm
    (some w₁) (some w₂)
    (fun w hw => hw.elim (fun h => Option.some.inj h ▸ h₁) fun h => Option.some.inj h ▸ h₂)
    (fun w w' hw hw' => by
      obtain rfl := Option.some.inj hw
      obtain rfl := Option.some.inj hw'
      exact hsha)
    (fun i hi => by
      rw [getD_records_insertFirst law hm name h₂ hi, hold, s.erasure.getD_wholeRecords w₁ hi]
      rfl)
  refine ⟨fun w hw => ?_, ?_⟩
  · rcases hsome w hw with h | h
    · exact Or.inl (Option.some.inj h).symm
    · exact Or.inr (Option.some.inj h).symm
  · rw [hnone]
    have hkn := s.erasure.k_le_n
    have hpos := s.erasure.k_pos
    simp only [Option.some.injEq]
    constructor
    · intro hall
      have hall₁ := hall w₁
      have hall₂ := hall w₂
      by_cases heq : w₁ = w₂
      · rw [if_pos heq.symm, if_pos rfl] at hall₁
        omega
      · rw [if_neg (Ne.symm heq), if_pos rfl] at hall₁
        rw [if_pos rfl, if_neg heq] at hall₂
        exact ⟨heq, by omega, by omega⟩
    · rintro ⟨hne, hm₁, hm₂⟩ w
      by_cases hw : w₁ = w
      · rw [if_neg fun h => hne (hw.trans h.symm), if_pos hw]
        omega
      · rw [if_neg hw]
        split <;> omega

/-- A first insert, interrupted. -/
theorem wire_insertFirst_new {name : Name} {w : Bytes} {m : ℕ} (hm : m ≤ s.erasure.n)
    (hw : w.length < u32Bound) (hold : s.records name = List.replicate s.erasure.n none) :
    (s.insertFirst m name w).wire name = if s.erasure.k ≤ m then some w else none := by
  rw [wire_split_one law (erasure_insertFirst law hm name hw) name hm none (some w) hw
    (fun v hv => hv.elim nofun fun h => (Option.some.inj h).symm) fun i hi => by
      rw [getD_records_insertFirst law hm name hw hi, hold]
      simp [hi]]
  simp

omit [Sha2] [Codec UInt8] law in
theorem getD_records_removeFirst (s : ErasureStore Name) (m : ℕ) (name : Name) {i : ℕ}
    (hi : i < s.erasure.n) : ((s.removeFirst m name).records name).getD i none =
      if i < m then none else (s.records name).getD i none := by
  rw [removeFirst, getD_records_foldl (List.range m) s name (fun _ => none) hi]
  simp only [List.mem_range]

/-- A remove, interrupted. -/
theorem wire_removeFirst {name : Name} {w : Bytes} {m : ℕ} (hm : m ≤ s.erasure.n)
    (hw : w.length < u32Bound) (hold : s.records name = s.erasure.wholeRecords w) :
    (s.removeFirst m name).wire name =
      if s.erasure.k ≤ s.erasure.n - m then some w else none := by
  have he : (s.removeFirst m name).erasure = s.erasure :=
    erasure_foldl (List.range m) s name fun _ => none
  rw [wire_split_one law he name hm (some w) none hw
    (fun v hv => hv.elim (fun h => (Option.some.inj h).symm) nofun) fun i hi => by
      rw [getD_records_removeFirst s m name hi, hold, s.erasure.getD_wholeRecords w hi]
      rfl]
  simp

/-- A repair, interrupted. -/
theorem wire_repairFirst {name : Name} {w : Bytes} (m : ℕ)
    (hholds : s.erasure.HoldsOnly (s.records name) (some w))
    (hk : s.erasure.k ≤ ((Finset.range s.erasure.n).filter fun i =>
      (s.records name).getD i none = some (s.erasure.stripeRecord w i)).card) :
    (s.repairFirst m name).wire name = some w := by
  have hstripes : ∀ i ∈ (Finset.range s.erasure.n).filter (fun i =>
      (s.records name).getD i none = some (s.erasure.stripeRecord w i)), i < s.erasure.n ∧
        (s.records name).getD i none = some (s.erasure.stripeRecord w i) := fun i hi => by
    rw [Finset.mem_filter, Finset.mem_range] at hi
    exact hi
  obtain ⟨now, hnow⟩ := hholds.exists_assemble law rfl hstripes hk
  obtain ⟨hlast, -⟩ := hholds.assemble_eq_some law hnow
  obtain rfl := Option.some.inj hlast
  have heq : s.repairFirst m name = (now.stale.take m).foldl (fun t i => t.putRecord i name
      (some (((List.range s.erasure.n).map (s.erasure.stripeRecord now.wire)).getD i []))) s := by
    unfold repairFirst
    simp only [hnow, Erasure.encode_eq law]
  have hget : ∀ i < s.erasure.n, ((s.repairFirst m name).records name).getD i none =
      if i ∈ now.stale.take m then some (s.erasure.stripeRecord now.wire i)
      else (s.records name).getD i none := by
    intro i hi
    rw [heq, getD_records_foldl _ s name (fun i =>
      some (((List.range s.erasure.n).map (s.erasure.stripeRecord now.wire)).getD i [])) hi]
    simp [hi]
  have he : (s.repairFirst m name).erasure = s.erasure := by
    rw [heq, erasure_foldl _ s name fun i =>
      some (((List.range s.erasure.n).map (s.erasure.stripeRecord now.wire)).getD i [])]
  have hholds' : s.erasure.HoldsOnly ((s.repairFirst m name).records name) (some now.wire) := by
    refine hholds.of_getD (by rw [records_length, he]) fun i hi => ?_
    rw [hget i hi]
    split
    · exact Or.inr (Or.inr ⟨now.wire, rfl, rfl⟩)
    · exact Or.inl rfl
  obtain ⟨a, ha⟩ := hholds'.exists_assemble law rfl (fun i hi => by
    obtain ⟨hlt, hrec⟩ := hstripes i hi
    refine ⟨hlt, ?_⟩
    rw [hget i hlt, hrec]
    split <;> rfl) hk
  rw [ErasureStore.wire, he, ha, (hholds'.assemble_eq_some law ha).1]
  rfl

/-- What is read after a crash in the middle of a write.  An insert over a wire
leaves the old wire, the new one, or none: exactly when the wires differ and
neither the `m` stripes written nor the `n - m` others are `k`.  A first insert
leaves the new wire or none, a remove the old wire or none, and a repair the
wire. -/
theorem get_after_interrupted (name : Name) {w₁ w₂ : Bytes} (h₁ : w₁.length < u32Bound)
    (h₂ : w₂.length < u32Bound) (hsha : sha256 w₁ = sha256 w₂ → w₁ = w₂) {m : ℕ}
    (hm : m ≤ s.erasure.n) :
    (s.records name = s.erasure.wholeRecords w₁ →
      (∀ w, ((s.insertFirst m name w₂).get name).1 = some w → w = w₁ ∨ w = w₂) ∧
      (((s.insertFirst m name w₂).get name).1 = none ↔
        w₁ ≠ w₂ ∧ m < s.erasure.k ∧ s.erasure.n - m < s.erasure.k)) ∧
    (s.records name = List.replicate s.erasure.n none →
      ((s.insertFirst m name w₂).get name).1 = if s.erasure.k ≤ m then some w₂ else none) ∧
    (s.records name = s.erasure.wholeRecords w₁ →
      ((s.removeFirst m name).get name).1 =
        if s.erasure.k ≤ s.erasure.n - m then some w₁ else none) ∧
    (s.erasure.HoldsOnly (s.records name) (some w₁) →
      s.erasure.k ≤ ((Finset.range s.erasure.n).filter fun i =>
        (s.records name).getD i none = some (s.erasure.stripeRecord w₁ i)).card →
      ((s.repairFirst m name).get name).1 = some w₁) := by
  simp only [get_fst_eq_wire]
  exact ⟨wire_insertFirst law hm h₁ h₂ hsha, wire_insertFirst_new law hm h₂,
    wire_removeFirst law hm h₁, fun hholds hk => wire_repairFirst law m hholds hk⟩

end Interrupted

/-- A packet `/b` in every stripe of a 2-of-3 store. -/
def wholeStore : ErasureStore Components :=
  letI := shortSha2
  letI := xorCodec
  (openEmpty default).insert [[8, 1, 98]] [1, 2]

omit [Sha2] [Codec UInt8] in
theorem get_after_interrupted_wholeStore :
    letI := shortSha2
    letI := xorCodec
    ((wholeStore.insertFirst 1 [[8, 1, 98]] [2, 3]).get [[8, 1, 98]]).1 ≠ none ∧
      ((wholeStore.insertFirst 1 [[8, 1, 99]] [2, 3]).get [[8, 1, 99]]).1 = none ∧
      ((wholeStore.removeFirst 1 [[8, 1, 98]]).get [[8, 1, 98]]).1 = some [1, 2] ∧
      ((wholeStore.repairFirst 1 [[8, 1, 98]]).get [[8, 1, 98]]).1 = some [1, 2] := by
  let _ := shortSha2
  let _ := xorCodec
  have hlaw : Lawful UInt8 wholeStore.erasure.k wholeStore.erasure.n :=
    lawful_xorCodec (Or.inr rfl)
  have hwhole : wholeStore.records [[8, 1, 98]] = wholeStore.erasure.wholeRecords [1, 2] := by
    decide +kernel
  have hempty : wholeStore.records [[8, 1, 99]] =
      List.replicate wholeStore.erasure.n none := by decide +kernel
  have hsha : sha256 [1, 2] = sha256 [2, 3] → ([1, 2] : Bytes) = [2, 3] := by decide +kernel
  have hm : 1 ≤ wholeStore.erasure.n := by decide +kernel
  obtain ⟨hover, -, hremove, hrepair⟩ := get_after_interrupted hlaw [[8, 1, 98]]
    (by decide) (by decide) hsha hm
  obtain ⟨-, hfirst, -, -⟩ := get_after_interrupted hlaw [[8, 1, 99]]
    (by decide) (by decide) hsha hm
  refine ⟨fun h => absurd ((hover hwhole).2.mp h) (by decide +kernel),
    (hfirst hempty).trans (by decide +kernel), (hremove hwhole).trans (by decide +kernel),
    hrepair (hwhole ▸ .of_wire _ (by decide)) (by decide +kernel)⟩

/-- A packet `/b` in both stripes of a 2-of-2 store. -/
def pairStore : ErasureStore Components :=
  letI := shortSha2
  letI := xorCodec
  (openEmpty ⟨2, 2, Nat.two_pos, by omega, by omega⟩).insert [[8, 1, 98]] [1, 2]

omit [Sha2] [Codec UInt8] in
/-- A crash after one stripe write of an insert over the packet loses it. -/
theorem get_after_crash_pairStore :
    letI := shortSha2
    letI := xorCodec
    pairStore.records [[8, 1, 98]] = pairStore.erasure.wholeRecords [1, 2] ∧
      (pairStore.get [[8, 1, 98]]).1 = some [1, 2] ∧
      ((pairStore.insert [[8, 1, 98]] [2, 3]).get [[8, 1, 98]]).1 = some [2, 3] ∧
      ((pairStore.insertFirst 1 [[8, 1, 98]] [2, 3]).get [[8, 1, 98]]).1 = none := by
  decide +kernel

end ErasureStore

end NdnRepo
