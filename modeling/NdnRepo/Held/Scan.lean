import NdnRepo.Lib.XorCodec
import NdnRepo.Held.Repair

/-!
# Scans

A scan merges what the stripes list under a name into rows and judges the rows in
name order.  The stripes are first asked for as many entries as packets are
wanted.  `complete_to`, the smallest last name of the stripes that were cut
short, bounds the rows that are complete.

`packetsUnder` is what a scan is for: the packets under a name, in name order.
An unlimited scan returns it (`scanUnder_zero`).  A limited one returns its first
part, except where the rows run out before `limit` packets and no row lies past
`complete_to` (`scanUnder_eq_take_iff`): the packets after `complete_to` are then
overlooked.
-/

namespace NdnRepo

open Coding Sorted

namespace ErasureStore

variable {Name : Type} [NdnName Name]

/-! ## What a scan is for -/

/-- The names under a prefix of which some stripe holds a record. -/
def namesUnder (s : ErasureStore Name) (under : Name) : Finset Name :=
  Finset.univ.biUnion fun i => (((s.stripes i).entriesUnder under).map Prod.fst).toFinset

/-- The packets under a prefix, in name order. -/
def packetsUnder [Sha2] [Codec UInt8] (s : ErasureStore Name) (under : Name) :
    List (Name × Bytes) :=
  ((s.namesUnder under).sort (· ≤ ·)).filterMap fun name => (s.wire name).map (name, ·)

/-- What a stripe lists under a prefix when asked for `limit` entries. -/
abbrev listed (s : ErasureStore Name) (under : Name) (limit : ℕ) (i : Fin s.erasure.n) :
    List (Name × Bytes) := (s.stripes i).scanUnder under limit

/-- `c` is the smallest last name of the stripes that list `limit` entries. -/
def CutAt (s : ErasureStore Name) (under : Name) (limit : ℕ) (c : Name) : Prop :=
  (∃ i, limit ≤ (s.listed under limit i).length ∧
      (s.listed under limit i).getLast?.map Prod.fst = some c) ∧
    ∀ i, limit ≤ (s.listed under limit i).length →
      ∀ d, (s.listed under limit i).getLast?.map Prod.fst = some d → c ≤ d

/-- The stripes list nothing past the name they are complete to, fewer than
`limit` packets up to it can be rebuilt, and some packet after it can. -/
def Overlooks [Sha2] [Codec UInt8] (s : ErasureStore Name) (under : Name) (limit : ℕ) : Prop :=
  ∃ c, s.CutAt under limit c ∧
    (∀ i, ∀ entry ∈ s.listed under limit i, entry.1 ≤ c) ∧
    ((s.namesUnder under).filter fun name => name ≤ c ∧ (s.wire name).isSome).card < limit ∧
    ∃ name ∈ s.namesUnder under, c < name ∧ (s.wire name).isSome

theorem mem_namesUnder {s : ErasureStore Name} {under name : Name} :
    name ∈ s.namesUnder under ↔
      hasPrefix name under = true ∧ ∃ i, ((s.stripes i).get name).isSome := by
  simp only [namesUnder, Finset.mem_biUnion, Finset.mem_univ, true_and, List.mem_toFinset,
    List.mem_map, Prod.exists, exists_and_right, exists_eq_right, FjallStore.mem_entriesUnder,
    Option.isSome_iff_exists]
  exact and_comm

section Packets

variable [Sha2] [Codec UInt8] {s : ErasureStore Name} {under : Name}

/-- A name of which no stripe holds a record has no packet. -/
theorem exists_record_of_wire {name : Name} {w : Bytes} (h : s.wire name = some w) :
    ∃ i, ((s.stripes i).get name).isSome := by
  obtain ⟨a, ha, -⟩ := Option.map_eq_some_iff.mp h
  obtain ⟨c, members, segs, hreb⟩ := Erasure.assemble_cases ha
  obtain ⟨m, hm⟩ := List.exists_mem_of_length_pos (lt_of_lt_of_le s.erasure.k_pos hreb.enough)
  rw [hreb.group, List.mem_filter] at hm
  obtain ⟨hi, hgood⟩ := Erasure.goodShard_of_mem hm.1
  rw [records_length] at hi
  obtain ⟨r, hr, -⟩ := Option.bind_eq_some_iff.mp hgood
  rw [getD_records s name hi] at hr
  exact ⟨⟨m.index, hi⟩, by rw [hr]; rfl⟩

theorem mem_packetsUnder {name : Name} {w : Bytes} :
    (name, w) ∈ s.packetsUnder under ↔ hasPrefix name under = true ∧ s.wire name = some w := by
  rw [packetsUnder, List.mem_filterMap]
  constructor
  · rintro ⟨other, hother, hw⟩
    rw [Finset.mem_sort, mem_namesUnder] at hother
    obtain ⟨v, hv, he⟩ := Option.map_eq_some_iff.mp hw
    cases he
    exact ⟨hother.1, hv⟩
  · rintro ⟨hp, hw⟩
    refine ⟨name, ?_, by rw [hw]; rfl⟩
    rw [Finset.mem_sort, mem_namesUnder]
    exact ⟨hp, exists_record_of_wire hw⟩

/-- Packets come in increasing name order. -/
theorem increasing_packetsUnder : Increasing (s.packetsUnder under) := by
  rw [packetsUnder, Increasing, List.pairwise_filterMap]
  refine (s.namesUnder under).sortedLT_sort.pairwise.imp ?_
  intro a b hab x hx y hy
  obtain ⟨v, -, rfl⟩ := Option.map_eq_some_iff.mp hx
  obtain ⟨w, -, rfl⟩ := Option.map_eq_some_iff.mp hy
  exact hab

/-- Stores with the same packets list the same packets. -/
theorem packetsUnder_congr {t : ErasureStore Name} (h : ∀ name, t.wire name = s.wire name) :
    t.packetsUnder under = s.packetsUnder under :=
  increasing_packetsUnder.eq_of_mem_iff increasing_packetsUnder fun name w => by
    rw [mem_packetsUnder, mem_packetsUnder, h]

end Packets

/-! ## The rows -/

section Rows

/-- The row of a name, empty if there is none. -/
def Rows.at (n : ℕ) (rows : Rows Name) (name : Name) : List (Option Bytes) :=
  rows[name]?.getD (List.replicate n none)

theorem addRecord_at (n stripe : ℕ) (rows : Rows Name) (entry : Name × Bytes) (name : Name) :
    (addRecord n stripe rows entry).at n name =
      if name = entry.1 then (rows.at n name).set stripe (some entry.2) else rows.at n name := by
  by_cases h : name = entry.1
  · subst h
    simp [Rows.at, addRecord]
  · have hne : entry.1 ≠ name := Ne.symm h
    simp [Rows.at, addRecord, Std.ExtTreeMap.getElem?_alter, h, hne]

theorem mem_addRecord (n stripe : ℕ) (rows : Rows Name) (entry : Name × Bytes) (name : Name) :
    name ∈ addRecord n stripe rows entry ↔ name ∈ rows ∨ name = entry.1 := by
  by_cases h : name = entry.1
  · subst h
    simp [addRecord]
  · have hne : entry.1 ≠ name := Ne.symm h
    simp [addRecord, Std.ExtTreeMap.mem_alter, h, hne]

/-- Entering what a stripe lists. -/
theorem foldl_addRecord (n stripe : ℕ) (name : Name) :
    ∀ (got : List (Name × Bytes)) (rows : Rows Name), Increasing got →
      (got.foldl (addRecord n stripe) rows).at n name =
          (match got.lookup name with
          | some record => (rows.at n name).set stripe (some record)
          | none => rows.at n name) ∧
        (name ∈ got.foldl (addRecord n stripe) rows ↔ name ∈ rows ∨ name ∈ got.map Prod.fst)
  | [], rows, _ => by simp
  | entry :: got, rows, h => by
      rw [Increasing, List.pairwise_cons] at h
      obtain ⟨hat, hmem⟩ := foldl_addRecord n stripe name got (addRecord n stripe rows entry) h.2
      refine ⟨?_, by simp [hmem, mem_addRecord, or_assoc]⟩
      rw [List.foldl_cons, hat, addRecord_at]
      by_cases hname : name = entry.1
      · have hnone : got.lookup name = none := by
          rw [List.lookup_eq_none_iff]
          intro p hp
          have hlt := h.1 p hp
          simpa [hname] using hlt.ne
        rw [hnone, if_pos hname]
        simp [hname, List.lookup]
      · simp [hname, List.lookup, beq_false_of_ne hname]

/-- What a scan knows of a name after some stripes. -/
def rowOf (s : ErasureStore Name) (under : Name) (limit : ℕ) (seen : List (Fin s.erasure.n))
    (name : Name) : List (Option Bytes) :=
  List.ofFn fun i => if i ∈ seen then (s.listed under limit i).lookup name else none

theorem rowOf_append (s : ErasureStore Name) (under : Name) (limit : ℕ)
    {seen : List (Fin s.erasure.n)} {i : Fin s.erasure.n} (hi : i ∉ seen) (name : Name) :
    s.rowOf under limit (seen ++ [i]) name =
      match (s.listed under limit i).lookup name with
      | some record => (s.rowOf under limit seen name).set i (some record)
      | none => s.rowOf under limit seen name := by
  cases hr : (s.listed under limit i).lookup name with
  | none =>
      apply congrArg List.ofFn
      funext j
      by_cases hij : j = i
      · subst hij
        simp [hr, hi]
      · simp [hij]
  | some r =>
      apply List.ext_getElem
      · simp [rowOf]
      · intro j h1 h2
        have hj : j < s.erasure.n := by simpa [rowOf] using h1
        by_cases hij : (⟨j, hj⟩ : Fin s.erasure.n) = i
        · subst hij
          simp [rowOf, hr]
        · have hval : i.val ≠ j := fun h => hij (Fin.ext h.symm)
          simp [rowOf, hij, hval]

/-- What `collect` holds after some stripes. -/
structure Collected (s : ErasureStore Name) (under : Name) (limit : ℕ)
    (seen : List (Fin s.erasure.n)) (got : Rows Name × Option Name) : Prop where
  /-- The rows hold what the stripes listed. -/
  row : ∀ name, got.1.at s.erasure.n name = s.rowOf under limit seen name
  /-- There is a row for each name listed. -/
  names : ∀ name, name ∈ got.1 ↔ ∃ i ∈ seen, name ∈ (s.listed under limit i).map Prod.fst
  /-- A name they are complete to is the last of a stripe cut short. -/
  attained : ∀ c, got.2 = some c → ∃ i ∈ seen, 0 < limit ∧
    limit ≤ (s.listed under limit i).length ∧
      (s.listed under limit i).getLast?.map Prod.fst = some c
  /-- It is the smallest of these. -/
  least : 0 < limit → ∀ i ∈ seen, limit ≤ (s.listed under limit i).length →
    ∀ d, (s.listed under limit i).getLast?.map Prod.fst = some d → ∃ c, got.2 = some c ∧ c ≤ d

theorem increasing_listed (s : ErasureStore Name) (under : Name) (limit : ℕ)
    (i : Fin s.erasure.n) : Increasing (s.listed under limit i) := by
  unfold listed FjallStore.scanUnder
  split
  · exact (s.stripes i).sorted_entriesUnder under
  · exact ((s.stripes i).sorted_entriesUnder under).sublist (List.take_sublist _ _)

theorem lowerCompleteTo_cases (limit : ℕ) (got : List (Name × Bytes)) (completeTo : Option Name) :
    (¬(0 < limit ∧ limit ≤ got.length) ∧ lowerCompleteTo limit got completeTo = completeTo) ∨
      ∃ last, 0 < limit ∧ limit ≤ got.length ∧ got.getLast?.map Prod.fst = some last ∧
        lowerCompleteTo limit got completeTo = some (completeTo.elim last (min last)) := by
  by_cases hcut : 0 < limit ∧ limit ≤ got.length
  · obtain ⟨last, hlast⟩ : ∃ last, got.getLast? = some last :=
      ⟨_, List.getLast?_eq_some_getLast (List.length_pos_iff.mp (hcut.1.trans_le hcut.2))⟩
    refine Or.inr ⟨last.1, hcut.1, hcut.2, by rw [hlast]; rfl, ?_⟩
    rw [lowerCompleteTo, if_pos hcut, hlast]
    cases completeTo with
    | none => rfl
    | some c =>
        by_cases hlt : last.1 < c
        · simp [hlt, min_eq_left hlt.le]
        · simp [hlt, min_eq_right (not_lt.mp hlt)]
  · exact Or.inl ⟨hcut, if_neg hcut⟩

/-- One more stripe is scanned. -/
theorem Collected.scan {s : ErasureStore Name} {under : Name} {limit : ℕ}
    {seen : List (Fin s.erasure.n)} {rows : Rows Name} {completeTo : Option Name}
    (h : Collected s under limit seen (rows, completeTo)) {i : Fin s.erasure.n} (hi : i ∉ seen) :
    Collected s under limit (seen ++ [i])
      ((s.listed under limit i).foldl (addRecord s.erasure.n i) rows,
        lowerCompleteTo limit (s.listed under limit i) completeTo) := by
  have hadd := fun name => foldl_addRecord s.erasure.n i.val name (s.listed under limit i)
    rows (s.increasing_listed under limit i)
  have hlower := lowerCompleteTo_cases limit (s.listed under limit i) completeTo
  refine ⟨fun name => ?_, fun name => ?_, fun c hc => ?_, fun hpos j hj hlen d hd => ?_⟩
  · rw [(hadd name).1, h.row, s.rowOf_append under limit hi]
  · rw [(hadd name).2, h.names]
    simp [or_and_right, exists_or]
  · have hold : ∀ {c}, completeTo = some c → ∃ j ∈ seen ++ [i], 0 < limit ∧
        limit ≤ (s.listed under limit j).length ∧
          (s.listed under limit j).getLast?.map Prod.fst = some c := fun hc => by
      obtain ⟨j, hj, hrest⟩ := h.attained _ hc
      exact ⟨j, List.mem_append_left _ hj, hrest⟩
    rcases hlower with ⟨-, hsame⟩ | ⟨last, hpos, hlen, hlast, hnew⟩
    · exact hold (hsame ▸ hc)
    · obtain rfl := Option.some.inj (hnew.symm.trans hc)
      cases completeTo with
      | none => exact ⟨i, by simp, hpos, hlen, hlast⟩
      | some c =>
          rcases min_choice last c with hmin | hmin
          · exact ⟨i, by simp, hpos, hlen, by simpa [hmin] using hlast⟩
          · exact hold (by simp [hmin])
  · rcases List.mem_append.mp hj with hseen | hone
    · obtain ⟨c, hc, hle⟩ := h.least hpos j hseen hlen d hd
      rcases hlower with ⟨-, hsame⟩ | ⟨last, -, -, -, hnew⟩
      · exact ⟨c, hsame.trans hc, hle⟩
      · obtain rfl : completeTo = some c := hc
        exact ⟨_, hnew, (min_le_right _ _).trans hle⟩
    · obtain rfl := List.mem_singleton.mp hone
      rcases hlower with ⟨hnot, -⟩ | ⟨last, -, -, hlast, hnew⟩
      · exact absurd ⟨hpos, hlen⟩ hnot
      · obtain rfl := Option.some.inj (hlast.symm.trans hd)
        refine ⟨_, hnew, ?_⟩
        cases completeTo with
        | none => exact le_refl _
        | some c => exact min_le_left _ _

/-- After all stripes `collect` holds what they list. -/
theorem collected_collect (s : ErasureStore Name) (under : Name) (limit : ℕ) :
    Collected s under limit (List.finRange s.erasure.n) (s.collect under limit) := by
  unfold collect
  have hnodup := List.nodup_finRange s.erasure.n
  generalize List.finRange s.erasure.n = seen at hnodup
  induction seen using List.reverseRecOn with
  | nil => exact ⟨fun name => by simp [Rows.at, rowOf], by simp, by simp, by simp⟩
  | append_singleton seen i ih =>
      rw [List.nodup_append] at hnodup
      have hi : i ∉ seen := fun h => hnodup.2.2 i h i (by simp) rfl
      rw [List.foldl_append, List.foldl_cons, List.foldl_nil]
      exact (ih hnodup.1).scan hi

end Rows

/-! ## Judging -/

section Judging

variable [Sha2] [Codec UInt8]

/-- The rows up to the name they are complete to. -/
def kept (completeTo : Option Name) (rows : List (Name × List (Option Bytes))) :
    List (Name × List (Option Bytes)) :=
  rows.takeWhile fun row => !completeTo.any (· < row.1)

/-- The packets that rows make up. -/
def found (e : Erasure) (rows : List (Name × List (Option Bytes))) : List (Name × Bytes) :=
  rows.filterMap fun row => (e.assemble row.2).map fun a => (row.1, a.wire)

theorem rebuild_cases (s : ErasureStore Name) (name : Name) (records : List (Option Bytes)) :
    (s.rebuild name records).1 = (s.erasure.assemble records).map Assembled.wire ∧
      ((s.rebuild name records).2 = s ∨ (s.rebuild name records).2 = s.repair name) := by
  unfold rebuild
  cases h : s.erasure.assemble records with
  | none => exact ⟨rfl, Or.inl rfl⟩
  | some got =>
      refine ⟨rfl, ?_⟩
      by_cases hstale : got.stale.isEmpty = true
      · exact Or.inl (if_pos hstale)
      · exact Or.inr (if_neg hstale)

/-- What every repair keeps, judging rows keeps. -/
theorem judge_induct {P : ErasureStore Name → Prop} (hrepair : ∀ s name, P s → P (s.repair name))
    (limit : ℕ) (completeTo : Option Name) :
    ∀ (rows : List (Name × List (Option Bytes))) (out : List (Name × Bytes))
      (s : ErasureStore Name), P s → P (judge limit completeTo rows out s).2
  | [], out, s, h => h
  | (name, records) :: rows, out, s, h => by
      have hnext : P (s.rebuild name records).2 := by
        rcases (s.rebuild_cases name records).2 with hs | hs
        · rw [hs]; exact h
        · rw [hs]; exact hrepair s name h
      unfold judge
      split
      · exact h
      · split
        · exact h
        · generalize s.rebuild name records = got at hnext
          obtain ⟨w, t⟩ := got
          cases w with
          | none => exact judge_induct hrepair limit completeTo rows out t hnext
          | some w => exact judge_induct hrepair limit completeTo rows _ t hnext

/-- What judging returns: `limit` packets of the complete rows if there are so
many, else all packets if every row is complete. -/
theorem judge_fst (limit : ℕ) (completeTo : Option Name) (e : Erasure) :
    ∀ (rows : List (Name × List (Option Bytes))) (out : List (Name × Bytes))
      (s : ErasureStore Name), s.erasure = e → (0 < limit → out.length ≤ limit) →
        (judge limit completeTo rows out s).1 =
          if 0 < limit ∧ limit ≤ (out ++ found e (kept completeTo rows)).length then
            some ((out ++ found e (kept completeTo rows)).take limit)
          else if kept completeTo rows = rows then some (out ++ found e rows) else none
  | [], out, s, _, hout => by
      by_cases hfull : 0 < limit ∧ limit ≤ out.length
      · have heq : out.length = limit := le_antisymm (hout hfull.1) hfull.2
        simp [judge, kept, found, hfull, heq]
      · simp [judge, kept, found, hfull]
  | (name, records) :: rows, out, s, he, hout => by
      unfold judge
      by_cases hfull : 0 < limit ∧ limit ≤ out.length
      · have heq : out.length = limit := le_antisymm (hout hfull.1) hfull.2
        rw [if_pos hfull, if_pos ⟨hfull.1, by simp; omega⟩, List.take_left' heq]
      · rw [if_neg hfull]
        by_cases hpast : completeTo.any (· < name) = true
        · have hkept : kept completeTo ((name, records) :: rows) = [] := by
            simp [kept, hpast]
          rw [if_pos hpast, hkept]
          simp [found, hfull]
        · have hkept : kept completeTo ((name, records) :: rows) =
              (name, records) :: kept completeTo rows := by
            simp only [Bool.not_eq_true] at hpast
            simp [kept, hpast]
          rw [if_neg hpast, hkept]
          obtain ⟨hfst, hsnd⟩ := s.rebuild_cases name records
          have he' : (s.rebuild name records).2.erasure = e := by
            rcases hsnd with hs | hs
            · rw [hs, he]
            · rw [hs, erasure_repair, he]
          rw [he] at hfst
          generalize s.rebuild name records = got at hfst he'
          obtain ⟨w, t⟩ := got
          simp only at hfst he'
          have hlt : 0 < limit → out.length < limit := fun h => by
            by_contra hge
            exact hfull ⟨h, not_lt.mp hge⟩
          cases ha : e.assemble records with
          | none =>
              rw [ha] at hfst
              subst hfst
              have ih := judge_fst limit completeTo e rows out t he' hout
              simpa [found, ha] using ih
          | some a =>
              rw [ha] at hfst
              subst hfst
              have ih := judge_fst limit completeTo e rows (out ++ [(name, a.wire)]) t he'
                (fun h => by simpa using hlt h)
              simpa [found, ha] using ih

end Judging

/-! ## Limited and unlimited scans -/

section Limits

variable {s : ErasureStore Name} {under : Name} {limit : ℕ}

theorem increasing_toList (rows : Rows Name) : Increasing rows.toList :=
  rows.ordered_keys_toList.imp fun h => compare_lt_iff_lt.mp h

theorem kept_none (rows : List (Name × List (Option Bytes))) : kept none rows = rows := by
  simp [kept]

theorem kept_some {c : Name} {rows : List (Name × List (Option Bytes))} (h : Increasing rows) :
    kept (some c) rows = rows.filter (·.1 ≤ c) := by
  have heq : (fun row : Name × List (Option Bytes) => !(some c).any (· < row.1)) =
      fun row => decide (row.1 ≤ c) := by
    funext row
    rw [Bool.eq_iff_iff]
    simp
  rw [kept, heq, takeWhile_eq_filter _ h]
  intro a b hab hb
  simp only [decide_eq_true_eq] at hb ⊢
  exact hab.le.trans hb

theorem mem_kept {completeTo : Option Name} {rows : List (Name × List (Option Bytes))}
    (h : Increasing rows) {row : Name × List (Option Bytes)} :
    row ∈ kept completeTo rows ↔ row ∈ rows ∧ ∀ c, completeTo = some c → row.1 ≤ c := by
  cases completeTo with
  | none => simp [kept_none]
  | some c => simp [kept_some h]

theorem mem_listed {i : Fin s.erasure.n} {name : Name} {r : Bytes}
    (h : (name, r) ∈ s.listed under limit i) :
    (s.stripes i).get name = some r ∧ hasPrefix name under = true := by
  unfold listed FjallStore.scanUnder at h
  split at h
  · exact FjallStore.mem_entriesUnder.mp h
  · exact FjallStore.mem_entriesUnder.mp (List.mem_of_mem_take h)

/-- The rows up to the name the stripes are complete to hold all records. -/
theorem lookup_listed {name : Name} (hp : hasPrefix name under = true)
    (hle : ∀ c, (s.collect under limit).2 = some c → name ≤ c) (i : Fin s.erasure.n) :
    (s.listed under limit i).lookup name = (s.stripes i).get name := by
  have hlisted : ∀ r, (s.stripes i).get name = some r → (name, r) ∈ s.listed under limit i := by
    intro r hr
    have hentry := FjallStore.mem_entriesUnder.mpr ⟨hr, hp⟩
    by_cases hcut : 0 < limit ∧ limit ≤ (s.listed under limit i).length
    · obtain ⟨last, hlast⟩ : ∃ last, (s.listed under limit i).getLast? = some last :=
        ⟨_, List.getLast?_eq_some_getLast (List.length_pos_iff.mp (hcut.1.trans_le hcut.2))⟩
      obtain ⟨c, hc, hcl⟩ := (s.collected_collect under limit).least hcut.1 i
        (List.mem_finRange i) hcut.2 last.1 (by rw [hlast]; rfl)
      have hne : limit ≠ 0 := hcut.1.ne'
      rw [listed, FjallStore.scanUnder, if_neg hne] at hlast ⊢
      exact Increasing.mem_take_of_le ((s.stripes i).sorted_entriesUnder under) hlast hentry
        ((hle c hc).trans hcl)
    · rw [listed, FjallStore.scanUnder] at hcut ⊢
      split
      · exact hentry
      next hne =>
        rw [if_neg hne, List.length_take] at hcut
        rwa [List.take_of_length_le (by omega)]
  cases hr : (s.stripes i).get name with
  | some r => exact (s.increasing_listed under limit i).lookup_eq_some.mpr (hlisted r hr)
  | none =>
      cases hl : (s.listed under limit i).lookup name with
      | none => rfl
      | some r =>
          have hmem := (s.increasing_listed under limit i).lookup_eq_some.mp hl
          rw [(mem_listed hmem).1] at hr
          cases hr

theorem rowOf_eq_records {name : Name} (hp : hasPrefix name under = true)
    (hle : ∀ c, (s.collect under limit).2 = some c → name ≤ c) :
    s.rowOf under limit (List.finRange s.erasure.n) name = s.records name := by
  apply congrArg List.ofFn
  funext i
  rw [if_pos (List.mem_finRange i), lookup_listed hp hle]

theorem mem_rows {name : Name} {row : List (Option Bytes)} :
    (name, row) ∈ (s.collect under limit).1.toList ↔
      (∃ i, name ∈ (s.listed under limit i).map Prod.fst) ∧
        row = s.rowOf under limit (List.finRange s.erasure.n) name := by
  have hcoll := s.collected_collect under limit
  have hrow := hcoll.row name
  have hname := hcoll.names name
  rw [Std.ExtTreeMap.mem_toList_iff_getElem?_eq_some]
  constructor
  · intro h
    rw [Rows.at, h] at hrow
    have hin := hname.mp (Std.ExtTreeMap.mem_iff_isSome_getElem?.mpr (by rw [h]; rfl))
    obtain ⟨i, -, hi⟩ := hin
    exact ⟨⟨i, hi⟩, hrow⟩
  · rintro ⟨⟨i, hi⟩, rfl⟩
    have hin := hname.mpr ⟨i, List.mem_finRange i, hi⟩
    obtain ⟨row, hsome⟩ := Option.isSome_iff_exists.mp
      (Std.ExtTreeMap.mem_iff_isSome_getElem?.mp hin)
    rw [Rows.at, hsome] at hrow
    rw [hsome]
    exact congrArg some hrow

variable [Sha2] [Codec UInt8]

/-- The packets of the complete rows are those up to the name they are complete
to. -/
theorem mem_found_kept (s : ErasureStore Name) (under : Name) (limit : ℕ) (name : Name)
    (w : Bytes) :
    (name, w) ∈ found s.erasure (kept (s.collect under limit).2
        (s.collect under limit).1.toList) ↔
      (name, w) ∈ s.packetsUnder under ∧ ∀ c, (s.collect under limit).2 = some c → name ≤ c := by
  rw [found, List.mem_filterMap, mem_packetsUnder]
  constructor
  · rintro ⟨⟨other, row⟩, hrow, hw⟩
    obtain ⟨hmem, hle⟩ := (mem_kept (increasing_toList _)).mp hrow
    obtain ⟨⟨i, hi⟩, rfl⟩ := mem_rows.mp hmem
    obtain ⟨⟨_, r⟩, hr, rfl⟩ := List.mem_map.mp hi
    have hp := (mem_listed hr).2
    obtain ⟨a, ha, he⟩ := Option.map_eq_some_iff.mp hw
    cases he
    rw [rowOf_eq_records hp hle] at ha
    exact ⟨⟨hp, by rw [wire, ha]; rfl⟩, hle⟩
  · rintro ⟨⟨hp, hw⟩, hle⟩
    obtain ⟨i, hi⟩ := exists_record_of_wire hw
    obtain ⟨r, hr⟩ := Option.isSome_iff_exists.mp hi
    have hlook := lookup_listed hp hle i
    rw [hr, (s.increasing_listed under limit i).lookup_eq_some] at hlook
    refine ⟨(name, s.records name), (mem_kept (increasing_toList _)).mpr ⟨?_, hle⟩, ?_⟩
    · exact mem_rows.mpr ⟨⟨i, List.mem_map_of_mem hlook⟩, (rowOf_eq_records hp hle).symm⟩
    · obtain ⟨a, ha, rfl⟩ := Option.map_eq_some_iff.mp hw
      rw [ha]
      rfl

theorem increasing_found {rows : List (Name × List (Option Bytes))} (h : Increasing rows) :
    Increasing (found s.erasure rows) := by
  rw [found, Increasing, List.pairwise_filterMap]
  refine h.imp ?_
  intro a b hab x hx y hy
  obtain ⟨v, -, rfl⟩ := Option.map_eq_some_iff.mp hx
  obtain ⟨w, -, rfl⟩ := Option.map_eq_some_iff.mp hy
  exact hab

theorem found_kept_none (hnone : (s.collect under limit).2 = none) :
    found s.erasure (s.collect under limit).1.toList = s.packetsUnder under := by
  refine (increasing_found (increasing_toList _)).eq_of_mem_iff increasing_packetsUnder ?_
  intro name w
  have hmem := mem_found_kept s under limit name w
  rw [hnone, kept_none] at hmem
  simpa using hmem

theorem found_kept_some {c : Name} (hc : (s.collect under limit).2 = some c) :
    found s.erasure (kept (some c) (s.collect under limit).1.toList) =
      (s.packetsUnder under).filter (·.1 ≤ c) := by
  have hkept : Increasing (kept (some c) (s.collect under limit).1.toList) :=
    (increasing_toList _).sublist (List.takeWhile_sublist _)
  refine (increasing_found hkept).eq_of_mem_iff
    (increasing_packetsUnder.sublist List.filter_sublist) ?_
  intro name w
  have hmem := mem_found_kept s under limit name w
  rw [hc] at hmem
  simpa using hmem

/-- The packets up to a name, counted. -/
theorem length_packets_le (c : Name) :
    ((s.packetsUnder under).filter (·.1 ≤ c)).length =
      ((s.namesUnder under).filter fun name => name ≤ c ∧ (s.wire name).isSome).card := by
  have hincr : Increasing ((s.packetsUnder under).filter (·.1 ≤ c)) :=
    increasing_packetsUnder.sublist List.filter_sublist
  have hnodup : (((s.packetsUnder under).filter (·.1 ≤ c)).map Prod.fst).Nodup :=
    (List.pairwise_map.mpr hincr).imp ne_of_lt
  have hset : (((s.packetsUnder under).filter (·.1 ≤ c)).map Prod.fst).toFinset =
      (s.namesUnder under).filter fun name => name ≤ c ∧ (s.wire name).isSome := by
    ext name
    simp only [List.mem_toFinset, List.mem_map, List.mem_filter, decide_eq_true_eq, Prod.exists,
      exists_and_right, exists_eq_right, mem_packetsUnder, Finset.mem_filter, mem_namesUnder,
      Option.isSome_iff_exists]
    constructor
    · rintro ⟨⟨w, hp, hw⟩, hle⟩
      exact ⟨⟨hp, by simpa [Option.isSome_iff_exists] using exists_record_of_wire hw⟩, hle, w, hw⟩
    · rintro ⟨⟨hp, -⟩, hle, w, hw⟩
      exact ⟨⟨w, hp, hw⟩, hle⟩
  rw [← hset, List.toFinset_card_of_nodup hnodup, List.length_map]

/-- A scan of all entries finds every packet, up to the limit. -/
theorem scan_full_fst (s : ErasureStore Name) (under : Name) (limit : ℕ) :
    (s.scan under 0 limit).1 =
      some (if limit = 0 then s.packetsUnder under else (s.packetsUnder under).take limit) := by
  have hnone : (s.collect under 0).2 = none := by
    cases hc : (s.collect under 0).2 with
    | none => rfl
    | some c =>
        obtain ⟨i, -, hpos, -⟩ := (s.collected_collect under 0).attained c hc
        exact absurd hpos (lt_irrefl 0)
  have hfound := found_kept_none hnone
  have hjudge := judge_fst limit none s.erasure (s.collect under 0).1.toList [] s rfl
    fun _ => Nat.zero_le _
  unfold scan
  generalize s.collect under 0 = got at hnone hfound hjudge
  obtain ⟨rows, completeTo⟩ := got
  simp only at hnone hfound hjudge ⊢
  subst hnone
  rw [hjudge, kept_none, hfound, List.nil_append, if_pos rfl]
  by_cases hzero : limit = 0
  · simp [hzero]
  · by_cases hle : limit ≤ (s.packetsUnder under).length
    · rw [if_pos ⟨Nat.pos_of_ne_zero hzero, hle⟩, if_neg hzero]
    · rw [if_neg fun h => hle h.2, if_neg hzero, List.take_of_length_le (not_le.mp hle).le]

theorem scanUnder_fst (s : ErasureStore Name) (under : Name) (limit : ℕ) :
    (s.scanUnder under limit).1 = ((s.scan under limit limit).1 <|>
      ((s.scan under limit limit).2.scan under 0 limit).1).getD [] := by
  unfold scanUnder
  obtain ⟨first, t⟩ := s.scan under limit limit
  cases first with
  | some out => rfl
  | none =>
      simp only
      generalize t.scan under 0 limit = got
      obtain ⟨again, t'⟩ := got
      cases again <;> rfl

/-- An unlimited scan lists the packets under a prefix. -/
theorem scanUnder_zero (s : ErasureStore Name) (under : Name) :
    (s.scanUnder under 0).1 = s.packetsUnder under := by
  rw [scanUnder_fst, scan_full_fst]
  rfl

/-- What every repair keeps, a scan keeps. -/
theorem scan_induct {P : ErasureStore Name → Prop} (hrepair : ∀ s name, P s → P (s.repair name))
    (stripeLimit : ℕ) (h : P s) : P (s.scan under stripeLimit limit).2 := by
  unfold scan
  exact judge_induct hrepair limit _ _ [] s h

/-- A scan changes no packet. -/
theorem wire_scan (law : Lawful UInt8 s.erasure.k s.erasure.n) (stripeLimit : ℕ) :
    ∀ name, (s.scan under stripeLimit limit).2.wire name = s.wire name := by
  have hkeeps : ∀ (t : ErasureStore Name) name,
      (t.erasure = s.erasure ∧ ∀ other, t.wire other = s.wire other) →
        (t.repair name).erasure = s.erasure ∧ ∀ other, (t.repair name).wire other = s.wire other := by
    rintro t name ⟨he, hw⟩
    exact ⟨(erasure_repair name).trans he, fun other => by
      rw [wire_repair (by rw [he]; exact law), hw]⟩
  exact (scan_induct (P := fun t => t.erasure = s.erasure ∧ ∀ other, t.wire other = s.wire other)
    hkeeps stripeLimit ⟨rfl, fun _ => rfl⟩).2

/-- Where a scan with limited stripes answers at all, and what. -/
theorem scan_limited_fst (s : ErasureStore Name) (under : Name) (hlimit : 0 < limit) :
    (s.scan under limit limit).1 =
      match (s.collect under limit).2 with
      | none => some ((s.packetsUnder under).take limit)
      | some c =>
          if limit ≤ ((s.packetsUnder under).filter (·.1 ≤ c)).length then
            some ((s.packetsUnder under).take limit)
          else if ∀ i, ∀ entry ∈ s.listed under limit i, entry.1 ≤ c then
            some ((s.packetsUnder under).filter (·.1 ≤ c))
          else none := by
  have hjudge := judge_fst limit (s.collect under limit).2 s.erasure
    (s.collect under limit).1.toList [] s rfl fun _ => Nat.zero_le _
  have hscan : (s.scan under limit limit).1 = (judge limit (s.collect under limit).2
      (s.collect under limit).1.toList [] s).1 := rfl
  rw [hscan, hjudge, List.nil_append]
  cases hc : (s.collect under limit).2 with
  | none =>
      rw [kept_none, found_kept_none hc, if_pos rfl]
      by_cases hle : limit ≤ (s.packetsUnder under).length
      · rw [if_pos ⟨hlimit, hle⟩]
      · rw [if_neg fun h => hle h.2, List.nil_append, List.take_of_length_le (not_le.mp hle).le]
  | some c =>
      rw [found_kept_some hc]
      simp only [hlimit, true_and]
      obtain ⟨m, hm⟩ := increasing_packetsUnder.filter_eq_take (t := s.packetsUnder under) c
      by_cases hle : limit ≤ ((s.packetsUnder under).filter (·.1 ≤ c)).length
      · rw [if_pos hle, if_pos hle, hm, List.take_take, min_eq_left]
        rw [hm, List.length_take] at hle
        omega
      · rw [if_neg hle, if_neg hle]
        have hall : kept (some c) (s.collect under limit).1.toList =
            (s.collect under limit).1.toList ↔
              ∀ i, ∀ entry ∈ s.listed under limit i, entry.1 ≤ c := by
          rw [kept_some (increasing_toList _), List.filter_eq_self]
          constructor
          · intro h i entry hentry
            have hrow := mem_rows.mpr ⟨⟨i, List.mem_map_of_mem hentry⟩, rfl⟩
            simpa using h _ hrow
          · rintro h ⟨name, row⟩ hrow
            obtain ⟨⟨i, hi⟩, -⟩ := mem_rows.mp hrow
            obtain ⟨entry, hentry, rfl⟩ := List.mem_map.mp hi
            simpa using h i entry hentry
        by_cases hkept : kept (some c) (s.collect under limit).1.toList =
            (s.collect under limit).1.toList
        · rw [if_pos hkept, if_pos (hall.mp hkept), ← found_kept_some hc, hkept, List.nil_append]
        · rw [if_neg hkept, if_neg (mt hall.mpr hkept)]

/-- A scan that overlooks packets returns those up to where its stripes end. -/
theorem scanUnder_of_overlooks (h : s.Overlooks under limit) :
    ∃ c, (s.scanUnder under limit).1 = (s.packetsUnder under).filter (·.1 ≤ c) ∧
      ((s.packetsUnder under).filter (·.1 ≤ c)).length < limit ∧
      ∃ packet ∈ s.packetsUnder under, c < packet.1 := by
  obtain ⟨c, ⟨⟨i, hlen, hlast⟩, hleast⟩, hend, hfew, name, hname, hlt, hsome⟩ := h
  rw [← length_packets_le] at hfew
  obtain ⟨w, hw⟩ := Option.isSome_iff_exists.mp hsome
  refine ⟨c, ?_, hfew, (name, w), mem_packetsUnder.mpr ⟨(mem_namesUnder.mp hname).1, hw⟩, hlt⟩
  have hlimit : 0 < limit := (Nat.zero_le _).trans_lt hfew
  have hcoll := s.collected_collect under limit
  have hcut : (s.collect under limit).2 = some c := by
    obtain ⟨d, hd, hdc⟩ := hcoll.least hlimit i (List.mem_finRange i) hlen c hlast
    obtain ⟨j, -, -, hjlen, hjlast⟩ := hcoll.attained d hd
    rw [hd, le_antisymm hdc (hleast j hjlen d hjlast)]
  have hscan := scan_limited_fst s under hlimit
  simp only [hcut] at hscan
  rw [if_neg (not_le.mpr hfew), if_pos hend] at hscan
  rw [scanUnder_fst, hscan]
  rfl

/-- A limited scan lists the first packets under a prefix unless it overlooks some. -/
theorem scanUnder_eq_take_iff (law : Lawful UInt8 s.erasure.k s.erasure.n) (hlimit : 0 < limit) :
    (s.scanUnder under limit).1 = (s.packetsUnder under).take limit ↔ ¬s.Overlooks under limit := by
  constructor
  · intro h hover
    obtain ⟨c, hscan, hfew, packet, hpacket, hlt⟩ := scanUnder_of_overlooks hover
    rw [hscan] at h
    have hshort : (s.packetsUnder under).length < limit := by
      rw [h, List.length_take] at hfew
      omega
    rw [List.take_of_length_le hshort.le, List.filter_eq_self] at h
    have hle := h packet hpacket
    simp only [decide_eq_true_eq] at hle
    exact absurd hlt (not_lt.mpr hle)
  · intro hnot
    have hscan := scan_limited_fst s under hlimit
    have hpackets : (s.scan under limit limit).2.packetsUnder under = s.packetsUnder under :=
      packetsUnder_congr (wire_scan law limit)
    have hcoll := s.collected_collect under limit
    have hfull := scan_full_fst (s.scan under limit limit).2 under limit
    rw [hpackets, if_neg hlimit.ne'] at hfull
    have hanswer : (s.scan under limit limit).1 = some ((s.packetsUnder under).take limit) ∨
        (s.scan under limit limit).1 = none := by
      rw [hscan]
      cases hc : (s.collect under limit).2 with
      | none => exact Or.inl rfl
      | some c =>
          simp only
          split
          · exact Or.inl rfl
          next hfew =>
            split
            next hend =>
              refine Or.inl (congrArg some ?_)
              -- No packet lies past `c`, or the scan would overlook it.
              have hall : (s.packetsUnder under).filter (·.1 ≤ c) = s.packetsUnder under := by
                rw [List.filter_eq_self]
                rintro ⟨name, w⟩ hmem
                by_contra hle
                obtain ⟨hp, hw⟩ := mem_packetsUnder.mp hmem
                refine hnot ⟨c, ⟨?_, ?_⟩, hend, ?_, name, ?_, ?_, by rw [hw]; rfl⟩
                · obtain ⟨i, -, -, hlen, hlast⟩ := hcoll.attained c hc
                  exact ⟨i, hlen, hlast⟩
                · intro i hlen d hd
                  obtain ⟨c', hc', hle'⟩ :=
                    hcoll.least hlimit i (List.mem_finRange i) hlen d hd
                  rw [hc] at hc'
                  exact Option.some.inj hc' ▸ hle'
                · rw [← length_packets_le]
                  exact not_le.mp hfew
                · exact mem_namesUnder.mpr ⟨hp, exists_record_of_wire hw⟩
                · simpa using hle
              rw [hall] at hfew ⊢
              exact (List.take_of_length_le (not_le.mp hfew).le).symm
            · exact Or.inr rfl
    rw [scanUnder_fst, hfull]
    rcases hanswer with h | h
    · rw [h]
      rfl
    · rw [h]
      rfl

/-- `find_under` finds the first packet under a prefix unless its scan overlooks it. -/
theorem findUnder_eq_head_iff (law : Lawful UInt8 s.erasure.k s.erasure.n) :
    (s.findUnder under).1 = (s.packetsUnder under).head?.map Prod.snd ↔ ¬s.Overlooks under 1 := by
  have hfind : (s.findUnder under).1 = (s.scanUnder under 1).1.head?.map Prod.snd := rfl
  rw [hfind]
  constructor
  · intro h hover
    obtain ⟨c, hscan, hfew, packet, hpacket, -⟩ := scanUnder_of_overlooks hover
    rw [hscan, List.length_eq_zero_iff.mp (Nat.lt_one_iff.mp hfew)] at h
    cases hp : s.packetsUnder under with
    | nil => rw [hp] at hpacket; cases hpacket
    | cons first rest => rw [hp] at h; cases h
  · intro hnot
    rw [(scanUnder_eq_take_iff law Nat.one_pos).mpr hnot]
    cases s.packetsUnder under <;> rfl

/-- Scans against the packets `get` returns.  An unlimited scan lists every packet
under the prefix once, in name order.  A limited scan is its first part, and
`find_under` its first packet, exactly when they overlook nothing. -/
theorem scans_iff_not_overlooks (s : ErasureStore Name)
    (law : Lawful UInt8 s.erasure.k s.erasure.n) (under : Name) {limit : ℕ} (hlimit : 1 ≤ limit) :
    (∀ name w, (name, w) ∈ (s.scanUnder under 0).1 ↔
        hasPrefix name under = true ∧ (s.get name).1 = some w) ∧
      (s.scanUnder under 0).1.Pairwise (fun p q => p.1 < q.1) ∧
      ((s.scanUnder under limit).1 = (s.scanUnder under 0).1.take limit ↔
        ¬s.Overlooks under limit) ∧
      ((s.findUnder under).1 = (s.scanUnder under 0).1.head?.map Prod.snd ↔
        ¬s.Overlooks under 1) := by
  rw [scanUnder_zero]
  refine ⟨fun name w => ?_, increasing_packetsUnder, scanUnder_eq_take_iff law hlimit,
    findUnder_eq_head_iff law⟩
  rw [mem_packetsUnder, get_fst_eq_wire]

end Limits

/-- A 2-of-3 store with a packet `/b` and, in every stripe, a bad record of `/a`. -/
def damagedStore : ErasureStore Components :=
  letI := shortSha2
  letI := xorCodec
  let s := (openEmpty default).insert [[8, 1, 98]] [1, 2]
  (List.range 3).foldl (fun s i => s.putRecord i [[8, 1, 97]] (some [0])) s

/-- A scan for two packets lists `/b`, and a scan for one overlooks it. -/
theorem scans_iff_not_overlooks_damagedStore :
    letI := shortSha2
    letI := xorCodec
    ((damagedStore.scanUnder [] 2).1 = [([[8, 1, 98]], [1, 2])] ∧
        ¬damagedStore.Overlooks [] 2) ∧
      (damagedStore.findUnder []).1 = none ∧ damagedStore.Overlooks [] 1 := by
  let _ := shortSha2
  let _ := xorCodec
  have law : Lawful UInt8 damagedStore.erasure.k damagedStore.erasure.n :=
    lawful_xorCodec (Or.inr rfl)
  have htwo : (damagedStore.scanUnder [] 2).1 = [([[8, 1, 98]], [1, 2])] := by decide +kernel
  have hall : (damagedStore.scanUnder [] 0).1 = [([[8, 1, 98]], [1, 2])] := by decide +kernel
  have hfind : (damagedStore.findUnder []).1 = none := by decide +kernel
  obtain ⟨-, -, hscan, -⟩ :=
    scans_iff_not_overlooks damagedStore law [] (by decide : 1 ≤ 2)
  obtain ⟨-, -, -, hfirst⟩ := scans_iff_not_overlooks damagedStore law [] le_rfl
  refine ⟨⟨htwo, hscan.mp (by rw [htwo, hall]; rfl)⟩, hfind, ?_⟩
  by_contra hnot
  have hhead := hfirst.mpr hnot
  rw [hfind, hall] at hhead
  cases hhead

/-- The packet `/b` is read and listed, and a scan for one packet returns none. -/
theorem scan_overlooks_damagedStore :
    letI := shortSha2
    letI := xorCodec
    (damagedStore.get [[8, 1, 98]]).1 = some [1, 2] ∧
      (damagedStore.scanUnder [] 0).1 = [([[8, 1, 98]], [1, 2])] ∧
      (damagedStore.scanUnder [] 1).1 = [] ∧
      (damagedStore.findUnder []).1 = none := by
  decide +kernel

end ErasureStore

end NdnRepo
