import Mathlib

/-!
# Sorted lists

Lists in strictly increasing order and tables in strictly increasing key order:
their elements up to a bound are a first part of them, a key is looked up in at most
one place, and tables without a common key merge to a table.
-/

namespace Sorted

/-! ## Increasing numbers -/

/-- In a strictly increasing list of numbers, those below `k` are among the first
`k`. -/
theorem mem_take_of_lt {l : List ℕ} (hl : l.Pairwise (· < ·)) {k x : ℕ} (hx : x ∈ l)
    (hk : x < k) : x ∈ l.take k := by
  have hfrom : ∀ (l : List ℕ) (b k : ℕ), l.Pairwise (· < ·) → (∀ y ∈ l, b ≤ y) → x ∈ l →
      x < b + k → x ∈ l.take k := by
    intro l
    induction l with
    | nil => intro b k _ _ hx _; cases hx
    | cons y l ih =>
        intro b k hl hb hx hk
        rw [List.pairwise_cons] at hl
        have hby := hb y (List.mem_cons_self ..)
        have hbx := hb x hx
        obtain ⟨k, rfl⟩ : ∃ k', k = k' + 1 := ⟨k - 1, by omega⟩
        rw [List.take_succ_cons]
        rcases List.mem_cons.mp hx with rfl | hx'
        · exact List.mem_cons_self ..
        · refine List.mem_cons_of_mem _ (ih (b + 1) k hl.2 (fun z hz => ?_) hx' (by omega))
          have hyz := hl.1 z hz
          omega
  exact hfrom l 0 k hl (fun y _ => Nat.zero_le y) hx (by omega)

/-! ## First parts -/

/-- In a list ordered by `r`, what satisfies a predicate that passes to smaller
elements comes first. -/
theorem takeWhile_eq_filter {α : Type} {r : α → α → Prop} {p : α → Bool}
    (hp : ∀ a b, r a b → p b = true → p a = true) :
    ∀ {l : List α}, l.Pairwise r → l.takeWhile p = l.filter p
  | [], _ => rfl
  | a :: l, h => by
      rw [List.pairwise_cons] at h
      by_cases ha : p a = true
      · rw [List.takeWhile_cons_of_pos ha, List.filter_cons_of_pos ha,
          takeWhile_eq_filter hp h.2]
      · have hnone : l.filter p = [] := by
          rw [List.filter_eq_nil_iff]
          exact fun b hb hpb => ha (hp a b (h.1 b hb) hpb)
        rw [List.takeWhile_cons_of_neg ha, List.filter_cons_of_neg ha, hnone]

section Table

variable {κ α : Type} [LinearOrder κ]

/-- A table in strictly increasing key order. -/
abbrev Increasing (table : List (κ × α)) : Prop := table.Pairwise fun a b => a.1 < b.1

theorem Increasing.lookup_eq_some {key : κ} {a : α} :
    ∀ {table : List (κ × α)}, Increasing table →
      (table.lookup key = some a ↔ (key, a) ∈ table)
  | [], _ => by simp
  | (k, b) :: table, h => by
      rw [Increasing, List.pairwise_cons] at h
      have ih : table.lookup key = some a ↔ (key, a) ∈ table := Increasing.lookup_eq_some h.2
      by_cases hk : key = k
      · subst hk
        have hnot : (key, a) ∉ table := fun hmem => lt_irrefl key (h.1 (key, a) hmem)
        simp [List.lookup, hnot, eq_comm]
      · simp [List.lookup, beq_false_of_ne hk, ih, hk]

/-- Two tables in increasing key order with the same entries are equal. -/
theorem Increasing.eq_of_mem_iff {t t' : List (κ × α)} (h : Increasing t) (h' : Increasing t')
    (hmem : ∀ key a, (key, a) ∈ t ↔ (key, a) ∈ t') : t = t' := by
  have : Std.Irrefl fun a b : κ × α => a.1 < b.1 := ⟨fun a => lt_irrefl a.1⟩
  have : Std.Antisymm fun a b : κ × α => a.1 < b.1 :=
    ⟨fun a b h1 h2 => absurd h1 (lt_asymm h2)⟩
  exact List.Pairwise.eq_of_mem_iff h h' fun ⟨key, a⟩ => hmem key a

/-- The entries up to a key are a first part of a table. -/
theorem Increasing.filter_eq_take {t : List (κ × α)} (h : Increasing t) (c : κ) :
    ∃ m, t.filter (·.1 ≤ c) = t.take m := by
  have hdown : ∀ a b : κ × α, a.1 < b.1 → decide (b.1 ≤ c) = true → decide (a.1 ≤ c) = true := by
    intro a b hab hb
    simp only [decide_eq_true_eq] at hb ⊢
    exact hab.le.trans hb
  rw [← takeWhile_eq_filter hdown h]
  exact ⟨_, (List.prefix_iff_eq_take.mp (List.takeWhile_prefix _))⟩

/-- A first part of a table that misses a key misses the later ones. -/
theorem Increasing.mem_take_of_le {t : List (κ × α)} (h : Increasing t) {m : ℕ} {last entry : κ × α}
    (hlast : (t.take m).getLast? = some last) (hmem : entry ∈ t) (hle : entry.1 ≤ last.1) :
    entry ∈ t.take m := by
  rw [← List.take_append_drop m t, Increasing, List.pairwise_append] at h
  rw [← List.take_append_drop m t, List.mem_append] at hmem
  refine hmem.elim id fun hdrop => ?_
  have hlt := h.2.2 last (List.mem_of_getLast? hlast) entry hdrop
  exact absurd hle (not_le.mpr hlt)

end Table

/-! ## Merging -/

section Merge

variable {α κ : Type}

/-- The first `m` entries of a merge are decided by the first `m` of each part. -/
theorem take_merge (le : α → α → Bool) :
    ∀ {m p q : ℕ} (t t' : List α), m ≤ p → m ≤ q →
      ((t.take p).merge (t'.take q) le).take m = (t.merge t' le).take m
  | 0, p, q, t, t', _, _ => by simp
  | m + 1, p, q, [], t', _, hq => by simp [List.take_take, min_eq_left hq]
  | m + 1, p, q, a :: t, [], hp, _ => by simp [List.take_take, min_eq_left hp]
  | m + 1, p + 1, q + 1, a :: t, b :: t', hp, hq => by
      have hp : m ≤ p := Nat.le_of_succ_le_succ hp
      have hq : m ≤ q := Nat.le_of_succ_le_succ hq
      by_cases h : le a b = true
      · have ih := take_merge le t (b :: t') hp (hq.trans (Nat.le_succ q))
        rw [List.take_succ_cons] at ih
        simp only [List.take_succ_cons, List.cons_merge_cons_pos le _ _ h, ih]
      · have ih := take_merge le (a :: t) t' (hp.trans (Nat.le_succ p)) hq
        rw [List.take_succ_cons] at ih
        simp only [List.take_succ_cons, List.cons_merge_cons_neg le _ _ h, ih]

/-- The first `limit` (0 = all) elements of a list. -/
def upTo (limit : ℕ) (l : List α) : List α := if limit = 0 then l else l.take limit

/-- The first entries of a merge, from the first of each part. -/
theorem upTo_merge (le : α → α → Bool) (limit : ℕ) (t t' : List α) :
    upTo limit ((upTo limit t).merge (upTo limit t') le) = upTo limit (t.merge t' le) := by
  by_cases hzero : limit = 0
  · simp only [upTo, if_pos hzero]
  · simp only [upTo, if_neg hzero, take_merge le t t' (le_refl limit) (le_refl limit)]

variable [LinearOrder κ] {β : Type}

/-- Two tables merged by their keys, the first table first. -/
def mergeTables (t t' : List (κ × β)) : List (κ × β) := t.merge t' fun a b => decide (a.1 ≤ b.1)

@[simp] theorem nil_mergeTables (t : List (κ × β)) : mergeTables [] t = t := List.nil_merge t

@[simp] theorem mergeTables_nil (t : List (κ × β)) : mergeTables t [] = t := List.merge_right t

theorem mergeTables_cons_of_le {a b : κ × β} (t t' : List (κ × β)) (h : a.1 ≤ b.1) :
    mergeTables (a :: t) (b :: t') = a :: mergeTables t (b :: t') :=
  List.cons_merge_cons_pos _ _ _ (decide_eq_true h)

theorem mergeTables_cons_of_lt {a b : κ × β} (t t' : List (κ × β)) (h : b.1 < a.1) :
    mergeTables (a :: t) (b :: t') = b :: mergeTables (a :: t) t' :=
  List.cons_merge_cons_neg _ _ _ (by simpa using h)

theorem mem_mergeTables {t t' : List (κ × β)} {entry : κ × β} :
    entry ∈ mergeTables t t' ↔ entry ∈ t ∨ entry ∈ t' := List.mem_merge

/-- Tables without a common key merge to a table. -/
theorem Increasing.merge {t t' : List (κ × β)} (h : Increasing t) (h' : Increasing t')
    (hapart : ∀ a ∈ t, ∀ b ∈ t', a.1 ≠ b.1) : Increasing (mergeTables t t') := by
  have hle : (mergeTables t t').Pairwise fun a b => decide (a.1 ≤ b.1) = true := by
    refine List.pairwise_merge (fun a b c => ?_) (fun a b => ?_) t t'
      (h.imp fun hab => decide_eq_true hab.le) (h'.imp fun hab => decide_eq_true hab.le)
    · simpa using le_trans
    · simpa using le_total a.1 b.1
  have hne : (mergeTables t t').Pairwise fun a b => a.1 ≠ b.1 := by
    refine ((List.merge_perm_append _).pairwise_iff fun hab => Ne.symm hab).mpr ?_
    exact List.pairwise_append.mpr ⟨h.imp ne_of_lt, h'.imp ne_of_lt, hapart⟩
  refine (hle.and hne).imp ?_
  rintro a b ⟨hab, hne⟩
  exact lt_of_le_of_ne (of_decide_eq_true hab) hne

end Merge

end Sorted
