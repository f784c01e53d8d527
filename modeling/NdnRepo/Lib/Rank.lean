import Mathlib

/-!
# Ranks

The elements of a finite set are ranked by a key: the rank of an element is the
number of elements with a smaller key.  The first `m` elements are those of rank
below `m`, and a list sorted by the key shows each element at its rank.
-/

namespace Rank

variable {α β : Type} [LinearOrder β] {key : α → β} {S T : Finset α} {x y : α} {m : ℕ}

/-- The elements of a set with a smaller key. -/
def ahead (key : α → β) (S : Finset α) (x : α) : Finset α := S.filter fun y => key y < key x

/-- The elements of rank below `m`. -/
def first (key : α → β) (S : Finset α) (m : ℕ) : Finset α :=
  S.filter fun x => (ahead key S x).card < m

@[simp] theorem mem_ahead : y ∈ ahead key S x ↔ y ∈ S ∧ key y < key x := by
  simp [ahead]

@[simp] theorem mem_first : x ∈ first key S m ↔ x ∈ S ∧ (ahead key S x).card < m := by
  simp [first]

theorem ahead_mono (h : S ⊆ T) : ahead key S x ⊆ ahead key T x :=
  Finset.filter_subset_filter _ h

theorem notMem_ahead_self : x ∉ ahead key S x := by
  simp

/-- What is ahead of an element that is ahead is ahead. -/
theorem ahead_subset_of_lt (h : key y < key x) : ahead key S y ⊆ ahead key S x := by
  intro z hz
  rw [mem_ahead] at hz ⊢
  exact ⟨hz.1, hz.2.trans h⟩

/-- The first elements are ahead of all others. -/
theorem lt_of_mem_first (hx : x ∈ first key S m) (hy : y ∈ S) (hout : y ∉ first key S m) :
    key x < key y := by
  have hrank : (ahead key S x).card < m := (mem_first.mp hx).2
  have hother : m ≤ (ahead key S y).card := not_lt.mp fun h => hout (mem_first.mpr ⟨hy, h⟩)
  by_contra hle
  have hsub : ahead key S y ⊆ ahead key S x := by
    intro z hz
    rw [mem_ahead] at hz ⊢
    exact ⟨hz.1, hz.2.trans_le (not_lt.mp hle)⟩
  have hcard := Finset.card_le_card hsub
  omega

/-- Two elements of distinct keys have distinct ranks. -/
theorem card_ahead_ne (hkey : Function.Injective key) (hx : x ∈ S) (hy : y ∈ S) (hne : x ≠ y) :
    (ahead key S x).card ≠ (ahead key S y).card := by
  have hrank : ∀ {a b : α}, a ∈ S → key a < key b →
      (ahead key S a).card < (ahead key S b).card := by
    intro a b ha hlt
    refine Finset.card_lt_card ⟨ahead_subset_of_lt hlt, fun hsub => ?_⟩
    exact notMem_ahead_self (hsub (mem_ahead.mpr ⟨ha, hlt⟩))
  rcases lt_or_gt_of_ne fun h => hne (hkey h) with hlt | hgt
  · exact (hrank hx hlt).ne
  · exact (hrank hy hgt).ne'

/-- There are `m` elements of rank below `m`, or all of them. -/
theorem card_first (hkey : Function.Injective key) (S : Finset α) (m : ℕ) :
    (first key S m).card = min m S.card := by
  classical
  induction S using Finset.induction_on_max_value key with
  | empty => simp [first]
  | insert a S ha hmax ih =>
      have hlt : ∀ x ∈ S, key x < key a := fun x hx =>
        lt_of_le_of_ne (hmax x hx) fun h => ha (hkey h ▸ hx)
      have hold : ∀ x ∈ S, ahead key (insert a S) x = ahead key S x := by
        intro x hx
        rw [ahead, Finset.filter_insert, if_neg (hlt x hx).not_gt]
        rfl
      have hnew : ahead key (insert a S) a = S := by
        rw [ahead, Finset.filter_insert, if_neg (lt_irrefl _)]
        exact Finset.filter_true_of_mem hlt
      have hrest : S.filter (fun x => (ahead key (insert a S) x).card < m) = first key S m :=
        Finset.filter_congr fun x hx => by rw [hold x hx]
      rw [first, Finset.filter_insert, hnew, hrest, Finset.card_insert_of_notMem ha]
      split
      next hroom =>
        have hnotMem : a ∉ first key S m := fun h => ha (mem_first.mp h).1
        rw [Finset.card_insert_of_notMem hnotMem, ih]
        omega
      next hfull =>
        rw [ih]
        omega

/-- An element stands in a sorted list at its rank. -/
theorem idxOf_of_pairwise [DecidableEq α] :
    ∀ {l : List α} {x : α}, l.Pairwise (fun a b => key a < key b) → x ∈ l →
      l.idxOf x = (ahead key l.toFinset x).card
  | a :: l, x, hsorted, hx => by
      obtain ⟨hhead, htail⟩ := List.pairwise_cons.mp hsorted
      have hnotMem : a ∉ l := fun h => lt_irrefl _ (hhead a h)
      rw [List.toFinset_cons, ahead, Finset.filter_insert]
      rcases List.mem_cons.mp hx with rfl | hx
      · have hnone : l.toFinset.filter (fun y => key y < key x) = ∅ := by
          apply Finset.filter_false_of_mem
          intro y hy
          exact (hhead y (List.mem_toFinset.mp hy)).not_gt
        rw [if_neg (lt_irrefl _), hnone]
        simp
      · have hne : a ≠ x := fun h => hnotMem (h ▸ hx)
        have hout : a ∉ l.toFinset.filter fun y => key y < key x := by simp [hnotMem]
        rw [if_pos (hhead x hx), List.idxOf_cons_ne l hne, Finset.card_insert_of_notMem hout,
          idxOf_of_pairwise htail hx]
        rfl

theorem idxOf?_of_mem [DecidableEq α] : ∀ {l : List α} {x : α}, x ∈ l → l.idxOf? x = some (l.idxOf x)
  | a :: l, x, hx => by
      rw [List.idxOf?_cons, List.idxOf_cons]
      cases hax : a == x with
      | true => rfl
      | false =>
          have hne : a ≠ x := by simpa using hax
          have htail : x ∈ l := (List.mem_cons.mp hx).resolve_left hne.symm
          rw [idxOf?_of_mem htail]
          rfl

/-- The first part of a sorted list holds the elements of small rank. -/
theorem mem_take_of_pairwise [DecidableEq α] {l : List α}
    (hsorted : l.Pairwise fun a b => key a < key b) :
    x ∈ l.take m ↔ x ∈ first key l.toFinset m := by
  rw [mem_first, List.mem_toFinset]
  constructor
  · intro hx
    have hmem := List.mem_of_mem_take hx
    rw [← idxOf_of_pairwise hsorted hmem]
    exact ⟨hmem, (List.mem_take_iff_idxOf_lt hmem).mp hx⟩
  · rintro ⟨hmem, hrank⟩
    rw [List.mem_take_iff_idxOf_lt hmem, idxOf_of_pairwise hsorted hmem]
    exact hrank

/-- Sorting elements of distinct keys sorts them strictly. -/
theorem pairwise_insertionSort (hkey : Function.Injective key) {l : List α} (hnodup : l.Nodup) :
    (l.insertionSort fun a b => key a ≤ key b).Pairwise fun a b => key a < key b := by
  have htotal : Std.Total fun a b : α => key a ≤ key b := ⟨fun a b => le_total _ _⟩
  have htrans : IsTrans α fun a b => key a ≤ key b := ⟨fun a b c => le_trans⟩
  have hsorted := List.pairwise_insertionSort (fun a b => key a ≤ key b) l
  have hnodup' := (List.perm_insertionSort (fun a b => key a ≤ key b) l).nodup_iff.mpr hnodup
  exact (hsorted.and hnodup').imp fun ⟨hle, hne⟩ => lt_of_le_of_ne hle fun h => hne (hkey h)

variable (key) in
/-- There is one way to sort a set of elements by their keys. -/
theorem eq_of_pairwise {l l' : List α} (h : l.Pairwise fun a b => key a < key b)
    (h' : l'.Pairwise fun a b => key a < key b) (hmem : ∀ x, x ∈ l ↔ x ∈ l') : l = l' := by
  have hnodup : ∀ {m : List α}, m.Pairwise (fun a b => key a < key b) → m.Nodup := by
    intro m hm
    exact hm.imp fun {a b} (hlt : key a < key b) (heq : a = b) => (heq ▸ hlt).false
  have hperm := (List.perm_ext_iff_of_nodup (hnodup h) (hnodup h')).mpr hmem
  exact hperm.eq_of_pairwise (fun a b _ _ hab hba => absurd hba hab.not_gt) h h'

end Rank
