import Mathlib

/-!
# Grouping a list by a key

`groupOn` puts the elements of a list into groups of equal key, in the order in
which the keys first appear.  `maxByKey` is the last element of greatest key, and
`lastSome` the value of the last element that has one.
-/

namespace Grouping

variable {α κ : Type} [DecidableEq κ]

/-! ## Groups -/

/-- Put an element into the group of its key, or into a new group at the end. -/
def addToGroup (c : κ) (a : α) : List (κ × List α) → List (κ × List α)
  | [] => [(c, [a])]
  | (d, members) :: groups =>
      if d = c then (d, members ++ [a]) :: groups else (d, members) :: addToGroup c a groups

/-- The groups of a list, in order of first appearance. -/
def groupOn (key : α → κ) (l : List α) : List (κ × List α) :=
  l.foldl (fun groups a => addToGroup (key a) a groups) []

theorem keys_addToGroup (c : κ) (a : α) :
    ∀ groups : List (κ × List α), (addToGroup c a groups).map Prod.fst =
      if c ∈ groups.map Prod.fst then groups.map Prod.fst else groups.map Prod.fst ++ [c]
  | [] => by simp [addToGroup]
  | (d, members) :: groups => by
      have ih := keys_addToGroup c a groups
      by_cases hd : d = c
      · simp [addToGroup, hd]
      · by_cases hc : c ∈ groups.map Prod.fst
        · rw [if_pos hc] at ih
          rw [addToGroup, if_neg hd, List.map_cons, ih, List.map_cons,
            if_pos (List.mem_cons_of_mem _ hc)]
        · rw [if_neg hc] at ih
          rw [addToGroup, if_neg hd, List.map_cons, ih, List.map_cons, if_neg]
          · rfl
          · exact fun h => (List.mem_cons.mp h).elim (fun e => hd e.symm) hc

/-- The groups of other keys are kept. -/
theorem mem_addToGroup_of_ne {c d : κ} {a : α} {members : List α} (hd : d ≠ c) :
    ∀ {groups : List (κ × List α)}, (d, members) ∈ addToGroup c a groups ↔ (d, members) ∈ groups
  | [] => by simp [addToGroup, hd]
  | (d', members') :: groups => by
      have ih : (d, members) ∈ addToGroup c a groups ↔ (d, members) ∈ groups :=
        mem_addToGroup_of_ne hd
      by_cases hd' : d' = c
      · subst hd'
        simp [addToGroup, hd]
      · simp [addToGroup, hd', ih]

/-- The group of the key grows by the element. -/
theorem mem_addToGroup_self {c : κ} {a : α} {members : List α} :
    ∀ {groups : List (κ × List α)}, (groups.map Prod.fst).Nodup →
      ((c, members) ∈ addToGroup c a groups ↔
        (∃ old, (c, old) ∈ groups ∧ members = old ++ [a]) ∨
          (c ∉ groups.map Prod.fst ∧ members = [a]))
  | [], _ => by simp [addToGroup]
  | (d', members') :: groups, hnodup => by
      rw [List.map_cons, List.nodup_cons] at hnodup
      by_cases hd' : d' = c
      · subst hd'
        have hnot : ∀ old, (d', old) ∉ groups := fun old h =>
          hnodup.1 (List.mem_map.mpr ⟨_, h, rfl⟩)
        simp [addToGroup, hnot]
      · simp [addToGroup, hd', mem_addToGroup_self hnodup.2, Ne.symm hd']

/-- What the groups of a list are. -/
structure GroupsOf (key : α → κ) (l : List α) (groups : List (κ × List α)) : Prop where
  /-- Each key has one group. -/
  nodup : (groups.map Prod.fst).Nodup
  /-- A group holds the elements of its key, in order. -/
  members : ∀ {c : κ} {ms : List α}, (c, ms) ∈ groups → ms = l.filter (key · = c)
  /-- The keys are those of the elements. -/
  keys : ∀ {c : κ}, c ∈ groups.map Prod.fst ↔ ∃ a ∈ l, key a = c

theorem groupsOf_groupOn (key : α → κ) (l : List α) : GroupsOf key l (groupOn key l) := by
  induction l using List.reverseRecOn with
  | nil => exact ⟨List.nodup_nil, by simp [groupOn], by simp [groupOn]⟩
  | append_singleton l a ih =>
      obtain ⟨hnodup, hmembers, hkeys⟩ := ih
      have hstep : groupOn key (l ++ [a]) = addToGroup (key a) a (groupOn key l) := by
        simp [groupOn, List.foldl_append]
      rw [hstep]
      refine ⟨?_, ?_, ?_⟩
      · rw [keys_addToGroup]
        split
        · exact hnodup
        next hnew =>
          rw [List.nodup_append]
          refine ⟨hnodup, by simp, fun x hx y hy => ?_⟩
          rw [List.mem_singleton] at hy
          exact fun e => hnew (hy ▸ e ▸ hx)
      · intro c ms hms
        by_cases hc : c = key a
        · subst hc
          rw [List.filter_append, List.filter_cons_of_pos (by simp), List.filter_nil]
          cases (mem_addToGroup_self hnodup).mp hms with
          | inl h =>
              obtain ⟨old, hold, rfl⟩ := h
              rw [hmembers hold]
          | inr h =>
              obtain ⟨hnew, rfl⟩ := h
              have hnone : l.filter (key · = key a) = [] := by
                rw [List.filter_eq_nil_iff]
                intro b hb
                simp only [decide_eq_true_eq]
                exact fun e => hnew (hkeys.mpr ⟨b, hb, e⟩)
              rw [hnone, List.nil_append]
        · rw [List.filter_append, List.filter_cons_of_neg (by simpa using Ne.symm hc),
            List.filter_nil, List.append_nil]
          exact hmembers ((mem_addToGroup_of_ne hc).mp hms)
      · intro c
        have hsplit : (∃ b ∈ l ++ [a], key b = c) ↔ (∃ b ∈ l, key b = c) ∨ key a = c := by
          simp [or_and_right, exists_or]
        rw [keys_addToGroup, hsplit, ← hkeys]
        split
        next hold => exact ⟨Or.inl, fun h => h.elim id fun e => e ▸ hold⟩
        next hnew => simp [eq_comm]

/-- The group of an element's key. -/
theorem mem_groupOn_of_mem {key : α → κ} {l : List α} {a : α} (ha : a ∈ l) :
    (key a, l.filter (key · = key a)) ∈ groupOn key l := by
  have hg := groupsOf_groupOn key l
  obtain ⟨⟨c, ms⟩, hms, hc⟩ := List.mem_map.mp (hg.keys.mpr ⟨a, ha, rfl⟩)
  simp only at hc
  subst hc
  rw [← hg.members hms]
  exact hms

/-- Keys come in the order of their first elements. -/
theorem keys_groupOn_pairwise {key : α → κ} {before : α → α → Prop} {l : List α}
    (h : l.Pairwise before) : ((groupOn key l).map Prod.fst).Pairwise fun c d =>
      ∃ a ∈ l, key a = c ∧ ∀ b ∈ l, key b = d → before a b := by
  induction l using List.reverseRecOn with
  | nil => exact List.Pairwise.nil
  | append_singleton l a ih =>
      obtain ⟨hl, -, hlast⟩ := List.pairwise_append.mp h
      have hold : ((groupOn key l).map Prod.fst).Pairwise fun c d =>
          ∃ x ∈ l ++ [a], key x = c ∧ ∀ b ∈ l ++ [a], key b = d → before x b := by
        refine (ih hl).imp ?_
        rintro c d ⟨x, hx, hc, hfirst⟩
        refine ⟨x, List.mem_append_left _ hx, hc, fun b hb hd => ?_⟩
        exact (List.mem_append.mp hb).elim (fun hb => hfirst b hb hd) (hlast x hx b)
      have hstep : groupOn key (l ++ [a]) = addToGroup (key a) a (groupOn key l) := by
        simp [groupOn, List.foldl_append]
      rw [hstep, keys_addToGroup]
      split
      · exact hold
      next hnew =>
        refine List.pairwise_append.mpr ⟨hold, List.pairwise_singleton _ _, fun c hc d hd => ?_⟩
        obtain rfl := List.mem_singleton.mp hd
        have hkeys := @(groupsOf_groupOn key l).keys
        obtain ⟨x, hx, hkey⟩ := hkeys.mp hc
        refine ⟨x, List.mem_append_left _ hx, hkey, fun b hb hd => ?_⟩
        rcases List.mem_append.mp hb with hb | hb
        · exact absurd (hkeys.mpr ⟨b, hb, hd⟩) hnew
        · exact hlast x hx b hb

/-! ## The last element of greatest key -/

/-- The last of the elements with the greatest key. -/
def maxByKey (key : α → ℕ) : List α → Option α
  | [] => none
  | a :: l => some (l.foldl (fun x y => if key y < key x then x else y) a)

theorem maxByKey_eq_none {key : α → ℕ} {l : List α} : maxByKey key l = none ↔ l = [] := by
  cases l <;> simp [maxByKey]

/-- One more element is found unless its key is less. -/
theorem maxByKey_concat (key : α → ℕ) (l : List α) (b : α) : maxByKey key (l ++ [b]) =
    some ((maxByKey key l).elim b fun m => if key b < key m then m else b) := by
  cases l with
  | nil => rfl
  | cons a l => simp [maxByKey, List.foldl_append]

/-- The element found is as great as those before it and greater than those after. -/
theorem maxByKey_eq_some_iff {key : α → ℕ} {l : List α} {m : α} : maxByKey key l = some m ↔
    ∃ before after, l = before ++ m :: after ∧ (∀ x ∈ before, key x ≤ key m) ∧
      ∀ x ∈ after, key x < key m := by
  induction l using List.reverseRecOn generalizing m with
  | nil => simp [maxByKey]
  | append_singleton l b ih =>
      rw [maxByKey_concat, Option.some.injEq]
      constructor
      · intro hm
        cases hl : maxByKey key l with
        | none =>
            rw [hl, Option.elim_none] at hm
            subst hm
            exact ⟨[], [], by simp [maxByKey_eq_none.mp hl], by simp, by simp⟩
        | some x =>
            obtain ⟨before, after, rfl, hbefore, hafter⟩ := ih.mp hl
            rw [hl, Option.elim_some] at hm
            split at hm
            next hlt =>
              subst hm
              refine ⟨before, after ++ [b], by simp, hbefore, fun y hy => ?_⟩
              exact (List.mem_append.mp hy).elim (hafter y) fun hy => List.mem_singleton.mp hy ▸ hlt
            next hle =>
              subst hm
              refine ⟨before ++ x :: after, [], rfl, fun y hy => ?_, by simp⟩
              rcases List.mem_append.mp hy with hy | hy
              · exact (hbefore y hy).trans (not_lt.mp hle)
              · rcases List.mem_cons.mp hy with rfl | hy
                · exact not_lt.mp hle
                · exact (hafter y hy).le.trans (not_lt.mp hle)
      · rintro ⟨before, after, heq, hbefore, hafter⟩
        rcases List.eq_nil_or_concat after with rfl | ⟨after, last, rfl⟩
        · obtain ⟨rfl, hlast⟩ := List.append_inj' heq rfl
          obtain rfl : b = m := (List.cons.inj hlast).1
          cases hl : maxByKey key l with
          | none => rfl
          | some x =>
              obtain ⟨before, after, rfl, -, -⟩ := ih.mp hl
              rw [Option.elim_some, if_neg (not_lt.mpr (hbefore x (by simp)))]
        · rw [List.concat_eq_append, ← List.cons_append, ← List.append_assoc] at heq
          obtain ⟨rfl, hlast⟩ := List.append_inj' heq rfl
          obtain rfl : b = last := (List.cons.inj hlast).1
          rw [List.concat_eq_append, List.forall_mem_append] at hafter
          rw [ih.mpr ⟨before, after, rfl, hbefore, hafter.1⟩, Option.elim_some,
            if_pos (hafter.2 b (by simp))]

/-- The element found is one of the list, and no key is greater. -/
theorem maxByKey_spec {key : α → ℕ} {l : List α} {m : α} (h : maxByKey key l = some m) :
    m ∈ l ∧ ∀ x ∈ l, key x ≤ key m := by
  obtain ⟨before, after, rfl, hbefore, hafter⟩ := maxByKey_eq_some_iff.mp h
  refine ⟨by simp, fun x hx => ?_⟩
  rcases List.mem_append.mp hx with hx | hx
  · exact hbefore x hx
  · exact (List.mem_cons.mp hx).elim (fun e => e ▸ le_rfl) fun hx => (hafter x hx).le

/-- Among elements of increasing keys it is the last. -/
theorem maxByKey_of_pairwise {key : α → ℕ} {l : List α} (h : (l.map key).Pairwise (· ≤ ·)) :
    maxByKey key l = l.getLast? := by
  rcases List.eq_nil_or_concat l with rfl | ⟨before, last, rfl⟩
  · rfl
  · rw [List.concat_eq_append] at h ⊢
    rw [List.map_append, List.pairwise_append] at h
    rw [List.getLast?_concat]
    refine maxByKey_eq_some_iff.mpr ⟨before, [], rfl, fun x hx => ?_, by simp⟩
    exact h.2.2 (key x) (List.mem_map_of_mem hx) (key last) (by simp)

/-! ## The last value -/

section Last

variable {β : Type} {f : α → Option β}

/-- The value of the last element that has one. -/
def lastSome (f : α → Option β) (l : List α) : Option β := (l.filterMap f).getLast?

@[simp] theorem lastSome_nil : lastSome f [] = none := rfl

/-- One more element overrides the others if it has a value. -/
theorem lastSome_concat (l : List α) (a : α) :
    lastSome f (l ++ [a]) = (f a).or (lastSome f l) := by
  rw [lastSome, List.filterMap_append, List.getLast?_append]
  cases h : f a with
  | none => simp [h, lastSome]
  | some b => simp [h]

theorem lastSome_eq_none {l : List α} : lastSome f l = none ↔ l.filterMap f = [] :=
  List.getLast?_eq_none_iff

/-- Whether there is a value does not depend on the order. -/
theorem isSome_lastSome_of_perm {l l' : List α} (hperm : l.Perm l') :
    (lastSome f l).isSome = (lastSome f l').isSome := by
  have hlength := (hperm.filterMap f).length_eq
  rw [Bool.eq_iff_iff, lastSome, lastSome, List.getLast?_isSome, List.getLast?_isSome,
    ← List.length_pos_iff, ← List.length_pos_iff, hlength]

/-- If all values are the same, the last is the same in every order. -/
theorem lastSome_eq_of_perm {l l' : List α} (hperm : l.Perm l')
    (hone : ∀ b ∈ l.filterMap f, ∀ b' ∈ l.filterMap f, b = b') : lastSome f l = lastSome f l' := by
  have hvalues : (l.filterMap f).Perm (l'.filterMap f) := hperm.filterMap f
  cases h : lastSome f l with
  | none =>
      have hnil := lastSome_eq_none.mp h
      rw [hnil] at hvalues
      exact (lastSome_eq_none.mpr hvalues.nil_eq.symm).symm
  | some b =>
      have hb := List.mem_of_getLast? h
      cases h' : lastSome f l' with
      | none =>
          rw [lastSome_eq_none.mp h'] at hvalues
          rw [hvalues.eq_nil] at hb
          exact absurd hb List.not_mem_nil
      | some b' =>
          have hb' := hvalues.mem_iff.mpr (List.mem_of_getLast? h')
          rw [hone b hb b' hb']

/-- Every value is the last in some order. -/
theorem exists_perm_lastSome {l : List α} {b : β} (h : b ∈ l.filterMap f) :
    ∃ l', l'.Perm l ∧ lastSome f l' = some b := by
  obtain ⟨a, ha, hb⟩ := List.mem_filterMap.mp h
  obtain ⟨before, after, rfl⟩ := List.append_of_mem ha
  refine ⟨before ++ after ++ [a], ?_, ?_⟩
  · rw [List.append_assoc]
    exact (List.perm_append_singleton a after).append_left before
  · rw [lastSome_concat, hb, Option.some_or]

end Last

end Grouping
