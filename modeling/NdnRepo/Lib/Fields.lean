import Mathlib

/-!
# Tagged fields in any order

A record is read from a list of tagged fields.  Of the fields of one tag the last one
counts, or all of them in their order.  Where a tag occurs once, the order of the
fields does not matter, and neither do fields of tags that are not looked at.
-/

namespace Fields

variable {Tag β : Type} [DecidableEq Tag] {tag : Tag} {fields fields' : List (Tag × β)}
variable {seen : Tag → Bool}

/-- The values of a tag. -/
def all (fields : List (Tag × β)) (tag : Tag) : List β :=
  (fields.filter fun f => f.1 = tag).map Prod.snd

/-- The last value of a tag. -/
def last (fields : List (Tag × β)) (tag : Tag) : Option β := (all fields tag).getLast?

@[simp] theorem all_nil : all ([] : List (Tag × β)) tag = [] := rfl

@[simp] theorem last_nil : last ([] : List (Tag × β)) tag = none := rfl

@[simp] theorem all_append : all (fields ++ fields') tag = all fields tag ++ all fields' tag := by
  simp [all]

theorem all_cons (f : Tag × β) :
    all (f :: fields) tag = if f.1 = tag then f.2 :: all fields tag else all fields tag := by
  by_cases h : f.1 = tag <;> simp [all, h]

theorem last_concat (f : Tag × β) :
    last (fields ++ [f]) tag = if f.1 = tag then some f.2 else last fields tag := by
  by_cases h : f.1 = tag <;> simp [last, all_cons, h]

/-- A prefix has the only field of a tag exactly if it reaches past it. -/
theorem last_take {before after : List (Tag × β)} {v : β}
    (hone : all (before ++ (tag, v) :: after) tag = [v]) (i : ℕ) :
    last ((before ++ (tag, v) :: after).take i) tag =
      if before.length < i then some v else none := by
  have hnone : ∀ {l l' : List (Tag × β)}, l.Sublist l' → all l' tag = [] → all l tag = [] := by
    intro l l' hsub hnil
    have hall : (all l tag).Sublist (all l' tag) := (hsub.filter _).map _
    rwa [hnil, List.sublist_nil] at hall
  rw [all_append, all_cons, if_pos rfl] at hone
  obtain ⟨hbefore, hafter⟩ : all before tag = [] ∧ all after tag = [] := by
    have hlen := congrArg List.length hone
    simp only [List.length_append, List.length_cons, List.length_nil] at hlen
    exact ⟨List.eq_nil_of_length_eq_zero (by omega), List.eq_nil_of_length_eq_zero (by omega)⟩
  split
  next hi =>
    obtain ⟨j, rfl⟩ := Nat.exists_eq_add_of_lt hi
    have htake : (before ++ (tag, v) :: after).take (before.length + j + 1) =
        before ++ (tag, v) :: after.take j := by
      rw [Nat.add_assoc, List.take_length_add_append, List.take_succ_cons]
    rw [htake, last, all_append, all_cons, if_pos rfl, hbefore, hnone (List.take_sublist ..) hafter]
    rfl
  next hi =>
    rw [List.take_append_of_le_length (not_lt.mp hi), last,
      hnone (List.take_sublist ..) hbefore]
    rfl

/-- Where no tag is repeated, a field is the only one of its tag. -/
theorem all_of_nodup : ∀ {fields : List (Tag × β)} {v : β}, (fields.map Prod.fst).Nodup →
    (tag, v) ∈ fields → all fields tag = [v]
  | [], _, _, hmem => absurd hmem List.not_mem_nil
  | f :: fields, v, hnodup, hmem => by
      rw [List.map_cons, List.nodup_cons] at hnodup
      rw [all_cons]
      rcases List.mem_cons.mp hmem with rfl | hmem
      · have hnone : all fields tag = [] := by
          rw [all, List.map_eq_nil_iff, List.filter_eq_nil_iff]
          intro g hg htag
          exact hnodup.1 (List.mem_map.mpr ⟨g, hg, of_decide_eq_true htag⟩)
        rw [if_pos rfl, hnone]
      · have hne : f.1 ≠ tag := fun htag => hnodup.1 (List.mem_map.mpr ⟨_, hmem, htag.symm⟩)
        rw [if_neg hne, all_of_nodup hnodup.2 hmem]

/-- Fields of tags that are not looked at do not matter. -/
theorem all_filter (hseen : seen tag = true) :
    all (fields.filter fun f => seen f.1) tag = all fields tag := by
  rw [all, all, List.filter_filter]
  congr 1
  refine List.filter_congr fun f _ => ?_
  by_cases h : f.1 = tag <;> simp [h, hseen]

/-- Where a tag occurs at most once, the order does not matter. -/
theorem all_of_perm {o : Option β} (hperm : (fields'.filter fun f => seen f.1).Perm fields)
    (hseen : seen tag = true) (hone : all fields tag = o.toList) : all fields' tag = o.toList := by
  have hall : (all fields' tag).Perm o.toList := by
    rw [← all_filter hseen, ← hone]
    exact (hperm.filter _).map _
  cases o with
  | none => exact hall.eq_nil
  | some v => exact hall.eq_singleton

theorem last_of_perm {o : Option β} (hperm : (fields'.filter fun f => seen f.1).Perm fields)
    (hseen : seen tag = true) (hone : all fields tag = o.toList) : last fields' tag = o := by
  rw [last, all_of_perm hperm hseen hone]
  cases o <;> rfl

theorem mem_of_all {v : β} (h : v ∈ all fields tag) : (tag, v) ∈ fields := by
  obtain ⟨f, hf, rfl⟩ := List.mem_map.mp h
  obtain ⟨hmem, htag⟩ := List.mem_filter.mp hf
  have htag : f.1 = tag := by simpa using htag
  rw [← htag]
  exact hmem

theorem mem_of_last {v : β} (h : last fields tag = some v) : (tag, v) ∈ fields :=
  mem_of_all (List.mem_of_getLast? h)

/-- A field that may be there. -/
theorem all_optional {α : Type} (tag' : Tag) (o : Option α) (g : α → β) :
    all (o.map fun a => (tag', g a)).toList tag = if tag' = tag then (o.map g).toList else [] := by
  cases o with
  | none => simp
  | some a => simp [all_cons]

end Fields
