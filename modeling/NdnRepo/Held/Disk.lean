import NdnRepo.Held.Store

/-!
# Stores on disks

A store on a disk keeps its writes in memory until a sync makes them durable.  A power
loss keeps what is durable and any of the later writes.  A write may fail, and then
every later sync of that store fails.

`DurableStore.Evolves` is what happens to a store: writes of some names, and syncs.  A
store that was synced on the way (`Promised`) had no failed write before, and keeps each
name not written since (`Promised.get`).
-/

namespace NdnRepo

variable {Name : Type} [NdnName Name]

/-! ## A store -/

/-- An on-disk store.  A fault is what goes wrong with a write or a sync, if anything
does. -/
structure DurableStore (Name : Type) [NdnName Name] where
  /-- What reads see. -/
  current : FjallStore Name
  /-- What the last sync made durable. -/
  durable : FjallStore Name
  /-- The writes since then. -/
  later : List (Name × Option Bytes)
  /-- The first write that failed: once set, every sync fails. -/
  failed : Option String

namespace DurableStore

/-- An empty store. -/
def openEmpty : DurableStore Name := ⟨.empty, .empty, [], none⟩

/-- Write or delete the record of a name. -/
def write (s : DurableStore Name) (name : Name) (record : Option Bytes) (fault : Option String) :
    DurableStore Name where
  current := if fault.isSome then s.current else s.current.put name record
  durable := s.durable
  later := s.later ++ [(name, record)]
  failed := s.failed <|> fault

/-- Make every write durable. -/
def sync (s : DurableStore Name) (fault : Option String) :
    Except String Unit × DurableStore Name :=
  match s.failed <|> fault with
  | some error => (.error error, s)
  | none => (.ok (), { s with durable := s.current, later := [] })

/-- What a power loss may leave: what is durable, and any of the later writes. -/
def Survives (s : DurableStore Name) (t : FjallStore Name) : Prop :=
  ∃ kept, kept ⊆ s.later ∧ t = kept.foldl (fun t w => t.put w.1 w.2) s.durable

/-- What writes of some names, and syncs, make of a store. -/
inductive Evolves (p : Name → Prop) (s : DurableStore Name) : DurableStore Name → Prop where
  /-- Nothing happens. -/
  | refl : Evolves p s s
  /-- A write of one of the names. -/
  | write {t : DurableStore Name} {name : Name} (h : Evolves p s t) (hp : p name)
      (record : Option Bytes) (fault : Option String) : Evolves p s (t.write name record fault)
  /-- A sync. -/
  | sync {t : DurableStore Name} (h : Evolves p s t) (fault : Option String) :
      Evolves p s (t.sync fault).2

/-- A store was synced on the way, and only some names were written. -/
def Promised (p : Name → Prop) (s t : DurableStore Name) : Prop :=
  ∃ u, Evolves p s u ∧ u.failed = none ∧ Evolves p { u with durable := u.current, later := [] } t

theorem failed_write {s : DurableStore Name} {name : Name} {record : Option Bytes}
    {fault : Option String} :
    (s.write name record fault).failed = none ↔ s.failed = none ∧ fault = none := by
  simp [write]

@[simp] theorem current_write (s : DurableStore Name) (name : Name) (record : Option Bytes) :
    (s.write name record none).current = s.current.put name record := rfl

theorem current_sync (s : DurableStore Name) (fault : Option String) :
    (s.sync fault).2.current = s.current := by
  unfold sync
  split <;> rfl

theorem sync_cases (s : DurableStore Name) (fault : Option String) :
    (∃ error, s.sync fault = (.error error, s)) ∨
      s.failed = none ∧
        s.sync fault = (.ok (), { s with durable := s.current, later := [] }) := by
  unfold sync
  cases hfailed : s.failed with
  | some error => exact Or.inl ⟨error, rfl⟩
  | none =>
      cases fault with
      | some error => exact Or.inl ⟨error, rfl⟩
      | none => exact Or.inr ⟨rfl, rfl⟩

namespace Evolves

variable {p : Name → Prop} {s t u : DurableStore Name} {name : Name}

theorem trans (h : Evolves p s t) (h' : Evolves p t u) : Evolves p s u := by
  induction h' with
  | refl => exact h
  | write _ hp record fault ih => exact ih.write hp record fault
  | sync _ fault ih => exact ih.sync fault

/-- A failed write is not forgotten. -/
theorem failed (h : Evolves p s t) (ht : t.failed = none) : s.failed = none := by
  induction h with
  | refl => exact ht
  | write _ _ _ _ ih => exact ih (failed_write.mp ht).1
  | @sync t _ fault ih =>
      refine ih ?_
      rcases t.sync_cases fault with ⟨_, hsync⟩ | ⟨hnone, -⟩
      · rwa [hsync] at ht
      · exact hnone

/-- A name that is not written reads as before. -/
theorem get_current (h : Evolves p s t) (hname : ¬p name) :
    t.current.get name = s.current.get name := by
  induction h with
  | refl => rfl
  | @write t other _ hp record fault ih =>
      rw [← ih, DurableStore.write]
      split
      · rfl
      · rw [FjallStore.get_put, if_neg]
        rintro rfl
        exact hname hp
  | @sync t _ fault ih => rw [← ih, current_sync]

/-- A name that is not written stays durable. -/
theorem durable (h : Evolves p s t) (hname : ¬p name)
    (hs : s.durable.get name = s.current.get name ∧ ∀ w ∈ s.later, w.1 ≠ name) :
    t.durable.get name = t.current.get name ∧ ∀ w ∈ t.later, w.1 ≠ name := by
  induction h with
  | refl => exact hs
  | @write t other h hp record fault ih =>
      have hne : other ≠ name := by
        rintro rfl
        exact hname hp
      have hcurrent := ((refl (p := p)).write hp record fault).get_current (s := t) hname
      refine ⟨ih.1.trans hcurrent.symm, fun w hw => ?_⟩
      rcases List.mem_append.mp hw with hold | hnew
      · exact ih.2 w hold
      · rw [List.mem_singleton.mp hnew]
        exact hne
  | @sync t h fault ih =>
      rcases t.sync_cases fault with ⟨_, hsync⟩ | ⟨-, hsync⟩
      · rw [hsync]
        exact ih
      · rw [hsync]
        exact ⟨rfl, nofun⟩

end Evolves

/-- A power loss keeps what is durable of a name without later writes. -/
theorem Survives.get {s : DurableStore Name} {t : FjallStore Name} (h : s.Survives t)
    {name : Name} (hlater : ∀ w ∈ s.later, w.1 ≠ name) : t.get name = s.durable.get name := by
  obtain ⟨kept, hkept, rfl⟩ := h
  induction kept using List.reverseRecOn with
  | nil => rfl
  | append_singleton kept w ih =>
      rw [List.append_subset] at hkept
      rw [List.foldl_append, List.foldl_cons, List.foldl_nil, FjallStore.get_put,
        if_neg (Ne.symm (hlater w (hkept.2 (List.mem_singleton_self w)))), ih hkept.1]

section Promised

variable {p : Name → Prop} {s t u : DurableStore Name}

theorem Promised.after (h : Evolves p s t) (h' : Promised p t u) : Promised p s u := by
  obtain ⟨v, hv, hfailed, hu⟩ := h'
  exact ⟨v, h.trans hv, hfailed, hu⟩

theorem Promised.before (h : Promised p s t) (h' : Evolves p t u) : Promised p s u := by
  obtain ⟨v, hv, hfailed, ht⟩ := h
  exact ⟨v, hv, hfailed, ht.trans h'⟩

theorem promised_of_sync {fault : Option String} (h : (s.sync fault).1 = .ok ()) :
    Promised p s (s.sync fault).2 := by
  rcases s.sync_cases fault with ⟨error, hsync⟩ | ⟨hfailed, hsync⟩
  · rw [hsync] at h
    cases h
  · rw [hsync]
    exact ⟨s, .refl, hfailed, .refl⟩

/-- Every write before the sync succeeded. -/
theorem Promised.failed (h : Promised p s t) : s.failed = none := by
  obtain ⟨u, hu, hfailed, -⟩ := h
  exact hu.failed hfailed

/-- A synced store keeps each name that is not written since. -/
theorem Promised.get (h : Promised p s t) {name : Name} (hname : ¬p name) {left : FjallStore Name}
    (hleft : t.Survives left) : left.get name = s.current.get name := by
  obtain ⟨u, hu, -, ht⟩ := h
  obtain ⟨hdurable, hlater⟩ := ht.durable hname ⟨rfl, nofun⟩
  rw [hleft.get hlater, hdurable, ht.get_current hname, ← hu.get_current hname]

end Promised

end DurableStore

end NdnRepo
