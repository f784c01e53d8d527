import NdnRepo.Held.Durable
import NdnRepo.Held.Thinned

/-!
# Packets that were synced

A store that holds a record for good (`Holds`) has it in memory and on disk, and nothing
else was written under its name since.  So it has it after a power loss, too, and it keeps
it as long as nothing else is written (`Becomes`).

A holder's events write nothing but a packet's own records under its name, if they neither
give another packet nor delete it, and enough of its records are there (`stripes_step`): a
repair rewrites what a read would answer.  So a packet that was given and synced is held for
good by the own store, or by every stripe (`holds_of_sync`).
-/

namespace NdnRepo

open Coding Steps

variable {Name : Type} [NdnName Name]

/-! ## A store -/

namespace DurableStore

/-- What writes, of which something is known, and syncs make of a store. -/
inductive Becomes (q : Name → Option Bytes → Prop) (s : DurableStore Name) :
    DurableStore Name → Prop where
  /-- Nothing happens. -/
  | refl : Becomes q s s
  /-- A write. -/
  | write {t : DurableStore Name} {name : Name} {record : Option Bytes} (h : Becomes q s t)
      (hq : q name record) (fault : Option String) : Becomes q s (t.write name record fault)
  /-- A sync. -/
  | sync {t : DurableStore Name} (h : Becomes q s t) (fault : Option String) :
      Becomes q s (t.sync fault).2

/-- Nothing but one record is written under a name. -/
def Only (name : Name) (r : Bytes) (other : Name) (record : Option Bytes) : Prop :=
  other = name → record = some r

/-- Nothing but one record is found under a name, also after a power loss. -/
structure Agrees (s : DurableStore Name) (name : Name) (r : Bytes) : Prop where
  /-- Reads find nothing else. -/
  current : s.current.get name = none ∨ s.current.get name = some r
  /-- Nor does the disk have anything else. -/
  durable : s.durable.get name = none ∨ s.durable.get name = some r
  /-- Nor was anything else written since. -/
  later : ∀ w ∈ s.later, Only name r w.1 w.2

/-- A record is found under a name, also after a power loss. -/
structure Holds (s : DurableStore Name) (name : Name) (r : Bytes) : Prop where
  /-- Reads find it. -/
  current : s.current.get name = some r
  /-- The disk has it. -/
  durable : s.durable.get name = some r
  /-- Nothing else was written since. -/
  later : ∀ w ∈ s.later, Only name r w.1 w.2

/-- A store opened again, with what is left of it. -/
def reopened (s : DurableStore Name) (powerLoss : Bool) (left : FjallStore Name) :
    DurableStore Name :=
  if powerLoss then ⟨left, left, [], none⟩ else ⟨left, s.durable, s.later, none⟩

variable {s t u : DurableStore Name} {name : Name} {r : Bytes}

theorem Holds.agrees (h : s.Holds name r) : s.Agrees name r :=
  ⟨Or.inr h.current, Or.inr h.durable, h.later⟩

theorem agrees_openEmpty : (openEmpty : DurableStore Name).Agrees name r :=
  ⟨Or.inl rfl, Or.inl rfl, nofun⟩

/-- Writing the record, or under other names, leaves nothing else to be found. -/
theorem get_put_only {other : Name} {record : Option Bytes} (honly : Only name r other record)
    (table : FjallStore Name) :
    (table.put other record).get name = table.get name ∨
      (table.put other record).get name = some r := by
  rw [FjallStore.get_put]
  split
  next heq => exact Or.inr (honly heq.symm)
  next => exact Or.inl rfl

namespace Becomes

variable {q : Name → Option Bytes → Prop}

theorem trans (h : Becomes q s t) (h' : Becomes q t u) : Becomes q s u := by
  induction h' with
  | refl => exact h
  | write _ hq fault ih => exact ih.write hq fault
  | sync _ fault ih => exact ih.sync fault

/-- A failed write is not forgotten. -/
theorem failed (h : Becomes q s t) (ht : t.failed = none) : s.failed = none := by
  induction h with
  | refl => exact ht
  | write _ _ _ ih => exact ih (failed_write.mp ht).1
  | @sync t _ fault ih =>
      refine ih ?_
      rcases t.sync_cases fault with ⟨_, hsync⟩ | ⟨hnone, -⟩
      · rwa [hsync] at ht
      · exact hnone

/-- What is found stays. -/
theorem current (h : Becomes (Only name r) s t) (hs : s.current.get name = some r) :
    t.current.get name = some r := by
  induction h with
  | refl => exact hs
  | @write t other record _ honly fault ih =>
      rw [DurableStore.write]
      split
      · exact ih
      · rcases get_put_only honly t.current with heq | heq
        · exact heq.trans ih
        · exact heq
  | @sync t _ fault ih => rw [current_sync, ih]

theorem agrees (h : Becomes (Only name r) s t) (hs : s.Agrees name r) : t.Agrees name r := by
  induction h with
  | refl => exact hs
  | @write t other record _ honly fault ih =>
      refine ⟨?_, ih.durable, fun w hw => ?_⟩
      · rw [DurableStore.write]
        split
        · exact ih.current
        · rcases get_put_only honly t.current with heq | heq
          · rw [heq]
            exact ih.current
          · exact Or.inr heq
      · rcases List.mem_append.mp hw with hold | hnew
        · exact ih.later w hold
        · rw [List.mem_singleton.mp hnew]
          exact honly
  | @sync t _ fault ih =>
      rcases t.sync_cases fault with ⟨_, hsync⟩ | ⟨-, hsync⟩
      · rw [hsync]
        exact ih
      · rw [hsync]
        exact ⟨ih.current, ih.current, fun _ hw => absurd hw List.not_mem_nil⟩

theorem holds (h : Becomes (Only name r) s t) (hs : s.Holds name r) : t.Holds name r := by
  have hcurrent := h.current hs.current
  induction h with
  | refl => exact hs
  | write h honly fault ih =>
      have hbefore := ih (h.current hs.current)
      exact ⟨hcurrent, hbefore.durable, ((h.write honly fault).agrees hs.agrees).later⟩
  | @sync t h fault ih =>
      have hbefore := ih (h.current hs.current)
      rcases t.sync_cases fault with ⟨_, hsync⟩ | ⟨-, hsync⟩
      · rw [hsync]
        exact hbefore
      · rw [hsync]
        exact ⟨hbefore.current, hbefore.current, nofun⟩

end Becomes

/-! ### Stores that are opened again -/

/-- What a power loss leaves of a name, under which nothing but one record was written. -/
theorem Survives.get_only {left : FjallStore Name} (h : s.Survives left)
    (hlater : ∀ w ∈ s.later, Only name r w.1 w.2) :
    left.get name = s.durable.get name ∨ left.get name = some r := by
  obtain ⟨kept, hkept, rfl⟩ := h
  induction kept using List.reverseRecOn with
  | nil => exact Or.inl rfl
  | append_singleton kept w ih =>
      rw [List.append_subset] at hkept
      rw [List.foldl_append, List.foldl_cons, List.foldl_nil]
      rcases get_put_only (hlater w (hkept.2 (List.mem_singleton_self w)))
        (kept.foldl (fun t w => t.put w.1 w.2) s.durable) with heq | heq
      · rw [heq]
        exact ih hkept.1
      · exact Or.inr heq

theorem Agrees.reopened (h : s.Agrees name r) {left : FjallStore Name} (hleft : s.Survives left)
    (powerLoss : Bool) : (s.reopened powerLoss left).Agrees name r := by
  have hget : left.get name = none ∨ left.get name = some r := by
    rcases hleft.get_only h.later with heq | heq
    · rw [heq]
      exact h.durable
    · exact Or.inr heq
  cases powerLoss with
  | true => exact ⟨hget, hget, nofun⟩
  | false => exact ⟨hget, h.durable, h.later⟩

theorem Holds.reopened (h : s.Holds name r) {left : FjallStore Name} (hleft : s.Survives left)
    (powerLoss : Bool) : (s.reopened powerLoss left).Holds name r := by
  have hget : left.get name = some r := by
    rcases hleft.get_only h.later with heq | heq
    · exact heq.trans h.durable
    · exact heq
  cases powerLoss with
  | true => exact ⟨hget, hget, nofun⟩
  | false => exact ⟨hget, h.durable, h.later⟩

/-- A store was synced on the way. -/
def Kept (q : Name → Option Bytes → Prop) (s t : DurableStore Name) : Prop :=
  ∃ u, Becomes q s u ∧ u.failed = none ∧ Becomes q { u with durable := u.current, later := [] } t

theorem Kept.after {q : Name → Option Bytes → Prop} (h : Becomes q s t) (h' : Kept q t u) :
    Kept q s u := by
  obtain ⟨v, hv, hfailed, hu⟩ := h'
  exact ⟨v, h.trans hv, hfailed, hu⟩

theorem Kept.before {q : Name → Option Bytes → Prop} (h : Kept q s t) (h' : Becomes q t u) :
    Kept q s u := by
  obtain ⟨v, hv, hfailed, ht⟩ := h
  exact ⟨v, hv, hfailed, ht.trans h'⟩

theorem kept_of_sync {q : Name → Option Bytes → Prop} {fault : Option String}
    (h : (s.sync fault).1 = .ok ()) : Kept q s (s.sync fault).2 := by
  rcases s.sync_cases fault with ⟨error, hsync⟩ | ⟨hfailed, hsync⟩
  · rw [hsync] at h
    cases h
  · rw [hsync]
    exact ⟨s, .refl, hfailed, .refl⟩

/-- What is found when a store is synced is held for good. -/
theorem Kept.holds (h : Kept (Only name r) s t) (hs : s.current.get name = some r) :
    t.Holds name r := by
  obtain ⟨u, hu, -, ht⟩ := h
  have hcurrent := hu.current hs
  exact ht.holds ⟨hcurrent, hcurrent, nofun⟩

end DurableStore

/-! ## What events leave alone -/

/-- An event neither gives another packet of a name nor deletes it. -/
def DiskEvent.Leaves (name : Name) (w : Bytes) : DiskEvent Name → Prop
  | .insert other wire _ => other = name → wire = w
  | .remove other _ => other ≠ name
  | _ => True

namespace DurableHolder

open DurableStore

variable {e : Erasure} {name : Name} {w : Bytes} {d d' d'' : DurableHolder Name e}
variable [Sha2] [Codec UInt8]

/-- What is written under a name, if it is an own one, is its packet. -/
theorem own_step (d : DurableHolder Name e) {event : DiskEvent Name}
    (hleaves : event.Leaves name w) : Becomes (Only name w) d.own (d.step event).own := by
  cases event with
  | insert other wire fault =>
      have honly : Only name w other (some wire) := fun heq => congrArg some (hleaves heq)
      show Becomes (Only name w) d.own (d.insert other wire fault).own
      unfold insert
      split
      · exact .write .refl honly (fault 0)
      · split
        · exact .refl
        · split
          · exact .refl
          · exact .refl
  | remove other fault =>
      have honly : Only name w other none := fun heq => absurd heq hleaves
      show Becomes (Only name w) d.own (d.remove other fault).own
      unfold remove
      split
      · exact .write .refl honly (fault 0)
      · exact .refl
  | repair other fault =>
      show Becomes (Only name w) d.own (d.repair other fault).own
      have hfoldl : ∀ (records : List Bytes) (stale : List ℕ) (d : DurableHolder Name e),
          (stale.foldl (fun d i => d.writeStripe i other (some (records.getD i [])) (fault i))
            d).own = d.own := by
        intro records stale
        induction stale with
        | nil => exact fun _ => rfl
        | cons i stale ih => exact fun d => ih _
      unfold repair
      split
      · exact .refl
      · split
        · exact .refl
        · split
          · rw [hfoldl]
            exact .refl
          · exact .refl
  | syncOwn fault => exact .sync .refl fault
  | syncStripe stripe fault =>
      show Becomes (Only name w) d.own (d.syncStripe stripe fault).2.own
      unfold syncStripe
      split
      · exact .refl
      · exact .refl

/-- Writes to some stripes, each of its own record. -/
theorem becomes_foldl {other : Name} {record : ℕ → Option Bytes} {fault : ℕ → Option String}
    (honly : ∀ i < e.n, Only name (e.stripeRecord w i) other (record i)) (stale : List ℕ)
    (d : DurableHolder Name e) (i : Fin e.n) :
    Becomes (Only name (e.stripeRecord w i)) (d.stripes i)
      ((stale.foldl (fun d j => d.writeStripe j other (record j) (fault j)) d).stripes i) := by
  induction stale generalizing d with
  | nil => exact .refl
  | cons j stale ih =>
      refine Becomes.trans ?_ (ih _)
      simp only [writeStripe]
      split
      next hij =>
        subst hij
        exact .write .refl (honly i i.isLt) (fault i)
      next => exact .refl

omit [Sha2] [Codec UInt8] in
theorem becomes_syncStripe {q : Name → Option Bytes → Prop} (d : DurableHolder Name e)
    (stripe : ℕ) (fault : Option String) (i : Fin e.n) :
    Becomes q (d.stripes i) ((d.syncStripe stripe fault).2.stripes i) := by
  unfold syncStripe
  split
  next h =>
    simp only
    split
    next hi =>
      obtain rfl : i = ⟨stripe, h⟩ := Fin.ext hi
      exact .sync .refl fault
    next => exact .refl
  next => exact .refl

section Stripes

variable (law : Lawful UInt8 e.k e.n)

include law

/-- What is written under a name to the stripes are its packet's records, as long as enough
of them are there. -/
theorem stripes_step (hthin : Thinned e (d.held.records name) (some w)) {event : DiskEvent Name}
    (hleaves : event.Leaves name w) (i : Fin e.n) :
    Becomes (Only name (e.stripeRecord w i)) (d.stripes i) ((d.step event).stripes i) := by
  cases event with
  | insert other wire fault =>
      have honly : Only name (e.stripeRecord w i) other (some (e.stripeRecord wire i)) :=
        fun heq => by rw [hleaves heq]
      show Becomes _ (d.stripes i) ((d.insert other wire fault).stripes i)
      unfold insert
      split
      · exact .refl
      · split
        · exact .refl
        · have hrecord : ((List.range e.n).map (e.stripeRecord wire))[i.val]? =
              some (e.stripeRecord wire i) := by simp
          simp only [Erasure.encode_eq law, hrecord]
          exact .write .refl honly (fault i)
  | remove other fault =>
      have honly : Only name (e.stripeRecord w i) other none := fun heq => absurd heq hleaves
      show Becomes _ (d.stripes i) ((d.remove other fault).stripes i)
      unfold remove
      split
      · exact .refl
      · exact .write .refl honly (fault i)
  | repair other fault =>
      show Becomes _ (d.stripes i) ((d.repair other fault).stripes i)
      unfold repair
      cases hnow : e.assemble (d.held.records other) with
      | none => exact .refl
      | some now =>
          simp only
          split
          · exact .refl
          · simp only [Erasure.encode_eq law]
            refine becomes_foldl (fun j hj heq => ?_) now.stale d i
            -- the name is read as its packet, so the repair writes its records
            subst heq
            have hread : d.held.wire other = some w := hthin.wire_eq law rfl
            have hwire : now.wire = w := by
              rw [ErasureStore.wire, show d.held.erasure = e from rfl, hnow] at hread
              exact Option.some.inj hread
            simp [hwire, hj]
  | syncOwn fault => exact .refl
  | syncStripe stripe fault => exact becomes_syncStripe d stripe fault i

end Stripes

/-! ## A packet that was given -/

/-- A packet is where it was given: in the own store, or whole in the stripes. -/
structure Given (d : DurableHolder Name e) (name : Name) (w : Bytes) : Prop where
  /-- An own packet. -/
  own : d.view.isOwn name = true → d.own.current.get name = some w
  /-- A held packet fits the length field. -/
  short : d.view.isOwn name = false → w.length < u32Bound
  /-- A held packet is in every stripe. -/
  stripes : d.view.isOwn name = false →
    ∀ i, (d.stripes i).current.get name = some (e.stripeRecord w i)

/-- What events that leave a packet alone make of a holder's store. -/
structure Turns (name : Name) (w : Bytes) (d d' : DurableHolder Name e) : Prop where
  /-- The name stays an own or a held one. -/
  isOwn : d'.view.isOwn name = d.view.isOwn name
  /-- The own store has only the packet written. -/
  own : Becomes (Only name w) d.own d'.own
  /-- So do the stripes, where it is a held one. -/
  stripes : d.view.isOwn name = false →
    ∀ i : Fin e.n, Becomes (Only name (e.stripeRecord w i)) (d.stripes i) (d'.stripes i)

theorem Turns.refl (d : DurableHolder Name e) : Turns name w d d :=
  ⟨rfl, .refl, fun _ _ => .refl⟩

theorem Turns.trans (h : Turns name w d d') (h' : Turns name w d' d'') : Turns name w d d'' :=
  ⟨h'.isOwn.trans h.isOwn, h.own.trans h'.own,
    fun hheld i => (h.stripes hheld i).trans (h'.stripes (h.isOwn.trans hheld) i)⟩

theorem Given.turns (hgiven : d.Given name w) (h : Turns name w d d') : d'.Given name w := by
  refine ⟨fun hown => h.own.current (hgiven.own (h.isOwn ▸ hown)),
    fun hheld => hgiven.short (h.isOwn ▸ hheld), fun hheld i => ?_⟩
  rw [h.isOwn] at hheld
  exact (h.stripes hheld i).current (hgiven.stripes hheld i)

theorem Given.thinned (h : d.Given name w)
    (hheld : d.view.isOwn name = false) : Thinned e (d.held.records name) (some w) := by
  have hrecords : d.held.records name = e.wholeRecords w := by
    have hlen : (d.held.records name).length = e.n := d.held.records_length name
    refine List.ext_getElem (by simp [hlen, Erasure.wholeRecords]) fun i hi hi' => ?_
    have hin : i < e.n := hlen ▸ hi
    have hget := d.held.getD_records name hin
    rw [List.getD_eq_getElem _ _ hi] at hget
    have hwhole : (e.wholeRecords w)[i] = some (e.stripeRecord w i) := by
      simp [Erasure.wholeRecords]
    rw [hget, hwhole]
    exact h.stripes hheld ⟨i, hin⟩
  rw [hrecords]
  exact .whole e (h.short hheld)

theorem isOwn_step (d : DurableHolder Name e) (event : DiskEvent Name) (name : Name) :
    (d.step event).view.isOwn name = d.view.isOwn name := by
  have h := follows_step (p := fun _ => True) d event fun _ _ => trivial
  unfold HolderStore.isOwn view
  rw [h.device, h.localhost]

variable (law : Lawful UInt8 e.k e.n)

include law

theorem turns_step (hgiven : d.Given name w) {event : DiskEvent Name}
    (hleaves : event.Leaves name w) : Turns name w d (d.step event) :=
  ⟨isOwn_step d event name, own_step d hleaves,
    fun hheld => stripes_step law (hgiven.thinned hheld) hleaves⟩

theorem turns_run {events : List (DiskEvent Name)} (hgiven : d.Given name w)
    (hleaves : ∀ event ∈ events, event.Leaves name w) : Turns name w d (run step d events) := by
  induction events generalizing d with
  | nil => exact .refl d
  | cons event events ih =>
      rw [List.forall_mem_cons] at hleaves
      have hstep := turns_step law hgiven hleaves.1
      exact hstep.trans (ih (hgiven.turns hstep) hleaves.2)

/-- An insert that was not refused and whose writes did not fail gives the packet. -/
theorem given_insert {fault : ℕ → Option String} (hclean : (d.insert name w fault).Clean) :
    (d.insert name w fault).Given name w := by
  have hisown : (d.insert name w fault).view.isOwn name = d.view.isOwn name :=
    isOwn_step d (.insert name w fault) name
  cases hname : d.view.isOwn name with
  | true =>
      have hinsert : d.insert name w fault =
          { d with own := d.own.write name (some w) (fault 0) } := if_pos hname
      rw [hinsert] at hclean
      obtain ⟨hfault, -⟩ := view_own hclean
      have hget : (d.insert name w fault).own.current.get name = some w := by
        rw [hinsert, hfault, current_write, FjallStore.get_put, if_pos rfl]
      refine ⟨fun _ => hget, fun hheld => ?_, fun hheld => ?_⟩ <;>
        exact absurd (hheld.symm.trans (hisown.trans hname)) Bool.false_ne_true
  | false =>
      have hnot : ¬d.view.isOwn name = true := by rw [hname]; exact Bool.false_ne_true
      obtain ⟨⟨hshort, hfault⟩, -⟩ := view_insert law hnot hclean
      refine ⟨fun hown => absurd (hname.symm.trans (hisown.symm.trans hown)) Bool.false_ne_true,
        fun _ => hshort, fun _ i => ?_⟩
      have hrecord : ((List.range e.n).map (e.stripeRecord w))[i.val]? =
          some (e.stripeRecord w i) := by simp
      unfold insert
      rw [if_neg hnot, if_neg (not_le.mpr hshort)]
      simp only [Erasure.encode_eq law, hrecord, hfault i i.isLt, current_write]
      rw [FjallStore.get_put, if_pos rfl]

/-! ## A packet that was synced -/

/-- The stripes a sync got through hold a packet for good. -/
theorem syncStripes_turns (fault : ℕ → Option String)
    {others : ℕ → List (DiskEvent Name)} :
    ∀ (stripes : List ℕ) (first : Option String) {d : DurableHolder Name e},
      d.Given name w → (∀ i ∈ stripes, ∀ event ∈ others i, event.Leaves name w) →
        Turns name w d (syncStripes fault others stripes first d).2 ∧
          ((syncStripes fault others stripes first d).1 = none → first = none ∧
            (d.view.isOwn name = false → ∀ i : Fin e.n, i.val ∈ stripes →
              Kept (Only name (e.stripeRecord w i)) (d.stripes i)
                ((syncStripes fault others stripes first d).2.stripes i)))
  | [], first, d, _, _ => ⟨.refl d, fun h => ⟨h, fun _ => nofun⟩⟩
  | i :: stripes, first, d, hgiven, hleaves => by
      have hothers : Turns name w d (run step d (others i)) :=
        turns_run law hgiven (hleaves i (List.mem_cons_self ..))
      have hleaves' : (DiskEvent.syncStripe i (fault i)).Leaves name w := trivial
      have hsync := turns_step law (hgiven.turns hothers) hleaves'
      have hstep := hothers.trans hsync
      have hrest := fun j hj => hleaves j (List.mem_cons_of_mem i hj)
      have hdone : ∀ j : Fin e.n, j.val = i →
          ((run step d (others i)).syncStripe i (fault i)).1 = .ok () →
            Kept (Only name (e.stripeRecord w j)) ((run step d (others i)).stripes j)
              (((run step d (others i)).syncStripe i (fault i)).2.stripes j) := by
        rintro j rfl h
        simp only [syncStripe, dif_pos j.isLt] at h ⊢
        simpa using kept_of_sync (ok_of_mapError h)
      have hgiven' := hgiven.turns hstep
      change Turns name w d ((run step d (others i)).syncStripe i (fault i)).2 at hstep
      change Given ((run step d (others i)).syncStripe i (fault i)).2 name w at hgiven'
      simp only [syncStripes]
      generalize (run step d (others i)).syncStripe i (fault i) = got at hstep hdone hgiven'
      obtain ⟨done, synced⟩ := got
      cases done with
      | error error =>
          obtain ⟨hturns, hnone⟩ := syncStripes_turns fault stripes (first <|> some error)
            hgiven' hrest
          refine ⟨hstep.trans hturns, fun h => ?_⟩
          have hfirst := (hnone h).1
          cases first <;> cases hfirst
      | ok =>
          obtain ⟨hturns, hnone⟩ := syncStripes_turns fault stripes first hgiven' hrest
          refine ⟨hstep.trans hturns, fun h => ⟨(hnone h).1, fun hname j hj => ?_⟩⟩
          rcases List.mem_cons.mp hj with hji | hmem
          · exact ((hdone j hji rfl).before (hturns.stripes (hstep.isOwn.trans hname) j)).after
              (hothers.stripes hname j)
          · exact ((hnone h).2 (hstep.isOwn.trans hname) j hmem).after (hstep.stripes hname j)

/-- A sync that succeeds makes every store hold what it was given. -/
theorem kept_of_sync {ownFault : Option String} {between : List (DiskEvent Name)}
    {fault : ℕ → Option String} {others : ℕ → List (DiskEvent Name)} (hgiven : d.Given name w)
    (hbetween : ∀ event ∈ between, event.Leaves name w)
    (hothers : ∀ i < e.n, ∀ event ∈ others i, event.Leaves name w)
    (hok : (d.sync ownFault between fault others).1 = .ok ()) :
    Turns name w d (d.sync ownFault between fault others).2 ∧
      Kept (Only name w) d.own (d.sync ownFault between fault others).2.own ∧
      (d.view.isOwn name = false → ∀ i : Fin e.n, Kept (Only name (e.stripeRecord w i))
        (d.stripes i) ((d.sync ownFault between fault others).2.stripes i)) := by
  have hleaves : (DiskEvent.syncOwn ownFault).Leaves name w := trivial
  have hown : Turns name w d (d.syncOwn ownFault).2 := turns_step law hgiven hleaves
  have hownok : (d.syncOwn ownFault).1 = .ok () →
      Kept (Only name w) d.own (d.syncOwn ownFault).2.own := fun h =>
    DurableStore.kept_of_sync (ok_of_mapError h)
  have hgiven₁ := hgiven.turns hown
  unfold sync at hok ⊢
  generalize d.syncOwn ownFault = got at hown hownok hgiven₁ hok
  obtain ⟨own, d₁⟩ := got
  simp only at hown hownok hgiven₁ hok ⊢
  have hd₂ : Turns name w d₁ (run step d₁ between) := turns_run law hgiven₁ hbetween
  have hgiven₂ := hgiven₁.turns hd₂
  generalize run step d₁ between = d₂ at hd₂ hgiven₂ hok
  obtain ⟨hheld, hnone⟩ := syncStripes_turns law fault (List.range e.n)
    (d₂.refused.map refusedText) hgiven₂ fun i hi => hothers i (List.mem_range.mp hi)
  unfold syncHeld at hok ⊢
  generalize syncStripes fault others (List.range e.n) (d₂.refused.map refusedText) d₂ = got
    at hheld hnone hok
  obtain ⟨first, d₃⟩ := got
  cases own with
  | error error => cases hok
  | ok =>
      cases first with
      | some error => cases hok
      | none =>
          obtain ⟨-, hstripes⟩ := hnone rfl
          simp only at hheld hstripes ⊢
          have hbefore := hown.trans hd₂
          refine ⟨hbefore.trans hheld, (hownok rfl).before (hd₂.own.trans hheld.own),
            fun hname i => ?_⟩
          exact (hstripes (hbefore.isOwn.trans hname) i (List.mem_range.mpr i.isLt)).after
            (hbefore.stripes hname i)

/-- A packet that was given before a sync that succeeds is held for good. -/
theorem holds_of_sync {giveFault : ℕ → Option String} {later between : List (DiskEvent Name)}
    {ownFault : Option String} {fault : ℕ → Option String} {others : ℕ → List (DiskEvent Name)}
    (hlater : ∀ event ∈ later, event.Leaves name w)
    (hbetween : ∀ event ∈ between, event.Leaves name w)
    (hothers : ∀ i < e.n, ∀ event ∈ others i, event.Leaves name w)
    (hok : ((run step (d.insert name w giveFault) later).sync ownFault between fault others).1 =
      .ok ()) :
    let synced := ((run step (d.insert name w giveFault) later).sync ownFault between fault others).2
    (d.view.isOwn name = true → synced.own.Holds name w) ∧
      (d.view.isOwn name = false → w.length < u32Bound ∧
        ∀ i, (synced.stripes i).Holds name (e.stripeRecord w i)) := by
  intro synced
  have hclean : (run step (d.insert name w giveFault) later).Clean := by
    obtain ⟨-, hown, hstripes, hrefused⟩ := sync_spec (p := fun _ => True) _
      (fun _ _ _ _ => trivial) (fun _ _ _ _ _ _ => trivial) hok
    exact ⟨hown.failed, fun i => (hstripes i).failed, hrefused⟩
  have hfollows := follows_run (p := fun _ => True) later (d.insert name w giveFault)
    fun _ _ _ _ => trivial
  have hfirst := given_insert law (hfollows.clean hclean)
  have hturns := turns_run law hfirst hlater
  have hgiven := hfirst.turns hturns
  have hname : (run step (d.insert name w giveFault) later).view.isOwn name =
      d.view.isOwn name := hturns.isOwn.trans (isOwn_step d (.insert name w giveFault) name)
  obtain ⟨-, hown, hstripes⟩ := kept_of_sync law hgiven hbetween hothers hok
  rw [← hname]
  exact ⟨fun h => hown.holds (hgiven.own h),
    fun h => ⟨hgiven.short h, fun i => (hstripes h i).holds (hgiven.stripes h i)⟩⟩

end DurableHolder

end NdnRepo
