import NdnRepo.Held.Kept
import NdnRepo.Held.Open

/-!
# A store's directory over its lifetime

A directory is opened, used by one process at a time, left by a process that stops or is
killed, met by power losses, and opened again, by any device and with any parameters.
Openings overlap neither each other nor a process that runs, so each is one step.  Stripes
are lost whole while no process runs, and each step of an opening, each write and each sync
may fail.

The record of the parameters is never torn, and once it is on disk it stays, so that every
later opening with other parameters is refused (`record_stays`).  With the record on disk, a
packet that was given before a sync that succeeded is read from then on, after any number of
restarts, power losses, repairs and lost stripes, as long as each loss leaves `k` other
stripes that have it on disk (`packet_survives`).  A repaired record counts once it is synced.
-/

namespace NdnRepo

open Coding Steps DurableStore

variable {Name : Type} [NdnName Name]

/-- What a process that opened the store knows. -/
structure Opened (Name : Type) where
  /-- The device's name. -/
  device : Name
  /-- The parameters. -/
  erasure : Erasure
  /-- The first insert refused. -/
  refused : Option String
deriving DecidableEq

/-- The directory of a holder's store. -/
structure StoreDir (Name : Type) [NdnName Name] where
  /-- `<dir>/erasure`. -/
  record : RecordFile
  /-- `<dir>/own`. -/
  own : DurableStore Name
  /-- `<dir>/held/<i>`. -/
  stripes : ℕ → DurableStore Name
  /-- The process that has it open. -/
  running : Option (Opened Name)

/-- What happens to a directory. -/
inductive DirEvent (Name : Type) [NdnName Name] where
  /-- It is opened. -/
  | opening (device : Name) (asked : Erasure) (faults : OpenFaults)
  /-- The process does something. -/
  | disk (event : DiskEvent Name)
  /-- The process stops or is killed, perhaps by a power loss, and the record is or is not
  what a read found. -/
  | stop (powerLoss keepRecord : Bool) (own : FjallStore Name) (stripes : ℕ → FjallStore Name)
  /-- A stripe is deleted, or its disk replaced by an empty one. -/
  | loseStripe (stripe : ℕ)

/-- What is left of the record. -/
def RecordFile.stop (file : RecordFile) (powerLoss keepRecord : Bool) : RecordFile :=
  if powerLoss then
    if keepRecord then ⟨file.visible, file.visible⟩ else ⟨file.durable, file.durable⟩
  else file

namespace StoreDir

/-- No directory yet. -/
def empty : StoreDir Name := ⟨⟨none, none⟩, .openEmpty, fun _ => .openEmpty, none⟩

/-- The store that a process has open. -/
def holder (dir : StoreDir Name) (o : Opened Name) : DurableHolder Name o.erasure :=
  ⟨o.device, append NdnName.root (ascii "localhost"), dir.own, fun i => dir.stripes i, o.refused⟩

/-- The directory after the process did something. -/
def update (dir : StoreDir Name) (o : Opened Name) (d : DurableHolder Name o.erasure) :
    StoreDir Name where
  record := dir.record
  own := d.own
  stripes := fun i => if h : i < o.erasure.n then d.stripes ⟨i, h⟩ else dir.stripes i
  running := some { o with refused := d.refused }

theorem update_stripes (dir : StoreDir Name) (o : Opened Name) (d : DurableHolder Name o.erasure)
    {i : ℕ} (hi : i < o.erasure.n) : (dir.update o d).stripes i = d.stripes ⟨i, hi⟩ := dif_pos hi

/-- The directory after an event. -/
def step [Sha2] [Codec UInt8] (dir : StoreDir Name) : DirEvent Name → StoreDir Name
  | .opening device asked faults =>
      match openHolder asked faults dir.record with
      | (.error _, record) => { dir with record }
      | (.ok (), record) => { dir with record, running := some ⟨device, asked, none⟩ }
  | .disk event =>
      match dir.running with
      | none => dir
      | some o => dir.update o ((dir.holder o).step event)
  | .stop powerLoss keepRecord own stripes =>
      ⟨dir.record.stop powerLoss keepRecord, dir.own.reopened powerLoss own,
        fun i => (dir.stripes i).reopened powerLoss (stripes i), none⟩
  | .loseStripe stripe =>
      { dir with stripes := fun i => if i = stripe then .openEmpty else dir.stripes i }

/-- It is opened, and stripes are lost, while no process runs, and what is left of a store
survived. -/
def Allowed (dir : StoreDir Name) : DirEvent Name → Prop
  | .opening _ _ _ => dir.running = none
  | .disk _ => True
  | .stop _ _ own stripes =>
      dir.own.Survives own ∧ ∀ i, (dir.stripes i).Survives (stripes i)
  | .loseStripe _ => dir.running = none

/-! ## The record -/

/-- The record is none or that of parameters asked for, on disk it is the same or none, and
who has the store open has its parameters. -/
structure Recorded (asked : Erasure → Prop) (dir : StoreDir Name) : Prop where
  /-- What a read finds. -/
  visible : ∀ text, dir.record.visible = some text → ∃ e, asked e ∧ text = recordText e
  /-- What is on disk. -/
  durable : dir.record.durable = none ∨ dir.record.durable = dir.record.visible
  /-- Who has the store open. -/
  running : ∀ o, dir.running = some o → dir.record.visible = some (recordText o.erasure)

section Record

variable {dir : StoreDir Name} {asked : Erasure → Prop}

theorem recordText_injective {e e' : Erasure} (h : recordText e = recordText e') : e = e' := by
  have hread := fromStr_recordText e
  rw [h, fromStr_recordText] at hread
  cases hread
  rfl

theorem Recorded.start (asked : Erasure → Prop) : Recorded asked (empty : StoreDir Name) :=
  ⟨nofun, Or.inl rfl, nofun⟩

variable [Sha2] [Codec UInt8]

/-- What an opening leaves of a directory. -/
theorem step_opening (dir : StoreDir Name) (device : Name) (e : Erasure) (faults : OpenFaults) :
    (dir.step (.opening device e faults)).record = (openRecord e faults dir.record).2 ∧
      ((dir.step (.opening device e faults)).running = dir.running ∨
        (openRecord e faults dir.record).1 = .ok () ∧
          (dir.step (.opening device e faults)).running = some ⟨device, e, none⟩) := by
  rcases hgot : openRecord e faults dir.record with ⟨done, record⟩
  cases done with
  | error why =>
      simp only [step, openHolder, hgot]
      exact ⟨trivial, Or.inl trivial⟩
  | ok =>
      cases hstores : openStores e faults with
      | error why =>
          simp only [step, openHolder, hgot, hstores]
          exact ⟨trivial, Or.inl trivial⟩
      | ok =>
          simp only [step, openHolder, hgot, hstores]
          exact ⟨trivial, Or.inr ⟨trivial, trivial⟩⟩

theorem Recorded.step (h : Recorded asked dir) {event : DirEvent Name}
    (hallowed : dir.Allowed event)
    (hasked : ∀ device e faults, event = .opening device e faults → asked e) :
    Recorded asked (dir.step event) := by
  cases event with
  | opening device e faults =>
      obtain ⟨hrecord, hrunning⟩ := step_opening dir device e faults
      have hidle : dir.running = none := hallowed
      rw [hidle] at hrunning
      rcases openRecord_cases e faults dir.record with ⟨hsame, hread⟩ | ⟨hnone, hplaced⟩
      · rw [hsame] at hrecord
        refine ⟨hrecord ▸ h.visible, hrecord ▸ h.durable, fun o ho => ?_⟩
        rcases hrunning with hstill | ⟨hok, hstarted⟩
        · rw [hstill] at ho
          cases ho
        · obtain ⟨text, htext, hfrom⟩ := hread hok
          obtain ⟨e', -, rfl⟩ := h.visible text htext
          rw [fromStr_recordText] at hfrom
          cases hfrom
          rw [hstarted] at ho
          cases ho
          rw [hrecord, htext]
      · have hdurable : dir.record.durable = none := by
          rcases h.durable with hdur | hdur
          · exact hdur
          · exact hdur.trans hnone
        have hmine : asked e := hasked device e faults rfl
        rcases hplaced with ⟨-, ⟨why, herror⟩, hfile⟩ | ⟨-, -, hfile⟩
        · rw [hfile] at hrecord
          refine ⟨fun text htext => ?_, Or.inl (hrecord ▸ hdurable), fun o ho => ?_⟩
          · rw [hrecord] at htext
            exact ⟨e, hmine, (Option.some.inj htext).symm⟩
          · rcases hrunning with hstill | ⟨hok, -⟩
            · rw [hstill] at ho
              cases ho
            · rw [herror] at hok
              cases hok
        · rw [hfile] at hrecord
          refine ⟨fun text htext => ?_, Or.inr (by rw [hrecord]), fun o ho => ?_⟩
          · rw [hrecord] at htext
            exact ⟨e, hmine, (Option.some.inj htext).symm⟩
          · rcases hrunning with hstill | ⟨-, hstarted⟩
            · rw [hstill] at ho
              cases ho
            · rw [hstarted] at ho
              cases ho
              rw [hrecord]
  | disk event =>
      rw [StoreDir.step]
      cases hrunning : dir.running with
      | none => exact h
      | some o =>
          refine ⟨h.visible, h.durable, fun o' ho' => ?_⟩
          cases ho'
          exact h.running o hrunning
  | stop powerLoss keepRecord own stripes =>
      cases powerLoss with
      | false => exact ⟨h.visible, h.durable, nofun⟩
      | true =>
          cases keepRecord with
          | true => exact ⟨h.visible, Or.inr rfl, nofun⟩
          | false =>
              refine ⟨fun text htext => h.visible text ?_, Or.inr rfl, nofun⟩
              have hkept : dir.record.durable = some text := htext
              rcases h.durable with hdur | hdur
              · rw [hdur] at hkept
                cases hkept
              · exact hdur ▸ hkept
  | loseStripe stripe => exact ⟨h.visible, h.durable, h.running⟩

theorem Recorded.run {events : List (DirEvent Name)} (h : Recorded asked dir)
    (hrun : Admits StoreDir.step Allowed dir events)
    (hasked : ∀ device e faults, .opening device e faults ∈ events → asked e) :
    Recorded asked (run StoreDir.step dir events) := by
  induction events generalizing dir with
  | nil => exact h
  | cons event events ih =>
      have hfirst := h.step hrun.1 fun device e faults heq =>
        hasked device e faults (heq ▸ List.mem_cons_self ..)
      exact ih hfirst hrun.2 fun device e faults hmem =>
        hasked device e faults (List.mem_cons_of_mem _ hmem)

/-- A record on disk stays. -/
theorem record_step {text : List Char} (h : dir.record = ⟨some text, some text⟩)
    (event : DirEvent Name) : (dir.step event).record = dir.record := by
  cases event with
  | opening device e faults =>
      rw [(step_opening dir device e faults).1]
      rcases openRecord_cases e faults dir.record with ⟨hsame, -⟩ | ⟨hnone, -⟩
      · exact hsame
      · rw [h] at hnone
        cases hnone
  | disk event =>
      rw [StoreDir.step]
      cases dir.running <;> rfl
  | stop powerLoss keepRecord own stripes =>
      show dir.record.stop powerLoss keepRecord = dir.record
      rw [h]
      cases powerLoss <;> cases keepRecord <;> rfl
  | loseStripe stripe => rfl

theorem record_run {text : List Char} (h : dir.record = ⟨some text, some text⟩)
    (events : List (DirEvent Name)) : (run StoreDir.step dir events).record = dir.record := by
  induction events generalizing dir with
  | nil => rfl
  | cons event events ih =>
      have hfirst := record_step h event
      exact (ih (hfirst.trans h)).trans hfirst

/-- Where openings that put the record in place sync the directory, it is on disk. -/
theorem durable_run {events : List (DirEvent Name)}
    (hsync : ∀ device e faults, .opening device e faults ∈ events → faults.syncDir = none)
    (h : dir.record.durable = dir.record.visible) :
    (run StoreDir.step dir events).record.durable =
      (run StoreDir.step dir events).record.visible := by
  induction events generalizing dir with
  | nil => exact h
  | cons event events ih =>
      refine ih (fun device e faults hmem => hsync device e faults (List.mem_cons_of_mem _ hmem)) ?_
      cases event with
      | opening device e faults =>
          rw [(step_opening dir device e faults).1]
          rcases openRecord_cases e faults dir.record with ⟨hsame, -⟩ | ⟨-, hplaced⟩
          · rw [hsame, h]
          · rcases hplaced with ⟨hfault, -⟩ | ⟨-, -, hfile⟩
            · rw [hsync device e faults (List.mem_cons_self ..)] at hfault
              cases hfault
            · rw [hfile]
      | disk event =>
          rw [StoreDir.step]
          cases dir.running <;> exact h
      | stop powerLoss keepRecord own stripes =>
          cases powerLoss with
          | false => exact h
          | true => cases keepRecord <;> rfl
      | loseStripe stripe => exact h

/-- The record is never torn: it is that of parameters some opening asked for.  It is on disk,
if no opening that put it in place was cut short before it synced the directory.  Once it is
on disk it stays, whoever has the store open has its parameters, and openings with others
are refused. -/
theorem record_stays {events : List (DirEvent Name)}
    (hrun : Admits StoreDir.step Allowed (empty : StoreDir Name) events) :
    let dir := run StoreDir.step empty events
    (∀ text, dir.record.visible = some text →
        ∃ device e faults, .opening device e faults ∈ events ∧ text = recordText e) ∧
      ((∀ device e faults, .opening device e faults ∈ events → faults.syncDir = none) →
        dir.record.durable = dir.record.visible) ∧
      ∀ text, dir.record.durable = some text → ∃ e, text = recordText e ∧
        ∀ later, Admits StoreDir.step Allowed dir later →
          let dir' := run StoreDir.step dir later
          dir'.record = dir.record ∧ (∀ o, dir'.running = some o → o.erasure = e) ∧
            ∀ asked, (openHolder asked .none dir'.record).1 =
              if e = asked then .ok () else .error (.mismatch ["erasure"] e asked) := by
  intro dir
  have hrecorded : Recorded (fun e => ∃ device faults, .opening device e faults ∈ events) dir :=
    (Recorded.start _).run hrun fun device e faults hmem => ⟨device, faults, hmem⟩
  refine ⟨fun text htext => ?_, fun hsync => durable_run hsync rfl, fun text htext => ?_⟩
  · obtain ⟨e, ⟨device, faults, hmem⟩, rfl⟩ := hrecorded.visible text htext
    exact ⟨device, e, faults, hmem, rfl⟩
  · have hvisible : dir.record.visible = some text := by
      rcases hrecorded.durable with hdur | hdur
      · rw [hdur] at htext
        cases htext
      · exact hdur ▸ htext
    obtain ⟨e, -, rfl⟩ := hrecorded.visible text hvisible
    have hboth : dir.record = ⟨some (recordText e), some (recordText e)⟩ := by
      rw [← hvisible]
      exact congrArg (RecordFile.mk dir.record.visible) (htext.trans hvisible.symm)
    refine ⟨e, rfl, fun later hlater => ?_⟩
    intro dir'
    have hstays : dir'.record = dir.record := record_run hboth later
    have hany : Recorded (fun _ => True) dir' :=
      Recorded.run ⟨fun text h => (hrecorded.visible text h).imp fun _ h => ⟨trivial, h.2⟩,
        hrecorded.durable, hrecorded.running⟩ hlater fun _ _ _ _ => trivial
    refine ⟨hstays, fun o ho => ?_, fun asked => ?_⟩
    · have hopen := hany.running o ho
      rw [hstays, hboth] at hopen
      exact (recordText_injective (Option.some.inj hopen)).symm
    · rw [hstays, hboth, openHolder_none]

end Record

/-! ## Packets that were synced -/

/-- Whether a name is a device's own. -/
def ownName (device name : Name) : Bool :=
  hasPrefix name device || hasPrefix name (append NdnName.root (ascii "localhost"))

section Packets

variable [Sha2] [Codec UInt8]

/-- Some stripes hold a packet for good, and they are enough. -/
def Spread (e : Erasure) (stripes : ℕ → DurableStore Name) (name : Name) (w : Bytes)
    (holding : Finset ℕ) : Prop :=
  e.k ≤ holding.card ∧ ∀ i ∈ holding, i < e.n ∧ (stripes i).Holds name (e.stripeRecord w i)

/-- The stripes hold a packet for good. -/
structure InStripes (e : Erasure) (stripes : ℕ → DurableStore Name) (name : Name) (w : Bytes) :
    Prop where
  /-- It fits the length field. -/
  short : w.length < u32Bound
  /-- Nothing else is found under its name. -/
  agrees : ∀ i < e.n, (stripes i).Agrees name (e.stripeRecord w i)
  /-- Enough stripes hold it. -/
  enough : ∃ holding, Spread e stripes name w holding

/-- A packet is held for good by the own store or the stripes. -/
structure HoldsPacket (e : Erasure) (isOwn : Bool) (name : Name) (w : Bytes) (dir : StoreDir Name) :
    Prop where
  /-- The parameters are recorded. -/
  record : dir.record = ⟨some (recordText e), some (recordText e)⟩
  /-- Who has the store open has them. -/
  running : ∀ o, dir.running = some o → o.erasure = e
  /-- An own packet. -/
  own : isOwn = true → dir.own.Holds name w
  /-- A held packet. -/
  stripes : isOwn = false → InStripes e dir.stripes name w

/-- An event leaves a packet alone, and if it costs a stripe enough others have it on disk. -/
def Spares (e : Erasure) (isOwn : Bool) (name : Name) (w : Bytes) (dir : StoreDir Name) :
    DirEvent Name → Prop
  | .disk event => event.Leaves name w
  | .loseStripe stripe =>
      isOwn = false → ∃ holding, stripe ∉ holding ∧ Spread e dir.stripes name w holding
  | _ => True

variable {e : Erasure} {isOwn : Bool} {name : Name} {w : Bytes} {dir : StoreDir Name}

/-- Stripes that have only the packet written hold it as before. -/
theorem InStripes.becomes {stripes stripes' : ℕ → DurableStore Name}
    (h : InStripes e stripes name w)
    (hbecomes : ∀ i < e.n, Becomes (Only name (e.stripeRecord w i)) (stripes i) (stripes' i)) :
    InStripes e stripes' name w := by
  obtain ⟨hshort, hagrees, holding, hcard, hholds⟩ := h
  exact ⟨hshort, fun i hi => (hbecomes i hi).agrees (hagrees i hi), holding, hcard,
    fun i hi => ⟨(hholds i hi).1, (hbecomes i (hholds i hi).1).holds (hholds i hi).2⟩⟩

/-- What is in the stripes are the packet's records, and enough of them. -/
theorem InStripes.thinned {d : DurableHolder Name e} {stripes : ℕ → DurableStore Name}
    (h : InStripes e stripes name w) (hstripes : ∀ i, d.stripes i = stripes i) :
    Thinned e (d.held.records name) (some w) := by
  obtain ⟨hshort, hagrees, holding, hcard, hholds⟩ := h
  have hget : ∀ i < e.n, (d.held.records name).getD i none = (stripes i).current.get name := by
    intro i hi
    rw [d.held.getD_records name hi]
    exact congrArg (fun s => s.current.get name) (hstripes ⟨i, hi⟩)
  refine ⟨d.held.records_length name, fun w' hw' => Option.some.inj hw' ▸ hshort, fun i hi => ?_,
    fun _ => hcard.trans ?_⟩
  · rw [hget i hi]
    rcases (hagrees i hi).current with hnone | hsome
    · exact Or.inl hnone
    · exact Or.inr ⟨w, rfl, hsome⟩
  · have hsub : holding ⊆ ((List.range e.n).filter fun i =>
        ((d.held.records name).getD i none).isSome).toFinset := by
      intro i hi
      obtain ⟨hlt, hheld⟩ := hholds i hi
      rw [List.mem_toFinset, List.mem_filter, List.mem_range, hget i hlt, hheld.current]
      exact ⟨hlt, rfl⟩
    rw [Erasure.recordCount, List.countP_eq_length_filter]
    exact (Finset.card_le_card hsub).trans (List.toFinset_card_le _)

variable (law : Lawful UInt8 e.k e.n)

include law

/-- A packet held for good is read. -/
theorem HoldsPacket.get (h : HoldsPacket e isOwn name w dir) {o : Opened Name}
    (hrunning : dir.running = some o) (hown : ownName o.device name = isOwn)
    (fault : ℕ → Option String) : ((dir.holder o).get name fault).1 = some w := by
  obtain rfl := h.running o hrunning
  have hisown : (dir.holder o).view.isOwn name = isOwn := hown
  unfold DurableHolder.get
  rw [hisown]
  cases isOwn with
  | true => exact (h.own rfl).current
  | false =>
      have hthin := (h.stripes rfl).thinned (d := dir.holder o) fun _ => rfl
      have hread := hthin.wire_eq law rfl
      rw [if_neg Bool.false_ne_true, DurableHolder.rebuild]
      unfold ErasureStore.wire at hread
      obtain ⟨got, hgot, rfl⟩ := Option.map_eq_some_iff.mp hread
      rw [show (dir.holder o).held.erasure = o.erasure from rfl] at hgot
      rw [hgot]

/-- Events that spare a packet leave it held. -/
theorem HoldsPacket.step (h : HoldsPacket e isOwn name w dir) {event : DirEvent Name}
    (hallowed : dir.Allowed event) (hspares : dir.Spares e isOwn name w event) :
    HoldsPacket e isOwn name w (dir.step event) := by
  have hrecord := (record_step h.record event).trans h.record
  cases event with
  | opening device asked faults =>
      have hidle : dir.running = none := hallowed
      have hstores : (dir.step (.opening device asked faults)).own = dir.own ∧
          (dir.step (.opening device asked faults)).stripes = dir.stripes := by
        unfold StoreDir.step
        simp only
        split <;> exact ⟨rfl, rfl⟩
      refine ⟨hrecord, fun o ho => ?_, hstores.1 ▸ h.own, hstores.2 ▸ h.stripes⟩
      rcases (step_opening dir device asked faults).2 with hstill | ⟨hok, hstarted⟩
      · rw [hstill, hidle] at ho
        cases ho
      · rw [hstarted] at ho
        cases ho
        rcases openRecord_cases asked faults dir.record with ⟨-, hread⟩ | ⟨hnone, -⟩
        · obtain ⟨text, htext, hfrom⟩ := hread hok
          rw [h.record] at htext
          cases htext
          rw [fromStr_recordText] at hfrom
          cases hfrom
          rfl
        · rw [h.record] at hnone
          cases hnone
  | disk event =>
      cases hrunning : dir.running with
      | none =>
          have hsame : dir.step (.disk event) = dir := by rw [StoreDir.step, hrunning]
          rw [hsame]
          exact h
      | some o =>
          have hstep : dir.step (.disk event) = dir.update o ((dir.holder o).step event) := by
            rw [StoreDir.step, hrunning]
          have herasure := h.running o hrunning
          rw [hstep] at hrecord ⊢
          refine ⟨hrecord, fun o' ho' => ?_, fun hown => ?_, fun hheld => ?_⟩
          · cases ho'
            exact herasure
          · have hstore := DurableHolder.own_step (dir.holder o) hspares
            exact hstore.holds (h.own hown)
          · subst herasure
            have hin := h.stripes hheld
            have hthin := hin.thinned (d := dir.holder o) fun _ => rfl
            refine hin.becomes fun i hi => ?_
            have hstripe := DurableHolder.stripes_step law hthin hspares ⟨i, hi⟩
            rw [update_stripes _ _ _ hi]
            exact hstripe
  | stop powerLoss keepRecord own' stripes =>
      obtain ⟨hownleft, hleft⟩ := hallowed
      refine ⟨hrecord, nofun, fun hown => (h.own hown).reopened hownleft powerLoss, fun hheld => ?_⟩
      obtain ⟨hshort, hagrees, holding, hcard, hholds⟩ := h.stripes hheld
      exact ⟨hshort, fun i hi => (hagrees i hi).reopened (hleft i) powerLoss, holding, hcard,
        fun i hi => ⟨(hholds i hi).1, (hholds i hi).2.reopened (hleft i) powerLoss⟩⟩
  | loseStripe stripe =>
      refine ⟨hrecord, h.running, h.own, fun hheld => ?_⟩
      obtain ⟨hshort, hagrees, -⟩ := h.stripes hheld
      obtain ⟨holding, hnot, hcard, hholds⟩ := hspares hheld
      refine ⟨hshort, fun i hi => ?_, holding, hcard, fun i hi => ⟨(hholds i hi).1, ?_⟩⟩
      · show (if i = stripe then openEmpty else dir.stripes i).Agrees name (e.stripeRecord w i)
        split
        · exact agrees_openEmpty
        · exact hagrees i hi
      · show (if i = stripe then openEmpty else dir.stripes i).Holds name (e.stripeRecord w i)
        rw [if_neg (ne_of_mem_of_not_mem hi hnot)]
        exact (hholds i hi).2

theorem HoldsPacket.run {events : List (DirEvent Name)} (h : HoldsPacket e isOwn name w dir)
    (hrun : Admits StoreDir.step (fun dir event => dir.Allowed event ∧ dir.Spares e isOwn name w event)
      dir events) : HoldsPacket e isOwn name w (run StoreDir.step dir events) := by
  induction events generalizing dir with
  | nil => exact h
  | cons event events ih => exact ih (h.step law hrun.1.1 hrun.1.2) hrun.2

end Packets

/-- A packet that was given before a sync that succeeded, with the parameters recorded on
disk, is read from then on. -/
theorem packet_survives [Sha2] [Codec UInt8] {before : List (DirEvent Name)} {o : Opened Name}
    (law : Lawful UInt8 o.erasure.k o.erasure.n)
    (hbefore : Admits StoreDir.step Allowed (empty : StoreDir Name) before)
    (hrunning : (run StoreDir.step empty before).running = some o)
    (hrecord : (run StoreDir.step empty before).record.durable.isSome)
    {name : Name} {w : Bytes} {giveFault : ℕ → Option String} {later between : List (DiskEvent Name)}
    {ownFault : Option String} {fault : ℕ → Option String} {others : ℕ → List (DiskEvent Name)}
    (hlater : ∀ event ∈ later, event.Leaves name w)
    (hbetween : ∀ event ∈ between, event.Leaves name w)
    (hothers : ∀ i < o.erasure.n, ∀ event ∈ others i, event.Leaves name w) :
    let given := run DurableHolder.step
      (((run StoreDir.step empty before).holder o).insert name w giveFault) later
    let synced := given.sync ownFault between fault others
    synced.1 = .ok () →
      ∀ after, Admits StoreDir.step (fun dir event => dir.Allowed event ∧
          dir.Spares o.erasure (ownName o.device name) name w event)
        ((run StoreDir.step empty before).update o synced.2) after →
        let dir := run StoreDir.step ((run StoreDir.step empty before).update o synced.2) after
        ∀ o', dir.running = some o' → o'.device = o.device →
          ∀ readFault, ((dir.holder o').get name readFault).1 = some w := by
  intro given synced hok after hafter dir o' ho' hdevice readFault
  have hrecorded : Recorded (fun _ => True) (run StoreDir.step (empty : StoreDir Name) before) :=
    (Recorded.start _).run hbefore fun _ _ _ _ => trivial
  have hvisible := hrecorded.running o hrunning
  have hboth : (run StoreDir.step (empty : StoreDir Name) before).record =
      ⟨some (recordText o.erasure), some (recordText o.erasure)⟩ := by
    have hdurable : (run StoreDir.step (empty : StoreDir Name) before).record.durable =
        some (recordText o.erasure) := by
      rcases hrecorded.durable with hdur | hdur
      · rw [hdur] at hrecord
        cases hrecord
      · exact hdur.trans hvisible
    rw [← hvisible]
    exact congrArg (RecordFile.mk _) (hdurable.trans hvisible.symm)
  obtain ⟨hown, hheld⟩ := DurableHolder.holds_of_sync law hlater hbetween hothers hok
  have hstart : HoldsPacket o.erasure (ownName o.device name) name w
      ((run StoreDir.step empty before).update o synced.2) := by
    refine ⟨hboth, fun o' ho' => ?_, hown, fun hname => ?_⟩
    · cases ho'
      rfl
    · obtain ⟨hshort, hholds⟩ := hheld hname
      have hstripe : ∀ i < o.erasure.n, DurableStore.Holds
          (((run StoreDir.step empty before).update o synced.2).stripes i) name
          (o.erasure.stripeRecord w i) := by
        intro i hi
        rw [update_stripes _ _ _ hi]
        exact hholds ⟨i, hi⟩
      refine ⟨hshort, fun i hi => (hstripe i hi).agrees, Finset.range o.erasure.n, ?_,
        fun i hi => ?_⟩
      · rw [Finset.card_range]
        exact o.erasure.k_le_n
      · exact ⟨Finset.mem_range.mp hi, hstripe i (Finset.mem_range.mp hi)⟩
  exact (hstart.run law hafter).get law ho' (by rw [hdevice]) readFault

/-! ## Small inputs -/

/-- 5 of 7. -/
def otherErasure : Erasure := ⟨5, 7, by decide, by decide, by decide⟩

/-- A device `/r` opens its store. -/
def firstOpening : List (DirEvent Components) := [.opening [[8, 1, 114]] default .none]

theorem record_stays_firstOpening :
    letI := shortSha2
    letI := xorCodec
    (openHolder otherErasure .none (run StoreDir.step empty firstOpening).record).1 =
      .error (.mismatch ["erasure"] default otherErasure) := by
  let _ := shortSha2
  let _ := xorCodec
  have hrun : Admits StoreDir.step Allowed (empty : StoreDir Components) firstOpening :=
    ⟨rfl, trivial⟩
  obtain ⟨-, -, hstays⟩ := record_stays hrun
  obtain ⟨e, htext, hlater⟩ := hstays (recordText default) rfl
  obtain rfl := recordText_injective htext
  exact (hlater [] trivial).2.2 otherErasure

/-- An opening that is killed before it synced the directory leaves a record that the next one
takes.  A power loss may take it away, and then other parameters are accepted. -/
example :
    letI := shortSha2
    letI := xorCodec
    let dir : StoreDir Components := run StoreDir.step empty
      [.opening [[8, 1, 114]] default { OpenFaults.none with syncDir := some "killed" },
        .opening [[8, 1, 114]] default .none, .stop true false .empty fun _ => .empty]
    (openHolder otherErasure .none dir.record).1 = .ok () := by decide +kernel

/-- The store that the device has open. -/
def openedHolder : Opened Components := ⟨[[8, 1, 114]], default, none⟩

/-- A packet is given and synced. -/
def syncedDir : StoreDir Components :=
  let _ := shortSha2
  let _ := xorCodec
  let dir := run StoreDir.step empty firstOpening
  dir.update openedHolder (DurableHolder.sync
    ((dir.holder openedHolder).insert [[8, 1, 98]] [1, 2] fun _ => none) none [] (fun _ => none)
      fun _ => []).2

/-- The power is lost, then a stripe, and the store is opened again. -/
def lossyRestart : List (DirEvent Components) :=
  [.stop true true syncedDir.own.durable fun i => (syncedDir.stripes i).durable, .loseStripe 0,
    .opening [[8, 1, 114]] default .none]

theorem packet_survives_lossyRestart :
    letI := shortSha2
    letI := xorCodec
    (((run StoreDir.step syncedDir lossyRestart).holder openedHolder).get [[8, 1, 98]]
      fun _ => none).1 = some [1, 2] := by
  let _ := shortSha2
  let _ := xorCodec
  have hbefore : Admits StoreDir.step Allowed (empty : StoreDir Components) firstOpening :=
    ⟨rfl, trivial⟩
  have hholds : ∀ i ∈ ({1, 2} : Finset ℕ), i < openedHolder.erasure.n ∧
      ((run StoreDir.step syncedDir (lossyRestart.take 1)).stripes i).Holds [[8, 1, 98]]
        (openedHolder.erasure.stripeRecord [1, 2] i) := by
    intro i hi
    rcases Finset.mem_insert.mp hi with rfl | hi
    · exact ⟨by decide, by decide +kernel, by decide +kernel, nofun⟩
    · rw [Finset.mem_singleton] at hi
      subst hi
      exact ⟨by decide, by decide +kernel, by decide +kernel, nofun⟩
  have hafter : Admits StoreDir.step (fun dir event => dir.Allowed event ∧
      dir.Spares openedHolder.erasure (ownName openedHolder.device [[8, 1, 98]]) [[8, 1, 98]]
        [1, 2] event) syncedDir lossyRestart :=
    ⟨⟨⟨⟨[], List.nil_subset _, rfl⟩, fun _ => ⟨[], List.nil_subset _, rfl⟩⟩, trivial⟩,
      ⟨rfl, fun _ => ⟨{1, 2}, by decide, by decide, hholds⟩⟩, ⟨rfl, trivial⟩, trivial⟩
  have hrunning : (run StoreDir.step (empty : StoreDir Components) firstOpening).running =
      some openedHolder := by decide +kernel
  have hrecord : (run StoreDir.step (empty : StoreDir Components) firstOpening).record.durable.isSome =
      true := by decide +kernel
  have hok : (DurableHolder.sync (run DurableHolder.step
      (((run StoreDir.step (empty : StoreDir Components) firstOpening).holder openedHolder).insert
        [[8, 1, 98]] [1, 2] fun _ => none) []) none [] (fun _ => none) fun _ => []).1 = .ok () := rfl
  have hreopened : (run StoreDir.step syncedDir lossyRestart).running = some openedHolder := by
    decide +kernel
  exact packet_survives (lawful_xorCodec (Or.inr rfl)) hbefore hrunning hrecord
    (fun _ h => absurd h List.not_mem_nil) (fun _ h => absurd h List.not_mem_nil)
    (fun _ _ _ h => absurd h List.not_mem_nil) hok lossyRestart hafter openedHolder hreopened rfl _

end StoreDir

end NdnRepo
