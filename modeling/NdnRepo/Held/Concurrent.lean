import NdnRepo.Lib.XorCodec
import NdnRepo.Held.Repair

/-!
# Threads of a store

Any number of threads insert, remove and read.  Inserts, removes and repairs hold
the `writes` lock while they touch the stripes, one stripe a step.  A read takes
no lock: its stripes are read one a step, and what it saw may be torn or stale
when it asks for a repair.  A stripe may lose a record at any moment.

The lock decides an order of inserts and removes of each name.  `System.log`
writes it down.  The invariant (`Inv`) says of every stripe which entry of the
log its record is of: the newest one, or the one before while the newest is being
written and has not come to the stripe.  A repair reads under the lock and so
writes records of the newest entry only.

`Acts` and `Next` say once what can happen in a step.  What steps keep is shown by
cases on them.
-/

namespace NdnRepo

open Coding

variable {Name : Type} [NdnName Name]

/-- One stripe's record of a name. -/
def ErasureStore.record (s : ErasureStore Name) (stripe : ℕ) (name : Name) : Option Bytes :=
  if h : stripe < s.erasure.n then (s.stripes ⟨stripe, h⟩).get name else none

theorem ErasureStore.record_eq_getD (s : ErasureStore Name) (stripe : ℕ) (name : Name) :
    s.record stripe name = (s.records name).getD stripe none := by
  unfold record
  split
  next h => rw [getD_records s name h]
  next h => rw [List.getD_eq_default _ _ (by simpa using h)]

theorem ErasureStore.record_putRecord (s : ErasureStore Name) {stripe i : ℕ}
    (hi : i < s.erasure.n) (name other : Name) (r : Option Bytes) :
    (s.putRecord stripe name r).record i other =
      if other = name ∧ i = stripe then r else s.record i other := by
  rw [record_eq_getD, records_putRecord, record_eq_getD]
  by_cases ho : other = name
  · subst ho
    by_cases hs : i = stripe
    · subst hs
      simp [hi]
    · simp [hs, Ne.symm hs]
  · simp [ho]

/-! ## The system -/

/-- Where a thread is. -/
inductive Pc (Name : Type) where
  /-- Between operations. -/
  | idle
  /-- An insert, its records made, wants the lock. -/
  | insertWait (name : Name) (wire : Bytes) (records : List Bytes)
  /-- An insert holds the lock and has written the stripes below `next`. -/
  | insertWrite (name : Name) (wire : Bytes) (records : List Bytes) (next : ℕ)
  /-- A remove wants the lock. -/
  | removeWait (name : Name)
  /-- A remove holds the lock and has cleared the stripes below `next`. -/
  | removeWrite (name : Name) (next : ℕ)
  /-- A get has read some stripes. -/
  | getRead (name : Name) (seen : List (Option Bytes))
  /-- A get found a packet with stale stripes and wants the lock. -/
  | repairWait (name : Name) (seen : List (Option Bytes)) (wire : Bytes)
  /-- A repair holds the lock and has read some stripes again. -/
  | repairRead (name : Name) (seen : List (Option Bytes)) (wire : Bytes)
      (again : List (Option Bytes))
  /-- A repair holds the lock and has stripes left to write. -/
  | repairWrite (name : Name) (seen : List (Option Bytes)) (wire : Bytes) (records : List Bytes)
      (todo : List ℕ)
  /-- A get has its result. -/
  | returned (name : Name) (seen : List (Option Bytes)) (result : Option Bytes)
deriving DecidableEq

/-- The store, its lock and the threads, with what the lock ordered. -/
structure System (Tid Name : Type) [NdnName Name] where
  /-- The store. -/
  store : ErasureStore Name
  /-- Who holds the `writes` lock. -/
  writes : Option Tid
  /-- Where each thread is. -/
  pc : Tid → Pc Name
  /-- The inserts (their wires) and removes of each name, in lock order. -/
  log : Name → List (Option Bytes)
  /-- How many of them are completed. -/
  completed : Name → ℕ

/-- What can happen next. -/
inductive Action (Tid Name : Type) where
  /-- A thread calls `insert`. -/
  | insert (t : Tid) (name : Name) (wire : Bytes)
  /-- A thread calls `remove`. -/
  | remove (t : Tid) (name : Name)
  /-- A thread calls `get`. -/
  | get (t : Tid) (name : Name)
  /-- A waiting thread takes the lock. -/
  | lock (t : Tid)
  /-- A thread takes its next step. -/
  | run (t : Tid)
  /-- A stripe's record of a name is deleted or overwritten. -/
  | lose (stripe : ℕ) (name : Name) (record : Option Bytes)

namespace System

variable {Tid : Type} [DecidableEq Tid]

/-- An empty store and idle threads. -/
def start (e : Erasure) : System Tid Name :=
  ⟨.openEmpty e, none, fun _ => .idle, fun _ => [], fun _ => 0⟩

/-- The wire of a name's last insert in lock order, unless a remove came after. -/
def last (s : System Tid Name) (name : Name) : Option Bytes := (s.log name).getLast?.join

/-- The same for the completed inserts and removes. -/
def before (s : System Tid Name) (name : Name) : Option Bytes :=
  ((s.log name).take (s.completed name)).getLast?.join

/-- A thread moves on. -/
def goto (s : System Tid Name) (t : Tid) (pc : Pc Name) : System Tid Name :=
  { s with pc := Function.update s.pc t pc }

/-- A thread takes the lock, to insert or remove (`entry`) a name. -/
def lockFor (s : System Tid Name) (t : Tid) (name : Name) (entry : Option Bytes) (pc : Pc Name) :
    System Tid Name :=
  { s.goto t pc with writes := some t, log := Function.update s.log name (s.log name ++ [entry]) }

/-- A thread that inserted or removed a name lets go of the lock. -/
def unlockDone (s : System Tid Name) (t : Tid) (name : Name) : System Tid Name :=
  { s.goto t .idle with
    writes := none, completed := Function.update s.completed name (s.completed name + 1) }

/-- A thread that repaired lets go of the lock. -/
def unlock (s : System Tid Name) (t : Tid) (pc : Pc Name) : System Tid Name :=
  { s.goto t pc with writes := none }

/-- A thread writes a stripe's record. -/
def put (s : System Tid Name) (t : Tid) (stripe : ℕ) (name : Name) (record : Option Bytes)
    (pc : Pc Name) : System Tid Name :=
  { s.goto t pc with store := s.store.putRecord stripe name record }

variable [Sha2] [Codec UInt8]

/-- A thread's next step. -/
def runThread (s : System Tid Name) (t : Tid) : Pc Name → Option (System Tid Name)
  | .insertWrite name wire records next =>
      match if next < s.store.erasure.n then records[next]? else none with
      | some record =>
          some (s.put t next name (some record) (.insertWrite name wire records (next + 1)))
      | none => some (s.unlockDone t name)
  | .removeWrite name next =>
      if next < s.store.erasure.n then
        some (s.put t next name none (.removeWrite name (next + 1)))
      else some (s.unlockDone t name)
  | .getRead name seen =>
      if seen.length < s.store.erasure.n then
        some (s.goto t (.getRead name (seen ++ [s.store.record seen.length name])))
      else
        match s.store.erasure.assemble seen with
        | none => some (s.goto t (.returned name seen none))
        | some got =>
            if got.stale.isEmpty then some (s.goto t (.returned name seen (some got.wire)))
            else some (s.goto t (.repairWait name seen got.wire))
  | .repairRead name seen wire again =>
      if again.length < s.store.erasure.n then
        some (s.goto t (.repairRead name seen wire (again ++ [s.store.record again.length name])))
      else
        match s.store.erasure.assemble again with
        | none => some (s.unlock t (.returned name seen (some wire)))
        | some now =>
            if now.stale.isEmpty then some (s.unlock t (.returned name seen (some wire)))
            else
              match s.store.erasure.encode now.wire with
              | .ok records => some (s.goto t (.repairWrite name seen wire records now.stale))
              | .error _ => some (s.unlock t (.returned name seen (some wire)))
  | .repairWrite name seen wire records todo =>
      match todo with
      | [] => some (s.unlock t (.returned name seen (some wire)))
      | i :: todo =>
          some (s.put t i name (some (records.getD i [])) (.repairWrite name seen wire records todo))
  | .returned _ _ _ => some (s.goto t .idle)
  | _ => none

/-- A waiting thread takes the lock. -/
def takeLock (s : System Tid Name) (t : Tid) : Pc Name → Option (System Tid Name)
  | .insertWait name wire records =>
      some (s.lockFor t name (some wire) (.insertWrite name wire records 0))
  | .removeWait name => some (s.lockFor t name none (.removeWrite name 0))
  | .repairWait name seen wire =>
      some { s.goto t (.repairRead name seen wire []) with writes := some t }
  | _ => none

/-- One step, if it can be taken. -/
def step (s : System Tid Name) : Action Tid Name → Option (System Tid Name)
  | .insert t name wire =>
      match s.pc t with
      | .idle =>
          if u32Bound ≤ wire.length then some { s with store := s.store.insert name wire }
          else
            match s.store.erasure.encode wire with
            | .error _ => some { s with store := s.store.insert name wire }
            | .ok records => some (s.goto t (.insertWait name wire records))
      | _ => none
  | .remove t name =>
      match s.pc t with
      | .idle => some (s.goto t (.removeWait name))
      | _ => none
  | .get t name =>
      match s.pc t with
      | .idle => some (s.goto t (.getRead name []))
      | _ => none
  | .lock t =>
      match s.writes with
      | none => s.takeLock t (s.pc t)
      | some _ => none
  | .run t => s.runThread t (s.pc t)
  | .lose stripe name record => some { s with store := s.store.putRecord stripe name record }

end System

/-! ## The invariant -/

/-- Whether a thread holds the lock. -/
def Pc.critical : Pc Name → Bool
  | .insertWrite .. | .removeWrite .. | .repairRead .. | .repairWrite .. => true
  | _ => false

/-- The name a thread is inserting or removing. -/
def Pc.writing : Pc Name → Option Name
  | .insertWrite name _ _ _ | .removeWrite name _ => some name
  | _ => none

/-- The stripes a thread has yet to write. -/
def Pc.pending (name : Name) (i : ℕ) : Pc Name → Prop
  | .insertWrite other _ _ next | .removeWrite other next => other = name ∧ next ≤ i
  | _ => False

omit [NdnName Name] in
theorem Pc.critical_of_pending {name : Name} {i : ℕ} :
    ∀ {pc : Pc Name}, pc.pending name i → pc.critical = true
  | .insertWrite .., _ | .removeWrite .., _ => rfl

omit [NdnName Name] in
theorem Pc.critical_of_writing {name : Name} :
    ∀ {pc : Pc Name}, pc.writing = some name → pc.critical = true
  | .insertWrite .., _ | .removeWrite .., _ => rfl

omit [NdnName Name] in
theorem Pc.not_pending {pc : Pc Name} (h : pc.critical = false) (name : Name) (i : ℕ) :
    ¬pc.pending name i := by
  intro hp
  rw [critical_of_pending hp] at h
  cases h

omit [NdnName Name] in
theorem Pc.not_writing {pc : Pc Name} (h : pc.critical = false) (name : Name) :
    pc.writing ≠ some name := by
  intro hw
  rw [critical_of_writing hw] at h
  cases h

/-- Which names may lose records, and which may be removed. -/
structure Rules (Name : Type) where
  /-- Names that may lose records. -/
  lossy : Name → Prop
  /-- Names that may be removed. -/
  removable : Name → Prop

variable [Sha2] [Codec UInt8]

/-- The rules allow an action.  A record that is lost is no good shard. -/
def Action.Allowed {Tid : Type} (e : Erasure) (rules : Rules Name) : Action Tid Name → Prop
  | .remove _ name => rules.removable name
  | .lose stripe name record => rules.lossy name ∧ record.bind (e.shard stripe) = none
  | _ => True

/-- A stripe's record is that of `wire`, or was lost. -/
def RecordOk (e : Erasure) (rules : Rules Name) (name : Name) (stripe : ℕ)
    (record wire : Option Bytes) : Prop :=
  record = wire.map (e.stripeRecord · stripe) ∨
    rules.lossy name ∧ record.bind (e.shard stripe) = none

/-- What is known of a thread. -/
def Pc.Ok (e : Erasure) (rules : Rules Name) (last : Name → Option Bytes) : Pc Name → Prop
  | .insertWait _ wire records =>
      wire.length < u32Bound ∧ records = (List.range e.n).map (e.stripeRecord wire)
  | .insertWrite name wire records _ =>
      records = (List.range e.n).map (e.stripeRecord wire) ∧ last name = some wire
  | .removeWait name => rules.removable name
  | .removeWrite name _ => last name = none
  | .repairRead name _ _ again => again.length ≤ e.n ∧
      ∀ i < again.length, RecordOk e rules name i (again.getD i none) (last name)
  | .repairWrite name _ _ records todo => (∀ i ∈ todo, i < e.n) ∧
      ∃ wire, last name = some wire ∧ records = (List.range e.n).map (e.stripeRecord wire)
  | _ => True

omit [NdnName Name] in
/-- Only threads that hold the lock rely on the log. -/
theorem Pc.Ok.of_not_critical {e : Erasure} {rules : Rules Name} {last last' : Name → Option Bytes} :
    ∀ {pc : Pc Name}, pc.Ok e rules last → pc.critical = false → pc.Ok e rules last'
  | .idle, _, _ | .getRead .., _, _ | .repairWait .., _, _ | .returned .., _, _ => trivial
  | .insertWait .., h, _ | .removeWait .., h, _ => h

namespace System

variable {Tid : Type} [DecidableEq Tid] {e : Erasure} {rules : Rules Name}

/-- The invariant. -/
structure Inv (e : Erasure) (rules : Rules Name) (s : System Tid Name) : Prop where
  /-- The parameters stay. -/
  erasure : s.store.erasure = e
  /-- The lock is held by the one thread in a critical section. -/
  holder : ∀ t, (s.pc t).critical = true ↔ s.writes = some t
  /-- What is known of each thread. -/
  threads : ∀ t, (s.pc t).Ok e rules s.last
  /-- Inserted wires fit. -/
  short : ∀ name w, some w ∈ s.log name → w.length < u32Bound
  /-- Only removable names are removed. -/
  removed : ∀ name, none ∈ s.log name → rules.removable name
  /-- An insert or remove in progress is not completed. -/
  busy : ∀ t name, (s.pc t).writing = some name → (s.log name).length = s.completed name + 1
  /-- The others are. -/
  rest : ∀ name, (∀ t, (s.pc t).writing ≠ some name) → (s.log name).length = s.completed name
  /-- A stripe that nobody is about to write holds its record of the newest entry. -/
  settled : ∀ name, ∀ i < e.n, (∀ t, ¬(s.pc t).pending name i) →
    RecordOk e rules name i (s.store.record i name) (s.last name)
  /-- One that is about to be written holds its record of the entry before. -/
  unsettled : ∀ name, ∀ i < e.n, ∀ t, (s.pc t).pending name i →
    RecordOk e rules name i (s.store.record i name) (s.before name)

omit [DecidableEq Tid] in
theorem inv_start (e : Erasure) (rules : Rules Name) : Inv e rules (start e : System Tid Name) := by
  refine ⟨rfl, fun t => ?_, fun t => trivial, fun name w h => ?_, fun name h => ?_,
    fun t name h => ?_, fun name _ => rfl, fun name i hi _ => Or.inl ?_,
    fun name i hi t h => h.elim⟩
  · simp [start, Pc.critical]
  · cases h
  · cases h
  · cases h
  · rw [ErasureStore.record_eq_getD, start, ErasureStore.records_openEmpty]
    simp [last, hi]

omit [Sha2] [Codec UInt8] in
theorem goto_pc (s : System Tid Name) (t t' : Tid) (pc : Pc Name) :
    (s.goto t pc).pc t' = if t' = t then pc else s.pc t' := by
  simp [goto, Function.update_apply]

omit [Sha2] [Codec UInt8] in
/-- What holds of the thread that moved on and of the others holds of all. -/
theorem forall_goto {s : System Tid Name} {t : Tid} {pc : Pc Name} {P : Tid → Pc Name → Prop}
    (hself : P t pc) (hothers : ∀ t', t' ≠ t → P t' (s.pc t')) :
    ∀ t', P t' ((s.goto t pc).pc t') := by
  intro t'
  rw [goto_pc]
  split
  next ht => exact ht ▸ hself
  next ht => exact hothers t' ht

/-! ### Kinds of steps -/

section Kinds

variable {s : System Tid Name} (h : Inv e rules s) {t : Tid} {pc : Pc Name}

include h

omit [DecidableEq Tid] in
/-- Only the holder of the lock is in a critical section. -/
theorem Inv.eq_of_critical (ht : (s.pc t).critical = true) {t' : Tid}
    (ht' : (s.pc t').critical = true) : t' = t := by
  have h1 := (h.holder t).mp ht
  rw [(h.holder t').mp ht'] at h1
  exact Option.some.inj h1

omit [DecidableEq Tid] in
theorem Inv.not_critical_of_ne (ht : (s.pc t).critical = true) {t' : Tid} (hne : t' ≠ t) :
    (s.pc t').critical = false := by
  rw [← Bool.not_eq_true]
  exact fun hc => hne (h.eq_of_critical ht hc)

/-- A thread moves on and keeps its duties. -/
theorem Inv.goto (hcrit : pc.critical = (s.pc t).critical) (hwrit : pc.writing = (s.pc t).writing)
    (hpend : ∀ name i, pc.pending name i ↔ (s.pc t).pending name i)
    (hok : pc.Ok e rules s.last) : Inv e rules (s.goto t pc) := by
  have hall : ∀ {P : Pc Name → Prop}, (P pc ↔ P (s.pc t)) →
      ∀ t', P ((s.goto t pc).pc t') ↔ P (s.pc t') := by
    intro P hP t'
    by_cases ht : t' = t
    · subst ht
      simpa [System.goto] using hP
    · simp [System.goto, Function.update_of_ne ht]
  refine ⟨h.erasure, fun t' => ?_, fun t' => ?_, h.short, h.removed, fun t' name => ?_,
    fun name hname => ?_, fun name i hi hnone => ?_, fun name i hi t' hp => ?_⟩
  · exact (hall (P := fun pc => pc.critical = true) (by rw [hcrit]) t').trans (h.holder t')
  · exact (hall (P := fun pc => pc.Ok e rules s.last) (iff_of_true hok (h.threads t)) t').mpr
      (h.threads t')
  · exact fun hw => h.busy t' name
      ((hall (P := fun pc => pc.writing = some name) (by rw [hwrit]) t').mp hw)
  · exact h.rest name fun t' hw => hname t'
      ((hall (P := fun pc => pc.writing = some name) (by rw [hwrit]) t').mpr hw)
  · exact h.settled name i hi fun t' hp => hnone t'
      ((hall (P := fun pc => pc.pending name i) (hpend name i) t').mpr hp)
  · exact h.unsettled name i hi t'
      ((hall (P := fun pc => pc.pending name i) (hpend name i) t').mp hp)

/-- The holder of the lock writes a stripe's record of the newest entry. -/
theorem Inv.put {name : Name} {stripe : ℕ} {record : Option Bytes}
    (hold : (s.pc t).critical = true) (hcrit : pc.critical = true)
    (hwrit : pc.writing = (s.pc t).writing)
    (hpend : ∀ other i, pc.pending other i ↔
      (s.pc t).pending other i ∧ ¬(other = name ∧ i = stripe))
    (hok : pc.Ok e rules s.last)
    (hrecord : RecordOk e rules name stripe record (s.last name)) :
    Inv e rules (s.put t stripe name record pc) := by
  have hget : ∀ other, ∀ i < e.n, (s.put t stripe name record pc).store.record i other =
      if other = name ∧ i = stripe then record else s.store.record i other := fun other i hi =>
    s.store.record_putRecord (h.erasure ▸ hi) name other record
  have hpend' : ∀ t' other i, ((s.put t stripe name record pc).pc t').pending other i ↔
      (s.pc t').pending other i ∧ ¬(other = name ∧ i = stripe) := by
    refine forall_goto (P := fun t' pc => ∀ other i, pc.pending other i ↔
      (s.pc t').pending other i ∧ ¬(other = name ∧ i = stripe)) hpend fun t' ht other i => ?_
    have hnot := Pc.not_pending (h.not_critical_of_ne hold ht) other i
    exact iff_of_false hnot fun hp => hnot hp.1
  have hwrit' : ∀ t', ((s.put t stripe name record pc).pc t').writing = (s.pc t').writing :=
    forall_goto (P := fun t' pc => pc.writing = (s.pc t').writing) hwrit fun _ _ => rfl
  refine ⟨h.erasure, ?_, ?_, h.short, h.removed, fun t' other hw => ?_,
    fun other hname => ?_, fun other i hi hnone => ?_, fun other i hi t' hp => ?_⟩
  · exact forall_goto (P := fun t' pc => pc.critical = true ↔ s.writes = some t')
      (iff_of_true hcrit ((h.holder t).mp hold)) fun t' _ => h.holder t'
  · exact forall_goto (P := fun _ pc => pc.Ok e rules s.last) hok fun t' _ => h.threads t'
  · exact h.busy t' other ((hwrit' t').symm.trans hw)
  · exact h.rest other fun t' hw => hname t' ((hwrit' t').trans hw)
  · rw [hget other i hi]
    by_cases hhere : other = name ∧ i = stripe
    · obtain ⟨rfl, rfl⟩ := hhere
      rw [if_pos ⟨rfl, rfl⟩]
      exact hrecord
    · rw [if_neg hhere]
      exact h.settled other i hi fun t' hp => hnone t' ((hpend' t' other i).mpr ⟨hp, hhere⟩)
  · obtain ⟨hp', hhere⟩ := (hpend' t' other i).mp hp
    rw [hget other i hi, if_neg hhere]
    exact h.unsettled other i hi t' hp'

/-- The lock is let go of when no stripe is left to write. -/
theorem Inv.release {completed : Name → ℕ} (hold : (s.pc t).critical = true)
    (hcrit : pc.critical = false) (hdone : ∀ name, ∀ i < e.n, ¬(s.pc t).pending name i)
    (hok : pc.Ok e rules s.last)
    (hcount : ∀ name, (s.log name).length = completed name) :
    Inv e rules { s.goto t pc with writes := none, completed := completed } := by
  have hnobody : ∀ t', ((s.goto t pc).pc t').critical = false :=
    forall_goto (P := fun _ pc => pc.critical = false) hcrit fun _ => h.not_critical_of_ne hold
  refine ⟨h.erasure, fun t' => ?_, ?_, h.short, h.removed,
    fun t' name hw => absurd hw (Pc.not_writing (hnobody t') name),
    fun name _ => hcount name, fun name i hi _ => h.settled name i hi fun t' hp => ?_,
    fun name i hi t' hp => absurd hp (Pc.not_pending (hnobody t') name i)⟩
  · exact iff_of_false (by rw [hnobody t']; exact Bool.false_ne_true) nofun
  · exact forall_goto (P := fun _ pc => pc.Ok e rules s.last) hok fun t' _ => h.threads t'
  · have ht := h.eq_of_critical hold (Pc.critical_of_pending hp)
    exact hdone name i hi (ht ▸ hp)

/-- A thread that holds the lock and writes nothing may let go of it at any time. -/
theorem Inv.leave (hold : (s.pc t).critical = true) (hwrit : (s.pc t).writing = none)
    (hcrit : pc.critical = false) (hdone : ∀ name, ∀ i < e.n, ¬(s.pc t).pending name i)
    (hok : pc.Ok e rules s.last) : Inv e rules (s.unlock t pc) :=
  h.release hold hcrit hdone hok fun name => h.rest name fun t' hw => by
    rw [h.eq_of_critical hold (Pc.critical_of_writing hw), hwrit] at hw
    cases hw

/-- An insert or remove lets go of the lock. -/
theorem Inv.finish {name : Name} (hwrit : (s.pc t).writing = some name)
    (hdone : ∀ other, ∀ i < e.n, ¬(s.pc t).pending other i) : Inv e rules (s.unlockDone t name) := by
  have hold := Pc.critical_of_writing hwrit
  refine h.release hold rfl hdone trivial fun other => ?_
  by_cases ho : other = name
  · subst ho
    rw [Function.update_self]
    exact h.busy t other hwrit
  · rw [Function.update_of_ne ho]
    refine h.rest other fun t' hw => ?_
    rw [h.eq_of_critical hold (Pc.critical_of_writing hw), hwrit] at hw
    exact ho (Option.some.inj hw).symm

omit [DecidableEq Tid] in
/-- While the lock is free no thread is in a critical section. -/
theorem Inv.not_critical (hfree : s.writes = none) (t' : Tid) : (s.pc t').critical = false := by
  rw [← Bool.not_eq_true, h.holder t', hfree]
  exact nofun

omit [DecidableEq Tid] in
/-- While the lock is free every stripe is settled and every entry completed. -/
theorem Inv.free (hfree : s.writes = none) (name : Name) :
    (s.log name).length = s.completed name ∧ ∀ i < e.n,
      RecordOk e rules name i (s.store.record i name) (s.last name) := by
  refine ⟨h.rest name fun t' => ?_, fun i hi => h.settled name i hi fun t' => ?_⟩
  · exact Pc.not_writing (h.not_critical hfree t') name
  · exact Pc.not_pending (h.not_critical hfree t') name i

/-- An insert or remove takes the lock. -/
theorem Inv.lockFor {name : Name} {entry : Option Bytes} (hfree : s.writes = none)
    (hcrit : pc.critical = true) (hwrit : pc.writing = some name)
    (hpend : ∀ other i, pc.pending other i ↔ other = name)
    (hok : pc.Ok e rules (Function.update s.last name entry))
    (hshort : ∀ w, entry = some w → w.length < u32Bound)
    (hremoved : entry = none → rules.removable name) :
    Inv e rules (s.lockFor t name entry pc) := by
  have hpc : ∀ t', (s.lockFor t name entry pc).pc t' = if t' = t then pc else s.pc t' :=
    fun t' => s.goto_pc t t' pc
  have hlog : ∀ other, (s.lockFor t name entry pc).log other =
      if other = name then s.log name ++ [entry] else s.log other := fun other => by
    simp [System.lockFor, Function.update_apply]
  have hentry : ∀ {other x}, x ∈ (s.lockFor t name entry pc).log other →
      x ∈ s.log other ∨ other = name ∧ x = entry := by
    intro other x hx
    rw [hlog] at hx
    split at hx
    next ho =>
      rw [List.mem_append, List.mem_singleton] at hx
      exact hx.imp (ho ▸ id) fun hx => ⟨ho, hx⟩
    next => exact .inl hx
  have hlast : (s.lockFor t name entry pc).last = Function.update s.last name entry := by
    funext other
    by_cases ho : other = name
    · subst ho
      simp [System.last, hlog]
    · simp [System.last, hlog, ho]
  have hcomp : ∀ other, (s.lockFor t name entry pc).completed other = (s.log other).length :=
    fun other => (h.free hfree other).1.symm
  refine ⟨h.erasure, ?_, ?_, fun other w hw => ?_, fun other hw => ?_,
    fun t' other hw => ?_, fun other hname => ?_, fun other i hi hnone => ?_,
    fun other i hi t' hp => ?_⟩
  · refine forall_goto (P := fun t' pc => pc.critical = true ↔ some t = some t')
      (iff_of_true hcrit rfl) fun t' ht => ?_
    rw [h.not_critical hfree t']
    exact iff_of_false Bool.false_ne_true fun hs => ht (Option.some.inj hs).symm
  · rw [hlast]
    exact forall_goto (P := fun _ pc => pc.Ok e rules (Function.update s.last name entry)) hok
      fun t' _ => (h.threads t').of_not_critical (h.not_critical hfree t')
  · rcases hentry hw with hold | ⟨-, hnew⟩
    · exact h.short other w hold
    · exact hshort w hnew.symm
  · rcases hentry hw with hold | ⟨ho, hnew⟩
    · exact h.removed other hold
    · exact ho ▸ hremoved hnew.symm
  · rw [hpc] at hw
    by_cases ht : t' = t
    · rw [if_pos ht, hwrit, Option.some.injEq] at hw
      rw [hlog, hcomp, if_pos hw.symm, List.length_append, hw]
      rfl
    · rw [if_neg ht] at hw
      exact absurd hw (Pc.not_writing (h.not_critical hfree t') other)
  · have ho : other ≠ name := fun ho => hname t (by rw [hpc, if_pos rfl, hwrit, ho])
    rw [hlog, if_neg ho, hcomp]
  · have ho : other ≠ name := fun ho => hnone t (by rw [hpc, if_pos rfl, hpend]; exact ho)
    rw [hlast, Function.update_of_ne ho]
    exact (h.free hfree other).2 i hi
  · have hbefore : (s.lockFor t name entry pc).before other = s.last other := by
      rw [before, hcomp, hlog]
      by_cases ho : other = name
      · subst ho
        simp [last]
      · simp [ho, last]
    rw [hbefore]
    exact (h.free hfree other).2 i hi

/-- A repair takes the lock. -/
theorem Inv.lockRepair (hfree : s.writes = none) (hcrit : pc.critical = true)
    (hwrit : pc.writing = none) (hpend : ∀ name i, ¬pc.pending name i)
    (hok : pc.Ok e rules s.last) : Inv e rules { s.goto t pc with writes := some t } := by
  have hwrites : ∀ t' name, ((s.goto t pc).pc t').writing ≠ some name :=
    forall_goto (P := fun _ pc => ∀ name, pc.writing ≠ some name) (fun _ => hwrit ▸ nofun)
      fun t' _ => Pc.not_writing (h.not_critical hfree t')
  have hpending : ∀ t' name i, ¬((s.goto t pc).pc t').pending name i :=
    forall_goto (P := fun _ pc => ∀ name i, ¬pc.pending name i) hpend
      fun t' _ => Pc.not_pending (h.not_critical hfree t')
  refine ⟨h.erasure, ?_, ?_, h.short, h.removed,
    fun t' name hw => absurd hw (hwrites t' name), fun name _ => (h.free hfree name).1,
    fun name i hi _ => (h.free hfree name).2 i hi,
    fun name i hi t' hp => absurd hp (hpending t' name i)⟩
  · refine forall_goto (P := fun t' pc => pc.critical = true ↔ some t = some t')
      (iff_of_true hcrit rfl) fun t' ht => ?_
    rw [h.not_critical hfree t']
    exact iff_of_false Bool.false_ne_true fun hs => ht (Option.some.inj hs).symm
  · exact forall_goto (P := fun _ pc => pc.Ok e rules s.last) hok fun t' _ => h.threads t'

omit [DecidableEq Tid] in
/-- A stripe loses a record. -/
theorem Inv.lose {stripe : ℕ} {name : Name} {record : Option Bytes} (hlossy : rules.lossy name)
    (hbad : record.bind (e.shard stripe) = none) :
    Inv e rules { s with store := s.store.putRecord stripe name record } := by
  have hget : ∀ other, ∀ i < e.n, ∀ wire,
      RecordOk e rules other i (s.store.record i other) wire →
        RecordOk e rules other i ((s.store.putRecord stripe name record).record i other) wire := by
    intro other i hi wire hrec
    rw [s.store.record_putRecord (h.erasure ▸ hi)]
    by_cases hhere : other = name ∧ i = stripe
    · rw [if_pos hhere, hhere.1, hhere.2]
      exact Or.inr ⟨hlossy, hbad⟩
    · rw [if_neg hhere]
      exact hrec
  exact ⟨h.erasure, h.holder, h.threads, h.short, h.removed, h.busy, h.rest,
    fun other i hi hnone => hget other i hi _ (h.settled other i hi hnone),
    fun other i hi t' hp => hget other i hi _ (h.unsettled other i hi t' hp)⟩

omit [DecidableEq Tid] in
/-- An insert is refused. -/
theorem Inv.refuse (name : Name) {wire : Bytes} (hw : u32Bound ≤ wire.length) :
    Inv e rules { s with store := s.store.insert name wire } := by
  have hrefused : ∃ why, s.store.insert name wire = s.store.refuse why := ⟨_, if_pos hw⟩
  obtain ⟨why, hwhy⟩ := hrefused
  rw [hwhy]
  exact ⟨h.erasure, h.holder, h.threads, h.short, h.removed, h.busy, h.rest, h.settled, h.unsettled⟩

omit [DecidableEq Tid] in
theorem Inv.short_last (name : Name) (w : Bytes) (hlast : s.last name = some w) :
    w.length < u32Bound := by
  refine h.short name w ?_
  rw [last, Option.join_eq_some_iff] at hlast
  exact List.mem_of_getLast? hlast

end Kinds

omit [NdnName Name] in
/-- Records that are those of a wire or were lost hold nothing else. -/
theorem holdsOnly_of_recordOk {name : Name} {records : List (Option Bytes)} {wire : Option Bytes}
    (hlen : records.length = e.n) (hshort : ∀ w, wire = some w → w.length < u32Bound)
    (hok : ∀ i < e.n, RecordOk e rules name i (records.getD i none) wire) :
    e.HoldsOnly records wire := by
  refine ⟨hlen, hshort, fun i hi => ?_⟩
  rcases hok i hi with hrec | ⟨-, hbad⟩
  · cases wire with
    | none => exact Or.inl (by rw [Erasure.goodShard, hrec]; rfl)
    | some w => exact Or.inr ⟨w, rfl, hrec⟩
  · exact Or.inl hbad

omit [NdnName Name] in
/-- The records a thread reads, one more. -/
theorem recordOk_append {name : Name} {again : List (Option Bytes)} {record wire : Option Bytes}
    (h : ∀ i < again.length, RecordOk e rules name i (again.getD i none) wire)
    (hrec : RecordOk e rules name again.length record wire) :
    ∀ i < (again ++ [record]).length,
      RecordOk e rules name i ((again ++ [record]).getD i none) wire := by
  intro i hi
  rw [List.length_append, List.length_singleton] at hi
  rcases Nat.lt_succ_iff_lt_or_eq.mp hi with hlt | rfl
  · rw [List.getD_append _ _ _ _ hlt]
    exact h i hlt
  · simpa using hrec

omit [NdnName Name] [Sha2] [Codec UInt8] in
/-- A stripe written is no longer pending. -/
theorem pending_next {name other : Name} {next i : ℕ} :
    (name = other ∧ next + 1 ≤ i) ↔ (name = other ∧ next ≤ i) ∧ ¬(other = name ∧ i = next) := by
  constructor
  · rintro ⟨rfl, hi⟩
    exact ⟨⟨rfl, by omega⟩, fun h => by omega⟩
  · rintro ⟨⟨rfl, hi⟩, hne⟩
    exact ⟨rfl, by_contra fun h => hne ⟨rfl, by omega⟩⟩

/-! ### A thread's next step -/

/-- The next step of a thread, by where it is. -/
inductive Next (s : System Tid Name) (t : Tid) : Pc Name → System Tid Name → Prop where
  /-- An insert writes a stripe. -/
  | insertPut {name wire records next record} (hnext : next < s.store.erasure.n)
      (hrecord : records[next]? = some record) :
      Next s t (.insertWrite name wire records next)
        (s.put t next name (some record) (.insertWrite name wire records (next + 1)))
  /-- An insert has no stripe left to write. -/
  | insertDone {name wire records next}
      (hdone : next < s.store.erasure.n → records[next]? = none) :
      Next s t (.insertWrite name wire records next) (s.unlockDone t name)
  /-- A remove clears a stripe. -/
  | removePut {name next} (hnext : next < s.store.erasure.n) :
      Next s t (.removeWrite name next) (s.put t next name none (.removeWrite name (next + 1)))
  /-- A remove has no stripe left to clear. -/
  | removeDone {name next} (hdone : s.store.erasure.n ≤ next) :
      Next s t (.removeWrite name next) (s.unlockDone t name)
  /-- A get reads a stripe. -/
  | getMore {name seen} (hmore : seen.length < s.store.erasure.n) :
      Next s t (.getRead name seen)
        (s.goto t (.getRead name (seen ++ [s.store.record seen.length name])))
  /-- What a get read makes up no packet. -/
  | getNothing {name seen} (hfull : s.store.erasure.n ≤ seen.length)
      (hnone : s.store.erasure.assemble seen = none) :
      Next s t (.getRead name seen) (s.goto t (.returned name seen none))
  /-- It makes up a packet of which no stripe is stale. -/
  | getWhole {name seen got} (hfull : s.store.erasure.n ≤ seen.length)
      (hgot : s.store.erasure.assemble seen = some got) :
      Next s t (.getRead name seen) (s.goto t (.returned name seen (some got.wire)))
  /-- It makes up a packet to be repaired. -/
  | getStale {name seen got} (hfull : s.store.erasure.n ≤ seen.length)
      (hgot : s.store.erasure.assemble seen = some got) :
      Next s t (.getRead name seen) (s.goto t (.repairWait name seen got.wire))
  /-- A repair reads a stripe. -/
  | repairMore {name seen wire again} (hmore : again.length < s.store.erasure.n) :
      Next s t (.repairRead name seen wire again) (s.goto t
        (.repairRead name seen wire (again ++ [s.store.record again.length name])))
  /-- What a repair read leaves nothing to write. -/
  | repairNothing {name seen wire again} :
      Next s t (.repairRead name seen wire again) (s.unlock t (.returned name seen (some wire)))
  /-- A repair knows what to write. -/
  | repairStart {name seen wire again now records} (hfull : s.store.erasure.n ≤ again.length)
      (hnow : s.store.erasure.assemble again = some now)
      (hencode : s.store.erasure.encode now.wire = .ok records) :
      Next s t (.repairRead name seen wire again)
        (s.goto t (.repairWrite name seen wire records now.stale))
  /-- A repair has no stripe left to write. -/
  | repairDone {name seen wire records} :
      Next s t (.repairWrite name seen wire records [])
        (s.unlock t (.returned name seen (some wire)))
  /-- A repair writes a stripe. -/
  | repairPut {name seen wire records i todo} :
      Next s t (.repairWrite name seen wire records (i :: todo))
        (s.put t i name (some (records.getD i [])) (.repairWrite name seen wire records todo))
  /-- A get gives its result back. -/
  | leave {name seen result} : Next s t (.returned name seen result) (s.goto t .idle)

/-- What `runThread` does is a next step. -/
theorem next_of_runThread {s s' : System Tid Name} {t : Tid} {pc : Pc Name}
    (h : s.runThread t pc = some s') : Next s t pc s' := by
  cases pc with
  | idle | insertWait | removeWait | repairWait => simp [runThread] at h
  | insertWrite name wire records next =>
      simp only [runThread] at h
      split at h
      next record hsome =>
        split at hsome
        next hnext =>
          obtain rfl := Option.some.inj h
          exact .insertPut hnext hsome
        next => cases hsome
      next hnone =>
        obtain rfl := Option.some.inj h
        exact .insertDone fun hnext => by rwa [if_pos hnext] at hnone
  | removeWrite name next =>
      simp only [runThread] at h
      split at h
      next hnext =>
        obtain rfl := Option.some.inj h
        exact .removePut hnext
      next hdone =>
        obtain rfl := Option.some.inj h
        exact .removeDone (not_lt.mp hdone)
  | getRead name seen =>
      simp only [runThread] at h
      split at h
      next hmore =>
        obtain rfl := Option.some.inj h
        exact .getMore hmore
      next hfull =>
        split at h
        next hnone =>
          obtain rfl := Option.some.inj h
          exact .getNothing (not_lt.mp hfull) hnone
        next got hgot =>
          split at h
          · obtain rfl := Option.some.inj h
            exact .getWhole (not_lt.mp hfull) hgot
          · obtain rfl := Option.some.inj h
            exact .getStale (not_lt.mp hfull) hgot
  | repairRead name seen wire again =>
      simp only [runThread] at h
      split at h
      next hmore =>
        obtain rfl := Option.some.inj h
        exact .repairMore hmore
      next hfull =>
        split at h
        · obtain rfl := Option.some.inj h
          exact .repairNothing
        next now hnow =>
          split at h
          · obtain rfl := Option.some.inj h
            exact .repairNothing
          · split at h
            next records hencode =>
              obtain rfl := Option.some.inj h
              exact .repairStart (not_lt.mp hfull) hnow hencode
            next =>
              obtain rfl := Option.some.inj h
              exact .repairNothing
  | repairWrite name seen wire records todo =>
      cases todo with
      | nil =>
          obtain rfl := Option.some.inj h
          exact .repairDone
      | cons i todo =>
          obtain rfl := Option.some.inj h
          exact .repairPut
  | returned name seen result =>
      obtain rfl := Option.some.inj h
      exact .leave

/-- What an action does. -/
inductive Acts (s : System Tid Name) : Action Tid Name → System Tid Name → Prop where
  /-- An insert of a wire that is too long is refused. -/
  | insertLong {t name wire} (hlong : u32Bound ≤ wire.length) :
      Acts s (.insert t name wire) { s with store := s.store.insert name wire }
  /-- So is one of a wire that cannot be encoded. -/
  | insertFailed {t name wire why} (hencode : s.store.erasure.encode wire = .error why) :
      Acts s (.insert t name wire) { s with store := s.store.insert name wire }
  /-- A thread that calls `insert` encodes the wire and waits. -/
  | insertCall {t name wire records} (hidle : s.pc t = .idle) (hfits : wire.length < u32Bound)
      (hencode : s.store.erasure.encode wire = .ok records) :
      Acts s (.insert t name wire) (s.goto t (.insertWait name wire records))
  /-- A thread that calls `remove` waits. -/
  | removeCall {t name} (hidle : s.pc t = .idle) :
      Acts s (.remove t name) (s.goto t (.removeWait name))
  /-- A thread that calls `get` starts to read. -/
  | getCall {t name} (hidle : s.pc t = .idle) : Acts s (.get t name) (s.goto t (.getRead name []))
  /-- An insert takes the lock. -/
  | lockInsert {t name wire records} (hfree : s.writes = none)
      (hpc : s.pc t = .insertWait name wire records) :
      Acts s (.lock t) (s.lockFor t name (some wire) (.insertWrite name wire records 0))
  /-- A remove takes the lock. -/
  | lockRemove {t name} (hfree : s.writes = none) (hpc : s.pc t = .removeWait name) :
      Acts s (.lock t) (s.lockFor t name none (.removeWrite name 0))
  /-- A repair takes the lock. -/
  | lockRepair {t name seen wire} (hfree : s.writes = none)
      (hpc : s.pc t = .repairWait name seen wire) :
      Acts s (.lock t) { s.goto t (.repairRead name seen wire []) with writes := some t }
  /-- A thread takes its next step. -/
  | run {t s'} (hnext : Next s t (s.pc t) s') : Acts s (.run t) s'
  /-- A record is lost. -/
  | lose {stripe name record} : Acts s (.lose stripe name record)
      { s with store := s.store.putRecord stripe name record }

/-- What `step` does is what an action does. -/
theorem acts_of_step {s s' : System Tid Name} {a : Action Tid Name} (h : s.step a = some s') :
    Acts s a s' := by
  cases a with
  | insert t name wire =>
      simp only [step] at h
      split at h
      next hidle =>
        split at h
        next hlong =>
          obtain rfl := Option.some.inj h
          exact .insertLong hlong
        next hfits =>
          split at h
          next why hencode =>
            obtain rfl := Option.some.inj h
            exact .insertFailed hencode
          next records hencode =>
            obtain rfl := Option.some.inj h
            exact .insertCall hidle (not_le.mp hfits) hencode
      next => cases h
  | remove t name =>
      simp only [step] at h
      split at h
      next hidle =>
        obtain rfl := Option.some.inj h
        exact .removeCall hidle
      next => cases h
  | get t name =>
      simp only [step] at h
      split at h
      next hidle =>
        obtain rfl := Option.some.inj h
        exact .getCall hidle
      next => cases h
  | lock t =>
      simp only [step] at h
      split at h
      next hfree =>
        cases hpc : s.pc t with
        | insertWait name wire records =>
            rw [hpc] at h
            obtain rfl := Option.some.inj h
            exact .lockInsert hfree hpc
        | removeWait name =>
            rw [hpc] at h
            obtain rfl := Option.some.inj h
            exact .lockRemove hfree hpc
        | repairWait name seen wire =>
            rw [hpc] at h
            obtain rfl := Option.some.inj h
            exact .lockRepair hfree hpc
        | idle | insertWrite | removeWrite | getRead | repairRead | repairWrite | returned =>
            simp [hpc, takeLock] at h
      next => cases h
  | run t => exact .run (next_of_runThread h)
  | lose stripe name record =>
      obtain rfl := Option.some.inj h
      exact .lose

/-! ### Every step -/

section Steps

variable {s s' : System Tid Name} (law : Lawful UInt8 e.k e.n) (h : Inv e rules s)

include law h

/-- A thread's next step keeps the invariant. -/
theorem inv_next {t : Tid} {pc : Pc Name} (hpc : s.pc t = pc) (hnext : Next s t pc s') :
    Inv e rules s' := by
  obtain rfl := h.erasure
  have hthread := h.threads t
  rw [hpc] at hthread
  cases hnext with
  | insertPut hnext hrecord =>
      obtain ⟨rfl, hlast⟩ := hthread
      simp only [List.getElem?_map, List.getElem?_range hnext, Option.map_some,
        Option.some.injEq] at hrecord
      obtain rfl := hrecord
      exact h.put (by rw [hpc]; rfl) rfl (by rw [hpc]; rfl)
        (fun other i => by rw [hpc]; exact pending_next) ⟨rfl, hlast⟩
        (Or.inl (by rw [hlast]; rfl))
  | @insertDone name wire records next hdone =>
      obtain ⟨rfl, -⟩ := hthread
      refine h.finish (by rw [hpc]; rfl) fun other i hi hp => ?_
      rw [hpc] at hp
      have hnone := hdone (lt_of_le_of_lt hp.2 hi)
      simp [lt_of_le_of_lt hp.2 hi] at hnone
  | @removePut name next hnext =>
      have hlast : s.last name = none := hthread
      exact h.put (by rw [hpc]; rfl) rfl (by rw [hpc]; rfl)
        (fun other i => by rw [hpc]; exact pending_next) hlast
        (Or.inl (by rw [hlast]; rfl))
  | removeDone hdone =>
      refine h.finish (by rw [hpc]; rfl) fun other i hi hp => ?_
      rw [hpc] at hp
      exact absurd (lt_of_le_of_lt hp.2 hi) (not_lt.mpr hdone)
  | getMore | getNothing | getWhole | getStale | leave =>
      exact h.goto (by rw [hpc]; rfl) (by rw [hpc]; rfl) (fun _ _ => by rw [hpc]; rfl) trivial
  | @repairMore name seen wire again hmore =>
      obtain ⟨-, hagain⟩ := hthread
      refine h.goto (by rw [hpc]; rfl) (by rw [hpc]; rfl) (fun _ _ => by rw [hpc]; rfl) ⟨?_, ?_⟩
      · rw [List.length_append, List.length_singleton]
        exact hmore
      · refine recordOk_append hagain (h.settled name _ hmore fun t' hp => ?_)
        rw [h.eq_of_critical (by rw [hpc]; rfl) (Pc.critical_of_pending hp), hpc] at hp
        exact hp
  | repairNothing | repairDone =>
      exact h.leave (by rw [hpc]; rfl) (by rw [hpc]; rfl) rfl (fun _ _ _ => by rw [hpc]; exact id)
        trivial
  | @repairStart name seen wire again now records hfull hnow hencode =>
      obtain ⟨hlen, hagain⟩ := hthread
      have hfull' : again.length = s.store.erasure.n := le_antisymm hlen hfull
      rw [Erasure.encode_eq law] at hencode
      obtain rfl := Except.ok.inj hencode
      -- What the repair read under the lock is of the newest wire.
      have honly := holdsOnly_of_recordOk hfull' (h.short_last name) (hfull' ▸ hagain)
      obtain ⟨hlast, -⟩ := honly.assemble_eq_some law hnow
      refine h.goto (by rw [hpc]; rfl) (by rw [hpc]; rfl) (fun _ _ => by rw [hpc]; rfl)
        ⟨fun i hi => ?_, now.wire, hlast, rfl⟩
      obtain ⟨_, _, _, hreb⟩ := Erasure.assemble_cases hnow
      rw [hreb.stale_eq, List.mem_filter, List.mem_range, hfull'] at hi
      exact hi.1
  | @repairPut name seen wire records i todo =>
      obtain ⟨htodo, w, hlast, rfl⟩ := hthread
      have hi := htodo i (List.mem_cons_self ..)
      refine h.put (by rw [hpc]; rfl) rfl (by rw [hpc]; rfl) (fun other j => ?_)
        ⟨fun j hj => htodo j (List.mem_cons_of_mem _ hj), w, hlast, rfl⟩ (Or.inl ?_)
      · rw [hpc]
        exact iff_of_false id fun hp => hp.1
      · rw [hlast]
        simp [hi]

/-- Every allowed step keeps the invariant. -/
theorem inv_step {a : Action Tid Name} (hallowed : a.Allowed e rules) (hs : s.step a = some s') :
    Inv e rules s' := by
  cases acts_of_step hs with
  | insertLong hlong => exact h.refuse _ hlong
  | insertFailed hencode =>
      rw [h.erasure, Erasure.encode_eq law] at hencode
      cases hencode
  | insertCall hidle hfits hencode =>
      rw [h.erasure, Erasure.encode_eq law] at hencode
      obtain rfl := Except.ok.inj hencode
      exact h.goto (by rw [hidle]; rfl) (by rw [hidle]; rfl) (fun _ _ => by rw [hidle]; rfl)
        ⟨hfits, rfl⟩
  | removeCall hidle =>
      exact h.goto (by rw [hidle]; rfl) (by rw [hidle]; rfl) (fun _ _ => by rw [hidle]; rfl)
        hallowed
  | getCall hidle =>
      exact h.goto (by rw [hidle]; rfl) (by rw [hidle]; rfl) (fun _ _ => by rw [hidle]; rfl)
        trivial
  | @lockInsert t name wire records hfree hpc =>
      have hthread := h.threads t
      rw [hpc] at hthread
      refine h.lockFor hfree rfl rfl (fun other i => ?_) ⟨hthread.2, by simp⟩
        (fun w hw => Option.some.inj hw ▸ hthread.1) nofun
      simp [Pc.pending, eq_comm]
  | @lockRemove t name hfree hpc =>
      have hthread := h.threads t
      rw [hpc] at hthread
      refine h.lockFor hfree rfl rfl (fun other i => ?_) (by simp [Pc.Ok]) nofun
        fun _ => hthread
      simp [Pc.pending, eq_comm]
  | lockRepair hfree hpc =>
      exact h.lockRepair hfree rfl rfl (fun _ _ => id) ⟨Nat.zero_le _, nofun⟩
  | run hnext => exact inv_next law h rfl hnext
  | lose => exact h.lose hallowed.1 hallowed.2

end Steps

/-! ### Every run -/

/-- One allowed step. -/
def Moves (e : Erasure) (rules : Rules Name) (s s' : System Tid Name) : Prop :=
  ∃ a : Action Tid Name, a.Allowed e rules ∧ s.step a = some s'

/-- A run of allowed steps. -/
abbrev Runs (e : Erasure) (rules : Rules Name) : System Tid Name → System Tid Name → Prop :=
  Relation.ReflTransGen (Moves e rules)

theorem runs_of_steps :
    ∀ {actions : List (Action Tid Name)} {s s' : System Tid Name},
      (∀ a ∈ actions, a.Allowed e rules) → actions.foldlM step s = some s' → Runs e rules s s'
  | [], _, _, _, h => by
      obtain rfl := Option.some.inj h
      exact .refl
  | a :: actions, s, s', hallowed, h => by
      rw [List.foldlM_cons] at h
      obtain ⟨s₁, hfirst, hrest⟩ := Option.bind_eq_some_iff.mp h
      exact .head ⟨a, hallowed a (List.mem_cons_self ..), hfirst⟩
        (runs_of_steps (fun b hb => hallowed b (List.mem_cons_of_mem _ hb)) hrest)

theorem inv_runs (law : Lawful UInt8 e.k e.n) {s s' : System Tid Name} (h : Inv e rules s)
    (hruns : Runs e rules s s') : Inv e rules s' := by
  induction hruns with
  | refl => exact h
  | tail _ hmove ih =>
      obtain ⟨a, hallowed, hs⟩ := hmove
      exact inv_step law ih hallowed hs

/-- Any name may lose records and be removed. -/
def anything : Rules Name := ⟨fun _ => True, fun _ => True⟩

/-- Repairs never bring a removed or replaced packet back.  In every run, while no
thread is in a critical section, a stripe's record of a name is no good shard or it
is the stripe's record of the wire of the name's last insert in lock order.  If the
last of the inserts and removes was a remove, or there was none, it is no good
shard. -/
theorem repairs_never_resurrect (law : Lawful UInt8 e.k e.n) {s : System Tid Name}
    (hruns : Runs e anything (start e) s) (hfree : s.writes = none) (name : Name) :
    (∀ i < e.n, (s.store.record i name).bind (e.shard i) = none ∨
      ∃ w, s.last name = some w ∧ s.store.record i name = some (e.stripeRecord w i)) ∧
    (s.last name = none → ∀ i < e.n, (s.store.record i name).bind (e.shard i) = none) := by
  have hinv := inv_runs law (inv_start e anything) hruns
  have hrecord : ∀ i < e.n, (s.store.record i name).bind (e.shard i) = none ∨
      ∃ w, s.last name = some w ∧ s.store.record i name = some (e.stripeRecord w i) := by
    intro i hi
    rcases (hinv.free hfree name).2 i hi with hrec | ⟨-, hbad⟩
    · cases hlast : s.last name with
      | none => exact Or.inl (by rw [hrec, hlast]; rfl)
      | some w => exact Or.inr ⟨w, rfl, by rw [hrec, hlast]; rfl⟩
    · exact Or.inl hbad
  refine ⟨hrecord, fun hnone i hi => ?_⟩
  rcases hrecord i hi with hbad | ⟨w, hw, -⟩
  · exact hbad
  · rw [hnone] at hw
    cases hw

/-- Runs of two threads. -/
instance twoThreads : NeZero 2 := ⟨two_ne_zero⟩

/-- A read sees a stripe without its record, and the name is removed before the
read asks for a repair. -/
def lateRepair : List (Action (Fin 2) Components) :=
  [.insert 0 [[8, 1, 98]] [1, 2], .lock 0, .run 0, .run 0, .run 0, .run 0,
    .lose 0 [[8, 1, 98]] none, .get 1 [[8, 1, 98]], .run 1, .run 1, .run 1, .run 1,
    .remove 0 [[8, 1, 98]], .lock 0, .run 0, .run 0, .run 0, .run 0,
    .lock 1, .run 1, .run 1, .run 1, .run 1]

omit [Sha2] [Codec UInt8] in
theorem lateRepair_never_resurrects :
    letI := shortSha2
    letI := xorCodec
    ∃ s, lateRepair.foldlM step (start default) = some s ∧
      ∀ i < 3, (s.store.record i [[8, 1, 98]]).bind (Erasure.shard default i) = none := by
  let _ := shortSha2
  let _ := xorCodec
  have hsome : (lateRepair.foldlM step (start default)).any
      (fun s => s.writes.isNone && (s.last [[8, 1, 98]]).isNone) = true := by decide +kernel
  cases hs : lateRepair.foldlM step (start default) with
  | none => rw [hs] at hsome; cases hsome
  | some s =>
      rw [hs] at hsome
      simp only [Option.any_some, Bool.and_eq_true, Option.isNone_iff_eq_none] at hsome
      have hallowed : ∀ a ∈ lateRepair, a.Allowed default anything := by
        simp [lateRepair, Action.Allowed, anything]
      exact ⟨s, rfl, (repairs_never_resurrect (lawful_xorCodec (Or.inr rfl))
        (runs_of_steps hallowed hs) hsome.1 [[8, 1, 98]]).2 hsome.2⟩

end System

end NdnRepo
