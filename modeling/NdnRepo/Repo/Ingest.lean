import NdnRepo.Lib.Steps
import NdnRepo.Repo.Repo

/-!
# Ingesting a group

`ingestGroup` takes one update after another and fetches its publications in order.
With two phases it acknowledges a publication when a packet is found under its name,
and leaves the update at the first that is not found.

Updates queue up while others are worked on, and acknowledgements advance in
between.  An update starts at most one past what was acknowledged when it was
emitted, so every publication it comes to is at most one past what is acknowledged
then (`Intact`).  What is acknowledged is therefore held, without a hole
(`ack_no_hole`).
-/

namespace NdnRepo

/-- What is used of the `ndn_sync` crate's names. -/
class NdnSync (Name : Type) where
  /-- `svs_data_name`: the name of a publication of a node in a group. -/
  svsDataName : Name → Name → ℕ → Name

export NdnSync (svsDataName)

/-- Publications of a node that are to be fetched. -/
structure SyncUpdate (Publisher Name : Type) where
  /-- Who published them. -/
  publisher : Publisher
  /-- The name they are published under. -/
  name : Name
  /-- The first. -/
  lowSeq : ℕ
  /-- The last. -/
  highSeq : ℕ

/-- Where `ingest_group` is. -/
inductive IngestLoop (Publisher Name : Type) where
  /-- At `updates.recv()`. -/
  | waiting
  /-- At `ingest_publication` of one of an update's publications. -/
  | fetching (update : SyncUpdate Publisher Name) (seq : ℕ)
  /-- At `ack` of it. -/
  | acking (update : SyncUpdate Publisher Name) (seq : ℕ)
  /-- Past the loop. -/
  | done

/-- A group being ingested. -/
structure IngestGroup (Publisher Name Store : Type) where
  /-- The group. -/
  group : Name
  /-- Whether only what is held is acknowledged. -/
  twoPhase : Bool
  /-- The repo's store. -/
  store : Store
  /-- What is acknowledged of each publisher. -/
  acked : Publisher → ℕ
  /-- The updates not taken yet. -/
  updates : List (SyncUpdate Publisher Name)
  /-- Where the loop is. -/
  loop : IngestLoop Publisher Name

/-- What happens to it. -/
inductive IngestEvent (Publisher Name Store : Type) where
  /-- `SvSync` emits an update. -/
  | emit (update : SyncUpdate Publisher Name)
  /-- `updates.recv()` returns. -/
  | recv
  /-- `ingest_publication` returns and has left some store. -/
  | fetched (store : Store)
  /-- `ack` returns. -/
  | acked
  /-- Others have changed the store. -/
  | changed (store : Store)
  /-- `cancelled()` returns, or `updates` is closed. -/
  | cancel

namespace IngestGroup

variable {Publisher Name Store : Type} [NdnName Name] [NdnSync Name] [ScanStore Name Store]

omit [NdnName Name] [NdnSync Name] in
/-- The loop at a publication of an update, or past its last one. -/
def enter (update : SyncUpdate Publisher Name) (seq : ℕ) : IngestLoop Publisher Name :=
  if seq ≤ update.highSeq then .fetching update seq else .waiting

/-- Whether a packet is found under a publication's name. -/
def present (s : IngestGroup Publisher Name Store) (update : SyncUpdate Publisher Name)
    (seq : ℕ) : Bool :=
  (ScanStore.findUnder s.store (svsDataName update.name s.group seq)).isSome

/-- One step.  An event that does not fit where the loop is does nothing. -/
def step [DecidableEq Publisher] (s : IngestGroup Publisher Name Store) :
    IngestEvent Publisher Name Store → IngestGroup Publisher Name Store
  | .emit update => { s with updates := s.updates ++ [update] }
  | .recv =>
      match s.loop, s.updates with
      | .waiting, update :: updates =>
          { s with updates := updates, loop := enter update update.lowSeq }
      | _, _ => s
  | .fetched store =>
      match s.loop with
      | .fetching update seq =>
          let s := { s with store := store }
          if s.twoPhase then
            if s.present update seq then { s with loop := .acking update seq }
            else { s with loop := .waiting }
          else { s with loop := enter update (seq + 1) }
      | _ => s
  | .acked =>
      match s.loop with
      | .acking update seq =>
          { s with
            acked := Function.update s.acked update.publisher (max (s.acked update.publisher) seq)
            loop := enter update (seq + 1) }
      | _ => s
  | .changed store => { s with store := store }
  | .cancel =>
      match s.loop with
      | .waiting => { s with loop := .done }
      | _ => s

/-! ## What the crates promise -/

/-- A store loses nothing on the way to another. -/
def Keeps (store store' : Store) : Prop :=
  ∀ name, (DataStore.get store name).isSome = true → (DataStore.get store' name).isSome = true

/-- What an event is promised to be: an update is of a publisher's own name and starts
at most one past what is acknowledged, and the store loses nothing. -/
def Promised (nameOf : Publisher → Name) (s : IngestGroup Publisher Name Store) :
    IngestEvent Publisher Name Store → Prop
  | .emit update => update.name = nameOf update.publisher ∧
      update.lowSeq ≤ s.acked update.publisher + 1
  | .fetched store => Keeps s.store store
  | .changed store => Keeps s.store store
  | _ => True

/-- A packet is held under a publication's name. -/
def Holds (s : IngestGroup Publisher Name Store) (name : Name) (seq : ℕ) : Prop :=
  ∃ stored wire, hasPrefix stored (svsDataName name s.group seq) = true ∧
    DataStore.get s.store stored = some wire

theorem present_iff (s : IngestGroup Publisher Name Store)
    (update : SyncUpdate Publisher Name) (seq : ℕ) :
    s.present update seq = true ↔ s.Holds update.name seq :=
  ScanStore.findUnder_isSome ..

/-- What is held stays held. -/
theorem Holds.of_keeps {s : IngestGroup Publisher Name Store} {name : Name} {seq : ℕ}
    (h : s.Holds name seq) {store : Store} (hkeeps : Keeps s.store store) :
    ({ s with store := store } : IngestGroup Publisher Name Store).Holds name seq := by
  obtain ⟨stored, wire, hprefix, hget⟩ := h
  obtain ⟨wire', hget'⟩ := Option.isSome_iff_exists.mp (hkeeps stored (by rw [hget]; rfl))
  exact ⟨stored, wire', hprefix, hget'⟩

/-! ## No hole -/

/-- An update and a publication of it that may be come to: at most one past what is
acknowledged. -/
def Near (nameOf : Publisher → Name) (s : IngestGroup Publisher Name Store)
    (update : SyncUpdate Publisher Name) (seq : ℕ) : Prop :=
  update.name = nameOf update.publisher ∧ seq ≤ s.acked update.publisher + 1

/-- What may be said of the place the loop is at. -/
def LoopNear (nameOf : Publisher → Name) (s : IngestGroup Publisher Name Store) :
    IngestLoop Publisher Name → Prop
  | .fetching update seq => s.Near nameOf update seq
  | .acking update seq => s.Near nameOf update seq ∧ s.Holds update.name seq
  | _ => True

/-- What holds all along: nothing is acknowledged past a hole. -/
structure Intact (nameOf : Publisher → Name) (start s : IngestGroup Publisher Name Store) :
    Prop where
  /-- The group stays the same. -/
  group : s.group = start.group
  /-- So does the commit discipline. -/
  twoPhase : s.twoPhase = true
  /-- What has been acknowledged is held. -/
  held : ∀ publisher seq, start.acked publisher < seq → seq ≤ s.acked publisher →
    s.Holds (nameOf publisher) seq
  /-- The updates start at most one past what is acknowledged. -/
  near : ∀ update ∈ s.updates, s.Near nameOf update update.lowSeq
  /-- The loop is at most one past it. -/
  loop : s.LoopNear nameOf s.loop

variable {nameOf : Publisher → Name} {start s : IngestGroup Publisher Name Store}

theorem loopNear_enter {update : SyncUpdate Publisher Name} {seq : ℕ}
    (h : s.Near nameOf update seq) : s.LoopNear nameOf (enter update seq) := by
  rw [enter]
  split
  · exact h
  · trivial

theorem Intact.changed (h : Intact nameOf start s) {store : Store} (hkeeps : Keeps s.store store) :
    Intact nameOf start { s with store := store } := by
  refine ⟨h.group, h.twoPhase, fun p seq hlow hhigh => (h.held p seq hlow hhigh).of_keeps hkeeps,
    h.near, ?_⟩
  have hloop := h.loop
  cases hs : s.loop with
  | waiting => trivial
  | done => trivial
  | fetching update seq => rw [hs] at hloop; exact hloop
  | acking update seq =>
      rw [hs] at hloop
      exact ⟨hloop.1, hloop.2.of_keeps hkeeps⟩

variable [DecidableEq Publisher]

/-- Acknowledging a held publication that is at most one past. -/
theorem Intact.ack (h : Intact nameOf start s) {update : SyncUpdate Publisher Name} {seq : ℕ}
    (hs : s.loop = .acking update seq) : Intact nameOf start (s.step .acked) := by
  have hloop := h.loop
  rw [hs] at hloop
  obtain ⟨⟨hname, hseq⟩, hheld⟩ := hloop
  have hmono : ∀ p, s.acked p ≤ (s.step .acked).acked p := by
    intro p
    simp only [step, hs, Function.update_apply]
    split
    next heq => rw [heq]; exact le_max_left ..
    next => exact le_rfl
  have hstep : s.step .acked = { s with
      acked := (s.step .acked).acked, loop := enter update (seq + 1) } := by
    simp only [step, hs]
  have hnear : ∀ {u : SyncUpdate Publisher Name} {n : ℕ}, s.Near nameOf u n →
      (s.step .acked).Near nameOf u n :=
    fun hn => ⟨hn.1, hn.2.trans (Nat.add_le_add_right (hmono _) 1)⟩
  have hself : (s.step .acked).acked update.publisher = max (s.acked update.publisher) seq := by
    simp [step, hs]
  refine ⟨?_, ?_, fun p n hlow hhigh => ?_, fun u hu => hnear (h.near u ?_), ?_⟩
  · rw [hstep]; exact h.group
  · rw [hstep]; exact h.twoPhase
  · have hsame : (s.step .acked).Holds (nameOf p) n ↔ s.Holds (nameOf p) n := by
      rw [hstep]; rfl
    rw [hsame]
    rcases le_or_gt n (s.acked p) with hold | hnew
    · exact h.held p n hlow hold
    · -- only the publication just acknowledged is new
      have hp : p = update.publisher := by
        by_contra hne
        have hother : (s.step .acked).acked p = s.acked p := by simp [step, hs, hne]
        omega
      subst hp
      obtain rfl : n = seq := by omega
      rw [← hname]
      exact hheld
  · rw [hstep] at hu; exact hu
  · rw [hstep]
    refine loopNear_enter ⟨hname, ?_⟩
    have hle := le_max_right (s.acked update.publisher) seq
    show seq + 1 ≤ (s.step .acked).acked update.publisher + 1
    omega

/-- Every promised step keeps it. -/
theorem Intact.step (h : Intact nameOf start s) :
    ∀ {e : IngestEvent Publisher Name Store}, s.Promised nameOf e → Intact nameOf start (s.step e)
  | .emit update, hp => by
      refine ⟨h.group, h.twoPhase, h.held, fun u hu => ?_, h.loop⟩
      rcases List.mem_append.mp hu with hu | hu
      · exact h.near u hu
      · obtain rfl := List.mem_singleton.mp hu
        exact hp
  | .recv, _ => by
      simp only [IngestGroup.step]
      split
      next update updates hs hu =>
        have hnear := h.near
        rw [hu] at hnear
        exact ⟨h.group, h.twoPhase, h.held, fun u hmem => hnear u (List.mem_cons_of_mem _ hmem),
          loopNear_enter (hnear update (List.mem_cons_self ..))⟩
      next => exact h
  | .fetched store, hp => by
      have hnew := h.changed hp
      have hloop := h.loop
      simp only [IngestGroup.step]
      split
      next update seq hs =>
        rw [hs] at hloop
        rw [if_pos h.twoPhase]
        split
        next hpresent =>
          exact ⟨hnew.group, hnew.twoPhase, hnew.held, hnew.near,
            hloop, (present_iff ..).mp hpresent⟩
        next => exact ⟨hnew.group, hnew.twoPhase, hnew.held, hnew.near, trivial⟩
      next => exact h
  | .acked, _ => by
      cases hs : s.loop with
      | acking update seq => exact h.ack hs
      | waiting => simpa only [IngestGroup.step, hs] using h
      | done => simpa only [IngestGroup.step, hs] using h
      | fetching update seq => simpa only [IngestGroup.step, hs] using h
  | .changed store, hp => h.changed hp
  | .cancel, _ => by
      simp only [IngestGroup.step]
      split
      next => exact ⟨h.group, h.twoPhase, h.held, h.near, trivial⟩
      next => exact h

/-- With two phases, what has been acknowledged of a publisher is held without a hole,
in every state of every run. -/
theorem ack_no_hole (hidle : start.loop = .waiting ∧ start.updates = [])
    (htwo : start.twoPhase = true) {events : List (IngestEvent Publisher Name Store)}
    (hpromised : Steps.Admits IngestGroup.step (Promised nameOf) start events) :
    ∀ s ∈ Steps.states IngestGroup.step start events, ∀ publisher seq,
      start.acked publisher < seq → seq ≤ s.acked publisher →
        ∃ stored wire, hasPrefix stored (svsDataName (nameOf publisher) start.group seq) = true ∧
          DataStore.get s.store stored = some wire := by
  have hstart : Intact nameOf start start := by
    refine ⟨rfl, htwo, fun p seq hlow hhigh => absurd hhigh (not_le.mpr hlow), ?_, ?_⟩
    · rw [hidle.2]
      exact fun u hu => absurd hu List.not_mem_nil
    · rw [hidle.1]
      trivial
  intro s hs publisher seq hlow hhigh
  have hintact : Intact nameOf start s :=
    Steps.invariant (fun _ _ h hp => h.step hp) hstart hpromised s hs
  rw [← hintact.group]
  exact hintact.held publisher seq hlow hhigh

end IngestGroup

/-- A publication is named by its node, its group and its number. -/
instance : NdnSync Components where
  svsDataName := fun name group seq => name ++ group ++ [component 58 (nniOctets seq)]

/-- A group no publication of which is acknowledged. -/
def freshGroup : IngestGroup ℕ Components (FjallStore Components) :=
  ⟨[[8, 1, 103]], true, .empty, fun _ => 0, [], .waiting⟩

/-- A store with one publication of the group. -/
def onePublication : FjallStore Components :=
  FjallStore.empty.insert (svsDataName [[8, 1, 97]] [[8, 1, 103]] 1) [1]

/-- Of two publications the first is stored and the second rejected. -/
def rejectSecond : List (IngestEvent ℕ Components (FjallStore Components)) :=
  [.emit ⟨0, [[8, 1, 97]], 1, 2⟩, .recv, .fetched onePublication, .acked, .fetched onePublication]

theorem ack_no_hole_rejectSecond :
    (Steps.run IngestGroup.step freshGroup rejectSecond).acked 0 = 1 ∧
      ∃ stored wire, hasPrefix stored
          (svsDataName ([[8, 1, 97]] : Components) [[8, 1, 103]] 1) = true ∧
        DataStore.get (Steps.run IngestGroup.step freshGroup rejectSecond).store stored =
          some wire := by
  have hacked : (Steps.run IngestGroup.step freshGroup rejectSecond).acked 0 = 1 := by
    decide +kernel
  have hpromised : Steps.Admits IngestGroup.step
      (IngestGroup.Promised fun _ : ℕ => ([[8, 1, 97]] : Components)) freshGroup rejectSecond := by
    refine ⟨⟨rfl, by decide⟩, trivial, fun name h => ?_, trivial, fun name h => ?_, trivial⟩
    · exact absurd h (by simp [freshGroup, IngestGroup.step, DataStore.get])
    · exact h
  refine ⟨hacked, ?_⟩
  exact IngestGroup.ack_no_hole ⟨rfl, rfl⟩ rfl hpromised _ (Steps.run_mem_states ..) 0 1
    (by decide) hacked.ge

end NdnRepo
