import NdnRepo.Repo.Ingest

/-!
# Ingestion gets on

An update that is emitted is worked on once those before it are done.  With two phases its
publications are then acknowledged one after another, up to its last or to the first that
is fetched and not found.  This holds of every update, however the updates of others and
what else writes to the store come in between (`settles`).

Each step of the loop takes an update, returns from a fetch or returns from an
acknowledgement.  A publication takes two of these and an update one, so the loop makes no
more steps than the updates call for (`own_steps_le`).
-/

namespace NdnRepo

open Steps

namespace IngestGroup

variable {Publisher Name Store : Type} [NdnName Name] [NdnSync Name] [ScanStore Name Store]
  [DecidableEq Publisher]

/-! ## Every update settles -/

/-- In a run, a publication of an update is fetched and not found. -/
def Missed (start : IngestGroup Publisher Name Store)
    (events : List (IngestEvent Publisher Name Store)) (update : SyncUpdate Publisher Name)
    (seq : ℕ) : Prop :=
  ∃ before store rest, events = before ++ .fetched store :: rest ∧
    (run step start before).loop = .fetching update seq ∧
    ScanStore.findUnder store (svsDataName update.name start.group seq) = none

omit [NdnName Name] [NdnSync Name] [ScanStore Name Store] [DecidableEq Publisher] in
/-- The publications of an update are acknowledged up to one. -/
def AckedTo (s : IngestGroup Publisher Name Store) (update : SyncUpdate Publisher Name)
    (stop : ℕ) : Prop :=
  ∀ seq, update.lowSeq ≤ seq → seq < stop → seq ≤ s.acked update.publisher

/-- An update is done with: all of it is acknowledged, or up to a publication that was not
found. -/
def Settled (start : IngestGroup Publisher Name Store)
    (events : List (IngestEvent Publisher Name Store)) (update : SyncUpdate Publisher Name) :
    Prop :=
  ∃ stop, (run step start events).AckedTo update stop ∧
    (update.highSeq < stop ∨
      update.lowSeq ≤ stop ∧ stop ≤ update.highSeq ∧ Missed start events update stop)

/-- What becomes of an update in a run: it waits, it is worked on, or it is done with. -/
inductive Tracked (start : IngestGroup Publisher Name Store)
    (events : List (IngestEvent Publisher Name Store)) (update : SyncUpdate Publisher Name) :
    Prop where
  /-- It is not taken yet. -/
  | waits (before after : List (SyncUpdate Publisher Name))
      (hupdates : (run step start events).updates = before ++ update :: after)
  /-- A publication of it is fetched. -/
  | fetched (seq : ℕ) (hloop : (run step start events).loop = .fetching update seq)
      (hlow : update.lowSeq ≤ seq) (hhigh : seq ≤ update.highSeq)
      (hacked : (run step start events).AckedTo update seq)
  /-- A publication of it is acknowledged. -/
  | acked (seq : ℕ) (hloop : (run step start events).loop = .acking update seq)
      (hlow : update.lowSeq ≤ seq) (hhigh : seq ≤ update.highSeq)
      (hacked : (run step start events).AckedTo update seq)
  /-- It is done with. -/
  | settled (h : Settled start events update)

variable {start s : IngestGroup Publisher Name Store}
  {events : List (IngestEvent Publisher Name Store)} {update : SyncUpdate Publisher Name}

/-- No step takes an acknowledgement back. -/
theorem acked_le_step (s : IngestGroup Publisher Name Store)
    (e : IngestEvent Publisher Name Store) (publisher : Publisher) :
    s.acked publisher ≤ (s.step e).acked publisher := by
  cases e with
  | emit update => exact le_rfl
  | changed store => exact le_rfl
  | recv =>
      rw [step]
      split <;> exact le_rfl
  | fetched store =>
      rw [step]
      split
      · simp only
        split
        · split <;> exact le_rfl
        · exact le_rfl
      · exact le_rfl
  | cancel =>
      rw [step]
      split <;> exact le_rfl
  | acked =>
      rw [step]
      split
      next update seq hloop =>
        simp only [Function.update_apply]
        split
        next heq => rw [heq]; exact le_max_left ..
        next => exact le_rfl
      next => exact le_rfl

theorem AckedTo.step {stop : ℕ} (h : s.AckedTo update stop)
    (e : IngestEvent Publisher Name Store) : (s.step e).AckedTo update stop :=
  fun seq hlow hstop => (h seq hlow hstop).trans (s.acked_le_step e _)

/-- The group and the commit discipline stay. -/
theorem constant_run (start : IngestGroup Publisher Name Store)
    (events : List (IngestEvent Publisher Name Store)) :
    (run step start events).group = start.group ∧
      (run step start events).twoPhase = start.twoPhase := by
  induction events generalizing start with
  | nil => exact ⟨rfl, rfl⟩
  | cons e events ih =>
      have hstep : (start.step e).group = start.group ∧
          (start.step e).twoPhase = start.twoPhase := by
        cases e with
        | emit update => exact ⟨rfl, rfl⟩
        | changed store => exact ⟨rfl, rfl⟩
        | recv => rw [step]; split <;> exact ⟨rfl, rfl⟩
        | acked => rw [step]; split <;> exact ⟨rfl, rfl⟩
        | cancel => rw [step]; split <;> exact ⟨rfl, rfl⟩
        | fetched store =>
            rw [step]
            split
            · simp only
              split
              · split <;> exact ⟨rfl, rfl⟩
              · exact ⟨rfl, rfl⟩
            · exact ⟨rfl, rfl⟩
      obtain ⟨hgroup, htwo⟩ := ih (start.step e)
      exact ⟨hgroup.trans hstep.1, htwo.trans hstep.2⟩

theorem run_snoc (start : IngestGroup Publisher Name Store)
    (events : List (IngestEvent Publisher Name Store)) (e : IngestEvent Publisher Name Store) :
    run step start (events ++ [e]) = (run step start events).step e := by
  rw [run_append]
  rfl

theorem Missed.snoc {seq : ℕ} (h : Missed start events update seq)
    (e : IngestEvent Publisher Name Store) : Missed start (events ++ [e]) update seq := by
  obtain ⟨before, store, rest, heq, hmissed⟩ := h
  exact ⟨before, store, rest ++ [e], by rw [heq]; simp, hmissed⟩

/-- What is done with stays so. -/
theorem Settled.snoc (h : Settled start events update) (e : IngestEvent Publisher Name Store) :
    Settled start (events ++ [e]) update := by
  obtain ⟨stop, hacked, hend⟩ := h
  refine ⟨stop, ?_, hend.imp id fun ⟨hlow, hhigh, hmissed⟩ => ⟨hlow, hhigh, hmissed.snoc e⟩⟩
  rw [run_snoc]
  exact hacked.step e

/-- The loop at a publication of an update that is acknowledged up to it. -/
theorem Tracked.enter (seq : ℕ) (hloop : (run IngestGroup.step start events).loop =
    IngestGroup.enter update seq) (hlow : update.lowSeq ≤ seq)
    (hacked : (run IngestGroup.step start events).AckedTo update seq) :
    Tracked start events update := by
  rw [IngestGroup.enter] at hloop
  split at hloop
  next hhigh => exact .fetched seq hloop hlow hhigh hacked
  next hpast => exact .settled ⟨seq, hacked, .inl (not_le.mp hpast)⟩

/-- An update that waits is taken or waits on. -/
theorem Tracked.of_waits {before after : List (SyncUpdate Publisher Name)}
    (hupdates : (run IngestGroup.step start events).updates = before ++ update :: after)
    (e : IngestEvent Publisher Name Store) : Tracked start (events ++ [e]) update := by
  have hsnoc := run_snoc start events e
  cases e with
  | emit other =>
      refine .waits before (after ++ [other]) ?_
      rw [hsnoc, IngestGroup.step, hupdates, List.append_assoc, List.cons_append]
  | changed store => exact .waits before after (by rw [hsnoc]; exact hupdates)
  | recv =>
      cases hloop : (run IngestGroup.step start events).loop with
      | waiting =>
          cases before with
          | nil =>
              refine .enter update.lowSeq ?_ le_rfl ?_
              · rw [hsnoc, IngestGroup.step, hloop, hupdates]
                rfl
              · exact fun seq hlow hlt => absurd hlt (not_lt.mpr hlow)
          | cons first before =>
              refine .waits before after ?_
              rw [hsnoc, IngestGroup.step, hloop, hupdates]
              rfl
      | fetching other seq => exact .waits before after (by simpa [hsnoc, IngestGroup.step, hloop])
      | acking other seq => exact .waits before after (by simpa [hsnoc, IngestGroup.step, hloop])
      | done => exact .waits before after (by simpa [hsnoc, IngestGroup.step, hloop])
  | fetched store =>
      refine .waits before after ?_
      rw [hsnoc, ← hupdates, IngestGroup.step]
      split
      · simp only
        split
        · split <;> rfl
        · rfl
      · rfl
  | acked =>
      refine .waits before after ?_
      rw [hsnoc, ← hupdates, IngestGroup.step]
      split <;> rfl
  | cancel =>
      refine .waits before after ?_
      rw [hsnoc, ← hupdates, IngestGroup.step]
      split <;> rfl

/-- A publication that is fetched is found and acknowledged next, or missed. -/
theorem Tracked.of_fetching (htwo : start.twoPhase = true) {seq : ℕ}
    (hloop : (run IngestGroup.step start events).loop = .fetching update seq)
    (hlow : update.lowSeq ≤ seq) (hhigh : seq ≤ update.highSeq)
    (hacked : (run IngestGroup.step start events).AckedTo update seq)
    (e : IngestEvent Publisher Name Store) : Tracked start (events ++ [e]) update := by
  have hsnoc := run_snoc start events e
  have hacked' : (run IngestGroup.step start (events ++ [e])).AckedTo update seq := by
    rw [hsnoc]
    exact hacked.step e
  have hstays : (run IngestGroup.step start (events ++ [e])).loop = .fetching update seq →
      Tracked start (events ++ [e]) update := fun h => .fetched seq h hlow hhigh hacked'
  cases e with
  | emit other => exact hstays (by simpa [hsnoc, IngestGroup.step])
  | changed store => exact hstays (by simpa [hsnoc, IngestGroup.step])
  | recv => exact hstays (by simp [hsnoc, IngestGroup.step, hloop])
  | acked => exact hstays (by simp [hsnoc, IngestGroup.step, hloop])
  | cancel => exact hstays (by simp [hsnoc, IngestGroup.step, hloop])
  | fetched store =>
      obtain ⟨hgroup, htwo'⟩ := constant_run start events
      cases hfound : ScanStore.findUnder store (svsDataName update.name start.group seq) with
      | some wire =>
          refine .acked seq ?_ hlow hhigh hacked'
          simp [hsnoc, IngestGroup.step, hloop, htwo', htwo, present, hgroup, hfound]
      | none =>
          exact .settled ⟨seq, hacked', .inr ⟨hlow, hhigh, events, store, [], rfl, hloop, hfound⟩⟩

/-- A publication whose acknowledgement returns is acknowledged, and the next one is come
to. -/
theorem Tracked.of_acking {seq : ℕ}
    (hloop : (run IngestGroup.step start events).loop = .acking update seq)
    (hlow : update.lowSeq ≤ seq) (hhigh : seq ≤ update.highSeq)
    (hacked : (run IngestGroup.step start events).AckedTo update seq)
    (e : IngestEvent Publisher Name Store) : Tracked start (events ++ [e]) update := by
  have hsnoc := run_snoc start events e
  have hacked' : (run IngestGroup.step start (events ++ [e])).AckedTo update seq := by
    rw [hsnoc]
    exact hacked.step e
  have hstays : (run IngestGroup.step start (events ++ [e])).loop = .acking update seq →
      Tracked start (events ++ [e]) update := fun h => .acked seq h hlow hhigh hacked'
  cases e with
  | emit other => exact hstays (by simpa [hsnoc, IngestGroup.step])
  | changed store => exact hstays (by simpa [hsnoc, IngestGroup.step])
  | recv => exact hstays (by simp [hsnoc, IngestGroup.step, hloop])
  | fetched store => exact hstays (by simp [hsnoc, IngestGroup.step, hloop])
  | cancel => exact hstays (by simp [hsnoc, IngestGroup.step, hloop])
  | acked =>
      refine .enter (seq + 1) ?_ (hlow.trans (Nat.le_succ seq)) fun n hn hlt => ?_
      · rw [hsnoc, IngestGroup.step, hloop]
      · rcases Nat.lt_succ_iff_lt_or_eq.mp hlt with hold | rfl
        · exact hacked' n hn hold
        · rw [hsnoc, IngestGroup.step, hloop]
          simp

/-- An update is waiting, worked on or done with after every step. -/
theorem Tracked.snoc (htwo : start.twoPhase = true) (h : Tracked start events update)
    (e : IngestEvent Publisher Name Store) : Tracked start (events ++ [e]) update := by
  cases h with
  | waits before after hupdates => exact .of_waits hupdates e
  | fetched seq hloop hlow hhigh hacked =>
      exact .of_fetching htwo hloop hlow hhigh hacked e
  | acked seq hloop hlow hhigh hacked => exact .of_acking hloop hlow hhigh hacked e
  | settled h => exact .settled (h.snoc e)

theorem tracked_run (s : IngestGroup Publisher Name Store) (htwo : s.twoPhase = true)
    (update : SyncUpdate Publisher Name) (events : List (IngestEvent Publisher Name Store)) :
    Tracked (s.step (.emit update)) events update := by
  induction events using List.reverseRecOn with
  | nil => exact .waits s.updates [] rfl
  | append_singleton events e ih =>
      have htwo' : (s.step (.emit update)).twoPhase = true := htwo
      exact ih.snoc htwo' e

/-- Once there is nothing left to do, the update is done with. -/
theorem Tracked.settled_of_idle (h : Tracked start events update)
    (hloop : (run IngestGroup.step start events).loop = .waiting)
    (hupdates : (run IngestGroup.step start events).updates = []) :
    Settled start events update := by
  cases h with
  | waits before after h =>
      rw [hupdates] at h
      exact absurd h (by simp)
  | fetched seq h => cases hloop.symm.trans h
  | acked seq h => cases hloop.symm.trans h
  | settled h => exact h

/-! ## The loop's steps -/

omit [NdnName Name] [NdnSync Name] [ScanStore Name Store] [DecidableEq Publisher] in
/-- An event is a step of the loop. -/
def own (s : IngestGroup Publisher Name Store) (e : IngestEvent Publisher Name Store) : Bool :=
  match e, s.loop with
  | .recv, .waiting => !s.updates.isEmpty
  | .fetched _, .fetching _ _ => true
  | .acked, .acking _ _ => true
  | _, _ => false

/-- The steps an update calls for: one to take it, and two for each publication. -/
def cost (update : SyncUpdate Publisher Name) : ℕ := 1 + 2 * (update.highSeq + 1 - update.lowSeq)

/-- The steps an event calls for. -/
def brings : IngestEvent Publisher Name Store → ℕ
  | .emit update => cost update
  | _ => 0

/-- The steps left of the update that is worked on. -/
def left : IngestLoop Publisher Name → ℕ
  | .fetching update seq => 2 * (update.highSeq - seq) + 2
  | .acking update seq => 2 * (update.highSeq - seq) + 1
  | .waiting => 0
  | .done => 0

/-- The steps left. -/
def work (s : IngestGroup Publisher Name Store) : ℕ := (s.updates.map cost).sum + left s.loop

omit [NdnName Name] [NdnSync Name] [ScanStore Name Store] [DecidableEq Publisher] in
theorem left_enter (update : SyncUpdate Publisher Name) (seq : ℕ) :
    left (enter update seq) = 2 * (update.highSeq + 1 - seq) := by
  rw [enter]
  split
  next hle =>
    rw [left]
    omega
  next hgt =>
    rw [left]
    omega

/-- Each step of the loop leaves one less. -/
theorem own_step_le (s : IngestGroup Publisher Name Store)
    (e : IngestEvent Publisher Name Store) :
    (s.own e).toNat + (s.step e).work ≤ s.work + brings e := by
  cases e with
  | emit update => simp [own, work, step, brings]; omega
  | changed store => simp [own, work, step, brings]
  | cancel =>
      cases hloop : s.loop <;> simp [own, work, step, brings, hloop, left]
  | recv =>
      cases hloop : s.loop with
      | waiting =>
          cases hupdates : s.updates with
          | nil => simp [own, work, step, brings, hloop, hupdates, left]
          | cons update updates =>
              simp only [own, work, step, brings, hloop, hupdates, left_enter]
              simp [cost, left]
              omega
      | fetching update seq => simp [own, work, step, brings, hloop]
      | acking update seq => simp [own, work, step, brings, hloop]
      | done => simp [own, work, step, brings, hloop]
  | fetched store =>
      cases hloop : s.loop with
      | fetching update seq =>
          simp only [own, step, brings, hloop]
          split
          · split
            · simp [work, left, hloop]
              omega
            · simp [work, left, hloop]
              omega
          · simp only [work, hloop, left_enter]
            simp [left]
            omega
      | waiting => simp [own, work, step, brings, hloop]
      | acking update seq => simp [own, work, step, brings, hloop]
      | done => simp [own, work, step, brings, hloop]
  | acked =>
      cases hloop : s.loop with
      | acking update seq =>
          simp only [own, work, step, brings, hloop, left_enter]
          simp [left]
          omega
      | waiting => simp [own, work, step, brings, hloop]
      | fetching update seq => simp [own, work, step, brings, hloop]
      | done => simp [own, work, step, brings, hloop]

/-- A group with two phases that has nothing to do, and any run of it.  Its loop makes no
more steps than the updates emitted call for.  And where it has nothing to do again, every
update emitted is done with: its publications are acknowledged, all of them or up to one that
was fetched since and not found. -/
theorem gets_on (start : IngestGroup Publisher Name Store) (htwo : start.twoPhase = true)
    (hidle : start.loop = .waiting ∧ start.updates = [])
    (events : List (IngestEvent Publisher Name Store)) :
    count step own start events ≤ (events.map brings).sum ∧
      ((run step start events).loop = .waiting → (run step start events).updates = [] →
        ∀ before update after, events = before ++ .emit update :: after →
          Settled (run step start (before ++ [.emit update])) after update) := by
  constructor
  · have hle := count_le own_step_le start events
    have hnone : start.work = 0 := by simp [work, hidle.1, hidle.2, left]
    omega
  · intro hloop hupdates before update after heq
    subst heq
    rw [run_append, run_cons] at hloop hupdates
    rw [run_snoc]
    have htwo' := (constant_run start before).2.trans htwo
    exact (tracked_run _ htwo' update after).settled_of_idle hloop hupdates

end IngestGroup

/-- The second of two publications is missing, and then there is nothing left to do. -/
theorem IngestGroup.gets_on_rejectSecond :
    count step own freshGroup rejectSecond = 4 ∧
      Settled (run step freshGroup ([] ++ [.emit ⟨0, [[8, 1, 97]], 1, 2⟩]))
        [.recv, .fetched onePublication, .acked, .fetched onePublication]
        ⟨0, [[8, 1, 97]], 1, 2⟩ := by
  have hloop : (run step freshGroup rejectSecond).loop = .waiting := by rfl
  have hupdates : (run step freshGroup rejectSecond).updates = [] :=
    List.isEmpty_iff.mp (by decide +kernel)
  exact ⟨by decide +kernel, (gets_on freshGroup rfl ⟨rfl, rfl⟩ rejectSecond).2 hloop hupdates [] _ _
    rfl⟩

end NdnRepo
