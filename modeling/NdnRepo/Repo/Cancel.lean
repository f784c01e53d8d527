import NdnRepo.Repo.Ingest

/-!
# Cancelling the ingestion of a group

A group's token can be cancelled at any moment.  `ingestGroup` looks at it only where
it waits for the next update, and where an update is waiting too, either branch of the
`select!` may be taken.

So what is in progress when the token is cancelled is not always the last: the rest of
the update's range is fetched, and further updates may be.  Nothing new is started
exactly if there is nothing left to do (`stops_iff_spent`).
-/

namespace NdnRepo

/-- A group being ingested, and its token. -/
structure CancellableGroup (Publisher Name Store : Type) where
  /-- The group. -/
  ingest : IngestGroup Publisher Name Store
  /-- Where the loop was when the token was cancelled, if it was. -/
  cancelledAt : Option (IngestLoop Publisher Name)

/-- What happens to it. -/
inductive CancelEvent (Publisher Name Store : Type) where
  /-- `stop_group`, or the service shuts down. -/
  | cancel
  /-- A step of the ingestion. -/
  | ingest (e : IngestEvent Publisher Name Store)

namespace IngestGroup

variable {Publisher Name Store : Type} [NdnName Name] [NdnSync Name] [ScanStore Name Store]
  [DecidableEq Publisher]

/-- A step calls `ingest_publication`. -/
def Requests (s : IngestGroup Publisher Name Store) (e : IngestEvent Publisher Name Store)
    (update : SyncUpdate Publisher Name) (seq : ℕ) : Prop :=
  s.loop ≠ .fetching update seq ∧ (s.step e).loop = .fetching update seq

/-- A step calls `ack`. -/
def Acks (s : IngestGroup Publisher Name Store) (e : IngestEvent Publisher Name Store)
    (update : SyncUpdate Publisher Name) (seq : ℕ) : Prop :=
  s.loop ≠ .acking update seq ∧ (s.step e).loop = .acking update seq

/-- A step finds nothing left to fetch: an update taken is empty, and the publication
whose fetch or acknowledgement returns is the last of its range. -/
def Spent (s : IngestGroup Publisher Name Store) : IngestEvent Publisher Name Store → Prop
  | .recv => ∀ update updates, s.loop = .waiting → s.updates = update :: updates →
      update.highSeq < update.lowSeq
  | .fetched _ => ∀ update seq, s.loop = .fetching update seq → s.twoPhase = false →
      update.highSeq ≤ seq
  | .acked => ∀ update seq, s.loop = .acking update seq → update.highSeq ≤ seq
  | _ => True

omit [NdnName Name] [NdnSync Name] [ScanStore Name Store] [DecidableEq Publisher] in
theorem enter_eq_fetching {update update' : SyncUpdate Publisher Name} {seq seq' : ℕ} :
    enter update seq = .fetching update' seq' ↔
      seq ≤ update.highSeq ∧ update = update' ∧ seq = seq' := by
  rw [enter]
  split
  next hle => simp [hle]
  next hgt => simp [hgt]

/-- What a step does to the loop. -/
theorem loop_step (s : IngestGroup Publisher Name Store)
    (e : IngestEvent Publisher Name Store) :
    (s.step e).loop = s.loop ∨ (s.step e).loop = .done ∨
    (∃ update updates, e = .recv ∧ s.loop = .waiting ∧ s.updates = update :: updates ∧
      (s.step e).loop = enter update update.lowSeq) ∨
    (∃ store update seq, e = .fetched store ∧ s.loop = .fetching update seq ∧
      ((s.twoPhase = true ∧
          ((s.step e).loop = .acking update seq ∨ (s.step e).loop = .waiting)) ∨
        (s.twoPhase = false ∧ (s.step e).loop = enter update (seq + 1)))) ∨
    (∃ update seq, e = .acked ∧ s.loop = .acking update seq ∧
      (s.step e).loop = enter update (seq + 1)) := by
  cases e with
  | emit update => exact Or.inl rfl
  | changed store => exact Or.inl rfl
  | recv =>
      simp only [step]
      split
      next update updates hloop hupdates =>
        exact Or.inr (Or.inr (Or.inl ⟨update, updates, trivial, hloop, hupdates, rfl⟩))
      next => exact Or.inl rfl
  | fetched store =>
      simp only [step]
      split
      next update seq hloop =>
        refine Or.inr (Or.inr (Or.inr (Or.inl ⟨store, update, seq, rfl, hloop, ?_⟩)))
        cases htwo : s.twoPhase with
        | false => exact Or.inr ⟨rfl, rfl⟩
        | true =>
            refine Or.inl ⟨rfl, ?_⟩
            rw [if_pos rfl]
            split
            next => exact Or.inl rfl
            next => exact Or.inr rfl
      next => exact Or.inl rfl
  | acked =>
      simp only [step]
      split
      next update seq hloop =>
        exact Or.inr (Or.inr (Or.inr (Or.inr ⟨update, seq, trivial, hloop, rfl⟩)))
      next => exact Or.inl rfl
  | cancel =>
      simp only [step]
      split
      next => exact Or.inr (Or.inl rfl)
      next => exact Or.inl rfl

/-- A step calls `ingest_publication` unless nothing is left to fetch. -/
theorem forall_not_requests_iff (s : IngestGroup Publisher Name Store)
    (e : IngestEvent Publisher Name Store) :
    (∀ update seq, ¬ s.Requests e update seq) ↔ s.Spent e := by
  constructor
  · intro h
    cases e with
    | emit update => trivial
    | changed store => trivial
    | cancel => trivial
    | recv =>
        intro update updates hloop hupdates
        by_contra hle
        refine h update update.lowSeq ⟨by simp [hloop], ?_⟩
        simp only [step, hloop, hupdates]
        exact enter_eq_fetching.mpr ⟨not_lt.mp hle, rfl, rfl⟩
    | fetched store =>
        intro update seq hloop htwo
        by_contra hle
        refine h update (seq + 1) ⟨by simp [hloop], ?_⟩
        simp only [step, hloop, htwo, Bool.false_eq_true, if_false]
        exact enter_eq_fetching.mpr ⟨not_le.mp hle, rfl, rfl⟩
    | acked =>
        intro update seq hloop
        by_contra hle
        refine h update (seq + 1) ⟨by simp [hloop], ?_⟩
        simp only [step, hloop]
        exact enter_eq_fetching.mpr ⟨not_le.mp hle, rfl, rfl⟩
  · rintro h update seq ⟨hold, hnew⟩
    rcases s.loop_step e with hsame | hdone | ⟨u, updates, rfl, hloop, hupdates, henter⟩ |
      ⟨store, u, q, rfl, hloop, ⟨-, hacking | hwaiting⟩ | ⟨htwo, henter⟩⟩ |
      ⟨u, q, rfl, hloop, henter⟩
    · exact hold (hsame ▸ hnew)
    · rw [hdone] at hnew
      cases hnew
    · rw [henter, enter_eq_fetching] at hnew
      exact absurd hnew.1 (not_le.mpr (h u updates hloop hupdates))
    · rw [hacking] at hnew
      cases hnew
    · rw [hwaiting] at hnew
      cases hnew
    · rw [henter, enter_eq_fetching] at hnew
      exact absurd hnew.1 (not_le.mpr (Nat.lt_succ_of_le (h u q hloop htwo)))
    · rw [henter, enter_eq_fetching] at hnew
      exact absurd hnew.1 (not_le.mpr (Nat.lt_succ_of_le (h u q hloop)))

/-- A publication is acknowledged after its fetch. -/
theorem Acks.fetching {s : IngestGroup Publisher Name Store}
    {e : IngestEvent Publisher Name Store} {update : SyncUpdate Publisher Name} {seq : ℕ}
    (h : s.Acks e update seq) : s.loop = .fetching update seq := by
  obtain ⟨hold, hnew⟩ := h
  have henter : ∀ {u : SyncUpdate Publisher Name} {q : ℕ}, enter u q ≠ .acking update seq := by
    intro u q
    rw [enter]
    split <;> simp
  rcases s.loop_step e with hsame | hdone | ⟨u, updates, -, -, -, heq⟩ |
    ⟨store, u, q, -, hloop, ⟨-, hacking | hwaiting⟩ | ⟨-, heq⟩⟩ | ⟨u, q, -, -, heq⟩
  · exact absurd (hsame ▸ hnew) hold
  · rw [hdone] at hnew
    cases hnew
  · exact absurd (heq ▸ hnew) henter
  · rw [hacking] at hnew
    cases hnew
    exact hloop
  · rw [hwaiting] at hnew
    cases hnew
  · exact absurd (heq ▸ hnew) henter
  · exact absurd (heq ▸ hnew) henter

end IngestGroup

namespace CancellableGroup

variable {Publisher Name Store : Type} [NdnName Name] [NdnSync Name] [ScanStore Name Store]
  [DecidableEq Publisher]

/-- One step. -/
def step (s : CancellableGroup Publisher Name Store) :
    CancelEvent Publisher Name Store → CancellableGroup Publisher Name Store
  | .cancel => { s with cancelledAt := s.cancelledAt.or (some s.ingest.loop) }
  | .ingest e => { s with ingest := s.ingest.step e }

/-- After the cancellation a step calls neither `ingest_publication` nor, but for the
publication that was being fetched, `ack`. -/
def Obeys (s : CancellableGroup Publisher Name Store) : CancelEvent Publisher Name Store → Prop
  | .cancel => True
  | .ingest e => ∀ loop ∈ s.cancelledAt, (∀ update seq, ¬ s.ingest.Requests e update seq) ∧
      ∀ update seq, s.ingest.Acks e update seq → loop = .fetching update seq

/-- After the cancellation a step finds nothing left to fetch. -/
def Spent (s : CancellableGroup Publisher Name Store) : CancelEvent Publisher Name Store → Prop
  | .cancel => True
  | .ingest e => s.cancelledAt.isSome = true → s.ingest.Spent e

/-- What is being fetched was being fetched at the cancellation. -/
def Draining (s : CancellableGroup Publisher Name Store) : Prop :=
  ∀ loop ∈ s.cancelledAt, ∀ update seq, s.ingest.loop = .fetching update seq →
    loop = .fetching update seq

theorem Draining.obeys_iff {s : CancellableGroup Publisher Name Store} (h : s.Draining)
    (e : CancelEvent Publisher Name Store) : s.Obeys e ↔ s.Spent e := by
  cases e with
  | cancel => exact Iff.rfl
  | ingest e =>
      cases hat : s.cancelledAt with
      | none => simp [Obeys, Spent, hat]
      | some loop =>
          have hacks : ∀ update seq, s.ingest.Acks e update seq → loop = .fetching update seq :=
            fun update seq hack => h loop hat update seq hack.fetching
          simp only [Obeys, Spent, hat, Option.mem_def, Option.some.injEq, forall_eq',
            Option.isSome_some, forall_const, ← IngestGroup.forall_not_requests_iff]
          exact and_iff_left hacks

/-- A step that starts nothing new keeps it. -/
theorem Draining.step {s : CancellableGroup Publisher Name Store} (h : s.Draining)
    {e : CancelEvent Publisher Name Store} (hobeys : s.Obeys e) : (s.step e).Draining := by
  cases e with
  | cancel =>
      cases hat : s.cancelledAt with
      | none =>
          intro loop hloop update seq hfetching
          simp only [CancellableGroup.step, hat, Option.none_or, Option.mem_def,
            Option.some.injEq] at hloop
          exact hloop ▸ hfetching
      | some loop =>
          have hstep : s.step .cancel = s := by
            simp only [CancellableGroup.step, hat, Option.some_or]
            rw [← hat]
          rw [hstep]
          exact h
  | ingest e =>
      intro loop hloop update seq hfetching
      refine h loop hloop update seq ?_
      by_contra hnew
      exact (hobeys loop hloop).1 update seq ⟨hnew, hfetching⟩

/-- Whenever a group's token is cancelled, nothing new is started exactly if nothing is
left to fetch. -/
theorem stops_iff_spent (start : IngestGroup Publisher Name Store)
    (events : List (CancelEvent Publisher Name Store)) :
    Steps.Admits step Obeys ⟨start, none⟩ events ↔
      Steps.Admits step Spent ⟨start, none⟩ events := by
  have hagree : ∀ (s : CancellableGroup Publisher Name Store) e, s.Draining →
      (s.Obeys e ↔ s.Spent e) := fun s e h => h.obeys_iff e
  refine Steps.admits_congr hagree (fun s e h hobeys => h.step hobeys) ?_
  intro loop hloop
  cases hloop

end CancellableGroup

/-- A group ingested with one phase, and its token. -/
def cancellableGroup : CancellableGroup ℕ Components (FjallStore Components) :=
  ⟨{ freshGroup with twoPhase := false }, none⟩

/-- The token is cancelled while the first of two publications is fetched. -/
def cancelInRange : List (CancelEvent ℕ Components (FjallStore Components)) :=
  [.ingest (.emit ⟨0, [[8, 1, 97]], 1, 2⟩), .ingest .recv, .cancel, .ingest (.fetched .empty)]

/-- The second is fetched too. -/
theorem fetches_after_cancel :
    ¬ Steps.Admits CancellableGroup.step CancellableGroup.Obeys cancellableGroup cancelInRange := by
  rintro ⟨-, -, -, hobeys, -⟩
  exact (hobeys (.fetching ⟨0, [[8, 1, 97]], 1, 2⟩ 1) rfl).1 ⟨0, [[8, 1, 97]], 1, 2⟩ 2
    ⟨by simp [cancellableGroup, CancellableGroup.step, IngestGroup.step, freshGroup,
      IngestGroup.enter], rfl⟩

end NdnRepo
