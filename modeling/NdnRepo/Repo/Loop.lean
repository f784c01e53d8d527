import NdnRepo.Repo.Service

/-!
# The service's loop

`run` waits for a packet, for a control message or to be cancelled, and does what it is
told by one that is ready.  It ends when it is cancelled or when no one is left who sends
packets.  A channel whose senders are gone is always ready, with nothing.  For packets
that ends the loop.  For control messages it does nothing, and the loop turns again.

So the loop turns for each waiting message once and then stops turning, unless the control
channel was closed (`worksOff_iff`).
-/

namespace NdnRepo

/-- The receiving end of an `mpsc` channel. -/
structure Channel (α : Type) where
  /-- The messages that wait. -/
  queued : List α
  /-- Whether a sender is left. -/
  isOpen : Bool
deriving DecidableEq

/-- `rx.recv()` when polled: what it is ready with, and the channel then. -/
def Channel.recv {α : Type} (ch : Channel α) : Option (Option α × Channel α) :=
  match ch.queued with
  | msg :: rest => some (some msg, { ch with queued := rest })
  | [] => if ch.isOpen then none else some (none, ch)

/-- A channel is ready with its oldest message, or with nothing once it is closed. -/
theorem Channel.recv_cases {α : Type} (ch : Channel α) :
    (∃ msg rest, ch.queued = msg :: rest ∧
        ch.recv = some (some msg, { ch with queued := rest })) ∨
      (ch.queued = [] ∧ ch.isOpen = true ∧ ch.recv = none) ∨
      (ch.queued = [] ∧ ch.isOpen = false ∧ ch.recv = some (none, ch)) := by
  rw [recv]
  cases hqueued : ch.queued with
  | cons msg rest => exact .inl ⟨msg, rest, rfl, rfl⟩
  | nil =>
      cases hopen : ch.isOpen with
      | true => exact .inr (.inl ⟨rfl, rfl, rfl⟩)
      | false => exact .inr (.inr ⟨rfl, rfl, rfl⟩)

/-- The state of `RepoService::run` between two turns of its loop. -/
structure RunLoop (Name Store : Type) [NdnName Name] [NdnData Name] where
  /-- The service. -/
  service : RepoService Name Store
  /-- Packets from the forwarder. -/
  recv : Channel Bytes
  /-- Control messages, if a channel was given. -/
  controlRx : Option (Channel (RepoControl Name))
  /-- Whether the service was cancelled. -/
  cancelled : Bool

namespace RunLoop

variable {Name Store : Type} [NdnName Name] [NdnData Name]

section Turns

variable [NameTlv Name] [NdnTlvWriter] [NdnInterest Name] [HashOrder Name] [ScanStore Name Store]

/-- `cancel.cancelled()`, if ready: the loop ends. -/
def cancelBranch (l : RunLoop Name Store) : Option (Option (RunLoop Name Store)) :=
  if l.cancelled then some none else none

/-- `recv.recv()`, if ready: the loop ends or a packet is handled. -/
def recvBranch (l : RunLoop Name Store) : Option (Option (RunLoop Name Store)) :=
  match l.recv.recv with
  | none => none
  | some (none, _) => some none
  | some (some raw, recv) =>
      some (some { l with service := l.service.next (.received raw), recv := recv })

/-- The control channel's `recv()`, if ready: a message is followed, and the end of the
channel is passed over. -/
def controlBranch (l : RunLoop Name Store) : Option (Option (RunLoop Name Store)) :=
  match l.controlRx.bind Channel.recv with
  | none => none
  | some (none, rx) => some (some { l with controlRx := some rx })
  | some (some ctl, rx) =>
      some (some { l with service := l.service.next (.control ctl), controlRx := some rx })

/-- What a turn may come to: any branch that is ready is taken. -/
def branches (l : RunLoop Name Store) : List (Option (RunLoop Name Store)) :=
  l.cancelBranch.toList ++ (l.recvBranch.toList ++ l.controlBranch.toList)

/-- A turn that does not end the loop. -/
def Turn (l l' : RunLoop Name Store) : Prop := some l' ∈ l.branches

end Turns

/-- How many messages wait. -/
def waiting (l : RunLoop Name Store) : ℕ :=
  l.recv.queued.length + (l.controlRx.elim 0 fun rx => rx.queued.length)

/-- The control channel was given and its senders are gone. -/
def ControlClosed (l : RunLoop Name Store) : Prop := ∃ rx, l.controlRx = some rx ∧ rx.isOpen = false

section Turns

variable [NameTlv Name] [NdnTlvWriter] [NdnInterest Name] [HashOrder Name] [ScanStore Name Store]

/-- The loop turns only for messages that wait. -/
structure WorksOff (l : RunLoop Name Store) : Prop where
  /-- Every turn that does not end it takes one of them. -/
  consumes : ∀ l', Relation.ReflTransGen Turn l l' → ∀ l'', Turn l' l'' →
    l''.waiting + 1 = l'.waiting
  /-- It does not turn forever. -/
  finite : ¬∃ run : ℕ → RunLoop Name Store, run 0 = l ∧ ∀ n, Turn (run n) (run (n + 1))

/-- A turn handles a packet, or follows a control message, or does nothing as the control
channel is closed. -/
theorem turn_cases {l l' : RunLoop Name Store} (h : Turn l l') :
    (∃ raw rest, l.recv.queued = raw :: rest ∧ l' =
        { l with service := l.service.next (.received raw)
                 recv := { l.recv with queued := rest } }) ∨
      (∃ rx ctl rest, l.controlRx = some rx ∧ rx.queued = ctl :: rest ∧ l' =
        { l with service := l.service.next (.control ctl)
                 controlRx := some { rx with queued := rest } }) ∨
      ∃ rx, l.controlRx = some rx ∧ rx.queued = [] ∧ rx.isOpen = false ∧ l' = l := by
  rw [Turn, branches, List.mem_append, List.mem_append, Option.mem_toList, Option.mem_toList,
    Option.mem_toList] at h
  rcases h with h | h | h
  · rw [cancelBranch] at h
    split at h <;> cases h
  · rw [recvBranch] at h
    rcases l.recv.recv_cases with ⟨raw, rest, hqueued, hrecv⟩ | ⟨-, -, hrecv⟩ | ⟨-, -, hrecv⟩
    · rw [hrecv] at h
      cases h
      exact .inl ⟨raw, rest, hqueued, rfl⟩
    · rw [hrecv] at h
      cases h
    · rw [hrecv] at h
      cases h
  · rw [controlBranch] at h
    cases hrx : l.controlRx with
    | none =>
        rw [hrx] at h
        cases h
    | some rx =>
        rw [hrx, Option.bind_some] at h
        rcases rx.recv_cases with ⟨ctl, rest, hqueued, hrecv⟩ | ⟨-, -, hrecv⟩ |
          ⟨hqueued, hclosed, hrecv⟩
        · rw [hrecv] at h
          cases h
          exact .inr (.inl ⟨rx, ctl, rest, rfl, hqueued, rfl⟩)
        · rw [hrecv] at h
          cases h
        · rw [hrecv] at h
          cases h
          refine .inr (.inr ⟨rx, rfl, hqueued, hclosed, ?_⟩)
          rw [← hrx]

/-- The control channel stays as open as it is. -/
theorem controlClosed_of_turn {l l' : RunLoop Name Store} (h : Turn l l') :
    l'.ControlClosed ↔ l.ControlClosed := by
  rcases turn_cases h with ⟨raw, rest, -, rfl⟩ | ⟨rx, ctl, rest, hrx, -, rfl⟩ | ⟨rx, -, -, -, rfl⟩
  · exact Iff.rfl
  · simp [ControlClosed, hrx]
  · exact Iff.rfl

/-- While it is open, a turn takes a message. -/
theorem waiting_of_turn {l l' : RunLoop Name Store} (hopen : ¬l.ControlClosed) (h : Turn l l') :
    l'.waiting + 1 = l.waiting := by
  rcases turn_cases h with ⟨raw, rest, hqueued, rfl⟩ | ⟨rx, ctl, rest, hrx, hqueued, rfl⟩ |
    ⟨rx, hrx, -, hclosed, -⟩
  · simp only [waiting, hqueued, List.length_cons]
    omega
  · simp only [waiting, hrx, hqueued, Option.elim_some, List.length_cons]
    omega
  · exact absurd ⟨rx, hrx, hclosed⟩ hopen

/-- Once it is closed, there is always a turn. -/
theorem exists_turn {l : RunLoop Name Store} (hclosed : l.ControlClosed) :
    ∃ l', Turn l l' := by
  obtain ⟨rx, hrx, hno⟩ := hclosed
  have hturn : ∀ {l'}, l.controlBranch = some (some l') → Turn l l' := by
    intro l' h
    rw [Turn, branches, h]
    simp
  rcases rx.recv_cases with ⟨ctl, rest, -, hrecv⟩ | ⟨-, hyes, -⟩ | ⟨-, -, hrecv⟩
  · exact ⟨_, hturn (by rw [controlBranch, hrx, Option.bind_some, hrecv])⟩
  · rw [hno] at hyes
    cases hyes
  · exact ⟨_, hturn (by rw [controlBranch, hrx, Option.bind_some, hrecv])⟩

/-- So the loop then turns forever. -/
theorem exists_run {l : RunLoop Name Store} (hclosed : l.ControlClosed) :
    ∃ run : ℕ → RunLoop Name Store, run 0 = l ∧ ∀ n, Turn (run n) (run (n + 1)) := by
  choose next hnext using fun l : { l : RunLoop Name Store // l.ControlClosed } => exists_turn l.2
  let after : { l : RunLoop Name Store // l.ControlClosed } →
      { l : RunLoop Name Store // l.ControlClosed } := fun l =>
    ⟨next l, (controlClosed_of_turn (hnext l)).mpr l.2⟩
  refine ⟨fun n => (after^[n] ⟨l, hclosed⟩).1, rfl, fun n => ?_⟩
  simp only [Function.iterate_succ_apply']
  exact hnext _

/-- Turns leave the control channel as open as it was. -/
theorem controlClosed_of_turns {l l' : RunLoop Name Store} (h : Relation.ReflTransGen Turn l l') :
    l'.ControlClosed ↔ l.ControlClosed := by
  induction h with
  | refl => exact Iff.rfl
  | tail _ hturn ih => exact (controlClosed_of_turn hturn).trans ih

/-- While it is open, a run takes as many messages as it turns. -/
theorem waiting_of_run {run : ℕ → RunLoop Name Store} (hopen : ¬(run 0).ControlClosed)
    (hrun : ∀ n, Turn (run n) (run (n + 1))) (n : ℕ) :
    ¬(run n).ControlClosed ∧ (run n).waiting + n = (run 0).waiting := by
  induction n with
  | zero => exact ⟨hopen, rfl⟩
  | succ n ih =>
      obtain ⟨hstays, hcount⟩ := ih
      have hstep := waiting_of_turn hstays (hrun n)
      exact ⟨mt (controlClosed_of_turn (hrun n)).mp hstays, by omega⟩

/-- The loop turns only for messages that wait, and not forever, exactly if its control
channel is not closed. -/
theorem worksOff_iff (l : RunLoop Name Store) : l.WorksOff ↔ ¬l.ControlClosed := by
  constructor
  · intro hworks hclosed
    exact hworks.finite (exists_run hclosed)
  · intro hopen
    refine ⟨fun l' hreach l'' hturn => ?_, ?_⟩
    · exact waiting_of_turn (mt (controlClosed_of_turns hreach).mp hopen) hturn
    · rintro ⟨run, rfl, hrun⟩
      -- After as many turns as messages wait none is left to take.
      have hend := (waiting_of_run hopen hrun ((run 0).waiting + 1)).2
      omega

end Turns

end RunLoop

/-- A loop of which the control channel is closed and nothing waits. -/
def idleLoop [NdnTlv] [Sha2] : RunLoop Components (FjallStore Components) where
  service := smallService []
  recv := ⟨[], true⟩
  controlRx := some ⟨[], false⟩
  cancelled := false

/-- Its only turn leads back to it. -/
theorem idleLoop_spins :
    letI := shortSha2
    letI := blockTlvWriter
    idleLoop.branches = [some idleLoop] ∧ ¬idleLoop.WorksOff := by
  let _ := shortSha2
  let _ := blockTlvWriter
  have hbranches : idleLoop.branches = [some idleLoop] := rfl
  refine ⟨hbranches, fun h => ?_⟩
  have hturn : RunLoop.Turn idleLoop idleLoop := by
    rw [RunLoop.Turn, hbranches]
    exact List.mem_singleton_self _
  have hwaiting := h.consumes idleLoop .refl idleLoop hturn
  omega

end NdnRepo
