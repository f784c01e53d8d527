import NdnRepo.Repo.Repo

/-!
# What a repo with a validator holds

A repo changes its store when it answers a command and when it ingests a
publication.  Ingestion goes through the gate.  The packets a `BlobFetch` carries
do not, so whether every packet held verifies is decided by them:
`verified_iff` is an equivalence over all runs, with the states inside a command
counted as reached.
-/

namespace NdnRepo

/-- What happens to a repo. -/
inductive RepoEvent (Name : Type) where
  /-- A command arrives. -/
  | command (value : Bytes)
  /-- A group's `SvSync`, which has the repo's gate, has fetched a packet. -/
  | ingest (name : Name) (wire : Bytes)
  /-- The names to fetch are taken. -/
  | takePendingFetches

/-- The packets a command carries. -/
def inlineWires (Name : Type) [NameTlv Name] [NdnTlv] (value : Bytes) : List Bytes :=
  match (RepoCmd.decode value : Option (RepoCmd Name)) with
  | some (.blobFetch b) => b.data
  | _ => []

/-- The packets an event carries that are Data verify. -/
def RepoEvent.Admissible {Name : Type} [NdnData Name] [NameTlv Name] [NdnTlv]
    (validator : NdnData.Data Name → Bool) : RepoEvent Name → Prop
  | .command value => ∀ wire ∈ inlineWires Name value, ∀ data,
      NdnData.decode wire = some data → validator data = true
  | _ => True

namespace Repo

variable {Name Store : Type} [NdnName Name] [NdnData Name] [DataStore Name Store]

/-- A fetched packet goes through the gate into the store. -/
def ingest (repo : Repo Name Store) (name : Name) (wire : Bytes) : Repo Name Store :=
  if repo.ingestValidator.all (· wire) then
    { repo with store := DataStore.insert repo.store name wire }
  else repo

section Runs

variable [NameTlv Name] [NdnTlv]

/-- The repo after an event. -/
def step (repo : Repo Name Store) : RepoEvent Name → Repo Name Store
  | .command value => (repo.handleCommand value).2
  | .ingest name wire => repo.ingest name wire
  | .takePendingFetches => repo.takePendingFetches.2

/-- The repo while it handles an event: after each packet a command carries. -/
def during (repo : Repo Name Store) : RepoEvent Name → List (Repo Name Store)
  | .command value => (inlineWires Name value).inits.map repo.storeAll
  | _ => []

/-- The states of a run. -/
def states (repo : Repo Name Store) : List (RepoEvent Name) → List (Repo Name Store)
  | [] => [repo]
  | event :: events => repo :: (repo.during event ++ (repo.step event).states events)

end Runs

/-- Every packet held verifies. -/
def Verified (validator : NdnData.Data Name → Bool) (repo : Repo Name Store) : Prop :=
  ∀ name wire, repo.get name = some wire → verifies validator wire = true

/-! ## What each operation does to the store -/

variable {repo : Repo Name Store} {validator : NdnData.Data Name → Bool}

/-- Inserting a wire keeps the packets verified when it verifies, and only then. -/
theorem verified_insert (h : Verified validator repo) (name : Name) (wire : Bytes) :
    Verified validator { repo with store := DataStore.insert repo.store name wire } ↔
      verifies validator wire = true := by
  constructor
  · intro hnew
    apply hnew name wire
    rw [get, DataStore.get_insert, if_pos rfl]
  · intro hwire other found hfound
    rw [get, DataStore.get_insert] at hfound
    split at hfound
    · cases hfound
      exact hwire
    · exact h other found hfound

/-- Storing a packet keeps the packets verified when it verifies or is no Data,
and only then. -/
theorem verified_storeData (h : Verified validator repo) (wire : Bytes) :
    Verified validator (repo.storeData wire).2 ↔
      ∀ data, NdnData.decode wire = some data → validator data = true := by
  rw [storeData]
  cases hd : @NdnData.decode Name _ wire with
  | none => simpa using h
  | some data => simp [verified_insert h, verifies, hd]

/-- Storing packets one after another. -/
theorem verified_storeAll :
    ∀ {repo : Repo Name Store} (wires : List Bytes), Verified validator repo →
      ((∀ first ∈ wires.inits, Verified validator (repo.storeAll first)) ↔
        ∀ wire ∈ wires, ∀ data, NdnData.decode wire = some data → validator data = true)
  | repo, [], h => by simpa [storeAll] using h
  | repo, wire :: wires, h => by
      have hhead := verified_storeData h wire
      have hcons : ∀ first,
          repo.storeAll (wire :: first) = (repo.storeData wire).2.storeAll first :=
        fun _ => rfl
      simp only [List.inits_cons, List.mem_cons, List.mem_map, forall_eq_or_imp,
        forall_exists_index, and_imp, forall_apply_eq_imp_iff₂, hcons]
      constructor
      · rintro ⟨-, htail⟩
        have hstored : Verified validator (repo.storeData wire).2 := htail [] (by simp)
        exact ⟨hhead.mp hstored, (verified_storeAll wires hstored).mp htail⟩
      · rintro ⟨hwire, hwires⟩
        exact ⟨h, (verified_storeAll wires (hhead.mpr hwire)).mpr hwires⟩

theorem validator_storeAll :
    ∀ (repo : Repo Name Store) (wires : List Bytes),
      (repo.storeAll wires).validator = repo.validator
  | _, [] => rfl
  | repo, wire :: wires => by
      have ih := validator_storeAll (repo.storeData wire).2 wires
      have hwire : (repo.storeData wire).2.validator = repo.validator := by
        rw [storeData]
        cases @NdnData.decode Name _ wire <;> rfl
      exact ih.trans hwire

theorem verified_ingest (h : Verified validator repo) (hv : repo.validator = some validator)
    (name : Name) (wire : Bytes) : Verified validator (repo.ingest name wire) := by
  have hgate : repo.ingestValidator.all (· wire) = verifies validator wire := by
    simp [ingestValidator, hv]
  rw [ingest, hgate]
  split
  next hwire => exact (verified_insert h name wire).mpr hwire
  next => exact h

section Commands

variable [NameTlv Name] [NdnTlv]

/-- A command changes the store as the packets it carries do, and never the
validator. -/
theorem handleCommand_store (repo : Repo Name Store) (value : Bytes) :
    (repo.handleCommand value).2.store = (repo.storeAll (inlineWires Name value)).store ∧
      (repo.handleCommand value).2.validator = repo.validator := by
  unfold handleCommand inlineWires
  cases hcmd : (RepoCmd.decode value : Option (RepoCmd Name)) with
  | none => exact ⟨rfl, rfl⟩
  | some cmd =>
      cases cmd with
      | syncJoin j =>
          simp only [handleSyncJoin]
          split
          · exact ⟨rfl, rfl⟩
          · split
            · exact ⟨rfl, rfl⟩
            · split <;> exact ⟨rfl, rfl⟩
      | syncLeave l =>
          simp only [handleSyncLeave]
          split
          · exact ⟨rfl, rfl⟩
          · split <;> exact ⟨rfl, rfl⟩
      | blobFetch b =>
          have hvalidator := validator_storeAll repo b.data
          simp only [handleBlobFetch]
          split <;> exact ⟨rfl, hvalidator⟩

/-! ## Runs -/

/-- An event passes through verified states, and ends in one, when the packets
it carries verify, and only then. -/
theorem verified_step (h : Verified validator repo) (hv : repo.validator = some validator)
    (event : RepoEvent Name) :
    (repo.step event).validator = some validator ∧
      ((∀ r ∈ repo.during event, Verified validator r) ↔ event.Admissible validator) ∧
      (event.Admissible validator → Verified validator (repo.step event)) := by
  cases event with
  | command value =>
      obtain ⟨hstore, hvalidator⟩ := repo.handleCommand_store value
      have hall := verified_storeAll (inlineWires Name value) h
      refine ⟨hvalidator.trans hv, ?_, fun hadmissible => ?_⟩
      · simp only [during, List.mem_map, forall_exists_index, and_imp, forall_apply_eq_imp_iff₂]
        exact hall
      · have hlast := hall.mpr hadmissible (inlineWires Name value) (by simp)
        intro name wire hget
        apply hlast name wire
        rw [get, ← hstore]
        exact hget
  | ingest name wire =>
      refine ⟨?_, by simp [during, RepoEvent.Admissible], fun _ => verified_ingest h hv name wire⟩
      rw [step, ingest]
      split <;> exact hv
  | takePendingFetches =>
      exact ⟨hv, by simp [during, RepoEvent.Admissible], fun _ => h⟩

/-- In the states of a run from a verified one every packet verifies, exactly when
the packets the commands carry do. -/
theorem verified_states :
    ∀ (events : List (RepoEvent Name)) {repo : Repo Name Store}, Verified validator repo →
      repo.validator = some validator →
        ((∀ r ∈ repo.states events, Verified validator r) ↔
          ∀ event ∈ events, event.Admissible validator)
  | [], repo, h, _ => by simpa [states] using h
  | event :: events, repo, h, hv => by
      obtain ⟨hv', hduring, hend⟩ := verified_step h hv event
      simp only [states, List.mem_cons, List.mem_append, forall_eq_or_imp]
      constructor
      · rintro ⟨-, hall⟩
        have hadmissible := hduring.mp fun r hr => hall r (Or.inl hr)
        exact ⟨hadmissible, (verified_states events (hend hadmissible) hv').mp
          fun r hr => hall r (Or.inr hr)⟩
      · rintro ⟨hadmissible, hrest⟩
        refine ⟨h, fun r hr => ?_⟩
        rcases hr with hr | hr
        · exact hduring.mpr hadmissible r hr
        · exact (verified_states events (hend hadmissible) hv').mpr hrest r hr

/-- A repo with a validator over a store whose packets verify.  In every state of
every run all packets held verify, exactly when those the commands carry do. -/
theorem verified_iff {store : Store}
    (hstore : ∀ name wire, DataStore.get store name = some wire → verifies validator wire = true)
    (events : List (RepoEvent Name)) :
    (∀ r ∈ (withValidator store validator : Repo Name Store).states events, Verified validator r) ↔
      ∀ event ∈ events, event.Admissible validator :=
  verified_states events hstore rfl

end Commands

/-! ## A push past the gate -/

/-- A validator that wants a signer: a bare digest (signature type 0) is none. -/
def wantsSigner (data : BlockData) : Bool := data.rest.lookup 22 ≠ some [27, 1, 0]

/-- A Data packet of the name `/b` with a signature info. -/
def blockData (signatureInfo signature : Bytes) : Bytes :=
  Tlv.write 6 (nameBlock [[8, 1, 98]] ++
    (Tlv.write 21 [1, 2] ++ (Tlv.write 22 signatureInfo ++ Tlv.write 23 signature)))

/-- Its signature is its own SHA-256 digest. -/
def digestOnly : Bytes := blockData [27, 1, 0]
  (digestOf 0x7e9c8c2eb4db505399e0b04c5c72f682d2be991a81bb095ce3994e46463acf41).1

/-- A command that carries a Data packet. -/
def pushCommand (wire : Bytes) : Bytes := Tlv.write TlvType.blobFetch (Tlv.write TlvType.blobData wire)

/-- A digest-only packet is refused by the gate and stored by a command. -/
theorem push_unverified :
    letI := shortSha2
    letI := blockTlv
    ∃ repo ∈ (withValidator FjallStore.empty wantsSigner : Repo Components _).states
      [.ingest [[8, 1, 98]] digestOnly, .command (pushCommand digestOnly)],
        ¬ Verified wantsSigner repo := by
  let _ := shortSha2
  let _ := blockTlv
  refine ⟨Repo.step (Repo.ingest (withValidator FjallStore.empty wantsSigner) [[8, 1, 98]] digestOnly)
    (.command (pushCommand digestOnly)), ?_, fun h => ?_⟩
  · simp [states, step]
  · have hrefused : @verifies Components _ wantsSigner digestOnly = false := by decide +kernel
    have hverifies := h [[8, 1, 98]] digestOnly (by decide +kernel)
    rw [hrefused] at hverifies
    cases hverifies

/-- A signed packet ingested, and another one pushed. -/
def signedRun : List (RepoEvent Components) :=
  [.ingest [[8, 1, 98]] (blockData [27, 1, 5] [0]),
    .command (pushCommand (blockData [27, 1, 5] [1]))]

theorem verified_signedRun :
    letI := shortSha2
    letI := blockTlv
    ((withValidator FjallStore.empty wantsSigner : Repo Components _).states signedRun).Forall
      (Verified wantsSigner) := by
  let _ := shortSha2
  let _ := blockTlv
  rw [List.forall_iff_forall_mem]
  apply (verified_iff (by simp [DataStore.get]) signedRun).mpr
  have hwires : inlineWires Components (pushCommand (blockData [27, 1, 5] [1])) =
      [blockData [27, 1, 5] [1]] := by decide +kernel
  simp only [signedRun, List.mem_cons, List.not_mem_nil, or_false, forall_eq_or_imp, forall_eq,
    RepoEvent.Admissible, hwires, true_and]
  intro data hdata
  have hdecode : (@NdnData.decode Components _ (blockData [27, 1, 5] [1])).all wantsSigner = true := by
    decide +kernel
  rw [hdata] at hdecode
  exact hdecode

end Repo

end NdnRepo
