import NdnRepo.Lib.Fields
import NdnRepo.Repo.Ingest

/-!
# Fetches that return nothing

With one phase `ingestGroup` goes on when a publication's fetch returns nothing, and
leaves it to the next update of the publisher.

Here a run keeps a log of the updates taken, with the fetches made for each.  The
updates of a publisher carry contiguous ranges, so none requests what an earlier one
did.  A failed fetch is therefore made again in time exactly if it has not to be:
if no update of its publisher was processed after it (`retried_iff_reliable`).
-/

namespace NdnRepo

/-- An update that was taken. -/
structure TakenUpdate (Publisher Name : Type) where
  /-- The update. -/
  update : SyncUpdate Publisher Name
  /-- The publications fetched for it, and how many packets each fetch stored. -/
  fetches : List (ℕ × ℕ)

/-- A group being ingested, with a log. -/
structure IngestLog (Publisher Name Store : Type) where
  /-- The group. -/
  ingest : IngestGroup Publisher Name Store
  /-- The updates taken, in order. -/
  taken : List (TakenUpdate Publisher Name)

/-- The update an event emits.  With an event comes the number of packets that
`ingest_publication` stored, if it returned. -/
def emitted {Publisher Name Store : Type} :
    IngestEvent Publisher Name Store × ℕ → Option (SyncUpdate Publisher Name)
  | (.emit update, _) => some update
  | _ => none

/-- The updates of a publisher carry contiguous ranges. -/
def Contiguous {Publisher Name : Type} [DecidableEq Publisher]
    (updates : List (SyncUpdate Publisher Name)) : Prop :=
  ∀ publisher, (updates.filter (·.publisher = publisher)).IsChain fun u v =>
    v.lowSeq = u.highSeq + 1

namespace IngestLog

variable {Publisher Name Store : Type}

/-- One step, and what it adds to the log. -/
def step [NdnName Name] [NdnSync Name] [ScanStore Name Store] [DecidableEq Publisher]
    (l : IngestLog Publisher Name Store) (e : IngestEvent Publisher Name Store × ℕ) :
    IngestLog Publisher Name Store where
  ingest := l.ingest.step e.1
  taken :=
    match e.1, l.ingest.loop, l.ingest.updates with
    | .recv, .waiting, update :: _ => l.taken ++ [⟨update, []⟩]
    | .fetched _, .fetching _ seq, _ =>
        l.taken.modifyLast fun t => { t with fetches := t.fetches ++ [(seq, e.2)] }
    | _, _, _ => l.taken

/-! ## What has been processed -/

/-- The updates that have been processed: those taken but the one being worked on. -/
def processed (l : IngestLog Publisher Name Store) : List (TakenUpdate Publisher Name) :=
  match l.ingest.loop with
  | .fetching _ _ | .acking _ _ => l.taken.dropLast
  | _ => l.taken

variable [DecidableEq Publisher]

/-- Those of a publisher. -/
def processedOf (l : IngestLog Publisher Name Store) (publisher : Publisher) :
    List (TakenUpdate Publisher Name) :=
  l.processed.filter (·.update.publisher = publisher)

/-- Every update processed requested again what the last fetch of its publisher's
publications before it returned nothing for. -/
def Retried (l : IngestLog Publisher Name Store) : Prop :=
  ∀ publisher before t after, l.processedOf publisher = before ++ t :: after →
    ∀ seq, Fields.last (before.flatMap TakenUpdate.fetches) seq = some 0 →
      seq ∈ t.fetches.map Prod.fst

/-- Only fetches for the last update of a publisher returned nothing. -/
def Reliable (l : IngestLog Publisher Name Store) : Prop :=
  ∀ publisher before t after, l.processedOf publisher = before ++ t :: after →
    ∀ t' ∈ before, ∀ fetch ∈ t'.fetches, fetch.2 ≠ 0

/-! ## What holds all along -/

omit [DecidableEq Publisher]

/-- The publications fetched for an update are the first ones of its range. -/
structure FetchedFrom (t : TakenUpdate Publisher Name) : Prop where
  /-- They are in order. -/
  order : t.fetches.map Prod.fst = List.range' t.update.lowSeq t.fetches.length
  /-- They are in the range. -/
  range : ∀ fetch ∈ t.fetches, fetch.1 ≤ t.update.highSeq

/-- What may be said of the updates taken by where the loop is. -/
def LoopLogged (taken : List (TakenUpdate Publisher Name)) : IngestLoop Publisher Name → Prop
  | .fetching update seq => ∃ before t, taken = before ++ [t] ∧ t.update = update ∧
      seq = update.lowSeq + t.fetches.length ∧ seq ≤ update.highSeq
  | .acking _ _ => False
  | _ => True

/-- What holds all along, after some updates were emitted. -/
structure Logged (past : List (SyncUpdate Publisher Name)) (l : IngestLog Publisher Name Store) :
    Prop where
  /-- There is one phase. -/
  eager : l.ingest.twoPhase = false
  /-- The updates were taken or are waiting. -/
  took : l.taken.map TakenUpdate.update ++ l.ingest.updates = past
  /-- The fetches are of the updates' publications. -/
  fetched : ∀ t ∈ l.taken, FetchedFrom t
  /-- The next fetch is the one after them. -/
  loop : LoopLogged l.taken l.ingest.loop

theorem loopLogged_enter (before : List (TakenUpdate Publisher Name))
    (t : TakenUpdate Publisher Name) :
    LoopLogged (before ++ [t])
      (IngestGroup.enter t.update (t.update.lowSeq + t.fetches.length)) := by
  rw [IngestGroup.enter]
  split
  next hle => exact ⟨before, t, rfl, rfl, rfl, hle⟩
  next => trivial

/-! ## Failed fetches -/

variable {l : IngestLog Publisher Name Store} {past : List (SyncUpdate Publisher Name)}

/-- An update's fetch of a publication is the last one of the publication up to it. -/
theorem FetchedFrom.last {t : TakenUpdate Publisher Name} (h : FetchedFrom t) {seq stored : ℕ}
    (hmem : (seq, stored) ∈ t.fetches) (before : List (TakenUpdate Publisher Name)) :
    Fields.last ((before ++ [t]).flatMap TakenUpdate.fetches) seq = some stored := by
  have hnodup : (t.fetches.map Prod.fst).Nodup := by
    rw [h.order]
    exact List.nodup_range'
  rw [Fields.last, List.flatMap_append, List.flatMap_singleton, Fields.all_append,
    Fields.all_of_nodup hnodup hmem, List.getLast?_concat]

variable [DecidableEq Publisher]

theorem Logged.fetched_of_processed (h : Logged past l) {publisher : Publisher}
    {t : TakenUpdate Publisher Name} (ht : t ∈ l.processedOf publisher) : FetchedFrom t := by
  refine h.fetched t ?_
  have hmem := (List.mem_filter.mp ht).1
  unfold processed at hmem
  split at hmem
  · exact List.mem_of_mem_dropLast hmem
  · exact List.mem_of_mem_dropLast hmem
  · exact hmem

/-- A publisher's updates are processed in the order they were emitted in. -/
theorem Logged.chain (h : Logged past l) (hcontiguous : Contiguous past) (publisher : Publisher) :
    (l.processedOf publisher).IsChain fun t t' => t'.update.lowSeq = t.update.highSeq + 1 := by
  obtain ⟨rest, hrest⟩ : ∃ rest, l.processed.map TakenUpdate.update ++ rest = past := by
    have htaken : ∃ current, l.processed ++ current = l.taken := by
      unfold processed
      split
      · exact List.dropLast_prefix _
      · exact List.dropLast_prefix _
      · exact ⟨[], List.append_nil _⟩
    obtain ⟨current, hcurrent⟩ := htaken
    refine ⟨current.map TakenUpdate.update ++ l.ingest.updates, ?_⟩
    rw [← List.append_assoc, ← List.map_append, hcurrent, h.took]
  have hall := hcontiguous publisher
  rw [← hrest, List.filter_append] at hall
  have hchain := hall.left_of_append
  rw [List.filter_map] at hchain
  exact (List.isChain_map _).mp hchain

/-- Where the updates are contiguous, failed fetches are made again in time exactly if
they are all for the last update of a publisher. -/
theorem Logged.retried_iff (h : Logged past l) (hcontiguous : Contiguous past) :
    l.Retried ↔ l.Reliable := by
  constructor
  · intro hretried publisher before t after hsplit t' ht' fetch hfetch hnone
    obtain ⟨first, between, rfl⟩ := List.append_of_mem ht'
    -- the update processed next after the failure does not come back to it
    obtain ⟨next, rest, hnext⟩ : ∃ next rest, between ++ t :: after = next :: rest := by
      cases between with
      | nil => exact ⟨t, after, rfl⟩
      | cons next between => exact ⟨next, between ++ t :: after, rfl⟩
    have hsplit' : l.processedOf publisher = (first ++ [t']) ++ next :: rest := by
      rw [hsplit, List.append_assoc, List.cons_append, hnext]
      simp
    have hfrom := h.fetched_of_processed (hsplit' ▸ by simp : t' ∈ l.processedOf publisher)
    have hnextFrom := h.fetched_of_processed (hsplit' ▸ by simp : next ∈ l.processedOf publisher)
    obtain ⟨seq, stored⟩ := fetch
    obtain rfl : stored = 0 := hnone
    have hagain := hretried publisher _ next rest hsplit' seq (hfrom.last hfetch first)
    rw [hnextFrom.order, List.mem_range'_1] at hagain
    have hchain := h.chain hcontiguous publisher
    rw [hsplit', List.append_assoc, List.singleton_append] at hchain
    have hlow := (List.isChain_append_cons_cons.mp hchain).2.1
    have hhigh := hfrom.range _ hfetch
    omega
  · intro hreliable publisher before t after hsplit seq hlast
    obtain ⟨t', ht', hfetch⟩ := List.mem_flatMap.mp (Fields.mem_of_last hlast)
    exact absurd rfl (hreliable publisher before t after hsplit t' ht' _ hfetch)

/-! ## Every run -/

variable [NdnName Name] [NdnSync Name] [ScanStore Name Store]

/-- A step with one phase takes an update, or ends a fetch, or leaves the log as it is. -/
theorem step_cases (l : IngestLog Publisher Name Store) (heager : l.ingest.twoPhase = false)
    (e : IngestEvent Publisher Name Store × ℕ) :
    (∃ update updates, emitted e = none ∧ l.ingest.loop = .waiting ∧
      l.ingest.updates = update :: updates ∧
      l.step e = ⟨{ l.ingest with
        updates := updates, loop := IngestGroup.enter update update.lowSeq },
        l.taken ++ [⟨update, []⟩]⟩) ∨
    (∃ store update seq, emitted e = none ∧ l.ingest.loop = .fetching update seq ∧
      l.step e = ⟨{ l.ingest with store := store, loop := IngestGroup.enter update (seq + 1) },
        l.taken.modifyLast fun t => { t with fetches := t.fetches ++ [(seq, e.2)] }⟩) ∨
    (∃ update seq, l.ingest.loop = .acking update seq) ∨
    ((l.step e).ingest.twoPhase = false ∧ (l.step e).taken = l.taken ∧
      (l.step e).ingest.updates = l.ingest.updates ++ (emitted e).toList ∧
      ((l.step e).ingest.loop = l.ingest.loop ∨ (l.step e).ingest.loop = .done)) := by
  obtain ⟨e, stored⟩ := e
  cases hloop : l.ingest.loop with
  | acking update seq => exact Or.inr (Or.inr (Or.inl ⟨update, seq, rfl⟩))
  | waiting =>
      cases hupdates : l.ingest.updates with
      | nil =>
          refine Or.inr (Or.inr (Or.inr ?_))
          cases e <;> simp [step, IngestGroup.step, emitted, hloop, hupdates, heager]
      | cons update updates =>
          cases e with
          | recv => exact Or.inl ⟨update, updates, rfl, rfl, rfl,
              by simp only [step, IngestGroup.step, hloop, hupdates]⟩
          | emit | fetched | acked | changed | cancel =>
              refine Or.inr (Or.inr (Or.inr ?_))
              simp [step, IngestGroup.step, emitted, hloop, hupdates, heager]
  | fetching update seq =>
      cases e with
      | fetched store => exact Or.inr (Or.inl ⟨store, update, seq, rfl, rfl,
          by simp only [step, IngestGroup.step, hloop, heager, Bool.false_eq_true, if_false]⟩)
      | emit | recv | acked | changed | cancel =>
          refine Or.inr (Or.inr (Or.inr ?_))
          simp [step, IngestGroup.step, emitted, hloop, heager]
  | done =>
      refine Or.inr (Or.inr (Or.inr ?_))
      cases e <;> simp [step, IngestGroup.step, emitted, hloop, heager]

/-- Every step keeps it. -/
theorem Logged.step {past : List (SyncUpdate Publisher Name)}
    {l : IngestLog Publisher Name Store} (h : Logged past l)
    (e : IngestEvent Publisher Name Store × ℕ) :
    Logged (past ++ (emitted e).toList) (l.step e) := by
  obtain ⟨heager, htook, hfetched, hloop⟩ := h
  rcases l.step_cases heager e with ⟨update, updates, hnone, -, hupdates, hstep⟩ |
    ⟨store, update, seq, hnone, hat, hstep⟩ | ⟨update, seq, hat⟩ | ⟨hphase, htaken, hupdates, hat⟩
  · rw [hstep, hnone]
    refine ⟨heager, by simp [← htook, hupdates], fun t ht => ?_,
      loopLogged_enter l.taken ⟨update, []⟩⟩
    rcases List.mem_append.mp ht with ht | ht
    · exact hfetched t ht
    · obtain rfl := List.mem_singleton.mp ht
      exact ⟨rfl, fun fetch hmem => absurd hmem List.not_mem_nil⟩
  · rw [hat] at hloop
    obtain ⟨before, t, htaken, rfl, rfl, hle⟩ := hloop
    rw [htaken] at htook hfetched
    obtain ⟨horder, hrange⟩ := hfetched t (by simp)
    rw [hstep, hnone, htaken, List.modifyLast_concat]
    refine ⟨heager, by simpa using htook, fun t' ht' => ?_, ?_⟩
    · rcases List.mem_append.mp ht' with ht' | ht'
      · exact hfetched t' (List.mem_append_left _ ht')
      · obtain rfl := List.mem_singleton.mp ht'
        refine ⟨by simp [horder, List.range'_concat], fun fetch hmem => ?_⟩
        rcases List.mem_append.mp hmem with hmem | hmem
        · exact hrange fetch hmem
        · obtain rfl := List.mem_singleton.mp hmem
          exact hle
    · have henter := loopLogged_enter before { t with
        fetches := t.fetches ++ [(t.update.lowSeq + t.fetches.length, e.2)] }
      rwa [List.length_append, List.length_singleton, ← Nat.add_assoc] at henter
  · rw [hat] at hloop
    exact hloop.elim
  · refine ⟨hphase, by rw [htaken, hupdates, ← htook, List.append_assoc], htaken ▸ hfetched, ?_⟩
    rw [htaken]
    rcases hat with hat | hat
    · rw [hat]
      exact hloop
    · rw [hat]
      trivial

/-- So does every run. -/
theorem Logged.run : ∀ {past : List (SyncUpdate Publisher Name)}
    {l : IngestLog Publisher Name Store} (events : List (IngestEvent Publisher Name Store × ℕ)),
    Logged past l → Logged (past ++ events.filterMap emitted) (Steps.run IngestLog.step l events)
  | _, _, [], h => by simpa using h
  | past, l, e :: events, h => by
      have ih := (h.step e).run events
      rw [List.append_assoc] at ih
      rw [Steps.run_cons, List.filterMap_cons]
      cases hemitted : emitted e with
      | none => simpa [hemitted] using ih
      | some update => simpa [hemitted] using ih

/-- In every run whose updates are contiguous, failed fetches are made again in time
exactly if they are all for the last update of a publisher. -/
theorem retried_iff_reliable {start : IngestGroup Publisher Name Store}
    (hidle : start.loop = .waiting ∧ start.updates = []) (heager : start.twoPhase = false)
    {events : List (IngestEvent Publisher Name Store × ℕ)}
    (hcontiguous : Contiguous (events.filterMap emitted)) :
    (Steps.run step ⟨start, []⟩ events).Retried ↔ (Steps.run step ⟨start, []⟩ events).Reliable := by
  have hstart : Logged [] (⟨start, []⟩ : IngestLog Publisher Name Store) := by
    refine ⟨heager, hidle.2, fun t ht => absurd ht List.not_mem_nil, ?_⟩
    rw [hidle.1]
    trivial
  exact (hstart.run events).retried_iff (by rwa [List.nil_append])

end IngestLog

/-- A group ingested with one phase. -/
def eagerGroup : IngestGroup ℕ Components (FjallStore Components) :=
  { freshGroup with twoPhase := false }

/-- Two updates of one publication each.  The fetches store some packets. -/
def twoUpdates (stored stored' : ℕ) : List (IngestEvent ℕ Components (FjallStore Components) × ℕ) :=
  [(.emit ⟨0, [[8, 1, 97]], 1, 1⟩, 0), (.recv, 0), (.fetched .empty, stored),
    (.emit ⟨0, [[8, 1, 97]], 2, 2⟩, 0), (.recv, 0), (.fetched .empty, stored')]

theorem contiguous_twoUpdates (stored stored' : ℕ) :
    Contiguous ((twoUpdates stored stored').filterMap emitted) := by
  have hupdates : (twoUpdates stored stored').filterMap emitted =
      [⟨0, [[8, 1, 97]], 1, 1⟩, ⟨0, [[8, 1, 97]], 2, 2⟩] := rfl
  intro publisher
  rw [hupdates]
  by_cases h : 0 = publisher
  · simp [h]
  · simp [h]

namespace IngestLog

/-- Only the second fetch returns nothing. -/
theorem reliable_twoUpdates :
    (Steps.run step ⟨eagerGroup, []⟩ (twoUpdates 1 0)).Reliable := by
  have hprocessed : (Steps.run step ⟨eagerGroup, []⟩ (twoUpdates 1 0)).processed =
      [⟨⟨0, [[8, 1, 97]], 1, 1⟩, [(1, 1)]⟩, ⟨⟨0, [[8, 1, 97]], 2, 2⟩, [(2, 0)]⟩] := rfl
  intro publisher before t after hsplit
  rw [processedOf, hprocessed] at hsplit
  by_cases h : 0 = publisher
  · cases before with
    | nil => exact fun t' ht' => absurd ht' List.not_mem_nil
    | cons first before =>
        simp only [h, decide_true, List.filter_cons_of_pos, List.filter_nil, List.cons_append,
          List.cons.injEq] at hsplit
        obtain ⟨rfl, hrest⟩ := hsplit
        cases before with
        | nil => simp
        | cons second before => simp at hrest
  · simp [h] at hsplit

theorem retried_iff_reliable_twoUpdates :
    (Steps.run step ⟨eagerGroup, []⟩ (twoUpdates 1 0)).Reliable ∧
      (Steps.run step ⟨eagerGroup, []⟩ (twoUpdates 1 0)).Retried :=
  ⟨reliable_twoUpdates,
    (retried_iff_reliable ⟨rfl, rfl⟩ rfl (contiguous_twoUpdates 1 0)).mpr reliable_twoUpdates⟩

/-- The first fetch returns nothing and is not made again. -/
theorem not_retried_twoUpdates :
    eagerGroup.loop = .waiting ∧ eagerGroup.updates = [] ∧ eagerGroup.twoPhase = false ∧
      Contiguous ((twoUpdates 0 1).filterMap emitted) ∧
      ¬ (Steps.run step ⟨eagerGroup, []⟩ (twoUpdates 0 1)).Retried := by
  refine ⟨rfl, rfl, rfl, contiguous_twoUpdates 0 1, fun h => ?_⟩
  have hagain := h 0 [⟨⟨0, [[8, 1, 97]], 1, 1⟩, [(1, 0)]⟩] ⟨⟨0, [[8, 1, 97]], 2, 2⟩, [(2, 1)]⟩ []
    rfl 1 rfl
  exact absurd hagain (by decide)

end IngestLog

end NdnRepo
