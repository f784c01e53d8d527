import NdnRepo.Held.Concurrent

/-!
# Reads concurrent with inserts

A `get` reads the stripes one by one while inserts of its name go on.  What it
reads are records of the wires that were the last completed insert or in progress
meanwhile: a window of the log that opens with the last insert completed before
the call (`readOk_runs`).

The read returns a wire of the window, and returns one exactly when `k` of the
records it saw are of one wire (`get_during_inserts`).  It can miss the packet:
`torn_read_misses` has a 2-of-3 store and a read that sees three wires.
-/

namespace NdnRepo

open Coding

variable {Name : Type} [NdnName Name]

/-- A name that neither loses records nor is removed. -/
def Rules.sparing (name : Name) : Rules Name := ⟨(· ≠ name), (· ≠ name)⟩

variable [Sha2] [Codec UInt8]

/-- A stripe's record of a wire of the log from entry `c` on. -/
def FromWindow (e : Erasure) (log : List (Option Bytes)) (c stripe : ℕ) (record : Option Bytes) :
    Prop :=
  ∃ wire, some wire ∈ log.drop c ∧ record = some (e.stripeRecord wire stripe)

/-- A read saw records of the window only, and found what they make up. -/
structure SawWindow (e : Erasure) (log : List (Option Bytes)) (c : ℕ)
    (seen : List (Option Bytes)) (result : Option Bytes) : Prop where
  /-- Every stripe was read. -/
  length : seen.length = e.n
  /-- Each record is of the window. -/
  records : ∀ i < e.n, FromWindow e log c i (seen.getD i none)
  /-- The result is what they make up. -/
  result_eq : (e.assemble seen).map Assembled.wire = result

/-- What is known of a thread that reads `name`. -/
def Pc.ReadOk (e : Erasure) (log : List (Option Bytes)) (name : Name) (c : ℕ) : Pc Name → Prop
  | .getRead other seen => other = name → seen.length ≤ e.n ∧
      ∀ i < seen.length, FromWindow e log c i (seen.getD i none)
  | .repairWait other seen wire | .repairRead other seen wire _ | .repairWrite other seen wire _ _ =>
      other = name → SawWindow e log c seen (some wire)
  | .returned other seen result => other = name → SawWindow e log c seen result
  | _ => True

theorem FromWindow.mono {e : Erasure} {log log' : List (Option Bytes)} {c i : ℕ}
    {record : Option Bytes} (hlog : log <+: log') (h : FromWindow e log c i record) :
    FromWindow e log' c i record := by
  obtain ⟨wire, hwire, hrec⟩ := h
  obtain ⟨ext, rfl⟩ := hlog
  refine ⟨wire, ?_, hrec⟩
  rw [List.drop_append]
  exact List.mem_append_left _ hwire

theorem SawWindow.mono {e : Erasure} {log log' : List (Option Bytes)} {c : ℕ}
    {seen : List (Option Bytes)} {result : Option Bytes} (hlog : log <+: log')
    (h : SawWindow e log c seen result) : SawWindow e log' c seen result :=
  ⟨h.length, fun i hi => (h.records i hi).mono hlog, h.result_eq⟩

omit [NdnName Name] in
theorem Pc.ReadOk.mono {e : Erasure} {log log' : List (Option Bytes)} {name : Name} {c : ℕ}
    (hlog : log <+: log') : ∀ {pc : Pc Name}, pc.ReadOk e log name c → pc.ReadOk e log' name c
  | .getRead .., h => fun ho => ⟨(h ho).1, fun i hi => ((h ho).2 i hi).mono hlog⟩
  | .repairWait .., h | .repairRead .., h | .repairWrite .., h | .returned .., h =>
      fun ho => (h ho).mono hlog
  | .idle, _ | .insertWait .., _ | .insertWrite .., _ | .removeWait .., _ | .removeWrite .., _ =>
      trivial

omit [Sha2] [Codec UInt8] in
/-- The last entry of a first part of the log lies in a window that opens before. -/
theorem mem_drop_of_getLast? {α : Type} {l : List α} {m c : ℕ} {x : α}
    (h : (l.take m).getLast? = some x) (hc : c < m) (hm : m ≤ l.length) : x ∈ l.drop c := by
  have hlen : (l.take m).length = m := by simp [hm]
  rw [List.getLast?_eq_getElem?, hlen, List.getElem?_take_of_lt (by omega)] at h
  refine List.mem_of_getElem? (i := m - 1 - c) ?_
  rw [List.getElem?_drop, ← h]
  congr 1
  omega

/-! ## What a read returns -/

/-- The stripes in which a read saw the record of a wire. -/
def sawOf (e : Erasure) (seen : List (Option Bytes)) (wire : Bytes) : Finset ℕ :=
  (Finset.range e.n).filter fun i => seen.getD i none = some (e.stripeRecord wire i)

variable {e : Erasure} {c : ℕ}

/-- What is read from a window whose wires SHA-256 tells apart. -/
theorem SawWindow.result_cases (law : Lawful UInt8 e.k e.n) {log : List (Option Bytes)}
    {seen : List (Option Bytes)} {result : Option Bytes} (h : SawWindow e log c seen result)
    (hshort : ∀ w, some w ∈ log → w.length < u32Bound)
    (hsha : ∀ w w', some w ∈ log.drop c → some w' ∈ log.drop c → sha256 w = sha256 w' → w = w') :
    (∀ w, result = some w → some w ∈ log.drop c ∧ e.k ≤ (sawOf e seen w).card) ∧
      (∀ w, some w ∈ log.drop c → e.k ≤ (sawOf e seen w).card → result.isSome = true) := by
  choose! origin hwindow hrecord using h.records
  have hprov : e.Provenance seen fun i => some (origin i) := by
    refine ⟨h.length, fun i hi hnone => (Option.some_ne_none _ hnone).elim, fun i hi w hw => ?_,
      fun i hi j hj w w' hw hw' => ?_⟩
    · obtain rfl := Option.some.inj hw
      exact ⟨hshort _ (List.mem_of_mem_drop (hwindow i hi)), hrecord i hi⟩
    · obtain rfl := Option.some.inj hw
      obtain rfl := Option.some.inj hw'
      exact hsha _ _ (hwindow i hi) (hwindow j hj)
  have hholders : ∀ w, some w ∈ log.drop c →
      e.holders (fun i => some (origin i)) w = sawOf e seen w := by
    intro w hw
    ext i
    simp only [Erasure.mem_holders, sawOf, Finset.mem_filter, Finset.mem_range,
      Option.some.injEq]
    refine and_congr_right fun hi => ?_
    rw [hrecord i hi, Option.some.injEq]
    constructor
    · rintro rfl
      rfl
    · intro heq
      have h1 := Erasure.shard_stripeRecord law (hshort w (List.mem_of_mem_drop hw)) hi
      rw [← heq, Erasure.shard_stripeRecord law
        (hshort _ (List.mem_of_mem_drop (hwindow i hi))) hi] at h1
      simp only [Option.some.injEq, Erasure.Shard.mk.injEq] at h1
      exact hsha _ _ (hwindow i hi) hw h1.2.2.1
  constructor
  · intro w hw
    rw [← h.result_eq] at hw
    obtain ⟨a, ha, rfl⟩ := Option.map_eq_some_iff.mp hw
    obtain ⟨hk, -, -⟩ := hprov.assemble_eq_some law ha
    have hpos : 0 < (e.holders (fun i => some (origin i)) a.wire).card :=
      lt_of_lt_of_le e.k_pos hk
    obtain ⟨i, hi⟩ := Finset.card_pos.mp hpos
    obtain ⟨hi', horigin⟩ := Erasure.mem_holders.mp hi
    have hmem : some a.wire ∈ log.drop c := horigin ▸ hwindow i hi'
    exact ⟨hmem, hholders a.wire hmem ▸ hk⟩
  · intro w hw hk
    rw [← h.result_eq, Option.isSome_map, hprov.assemble_isSome law]
    exact ⟨w, hholders w hw ▸ hk⟩

/-- With few wires in the window, `k` of the records read are of one of them. -/
theorem SawWindow.exists_wire {log : List (Option Bytes)} {seen : List (Option Bytes)}
    {result : Option Bytes} (h : SawWindow e log c seen result) {wires : Finset Bytes}
    (hwires : ∀ w, some w ∈ log.drop c → w ∈ wires) (hfew : wires.card * (e.k - 1) < e.n) :
    ∃ w, some w ∈ log.drop c ∧ e.k ≤ (sawOf e seen w).card := by
  choose! origin hwindow hrecord using h.records
  have hmaps : ∀ i ∈ Finset.range e.n, origin i ∈ wires := fun i hi =>
    hwires _ (hwindow i (Finset.mem_range.mp hi))
  obtain ⟨w, -, hw⟩ := Finset.exists_lt_card_fiber_of_mul_lt_card_of_maps_to hmaps
    (by rwa [Finset.card_range])
  have hpos := Finset.card_pos.mp (lt_of_le_of_lt (Nat.zero_le _) hw)
  obtain ⟨i, hi⟩ := hpos
  rw [Finset.mem_filter, Finset.mem_range] at hi
  refine ⟨w, hi.2 ▸ hwindow i hi.1, ?_⟩
  have hsub : (Finset.range e.n).filter (fun i => origin i = w) ⊆ sawOf e seen w := by
    intro j hj
    rw [Finset.mem_filter, Finset.mem_range] at hj
    rw [sawOf, Finset.mem_filter, Finset.mem_range]
    exact ⟨hj.1, by rw [hrecord j hj.1, hj.2]⟩
  have hle := Finset.card_le_card hsub
  omega

/-! ## The window of a read -/

namespace System

variable {Tid : Type} [DecidableEq Tid] {e : Erasure} {name : Name} {c : ℕ}

omit [DecidableEq Tid] in
/-- A name that is spared has an entry in every stripe's record. -/
theorem Inv.fromWindow {s : System Tid Name} (h : Inv e (.sparing name) s)
    (hc : c < s.completed name) {i : ℕ} (hi : i < e.n) :
    FromWindow e (s.log name) c i (s.store.record i name) := by
  have hlen : s.completed name ≤ (s.log name).length := by
    by_cases hbusy : ∃ t, (s.pc t).writing = some name
    · obtain ⟨t, ht⟩ := hbusy
      rw [h.busy t name ht]
      omega
    · rw [h.rest name fun t ht => hbusy ⟨t, ht⟩]
  have hentry : ∀ m, c < m → m ≤ (s.log name).length →
      RecordOk e (.sparing name) name i (s.store.record i name)
        ((s.log name).take m).getLast?.join →
      FromWindow e (s.log name) c i (s.store.record i name) := by
    intro m hcm hm hrec
    obtain ⟨entry, hlast⟩ : ∃ entry, ((s.log name).take m).getLast? = some entry :=
      ⟨_, List.getLast?_eq_some_getLast (List.ne_nil_of_length_pos (by
        rw [List.length_take]
        omega))⟩
    have hmem := mem_drop_of_getLast? hlast hcm hm
    cases entry with
    | none => exact absurd rfl (h.removed name (List.mem_of_mem_drop hmem))
    | some wire =>
        rcases hrec with hrec | ⟨hlossy, -⟩
        · exact ⟨wire, hmem, by rw [hrec, hlast]; rfl⟩
        · exact absurd rfl hlossy
  by_cases hpend : ∃ t, (s.pc t).pending name i
  · obtain ⟨t, ht⟩ := hpend
    exact hentry _ hc hlen (h.unsettled name i hi t ht)
  · refine hentry (s.log name).length (lt_of_lt_of_le hc hlen) (le_refl _) ?_
    rw [List.take_length]
    exact h.settled name i hi fun t ht => hpend ⟨t, ht⟩

/-- A step only adds to the log and completes more. -/
theorem step_log {s s' : System Tid Name} {a : Action Tid Name} (hs : s.step a = some s')
    (name : Name) : s.log name <+: s'.log name ∧ s.completed name ≤ s'.completed name := by
  have hsame : ∀ {s'' : System Tid Name}, s''.log = s.log → s''.completed = s.completed →
      s.log name <+: s''.log name ∧ s.completed name ≤ s''.completed name := by
    intro s'' hl hc
    rw [hl, hc]
    exact ⟨List.prefix_rfl, le_refl _⟩
  have hdone : ∀ t other, s.log name <+: (s.unlockDone t other).log name ∧
      s.completed name ≤ (s.unlockDone t other).completed name := by
    intro t other
    refine ⟨List.prefix_rfl, ?_⟩
    by_cases ho : name = other
    · subst ho
      simp [unlockDone]
    · simp [unlockDone, Function.update_of_ne ho]
  have hlock : ∀ t other entry pc, s.log name <+: (s.lockFor t other entry pc).log name ∧
      s.completed name ≤ (s.lockFor t other entry pc).completed name := by
    intro t other entry pc
    refine ⟨?_, le_refl _⟩
    by_cases ho : name = other
    · subst ho
      simp [lockFor]
    · simp [lockFor, Function.update_of_ne ho]
  cases acts_of_step hs with
  | lockInsert | lockRemove => exact hlock ..
  | @run t _ hnext =>
      generalize s.pc t = pc at hnext
      cases hnext with
      | insertDone | removeDone => exact hdone ..
      | _ => exact hsame rfl rfl
  | _ => exact hsame rfl rfl

/-- A step of another thread, or one that only moves this thread on. -/
theorem readOk_goto {s : System Tid Name} {t t' : Tid} {log' : List (Option Bytes)} {pc : Pc Name}
    (h : (s.pc t).ReadOk e (s.log name) name c) (hlog : s.log name <+: log')
    (hpc : t = t' → pc.ReadOk e log' name c) : ((s.goto t' pc).pc t).ReadOk e log' name c := by
  rw [goto_pc]
  split
  next ht => exact hpc ht
  · exact h.mono hlog

/-- A thread's next step keeps a read seeing the window. -/
theorem readOk_next {s s' : System Tid Name} {t t' : Tid} {pc : Pc Name}
    (hinv : Inv e (.sparing name) s) (hc : c < s.completed name) (hpc : s.pc t' = pc)
    (h : (s.pc t).ReadOk e (s.log name) name c) (hnext : Next s t' pc s') :
    (s'.pc t).ReadOk e (s'.log name) name c := by
  obtain rfl := hinv.erasure
  have hlog : s.log name <+: s.log name := List.prefix_rfl
  have hat : t = t' → pc.ReadOk s.store.erasure (s.log name) name c := by
    rintro rfl
    exact hpc ▸ h
  cases hnext with
  | insertPut | insertDone | removePut | removeDone | leave =>
      exact readOk_goto h hlog fun _ => trivial
  | @getMore other seen hmore =>
      refine readOk_goto h hlog fun ht ho => ?_
      obtain ⟨-, hseen⟩ := hat ht ho
      refine ⟨by simpa using hmore, fun i hi => ?_⟩
      rw [List.length_append, List.length_singleton] at hi
      rcases Nat.lt_succ_iff_lt_or_eq.mp hi with hlt | rfl
      · rw [List.getD_append _ _ _ _ hlt]
        exact hseen i hlt
      · have hrec := hinv.fromWindow hc hmore
        simpa [ho, System.goto] using hrec
  | getNothing hfull hnone =>
      refine readOk_goto h hlog fun ht ho => ?_
      obtain ⟨hlen, hseen⟩ := hat ht ho
      have hall := le_antisymm hlen hfull
      exact ⟨hall, hall ▸ hseen, by rw [hnone]; rfl⟩
  | getWhole hfull hgot | getStale hfull hgot =>
      refine readOk_goto h hlog fun ht ho => ?_
      obtain ⟨hlen, hseen⟩ := hat ht ho
      have hall := le_antisymm hlen hfull
      exact ⟨hall, hall ▸ hseen, by rw [hgot]; rfl⟩
  | repairMore | repairNothing | repairStart | repairDone | repairPut =>
      exact readOk_goto h hlog hat

/-- A read keeps seeing the window. -/
theorem readOk_step {s s' : System Tid Name} {a : Action Tid Name} {t : Tid}
    (hinv : Inv e (.sparing name) s) (hc : c < s.completed name)
    (h : (s.pc t).ReadOk e (s.log name) name c) (hs : s.step a = some s') :
    (s'.pc t).ReadOk e (s'.log name) name c := by
  have hlog := (step_log hs name).1
  cases acts_of_step hs with
  | insertLong | insertFailed | lose => exact h
  | insertCall | removeCall | lockInsert | lockRemove =>
      exact readOk_goto h hlog fun _ => trivial
  | getCall =>
      exact readOk_goto h hlog fun _ _ =>
        ⟨Nat.zero_le _, fun i hi => absurd hi (Nat.not_lt_zero i)⟩
  | lockRepair hfree hpc =>
      refine readOk_goto h hlog fun ht => ?_
      rw [ht, hpc] at h
      exact h
  | run hnext => exact readOk_next hinv hc rfl h hnext

/-- Through a run, a read sees the window that opened before it. -/
theorem readOk_runs (law : Lawful UInt8 e.k e.n) {s s' : System Tid Name} {t : Tid}
    (hinv : Inv e (.sparing name) s) (hc : c < s.completed name)
    (h : (s.pc t).ReadOk e (s.log name) name c) (hruns : Runs e (.sparing name) s s') :
    Inv e (.sparing name) s' ∧ (s'.pc t).ReadOk e (s'.log name) name c := by
  have hall : Inv e (.sparing name) s' ∧ c < s'.completed name ∧
      (s'.pc t).ReadOk e (s'.log name) name c := by
    induction hruns with
    | refl => exact ⟨hinv, hc, h⟩
    | tail _ hmove ih =>
        obtain ⟨a, hallowed, hs⟩ := hmove
        obtain ⟨hinv', hc', h'⟩ := ih
        exact ⟨inv_step law hinv' hallowed hs, lt_of_lt_of_le hc' (step_log hs name).2,
          readOk_step hinv' hc' h' hs⟩
  exact ⟨hall.1, hall.2.2⟩

/-- A read during inserts.  Its window are the wires of the inserts that were the
last completed one or in progress at some moment of the read.  It returns only
wires of the window, and returns one exactly when `k` of the records it saw are of
one of them, so whenever the window holds few enough wires for `n` stripes. -/
theorem get_during_inserts (law : Lawful UInt8 e.k e.n) {s₀ s₁ s : System Tid Name} {t : Tid}
    {seen : List (Option Bytes)} {result : Option Bytes}
    (hruns₀ : Runs e (.sparing name) (start e) s₀) (hdone : 0 < s₀.completed name)
    (hcall : s₀.step (.get t name) = some s₁) (hruns : Runs e (.sparing name) s₁ s)
    (hret : s.pc t = .returned name seen result)
    (hsha : ∀ w w', some w ∈ (s.log name).drop (s₀.completed name - 1) →
      some w' ∈ (s.log name).drop (s₀.completed name - 1) → sha256 w = sha256 w' → w = w') :
    (∀ w, result = some w → some w ∈ (s.log name).drop (s₀.completed name - 1)) ∧
      (result.isSome = true ↔ ∃ w, some w ∈ (s.log name).drop (s₀.completed name - 1) ∧
        e.k ≤ (sawOf e seen w).card) ∧
      ∀ wires : Finset Bytes,
        (∀ w, some w ∈ (s.log name).drop (s₀.completed name - 1) → w ∈ wires) →
          wires.card * (e.k - 1) < e.n → result.isSome = true := by
  have hinv₀ := inv_runs law (inv_start e _) hruns₀
  have hinv₁ := inv_step law hinv₀ (a := .get t name) trivial hcall
  have hc : s₀.completed name - 1 < s₁.completed name :=
    lt_of_lt_of_le (by omega) (step_log hcall name).2
  have hread₁ : (s₁.pc t).ReadOk e (s₁.log name) name (s₀.completed name - 1) := by
    cases acts_of_step hcall with
    | getCall =>
        rw [goto_pc, if_pos rfl]
        exact fun _ => ⟨Nat.zero_le _, fun i hi => absurd hi (Nat.not_lt_zero i)⟩
  obtain ⟨hinv, hread⟩ := readOk_runs law hinv₁ hc hread₁ hruns
  rw [hret] at hread
  have hsaw : SawWindow e (s.log name) (s₀.completed name - 1) seen result := hread rfl
  obtain ⟨honly, hfound⟩ := hsaw.result_cases law (hinv.short name) hsha
  refine ⟨fun w hw => (honly w hw).1, ⟨fun hsome => ?_, ?_⟩, fun wires hwires hfew => ?_⟩
  · obtain ⟨w, hw⟩ := Option.isSome_iff_exists.mp hsome
    exact ⟨w, honly w hw⟩
  · rintro ⟨w, hw, hk⟩
    exact hfound w hw hk
  · obtain ⟨w, hw, hk⟩ := hsaw.exists_wire hwires hfew
    exact hfound w hw hk

/-! ### A torn read -/

/-- Thread 0 inserts a wire under `/b`, from the call to the unlock. -/
def insertB (wire : Bytes) : List (Action (Fin 2) Components) :=
  [.insert 0 [[8, 1, 98]] wire, .lock 0, .run 0, .run 0, .run 0, .run 0]

omit [Sha2] [Codec UInt8] in
theorem insertB_allowed [Sha2] (e : Erasure) (wire : Bytes) :
    ∀ a ∈ insertB wire, a.Allowed e (.sparing [[8, 1, 98]]) := by
  simp [insertB, Action.Allowed]

/-- Thread 1 reads a stripe before an insert and the others after it. -/
def lateRead : List (Action (Fin 2) Components) :=
  .run 1 :: insertB [2, 3] ++ [.run 1, .run 1, .run 1, .lock 1, .run 1, .run 1, .run 1, .run 1]

/-- Thread 1 reads each stripe after one more insert. -/
def tornRead : List (Action (Fin 2) Components) :=
  .run 1 :: insertB [2, 3] ++ .run 1 :: insertB [3, 1] ++ [.run 1, .run 1]

omit [Sha2] [Codec UInt8] in
theorem get_lateRead :
    letI := shortSha2
    letI := xorCodec
    ∃ s : System (Fin 2) Components,
      (insertB [1, 2] ++ .get 1 [[8, 1, 98]] :: lateRead).foldlM step (start default) = some s ∧
        ∃ w, s.pc 1 = .returned [[8, 1, 98]]
            [some (Erasure.stripeRecord default [1, 2] 0),
              some (Erasure.stripeRecord default [2, 3] 1),
              some (Erasure.stripeRecord default [2, 3] 2)] (some w) ∧
          some w ∈ [some [1, 2], some [2, 3]] := by
  let _ := shortSha2
  let _ := xorCodec
  have hcheck : ((insertB [1, 2]).foldlM step (start default)).bind (fun s₀ =>
      (s₀.step (.get 1 [[8, 1, 98]])).bind fun s₁ => (lateRead.foldlM step s₁).map fun s =>
        decide (s₀.completed [[8, 1, 98]] = 1) &&
          decide (s.log [[8, 1, 98]] = [some [1, 2], some [2, 3]]) &&
          decide (s.pc 1 = .returned [[8, 1, 98]]
            [some (Erasure.stripeRecord default [1, 2] 0),
              some (Erasure.stripeRecord default [2, 3] 1),
              some (Erasure.stripeRecord default [2, 3] 2)] (some [2, 3]))) = some true := by
    decide +kernel
  obtain ⟨s₀, h₀, hcheck⟩ := Option.bind_eq_some_iff.mp hcheck
  obtain ⟨s₁, h₁, hcheck⟩ := Option.bind_eq_some_iff.mp hcheck
  obtain ⟨s, hs, hcheck⟩ := Option.map_eq_some_iff.mp hcheck
  simp only [Bool.and_eq_true, decide_eq_true_eq] at hcheck
  obtain ⟨⟨hdone, hlog⟩, hret⟩ := hcheck
  have hallowed : ∀ a ∈ lateRead, a.Allowed default (.sparing [[8, 1, 98]]) := by
    simp [lateRead, insertB, Action.Allowed]
  have hsha : ∀ w w', some w ∈ [some [1, 2], some [2, 3]] → some w' ∈ [some [1, 2], some [2, 3]] →
      sha256 w = sha256 w' → w = w' := by
    simp only [List.mem_cons, Option.some.injEq, List.not_mem_nil, or_false]
    rintro w w' (rfl | rfl) (rfl | rfl) <;> decide
  have hget := get_during_inserts (lawful_xorCodec (Or.inr rfl))
    (runs_of_steps (insertB_allowed default [1, 2]) h₀) (by omega) h₁ (runs_of_steps hallowed hs)
    hret (by rw [hlog, hdone]; exact hsha)
  rw [hlog, hdone] at hget
  refine ⟨s, ?_, [2, 3], hret, hget.1 _ rfl⟩
  rw [List.foldlM_append, h₀, Option.bind_eq_bind, Option.bind_some, List.foldlM_cons, h₁,
    Option.bind_eq_bind, Option.bind_some, hs]

omit [Sha2] [Codec UInt8] in
/-- A packet is inserted, and a read of it misses it while two inserts replace it. -/
theorem torn_read_misses :
    letI := shortSha2
    letI := xorCodec
    ∃ s₀ s₁ s : System (Fin 2) Components, ∃ seen,
      Runs default (.sparing [[8, 1, 98]]) (start default) s₀ ∧ 0 < s₀.completed [[8, 1, 98]] ∧
        s₀.step (.get 1 [[8, 1, 98]]) = some s₁ ∧
        Runs default (.sparing [[8, 1, 98]]) s₁ s ∧ s.pc 1 = .returned [[8, 1, 98]] seen none := by
  let _ := shortSha2
  let _ := xorCodec
  have hcheck : ((insertB [1, 2]).foldlM step (start default)).bind (fun s₀ =>
      (s₀.step (.get 1 [[8, 1, 98]])).bind fun s₁ => (tornRead.foldlM step s₁).map fun s =>
        decide (s₀.completed [[8, 1, 98]] = 1) &&
          decide (s.pc 1 = .returned [[8, 1, 98]]
            [some (Erasure.stripeRecord default [1, 2] 0),
              some (Erasure.stripeRecord default [2, 3] 1),
              some (Erasure.stripeRecord default [3, 1] 2)] none)) = some true := by
    decide +kernel
  obtain ⟨s₀, h₀, hcheck⟩ := Option.bind_eq_some_iff.mp hcheck
  obtain ⟨s₁, h₁, hcheck⟩ := Option.bind_eq_some_iff.mp hcheck
  obtain ⟨s, hs, hcheck⟩ := Option.map_eq_some_iff.mp hcheck
  simp only [Bool.and_eq_true, decide_eq_true_eq] at hcheck
  have hallowed : ∀ a ∈ tornRead, a.Allowed default (.sparing [[8, 1, 98]]) := by
    simp [tornRead, insertB, Action.Allowed]
  exact ⟨s₀, s₁, s, _, runs_of_steps (insertB_allowed default [1, 2]) h₀, by omega, h₁,
    runs_of_steps hallowed hs, hcheck.2⟩

end System

end NdnRepo
