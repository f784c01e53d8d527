import NdnRepo.Held.Record
import NdnRepo.Lib.Text

/-!
# Opening a holder's store

The parameters the held packets were coded with stand in a file, `k/n` and a line feed.
It is read with any white space around the numbers and the slash (`fromStr_eq_ok`), and
what `Display` writes is read back (`fromStr_toStr`).

The first opening puts the file in place and syncs the directory, before any store is
opened.  A later one with other parameters is refused and touches nothing
(`openRecord_eq_ok`, `openRecord_snd`).  An opening may fail at each of its steps, and one that is
killed is one that fails where it was killed.
-/

namespace NdnRepo

open Text

/-- Why a holder's store did not open. -/
inductive OpenError where
  /-- `k`/`n` out of range. -/
  | parameters (why : HeldError)
  /-- Not written `<k>/<n>`. -/
  | unreadable (text : List Char)
  /-- A directory or the erasure record could not be read or written. -/
  | io (path : List String) (source : String)
  /-- A stripe's or the own store's engine did not open. -/
  | engine (path : List String) (source : String)
  /-- The held packets were coded with other parameters. -/
  | mismatch (path : List String) (stored asked : Erasure)
  /-- The erasure record is not `<k>/<n>`. -/
  | record (path : List String) (text : List Char)
deriving DecidableEq

namespace Erasure

/-- `<k>/<n>`. -/
def toStr (e : Erasure) : List Char := decimal e.k ++ '/' :: decimal e.n

/-- The parameters a text `<k>/<n>` names. -/
def fromStr (s : List Char) : Except OpenError Erasure :=
  match splitOnce '/' (trim s) with
  | none => .error (.unreadable s)
  | some (k, n) =>
      match parseUnsigned (2 ^ 16) (trim k), parseUnsigned (2 ^ 16) (trim n) with
      | some k, some n => (new k n).mapError .parameters
      | _, _ => .error (.unreadable s)

/-- `<k>/<n>`, the numbers padded with white space. -/
def Written (s : List Char) (k n : ℕ) : Prop :=
  ∃ a k' b c n' d, Blank a ∧ Blank b ∧ Blank c ∧ Blank d ∧ Numeral k' k ∧ Numeral n' n ∧
    s = a ++ (k' ++ (b ++ '/' :: (c ++ (n' ++ d))))

/-- A written text is taken apart where it was put together. -/
theorem splitOnce_written {a k' b c n' d : List Char} {k n : ℕ} (ha : Blank a) (hb : Blank b)
    (hd : Blank d) (hk : Numeral k' k) (hn : Numeral n' n) :
    splitOnce '/' (trim (a ++ (k' ++ (b ++ '/' :: (c ++ (n' ++ d)))))) =
      some (k' ++ b, c ++ n') := by
  have hjoined : a ++ (k' ++ (b ++ '/' :: (c ++ (n' ++ d)))) =
      a ++ ((k' ++ ((b ++ '/' :: c) ++ n')) ++ d) := by simp
  have hslash : '/' ∉ k' ++ b := by
    intro h
    rcases List.mem_append.mp h with h | h
    · exact absurd (hk.mem h) (by decide)
    · exact absurd (hb _ h) (by decide)
  rw [hjoined, trim_pad ha (trimmed_between hk _ hn) hd]
  exact splitOnce_eq_some.mpr ⟨hslash, by simp⟩

/-- A text names parameters exactly if it is written so and they are in range. -/
theorem fromStr_eq_ok {s : List Char} {e : Erasure} : fromStr s = .ok e ↔ Written s e.k e.n := by
  constructor
  · intro h
    obtain ⟨a, d, ha, hd, hs⟩ := exists_pad s
    unfold fromStr at h
    cases hsplit : splitOnce '/' (trim s) with
    | none =>
        rw [hsplit] at h
        cases h
    | some p =>
        obtain ⟨k', n'⟩ := p
        obtain ⟨-, htrim⟩ := splitOnce_eq_some.mp hsplit
        rw [hsplit] at h
        cases hk : parseUnsigned (2 ^ 16) (trim k') with
        | none =>
            simp only [hk] at h
            cases h
        | some k =>
            cases hn : parseUnsigned (2 ^ 16) (trim n') with
            | none =>
                simp only [hk, hn] at h
                cases h
            | some n =>
                simp only [hk, hn] at h
                obtain ⟨rfl, rfl⟩ : e.k = k ∧ e.n = n := by
                  rw [← new_eq_ok]
                  cases hnew : new k n with
                  | error why =>
                      rw [hnew] at h
                      cases h
                  | ok e' =>
                      rw [hnew] at h
                      cases h
                      rfl
                obtain ⟨a', b, ha', hb, hk'⟩ := exists_pad k'
                obtain ⟨c, d', hc, hd', hn'⟩ := exists_pad n'
                refine ⟨a ++ a', trim k', b, c, trim n', d' ++ d, ha.append ha', hb, hc,
                  hd'.append hd, (parseUnsigned_eq_some.mp hk).1,
                  (parseUnsigned_eq_some.mp hn).1, ?_⟩
                calc s = a ++ (trim s ++ d) := hs
                  _ = a ++ ((k' ++ '/' :: n') ++ d) := by rw [htrim]
                  _ = a ++ (((a' ++ (trim k' ++ b)) ++ '/' :: (c ++ (trim n' ++ d'))) ++ d) := by
                    rw [← hk', ← hn']
                  _ = _ := by simp
  · rintro ⟨a, k', b, c, n', d, ha, hb, hc, hd, hk, hn, rfl⟩
    have hpads : trim (k' ++ b) = k' ∧ trim (c ++ n') = n' := by
      refine ⟨?_, ?_⟩
      · exact trim_pad (fun _ h => absurd h List.not_mem_nil) hk.trimmed hb
      · have hpad := trim_pad hc hn.trimmed (fun _ h => absurd h List.not_mem_nil : Blank [])
        rwa [List.append_nil] at hpad
    have hbounds : e.k < 2 ^ 16 ∧ e.n < 2 ^ 16 := by
      have hk := e.k_le_n
      have hn := e.n_le
      omega
    unfold fromStr
    rw [splitOnce_written ha hb hd hk hn]
    simp only [hpads, parseUnsigned_eq_some.mpr ⟨hk, hbounds.1⟩,
      parseUnsigned_eq_some.mpr ⟨hn, hbounds.2⟩, new_eq_ok.mpr ⟨rfl, rfl⟩]
    rfl

/-- What is written is read back, and with a line feed. -/
theorem fromStr_toStr (e : Erasure) {after : List Char} (hafter : Blank after) :
    fromStr (e.toStr ++ after) = .ok e := by
  refine fromStr_eq_ok.mpr ⟨[], decimal e.k, [], [], decimal e.n, after, ?_, ?_, ?_, hafter,
    numeral_decimal e.k, numeral_decimal e.n, by simp [toStr]⟩
  all_goals exact fun _ h => absurd h List.not_mem_nil

end Erasure

/-- The path of a file in the store at `dir`. -/
def pathIn (dir : String) (path : List String) : String := "/".intercalate (dir :: path)

/-- What a failed opening of the store at `dir` says.  `debugText` is `{:?}` of texts. -/
def OpenError.text (debugText : String → String) (dir : String) : OpenError → String
  | .parameters (.parameters k n) => s!"erasure {k}/{n}: need 1 <= k <= n <= 255 " ++
      "(any k of the n stripes rebuild a packet); pick e.g. 2/3"
  | .unreadable text => s!"erasure {debugText (String.ofList text)}: " ++
      "write it as <k>/<n>, e.g. 2/3"
  | .io path source => s!"{pathIn dir path}: {source}; " ++
      "check the store directory's permissions and disk"
  | .engine path source => s!"open store {pathIn dir path}: {source}; " ++
      "check the directory, or move it aside to start it empty"
  | .mismatch path stored asked =>
      let stored := String.ofList stored.toStr
      s!"{pathIn dir path} records that the held packets were coded {stored}; " ++
        s!"open it with erasure {stored} (as {String.ofList asked.toStr} they would not decode), " ++
        "or move the store aside to start empty"
  | .record path text =>
      s!"{pathIn dir path}: {debugText (String.ofList text)} is not an erasure " ++
        "record <k>/<n>; write the parameters the store was coded with into it"

/-! ## The erasure record -/

/-- The file `<dir>/erasure`: what a read finds, and what is there after a power loss
unless the directory was synced too late. -/
structure RecordFile where
  /-- What a read finds. -/
  visible : Option (List Char)
  /-- What is on disk. -/
  durable : Option (List Char)

/-- What goes wrong at the steps of an opening, if anything does. -/
structure OpenFaults where
  /-- `create_dir_all`. -/
  create : Option String
  /-- Reading the record fails, and not for want of it. -/
  read : Option String
  /-- `write_private`. -/
  write : Option String
  /-- Syncing the directory. -/
  syncDir : Option String
  /-- Opening the own store. -/
  own : Option String
  /-- Opening a stripe. -/
  stripe : ℕ → Option String

/-- Nothing goes wrong. -/
def OpenFaults.none : OpenFaults := ⟨.none, .none, .none, .none, .none, fun _ => .none⟩

/-- The text of the erasure record. -/
def recordText (e : Erasure) : List Char := e.toStr ++ ['\n']

theorem fromStr_recordText (e : Erasure) : Erasure.fromStr (recordText e) = .ok e :=
  e.fromStr_toStr (by
    intro c hc
    rw [List.mem_singleton.mp hc]
    decide)

/-- The directory and the record: read, or written on the first opening. -/
def openRecord (asked : Erasure) (faults : OpenFaults) (file : RecordFile) :
    Except OpenError Unit × RecordFile :=
  match faults.create with
  | some source => (.error (.io [] source), file)
  | none =>
    match faults.read with
    | some source => (.error (.io ["erasure"] source), file)
    | none =>
      match file.visible with
      | some text =>
          match Erasure.fromStr text with
          | .error _ => (.error (.record ["erasure"] text), file)
          | .ok stored =>
              if stored = asked then (.ok (), file)
              else (.error (.mismatch ["erasure"] stored asked), file)
      | none =>
          match faults.write with
          | some source => (.error (.io ["erasure"] source), file)
          | none =>
              -- renamed into place, but the directory is not synced yet
              let file := { file with visible := some (recordText asked) }
              match faults.syncDir with
              | some source => (.error (.io ["erasure"] source), file)
              | none => (.ok (), { file with durable := file.visible })

/-- The own store, then the stripes in order. -/
def openStores (asked : Erasure) (faults : OpenFaults) : Except OpenError Unit :=
  match faults.own with
  | some source => .error (.engine ["own"] source)
  | none => (List.range asked.n).forM fun i =>
      match faults.stripe i with
      | some source => .error (.engine ["held", toString i] source)
      | none => .ok ()

/-- `HolderStore::open`, as far as the directory and the record go. -/
def openHolder (asked : Erasure) (faults : OpenFaults) (file : RecordFile) :
    Except OpenError Unit × RecordFile :=
  match openRecord asked faults file with
  | (.error why, file) => (.error why, file)
  | (.ok (), file) => (openStores asked faults, file)

/-- What an opening does to the record: nothing, or it puts its own in place where there was
none, and then it either failed or synced the directory. -/
theorem openRecord_cases (asked : Erasure) (faults : OpenFaults) (file : RecordFile) :
    (openRecord asked faults file).2 = file ∧ ((openRecord asked faults file).1 = .ok () →
        ∃ text, file.visible = some text ∧ Erasure.fromStr text = .ok asked) ∨
      file.visible = none ∧ (faults.syncDir.isSome ∧
          (∃ why, (openRecord asked faults file).1 = .error why) ∧
          (openRecord asked faults file).2 = ⟨some (recordText asked), file.durable⟩ ∨
        faults.syncDir = none ∧ (openRecord asked faults file).1 = .ok () ∧
          (openRecord asked faults file).2 =
            ⟨some (recordText asked), some (recordText asked)⟩) := by
  obtain ⟨create, read, write, syncDir, own, stripe⟩ := faults
  obtain ⟨visible, durable⟩ := file
  unfold openRecord
  cases create with
  | some source => exact Or.inl ⟨rfl, nofun⟩
  | none =>
      cases read with
      | some source => exact Or.inl ⟨rfl, nofun⟩
      | none =>
          cases visible with
          | some text =>
              refine Or.inl ?_
              cases hread : Erasure.fromStr text with
              | error why =>
                  simp only [hread]
                  exact ⟨trivial, nofun⟩
              | ok stored =>
                  simp only [hread]
                  split
                  next hsame => exact ⟨rfl, fun _ => ⟨text, rfl, hsame ▸ hread⟩⟩
                  next => exact ⟨rfl, nofun⟩
          | none =>
              cases write with
              | some source => exact Or.inl ⟨rfl, nofun⟩
              | none =>
                  refine Or.inr ⟨rfl, ?_⟩
                  cases syncDir with
                  | some source => exact Or.inl ⟨rfl, ⟨_, rfl⟩, rfl⟩
                  | none => exact Or.inr ⟨rfl, rfl, rfl⟩

/-- Where the record names parameters, an opening that nothing goes wrong with succeeds
with those, and is refused with any others. -/
theorem openHolder_none (asked stored : Erasure) {durable : Option (List Char)} :
    openHolder asked .none ⟨some (recordText stored), durable⟩ =
      (if stored = asked then .ok () else .error (.mismatch ["erasure"] stored asked),
        ⟨some (recordText stored), durable⟩) := by
  have hstores : openStores asked .none = .ok () := by
    show (List.range asked.n).forM (fun _ => (.ok () : Except OpenError Unit)) = .ok ()
    induction List.range asked.n with
    | nil => rfl
    | cons i is ih => exact ih
  unfold openHolder openRecord
  simp only [OpenFaults.none, fromStr_recordText]
  rcases eq_or_ne stored asked with rfl | hne
  · simp only [if_true]
    exact Prod.ext hstores rfl
  · simp only [if_neg hne]

end NdnRepo
