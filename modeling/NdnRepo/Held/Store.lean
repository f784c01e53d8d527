import NdnRepo.Held.Assemble

/-!
# The erasure-coded store

`FjallStore` is a map from names to records, kept in name order.  `ErasureStore`
spreads every packet over `n` of them, one record in each.  A read that finds
stripes without a good shard repairs them, so `get` and the scans return the
store they leave behind.

The lemmas at the end say what each operation does to the records of one name.
Proofs about the store use these and not the definitions.
-/

namespace NdnRepo

open Coding

variable {Name : Type} [NdnName Name]

/-! ## A stripe -/

/-- An on-disk store: records by name, in name order. -/
structure FjallStore (Name : Type) [NdnName Name] where
  /-- The records. -/
  entries : Std.ExtTreeMap Name Bytes compare

namespace FjallStore

/-- A store with nothing in it. -/
def empty : FjallStore Name := ⟨∅⟩

/-- The record of a name. -/
def get (s : FjallStore Name) (name : Name) : Option Bytes := s.entries[name]?

/-- Write the record of a name. -/
def insert (s : FjallStore Name) (name : Name) (record : Bytes) : FjallStore Name :=
  ⟨s.entries.insert name record⟩

/-- Delete the record of a name. -/
def remove (s : FjallStore Name) (name : Name) : FjallStore Name := ⟨s.entries.erase name⟩

/-- Whether there is a record of a name. -/
def contains (s : FjallStore Name) (name : Name) : Bool := s.entries.contains name

/-- Every entry under a name, in name order. -/
def entriesUnder (s : FjallStore Name) (under : Name) : List (Name × Bytes) :=
  s.entries.toList.filter fun entry => hasPrefix entry.1 under

/-- The first `limit` (0 = all) entries under a name, in name order. -/
def scanUnder (s : FjallStore Name) (under : Name) (limit : ℕ) : List (Name × Bytes) :=
  if limit = 0 then s.entriesUnder under else (s.entriesUnder under).take limit

/-- The first entry under a name. -/
def findUnder (s : FjallStore Name) (under : Name) : Option Bytes :=
  (s.entriesUnder under).head?.map Prod.snd

/-- Write or delete the record of a name. -/
def put (s : FjallStore Name) (name : Name) : Option Bytes → FjallStore Name
  | some record => s.insert name record
  | none => s.remove name

@[simp] theorem get_empty (name : Name) : (empty : FjallStore Name).get name = none := by
  simp [get, empty]

theorem get_put (s : FjallStore Name) (name other : Name) (record : Option Bytes) :
    (s.put name record).get other = if other = name then record else s.get other := by
  by_cases ho : other = name
  · subst ho
    cases record <;> simp [put, get, remove, insert]
  · have hn : name ≠ other := Ne.symm ho
    cases record with
    | none => simp [put, get, remove, Std.ExtTreeMap.getElem?_erase, ho, hn]
    | some r => simp [put, get, insert, Std.ExtTreeMap.getElem?_insert, ho, hn]

theorem get_insert (s : FjallStore Name) (name other : Name) (record : Bytes) :
    (s.insert name record).get other = if other = name then some record else s.get other :=
  s.get_put name other (some record)

theorem get_remove (s : FjallStore Name) (name other : Name) :
    (s.remove name).get other = if other = name then none else s.get other :=
  s.get_put name other none

theorem contains_eq (s : FjallStore Name) (name : Name) :
    s.contains name = (s.get name).isSome := Std.ExtTreeMap.contains_eq_isSome_getElem?

theorem mem_entriesUnder {s : FjallStore Name} {under name : Name} {record : Bytes} :
    (name, record) ∈ s.entriesUnder under ↔
      s.get name = some record ∧ hasPrefix name under = true := by
  rw [entriesUnder, List.mem_filter, Std.ExtTreeMap.mem_toList_iff_getElem?_eq_some]
  rfl

theorem findUnder_isSome (s : FjallStore Name) (under : Name) :
    (s.findUnder under).isSome = true ↔
      ∃ name record, hasPrefix name under = true ∧ s.get name = some record := by
  have hmem : (∃ entry, entry ∈ s.entriesUnder under) ↔
      ∃ name record, hasPrefix name under = true ∧ s.get name = some record := by
    simp only [Prod.exists, mem_entriesUnder, and_comm]
  rw [← hmem, findUnder, Option.isSome_map, List.isSome_head?]
  exact ⟨List.exists_mem_of_ne_nil _, fun ⟨_, h⟩ => List.ne_nil_of_mem h⟩

/-- Entries come in strictly increasing name order. -/
theorem sorted_entriesUnder (s : FjallStore Name) (under : Name) :
    (s.entriesUnder under).Pairwise fun a b => a.1 < b.1 := by
  refine List.Pairwise.filter _ (s.entries.ordered_keys_toList.imp ?_)
  intro a b h
  exact compare_lt_iff_lt.mp h

end FjallStore

/-! ## The store -/

/-- A store that erasure-codes every packet across `n` stripes, any `k` of which
rebuild it. -/
structure ErasureStore (Name : Type) [NdnName Name] where
  /-- The parameters packets are coded with. -/
  erasure : Erasure
  /-- The stripes. -/
  stripes : Fin erasure.n → FjallStore Name
  /-- The first insert refused: once set, every sync fails. -/
  refused : Option String

namespace ErasureStore

variable [Sha2] [Codec UInt8]

/-- A store whose stripes are empty. -/
def openEmpty (erasure : Erasure) : ErasureStore Name := ⟨erasure, fun _ => .empty, none⟩

/-- The stripes' records of a name. -/
def records (s : ErasureStore Name) (name : Name) : List (Option Bytes) :=
  List.ofFn fun i => (s.stripes i).get name

/-- Write or delete one stripe's record of a name. -/
def putRecord (s : ErasureStore Name) (stripe : ℕ) (name : Name) (record : Option Bytes) :
    ErasureStore Name :=
  { s with stripes := fun i => if i.val = stripe then (s.stripes i).put name record
                               else s.stripes i }

/-- Remember the first refusal. -/
def refuse (s : ErasureStore Name) (why : String) : ErasureStore Name :=
  { s with refused := s.refused <|> some why }

/-- Store a packet: one record in each stripe. -/
def insert (s : ErasureStore Name) (name : Name) (wire : Bytes) : ErasureStore Name :=
  if u32Bound ≤ wire.length then
    s.refuse (s!"{display name} ({wire.length} octets) was not stored: " ++
      "over 4 GiB cannot be erasure-coded")
  else
    match s.erasure.encode wire with
    | .error e =>
        s.refuse s!"{display name} was not stored: erasure coding failed ({Codec.errorText UInt8 e})"
    | .ok records =>
        { s with stripes := fun i => match records[i.val]? with
            | some record => (s.stripes i).insert name record
            | none => s.stripes i }

/-- Rewrite the shards of a name the stripes lack, judged by what they hold now. -/
def repair (s : ErasureStore Name) (name : Name) : ErasureStore Name :=
  match s.erasure.assemble (s.records name) with
  | none => s
  | some now =>
      if now.stale.isEmpty then s
      else
        match s.erasure.encode now.wire with
        | .ok records =>
            now.stale.foldl (fun s i => s.putRecord i name (some (records.getD i []))) s
        | .error _ => s

/-- Rebuild, repairing on the way. -/
def rebuild (s : ErasureStore Name) (name : Name) (records : List (Option Bytes)) :
    Option Bytes × ErasureStore Name :=
  match s.erasure.assemble records with
  | none => (none, s)
  | some got => (some got.wire, if got.stale.isEmpty then s else s.repair name)

/-- The packet of a name. -/
def get (s : ErasureStore Name) (name : Name) : Option Bytes × ErasureStore Name :=
  s.rebuild name (s.records name)

/-- Whether at least `k` stripes hold a record of the name. -/
def contains (s : ErasureStore Name) (name : Name) : Bool :=
  s.erasure.k ≤ (List.finRange s.erasure.n).countP fun i => (s.stripes i).contains name

/-- Delete every shard of a name. -/
def remove (s : ErasureStore Name) (name : Name) : ErasureStore Name :=
  { s with stripes := fun i => (s.stripes i).remove name }

/-! ### Scanning -/

/-- The rows a scan judges: the stripes' records by name, in name order. -/
abbrev Rows (Name : Type) [NdnName Name] := Std.ExtTreeMap Name (List (Option Bytes)) compare

/-- Enter a stripe's record of a name into its row. -/
def addRecord (n stripe : ℕ) (rows : Rows Name) (entry : Name × Bytes) : Rows Name :=
  rows.alter entry.1 fun row =>
    some ((row.getD (List.replicate n none)).set stripe (some entry.2))

/-- The smallest last name of the cut-short stripes so far, after one more. -/
def lowerCompleteTo (stripeLimit : ℕ) (got : List (Name × Bytes)) (completeTo : Option Name) :
    Option Name :=
  if 0 < stripeLimit ∧ stripeLimit ≤ got.length then
    match got.getLast? with
    | none => completeTo
    | some (last, _) =>
        match completeTo with
        | none => some last
        | some c => if last < c then some last else some c
  else completeTo

/-- Scan every stripe up to `stripeLimit`: the rows, and the name up to which they
are complete. -/
def collect (s : ErasureStore Name) (under : Name) (stripeLimit : ℕ) :
    Rows Name × Option Name :=
  (List.finRange s.erasure.n).foldl
    (fun (rows, completeTo) i =>
      let got := (s.stripes i).scanUnder under stripeLimit
      (got.foldl (addRecord s.erasure.n i) rows, lowerCompleteTo stripeLimit got completeTo))
    (∅, none)

/-- Judge the rows in order.  `none` at the first row past `completeTo`, unless
`limit` packets were found before. -/
def judge (limit : ℕ) (completeTo : Option Name) :
    List (Name × List (Option Bytes)) → List (Name × Bytes) → ErasureStore Name →
      Option (List (Name × Bytes)) × ErasureStore Name
  | [], out, s => (some out, s)
  | (name, records) :: rows, out, s =>
      if 0 < limit ∧ limit ≤ out.length then (some out, s)
      else if completeTo.any (· < name) then (none, s)
      else
        match s.rebuild name records with
        | (some wire, s) => judge limit completeTo rows (out ++ [(name, wire)]) s
        | (none, s) => judge limit completeTo rows out s

/-- The first `limit` (0 = all) rebuildable packets under a name, each stripe
scanned up to `stripeLimit` (0 = all). -/
def scan (s : ErasureStore Name) (under : Name) (stripeLimit limit : ℕ) :
    Option (List (Name × Bytes)) × ErasureStore Name :=
  let (rows, completeTo) := s.collect under stripeLimit
  judge limit completeTo rows.toList [] s

/-- The first `limit` (0 = all) packets under a name: a limited scan, and a full
one where it gives no answer. -/
def scanUnder (s : ErasureStore Name) (under : Name) (limit : ℕ) :
    List (Name × Bytes) × ErasureStore Name :=
  match s.scan under limit limit with
  | (some out, s) => (out, s)
  | (none, s) =>
      match s.scan under 0 limit with
      | (some out, s) => (out, s)
      | (none, s) => ([], s)

/-- The first packet under a name. -/
def findUnder (s : ErasureStore Name) (under : Name) : Option Bytes × ErasureStore Name :=
  let (out, s) := s.scanUnder under 1
  (out.head?.map Prod.snd, s)

/-! ## The records of one name -/

section Records

omit [Sha2] [Codec UInt8]

@[simp] theorem records_length (s : ErasureStore Name) (name : Name) :
    (s.records name).length = s.erasure.n := by
  simp [records]

theorem getD_records (s : ErasureStore Name) (name : Name) {i : ℕ} (hi : i < s.erasure.n) :
    (s.records name).getD i none = (s.stripes ⟨i, hi⟩).get name := by
  simp [records, hi]

@[simp] theorem erasure_putRecord (s : ErasureStore Name) (stripe : ℕ) (name : Name)
    (record : Option Bytes) : (s.putRecord stripe name record).erasure = s.erasure := rfl

theorem records_putRecord (s : ErasureStore Name) (stripe : ℕ) (name other : Name)
    (record : Option Bytes) : (s.putRecord stripe name record).records other =
      if other = name then (s.records name).set stripe record else s.records other := by
  apply List.ext_getElem
  · split <;> simp
  · intro i h1 h2
    simp only [records, putRecord, List.getElem_ofFn]
    by_cases hi : i = stripe
    · subst hi
      by_cases ho : other = name <;> simp [ho, FjallStore.get_put]
    · have hi' : stripe ≠ i := Ne.symm hi
      by_cases ho : other = name <;> simp [ho, hi, hi']

@[simp] theorem erasure_refuse (s : ErasureStore Name) (why : String) :
    (s.refuse why).erasure = s.erasure := rfl

@[simp] theorem erasure_remove (s : ErasureStore Name) (name : Name) :
    (s.remove name).erasure = s.erasure := rfl

theorem records_remove (s : ErasureStore Name) (name other : Name) :
    (s.remove name).records other =
      if other = name then List.replicate s.erasure.n none else s.records other := by
  apply List.ext_getElem
  · split <;> simp
  · intro i h1 h2
    by_cases ho : other = name <;> simp [records, remove, ho, FjallStore.get_remove]

theorem records_openEmpty (erasure : Erasure) (name : Name) :
    (openEmpty erasure : ErasureStore Name).records name = List.replicate erasure.n none := by
  apply List.ext_getElem
  · simp [openEmpty]
  · intro i h1 h2
    simp [records, openEmpty]

/-- Writing a list of stripes' records of a name leaves the other names alone. -/
theorem records_foldl_putRecord (name : Name) (f : ℕ → Option Bytes) :
    ∀ (stale : List ℕ) (s : ErasureStore Name),
      (stale.foldl (fun s i => s.putRecord i name (f i)) s).erasure = s.erasure ∧
        ∀ other, (stale.foldl (fun s i => s.putRecord i name (f i)) s).records other =
          if other = name then stale.foldl (fun rs i => rs.set i (f i)) (s.records name)
          else s.records other
  | [], s => ⟨rfl, fun other => by by_cases ho : other = name <;> simp [ho]⟩
  | i :: stale, s => by
      obtain ⟨he, hr⟩ := records_foldl_putRecord name f stale (s.putRecord i name (f i))
      refine ⟨he, fun other => ?_⟩
      rw [List.foldl_cons, hr, records_putRecord, records_putRecord, if_pos rfl, List.foldl_cons]
      by_cases ho : other = name <;> simp [ho]

/-- Setting a list of positions. -/
theorem getD_foldl_set (f : ℕ → Option Bytes) (j : ℕ) :
    ∀ (stale : List ℕ) (rs : List (Option Bytes)), j < rs.length →
      (stale.foldl (fun rs i => rs.set i (f i)) rs).getD j none =
        if j ∈ stale then f j else rs.getD j none
  | [], rs, _ => by simp
  | i :: stale, rs, hj => by
      rw [List.foldl_cons, getD_foldl_set f j stale _ (by simpa using hj)]
      by_cases hij : i = j
      · subst hij
        by_cases hmem : i ∈ stale <;> simp [hmem, hj]
      · have hji : ¬j = i := fun h => hij h.symm
        by_cases hmem : j ∈ stale <;> simp [hmem, hij, hji]

end Records

section Coded

variable {s : ErasureStore Name} (law : Lawful UInt8 s.erasure.k s.erasure.n)

include law

theorem erasure_insert (name : Name) (wire : Bytes) : (s.insert name wire).erasure = s.erasure := by
  unfold insert
  split
  · rfl
  · rw [Erasure.encode_eq law]

/-- An accepted insert writes every stripe's record of the wire. -/
theorem records_insert (name other : Name) {wire : Bytes} (hw : wire.length < u32Bound) :
    (s.insert name wire).records other =
      if other = name then (List.range s.erasure.n).map fun i => some (s.erasure.stripeRecord wire i)
      else s.records other := by
  unfold insert
  rw [if_neg (not_le.mpr hw), Erasure.encode_eq law]
  by_cases ho : other = name
  · apply List.ext_getElem
    · simp [ho]
    · intro i h1 h2
      simp [records, ho, FjallStore.get_insert]
  · apply List.ext_getElem
    · simp [ho]
    · intro i h1 h2
      simp [records, ho, FjallStore.get_insert]

omit law in
/-- A refused insert writes nothing. -/
theorem records_insert_refused (name other : Name) {wire : Bytes} (hw : u32Bound ≤ wire.length) :
    (s.insert name wire).records other = s.records other := by
  unfold insert
  rw [if_pos hw]
  rfl

omit law in
theorem erasure_repair (name : Name) : (s.repair name).erasure = s.erasure := by
  unfold repair
  split
  · rfl
  · split
    · rfl
    · split
      · exact (records_foldl_putRecord name _ _ s).1
      · rfl

omit law in
theorem repair_eq_self {name : Name} (h : s.erasure.assemble (s.records name) = none) :
    s.repair name = s := by
  simp [repair, h]

/-- A repair writes the stale stripes' records of the wire it rebuilt. -/
theorem repair_eq_foldl {name : Name} {a : Assembled}
    (h : s.erasure.assemble (s.records name) = some a) :
    s.repair name = a.stale.foldl (fun t i => t.putRecord i name
      (some (((List.range s.erasure.n).map (s.erasure.stripeRecord a.wire)).getD i []))) s := by
  unfold repair
  simp only [h]
  by_cases hstale : a.stale.isEmpty = true
  · rw [if_pos hstale, List.isEmpty_iff.mp hstale, List.foldl_nil]
  · rw [if_neg hstale, Erasure.encode_eq law]

theorem records_repair {name : Name} {a : Assembled}
    (h : s.erasure.assemble (s.records name) = some a) (other : Name) :
    (s.repair name).records other =
      if other = name then a.stale.foldl
        (fun rs i => rs.set i (some (((List.range s.erasure.n).map
          (s.erasure.stripeRecord a.wire)).getD i []))) (s.records name)
      else s.records other := by
  rw [repair_eq_foldl law h]
  exact (records_foldl_putRecord name _ _ s).2 other

theorem getD_records_repair {name : Name} {a : Assembled}
    (h : s.erasure.assemble (s.records name) = some a) {i : ℕ} (hi : i < s.erasure.n) :
    ((s.repair name).records name).getD i none =
      if i ∈ a.stale then some (s.erasure.stripeRecord a.wire i)
      else (s.records name).getD i none := by
  rw [records_repair law h, if_pos rfl, getD_foldl_set _ _ _ _ (by simpa using hi)]
  simp [hi]

theorem records_repair_of_ne {name other : Name} (ho : other ≠ name) :
    (s.repair name).records other = s.records other := by
  cases h : s.erasure.assemble (s.records name) with
  | none => rw [repair_eq_self h]
  | some a => rw [records_repair law h, if_neg ho]

end Coded

/-- What a read returns: what the records assemble to. -/
theorem get_fst (s : ErasureStore Name) (name : Name) :
    (s.get name).1 = (s.erasure.assemble (s.records name)).map Assembled.wire := by
  unfold get rebuild
  split <;> simp [*]

/-- What a rebuild leaves behind: the store repaired. -/
theorem rebuild_snd {s : ErasureStore Name} {name : Name} {records : List (Option Bytes)}
    (hrecords : records = s.records name) : (s.rebuild name records).2 = s.repair name := by
  subst hrecords
  cases h : s.erasure.assemble (s.records name) with
  | none => simp [rebuild, repair, h]
  | some got => by_cases hstale : got.stale.isEmpty = true <;> simp [rebuild, repair, h, hstale]

end ErasureStore

end NdnRepo
