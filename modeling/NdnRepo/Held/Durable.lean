import NdnRepo.Held.Disk
import NdnRepo.Held.Holder

/-!
# Syncs and power losses

A holder's store is an own store and `n` stripes, each on a disk.  Its sync asks all of
them, and fails if one fails or an insert was refused before.  A sync that succeeds
keeps its promise (`DurableHolder.sync_promise`): whatever happens later, each name not
written or repaired since the sync began is read back after a power loss as it was
given.

Events are inserts, removes, repairs and syncs of single stores; a read is some repairs
(`repaired_by_reads`).  Other events may happen in the middle of a sync.
-/

namespace NdnRepo

open Coding Steps

variable {Name : Type} [NdnName Name]

/-! ## A holder's store on disks -/

/-- A holder's store, each part on a disk. -/
structure DurableHolder (Name : Type) [NdnName Name] (e : Erasure) where
  /-- The device's name. -/
  device : Name
  /-- `/localhost`. -/
  localhost : Name
  /-- The device's own names. -/
  own : DurableStore Name
  /-- The stripes of what it holds for others. -/
  stripes : Fin e.n → DurableStore Name
  /-- The first insert refused. -/
  refused : Option String

/-- What happens to a holder's store.  `fault i` is what goes wrong at stripe `i`, and
`fault 0` at the own store. -/
inductive DiskEvent (Name : Type) where
  /-- A packet is inserted. -/
  | insert (name : Name) (wire : Bytes) (fault : ℕ → Option String)
  /-- A packet is deleted. -/
  | remove (name : Name) (fault : ℕ → Option String)
  /-- A read repairs a name. -/
  | repair (name : Name) (fault : ℕ → Option String)
  /-- The own store is synced. -/
  | syncOwn (fault : Option String)
  /-- A stripe is synced. -/
  | syncStripe (stripe : ℕ) (fault : Option String)

/-- The name that an event writes or repairs. -/
def DiskEvent.name? : DiskEvent Name → Option Name
  | .insert name _ _ | .remove name _ | .repair name _ => some name
  | .syncOwn _ | .syncStripe _ _ => none

namespace DurableHolder

variable {e : Erasure}

/-- The empty store of a device. -/
def openEmpty (device : Name) (e : Erasure) : DurableHolder Name e :=
  ⟨device, append NdnName.root (ascii "localhost"), .openEmpty, fun _ => .openEmpty, none⟩

/-- The erasure-coded store that reads see. -/
def held (d : DurableHolder Name e) : ErasureStore Name :=
  ⟨e, fun i => (d.stripes i).current, d.refused⟩

/-- The holder's store that reads see. -/
def view (d : DurableHolder Name e) : HolderStore Name :=
  ⟨d.device, d.localhost, d.own.current, d.held⟩

/-- Write or delete one stripe's record of a name. -/
def writeStripe (d : DurableHolder Name e) (stripe : ℕ) (name : Name) (record : Option Bytes)
    (fault : Option String) : DurableHolder Name e :=
  { d with stripes := fun i => if i.val = stripe then (d.stripes i).write name record fault
                               else d.stripes i }

/-- Sync the own store. -/
def syncOwn (d : DurableHolder Name e) (fault : Option String) :
    Except String Unit × DurableHolder Name e :=
  let (done, own) := d.own.sync fault
  (done.mapError fun error => "own store: " ++ error, { d with own })

/-- Sync a stripe. -/
def syncStripe (d : DurableHolder Name e) (stripe : ℕ) (fault : Option String) :
    Except String Unit × DurableHolder Name e :=
  if h : stripe < e.n then
    let (done, synced) := (d.stripes ⟨stripe, h⟩).sync fault
    (done.mapError fun error => s!"held stripe {stripe}: " ++ error,
      { d with stripes := fun i => if i.val = stripe then synced else d.stripes i })
  else (.ok (), d)

variable [Sha2] [Codec UInt8]

/-- Store a packet: an own one plainly, any other by its records unless it is
refused. -/
def insert (d : DurableHolder Name e) (name : Name) (wire : Bytes) (fault : ℕ → Option String) :
    DurableHolder Name e :=
  if d.view.isOwn name then { d with own := d.own.write name (some wire) (fault 0) }
  else if u32Bound ≤ wire.length then { d with refused := (d.held.insert name wire).refused }
  else
    match e.encode wire with
    | .error _ => { d with refused := (d.held.insert name wire).refused }
    | .ok records =>
        { d with stripes := fun i => match records[i.val]? with
            | some record => (d.stripes i).write name (some record) (fault i)
            | none => d.stripes i }

/-- Delete the packet of a name. -/
def remove (d : DurableHolder Name e) (name : Name) (fault : ℕ → Option String) :
    DurableHolder Name e :=
  if d.view.isOwn name then { d with own := d.own.write name none (fault 0) }
  else { d with stripes := fun i => (d.stripes i).write name none (fault i) }

/-- Rewrite the shards of a name the stripes lack. -/
def repair (d : DurableHolder Name e) (name : Name) (fault : ℕ → Option String) :
    DurableHolder Name e :=
  match e.assemble (d.held.records name) with
  | none => d
  | some now =>
      if now.stale.isEmpty then d
      else
        match e.encode now.wire with
        | .ok records => now.stale.foldl
            (fun d i => d.writeStripe i name (some (records.getD i [])) (fault i)) d
        | .error _ => d

/-! ### Reads -/

/-- Rebuild a packet, repairing on the way. -/
def rebuild (d : DurableHolder Name e) (name : Name) (records : List (Option Bytes))
    (fault : ℕ → Option String) : Option Bytes × DurableHolder Name e :=
  match e.assemble records with
  | none => (none, d)
  | some got => (some got.wire, if got.stale.isEmpty then d else d.repair name fault)

/-- The packet of a name. -/
def get (d : DurableHolder Name e) (name : Name) (fault : ℕ → Option String) :
    Option Bytes × DurableHolder Name e :=
  if d.view.isOwn name then (d.own.current.get name, d)
  else d.rebuild name (d.held.records name) fault

/-- Judge the rows of a scan in order.  `fault name` is what goes wrong in the repair of
`name`. -/
def judge (limit : ℕ) (completeTo : Option Name) (fault : Name → ℕ → Option String) :
    List (Name × List (Option Bytes)) → List (Name × Bytes) → DurableHolder Name e →
      Option (List (Name × Bytes)) × DurableHolder Name e
  | [], out, d => (some out, d)
  | (name, records) :: rows, out, d =>
      if 0 < limit ∧ limit ≤ out.length then (some out, d)
      else if completeTo.any (· < name) then (none, d)
      else
        match d.rebuild name records (fault name) with
        | (some wire, d) => judge limit completeTo fault rows (out ++ [(name, wire)]) d
        | (none, d) => judge limit completeTo fault rows out d

/-- A scan of the stripes, each up to `stripeLimit` (0 = all). -/
def scan (d : DurableHolder Name e) (under : Name) (stripeLimit limit : ℕ)
    (fault : Name → ℕ → Option String) :
    Option (List (Name × Bytes)) × DurableHolder Name e :=
  let (rows, completeTo) := d.held.collect under stripeLimit
  judge limit completeTo fault rows.toList [] d

/-- A limited scan of the stripes, and a full one where it gives no answer. -/
def scanHeld (d : DurableHolder Name e) (under : Name) (limit : ℕ)
    (fault again : Name → ℕ → Option String) : List (Name × Bytes) × DurableHolder Name e :=
  match d.scan under limit limit fault with
  | (some out, d) => (out, d)
  | (none, d) =>
      match d.scan under 0 limit again with
      | (some out, d) => (out, d)
      | (none, d) => ([], d)

/-- The first `limit` (0 = all) packets under a name. -/
def scanUnder (d : DurableHolder Name e) (under : Name) (limit : ℕ)
    (fault again : Name → ℕ → Option String) : List (Name × Bytes) × DurableHolder Name e :=
  if d.view.isOwn under then (d.own.current.scanUnder under limit, d)
  else
    let (rows, d) := d.scanHeld under limit fault again
    if !hasPrefix d.device under && !hasPrefix d.localhost under then (rows, d)
    else (HolderStore.mergeRows limit (d.own.current.scanUnder under limit) rows [], d)

/-! ### Events -/

/-- One event. -/
def step (d : DurableHolder Name e) : DiskEvent Name → DurableHolder Name e
  | .insert name wire fault => d.insert name wire fault
  | .remove name fault => d.remove name fault
  | .repair name fault => d.repair name fault
  | .syncOwn fault => (d.syncOwn fault).2
  | .syncStripe stripe fault => (d.syncStripe stripe fault).2

/-- A store after some repairs. -/
def Repaired (d d' : DurableHolder Name e) : Prop :=
  ∃ repairs : List (Name × (ℕ → Option String)),
    d' = run step d (repairs.map fun r => .repair r.1 r.2)

namespace Repaired

variable {d d' d'' : DurableHolder Name e}

theorem refl (d : DurableHolder Name e) : Repaired d d := ⟨[], rfl⟩

theorem trans (h : Repaired d d') (h' : Repaired d' d'') : Repaired d d'' := by
  obtain ⟨repairs, rfl⟩ := h
  obtain ⟨repairs', rfl⟩ := h'
  exact ⟨repairs ++ repairs', by rw [List.map_append, run_append]⟩

theorem rebuild (d : DurableHolder Name e) (name : Name) (records : List (Option Bytes))
    (fault : ℕ → Option String) : Repaired d (d.rebuild name records fault).2 := by
  unfold DurableHolder.rebuild
  split
  · exact .refl d
  · simp only
    split
    · exact .refl d
    · exact ⟨[(name, fault)], rfl⟩

theorem judge (limit : ℕ) (completeTo : Option Name) (fault : Name → ℕ → Option String) :
    ∀ (rows : List (Name × List (Option Bytes))) (out : List (Name × Bytes))
      (d : DurableHolder Name e), Repaired d (judge limit completeTo fault rows out d).2 := by
  intro rows
  induction rows with
  | nil => exact fun _ d => .refl d
  | cons row rows ih =>
      intro out d
      obtain ⟨name, records⟩ := row
      have hnext := Repaired.rebuild d name records (fault name)
      unfold DurableHolder.judge
      split
      · exact .refl d
      · split
        · exact .refl d
        · generalize d.rebuild name records (fault name) = got at hnext
          obtain ⟨w, d'⟩ := got
          cases w with
          | none => exact hnext.trans (ih out d')
          | some w => exact hnext.trans (ih _ d')

theorem scanHeld (d : DurableHolder Name e) (under : Name) (limit : ℕ)
    (fault again : Name → ℕ → Option String) :
    Repaired d (d.scanHeld under limit fault again).2 := by
  have hfirst : Repaired d (d.scan under limit limit fault).2 := judge _ _ fault _ _ d
  unfold DurableHolder.scanHeld
  generalize d.scan under limit limit fault = got at hfirst
  obtain ⟨first, d'⟩ := got
  cases first with
  | some out => exact hfirst
  | none =>
      have hsecond : Repaired d' (d'.scan under 0 limit again).2 := judge _ _ again _ _ d'
      simp only
      generalize d'.scan under 0 limit again = got at hsecond
      obtain ⟨second, d''⟩ := got
      cases second <;> exact hfirst.trans hsecond

end Repaired

/-- A read writes nothing but repairs. -/
theorem repaired_by_reads (d : DurableHolder Name e) :
    (∀ name fault, Repaired d (d.get name fault).2) ∧
      ∀ under limit fault again, Repaired d (d.scanUnder under limit fault again).2 := by
  refine ⟨fun name fault => ?_, fun under limit fault again => ?_⟩
  · unfold get
    split
    · exact .refl d
    · exact .rebuild d name _ fault
  · have hheld := Repaired.scanHeld d under limit fault again
    unfold scanUnder
    generalize d.scanHeld under limit fault again = got at hheld
    obtain ⟨rows, d'⟩ := got
    split
    · exact .refl d
    · simp only
      split <;> exact hheld

/-! ### The sync -/

/-- Sync the stripes, and keep the first error.  Other events happen before each. -/
def syncStripes (fault : ℕ → Option String) (others : ℕ → List (DiskEvent Name)) :
    List ℕ → Option String → DurableHolder Name e → Option String × DurableHolder Name e
  | [], first, d => (first, d)
  | i :: stripes, first, d =>
      let d := run step d (others i)
      match d.syncStripe i (fault i) with
      | (.ok (), d) => syncStripes fault others stripes first d
      | (.error error, d) => syncStripes fault others stripes (first <|> some error) d

/-- Why a sync fails after an insert was refused. -/
def refusedText (what : String) : String :=
  s!"held store: {what}, so a packet given to it is not kept and durability cannot " ++
    "be promised; fix that cause (a packet it cannot code), then restart the holder to clear this"

/-- Sync every stripe, and fail when one fails or an insert was refused. -/
def syncHeld (d : DurableHolder Name e) (fault : ℕ → Option String)
    (others : ℕ → List (DiskEvent Name)) : Except String Unit × DurableHolder Name e :=
  match syncStripes fault others (List.range e.n) (d.refused.map refusedText) d with
  | (none, d) => (.ok (), d)
  | (some error, d) => (.error error, d)

/-- Sync the own store and every stripe.  Other events may happen between them,
`between` after the own store and `others i` before stripe `i`. -/
def sync (d : DurableHolder Name e) (ownFault : Option String) (between : List (DiskEvent Name))
    (fault : ℕ → Option String) (others : ℕ → List (DiskEvent Name)) :
    Except String Unit × DurableHolder Name e :=
  let (own, d) := d.syncOwn ownFault
  let (held, d) := (run step d between).syncHeld fault others
  (match own with
    | .error error => .error error
    | .ok () => held, d)

omit [Sha2] [Codec UInt8] in
/-- The store opened after a power loss. -/
def reopen (d : DurableHolder Name e) (own : FjallStore Name)
    (stripes : Fin e.n → FjallStore Name) : HolderStore Name :=
  ⟨d.device, d.localhost, own, ⟨e, stripes, none⟩⟩

/-! ### What an event does to each store -/

section Follows

variable {p : Name → Prop} {d d' d'' : DurableHolder Name e}

omit [Sha2] [Codec UInt8] in
/-- What events that write some names make of a holder's store. -/
structure Follows (p : Name → Prop) (d d' : DurableHolder Name e) : Prop where
  /-- The device stays. -/
  device : d'.device = d.device
  /-- `/localhost` stays. -/
  localhost : d'.localhost = d.localhost
  /-- The own store evolves. -/
  own : DurableStore.Evolves p d.own d'.own
  /-- So does each stripe. -/
  stripes : ∀ i, DurableStore.Evolves p (d.stripes i) (d'.stripes i)
  /-- A refused insert is not forgotten. -/
  refused : d'.refused = none → d.refused = none

omit [Sha2] [Codec UInt8] in
theorem Follows.refl (d : DurableHolder Name e) : Follows p d d :=
  ⟨rfl, rfl, .refl, fun _ => .refl, id⟩

omit [Sha2] [Codec UInt8] in
theorem Follows.trans (h : Follows p d d') (h' : Follows p d' d'') : Follows p d d'' :=
  ⟨h'.device.trans h.device, h'.localhost.trans h.localhost, h.own.trans h'.own,
    fun i => (h.stripes i).trans (h'.stripes i), h.refused ∘ h'.refused⟩

omit [Sha2] [Codec UInt8] in
/-- Writing an own name. -/
theorem follows_own {name : Name} (hp : p name) (record : Option Bytes) (fault : Option String) :
    Follows p d { d with own := d.own.write name record fault } :=
  ⟨rfl, rfl, .write .refl hp record fault, fun _ => .refl, id⟩

omit [Sha2] [Codec UInt8] in
theorem follows_writeStripe {name : Name} (hp : p name) (stripe : ℕ) (record : Option Bytes)
    (fault : Option String) : Follows p d (d.writeStripe stripe name record fault) := by
  refine ⟨rfl, rfl, .refl, fun i => ?_, id⟩
  simp only [writeStripe]
  split
  · exact .write .refl hp record fault
  · exact .refl

omit [Sha2] [Codec UInt8] in
theorem follows_foldl {name : Name} (hp : p name) (f : ℕ → Option Bytes)
    (fault : ℕ → Option String) (stale : List ℕ) (d : DurableHolder Name e) :
    Follows p d (stale.foldl (fun d i => d.writeStripe i name (f i) (fault i)) d) := by
  induction stale generalizing d with
  | nil => exact .refl d
  | cons i stale ih => exact (follows_writeStripe hp i (f i) (fault i)).trans (ih _)

omit [Sha2] [Codec UInt8] in
theorem follows_syncOwn (fault : Option String) : Follows p d (d.syncOwn fault).2 :=
  ⟨rfl, rfl, .sync .refl fault, fun _ => .refl, id⟩

omit [Sha2] [Codec UInt8] in
theorem follows_syncStripe (stripe : ℕ) (fault : Option String) :
    Follows p d (d.syncStripe stripe fault).2 := by
  unfold syncStripe
  split
  next h =>
    refine ⟨rfl, rfl, .refl, fun i => ?_, id⟩
    simp only
    split
    next hi =>
      obtain rfl : i = ⟨stripe, h⟩ := Fin.ext hi
      exact .sync .refl fault
    next => exact .refl
  next => exact .refl d

theorem refused_insert (s : ErasureStore Name) (name : Name) (wire : Bytes)
    (h : (s.insert name wire).refused = none) : s.refused = none := by
  unfold ErasureStore.insert at h
  split at h
  · simp [ErasureStore.refuse] at h
  · split at h
    · simp [ErasureStore.refuse] at h
    · exact h

theorem follows_step (d : DurableHolder Name e) (event : DiskEvent Name)
    (hp : ∀ name, event.name? = some name → p name) : Follows p d (d.step event) := by
  cases event with
  | insert name wire fault =>
      have hname := hp name rfl
      show Follows p d (d.insert name wire fault)
      have hrefused : Follows p d { d with refused := (d.held.insert name wire).refused } :=
        ⟨rfl, rfl, .refl, fun _ => .refl, refused_insert d.held name wire⟩
      unfold insert
      split
      · exact follows_own hname (some wire) (fault 0)
      · split
        · exact hrefused
        · split
          · exact hrefused
          next records _ =>
            refine ⟨rfl, rfl, .refl, fun i => ?_, id⟩
            simp only
            split
            · exact .write .refl hname _ _
            · exact .refl
  | remove name fault =>
      have hname := hp name rfl
      show Follows p d (d.remove name fault)
      unfold remove
      split
      · exact follows_own hname none (fault 0)
      · exact ⟨rfl, rfl, .refl, fun i => .write .refl hname none (fault i), id⟩
  | repair name fault =>
      show Follows p d (d.repair name fault)
      unfold repair
      split
      · exact .refl d
      · split
        · exact .refl d
        · split
          · exact follows_foldl (hp name rfl) _ fault _ d
          · exact .refl d
  | syncOwn fault => exact follows_syncOwn fault
  | syncStripe stripe fault => exact follows_syncStripe stripe fault

theorem follows_run (events : List (DiskEvent Name)) (d : DurableHolder Name e)
    (hp : ∀ event ∈ events, ∀ name, event.name? = some name → p name) :
    Follows p d (run step d events) := by
  induction events generalizing d with
  | nil => exact .refl d
  | cons event events ih =>
      rw [List.forall_mem_cons] at hp
      exact (follows_step d event hp.1).trans (ih _ hp.2)

end Follows

/-! ### What a successful sync says -/

section Synced

variable {p : Name → Prop}

omit [Sha2] [Codec UInt8] in
theorem ok_of_mapError {f : String → String} :
    ∀ {done : Except String Unit}, done.mapError f = .ok () → done = .ok ()
  | .ok (), _ => rfl

omit [Sha2] [Codec UInt8] in
/-- An own store whose sync succeeds. -/
theorem promised_syncOwn {d : DurableHolder Name e} {fault : Option String}
    (h : (d.syncOwn fault).1 = .ok ()) :
    DurableStore.Promised p d.own (d.syncOwn fault).2.own :=
  DurableStore.promised_of_sync (ok_of_mapError h)

omit [Sha2] [Codec UInt8] in
/-- A stripe whose sync succeeds. -/
theorem promised_syncStripe {d : DurableHolder Name e} {i : Fin e.n} {fault : Option String}
    (h : (d.syncStripe i fault).1 = .ok ()) :
    DurableStore.Promised p (d.stripes i) ((d.syncStripe i fault).2.stripes i) := by
  simp only [syncStripe, dif_pos i.isLt] at h ⊢
  simpa using DurableStore.promised_of_sync (ok_of_mapError h)

/-- Where syncing the stripes leaves no error there was none before, and each stripe was
synced. -/
theorem syncStripes_spec (fault : ℕ → Option String) (others : ℕ → List (DiskEvent Name)) :
    ∀ (stripes : List ℕ) (first : Option String) (d : DurableHolder Name e),
      (∀ i ∈ stripes, ∀ event ∈ others i, ∀ name, event.name? = some name → p name) →
        Follows p d (syncStripes fault others stripes first d).2 ∧
          ((syncStripes fault others stripes first d).1 = none → first = none ∧
            ∀ i : Fin e.n, i.val ∈ stripes → DurableStore.Promised p (d.stripes i)
              ((syncStripes fault others stripes first d).2.stripes i))
  | [], first, d, _ => ⟨.refl d, fun h => ⟨h, nofun⟩⟩
  | i :: stripes, first, d, hp => by
      have hothers : Follows p d (run step d (others i)) :=
        follows_run (others i) d (hp i (List.mem_cons_self ..))
      have hstep := hothers.trans (follows_syncStripe (d := run step d (others i)) i (fault i))
      have hrest := fun j hj => hp j (List.mem_cons_of_mem i hj)
      have hdone : ∀ j : Fin e.n, j.val = i →
          ((run step d (others i)).syncStripe i (fault i)).1 = .ok () → DurableStore.Promised p
            ((run step d (others i)).stripes j)
            (((run step d (others i)).syncStripe i (fault i)).2.stripes j) := by
        rintro j rfl h
        exact promised_syncStripe h
      simp only [syncStripes]
      generalize (run step d (others i)).syncStripe i (fault i) = got at hstep hdone
      obtain ⟨done, synced⟩ := got
      cases done with
      | error error =>
          obtain ⟨hfollows, hnone⟩ := syncStripes_spec fault others stripes (first <|> some error)
            synced hrest
          refine ⟨hstep.trans hfollows, fun h => ?_⟩
          have hfirst := (hnone h).1
          cases first <;> cases hfirst
      | ok =>
          obtain ⟨hfollows, hnone⟩ := syncStripes_spec fault others stripes first synced hrest
          refine ⟨hstep.trans hfollows, fun h => ⟨(hnone h).1, fun j hj => ?_⟩⟩
          rcases List.mem_cons.mp hj with hji | hmem
          · exact ((hdone j hji rfl).before (hfollows.stripes j)).after (hothers.stripes j)
          · exact ((hnone h).2 j hmem).after (hstep.stripes j)

/-- Where a sync succeeds every store was synced, and no insert had been refused. -/
theorem sync_spec (d : DurableHolder Name e) {ownFault : Option String}
    {between : List (DiskEvent Name)} {fault : ℕ → Option String}
    {others : ℕ → List (DiskEvent Name)}
    (hbetween : ∀ event ∈ between, ∀ name, event.name? = some name → p name)
    (hothers : ∀ i < e.n, ∀ event ∈ others i, ∀ name, event.name? = some name → p name)
    (hok : (d.sync ownFault between fault others).1 = .ok ()) :
    Follows p d (d.sync ownFault between fault others).2 ∧
      DurableStore.Promised p d.own (d.sync ownFault between fault others).2.own ∧
      (∀ i, DurableStore.Promised p (d.stripes i)
        ((d.sync ownFault between fault others).2.stripes i)) ∧
      d.refused = none := by
  have hownfollows : Follows p d (d.syncOwn ownFault).2 := follows_syncOwn ownFault
  have hownok : (d.syncOwn ownFault).1 = .ok () →
      DurableStore.Promised p d.own (d.syncOwn ownFault).2.own := promised_syncOwn
  unfold sync at hok ⊢
  generalize d.syncOwn ownFault = got at hownfollows hownok hok
  obtain ⟨own, d₁⟩ := got
  simp only at hownfollows hownok hok ⊢
  have hd₂ : Follows p d₁ (run step d₁ between) := follows_run between d₁ hbetween
  generalize run step d₁ between = d₂ at hd₂ hok
  obtain ⟨hheld, hnone⟩ := syncStripes_spec fault others (List.range e.n)
    (d₂.refused.map refusedText) d₂ fun i hi => hothers i (List.mem_range.mp hi)
  unfold syncHeld at hok ⊢
  generalize syncStripes fault others (List.range e.n) (d₂.refused.map refusedText) d₂ = got
    at hheld hnone hok
  obtain ⟨first, d₃⟩ := got
  cases own with
  | error error => cases hok
  | ok =>
      cases first with
      | some error => cases hok
      | none =>
          obtain ⟨hrefused, hstripes⟩ := hnone rfl
          simp only at hheld hstripes ⊢
          have hbefore := hownfollows.trans hd₂
          refine ⟨hbefore.trans hheld, (hownok rfl).before (hd₂.own.trans hheld.own),
            fun i => (hstripes i (List.mem_range.mpr i.isLt)).after (hbefore.stripes i),
            hbefore.refused (Option.map_eq_none_iff.mp hrefused)⟩

end Synced

/-! ### Runs without a fault -/

section Clean

omit [Sha2] [Codec UInt8] in
/-- No write failed and no insert was refused. -/
structure Clean (d : DurableHolder Name e) : Prop where
  /-- No own write failed. -/
  own : d.own.failed = none
  /-- No stripe's write failed. -/
  stripes : ∀ i, (d.stripes i).failed = none
  /-- No insert was refused. -/
  refused : d.refused = none

omit [Sha2] [Codec UInt8] in
theorem Follows.clean {p : Name → Prop} {d d' : DurableHolder Name e} (h : Follows p d d')
    (h' : d'.Clean) : d.Clean :=
  ⟨h.own.failed h'.own, fun i => (h.stripes i).failed (h'.stripes i), h.refused h'.refused⟩

omit [Sha2] [Codec UInt8] in
/-- A write or delete took effect: the insert was not refused and none of its writes
failed. -/
def Accepts (d : DurableHolder Name e) : DiskEvent Name → Prop
  | .insert name wire fault =>
      if d.view.isOwn name then fault 0 = none
      else wire.length < u32Bound ∧ ∀ i < e.n, fault i = none
  | .remove name fault =>
      if d.view.isOwn name then fault 0 = none else ∀ i < e.n, fault i = none
  | _ => True

omit [Sha2] [Codec UInt8] in
/-- What an event gives a plain store. -/
def give (plain : FjallStore Name) : DiskEvent Name → FjallStore Name
  | .insert name wire _ => plain.insert name wire
  | .remove name _ => plain.remove name
  | _ => plain

omit [Sha2] [Codec UInt8] in
/-- The wire last inserted of each name, unless it was removed since. -/
def given (events : List (DiskEvent Name)) : FjallStore Name := run give .empty events

omit [Sha2] [Codec UInt8] in
/-- An own write that does not fail. -/
theorem view_own {d : DurableHolder Name e} {name : Name} {record : Option Bytes}
    {fault : Option String} (h : ({ d with own := d.own.write name record fault }).Clean) :
    fault = none ∧ ({ d with own := d.own.write name record fault }).view =
      { d.view with own := d.view.own.put name record } := by
  obtain ⟨-, rfl⟩ := DurableStore.failed_write.mp h.own
  exact ⟨rfl, rfl⟩

omit [Sha2] [Codec UInt8] in
theorem held_writeStripe {d : DurableHolder Name e} {stripe : ℕ} {name : Name}
    {record : Option Bytes} {fault : Option String}
    (h : (d.writeStripe stripe name record fault).Clean) :
    (d.writeStripe stripe name record fault).held = d.held.putRecord stripe name record := by
  have hcurrent : (fun i => ((d.writeStripe stripe name record fault).stripes i).current) =
      fun i => if i.val = stripe then (d.stripes i).current.put name record
        else (d.stripes i).current := by
    funext i
    have hi := h.stripes i
    simp only [writeStripe] at hi ⊢
    split
    next hstripe =>
      rw [if_pos hstripe] at hi
      obtain ⟨-, rfl⟩ := DurableStore.failed_write.mp hi
      rfl
    next => rfl
  unfold held
  rw [hcurrent]
  rfl

omit [Sha2] [Codec UInt8] in
theorem view_foldl (name : Name) (f : ℕ → Option Bytes) (fault : ℕ → Option String)
    (stale : List ℕ) (d : DurableHolder Name e)
    (h : (stale.foldl (fun d i => d.writeStripe i name (f i) (fault i)) d).Clean) :
    (stale.foldl (fun d i => d.writeStripe i name (f i) (fault i)) d).view =
      { d.view with held := stale.foldl (fun s i => s.putRecord i name (f i)) d.held } := by
  induction stale generalizing d with
  | nil => rfl
  | cons i stale ih =>
      have hfirst : (d.writeStripe i name (f i) (fault i)).Clean :=
        (follows_foldl (p := fun _ => True) trivial f fault stale _).clean h
      have hrest := ih _ h
      rw [held_writeStripe hfirst] at hrest
      exact hrest

variable (law : Lawful UInt8 e.k e.n)

include law

/-- A repair that does not fail. -/
theorem view_repair {d : DurableHolder Name e} {name : Name} {fault : ℕ → Option String}
    (h : (d.repair name fault).Clean) :
    (d.repair name fault).view = { d.view with held := d.held.repair name } := by
  cases hnow : e.assemble (d.held.records name) with
  | none =>
      have hsame : d.repair name fault = d := by simp only [repair, hnow]
      rw [hsame, ErasureStore.repair_eq_self hnow]
      rfl
  | some now =>
      have hfoldl : d.repair name fault = now.stale.foldl (fun d i => d.writeStripe i name
          (some (((List.range e.n).map (e.stripeRecord now.wire)).getD i [])) (fault i)) d := by
        simp only [repair, hnow]
        by_cases hstale : now.stale.isEmpty = true
        · rw [if_pos hstale, List.isEmpty_iff.mp hstale, List.foldl_nil]
        · rw [if_neg hstale, Erasure.encode_eq law]
      rw [hfoldl] at h ⊢
      rw [view_foldl name _ fault now.stale d h, ErasureStore.repair_eq_foldl (s := d.held) law hnow]
      rfl

/-- An insert that is kept. -/
theorem view_insert {d : DurableHolder Name e} {name : Name} {wire : Bytes}
    {fault : ℕ → Option String} (hown : ¬d.view.isOwn name = true)
    (h : (d.insert name wire fault).Clean) :
    (wire.length < u32Bound ∧ ∀ i < e.n, fault i = none) ∧
      (d.insert name wire fault).view = { d.view with held := d.held.insert name wire } := by
  have herasure : d.held.erasure = e := rfl
  unfold insert at h ⊢
  rw [if_neg hown] at h ⊢
  split at h
  next hlong =>
    have hrefused := h.refused
    simp [ErasureStore.insert, hlong, ErasureStore.refuse] at hrefused
  next hshort =>
    rw [if_neg hshort]
    have hrecord : ∀ i : Fin e.n, ((List.range e.n).map (e.stripeRecord wire))[i.val]? =
        some (e.stripeRecord wire i) := fun i => by simp
    simp only [Erasure.encode_eq law, hrecord] at h ⊢
    have hfault : ∀ i : Fin e.n, fault i = none := fun i =>
      (DurableStore.failed_write.mp (h.stripes i)).2
    refine ⟨⟨not_le.mp hshort, fun i hi => hfault ⟨i, hi⟩⟩, ?_⟩
    unfold view held ErasureStore.insert
    simp only [if_neg hshort, Erasure.encode_eq law, hrecord, hfault,
      DurableStore.current_write]
    rfl

omit [Sha2] [Codec UInt8] law in
/-- A remove that is kept. -/
theorem view_remove {d : DurableHolder Name e} {name : Name} {fault : ℕ → Option String}
    (hown : ¬d.view.isOwn name = true) (h : (d.remove name fault).Clean) :
    (∀ i < e.n, fault i = none) ∧
      (d.remove name fault).view = { d.view with held := d.held.remove name } := by
  unfold remove at h ⊢
  rw [if_neg hown] at h ⊢
  have hfault : ∀ i : Fin e.n, fault i = none := fun i =>
    (DurableStore.failed_write.mp (h.stripes i)).2
  refine ⟨fun i hi => hfault ⟨i, hi⟩, ?_⟩
  unfold view held ErasureStore.remove
  simp only [hfault, DurableStore.current_write]
  rfl

omit law in
theorem view_sync (d : DurableHolder Name e) (fault : Option String) :
    (d.step (.syncOwn fault)).view = d.view ∧
      ∀ stripe, (d.step (.syncStripe stripe fault)).view = d.view := by
  refine ⟨?_, fun stripe => ?_⟩
  · simp only [step, syncOwn, view, DurableStore.current_sync]
    rfl
  · simp only [step, syncStripe]
    split
    next h =>
      unfold view held
      simp only
      congr 2
      funext i
      split
      next hi =>
        obtain rfl : i = ⟨stripe, h⟩ := Fin.ext hi
        exact DurableStore.current_sync _ fault
      next => rfl
    next => rfl

/-- Where no write failed and nothing was refused, an event took effect, and the holder's
store has the packets given. -/
theorem represents_step {d : DurableHolder Name e} {plain : FjallStore Name}
    (h : d.view.Represents e plain) (event : DiskEvent Name) (hclean : (d.step event).Clean) :
    d.Accepts event ∧ (d.step event).view.Represents e (give plain event) := by
  cases event with
  | insert name wire fault =>
      by_cases hown : d.view.isOwn name = true
      · have hstep : d.step (.insert name wire fault) =
            { d with own := d.own.write name (some wire) (fault 0) } := if_pos hown
        rw [hstep] at hclean ⊢
        obtain ⟨hfault, hview⟩ := view_own hclean
        rw [hview]
        exact ⟨(if_pos hown).mpr hfault, h.put_own hown (some wire)⟩
      · obtain ⟨haccepts, hview⟩ := view_insert law hown hclean
        have hstep : (d.step (.insert name wire fault)).view = _ := hview
        rw [hstep]
        exact ⟨(if_neg hown).mpr haccepts, h.put_held hown (h.held.insert law name haccepts.1)⟩
  | remove name fault =>
      by_cases hown : d.view.isOwn name = true
      · have hstep : d.step (.remove name fault) =
            { d with own := d.own.write name none (fault 0) } := if_pos hown
        rw [hstep] at hclean ⊢
        obtain ⟨hfault, hview⟩ := view_own hclean
        rw [hview]
        exact ⟨(if_pos hown).mpr hfault, h.put_own hown none⟩
      · obtain ⟨haccepts, hview⟩ := view_remove hown hclean
        have hstep : (d.step (.remove name fault)).view = _ := hview
        rw [hstep]
        exact ⟨(if_neg hown).mpr haccepts, h.put_held hown (h.held.remove name)⟩
  | repair name fault =>
      have hstep : (d.step (.repair name fault)).view = _ := view_repair law hclean
      rw [hstep]
      exact ⟨trivial, h.of_held (h.held.repair law name)⟩
  | syncOwn fault =>
      rw [(d.view_sync fault).1]
      exact ⟨trivial, h⟩
  | syncStripe stripe fault =>
      rw [(d.view_sync fault).2 stripe]
      exact ⟨trivial, h⟩

omit [Sha2] [Codec UInt8] law in
/-- What is accepted depends on the device only. -/
theorem accepts_congr {p : Name → Prop} {d d' : DurableHolder Name e} (h : Follows p d d')
    (event : DiskEvent Name) : d'.Accepts event ↔ d.Accepts event := by
  have hown : ∀ name, d'.view.isOwn name = d.view.isOwn name := fun name => by
    unfold HolderStore.isOwn view
    rw [h.device, h.localhost]
  cases event <;> simp only [Accepts, hown]

theorem represents_run (events : List (DiskEvent Name)) {d : DurableHolder Name e}
    {plain : FjallStore Name} (h : d.view.Represents e plain)
    (hclean : (run step d events).Clean) : (∀ event ∈ events, d.Accepts event) ∧
      (run step d events).view.Represents e (run give plain events) := by
  induction events generalizing d plain with
  | nil => exact ⟨fun event hevent => absurd hevent List.not_mem_nil, h⟩
  | cons event events ih =>
      have hfirst : Follows (fun _ => True) d (d.step event) :=
        follows_step d event fun _ _ => trivial
      have hrest : Follows (fun _ => True) (d.step event) (run step (d.step event) events) :=
        follows_run events _ fun _ _ _ _ => trivial
      obtain ⟨haccepts, hnext⟩ := represents_step law h event (hrest.clean hclean)
      obtain ⟨hall, hend⟩ := ih hnext hclean
      refine ⟨fun event' hmem => ?_, hend⟩
      rcases List.mem_cons.mp hmem with rfl | hmem
      · exact haccepts
      · exact (accepts_congr hfirst event').mp (hall event' hmem)

end Clean

/-! ### The promise -/

section Promise

variable {e : Erasure} (law : Lawful UInt8 e.k e.n)

include law

/-- What is read of a name after a power loss. -/
theorem get_reopen {d lost : DurableHolder Name e} {plain : FjallStore Name} {name : Name}
    (h : d.view.Represents e plain) (hfollows : Follows (· ≠ name) d lost)
    (hownsynced : DurableStore.Promised (· ≠ name) d.own lost.own)
    (hsynced : ∀ i, DurableStore.Promised (· ≠ name) (d.stripes i) (lost.stripes i))
    {own : FjallStore Name} {stripes : Fin e.n → FjallStore Name} (hown : lost.own.Survives own)
    (hstripes : ∀ i, (lost.stripes i).Survives (stripes i)) :
    ((lost.reopen own stripes).get name).1 = plain.get name := by
  have hisown : (lost.reopen own stripes).isOwn name = d.view.isOwn name := by
    unfold HolderStore.isOwn reopen view
    rw [hfollows.device, hfollows.localhost]
  have hrecords : (lost.reopen own stripes).held.records name = d.view.held.records name :=
    congrArg List.ofFn (funext fun i => (hsynced i).get (not_not.mpr rfl) (hstripes i))
  unfold HolderStore.get
  rw [hisown]
  split
  next hname =>
    have hview := h.own name
    rw [if_pos hname] at hview
    rw [← hview]
    exact hownsynced.get (not_not.mpr rfl) hown
  next hname =>
    have hview := h.held.name name
    rw [if_neg hname, ← hrecords] at hview
    exact (ErasureStore.get_fst_eq_wire _ name).trans (hview.wire_eq law rfl)

/-- A successful sync is a promise kept.  After any run of inserts, removes, repairs and
syncs in which any write and any sync may fail, if a sync succeeds then each insert and
remove before it took effect; and whatever happens during the sync and after it, each
name not written or repaired since it began is read back after a power loss as it was
given before. -/
theorem sync_promise (device : Name) {before between : List (DiskEvent Name)}
    {ownFault : Option String} {fault : ℕ → Option String} {others : ℕ → List (DiskEvent Name)}
    (hok : ((run step (openEmpty device e) before).sync ownFault between fault others).1 = .ok ()) :
    (∀ event ∈ before, (openEmpty device e).Accepts event) ∧
      ∀ (after : List (DiskEvent Name)) (own : FjallStore Name)
        (stripes : Fin e.n → FjallStore Name),
        let synced := ((run step (openEmpty device e) before).sync ownFault between fault others).2
        let lost := run step synced after
        lost.own.Survives own → (∀ i, (lost.stripes i).Survives (stripes i)) →
          ∀ name, (∀ event ∈ between ++ after, event.name? ≠ some name) →
            (∀ i < e.n, ∀ event ∈ others i, event.name? ≠ some name) →
              ((lost.reopen own stripes).get name).1 = (given before).get name := by
  have hrepresents : (openEmpty device e : DurableHolder Name e).view.Represents e .empty :=
    .openEmpty device e
  generalize hd : run step (openEmpty device e) before = d at hok
  have hclean : d.Clean := by
    obtain ⟨-, hown, hstripes, hrefused⟩ := d.sync_spec (p := fun _ => True)
      (fun _ _ _ _ => trivial) (fun _ _ _ _ _ _ => trivial) hok
    exact ⟨hown.failed, fun i => (hstripes i).failed, hrefused⟩
  subst hd
  obtain ⟨haccepts, hgiven⟩ := represents_run law before hrepresents hclean
  refine ⟨haccepts, ?_⟩
  intro after own stripes synced lost hown hstripes name hname hothers
  have hbesides : ∀ {events : List (DiskEvent Name)}, (∀ event ∈ events, event.name? ≠ some name) →
      ∀ event ∈ events, ∀ other, event.name? = some other → other ≠ name := by
    rintro events hevents event hevent other hother rfl
    exact hevents event hevent hother
  rw [List.forall_mem_append] at hname
  obtain ⟨hfollows, hownsynced, hsynced, -⟩ := sync_spec (p := (· ≠ name)) _
    (hbesides hname.1) (fun i hi => hbesides (hothers i hi)) hok
  have hafter : Follows (· ≠ name) synced lost := follows_run after synced (hbesides hname.2)
  exact get_reopen law hgiven (hfollows.trans hafter) (hownsynced.before hafter.own)
    (fun i => (hsynced i).before (hafter.stripes i)) hown hstripes

end Promise

/-- A device `/r` is given an own packet and a held one. -/
def givenRun : List (DiskEvent Components) :=
  [.insert [[8, 1, 114]] [7] fun _ => none, .insert [[8, 1, 98]] [1, 2] fun _ => none]

/-- A stripe fails to write a packet, and another packet is deleted. -/
def lateRun : List (DiskEvent Components) :=
  [.insert [[8, 1, 99]] [2, 3] fun i => if i = 1 then some "disk full" else none,
    .remove [[8, 1, 114]] fun _ => none]

omit [Sha2] [Codec UInt8] in
theorem sync_promise_givenRun :
    letI := shortSha2
    letI := xorCodec
    let d : DurableHolder Components default := run step (openEmpty [[8, 1, 114]] default) givenRun
    let lost := run step (d.sync none [] (fun _ => none) fun _ => []).2 lateRun
    ((lost.reopen lost.own.durable fun i => (lost.stripes i).durable).get [[8, 1, 98]]).1 =
      some [1, 2] := by
  let _ := shortSha2
  let _ := xorCodec
  have hok : ((run step (openEmpty [[8, 1, 114]] default : DurableHolder Components default)
      givenRun).sync none [] (fun _ => none) fun _ => []).1 = .ok () := rfl
  obtain ⟨-, hkept⟩ := sync_promise (lawful_xorCodec (Or.inr rfl)) [[8, 1, 114]] hok
  exact (hkept lateRun _ _ ⟨[], List.nil_subset _, rfl⟩ (fun _ => ⟨[], List.nil_subset _, rfl⟩)
    [[8, 1, 98]] (by decide) (by simp)).trans (by decide +kernel)

end DurableHolder

end NdnRepo
