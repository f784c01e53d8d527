import NdnRepo.Held.Thinned
import NdnRepo.Lib.Steps
import NdnRepo.Ndn.Wire

/-!
# The holder's store

A holder keeps its own names, those under its device's name and under
`/localhost`, in a plain store and every other name in an erasure-coded one.  A scan
goes to the side its prefix lies on, and to both where the prefix lies above own
names.

The two stores together are one plain store: as long as every held packet has
records in at least `k` stripes, each operation answers what one map from names to
wires would (`HolderStore.answers_as_one_store`).
-/

namespace NdnRepo

open Coding Sorted Steps

variable {Name : Type} [NdnName Name]

/-! ## The store -/

/-- A holder's store: its own names plainly, what it holds for others erasure-coded. -/
structure HolderStore (Name : Type) [NdnName Name] where
  /-- The device's name. -/
  device : Name
  /-- `/localhost`. -/
  localhost : Name
  /-- The device's own names. -/
  own : FjallStore Name
  /-- What it holds for others. -/
  held : ErasureStore Name

namespace HolderStore

/-- The empty store of a device. -/
def openEmpty (device : Name) (erasure : Erasure) : HolderStore Name :=
  ⟨device, append NdnName.root (ascii "localhost"), .empty, .openEmpty erasure⟩

/-- Whether a name is the device's own. -/
def isOwn (d : HolderStore Name) (name : Name) : Bool :=
  hasPrefix name d.device || hasPrefix name d.localhost

variable [Sha2] [Codec UInt8]

/-- Store a packet. -/
def insert (d : HolderStore Name) (name : Name) (wire : Bytes) : HolderStore Name :=
  if d.isOwn name then { d with own := d.own.insert name wire }
  else { d with held := d.held.insert name wire }

/-- The packet of a name. -/
def get (d : HolderStore Name) (name : Name) : Option Bytes × HolderStore Name :=
  if d.isOwn name then (d.own.get name, d)
  else
    let (got, held) := d.held.get name
    (got, { d with held })

/-- Whether there is a packet of a name. -/
def contains (d : HolderStore Name) (name : Name) : Bool :=
  if d.isOwn name then d.own.contains name else d.held.contains name

/-- Delete the packet of a name. -/
def remove (d : HolderStore Name) (name : Name) : HolderStore Name :=
  if d.isOwn name then { d with own := d.own.remove name }
  else { d with held := d.held.remove name }

/-- Merge own rows and held rows in name order, up to `limit` (0 = all) of them. -/
def mergeRows (limit : ℕ) (own held out : List (Name × Bytes)) : List (Name × Bytes) :=
  if limit = 0 ∨ out.length < limit then
    match own, held with
    | a :: own, b :: held =>
        if b.1 < a.1 then mergeRows limit (a :: own) held (out ++ [b])
        else mergeRows limit own (b :: held) (out ++ [a])
    | a :: own, [] => mergeRows limit own [] (out ++ [a])
    | [], b :: held => mergeRows limit [] held (out ++ [b])
    | [], [] => out
  else out
termination_by own.length + held.length

/-- The first `limit` (0 = all) packets under a name. -/
def scanUnder (d : HolderStore Name) (under : Name) (limit : ℕ) :
    List (Name × Bytes) × HolderStore Name :=
  if d.isOwn under then (d.own.scanUnder under limit, d)
  else
    let (rows, held) := d.held.scanUnder under limit
    if !hasPrefix d.device under && !hasPrefix d.localhost under then (rows, { d with held })
    else (mergeRows limit (d.own.scanUnder under limit) rows [], { d with held })

/-- The first packet under a name. -/
def findUnder (d : HolderStore Name) (under : Name) : Option Bytes × HolderStore Name :=
  let (out, d) := d.scanUnder under 1
  (out.head?.map Prod.snd, d)

end HolderStore

/-! ## Operations -/

/-- What is asked of a store. -/
inductive StoreOp (Name : Type) where
  /-- Store a packet. -/
  | insert (name : Name) (wire : Bytes)
  /-- Delete a packet. -/
  | remove (name : Name)
  /-- Read a packet. -/
  | get (name : Name)
  /-- Look a packet up. -/
  | contains (name : Name)
  /-- The first packet under a name. -/
  | findUnder (under : Name)
  /-- The first `limit` (0 = all) packets under a name. -/
  | scanUnder (under : Name) (limit : ℕ)

/-- What a store answers. -/
inductive StoreAnswer (Name : Type) where
  /-- Nothing, to a write. -/
  | done
  /-- A packet, if there is one. -/
  | wire (got : Option Bytes)
  /-- Whether there is a packet. -/
  | present (yes : Bool)
  /-- Packets by name. -/
  | packets (rows : List (Name × Bytes))
deriving DecidableEq

/-- What happens to a holder's store: it is used, or a stripe loses its record of a
name. -/
inductive HolderEvent (Name : Type) where
  /-- An operation. -/
  | op (op : StoreOp Name)
  /-- Stripe `stripe` loses its record of `name`. -/
  | lose (stripe : ℕ) (name : Name)

namespace FjallStore

/-- A plain store used. -/
def apply (s : FjallStore Name) : StoreOp Name → StoreAnswer Name × FjallStore Name
  | .insert name wire => (.done, s.insert name wire)
  | .remove name => (.done, s.remove name)
  | .get name => (.wire (s.get name), s)
  | .contains name => (.present (s.contains name), s)
  | .findUnder under => (.wire (s.findUnder under), s)
  | .scanUnder under limit => (.packets (s.scanUnder under limit), s)

/-- A plain store has no stripes. -/
def step (s : FjallStore Name) : HolderEvent Name → StoreAnswer Name × FjallStore Name
  | .op op => s.apply op
  | .lose _ _ => (.done, s)

end FjallStore

namespace HolderStore

variable [Sha2] [Codec UInt8]

/-- A holder's store used. -/
def apply (d : HolderStore Name) : StoreOp Name → StoreAnswer Name × HolderStore Name
  | .insert name wire => (.done, d.insert name wire)
  | .remove name => (.done, d.remove name)
  | .get name =>
      let (got, d) := d.get name
      (.wire got, d)
  | .contains name => (.present (d.contains name), d)
  | .findUnder under =>
      let (got, d) := d.findUnder under
      (.wire got, d)
  | .scanUnder under limit =>
      let (rows, d) := d.scanUnder under limit
      (.packets rows, d)

/-- One event. -/
def step (d : HolderStore Name) : HolderEvent Name → StoreAnswer Name × HolderStore Name
  | .op op => d.apply op
  | .lose stripe name => (.done, { d with held := d.held.putRecord stripe name none })

/-- Wires fit the length field, and a packet that had records in `k` stripes has them
after a loss. -/
def Keeps (d : HolderStore Name) : HolderEvent Name → Prop
  | .op (.insert _ wire) => wire.length < u32Bound
  | .lose stripe name => d.held.contains name = true →
      (d.held.putRecord stripe name none).contains name = true
  | _ => True

instance (d : HolderStore Name) : ∀ event, Decidable (d.Keeps event)
  | .op (.insert _ wire) => inferInstanceAs (Decidable (wire.length < u32Bound))
  | .op (.remove _) | .op (.get _) | .op (.contains _) | .op (.findUnder _)
  | .op (.scanUnder _ _) => inferInstanceAs (Decidable True)
  | .lose stripe name => inferInstanceAs (Decidable (d.held.contains name = true →
      (d.held.putRecord stripe name none).contains name = true))

end HolderStore

/-! ## One store -/

/-- What is known of prefixes. -/
class LawfulPrefix (Name : Type) [NdnName Name] : Prop where
  /-- A prefix of a prefix is a prefix. -/
  trans {a b c : Name} : hasPrefix a b = true → hasPrefix b c = true → hasPrefix a c = true
  /-- Of two prefixes of a name one is a prefix of the other. -/
  comparable {a b c : Name} : hasPrefix a b = true → hasPrefix a c = true →
    hasPrefix b c = true ∨ hasPrefix c b = true

/-- A name under one of two prefixes that are apart is not under the other. -/
theorem LawfulPrefix.apart [LawfulPrefix Name] {name under other : Name}
    (hp : hasPrefix name under = true) (hunder : ¬hasPrefix under other = true)
    (hother : ¬hasPrefix other under = true) : ¬hasPrefix name other = true := fun h =>
  (LawfulPrefix.comparable hp h).elim hunder hother

instance : LawfulPrefix Components where
  trans {_ _ _} hab hbc := by
    simp only [hasPrefix, List.isPrefixOf_iff_prefix] at hab hbc ⊢
    exact hbc.trans hab
  comparable {_ _ _} hab hac := by
    simp only [hasPrefix, List.isPrefixOf_iff_prefix] at hab hac ⊢
    exact (List.prefix_or_prefix_of_prefix hab hac).symm

namespace HolderStore

section Prefixes

variable [LawfulPrefix Name] {d : HolderStore Name} {under name : Name}

/-- Every name under an own name is own. -/
theorem isOwn_of_prefix (hunder : d.isOwn under = true) (hp : hasPrefix name under = true) :
    d.isOwn name = true := by
  unfold isOwn at hunder ⊢
  rw [Bool.or_eq_true] at hunder ⊢
  exact hunder.imp (LawfulPrefix.trans hp) (LawfulPrefix.trans hp)

/-- Under a prefix that lies neither inside the own names nor above them no name is
own. -/
theorem not_isOwn_of_prefix (hunder : ¬d.isOwn under = true)
    (habove : (!hasPrefix d.device under && !hasPrefix d.localhost under) = true)
    (hp : hasPrefix name under = true) : ¬d.isOwn name = true := by
  unfold isOwn at hunder ⊢
  rw [Bool.or_eq_true, not_or] at hunder ⊢
  rw [Bool.and_eq_true, Bool.not_eq_true', Bool.not_eq_true', ← Bool.not_eq_true,
    ← Bool.not_eq_true] at habove
  exact ⟨LawfulPrefix.apart hp hunder.1 habove.1, LawfulPrefix.apart hp hunder.2 habove.2⟩

end Prefixes

/-- The merge loop takes the first rows of the merge. -/
theorem mergeRows_eq (limit : ℕ) (own held out : List (Name × Bytes))
    (hout : limit = 0 ∨ out.length ≤ limit) :
    mergeRows limit own held out = upTo limit (out ++ mergeTables own held) := by
  fun_induction mergeRows limit own held out with
  | case1 out hmore a own b held hlt ih =>
      rw [ih (by simpa using hmore), mergeTables_cons_of_lt own held hlt, List.append_assoc,
        List.singleton_append]
  | case2 out hmore a own b held hge ih =>
      rw [ih (by simpa using hmore), mergeTables_cons_of_le own held (not_lt.mp hge),
        List.append_assoc, List.singleton_append]
  | case3 out hmore a own ih =>
      rw [ih (by simpa using hmore), mergeTables_nil, mergeTables_nil, List.append_assoc,
        List.singleton_append]
  | case4 out hmore b held ih =>
      rw [ih (by simpa using hmore), nil_mergeTables, nil_mergeTables, List.append_assoc,
        List.singleton_append]
  | case5 out hmore =>
      rw [mergeTables_nil, List.append_nil, upTo]
      split
      · rfl
      next hlimit => rw [List.take_of_length_le (hout.resolve_left hlimit)]
  | case6 own held out hfull =>
      rw [not_or, not_lt] at hfull
      have hlen : out.length = limit := le_antisymm (hout.resolve_left hfull.1) hfull.2
      rw [upTo, if_neg hfull.1, List.take_left' hlen]

variable [Sha2] [Codec UInt8]

/-- A holder's store has the packets of a plain one, own names plainly and the others
erasure-coded. -/
structure Represents (e : Erasure) (d : HolderStore Name) (plain : FjallStore Name) : Prop where
  /-- The own store holds the own names. -/
  own : ∀ name, d.own.get name = if d.isOwn name then plain.get name else none
  /-- The held store holds the others. -/
  held : d.held.Holds e fun name => if d.isOwn name then none else plain.get name

namespace Represents

variable {e : Erasure} {d : HolderStore Name} {plain : FjallStore Name} {under : Name}

theorem openEmpty (device : Name) (e : Erasure) :
    Represents e (.openEmpty device e : HolderStore Name) .empty := by
  refine ⟨fun name => ?_, ?_⟩
  · simp [HolderStore.openEmpty]
  · simp only [FjallStore.get_empty, ite_self]
    exact .openEmpty e

/-! ### Writes -/

/-- An own name is written in the own store. -/
theorem put_own (h : Represents e d plain) {name : Name} (hown : d.isOwn name = true)
    (record : Option Bytes) :
    Represents e { d with own := d.own.put name record } (plain.put name record) := by
  refine ⟨fun other => ?_, ?_⟩
  · simp only [FjallStore.get_put]
    split
    next ho =>
      subst ho
      exact (if_pos hown).symm
    next => exact h.own other
  · have hsame : (fun other => if d.isOwn other then none else (plain.put name record).get other) =
        fun other => if d.isOwn other then none else plain.get other := by
      funext other
      rw [FjallStore.get_put]
      by_cases ho : other = name
      · rw [ho, if_pos hown, if_pos hown]
      · rw [if_neg ho]
    show d.held.Holds e fun other => if d.isOwn other then none else (plain.put name record).get other
    rw [hsame]
    exact h.held

/-- Any other name is written in the held store. -/
theorem put_held (h : Represents e d plain) {name : Name} (hown : ¬d.isOwn name = true)
    {record : Option Bytes} {held : ErasureStore Name}
    (hheld : held.Holds e (Function.update
      (fun other => if d.isOwn other then none else plain.get other) name record)) :
    Represents e { d with held } (plain.put name record) := by
  refine ⟨fun other => ?_, ?_⟩
  · rw [FjallStore.get_put]
    show d.own.get other = if d.isOwn other then _ else none
    rw [h.own]
    by_cases ho : other = name
    · rw [ho, if_neg hown, if_neg hown]
    · rw [if_neg ho]
  · have hsame : (fun other => if d.isOwn other then none else (plain.put name record).get other) =
        Function.update (fun other => if d.isOwn other then none else plain.get other) name
          record := by
      funext other
      rw [FjallStore.get_put, Function.update_apply]
      by_cases ho : other = name
      · rw [ho, if_neg hown, if_pos rfl, if_pos rfl]
      · rw [if_neg ho, if_neg ho]
    show held.Holds e fun other => if d.isOwn other then none else (plain.put name record).get other
    rw [hsame]
    exact hheld

/-- Reads change the held store only. -/
theorem of_held (h : Represents e d plain) {held : ErasureStore Name}
    (hheld : held.Holds e fun name => if d.isOwn name then none else plain.get name) :
    Represents e { d with held } plain := ⟨h.own, hheld⟩

/-! ### Scans -/

/-- The own names under a prefix. -/
theorem mem_own (h : Represents e d plain) {name : Name} {w : Bytes} :
    (name, w) ∈ d.own.entriesUnder under ↔
      d.isOwn name = true ∧ (name, w) ∈ plain.entriesUnder under := by
  rw [FjallStore.mem_entriesUnder, FjallStore.mem_entriesUnder, h.own]
  split
  next hown => simp [hown]
  next hown => simp [hown]

variable (law : Lawful UInt8 e.k e.n)

include law

/-- The other names under a prefix. -/
theorem mem_held (h : Represents e d plain) {name : Name} {w : Bytes} :
    (name, w) ∈ d.held.packetsUnder under ↔
      ¬d.isOwn name = true ∧ (name, w) ∈ plain.entriesUnder under := by
  rw [h.held.mem_packetsUnder law, FjallStore.mem_entriesUnder]
  split
  next hown => simp [hown]
  next hown => simp [hown]

/-- Own rows and held rows make up the rows of the plain store. -/
theorem mergeTables_eq (h : Represents e d plain) :
    mergeTables (d.own.entriesUnder under) (d.held.packetsUnder under) =
      plain.entriesUnder under := by
  have hapart : ∀ a ∈ d.own.entriesUnder under, ∀ b ∈ d.held.packetsUnder under, a.1 ≠ b.1 := by
    rintro ⟨name, w⟩ ha ⟨other, w'⟩ hb rfl
    exact ((h.mem_held law).mp hb).1 (h.mem_own.mp ha).1
  refine (Increasing.merge (d.own.sorted_entriesUnder under) ErasureStore.increasing_packetsUnder
    hapart).eq_of_mem_iff (plain.sorted_entriesUnder under) fun name w => ?_
  rw [mem_mergeTables, h.mem_own, h.mem_held law, ← or_and_right]
  tauto

variable [LawfulPrefix Name]

/-- A scan lists what the plain store's does. -/
theorem scanUnder (h : Represents e d plain) (under : Name) (limit : ℕ) :
    (d.scanUnder under limit).1 = plain.scanUnder under limit ∧
      Represents e (d.scanUnder under limit).2 plain := by
  have hplain : plain.scanUnder under limit = upTo limit (plain.entriesUnder under) := rfl
  have hownscan : d.own.scanUnder under limit = upTo limit (d.own.entriesUnder under) := rfl
  have hrows := h.held.scanUnder_fst law under limit
  have hheld := h.of_held (h.held.scanUnder_snd law under limit)
  unfold HolderStore.scanUnder
  split
  next hunder =>
    refine ⟨?_, h⟩
    rw [hownscan, hplain]
    refine congrArg (upTo limit) (Increasing.eq_of_mem_iff (d.own.sorted_entriesUnder under)
      (plain.sorted_entriesUnder under) fun name w => ?_)
    rw [h.mem_own, and_iff_right_iff_imp]
    exact fun hmem => isOwn_of_prefix hunder (FjallStore.mem_entriesUnder.mp hmem).2
  next hunder =>
    generalize d.held.scanUnder under limit = got at hrows hheld
    obtain ⟨rows, held⟩ := got
    simp only at hrows hheld ⊢
    subst hrows
    split
    next habove =>
      refine ⟨?_, hheld⟩
      rw [hplain]
      refine congrArg (upTo limit) (ErasureStore.increasing_packetsUnder.eq_of_mem_iff
        (plain.sorted_entriesUnder under) fun name w => ?_)
      rw [h.mem_held law, and_iff_right_iff_imp]
      exact fun hmem =>
        not_isOwn_of_prefix hunder habove (FjallStore.mem_entriesUnder.mp hmem).2
    next =>
      refine ⟨?_, hheld⟩
      rw [mergeRows_eq limit _ _ _ (by simp), List.nil_append, hownscan, hplain, mergeTables,
        upTo_merge, ← mergeTables, h.mergeTables_eq law]

/-! ### Every operation -/

/-- An operation is answered as by the plain store. -/
theorem apply (h : Represents e d plain) (op : StoreOp Name)
    (hshort : ∀ name wire, op = .insert name wire → wire.length < u32Bound) :
    (d.apply op).1 = (plain.apply op).1 ∧ Represents e (d.apply op).2 (plain.apply op).2 := by
  cases op with
  | insert name wire =>
      refine ⟨rfl, ?_⟩
      show Represents e (d.insert name wire) (plain.put name (some wire))
      unfold HolderStore.insert
      split
      next hown => exact h.put_own hown (some wire)
      next hown => exact h.put_held hown (h.held.insert law name (hshort name wire rfl))
  | remove name =>
      refine ⟨rfl, ?_⟩
      show Represents e (d.remove name) (plain.put name none)
      unfold HolderStore.remove
      split
      next hown => exact h.put_own hown none
      next hown => exact h.put_held hown (h.held.remove name)
  | get name =>
      simp only [HolderStore.apply, FjallStore.apply, HolderStore.get]
      split
      next hown => exact ⟨by rw [h.own, if_pos hown], h⟩
      next hown =>
        refine ⟨?_, h.of_held ?_⟩
        · rw [ErasureStore.get_fst_eq_wire, h.held.wire_eq law, if_neg hown]
        · rw [ErasureStore.get_snd]
          exact h.held.repair law name
  | contains name =>
      refine ⟨congrArg StoreAnswer.present ?_, h⟩
      unfold HolderStore.contains
      split
      next hown => rw [FjallStore.contains_eq, FjallStore.contains_eq, h.own, if_pos hown]
      next hown => rw [FjallStore.contains_eq, h.held.contains_eq, if_neg hown]
  | findUnder under =>
      obtain ⟨hrows, hnext⟩ := h.scanUnder law under 1
      refine ⟨congrArg StoreAnswer.wire ?_, hnext⟩
      show (d.scanUnder under 1).1.head?.map Prod.snd = plain.findUnder under
      rw [hrows, FjallStore.findUnder, FjallStore.scanUnder, if_neg Nat.one_ne_zero]
      cases plain.entriesUnder under <;> rfl
  | scanUnder under limit =>
      obtain ⟨hrows, hnext⟩ := h.scanUnder law under limit
      exact ⟨congrArg StoreAnswer.packets hrows, hnext⟩

/-- An event that keeps the packets is answered as by the plain store. -/
theorem step (h : Represents e d plain) (event : HolderEvent Name) (hkeeps : d.Keeps event) :
    (d.step event).1 = (plain.step event).1 ∧
      Represents e (d.step event).2 (plain.step event).2 := by
  cases event with
  | op op =>
      refine h.apply law op fun name wire hop => ?_
      subst hop
      exact hkeeps
  | lose stripe name => exact ⟨rfl, h.of_held (h.held.lose hkeeps)⟩

end Represents

/-- A holder's store is one plain store.  In every run of inserts, removes, reads and
scans, while stripes lose records but no packet fewer than `k` are left, each answer is
that of one map from names to wires in name order. -/
theorem answers_as_one_store [LawfulPrefix Name] (device : Name) {e : Erasure}
    (law : Lawful UInt8 e.k e.n) (events : List (HolderEvent Name))
    (hkeeps : Admits (fun d event => (d.step event).2) Keeps (.openEmpty device e) events) :
    outputs step (.openEmpty device e) events = outputs FjallStore.step .empty events :=
  outputs_eq (fun d plain event (h : Represents e d plain) hkeeps => h.step law event hkeeps)
    (Represents.openEmpty device e) hkeeps

/-- A device `/r` stores an own packet and a held one, loses a shard of it, and reads. -/
def holderRun : List (HolderEvent Components) :=
  [.op (.insert [[8, 1, 114], [8, 1, 97]] [7]), .op (.insert [[8, 1, 98]] [1, 2]),
    .lose 1 [[8, 1, 98]], .op (.scanUnder [] 1), .op (.contains [[8, 1, 98]]),
    .op (.remove [[8, 1, 114], [8, 1, 97]]), .op (.findUnder [])]

omit [Sha2] [Codec UInt8] in
theorem answers_as_one_store_holderRun :
    letI := shortSha2
    letI := xorCodec
    outputs step (.openEmpty [[8, 1, 114]] default) holderRun =
      [.done, .done, .done, .packets [([[8, 1, 98]], [1, 2])], .present true, .done,
        .wire (some [1, 2])] := by
  let _ := shortSha2
  let _ := xorCodec
  have hkeeps : Admits (fun d event => (d.step event).2) Keeps
      (.openEmpty [[8, 1, 114]] default) holderRun := by decide +kernel
  rw [answers_as_one_store [[8, 1, 114]] (lawful_xorCodec (Or.inr rfl)) holderRun hkeeps]
  decide +kernel

end HolderStore

end NdnRepo
