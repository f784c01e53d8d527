import Mathlib

/-!
# Systematic erasure codecs

A systematic codec turns `k` segments of equal length into `n` shards: the
segments themselves and `n - k` parity shards.  Any `k` shards of distinct
indices give the segments back.  The encoder is fed the segments one by one and
then asked for parities.  The decoder absorbs shards until it is complete.

`Codec` is the interface and `Lawful` what a client may rely on at parameters
`k` and `n`.  The laws speak only of shards of one codeword.  Over a finite
alphabet they already decide what happens to arbitrary shards.  Encoding is
injective on any `k` positions, so by counting it is onto
(`exists_codeword`), and any `k` bodies of one length are shards of some
segments.

`Uniform` says which shards a decoder takes, whoever made them.  It absorbs shards of
one length, that of the first that fits, so the shards alone decide whether it becomes
complete (`Uniform.until`).
-/

namespace Coding

/-- Why a codec call fails. -/
inductive CodingError where
  /-- The parameters are outside what the codec supports. -/
  | invalidParameters (k n : ℕ)
  /-- Any other failure, by the text it prints. -/
  | other (text : String)
deriving Repr, DecidableEq

/-- A codec over an alphabet.  A call on the encoder that fails ends its use, so
`feed` returns no encoder on failure.  A client goes on with a decoder whose
`absorb` failed, so `absorb` always returns one. -/
class Codec (α : Type) where
  /-- A running encoder. -/
  Encoder : Type
  /-- A running decoder. -/
  Decoder : Type
  /-- A fresh encoder for `k` segments and `n` shards. -/
  newEncoder : ℕ → ℕ → Except CodingError Encoder
  /-- Give the encoder its next segment. -/
  feed : Encoder → List α → Except CodingError Encoder
  /-- The parity shard of an index. -/
  parity : Encoder → ℕ → Except CodingError (List α)
  /-- A fresh decoder for `k` segments and `n` shards. -/
  newDecoder : ℕ → ℕ → Except CodingError Decoder
  /-- Give the decoder the shard of an index. -/
  absorb : Decoder → ℕ → List α → Except CodingError Unit × Decoder
  /-- Whether the segments can be recovered. -/
  isComplete : Decoder → Bool
  /-- The segments. -/
  recover : Decoder → Except CodingError (List (List α))
  /-- How an error prints. -/
  errorText : CodingError → String

section Definitions

variable {α : Type} [Codec α]

/-- The shards of `segs`: the segments in order, then the parities `k..n`. -/
def codeword (k n : ℕ) (segs : List (List α)) : Except CodingError (List (List α)) := do
  let enc ← Codec.newEncoder k n
  let enc ← segs.foldlM Codec.feed enc
  let parities ← (List.range' k (n - k)).mapM (Codec.parity enc)
  return segs ++ parities

/-- Absorb every shard, whatever each call answers. -/
def absorbAll (dec : Codec.Decoder α) (shards : List (ℕ × List α)) : Codec.Decoder α :=
  shards.foldl (fun d s => (Codec.absorb d s.1 s.2).2) dec

/-- Absorb shards until the decoder is complete.  A shard the decoder refuses is
skipped. -/
def absorbUntil (dec : Codec.Decoder α) : List (ℕ × List α) → Codec.Decoder α
  | [] => dec
  | (index, body) :: rest =>
      match Codec.absorb dec index body with
      | (.error _, dec) => absorbUntil dec rest
      | (.ok _, dec) => if Codec.isComplete dec then dec else absorbUntil dec rest

/-- All blocks have length `L`. -/
def AllLength (L : ℕ) (blocks : List (List α)) : Prop := ∀ b ∈ blocks, b.length = L

end Definitions

/-- What a client relies on at the parameters `k` and `n`. -/
structure Lawful (α : Type) [Codec α] (k n : ℕ) : Prop where
  /-- `k` segments of one nonzero length are encoded, with parities of that
  length. -/
  encodes : ∀ {L : ℕ} {segs : List (List α)}, 0 < L → segs.length = k → AllLength L segs →
    ∃ cw, codeword k n segs = .ok cw ∧ AllLength L cw
  /-- A decoder that absorbed shards of one codeword is complete from `k`
  distinct indices on, and then recovers the segments.  Until then it accepts a
  shard of a new index. -/
  decodes : ∃ dec, Codec.newDecoder (α := α) k n = .ok dec ∧
    ∀ {L : ℕ} {segs cw : List (List α)}, 0 < L → segs.length = k → AllLength L segs →
      codeword k n segs = .ok cw → ∀ idxs : List ℕ, (∀ i ∈ idxs, i < n) →
        let d := absorbAll dec (idxs.map fun i => (i, cw.getD i []))
        (Codec.isComplete d = true ↔ k ≤ idxs.toFinset.card) ∧
          (k ≤ idxs.toFinset.card → Codec.recover d = .ok segs) ∧
          (idxs.toFinset.card < k → ∀ i < n, i ∉ idxs →
            (Codec.absorb d i (cw.getD i [])).1 = .ok ())

/-- A successful `mapM` keeps the length. -/
theorem length_mapM_ok {β γ ε : Type} {f : β → Except ε γ} :
    ∀ {l : List β} {r : List γ}, l.mapM f = .ok r → r.length = l.length
  | [], r, h => by
      simp only [List.mapM_nil, pure, Except.pure, Except.ok.injEq] at h
      simp [← h]
  | b :: l, r, h => by
      rw [List.mapM_cons] at h
      cases hb : f b with
      | error e => simp [hb, bind, Except.bind] at h
      | ok c =>
          cases hl : l.mapM f with
          | error e => simp [hb, hl, bind, Except.bind] at h
          | ok cs =>
              simp only [hb, hl, bind, Except.bind, pure, Except.pure, Except.ok.injEq] at h
              have ih := length_mapM_ok hl
              simp [← h, ih]

section Codeword

variable {α : Type} [Codec α] {k n L : ℕ} {segs cw : List (List α)}

/-- A codeword starts with the segments. -/
theorem codeword_eq_append (h : codeword k n segs = .ok cw) :
    ∃ parities, cw = segs ++ parities ∧ parities.length = n - k := by
  unfold codeword at h
  cases hnew : Codec.newEncoder (α := α) k n with
  | error e => simp [hnew, bind, Except.bind] at h
  | ok enc =>
      cases hfeed : segs.foldlM Codec.feed enc with
      | error e => simp [hnew, hfeed, bind, Except.bind] at h
      | ok enc' =>
          cases hpar : (List.range' k (n - k)).mapM (Codec.parity enc') with
          | error e => simp [hnew, hfeed, hpar, bind, Except.bind] at h
          | ok parities =>
              simp only [hnew, hfeed, hpar, bind, Except.bind, pure, Except.pure,
                Except.ok.injEq] at h
              refine ⟨parities, h.symm, ?_⟩
              have hlen := length_mapM_ok hpar
              simpa using hlen

theorem codeword_length (hkn : k ≤ n) (hlen : segs.length = k)
    (h : codeword k n segs = .ok cw) : cw.length = n := by
  obtain ⟨parities, rfl, hpar⟩ := codeword_eq_append h
  simp [hlen, hpar]
  omega

theorem codeword_getD_of_lt (hlen : segs.length = k) (h : codeword k n segs = .ok cw)
    {i : ℕ} (hi : i < k) : cw.getD i [] = segs.getD i [] := by
  obtain ⟨parities, rfl, -⟩ := codeword_eq_append h
  exact List.getD_append _ _ _ _ (hlen ▸ hi)

end Codeword

/-! ## Decoding -/

section Decoding

variable {α : Type} [Codec α] {k n L : ℕ} {segs cw : List (List α)}

@[simp] theorem absorbAll_nil (dec : Codec.Decoder α) : absorbAll dec [] = dec := rfl

theorem absorbAll_append (dec : Codec.Decoder α) (xs ys : List (ℕ × List α)) :
    absorbAll dec (xs ++ ys) = absorbAll (absorbAll dec xs) ys := by
  simp [absorbAll, List.foldl_append]

/-- `absorbUntil` absorbs a prefix: all of the shards, or up to one that makes
the decoder complete. -/
theorem absorbUntil_eq (dec : Codec.Decoder α) :
    ∀ shards : List (ℕ × List α), ∃ m, absorbUntil dec shards = absorbAll dec (shards.take m) ∧
      (shards.length ≤ m ∨ Codec.isComplete (absorbUntil dec shards) = true)
  | [] => ⟨0, rfl, Or.inl (Nat.le_refl 0)⟩
  | (index, body) :: rest => by
      have hstep : ∀ m, absorbAll dec (((index, body) :: rest).take (m + 1)) =
          absorbAll (Codec.absorb dec index body).2 (rest.take m) := fun m => rfl
      obtain ⟨m, hm, hend⟩ := absorbUntil_eq (Codec.absorb dec index body).2 rest
      cases hab : Codec.absorb dec index body with
      | mk answer dec' =>
          rw [hab] at hm hend hstep
          cases answer with
          | error e =>
              refine ⟨m + 1, by simp only [absorbUntil, hab, hstep, hm], ?_⟩
              simpa [absorbUntil, hab] using hend
          | ok u =>
              by_cases hc : Codec.isComplete dec' = true
              · refine ⟨1, ?_, Or.inr (by simp [absorbUntil, hab, hc])⟩
                simp [absorbUntil, hab, hc, absorbAll]
              · refine ⟨m + 1, by simp only [absorbUntil, hab, hstep, hm, hc]; simp, ?_⟩
                simpa [absorbUntil, hab, hc] using hend

/-- Absorbing shards of one codeword until complete.  With `k` distinct indices
the segments come back.  With fewer the decoder stays incomplete. -/
theorem Lawful.decode_codeword (law : Lawful α k n) :
    ∃ dec, Codec.newDecoder (α := α) k n = .ok dec ∧
      ∀ {L : ℕ} {segs cw : List (List α)}, 0 < L → segs.length = k → AllLength L segs →
        codeword k n segs = .ok cw → ∀ idxs : List ℕ, (∀ i ∈ idxs, i < n) →
          let d := absorbUntil dec (idxs.map fun i => (i, cw.getD i []))
          (Codec.isComplete d = true ↔ k ≤ idxs.toFinset.card) ∧
            (k ≤ idxs.toFinset.card → Codec.recover d = .ok segs) := by
  obtain ⟨dec, hnew, hdec⟩ := law.decodes
  refine ⟨dec, hnew, ?_⟩
  intro L segs cw hL hlen hall hcw idxs hidx
  obtain ⟨m, hm, hend⟩ := absorbUntil_eq dec (idxs.map fun i => (i, cw.getD i []))
  rw [← List.map_take] at hm
  have hsub : (idxs.take m).toFinset ⊆ idxs.toFinset := fun i hi => by
    rw [List.mem_toFinset] at hi ⊢
    exact List.mem_of_mem_take hi
  have hcard := Finset.card_le_card hsub
  obtain ⟨hiff, hrec, -⟩ := hdec hL hlen hall hcw (idxs.take m)
    (fun i hi => hidx i (List.mem_of_mem_take hi))
  simp only [hm] at hend ⊢
  cases hend with
  | inl hall' =>
      rw [List.length_map] at hall'
      rw [List.take_of_length_le hall'] at hiff hrec ⊢
      exact ⟨hiff, hrec⟩
  | inr hc =>
      have hk := hiff.mp hc
      exact ⟨⟨fun _ => hk.trans hcard, fun _ => hc⟩, fun _ => hrec hk⟩

end Decoding

/-! ## Shards that are absorbed -/

section Absorbed

variable {α : Type} [Codec α] {fits : ℕ → Prop} {k n L : ℕ}

/-- The decoders that absorbing leads to until one is complete, each with the shards it has
absorbed.  A shard that is refused or of an index absorbed before adds nothing. -/
inductive Absorbs (start : Codec.Decoder α) : List (ℕ × List α) → Codec.Decoder α → Prop
  | nil : Absorbs start [] start
  | accept {xs : List (ℕ × List α)} {dec : Codec.Decoder α} {index : ℕ} {body : List α}
      (h : Absorbs start xs dec) (hfew : Codec.isComplete dec = false)
      (hok : (Codec.absorb dec index body).1 = .ok ()) (hnew : index ∉ xs.map Prod.fst) :
      Absorbs start (xs ++ [(index, body)]) (Codec.absorb dec index body).2
  | skip {xs : List (ℕ × List α)} {dec : Codec.Decoder α} {index : ℕ} {body : List α}
      (h : Absorbs start xs dec) (hfew : Codec.isComplete dec = false)
      (hskip : (Codec.absorb dec index body).1 ≠ .ok () ∨ index ∈ xs.map Prod.fst) :
      Absorbs start xs (Codec.absorb dec index body).2

/-- An index is absorbed once. -/
theorem Absorbs.nodup {start dec : Codec.Decoder α} {xs : List (ℕ × List α)}
    (h : Absorbs start xs dec) : (xs.map Prod.fst).Nodup := by
  induction h with
  | nil => exact List.nodup_nil
  | accept _ _ _ hnew ih =>
      rw [List.map_append, List.map_singleton, List.nodup_append]
      refine ⟨ih, List.nodup_singleton _, fun i hi j hj => ?_⟩
      rw [List.mem_singleton.mp hj]
      rintro rfl
      exact hnew hi
  | skip _ _ _ ih => exact ih

/-- The shards a decoder has absorbed after `absorbUntil`, if it had absorbed `xs` before. -/
def absorbedUntil (dec : Codec.Decoder α) (xs : List (ℕ × List α)) :
    List (ℕ × List α) → List (ℕ × List α)
  | [] => xs
  | (index, body) :: rest =>
      match Codec.absorb dec index body with
      | (.error _, dec) => absorbedUntil dec xs rest
      | (.ok _, dec) =>
          let xs := if index ∈ xs.map Prod.fst then xs else xs ++ [(index, body)]
          if Codec.isComplete dec then xs else absorbedUntil dec xs rest

/-- What a client relies on at `k` and `n` whatever the shards are.  `fits` are the lengths
of shards the decoder takes. -/
structure Uniform (α : Type) [Codec α] (fits : ℕ → Prop) (k n : ℕ) : Prop where
  /-- There is a decoder for one segment or more, of at most 255 shards. -/
  new : (∃ dec, Codec.newDecoder (α := α) k n = .ok dec) ↔ 1 ≤ k ∧ k ≤ n ∧ n ≤ 255
  /-- An incomplete decoder takes a shard of a new index if its length fits and is that of
  the shards it has absorbed. -/
  takes : ∀ {start dec : Codec.Decoder α} {xs : List (ℕ × List α)},
    Codec.newDecoder k n = .ok start → Absorbs start xs dec → Codec.isComplete dec = false →
      ∀ {index : ℕ} {body : List α}, index < n → index ∉ xs.map Prod.fst →
        ((Codec.absorb dec index body).1 = .ok () ↔
          fits body.length ∧ ∀ s ∈ xs, s.2.length = body.length)
  /-- A decoder is complete if it has absorbed `k` shards. -/
  complete : ∀ {start dec : Codec.Decoder α} {xs : List (ℕ × List α)},
    Codec.newDecoder k n = .ok start → Absorbs start xs dec →
      (Codec.isComplete dec = true ↔ k ≤ xs.length)
  /-- Then it recovers `k` segments as long as each of them. -/
  recovers : ∀ {start dec : Codec.Decoder α} {xs : List (ℕ × List α)},
    Codec.newDecoder k n = .ok start → Absorbs start xs dec → Codec.isComplete dec = true →
      ∃ segs, Codec.recover dec = .ok segs ∧ segs.length = k ∧ ∀ s ∈ xs, AllLength s.2.length segs

/-- The shards of the lengths a decoder takes. -/
def fitting (fits : ℕ → Prop) [DecidablePred fits] (shards : List (ℕ × List α)) :
    List (ℕ × List α) := shards.filter fun s => fits s.2.length

/-- The indices of the shards of a length. -/
def indicesOf (L : ℕ) (shards : List (ℕ × List α)) : Finset ℕ :=
  ((shards.filter fun s => s.2.length = L).map Prod.fst).toFinset

section Until

variable [DecidablePred fits] {start dec : Codec.Decoder α} {index : ℕ} {body : List α}
  {xs : List (ℕ × List α)} (rest : List (ℕ × List α))

/-- A shard that adds nothing is passed over. -/
theorem until_skip (hfew : Codec.isComplete (Codec.absorb dec index body).2 = false)
    (hskip : (Codec.absorb dec index body).1 ≠ .ok () ∨ index ∈ xs.map Prod.fst) :
    absorbUntil dec ((index, body) :: rest) = absorbUntil (Codec.absorb dec index body).2 rest ∧
      absorbedUntil dec xs ((index, body) :: rest) =
        absorbedUntil (Codec.absorb dec index body).2 xs rest := by
  cases hab : Codec.absorb dec index body with
  | mk answer dec' =>
      rw [hab] at hfew hskip
      cases answer with
      | error e => exact ⟨by simp only [absorbUntil, hab], by simp only [absorbedUntil, hab]⟩
      | ok u =>
          have hold : index ∈ xs.map Prod.fst := hskip.resolve_left fun hne => hne rfl
          simp [absorbUntil, absorbedUntil, hab, hfew, hold]

/-- A shard that is absorbed may be the last. -/
theorem until_accept (hok : (Codec.absorb dec index body).1 = .ok ())
    (hnew : index ∉ xs.map Prod.fst) :
    absorbUntil dec ((index, body) :: rest) =
        (if Codec.isComplete (Codec.absorb dec index body).2 then (Codec.absorb dec index body).2
          else absorbUntil (Codec.absorb dec index body).2 rest) ∧
      absorbedUntil dec xs ((index, body) :: rest) =
        if Codec.isComplete (Codec.absorb dec index body).2 then xs ++ [(index, body)]
          else absorbedUntil (Codec.absorb dec index body).2 (xs ++ [(index, body)]) rest := by
  cases hab : Codec.absorb dec index body with
  | mk answer dec' =>
      rw [hab] at hok
      obtain rfl : answer = .ok () := hok
      simp only [absorbUntil, absorbedUntil, hab, if_neg hnew, and_self]

variable {rest}

/-- The indices of those a decoder may have absorbed in the end, if it has absorbed `xs`. -/
def indicesWith (fits : ℕ → Prop) [DecidablePred fits] (L : ℕ) (xs shards : List (ℕ × List α)) :
    Finset ℕ := (xs.map Prod.fst).toFinset ∪ indicesOf L (fitting fits shards)

omit [Codec α] in
theorem indicesOf_fitting_cons :
    indicesOf L (fitting fits ((index, body) :: rest)) =
      if fits body.length ∧ body.length = L then insert index (indicesOf L (fitting fits rest))
        else indicesOf L (fitting fits rest) := by
  rw [fitting, indicesOf, List.filter_filter, List.filter_cons]
  by_cases hcounts : fits body.length ∧ body.length = L
  · have hkeep : (decide (body.length = L) && decide (fits body.length)) = true := by
      rw [decide_eq_true hcounts.1, decide_eq_true hcounts.2]
      rfl
    rw [if_pos hkeep, if_pos hcounts, List.map_cons, List.toFinset_cons, fitting, indicesOf,
      List.filter_filter]
  · have hdrop : ¬(decide (body.length = L) && decide (fits body.length)) = true := by
      rw [Bool.and_eq_true, decide_eq_true_iff, decide_eq_true_iff]
      exact fun h => hcounts h.symm
    rw [if_neg hdrop, if_neg hcounts, fitting, indicesOf, List.filter_filter]

omit [Codec α] in
/-- A shard adds no index that is there, is too many, or has another length. -/
theorem indicesWith_cons_skip
    (h : index ∈ xs.map Prod.fst ∨ ¬(fits body.length ∧ body.length = L)) :
    indicesWith fits L xs ((index, body) :: rest) = indicesWith fits L xs rest := by
  rw [indicesWith, indicesOf_fitting_cons]
  split
  next hcounts =>
    have hmem : index ∈ (xs.map Prod.fst).toFinset :=
      List.mem_toFinset.mpr (h.resolve_right fun hnot => hnot hcounts)
    rw [Finset.union_insert, Finset.insert_eq_of_mem (Finset.mem_union_left _ hmem), indicesWith]
  next => rw [indicesWith]

omit [Codec α] in
/-- A shard that is absorbed is counted before and after. -/
theorem indicesWith_cons_accept (hcounts : fits body.length ∧ body.length = L) :
    indicesWith fits L xs ((index, body) :: rest) =
      indicesWith fits L (xs ++ [(index, body)]) rest := by
  rw [indicesWith, indicesOf_fitting_cons, if_pos hcounts, indicesWith, List.map_append,
    List.toFinset_append, Finset.union_insert, List.map_singleton, List.toFinset_cons,
    List.toFinset_nil, insert_empty_eq, Finset.union_right_comm, Finset.union_comm _ {index},
    ← Finset.insert_eq]

/-- Decoders and absorbed shards, with those still to come.  The decoder is not complete, and
all it has absorbed or will absorb first has one length. -/
structure Absorbing (fits : ℕ → Prop) [DecidablePred fits] (L : ℕ) (start dec : Codec.Decoder α)
    (xs shards : List (ℕ × List α)) : Prop where
  /-- What was absorbed. -/
  absorbs : Absorbs start xs dec
  /-- More is needed. -/
  few : Codec.isComplete dec = false
  /-- What was absorbed has the length. -/
  all : ∀ s ∈ xs, s.2.length = L
  /-- What is absorbed first will have the length. -/
  first : xs = [] → ∀ s ∈ (fitting fits shards).head?, s.2.length = L

/-- An incomplete decoder takes exactly the shards of new indices that count. -/
theorem Absorbing.takes (h : Absorbing fits L start dec xs ((index, body) :: rest))
    (law : Uniform α fits k n) (hstart : Codec.newDecoder k n = .ok start) (hidx : index < n)
    (hnew : index ∉ xs.map Prod.fst) :
    (Codec.absorb dec index body).1 = .ok () ↔ fits body.length ∧ body.length = L := by
  rw [law.takes hstart h.absorbs h.few hidx hnew]
  refine and_congr_right fun hfits => ⟨fun hsame => ?_, fun hlen s hs => ?_⟩
  · cases xs with
    | nil =>
        exact h.first rfl (index, body) (by simp [fitting, hfits])
    | cons s xs => rw [← hsame s (List.mem_cons_self ..), h.all s (List.mem_cons_self ..)]
  · rw [h.all s hs, hlen]

/-- Absorbing goes on after a shard that adds nothing. -/
theorem Absorbing.skip (h : Absorbing fits L start dec xs ((index, body) :: rest))
    (law : Uniform α fits k n) (hstart : Codec.newDecoder k n = .ok start)
    (hskip : (Codec.absorb dec index body).1 ≠ .ok () ∨ index ∈ xs.map Prod.fst)
    (hout : index ∈ xs.map Prod.fst ∨ ¬(fits body.length ∧ body.length = L)) :
    Absorbing fits L start (Codec.absorb dec index body).2 xs rest := by
  have habsorbs := h.absorbs.skip h.few hskip
  refine ⟨habsorbs, ?_, h.all, fun hnil s hs => ?_⟩
  · have hfew := h.few
    rw [Bool.eq_false_iff, ne_eq, law.complete hstart h.absorbs] at hfew
    rwa [Bool.eq_false_iff, ne_eq, law.complete hstart habsorbs]
  · subst hnil
    refine h.first rfl s ?_
    have hnot := hout.resolve_left List.not_mem_nil
    by_cases hfits : fits body.length
    · exact absurd ⟨hfits, h.first rfl (index, body) (by simp [fitting, hfits])⟩ hnot
    · rwa [fitting, List.filter_cons_of_neg (by simpa using hfits)]

/-- Absorbing until complete absorbs shards of one length.  The first shard that fits
decides it, and the decoder is complete if those of this length have `k` indices. -/
theorem Absorbing.until (law : Uniform α fits k n) (hstart : Codec.newDecoder k n = .ok start) :
    ∀ {shards xs : List (ℕ × List α)} {dec : Codec.Decoder α}, (∀ s ∈ shards, s.1 < n) →
      Absorbing fits L start dec xs shards →
        Absorbs start (absorbedUntil dec xs shards) (absorbUntil dec shards) ∧
          (∀ s ∈ absorbedUntil dec xs shards, s.2.length = L) ∧
          (Codec.isComplete (absorbUntil dec shards) = true ↔
            k ≤ (indicesWith fits L xs shards).card) := by
  intro shards
  induction shards with
  | nil =>
      intro xs dec _ h
      have hcard : (indicesWith fits L xs []).card = xs.length := by
        rw [indicesWith, fitting, List.filter_nil, indicesOf, List.filter_nil, List.map_nil,
          List.toFinset_nil, Finset.union_empty, List.toFinset_card_of_nodup h.absorbs.nodup,
          List.length_map]
      refine ⟨h.absorbs, h.all, ?_⟩
      rw [hcard]
      exact law.complete hstart h.absorbs
  | cons s rest ih =>
      obtain ⟨index, body⟩ := s
      intro xs dec hidx h
      have hrest : ∀ s ∈ rest, s.1 < n := fun s hs => hidx s (List.mem_cons_of_mem _ hs)
      have hlt : index < n := hidx _ (List.mem_cons_self ..)
      by_cases haccept : (Codec.absorb dec index body).1 = .ok () ∧ index ∉ xs.map Prod.fst
      · -- The shard is absorbed, and the decoder may be complete with it.
        obtain ⟨hok, hnew⟩ := haccept
        have hcounts := (h.takes law hstart hlt hnew).mp hok
        have habsorbs := h.absorbs.accept h.few hok hnew
        have hall : ∀ s ∈ xs ++ [(index, body)], s.2.length = L := fun s hs =>
          (List.mem_append.mp hs).elim (h.all s) fun hlast =>
            List.mem_singleton.mp hlast ▸ hcounts.2
        obtain ⟨hdec, hxs⟩ := until_accept rest hok hnew
        rw [hdec, hxs, indicesWith_cons_accept hcounts]
        cases hcomplete : Codec.isComplete (Codec.absorb dec index body).2 with
        | true =>
            refine ⟨habsorbs, hall, iff_of_true hcomplete ?_⟩
            have hmany := (law.complete hstart habsorbs).mp hcomplete
            rw [← List.length_map Prod.fst, ← List.toFinset_card_of_nodup habsorbs.nodup] at hmany
            exact hmany.trans (Finset.card_le_card Finset.subset_union_left)
        | false =>
            exact ih hrest ⟨habsorbs, hcomplete, hall, fun hnil => absurd hnil (by simp)⟩
      · have hskip : (Codec.absorb dec index body).1 ≠ .ok () ∨ index ∈ xs.map Prod.fst := by
          rwa [not_and_or, not_not] at haccept
        have hout : index ∈ xs.map Prod.fst ∨ ¬(fits body.length ∧ body.length = L) := by
          refine hskip.elim (fun herr => ?_) .inl
          by_cases hnew : index ∈ xs.map Prod.fst
          · exact .inl hnew
          · exact .inr fun hcounts => herr ((h.takes law hstart hlt hnew).mpr hcounts)
        have hgo := h.skip law hstart hskip hout
        obtain ⟨hdec, hxs⟩ := until_skip rest hgo.few hskip
        rw [hdec, hxs, indicesWith_cons_skip hout]
        exact ih hrest hgo

/-- A fresh decoder becomes complete exactly if the shards as long as the first that fits
have `k` indices.  Then it has absorbed `k` of them and recovers segments of that length. -/
theorem Uniform.until (law : Uniform α fits k n) (hstart : Codec.newDecoder k n = .ok start)
    {shards : List (ℕ × List α)} (hidx : ∀ s ∈ shards, s.1 < n)
    (hfirst : ∀ s ∈ (fitting fits shards).head?, s.2.length = L) :
    (Codec.isComplete (absorbUntil start shards) = true ↔
        k ≤ (indicesOf L (fitting fits shards)).card) ∧
      (Codec.isComplete (absorbUntil start shards) = true →
        k ≤ (absorbedUntil start [] shards).length ∧
          (∀ s ∈ absorbedUntil start [] shards, s.2.length = L) ∧
          ∃ segs, Codec.recover (absorbUntil start shards) = .ok segs ∧ segs.length = k ∧
            AllLength L segs) := by
  have hpos : 1 ≤ k := (law.new.mp ⟨start, hstart⟩).1
  have hfew : Codec.isComplete start = false := by
    rw [Bool.eq_false_iff, ne_eq, law.complete hstart .nil]
    exact Nat.not_le.mpr hpos
  obtain ⟨habsorbs, hall, hiff⟩ := Absorbing.until law hstart hidx
    (⟨.nil, hfew, fun _ hs => absurd hs List.not_mem_nil, fun _ => hfirst⟩ :
      Absorbing fits L start start [] shards)
  rw [indicesWith, List.map_nil, List.toFinset_nil, Finset.empty_union] at hiff
  refine ⟨hiff, fun hcomplete => ?_⟩
  have hmany := (law.complete hstart habsorbs).mp hcomplete
  obtain ⟨segs, hrecover, hlen, hsegs⟩ := law.recovers hstart habsorbs hcomplete
  have hmem := List.getElem_mem (lt_of_lt_of_le hpos hmany)
  exact ⟨hmany, hall, segs, hrecover, hlen, hall _ hmem ▸ hsegs _ hmem⟩

end Until

end Absorbed

/-! ## Arbitrary shards

The laws say nothing of shards that no encoder made.  Counting does. -/

section Counting

variable {α : Type} {k n L : ℕ}

/-- The blocks of a vector of vectors. -/
def blocksOf {m : ℕ} (v : Fin m → List.Vector α L) : List (List α) :=
  List.ofFn fun j => (v j).1

theorem blocksOf_length {m : ℕ} (v : Fin m → List.Vector α L) : (blocksOf v).length = m := by
  simp [blocksOf]

theorem blocksOf_allLength {m : ℕ} (v : Fin m → List.Vector α L) : AllLength L (blocksOf v) := by
  intro b hb
  obtain ⟨j, rfl⟩ := (List.mem_ofFn).mp hb
  exact (v j).2

theorem blocksOf_injective {m : ℕ} :
    Function.Injective (blocksOf : (Fin m → List.Vector α L) → List (List α)) := by
  intro v w h
  funext j
  exact Subtype.ext (congrFun (List.ofFn_injective h) j)

/-- Any `k` blocks of one nonzero length at distinct indices are shards of one
codeword. -/
theorem Lawful.exists_codeword [Codec α] [Finite α] (law : Lawful α k n) (hkn : k ≤ n) (hL : 0 < L)
    {shards : List (ℕ × List α)} (hnodup : (shards.map Prod.fst).Nodup)
    (hcard : shards.length = k) (hidx : ∀ s ∈ shards, s.1 < n)
    (hbody : ∀ s ∈ shards, s.2.length = L) :
    ∃ segs cw, segs.length = k ∧ AllLength L segs ∧ codeword k n segs = .ok cw ∧
      ∀ s ∈ shards, cw.getD s.1 [] = s.2 := by
  classical
  have henc : ∀ v : Fin k → List.Vector α L, ∃ cw, codeword k n (blocksOf v) = .ok cw ∧
      AllLength L cw := fun v => law.encodes hL (blocksOf_length v) (blocksOf_allLength v)
  choose cwOf hcwOf hcwLen using henc
  have hmem : ∀ (v : Fin k → List.Vector α L) (j : Fin k),
      ((cwOf v).getD (shards.get (j.cast hcard.symm)).1 []).length = L := by
    intro v j
    have hlt : (shards.get (j.cast hcard.symm)).1 < (cwOf v).length := by
      rw [codeword_length hkn (blocksOf_length v) (hcwOf v)]
      exact hidx _ (List.get_mem _ _)
    rw [List.getD_eq_getElem _ _ hlt]
    exact hcwLen v _ (List.getElem_mem _)
  -- The shards at the `k` indices, as a map between finite types of one size.
  let shardsAt : (Fin k → List.Vector α L) → (Fin k → List.Vector α L) := fun v j =>
    ⟨(cwOf v).getD (shards.get (j.cast hcard.symm)).1 [], hmem v j⟩
  have hread : ∀ v, ((shards.map Prod.fst).map fun i => (i, (cwOf v).getD i [])) =
      List.ofFn fun j : Fin k => ((shards.get (j.cast hcard.symm)).1, (shardsAt v j).1) := by
    intro v
    apply List.ext_getElem
    · simp [hcard]
    · intro j h1 h2
      simp [shardsAt]
  have hidx' : ∀ i ∈ shards.map Prod.fst, i < n := by
    intro i hi
    obtain ⟨s, hs, rfl⟩ := List.mem_map.mp hi
    exact hidx s hs
  have hinj : Function.Injective shardsAt := by
    intro v w hvw
    obtain ⟨dec, -, hdec⟩ := law.decodes
    have hfull : k ≤ (shards.map Prod.fst).toFinset.card := by
      rw [List.toFinset_card_of_nodup hnodup, List.length_map, hcard]
    have hv := (hdec hL (blocksOf_length v) (blocksOf_allLength v) (hcwOf v) _ hidx').2.1 hfull
    have hw := (hdec hL (blocksOf_length w) (blocksOf_allLength w) (hcwOf w) _ hidx').2.1 hfull
    rw [hread v, hvw, ← hread w, hw] at hv
    exact blocksOf_injective (Except.ok.inj hv).symm
  obtain ⟨v, hv⟩ := (Finite.injective_iff_surjective.mp hinj)
    (fun j => ⟨(shards.get (j.cast hcard.symm)).2, hbody _ (List.get_mem _ _)⟩)
  refine ⟨blocksOf v, cwOf v, blocksOf_length v, blocksOf_allLength v, hcwOf v, ?_⟩
  intro s hs
  obtain ⟨j, rfl⟩ := List.mem_iff_get.mp hs
  have hj := congrArg Subtype.val (congrFun hv (j.cast hcard))
  simpa [shardsAt] using hj

/-- While no prefix completes the decoder, `absorbUntil` goes on. -/
theorem absorbUntil_append [Codec α] (ys : List (ℕ × List α)) :
    ∀ (xs : List (ℕ × List α)) (dec : Codec.Decoder α),
      (∀ m < xs.length, Codec.isComplete (absorbAll dec (xs.take (m + 1))) = false) →
        absorbUntil dec (xs ++ ys) = absorbUntil (absorbAll dec xs) ys
  | [], _, _ => rfl
  | (index, body) :: xs, dec, h => by
      have hfirst : Codec.isComplete (Codec.absorb dec index body).2 = false := h 0 (by simp)
      have ih := absorbUntil_append ys xs (Codec.absorb dec index body).2
        fun m hm => h (m + 1) (by simpa using hm)
      have hstep : absorbUntil dec ((index, body) :: (xs ++ ys)) =
          absorbUntil (Codec.absorb dec index body).2 (xs ++ ys) := by
        cases hab : Codec.absorb dec index body with
        | mk answer dec' =>
            rw [hab] at hfirst
            cases answer with
            | error e => simp only [absorbUntil, hab]
            | ok u => simp [absorbUntil, hab, hfirst]
      rw [List.cons_append, hstep, ih]
      rfl

/-- The law for shards of one codeword at distinct indices, counted by their list. -/
theorem Lawful.decodes_shards [Codec α] (law : Lawful α k n) :
    ∃ dec, Codec.newDecoder (α := α) k n = .ok dec ∧
      ∀ {segs cw : List (List α)}, 0 < L → segs.length = k → AllLength L segs →
        codeword k n segs = .ok cw → ∀ xs : List (ℕ × List α), (xs.map Prod.fst).Nodup →
          (∀ s ∈ xs, s.1 < n ∧ cw.getD s.1 [] = s.2) →
            (Codec.isComplete (absorbAll dec xs) = true ↔ k ≤ xs.length) ∧
              (k ≤ xs.length → Codec.recover (absorbAll dec xs) = .ok segs) ∧
              (xs.length < k → ∀ i < n, i ∉ xs.map Prod.fst →
                (Codec.absorb (absorbAll dec xs) i (cw.getD i [])).1 = .ok ()) := by
  obtain ⟨dec, hnew, hdec⟩ := law.decodes
  refine ⟨dec, hnew, ?_⟩
  intro segs cw hL hseglen hall hcw xs hnodup hxs
  have hmap : (xs.map Prod.fst).map (fun i => (i, cw.getD i [])) = xs := by
    rw [List.map_map]
    conv_rhs => rw [← List.map_id xs]
    exact List.map_congr_left fun s hs => Prod.ext rfl (hxs s hs).2
  have hcard : (xs.map Prod.fst).toFinset.card = xs.length := by
    rw [List.toFinset_card_of_nodup hnodup, List.length_map]
  have hlt : ∀ i ∈ xs.map Prod.fst, i < n := by
    intro i hi
    obtain ⟨s, hs, rfl⟩ := List.mem_map.mp hi
    exact (hxs s hs).1
  have hlaw := hdec hL hseglen hall hcw _ hlt
  rw [hmap, hcard] at hlaw
  exact hlaw

/-- Decoding `k` or more shards of one nonzero length at distinct indices.  The
first `k` are shards of one codeword, and its segments are recovered whatever
the others are. -/
theorem Lawful.decode_first [Codec α] [Finite α] (law : Lawful α k n) (hk : 0 < k) (hkn : k ≤ n)
    (hL : 0 < L) {shards : List (ℕ × List α)} (hnodup : (shards.map Prod.fst).Nodup)
    (hlen : k ≤ shards.length) (hidx : ∀ s ∈ shards, s.1 < n)
    (hbody : ∀ s ∈ shards, s.2.length = L) :
    ∃ dec segs cw, Codec.newDecoder (α := α) k n = .ok dec ∧ segs.length = k ∧
      AllLength L segs ∧ codeword k n segs = .ok cw ∧
      (∀ s ∈ shards.take k, cw.getD s.1 [] = s.2) ∧
      Codec.recover (absorbUntil dec shards) = .ok segs := by
  obtain ⟨pre, last, rest, rfl, hpre⟩ : ∃ pre last rest,
      shards = pre ++ last :: rest ∧ pre.length + 1 = k := by
    refine ⟨shards.take (k - 1), shards[k - 1], shards.drop (k - 1 + 1), ?_, ?_⟩
    · rw [← List.drop_eq_getElem_cons (by omega), List.take_append_drop]
    · rw [List.length_take]; omega
  have htake : (pre ++ last :: rest).take k = pre ++ [last] := by
    rw [← hpre, List.take_append]
    simp
  rw [htake]
  have hfirst : ∀ s ∈ pre ++ [last], s ∈ pre ++ last :: rest := fun s hs => by
    simp only [List.mem_append, List.mem_cons, List.not_mem_nil, or_false] at hs ⊢
    exact hs.imp id Or.inl
  have hnodup' : ((pre ++ [last]).map Prod.fst).Nodup := by
    refine hnodup.sublist (List.Sublist.map _ ?_)
    exact List.Sublist.append (List.Sublist.refl _) (by simp)
  obtain ⟨segs, cw, hseglen, hall, hcw, hshard⟩ := law.exists_codeword hkn hL hnodup'
    (by simp [hpre]) (fun s hs => hidx s (hfirst s hs)) (fun s hs => hbody s (hfirst s hs))
  obtain ⟨dec, hnew, hdec⟩ := law.decodes_shards (L := L)
  refine ⟨dec, segs, cw, hnew, hseglen, hall, hcw, hshard, ?_⟩
  have hlaw := fun (xs : List (ℕ × List α)) (hxs : xs.Sublist (pre ++ [last])) =>
    hdec hL hseglen hall hcw xs (hnodup'.sublist (hxs.map _)) fun s hs =>
      ⟨hidx s (hfirst s (hxs.subset hs)), hshard s (hxs.subset hs)⟩
  have hstart : absorbUntil dec (pre ++ last :: rest) =
      absorbUntil (absorbAll dec pre) (last :: rest) := by
    apply absorbUntil_append
    intro m hm
    have hsub : (pre.take (m + 1)).Sublist (pre ++ [last]) :=
      (List.take_sublist _ _).trans (List.sublist_append_left _ _)
    rw [← Bool.not_eq_true, (hlaw _ hsub).1, List.length_take]
    omega
  have hlast : last.1 ∉ pre.map Prod.fst := by
    rw [List.map_append, List.nodup_append] at hnodup'
    exact fun h => hnodup'.2.2 _ h _ (by simp) rfl
  have hmem : last ∈ pre ++ [last] := by simp
  have hok := (hlaw pre (List.sublist_append_left _ _)).2.2 (by omega) last.1
    (hidx last (hfirst last hmem)) hlast
  rw [hshard last hmem] at hok
  obtain ⟨hiff, hrec, -⟩ := hlaw (pre ++ [last]) (List.Sublist.refl _)
  have hend : absorbAll dec (pre ++ [last]) =
      (Codec.absorb (absorbAll dec pre) last.1 last.2).2 := by
    rw [absorbAll_append]
    rfl
  have hfull : k ≤ (pre ++ [last]).length := by simp [hpre]
  rw [hend] at hiff hrec
  have hdone := hiff.mpr hfull
  rw [hstart]
  cases hab : Codec.absorb (absorbAll dec pre) last.1 last.2 with
  | mk answer dec' =>
      rw [hab] at hok hdone hrec
      simp only at hok hdone hrec
      subst hok
      simp only [absorbUntil, hab, hdone]
      exact hrec hfull

end Counting

end Coding
