import NdnRepo.Lib.Codec

/-!
# The codec of one segment

With one segment every parity can be a copy of it, and any shard is the segment.
This codec is lawful at one of `n`.
-/

namespace Coding

variable {α : Type}

/-- The codec.  An encoder keeps the segments fed, a decoder the first shard. -/
@[reducible] def copyCodec (α : Type) : Codec α where
  Encoder := List (List α)
  Decoder := Option (List α)
  newEncoder k n := if k = 1 then .ok [] else .error (.invalidParameters k n)
  feed enc seg := .ok (enc ++ [seg])
  parity enc _ :=
    match enc with
    | [seg] => .ok seg
    | _ => .error (.other "not enough segments")
  newDecoder k n := if k = 1 then .ok none else .error (.invalidParameters k n)
  absorb
    | none, _, body => (.ok (), some body)
    | some first, _, _ => (.error (.other "complete already"), some first)
  isComplete := Option.isSome
  recover
    | some seg => .ok [seg]
    | none => .error (.other "not enough shards")
  errorText
    | .invalidParameters k n => s!"invalid parameters {k}/{n}"
    | .other text => text

/-- Every shard is the segment. -/
theorem codeword_copy (n : ℕ) (seg : List α) :
    @codeword α (copyCodec α) 1 n [seg] = .ok (seg :: List.replicate (n - 1) seg) := by
  have hcopies : ∀ idxs : List ℕ,
      idxs.mapM (@Codec.parity α (copyCodec α) [seg]) = .ok (List.replicate idxs.length seg) := by
    intro idxs
    induction idxs with
    | nil => rfl
    | cons i idxs ih =>
        rw [List.mapM_cons, ih]
        rfl
  have hparities := hcopies (List.range' 1 (n - 1))
  rw [List.length_range'] at hparities
  simp only [codeword, Codec.newEncoder, if_true, bind, Except.bind, List.foldlM_cons,
    List.foldlM_nil, Codec.feed, pure, Except.pure, List.nil_append, hparities, List.cons_append]

/-- A decoder holds the segment as soon as it has absorbed a shard. -/
theorem absorbAll_copy (seg : List α) {bodies : ℕ → List α} :
    ∀ {idxs : List ℕ}, (∀ i ∈ idxs, bodies i = seg) →
      @absorbAll α (copyCodec α) none (idxs.map fun i => (i, bodies i)) =
        if idxs = [] then none else some seg := by
  intro idxs
  induction idxs using List.reverseRecOn with
  | nil => exact fun _ => rfl
  | append_singleton idxs i ih =>
      intro hall
      have hlast : bodies i = seg := hall i (by simp)
      rw [List.map_append, @absorbAll_append α (copyCodec α),
        ih fun j hj => hall j (List.mem_append_left _ hj), List.map_singleton, hlast]
      cases idxs with
      | nil => rfl
      | cons j idxs => rfl

/-- The copying codec is lawful at one of `n`. -/
theorem lawful_copyCodec {n : ℕ} (hn : 1 ≤ n) : @Lawful α (copyCodec α) 1 n := by
  refine @Lawful.mk α (copyCodec α) 1 n ?_ ⟨none, rfl, ?_⟩
  · intro L segs _ hlen hall
    obtain ⟨seg, rfl⟩ := List.length_eq_one_iff.mp hlen
    refine ⟨_, codeword_copy n seg, fun c hc => ?_⟩
    rcases List.mem_cons.mp hc with rfl | hc
    · exact hall _ (by simp)
    · exact List.eq_of_mem_replicate hc ▸ hall seg (by simp)
  · intro L segs cw _ hlen _ hcw idxs hidx
    obtain ⟨seg, rfl⟩ := List.length_eq_one_iff.mp hlen
    rw [codeword_copy, Except.ok.injEq] at hcw
    have hbody : ∀ i ∈ idxs, cw.getD i [] = seg := by
      intro i hi
      have hlt : i < (List.replicate n seg).length := by simpa using hidx i hi
      rw [← hcw, ← List.replicate_succ, Nat.sub_add_cancel hn, List.getD_eq_getElem _ _ hlt,
        List.getElem_replicate]
    have hd := absorbAll_copy seg hbody
    cases idxs with
    | nil =>
        rw [hd]
        exact ⟨by simp [Codec.isComplete], fun h => absurd h (by simp), fun _ _ _ _ => rfl⟩
    | cons i idxs =>
        have hcard : 1 ≤ (i :: idxs).toFinset.card :=
          Finset.card_pos.mpr ⟨i, by simp⟩
        rw [hd]
        exact ⟨by simp only [hcard, iff_true]; rfl, fun _ => rfl,
          fun hfew => absurd hcard (not_le.mpr hfew)⟩

end Coding
