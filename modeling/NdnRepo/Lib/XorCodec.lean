import NdnRepo.Lib.Codec

/-!
# The codec of two segments and their exclusive or

The smallest systematic codec with a parity: two segments, and as third shard
their bytewise exclusive or.  It is lawful at two of two and at two of three,
which shows the laws satisfiable and lets concrete runs be computed.
-/

namespace Coding

/-- The bytewise exclusive or of two blocks. -/
def xorBlocks (a b : List UInt8) : List UInt8 := List.zipWith (· ^^^ ·) a b

theorem xorBlocks_length {L : ℕ} {a b : List UInt8} (ha : a.length = L) (hb : b.length = L) :
    (xorBlocks a b).length = L := by
  simp [xorBlocks, ha, hb]

/-- Adding the first block again leaves the second. -/
theorem xorBlocks_cancel_left :
    ∀ {a b : List UInt8}, a.length = b.length → xorBlocks a (xorBlocks a b) = b
  | [], [], _ => rfl
  | x :: a, y :: b, h => by
      have ih := xorBlocks_cancel_left (a := a) (b := b) (by simpa using h)
      simp only [xorBlocks, List.zipWith_cons_cons] at ih ⊢
      rw [ih, ← UInt8.xor_assoc, UInt8.xor_self, UInt8.zero_xor]

theorem xorBlocks_comm (a b : List UInt8) : xorBlocks a b = xorBlocks b a :=
  List.zipWith_comm_of_comm UInt8.xor_comm

theorem xorBlocks_cancel_right {a b : List UInt8} (h : a.length = b.length) :
    xorBlocks b (xorBlocks a b) = a := by
  rw [xorBlocks_comm a b, xorBlocks_cancel_left h.symm]

/-- An encoder: the number of shards and the segments fed so far. -/
structure XorEncoder where
  /-- The number of shards. -/
  n : ℕ
  /-- The segments, in order. -/
  fed : List (List UInt8)

/-- A decoder: the number of shards and those absorbed so far. -/
structure XorDecoder where
  /-- The number of shards. -/
  n : ℕ
  /-- The shards, each index once. -/
  shards : List (ℕ × List UInt8)

/-- Absorb a shard of a new index below `n`, as long as the shards before it. -/
def XorDecoder.absorb (d : XorDecoder) (index : ℕ) (body : List UInt8) :
    Except CodingError Unit × XorDecoder :=
  if index < d.n ∧ index ∉ d.shards.map Prod.fst ∧
      ∀ s ∈ d.shards, s.2.length = body.length then
    (.ok (), { d with shards := d.shards ++ [(index, body)] })
  else (.error (.other "another length, or index absorbed before or out of range"), d)

/-- The two segments, from any two of the three shards. -/
def XorDecoder.recover (d : XorDecoder) : Except CodingError (List (List UInt8)) :=
  match d.shards.lookup 0, d.shards.lookup 1, d.shards.lookup 2 with
  | some a, some b, _ => .ok [a, b]
  | some a, none, some p => .ok [a, xorBlocks a p]
  | none, some b, some p => .ok [xorBlocks b p, b]
  | _, _, _ => .error (.other "not enough shards")

/-- Whether the parameters are two of two or two of three. -/
def xorParameters (k n : ℕ) : Bool := k = 2 ∧ (n = 2 ∨ n = 3)

/-- The codec. -/
@[reducible] def xorCodec : Codec UInt8 where
  Encoder := XorEncoder
  Decoder := XorDecoder
  newEncoder k n := if xorParameters k n then .ok ⟨n, []⟩ else .error (.invalidParameters k n)
  feed enc seg := .ok { enc with fed := enc.fed ++ [seg] }
  parity enc _ :=
    match enc.fed with
    | [a, b] => .ok (xorBlocks a b)
    | _ => .error (.other "not enough segments")
  newDecoder k n := if xorParameters k n then .ok ⟨n, []⟩ else .error (.invalidParameters k n)
  absorb := XorDecoder.absorb
  isComplete d := 2 ≤ d.shards.length
  recover := XorDecoder.recover
  errorText
    | .invalidParameters k n => s!"invalid parameters {k}/{n}"
    | .other text => text

/-- What the codec makes of two segments. -/
theorem codeword_xor {n : ℕ} (hn : n = 2 ∨ n = 3) (a b : List UInt8) :
    @codeword UInt8 xorCodec 2 n [a, b] =
      .ok (if n = 2 then [a, b] else [a, b, xorBlocks a b]) := by
  cases hn with
  | inl h => subst h; rfl
  | inr h => subst h; rfl

/-- A decoder that holds exactly the shards `idxs` of the codeword `cw`. -/
structure XorDecoder.Holds (d : XorDecoder) (n : ℕ) (cw : List (List UInt8)) (idxs : List ℕ) :
    Prop where
  /-- The number of shards is kept. -/
  n_eq : d.n = n
  /-- Each index is held once. -/
  nodup : (d.shards.map Prod.fst).Nodup
  /-- The indices held. -/
  mem : ∀ i, i ∈ d.shards.map Prod.fst ↔ i ∈ idxs
  /-- The bodies held. -/
  body : ∀ s ∈ d.shards, s.2 = cw.getD s.1 []

/-- Shards of a codeword of one length are absorbed. -/
theorem XorDecoder.Holds.absorbAll {n L : ℕ} {cw : List (List UInt8)}
    (hall : ∀ i < n, (cw.getD i []).length = L) :
    ∀ {idxs : List ℕ}, (∀ i ∈ idxs, i < n) → XorDecoder.Holds
      (@Coding.absorbAll UInt8 xorCodec ⟨n, []⟩ (idxs.map fun i => (i, cw.getD i []))) n cw idxs := by
  intro idxs
  induction idxs using List.reverseRecOn with
  | nil => intro _; exact ⟨rfl, by simp [Coding.absorbAll], by simp [Coding.absorbAll],
      by simp [Coding.absorbAll]⟩
  | append_singleton idxs i ih =>
      intro hlt
      obtain ⟨hn, hnodup, hmem, hbody⟩ := ih fun j hj => hlt j (by simp [hj])
      rw [List.map_append, @absorbAll_append UInt8 xorCodec]
      generalize @Coding.absorbAll UInt8 xorCodec ⟨n, []⟩ _ = d at hn hnodup hmem hbody ⊢
      by_cases hi : i ∈ d.shards.map Prod.fst
      · have hskip : @Coding.absorbAll UInt8 xorCodec d [(i, cw.getD i [])] = d := by
          simp only [Coding.absorbAll, List.foldl_cons, List.foldl_nil, Codec.absorb,
            XorDecoder.absorb]
          rw [if_neg (by simp [hi])]
        rw [List.map_cons, List.map_nil, hskip]
        refine ⟨hn, hnodup, fun j => ?_, hbody⟩
        rw [hmem, List.mem_append, List.mem_singleton]
        exact ⟨Or.inl, fun h => h.elim id fun e => e ▸ (hmem i).mp hi⟩
      · have hsame : ∀ s ∈ d.shards, s.2.length = (cw.getD i []).length := by
          intro s hs
          have hidx : s.1 ∈ idxs := (hmem s.1).mp (List.mem_map_of_mem hs)
          rw [hbody s hs, hall s.1 (hlt _ (List.mem_append_left _ hidx)), hall i (hlt i (by simp))]
        have hadd : @Coding.absorbAll UInt8 xorCodec d [(i, cw.getD i [])] =
            ⟨d.n, d.shards ++ [(i, cw.getD i [])]⟩ := by
          simp only [Coding.absorbAll, List.foldl_cons, List.foldl_nil, Codec.absorb,
            XorDecoder.absorb]
          rw [if_pos ⟨hn ▸ hlt i (by simp), hi, hsame⟩]
        rw [List.map_cons, List.map_nil, hadd]
        refine ⟨hn, ?_, fun j => ?_, fun s hs => ?_⟩
        · rw [List.map_append, List.nodup_append]
          refine ⟨hnodup, by simp, fun x hx y hy => ?_⟩
          simp only [List.map_cons, List.map_nil, List.mem_singleton] at hy
          exact fun e => hi (hy ▸ e ▸ hx)
        · rw [List.map_append, List.mem_append, hmem, List.mem_append]
          simp
        · cases List.mem_append.mp hs with
          | inl h => exact hbody s h
          | inr h => rw [List.mem_singleton.mp h]

/-- Looking up an index of a decoder that holds shards of a codeword. -/
theorem XorDecoder.Holds.lookup {d : XorDecoder} {n : ℕ} {cw : List (List UInt8)} {idxs : List ℕ}
    (h : d.Holds n cw idxs) (i : ℕ) :
    d.shards.lookup i = if i ∈ idxs then some (cw.getD i []) else none := by
  have hlookup : ∀ {l : List (ℕ × List UInt8)}, (∀ s ∈ l, s.2 = cw.getD s.1 []) →
      l.lookup i = if i ∈ l.map Prod.fst then some (cw.getD i []) else none := by
    intro l
    induction l with
    | nil => intro _; rfl
    | cons s l ih =>
        intro hl
        obtain ⟨j, c⟩ := s
        have ih' := ih fun t ht => hl t (by simp [ht])
        have hc : c = cw.getD j [] := hl (j, c) (by simp)
        by_cases hij : i = j
        · subst hij
          simp [hc]
        · have hbeq : (i == j) = false := beq_eq_false_iff_ne.mpr hij
          have hmem : i ∈ ((j, c) :: l).map Prod.fst ↔ i ∈ l.map Prod.fst := by
            rw [List.map_cons, List.mem_cons, or_iff_right hij]
          rw [List.lookup_cons, hbeq, ih']
          exact if_congr hmem.symm rfl rfl
  rw [hlookup h.body]
  simp only [h.mem]

/-- Two distinct indices leave at most one of three out. -/
theorem eq_of_not_mem_two {idxs : List ℕ} (hidx : ∀ i ∈ idxs, i < 3) (htwo : 2 ≤ idxs.toFinset.card)
    {i j : ℕ} (hi : i ∉ idxs) (hj : j ∉ idxs) (hi3 : i < 3) (hj3 : j < 3) : i = j := by
  by_contra hne
  have hsub : idxs.toFinset ⊆ ((Finset.range 3).erase i).erase j := fun m hm => by
    rw [List.mem_toFinset] at hm
    simp only [Finset.mem_erase, Finset.mem_range]
    exact ⟨fun e => hj (e ▸ hm), fun e => hi (e ▸ hm), hidx m hm⟩
  have hle := Finset.card_le_card hsub
  rw [Finset.card_erase_of_mem (by simp [hj3, Ne.symm hne]),
    Finset.card_erase_of_mem (by simp [hi3]), Finset.card_range] at hle
  omega

/-- The exclusive-or codec is lawful at two of two and two of three. -/
theorem lawful_xorCodec {n : ℕ} (hn : n = 2 ∨ n = 3) : @Lawful UInt8 xorCodec 2 n := by
  have hpar : xorParameters 2 n = true := by simp [xorParameters, hn]
  have hpair : ∀ {L : ℕ} {segs : List (List UInt8)}, segs.length = 2 → AllLength L segs →
      ∃ a b, segs = [a, b] ∧ a.length = L ∧ b.length = L := by
    intro L segs hlen hall
    obtain ⟨a, b, rfl⟩ := List.length_eq_two.mp hlen
    exact ⟨a, b, rfl, hall a (by simp), hall b (by simp)⟩
  have hencodes : ∀ {L : ℕ} {segs : List (List UInt8)}, segs.length = 2 → AllLength L segs →
      ∃ cw, @codeword UInt8 xorCodec 2 n segs = .ok cw ∧ AllLength L cw := by
    intro L segs hlen hall
    obtain ⟨a, b, rfl, ha, hb⟩ := hpair hlen hall
    refine ⟨_, codeword_xor hn a b, ?_⟩
    intro c hc
    split at hc
    · exact hall c hc
    · simp only [List.mem_cons, List.not_mem_nil, or_false] at hc
      rcases hc with rfl | rfl | rfl
      · exact ha
      · exact hb
      · exact xorBlocks_length ha hb
  refine @Lawful.mk UInt8 xorCodec 2 n (fun _ => hencodes) ?_
  · refine ⟨⟨n, []⟩, by simp [Codec.newDecoder, hpar], ?_⟩
    intro L segs cw _ hlen hall hcw idxs hidx
    have hsame : ∀ i < n, (cw.getD i []).length = L := by
      intro i hi
      obtain ⟨cw', hcw', hcwall⟩ := hencodes hlen hall
      obtain rfl := Except.ok.inj (hcw'.symm.trans hcw)
      have hlt : i < cw'.length := by
        rwa [@codeword_length UInt8 xorCodec 2 n segs cw' (by omega) hlen hcw]
      rw [List.getD_eq_getElem _ _ hlt]
      exact hcwall _ (List.getElem_mem _)
    obtain ⟨a, b, rfl, ha, hb⟩ := hpair hlen hall
    have hd := XorDecoder.Holds.absorbAll hsame hidx
    generalize @Coding.absorbAll UInt8 xorCodec ⟨n, []⟩ _ = d at hd ⊢
    have hfin : (d.shards.map Prod.fst).toFinset = idxs.toFinset := by
      ext i
      rw [List.mem_toFinset, List.mem_toFinset, hd.mem]
    have hcard : d.shards.length = idxs.toFinset.card := by
      rw [← hfin, List.toFinset_card_of_nodup hd.nodup, List.length_map]
    refine ⟨by simp [Codec.isComplete, hcard], fun htwo => ?_, fun _ i hi hnew => ?_⟩
    case refine_2 =>
      have hfresh : i ∉ d.shards.map Prod.fst := fun h => hnew ((hd.mem i).mp h)
      have hheld : ∀ s ∈ d.shards, s.2.length = (cw.getD i []).length := fun s hs => by
        rw [hd.body s hs, hsame s.1 (hidx _ ((hd.mem s.1).mp (List.mem_map_of_mem hs))),
          hsame i hi]
      simp only [Codec.absorb, XorDecoder.absorb]
      rw [if_pos ⟨hd.n_eq ▸ hi, hfresh, hheld⟩]
    rw [codeword_xor hn, Except.ok.injEq] at hcw
    have hab := ha.trans hb.symm
    have hidx3 : ∀ i ∈ idxs, i < 3 := fun i hi => by have := hidx i hi; omega
    have hout : ∀ {i j : ℕ}, i ∉ idxs → j ∉ idxs → i < 3 → j < 3 → i = j :=
      fun hi hj => eq_of_not_mem_two hidx3 htwo hi hj
    simp only [Codec.recover, XorDecoder.recover, hd.lookup]
    by_cases h0 : 0 ∈ idxs <;> by_cases h1 : 1 ∈ idxs
    · subst hcw
      rcases hn with rfl | rfl <;> simp [h0, h1]
    · have h2 : 2 ∈ idxs := by
        by_contra h2
        exact absurd (hout h1 h2 (by omega) (by omega)) (by omega)
      obtain rfl : n = 3 := by have := hidx 2 h2; omega
      subst hcw
      simp [h0, h1, h2, xorBlocks_cancel_left hab]
    · have h2 : 2 ∈ idxs := by
        by_contra h2
        exact absurd (hout h0 h2 (by omega) (by omega)) (by omega)
      obtain rfl : n = 3 := by have := hidx 2 h2; omega
      subst hcw
      simp [h0, h1, h2, xorBlocks_cancel_right hab]
    · exact absurd (hout h0 h1 (by omega) (by omega)) (by omega)

/-- A decoder holds what it has absorbed: shards in range and of one length. -/
theorem absorbs_xor {n : ℕ} {xs : List (ℕ × List UInt8)} {d : @Codec.Decoder UInt8 xorCodec}
    (h : @Absorbs UInt8 xorCodec ⟨n, []⟩ xs d) :
    d = (⟨n, xs⟩ : XorDecoder) ∧ (∀ s ∈ xs, s.1 < n) ∧
      ∀ s ∈ xs, ∀ t ∈ xs, s.2.length = t.2.length := by
  induction h with
  | nil => exact ⟨rfl, by simp, by simp⟩
  | @accept xs d index body _ _ hok _ ih =>
      obtain ⟨rfl, hidx, hsame⟩ := ih
      simp only [Codec.absorb, XorDecoder.absorb] at hok ⊢
      split at hok
      next htake =>
        rw [if_pos htake]
        obtain ⟨hlt, -, hlen⟩ := htake
        simp only [List.mem_append, List.mem_singleton]
        refine ⟨trivial, ?_, ?_⟩
        · rintro s (hs | rfl)
          · exact hidx s hs
          · exact hlt
        · rintro s (hs | rfl) t (ht | rfl)
          · exact hsame s hs t ht
          · exact hlen s hs
          · exact (hlen t ht).symm
          · rfl
      next => cases hok
  | @skip xs d index body _ _ hskip ih =>
      obtain ⟨rfl, hidx, hsame⟩ := ih
      refine ⟨?_, hidx, hsame⟩
      simp only [Codec.absorb, XorDecoder.absorb] at hskip ⊢
      split at hskip
      next htake => exact absurd htake.2.1 (not_not.mpr (hskip.resolve_left fun hne => hne rfl))
      next hrefuse => rw [if_neg hrefuse]

/-- Two or more shards of one length give two segments of that length. -/
theorem recover_xor {n L : ℕ} {xs : List (ℕ × List UInt8)} (hnodup : (xs.map Prod.fst).Nodup)
    (hidx : ∀ s ∈ xs, s.1 < 3) (hall : ∀ s ∈ xs, s.2.length = L) (htwo : 2 ≤ xs.length) :
    ∃ segs, XorDecoder.recover ⟨n, xs⟩ = .ok segs ∧ segs.length = 2 ∧ AllLength L segs := by
  have hlen : ∀ {i : ℕ} {body : List UInt8}, xs.lookup i = some body → body.length = L := by
    intro i body h
    obtain ⟨l₁, l₂, rfl, -⟩ := List.lookup_eq_some_iff.mp h
    exact hall (i, body) (by simp)
  have hnone : ∀ {i : ℕ}, xs.lookup i = none → i ∉ xs.map Prod.fst := by
    intro i h hi
    obtain ⟨s, hs, rfl⟩ := List.mem_map.mp hi
    exact absurd (List.lookup_eq_none_iff.mp h s hs) (by simp)
  have hout : ∀ {i j : ℕ}, xs.lookup i = none → xs.lookup j = none → i < 3 → j < 3 → i = j := by
    intro i j hi hj
    refine eq_of_not_mem_two (fun m hm => ?_) ?_ (hnone hi) (hnone hj)
    · obtain ⟨s, hs, rfl⟩ := List.mem_map.mp hm
      exact hidx s hs
    · rwa [List.toFinset_card_of_nodup hnodup, List.length_map]
  have hpair : ∀ {a b : List UInt8}, a.length = L → b.length = L →
      ∃ segs, (.ok [a, b] : Except CodingError (List (List UInt8))) = .ok segs ∧
        segs.length = 2 ∧ AllLength L segs := by
    intro a b ha hb
    refine ⟨_, rfl, rfl, fun c hc => ?_⟩
    rcases List.mem_pair.mp hc with rfl | rfl
    · exact ha
    · exact hb
  rw [XorDecoder.recover]
  cases h0 : xs.lookup 0 with
  | some a =>
      cases h1 : xs.lookup 1 with
      | some b => exact hpair (hlen h0) (hlen h1)
      | none =>
          cases h2 : xs.lookup 2 with
          | some p => exact hpair (hlen h0) (xorBlocks_length (hlen h0) (hlen h2))
          | none => exact absurd (hout h1 h2 (by decide) (by decide)) (by decide)
  | none =>
      cases h1 : xs.lookup 1 with
      | some b =>
          cases h2 : xs.lookup 2 with
          | some p => exact hpair (xorBlocks_length (hlen h1) (hlen h2)) (hlen h1)
          | none => exact absurd (hout h0 h2 (by decide) (by decide)) (by decide)
      | none => exact absurd (hout h0 h1 (by decide) (by decide)) (by decide)

/-- The exclusive-or codec takes shards of any length. -/
theorem uniform_xorCodec {n : ℕ} (hn : n = 2 ∨ n = 3) :
    @Uniform UInt8 xorCodec (fun _ => True) 2 n := by
  have hpar : xorParameters 2 n = true := by simp [xorParameters, hn]
  have hstart : ∀ {start : XorDecoder}, @Codec.newDecoder UInt8 xorCodec 2 n = .ok start →
      start = ⟨n, []⟩ := by
    intro start h
    simp only [Codec.newDecoder, hpar, if_true, Except.ok.injEq] at h
    exact h.symm
  refine @Uniform.mk UInt8 xorCodec (fun _ => True) 2 n ?_ ?_ ?_ ?_
  · exact iff_of_true ⟨⟨n, []⟩, by simp [Codec.newDecoder, hpar]⟩ (by omega)
  · intro start dec xs hnew h _ index body hlt hfresh
    obtain rfl := hstart hnew
    obtain ⟨rfl, -, -⟩ := absorbs_xor h
    simp only [Codec.absorb, XorDecoder.absorb, hlt, hfresh, not_false_eq_true, true_and]
    split
    next hsame => exact iff_of_true rfl hsame
    next hother => exact iff_of_false (by simp) hother
  · intro start dec xs hnew h
    obtain rfl := hstart hnew
    obtain ⟨rfl, -, -⟩ := absorbs_xor h
    exact decide_eq_true_iff
  · intro start dec xs hnew h hcomplete
    obtain rfl := hstart hnew
    obtain ⟨rfl, hidx, hsame⟩ := absorbs_xor h
    have htwo : 2 ≤ xs.length := decide_eq_true_iff.mp hcomplete
    have hfirst := List.getElem_mem (lt_of_lt_of_le Nat.two_pos htwo)
    obtain ⟨segs, hrecover, hlen, hall⟩ := recover_xor (n := n)
      (@Absorbs.nodup UInt8 xorCodec _ _ _ h) (fun s hs => by have := hidx s hs; omega)
      (fun s hs => hsame s hs _ hfirst) htwo
    exact ⟨segs, hrecover, hlen, fun s hs c hc => (hall c hc).trans (hsame s hs _ hfirst).symm⟩

end Coding
