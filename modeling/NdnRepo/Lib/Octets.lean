import Mathlib

/-!
# Octets

Big-endian integers of a fixed width, ceiling division, and the cutting of a
block into chunks of one length.
-/

namespace Octets

/-! ## Big-endian integers -/

/-- The low `width` octets of `v`, most significant first. -/
def toBe : ℕ → ℕ → List UInt8
  | 0, _ => []
  | width + 1, v => UInt8.ofNat (v / 256 ^ width) :: toBe width v

/-- The integer octets denote, most significant first. -/
def ofBe (octets : List UInt8) : ℕ := octets.foldl (fun v o => v * 256 + o.toNat) 0

@[simp] theorem toBe_length : ∀ width v : ℕ, (toBe width v).length = width
  | 0, _ => rfl
  | width + 1, v => by simp [toBe, toBe_length width v]

/-- Reading with an accumulator shifts the accumulator past the octets. -/
theorem foldl_ofBe (octets : List UInt8) :
    ∀ acc : ℕ, octets.foldl (fun v o => v * 256 + o.toNat) acc =
      acc * 256 ^ octets.length + ofBe octets := by
  unfold ofBe
  induction octets with
  | nil => intro acc; simp
  | cons o octets ih =>
      intro acc
      rw [List.foldl_cons, ih, List.foldl_cons, ih (0 * 256 + o.toNat), List.length_cons, pow_succ]
      ring

theorem ofBe_cons (o : UInt8) (octets : List UInt8) :
    ofBe (o :: octets) = o.toNat * 256 ^ octets.length + ofBe octets := by
  rw [ofBe, List.foldl_cons, foldl_ofBe, Nat.zero_mul, Nat.zero_add]

/-- Reading back what was written gives the integer modulo the width. -/
theorem ofBe_toBe : ∀ width v : ℕ, ofBe (toBe width v) = v % 256 ^ width
  | 0, v => by simp [toBe, ofBe, Nat.mod_one]
  | width + 1, v => by
      have ih := ofBe_toBe width v
      have hsplit : v % 256 ^ (width + 1) = 256 ^ width * (v / 256 ^ width % 256) + v % 256 ^ width := by
        rw [pow_succ, Nat.mod_mul, Nat.add_comm]
      rw [toBe, ofBe_cons, ih, toBe_length, UInt8.toNat_ofNat', hsplit, Nat.mul_comm]

theorem ofBe_toBe_of_lt {width v : ℕ} (h : v < 256 ^ width) : ofBe (toBe width v) = v := by
  rw [ofBe_toBe, Nat.mod_eq_of_lt h]

theorem ofBe_lt : ∀ octets : List UInt8, ofBe octets < 256 ^ octets.length
  | [] => by simp [ofBe]
  | o :: octets => by
      have ih := ofBe_lt octets
      have ho : o.toNat < 256 := o.toNat_lt
      rw [ofBe_cons, List.length_cons, pow_succ]
      calc o.toNat * 256 ^ octets.length + ofBe octets
          < o.toNat * 256 ^ octets.length + 256 ^ octets.length := by omega
        _ = (o.toNat + 1) * 256 ^ octets.length := by ring
        _ ≤ 256 * 256 ^ octets.length := Nat.mul_le_mul_right _ (by omega)
        _ = 256 ^ octets.length * 256 := Nat.mul_comm _ _

/-- What is above the width is not written. -/
theorem toBe_mul_add : ∀ width a v : ℕ, toBe width (a * 256 ^ width + v) = toBe width v
  | 0, _, _ => rfl
  | width + 1, a, v => by
      have ih := toBe_mul_add width (a * 256) v
      have hsplit : a * 256 ^ (width + 1) + v = a * 256 * 256 ^ width + v := by ring
      have hpos : 0 < 256 ^ width := Nat.pow_pos (by omega)
      have hhead : (a * 256 * 256 ^ width + v) / 256 ^ width = v / 256 ^ width + 256 * a := by
        rw [Nat.mul_comm, Nat.mul_add_div hpos, Nat.add_comm, Nat.mul_comm 256]
      rw [toBe, toBe, hsplit, ih, hhead]
      congr 1
      apply UInt8.toNat_inj.mp
      simp

/-- Writing what was read gives the octets back. -/
theorem toBe_ofBe : ∀ octets : List UInt8, toBe octets.length (ofBe octets) = octets
  | [] => rfl
  | o :: octets => by
      have ih := toBe_ofBe octets
      have hdiv :
          (o.toNat * 256 ^ octets.length + ofBe octets) / 256 ^ octets.length = o.toNat := by
        rw [Nat.mul_comm, Nat.mul_add_div (Nat.pow_pos (by omega)),
          Nat.div_eq_of_lt (ofBe_lt octets), Nat.add_zero]
      rw [ofBe_cons, List.length_cons, toBe, toBe_mul_add, ih, hdiv]
      simp

/-! ## Fields -/

/-- What follows some fields. -/
theorem drop_fields {α : Type} {b rest : List α} {start : ℕ} (fields : List (List α))
    (hb : b = fields.foldr (· ++ ·) rest) (hstart : (fields.map List.length).sum = start) :
    b.drop start = rest := by
  induction fields generalizing b start with
  | nil =>
      subst hb hstart
      rfl
  | cons field fields ih =>
      subst hb hstart
      rw [List.map_cons, List.sum_cons, ← List.drop_drop, List.foldr_cons, List.drop_left]
      exact ih rfl rfl

/-- A field is read back where it was written. -/
theorem extract_field {α : Type} {b field rest : List α} {start stop : ℕ}
    (fields : List (List α)) (hb : b = fields.foldr (· ++ ·) (field ++ rest))
    (hstart : (fields.map List.length).sum = start) (hstop : start + field.length = stop) :
    b.extract start stop = field := by
  have hlen : stop - start = field.length := by omega
  rw [List.extract_eq_take_drop, drop_fields fields hb hstart, hlen, List.take_left]

/-! ## Ceiling division -/

/-- The quotient of `a` by `b`, rounded up. -/
def divCeil (a b : ℕ) : ℕ := (a + b - 1) / b

theorem le_mul_divCeil {a b : ℕ} (hb : 0 < b) : a ≤ b * divCeil a b := by
  have hdiv := Nat.div_add_mod (a + b - 1) b
  have hmod := Nat.mod_lt (a + b - 1) hb
  unfold divCeil
  omega

/-- The least bound of the quotient. -/
theorem divCeil_le_iff {a b c : ℕ} (hb : 0 < b) : divCeil a b ≤ c ↔ a ≤ b * c := by
  rw [divCeil, Nat.div_le_iff_le_mul_add_pred hb]
  omega

/-- Rounding up adds less than `b`. -/
theorem mul_divCeil_lt {a b : ℕ} (hb : 0 < b) : b * divCeil a b < a + b := by
  have hle : b * divCeil a b ≤ a + b - 1 := Nat.mul_div_le _ _
  omega

/-! ## Chunks -/

/-- Chunk `i` of a block, at chunk length `L`. -/
def chunk {α : Type} (L i : ℕ) (b : List α) : List α := (b.drop (i * L)).take L

theorem chunk_length {α : Type} {L i : ℕ} {b : List α} (h : (i + 1) * L ≤ b.length) :
    (chunk L i b).length = L := by
  rw [Nat.succ_mul] at h
  simp [chunk]
  omega

/-- The first `k` chunks, put together, are the first `k * L` elements. -/
theorem flatten_chunks {α : Type} (L : ℕ) (b : List α) :
    ∀ k : ℕ, ((List.range k).map fun i => chunk L i b).flatten = b.take (k * L)
  | 0 => by simp
  | k + 1 => by
      rw [List.range_succ, List.map_append, List.flatten_append, flatten_chunks L b k,
        Nat.succ_mul, List.take_add]
      simp [chunk]

/-- The first chunks of length `L` of a block, `count` of them if it has as many. -/
def chunksOf {α : Type} (L : ℕ) : ℕ → List α → List (List.Vector α L)
  | 0, _ => []
  | count + 1, b =>
      if h : L ≤ b.length then
        ⟨b.take L, List.length_take_of_le h⟩ :: chunksOf L count (b.drop L)
      else []

/-- `as_chunks`: the whole chunks of length `L` of a block. -/
def asChunks {α : Type} (L : ℕ) (b : List α) : List (List.Vector α L) := chunksOf L (b.length / L) b

theorem length_chunksOf {α : Type} {L : ℕ} :
    ∀ {count : ℕ} {b : List α}, count * L ≤ b.length → (chunksOf L count b).length = count
  | 0, _, _ => rfl
  | count + 1, b, h => by
      rw [Nat.succ_mul] at h
      have ih : (chunksOf L count (b.drop L)).length = count :=
        length_chunksOf (by rw [List.length_drop]; omega)
      rw [chunksOf, dif_pos (by omega)]
      exact congrArg Nat.succ ih

theorem length_asChunks {α : Type} (L : ℕ) (b : List α) :
    (asChunks L b).length = b.length / L :=
  length_chunksOf (Nat.div_mul_le_self _ _)

/-- Vectors put together. -/
theorem length_flatten_toList {α : Type} {L : ℕ} (vs : List (List.Vector α L)) :
    (vs.map List.Vector.toList).flatten.length = vs.length * L := by
  induction vs with
  | nil => simp
  | cons v vs ih =>
      rw [List.map_cons, List.flatten_cons, List.length_append, ih, v.toList_length,
        List.length_cons, Nat.succ_mul, Nat.add_comm]

theorem chunksOf_flatten {α : Type} {L : ℕ} :
    ∀ vs : List (List.Vector α L), chunksOf L vs.length (vs.map List.Vector.toList).flatten = vs
  | [] => rfl
  | v :: vs => by
      have hlen : v.toList.length = L := v.toList_length
      have ih := chunksOf_flatten vs
      rw [List.map_cons, List.flatten_cons, List.length_cons, chunksOf,
        dif_pos (by rw [List.length_append]; omega), List.drop_left' hlen, ih]
      congr 1
      exact Subtype.ext (List.take_left' hlen)

/-- Cutting vectors apart inverts putting them together. -/
theorem asChunks_flatten {α : Type} {L : ℕ} (hL : 0 < L) (vs : List (List.Vector α L)) :
    asChunks L (vs.map List.Vector.toList).flatten = vs := by
  rw [asChunks, length_flatten_toList, Nat.mul_div_cancel _ hL, chunksOf_flatten]

/-- A block brought to a length: cut, or filled up with an element. -/
def resize {α : Type} (b : List α) (len : ℕ) (fill : α) : List α :=
  b.take len ++ List.replicate (len - b.length) fill

theorem resize_length {α : Type} (b : List α) (len : ℕ) (fill : α) :
    (resize b len fill).length = len := by
  simp only [resize, List.length_append, List.length_take, List.length_replicate]
  omega

/-- A block filled up starts with the block. -/
theorem take_resize {α : Type} {b : List α} {len : ℕ} (fill : α) (h : b.length ≤ len) :
    (resize b len fill).take b.length = b := by
  rw [resize, List.take_of_length_le h, List.take_left]

/-- Blocks of one length put together agree up to `len` exactly when each block
agrees as far as `len` reaches into it. -/
theorem take_flatten_eq_iff {α : Type} {L : ℕ} :
    ∀ {as bs : List (List α)} (len : ℕ), (∀ a ∈ as, a.length = L) → (∀ b ∈ bs, b.length = L) →
      as.length = bs.length →
        (as.flatten.take len = bs.flatten.take len ↔ ∀ i < as.length,
          (as.getD i []).take (len - i * L) = (bs.getD i []).take (len - i * L))
  | [], [], len, _, _, _ => by simp
  | a :: as, b :: bs, len, ha, hb, hlen => by
      have ih := @take_flatten_eq_iff α L as bs (len - L)
        (fun x hx => ha x (List.mem_cons_of_mem _ hx))
        (fun x hx => hb x (List.mem_cons_of_mem _ hx)) (Nat.succ_inj.mp hlen)
      have haL : a.length = L := ha a (List.mem_cons_self ..)
      have hbL : b.length = L := hb b (List.mem_cons_self ..)
      have hshift : ∀ i, len - L - i * L = len - (i + 1) * L := fun i => by
        rw [Nat.succ_mul]
        omega
      have hhead : (a.take len).length = (b.take len).length := by simp [haL, hbL]
      have hsplit : (a :: as).flatten.take len = (b :: bs).flatten.take len ↔
          a.take len = b.take len ∧ as.flatten.take (len - L) = bs.flatten.take (len - L) := by
        rw [List.flatten_cons, List.flatten_cons, List.take_append, List.take_append, haL, hbL]
        exact ⟨fun h => List.append_inj h hhead, fun ⟨h, h'⟩ => by rw [h, h']⟩
      rw [hsplit, ih]
      constructor
      · rintro ⟨h0, htail⟩ i hi
        cases i with
        | zero => simpa using h0
        | succ i => simpa [hshift] using htail i (by simpa using hi)
      · intro h
        refine ⟨by simpa using h 0 (by simp), fun i hi => ?_⟩
        simpa [hshift] using h (i + 1) (by simpa using hi)

end Octets
