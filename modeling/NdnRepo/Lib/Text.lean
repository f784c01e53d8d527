import Mathlib.Data.List.DropRight

/-!
# Texts

Texts are trimmed, split at the first separator and read as decimal numbers.  A number is
read from any numeral, with leading zeros or a sign (`parseUnsigned_eq_some`), and trimming
undoes padding (`trim_pad`, `exists_pad`).
-/

namespace Text

/-- Unicode's `White_Space`. -/
def isWhitespace (c : Char) : Bool :=
  let v := c.toNat
  (9 ≤ v && v ≤ 13) || v == 0x20 || v == 0x85 || v == 0xA0 || v == 0x1680 ||
    (0x2000 ≤ v && v ≤ 0x200A) || v == 0x2028 || v == 0x2029 || v == 0x202F || v == 0x205F ||
    v == 0x3000

/-- A text without leading and trailing white space. -/
def trim (s : List Char) : List Char := (s.dropWhile isWhitespace).rdropWhile isWhitespace

/-- What is before and after the first separator. -/
def splitOnce (sep : Char) : List Char → Option (List Char × List Char)
  | [] => none
  | c :: s => if c = sep then some ([], s) else (splitOnce sep s).map fun p => (c :: p.1, p.2)

/-- The number below a bound that a text is a numeral of. -/
def parseUnsigned (bound : ℕ) (s : List Char) : Option ℕ :=
  let digits := if s.head? = some '+' then s.tail else s
  if digits = [] ∨ digits.any (!·.isDigit) then none
  else if Nat.ofDigitChars 10 digits 0 < bound then some (Nat.ofDigitChars 10 digits 0)
  else none

/-- The decimal numeral of a number. -/
def decimal (n : ℕ) : List Char := Nat.toDigits 10 n

/-! ## White space -/

/-- Only white space. -/
def Blank (s : List Char) : Prop := ∀ c ∈ s, isWhitespace c = true

/-- No white space at either end. -/
structure Trimmed (s : List Char) : Prop where
  /-- The first character is no white space. -/
  head : ∀ c ∈ s.head?, isWhitespace c = false
  /-- Nor is the last. -/
  last : ∀ c ∈ s.getLast?, isWhitespace c = false

theorem Blank.append {s t : List Char} (hs : Blank s) (ht : Blank t) : Blank (s ++ t) := by
  intro c hc
  rcases List.mem_append.mp hc with hc | hc
  · exact hs c hc
  · exact ht c hc

theorem dropWhile_blank {s t : List Char} (hs : Blank s)
    (ht : ∀ c ∈ t.head?, isWhitespace c = false) : (s ++ t).dropWhile isWhitespace = t := by
  rw [List.dropWhile_append_of_pos hs]
  cases t with
  | nil => rfl
  | cons c t =>
      have hc := ht c rfl
      rw [List.dropWhile_cons, hc, if_neg Bool.false_ne_true]

/-- Trimming undoes padding. -/
theorem trim_pad {before s after : List Char} (hbefore : Blank before) (hs : Trimmed s)
    (hafter : Blank after) : trim (before ++ (s ++ after)) = s := by
  cases s with
  | nil =>
      have hblank := dropWhile_blank (hbefore.append hafter) (fun c hc => nomatch hc : ∀ c ∈
        ([] : List Char).head?, isWhitespace c = false)
      rw [List.append_nil] at hblank
      rw [trim, List.nil_append, hblank]
      rfl
  | cons c s =>
      have hfirst : ((c :: s) ++ after).head? = some c := rfl
      have hlast : ∀ d ∈ (c :: s).reverse.head?, isWhitespace d = false := by
        rw [List.head?_reverse]
        exact hs.last
      have hreverse : Blank after.reverse := fun d hd => hafter d (List.mem_reverse.mp hd)
      rw [trim, dropWhile_blank hbefore (hfirst ▸ hs.head), List.rdropWhile, List.reverse_append,
        dropWhile_blank hreverse hlast, List.reverse_reverse]

/-- A text is what is left of it, padded. -/
theorem exists_pad (s : List Char) :
    ∃ before after, Blank before ∧ Blank after ∧ s = before ++ (trim s ++ after) := by
  have hsplit := List.takeWhile_append_dropWhile (p := isWhitespace) (l := s)
  have hback := List.rdropWhile_append_rtakeWhile (p := isWhitespace)
    (l := s.dropWhile isWhitespace)
  refine ⟨s.takeWhile isWhitespace, (s.dropWhile isWhitespace).rtakeWhile isWhitespace,
    fun c hc => List.mem_takeWhile_imp hc, fun c hc => List.mem_rtakeWhile_imp hc, ?_⟩
  rw [trim, hback, hsplit]

/-! ## Splitting -/

theorem splitOnce_eq_some {sep : Char} : ∀ {s before after : List Char},
    splitOnce sep s = some (before, after) ↔ sep ∉ before ∧ s = before ++ sep :: after
  | [], before, after => by simp [splitOnce]
  | c :: s, before, after => by
      have ih := @splitOnce_eq_some sep s
      rw [splitOnce]
      split
      next hc =>
        subst hc
        cases before with
        | nil => simp
        | cons b before => simp +contextual
      next hc =>
        cases before with
        | nil => simp [hc]
        | cons b before =>
            simp only [Option.map_eq_some_iff, Prod.exists, Prod.mk.injEq, List.cons.injEq,
              List.mem_cons, not_or, List.cons_append]
            constructor
            · rintro ⟨first, rest, hsplit, ⟨rfl, rfl⟩, rfl⟩
              obtain ⟨hnot, rfl⟩ := ih.mp hsplit
              exact ⟨⟨Ne.symm hc, hnot⟩, rfl, rfl⟩
            · rintro ⟨⟨-, hnot⟩, rfl, rfl⟩
              exact ⟨before, after, ih.mpr ⟨hnot, rfl⟩, ⟨rfl, rfl⟩, rfl⟩

/-! ## Numerals -/

/-- The digits of a number, perhaps after a sign. -/
def Numeral (s : List Char) (n : ℕ) : Prop :=
  ∃ digits, digits ≠ [] ∧ (∀ c ∈ digits, c.isDigit = true) ∧ (s = digits ∨ s = '+' :: digits) ∧
    Nat.ofDigitChars 10 digits 0 = n

theorem numeral_decimal (n : ℕ) : Numeral (decimal n) n :=
  ⟨decimal n, Nat.toDigits_ne_nil,
    fun _ hc => Nat.isDigit_of_mem_toDigits (by decide) (by decide) hc, Or.inl rfl,
    Nat.ofDigitChars_ten_toDigits⟩

/-- A number is read from its numerals, and from no other text. -/
theorem parseUnsigned_eq_some {bound : ℕ} {s : List Char} {n : ℕ} :
    parseUnsigned bound s = some n ↔ Numeral s n ∧ n < bound := by
  have hread : ∀ digits : List Char,
      (if digits = [] ∨ digits.any (!·.isDigit) then none
        else if Nat.ofDigitChars 10 digits 0 < bound then some (Nat.ofDigitChars 10 digits 0)
        else none) = some n ↔
      (digits ≠ [] ∧ (∀ c ∈ digits, c.isDigit = true) ∧ Nat.ofDigitChars 10 digits 0 = n) ∧
        n < bound := by
    intro digits
    split
    next h =>
      refine ⟨fun h' => (nomatch h'), fun ⟨⟨hne, hall, _⟩, _⟩ => ?_⟩
      rcases h with h | h
      · exact absurd h hne
      · obtain ⟨c, hc, hbad⟩ := List.any_eq_true.mp h
        rw [hall c hc] at hbad
        cases hbad
    next h =>
      rw [not_or, Bool.not_eq_true, List.any_eq_false] at h
      have hall : ∀ c ∈ digits, c.isDigit = true := fun c hc => by simpa using h.2 c hc
      split
      next hlt =>
        constructor
        · intro hn
          obtain rfl := Option.some.inj hn
          exact ⟨⟨h.1, hall, rfl⟩, hlt⟩
        · rintro ⟨⟨-, -, rfl⟩, -⟩
          rfl
      next hge =>
        refine ⟨fun h' => (nomatch h'), fun ⟨⟨_, _, hn⟩, hlt⟩ => absurd (hn ▸ hlt) hge⟩
  have hplus : '+'.isDigit = false := by decide
  rw [parseUnsigned, hread]
  refine and_congr_left fun _ => ?_
  cases s with
  | nil =>
      refine ⟨fun h => absurd rfl h.1, ?_⟩
      rintro ⟨digits, hne, -, hs | hs, -⟩
      · exact absurd hs.symm hne
      · cases hs
  | cons c s =>
      simp only [List.head?_cons, Option.some.injEq, List.tail_cons]
      split
      next hc =>
        subst hc
        constructor
        · rintro ⟨hne, hall, hn⟩
          exact ⟨s, hne, hall, Or.inr rfl, hn⟩
        · rintro ⟨digits, hne, hall, rfl | hs, hn⟩
          · have hdigit := hall '+' (List.mem_cons_self ..)
            rw [hplus] at hdigit
            cases hdigit
          · obtain ⟨-, rfl⟩ := List.cons.inj hs
            exact ⟨hne, hall, hn⟩
      next hc =>
        constructor
        · rintro ⟨hne, hall, hn⟩
          exact ⟨c :: s, hne, hall, Or.inl rfl, hn⟩
        · rintro ⟨digits, hne, hall, rfl | hs, hn⟩
          · exact ⟨hne, hall, hn⟩
          · exact absurd (List.cons.inj hs).1 hc

/-- The characters of numerals. -/
theorem Numeral.mem {s : List Char} {n : ℕ} (h : Numeral s n) {c : Char} (hc : c ∈ s) :
    c.isDigit = true ∨ c = '+' := by
  obtain ⟨digits, -, hall, rfl | rfl, -⟩ := h
  · exact Or.inl (hall c hc)
  · rcases List.mem_cons.mp hc with rfl | hc
    · exact Or.inr rfl
    · exact Or.inl (hall c hc)

theorem isWhitespace_of_numeral {c : Char} (h : c.isDigit = true ∨ c = '+') :
    isWhitespace c = false := by
  rcases h with h | rfl
  · have hdigit : 48 ≤ c.toNat ∧ c.toNat ≤ 57 := by
      rw [Char.isDigit, Bool.and_eq_true, decide_eq_true_eq, decide_eq_true_eq] at h
      exact ⟨UInt32.le_iff_toNat_le.mp h.1, UInt32.le_iff_toNat_le.mp h.2⟩
    simp only [isWhitespace, Bool.or_eq_false_iff, Bool.and_eq_false_iff, beq_eq_false_iff_ne,
      decide_eq_false_iff_not]
    omega
  · decide

theorem Numeral.ne_nil {s : List Char} {n : ℕ} (h : Numeral s n) : s ≠ [] := by
  obtain ⟨digits, hne, -, rfl | rfl, -⟩ := h
  · exact hne
  · exact List.cons_ne_nil _ _

/-- Texts between two numerals are not trimmed. -/
theorem trimmed_between {first last : List Char} {m n : ℕ} (hfirst : Numeral first m)
    (middle : List Char) (hlast : Numeral last n) : Trimmed (first ++ (middle ++ last)) := by
  refine ⟨fun c hc => isWhitespace_of_numeral (hfirst.mem ?_),
    fun c hc => isWhitespace_of_numeral (hlast.mem ?_)⟩
  · rw [List.head?_append_of_ne_nil _ hfirst.ne_nil] at hc
    exact List.mem_of_mem_head? hc
  · rw [List.getLast?_append_of_ne_nil _ (List.append_ne_nil_of_right_ne_nil _ hlast.ne_nil),
      List.getLast?_append_of_ne_nil _ hlast.ne_nil] at hc
    exact List.mem_of_mem_getLast? hc

theorem Numeral.trimmed {s : List Char} {n : ℕ} (h : Numeral s n) : Trimmed s :=
  ⟨fun _ hc => isWhitespace_of_numeral (h.mem (List.mem_of_mem_head? hc)),
    fun _ hc => isWhitespace_of_numeral (h.mem (List.mem_of_mem_getLast? hc))⟩

end Text
