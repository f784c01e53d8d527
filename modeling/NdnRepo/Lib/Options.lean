import Mathlib.Data.List.Basic

/-!
# Command lines

A command line is read from left to right.  An argument is a flag, or an option that the
next argument is the value of, whatever that looks like, or it asks for help.  `parse` goes
on with what was read so far and stops at the first argument it cannot go on from.

`Items` is the grammar of what it reads, and `Trouble` of where it stops.  A command line is
read exactly if it is a sequence of items (`parse_eq_ok`), and otherwise there is trouble
after some items (`items_or_trouble`).  Of a value given twice the last one counts
(`foldl_last`), and values that are collected add up (`foldl_all`).
-/

namespace Options

/-- What a known argument is. -/
inductive Meaning (α ε : Type) where
  /-- A flag. -/
  | flag (item : α)
  /-- An option with a value. -/
  | value (read : String → Except ε α)
  /-- A request for help. -/
  | help

/-- Why reading stops early. -/
inductive Stop (ε : Type) where
  /-- Help is asked for. -/
  | help
  /-- An argument is not known. -/
  | unknown (arg : String)
  /-- An option at the end has no value. -/
  | missing (arg : String)
  /-- A value is refused. -/
  | refused (why : ε)

variable {α ε σ : Type}

/-- Read a command line. -/
def parse (known : String → Option (Meaning α ε)) (apply : σ → α → σ) :
    List String → σ → Except (Stop ε) σ
  | [], s => .ok s
  | arg :: args, s =>
      match known arg, args with
      | none, _ => .error (.unknown arg)
      | some .help, _ => .error .help
      | some (.flag item), args => parse known apply args (apply s item)
      | some (.value _), [] => .error (.missing arg)
      | some (.value read), value :: args =>
          match read value with
          | .error why => .error (.refused why)
          | .ok item => parse known apply args (apply s item)

/-- A command line is a sequence of items. -/
inductive Items (known : String → Option (Meaning α ε)) : List String → List α → Prop where
  | nil : Items known [] []
  | flag {arg : String} {item : α} {args : List String} {items : List α}
      (harg : known arg = some (.flag item)) (hargs : Items known args items) :
      Items known (arg :: args) (item :: items)
  | value {arg value : String} {read : String → Except ε α} {item : α} {args : List String}
      {items : List α} (harg : known arg = some (.value read)) (hvalue : read value = .ok item)
      (hargs : Items known args items) : Items known (arg :: value :: args) (item :: items)

/-- A command line starts with an argument that reading stops at. -/
inductive Trouble (known : String → Option (Meaning α ε)) : List String → Stop ε → Prop where
  | help {arg : String} {args : List String} (harg : known arg = some .help) :
      Trouble known (arg :: args) .help
  | unknown {arg : String} {args : List String} (harg : known arg = none) :
      Trouble known (arg :: args) (.unknown arg)
  | missing {arg : String} {read : String → Except ε α} (harg : known arg = some (.value read)) :
      Trouble known [arg] (.missing arg)
  | refused {arg value : String} {read : String → Except ε α} {args : List String} {why : ε}
      (harg : known arg = some (.value read)) (hvalue : read value = .error why) :
      Trouble known (arg :: value :: args) (.refused why)

variable {known : String → Option (Meaning α ε)} {apply : σ → α → σ}

/-- A command line is a sequence of items in one way. -/
theorem Items.unique {args : List String} {items items' : List α} (h : Items known args items)
    (h' : Items known args items') : items' = items := by
  induction h generalizing items' with
  | nil => cases h'; rfl
  | flag harg hargs ih =>
      cases h' with
      | flag harg' hargs' =>
          cases harg.symm.trans harg'
          rw [ih hargs']
      | value harg' _ _ => cases harg.symm.trans harg'
  | value harg hvalue hargs ih =>
      cases h' with
      | flag harg' _ => cases harg.symm.trans harg'
      | value harg' hvalue' hargs' =>
          cases harg.symm.trans harg'
          cases hvalue.symm.trans hvalue'
          rw [ih hargs']

/-- Items are read one after another. -/
theorem parse_items {args : List String} {items : List α} (h : Items known args items)
    (rest : List String) (s : σ) :
    parse known apply (args ++ rest) s = parse known apply rest (items.foldl apply s) := by
  induction h generalizing s with
  | nil => rfl
  | flag harg hargs ih => simp [parse, harg, ih]
  | value harg hvalue hargs ih => simp [parse, harg, hvalue, ih]

/-- At trouble it stops. -/
theorem parse_trouble {args : List String} {stop : Stop ε} (h : Trouble known args stop) (s : σ) :
    parse known apply args s = .error stop := by
  cases h with
  | help harg => simp [parse, harg]
  | unknown harg => simp [parse, harg]
  | missing harg => simp [parse, harg]
  | refused harg hvalue => simp [parse, harg, hvalue]

/-- A command line is a sequence of items, or one with trouble after it. -/
theorem items_or_trouble (known : String → Option (Meaning α ε)) : ∀ args : List String,
    (∃ items, Items known args items) ∨
      ∃ before after items stop, args = before ++ after ∧ Items known before items ∧
        Trouble known after stop
  | [] => Or.inl ⟨[], .nil⟩
  | arg :: args => by
      have hhere : ∀ {stop}, Trouble known (arg :: args) stop → ∃ before after items stop,
          arg :: args = before ++ after ∧ Items known before items ∧ Trouble known after stop :=
        fun h => ⟨[], _, [], _, rfl, .nil, h⟩
      cases harg : known arg with
      | none => exact Or.inr (hhere (.unknown harg))
      | some meaning =>
          cases meaning with
          | help => exact Or.inr (hhere (.help harg))
          | flag item =>
              rcases items_or_trouble known args with ⟨items, hitems⟩ |
                ⟨before, after, items, stop, rfl, hitems, htrouble⟩
              · exact Or.inl ⟨item :: items, .flag harg hitems⟩
              · exact Or.inr ⟨arg :: before, after, item :: items, stop, rfl, .flag harg hitems,
                  htrouble⟩
          | value read =>
              cases args with
              | nil => exact Or.inr (hhere (.missing harg))
              | cons value args =>
                  cases hvalue : read value with
                  | error why => exact Or.inr (hhere (.refused harg hvalue))
                  | ok item =>
                      rcases items_or_trouble known args with ⟨items, hitems⟩ |
                        ⟨before, after, items, stop, rfl, hitems, htrouble⟩
                      · exact Or.inl ⟨item :: items, .value harg hvalue hitems⟩
                      · exact Or.inr ⟨arg :: value :: before, after, item :: items, stop, rfl,
                          .value harg hvalue hitems, htrouble⟩

/-- What is read: the items of the command line. -/
theorem parse_eq_ok {args : List String} {s t : σ} :
    parse known apply args s = .ok t ↔
      ∃ items, Items known args items ∧ items.foldl apply s = t := by
  have hread : ∀ {items}, Items known args items →
      parse known apply args s = .ok (items.foldl apply s) := by
    intro items hitems
    have h : parse known apply (args ++ []) s = parse known apply [] (items.foldl apply s) :=
      parse_items hitems [] s
    rw [List.append_nil] at h
    rw [h, parse]
  constructor
  · intro h
    rcases items_or_trouble known args with ⟨items, hitems⟩ |
      ⟨before, after, items, stop, rfl, hitems, htrouble⟩
    · exact ⟨items, hitems, Except.ok.inj ((hread hitems).symm.trans h)⟩
    · rw [parse_items hitems, parse_trouble htrouble] at h
      cases h
  · rintro ⟨items, hitems, rfl⟩
    exact hread hitems

/-! ## Values -/

section Values

variable {β : Type} {items : List α} {pick : α → Option β} (apply : σ → α → σ)

/-- Of a value given twice the last one counts, and otherwise what was there. -/
theorem foldl_last (get : σ → β) (h : ∀ s item, get (apply s item) = (pick item).getD (get s))
    (s : σ) : get (items.foldl apply s) = (items.filterMap pick).getLast?.getD (get s) := by
  induction items generalizing s with
  | nil => rfl
  | cons item items ih =>
      have hitem := h s item
      rw [List.foldl_cons, ih]
      cases hpick : pick item with
      | none =>
          rw [hpick, Option.getD_none] at hitem
          rw [List.filterMap_cons_none hpick, hitem]
      | some value =>
          rw [hpick, Option.getD_some] at hitem
          rw [List.filterMap_cons_some hpick, List.getLast?_cons, hitem, Option.getD_some]

/-- The same of a value that may be missing. -/
theorem foldl_lastGiven (get : σ → Option β)
    (h : ∀ s item, get (apply s item) = (pick item).or (get s)) (s : σ) :
    get (items.foldl apply s) = (items.filterMap pick).getLast?.or (get s) := by
  induction items generalizing s with
  | nil => rfl
  | cons item items ih =>
      have hitem := h s item
      rw [List.foldl_cons, ih]
      cases hpick : pick item with
      | none =>
          rw [hpick, Option.none_or] at hitem
          rw [List.filterMap_cons_none hpick, hitem]
      | some value =>
          rw [hpick, Option.some_or] at hitem
          rw [List.filterMap_cons_some hpick, List.getLast?_cons, hitem]
          cases (items.filterMap pick).getLast? with
          | none => rfl
          | some last => rfl

/-- Values that are collected add up. -/
theorem foldl_all (get : σ → List β)
    (h : ∀ s item, get (apply s item) = get s ++ (pick item).toList) (s : σ) :
    get (items.foldl apply s) = get s ++ items.filterMap pick := by
  induction items generalizing s with
  | nil => exact (List.append_nil _).symm
  | cons item items ih =>
      rw [List.foldl_cons, ih, h, List.append_assoc]
      cases hpick : pick item with
      | none => rw [List.filterMap_cons_none hpick]; rfl
      | some value => rw [List.filterMap_cons_some hpick]; rfl

end Values

end Options
