import Shading.Proofs.Reading

/-!
# Reading brackets with a counter

A reading keeps the levels around the innermost one, but which characters act as brackets
is decided by much less: the position relative to quotes and the number of open groups.
`Place` is just that, and it can be followed along a text without building any pieces.

* `step?_cases`: what one character does to a reading.
* `place_of_step?`: where it then stands.
* `isSome_read?`: whether a text can be read depends on the place alone.
-/

namespace Shading

/-- A character that has its ordinary meaning is no quotation mark. -/
theorem Quote.next_of_exposes {quote : Quote} {c : Char} (h : quote.exposes c = true) :
    quote.next c = quote := by
  simp only [exposes, Bool.and_eq_true, Bool.not_eq_true'] at h
  exact next_of_not_isMark h.2 quote

namespace Brackets

/-! ## Places -/

/-- Where a reading stands: the position relative to quotes, and how many groups are open. -/
structure Place where
  quote : Quote := .outside
  opened : Nat := 0
  deriving DecidableEq, Repr

/-- Whether a character opens a group here. -/
def opens (brackets : Brackets) (place : Place) (c : Char) : Bool :=
  place.quote.exposes c && c == brackets.opening

/-- Whether a character closes a group here; a bracket that also opens does not. -/
def closes (brackets : Brackets) (place : Place) (c : Char) : Bool :=
  place.quote.exposes c && c != brackets.opening && c == brackets.closing &&
    decide (0 < place.opened)

/-- The place after one more character. -/
def advance (brackets : Brackets) (place : Place) (c : Char) : Place where
  quote := place.quote.next c
  opened :=
    if brackets.opens place c then place.opened + 1
    else if brackets.closes place c then place.opened - 1
    else place.opened

/-- The place after a text. -/
def follow (brackets : Brackets) (place : Place) (text : Text) : Place :=
  text.foldl brackets.advance place

@[simp] theorem follow_nil (brackets : Brackets) (place : Place) :
    brackets.follow place [] = place := rfl

@[simp] theorem follow_cons (brackets : Brackets) (place : Place) (c : Char) (rest : Text) :
    brackets.follow place (c :: rest) = brackets.follow (brackets.advance place c) rest := rfl

@[simp] theorem follow_append (brackets : Brackets) (place : Place) (first second : Text) :
    brackets.follow place (first ++ second) =
      brackets.follow (brackets.follow place first) second :=
  List.foldl_append

/-- The place of a reading. -/
def Reading.place (reading : Reading) : Place :=
  ⟨reading.quote, reading.enclosing.length⟩

@[simp] theorem Reading.quote_place (reading : Reading) : reading.place.quote = reading.quote := rfl

@[simp] theorem Reading.opened_place (reading : Reading) :
    reading.place.opened = reading.enclosing.length := rfl

/-! ## Steps of a reading -/

variable {brackets : Brackets} {limit : Nat} {reading next : Reading}

/-- Only a character that opens a group beyond the limit is not read. -/
theorem step?_eq_none_iff {c : Char} :
    brackets.step? limit reading c = none ↔
      brackets.opens reading.place c = true ∧ limit ≤ reading.place.opened := by
  unfold step? opens
  rw [Reading.quote_place, Reading.opened_place]
  split
  next hexposes =>
    split
    next hopening =>
      split
      next hroom => simp [Nat.not_le.mpr hroom]
      next hfull =>
        have hopens : (reading.quote.exposes c && c == brackets.opening) = true := by
          rw [hexposes, hopening]
          simp
        exact ⟨fun _ => ⟨hopens, Nat.not_lt.mp hfull⟩, fun _ => rfl⟩
    next hopening => split <;> simp [hopening]
  next hexposes => simp [hexposes]

/-- What a character does to a reading: it opens a group, closes one, or is text. -/
theorem step?_cases {c : Char} (h : brackets.step? limit reading c = some next) :
    (brackets.opens reading.place c = true ∧ next = reading.openGroup) ∨
    (brackets.opens reading.place c = false ∧ brackets.closes reading.place c = true ∧
      ∃ outer rest, reading.enclosing = outer :: rest ∧
        next = { reading with level := outer.pushGroup reading.level.pieces, enclosing := rest }) ∨
    (brackets.opens reading.place c = false ∧ brackets.closes reading.place c = false ∧
      next = reading.push c) := by
  unfold step? at h
  split at h
  next hexposes =>
    split at h
    next hopening =>
      split at h
      next =>
        obtain rfl : reading.openGroup = next := by simpa using h
        exact Or.inl ⟨by rw [opens, reading.quote_place, hexposes]; simp [hopening], rfl⟩
      next => simp at h
    next hopening =>
      have hopens : brackets.opens reading.place c = false := by simp [opens, hopening]
      split at h
      next hclosing =>
        obtain rfl : reading.closeGroup c = next := by simpa using h
        cases henclosing : reading.enclosing with
        | nil =>
            refine Or.inr (Or.inr ⟨hopens, by simp [closes, henclosing], ?_⟩)
            rw [Reading.closeGroup, henclosing]
        | cons outer rest =>
            refine Or.inr (Or.inl ⟨hopens, ?_, outer, rest, rfl, ?_⟩)
            · rw [closes, reading.quote_place, hexposes]
              simpa [henclosing, hclosing] using hopening
            · rw [Reading.closeGroup, henclosing]
      next hclosing =>
        obtain rfl : reading.push c = next := by simpa using h
        exact Or.inr (Or.inr ⟨hopens, by simp [closes, hclosing], rfl⟩)
  next hexposes =>
    obtain rfl : reading.push c = next := by simpa using h
    exact Or.inr (Or.inr ⟨by simp [opens, hexposes], by simp [closes, hexposes], rfl⟩)

theorem eq_push_of_step? {c : Char} (h : brackets.step? limit reading c = some next)
    (hopens : brackets.opens reading.place c = false)
    (hcloses : brackets.closes reading.place c = false) : next = reading.push c := by
  rcases step?_cases h with ⟨hopens', -⟩ | ⟨-, hcloses', -⟩ | ⟨-, -, hpush⟩
  · simp [hopens] at hopens'
  · simp [hcloses] at hcloses'
  · exact hpush

theorem place_of_step? {c : Char} (h : brackets.step? limit reading c = some next) :
    next.place = brackets.advance reading.place c := by
  rcases step?_cases h with ⟨hopens, rfl⟩ | ⟨hopens, hcloses, outer, rest, henclosing, rfl⟩ |
    ⟨hopens, hcloses, rfl⟩
  · have hquote : reading.quote.next c = reading.quote := by
      simp only [opens, Reading.quote_place, Bool.and_eq_true] at hopens
      exact Quote.next_of_exposes hopens.1
    simp only [advance, hopens, ↓reduceIte, Reading.quote_place, hquote]
    rfl
  · have hquote : reading.quote.next c = reading.quote := by
      simp only [closes, Reading.quote_place, Bool.and_eq_true] at hcloses
      exact Quote.next_of_exposes hcloses.1.1.1
    simp only [advance, hopens, Bool.false_eq_true, hcloses, ↓reduceIte, Reading.quote_place,
      hquote, Reading.opened_place, henclosing, List.length_cons, Nat.add_sub_cancel]
    rfl
  · simp only [advance, hopens, Bool.false_eq_true, hcloses, ↓reduceIte]
    rfl

/-! ## Texts -/

theorem read?_append {first second : Text} :
    brackets.read? limit reading (first ++ second) =
      (brackets.read? limit reading first).bind fun next => brackets.read? limit next second :=
  List.foldlM_append

theorem isSome_read?_iff {text : Text} :
    (brackets.read? limit {} text).isSome = true ↔
      ∃ pieces, brackets.cut limit text = .ok pieces := by
  unfold cut
  split
  next hread => simp [hread]
  next hread => simp [hread]

theorem place_of_read? {text : Text} {final : Reading}
    (h : brackets.read? limit reading text = some final) :
    final.place = brackets.follow reading.place text := by
  induction text generalizing reading with
  | nil =>
      obtain rfl : reading = final := by simpa [read?] using h
      rfl
  | cons c rest ih =>
      rw [read?_cons] at h
      obtain ⟨next, hnext, hrest⟩ := Option.bind_eq_some_iff.mp h
      rw [ih hrest, place_of_step? hnext, follow_cons]

/-- Whether a text can be read depends on the place alone. -/
theorem isSome_read? {other : Reading} (h : reading.place = other.place) (text : Text) :
    (brackets.read? limit reading text).isSome = (brackets.read? limit other text).isSome := by
  induction text generalizing reading other with
  | nil => rfl
  | cons c rest ih =>
      rw [read?_cons, read?_cons]
      cases hstep : brackets.step? limit reading c with
      | none =>
          rw [step?_eq_none_iff, h, ← step?_eq_none_iff] at hstep
          rw [hstep]
      | some next =>
          cases hother : brackets.step? limit other c with
          | none =>
              rw [step?_eq_none_iff, ← h, ← step?_eq_none_iff, hstep] at hother
              cases hother
          | some next' =>
              refine ih ?_
              rw [place_of_step? hstep, place_of_step? hother, h]

/-- A text that follows another can be read if it can be read from the same place. -/
theorem isSome_read?_append {first : Text} (h : (brackets.read? limit reading first).isSome = true)
    (other : Reading) (hplace : brackets.follow reading.place first = other.place)
    (second : Text) :
    (brackets.read? limit reading (first ++ second)).isSome =
      (brackets.read? limit other second).isSome := by
  obtain ⟨next, hnext⟩ := Option.isSome_iff_exists.mp h
  rw [read?_append, hnext, Option.bind_some]
  exact isSome_read? (by rw [place_of_read? hnext, hplace]) second

end Brackets

end Shading
