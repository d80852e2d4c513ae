import Mathlib.Algebra.Group.Nat.Defs
import Shading.Proofs.Declaration
import Shading.Proofs.Token

/-!
# The arity of a declared vector

A vector keyword has one digit, and only the byte at its place is looked at.  So where a
keyword goes on with more digits, the first of them is taken for the whole number: `vec23`
has two members, and `vec02` is no vector.

```text
digits     the first    the number     result
one        2 … 4        the same       a vector of that arity
one        other        the same       a name
several    2 … 4        20 or more     a vector, though the number is no arity
several    other        2 … 4          a name, though the number is an arity
several    other        other          a name
```

* `leading_le`: the first digit bounds the number from below.
* `item_digits`: what such a declaration gives, and when the number gives the same.
-/

namespace Shading

/-! ## The first digit of a number -/

/-- A number is not less than its first digit followed by zeros. -/
theorem Spells.leading_le {base : Nat} {digits : Text} {n : Nat} (h : Spells base digits n)
    {first : Char} {rest : Text} (hdigits : digits = first :: rest) {d : Nat}
    (hfirst : IsDigitOf base first d) : d * base ^ rest.length ≤ n := by
  induction h generalizing rest with
  | digit h =>
      obtain ⟨rfl, rfl⟩ := List.cons.inj hdigits
      rw [← digitValue_of_isDigitOf h, ← digitValue_of_isDigitOf hfirst]
      simp
  | @snoc text n htext c e h ih =>
      obtain ⟨front, rfl⟩ : ∃ front, text = first :: front := by
        cases text with
        | nil => exact absurd rfl (spells_iff.mp htext).1
        | cons d front => exact ⟨front, by simp_all⟩
      obtain rfl : front ++ [c] = rest := by simpa using hdigits
      calc d * base ^ (front ++ [c]).length
          = d * base ^ front.length * base := by
            rw [List.length_append, List.length_singleton, Nat.pow_succ, Nat.mul_assoc]
        _ ≤ n * base := Nat.mul_le_mul_right base (ih rfl)
        _ ≤ n * base + e := Nat.le_add_right ..

theorem isBlank_of_isDigitOf {base : Nat} {c : Char} {d : Nat} (h : IsDigitOf base c d) :
    Text.isBlank c = false := by
  have hall : ∀ p ∈ lowerDigits.zipIdx ++ upperDigits.zipIdx, Text.isBlank p.1 = false := by
    decide
  exact hall (c, d) (mem_digits_of_isDigitOf h)

/-! ## Declarations with a number -/

namespace Declaration

/-- The numbers of members that a vector can have. -/
def IsArity (n : Nat) : Prop :=
  2 ≤ n ∧ n ≤ 4

instance (n : Nat) : Decidable (IsArity n) :=
  inferInstanceAs (Decidable (_ ∧ _))

theorem arity?_of_isDigitOf {c : Char} {d : Nat} (h : IsDigitOf 10 c d) :
    arity? c = if IsArity d then some d else none := by
  have hall : ∀ p ∈ lowerDigits.zipIdx ++ upperDigits.zipIdx, p.2 < 10 →
      arity? p.1 = if IsArity p.2 then some p.2 else none := by
    decide
  exact hall (c, d) (mem_digits_of_isDigitOf h) h.1

/-- Two words are a declaration if the first is a type. -/
theorem read?_pair (type name : Text) :
    read? [type, name] = (shape? type).map fun shape => { name := some name, shape } := by
  apply Option.ext
  intro v
  rw [read?_eq_some_iff, Option.map_eq_some_iff]
  constructor
  · generalize hwords : [type, name] = words
    intro h
    cases h with
    | @intro front middle qualifier type' shape hfront hmiddle htype name' =>
        -- There is no room for words before the type.
        have hlength : (front ++ middle).length = 0 := by
          have := congrArg List.length hwords
          simp only [List.length_append, List.length_cons, List.length_nil] at this ⊢
          omega
        obtain ⟨rfl, rfl⟩ := List.append_eq_nil_iff.mp (List.eq_nil_of_length_eq_zero hlength)
        cases hfront
        obtain ⟨rfl, rfl⟩ : type = type' ∧ name = name' := by simpa using hwords
        exact ⟨shape, shape?_eq_some_iff.mpr htype, rfl⟩
  · rintro ⟨shape, hshape, rfl⟩
    exact .intro .absent .absent (shape?_eq_some_iff.mp hshape) name

/-- The first word of such a declaration has no blanks. -/
theorem isBlank_stem_append {stem : Text} {element : ValueType}
    (hstem : (stem, element) ∈ vectorStems) {digits : Text} {n : Nat}
    (hdigits : Spells 10 digits n) : ∀ c ∈ stem ++ digits, Text.isBlank c = false := by
  intro c hc
  rcases List.mem_append.mp hc with hc | hc
  · have hall : ∀ entry ∈ vectorStems, ∀ c ∈ entry.1, Text.isBlank c = false := by decide
    exact hall (stem, element) hstem c hc
  · obtain ⟨d, hd⟩ := (spells_iff.mp hdigits).2.1 c hc
    exact isBlank_of_isDigitOf hd

end Declaration

namespace Statement

open Declaration

/-- What the declaration of a vector with this number of members gives: a new variable, or the text
as a name if no vector has that many. -/
def vectorOutcome (setting : Setting) (draft : Draft) (text : Text) (element : ValueType)
    (name : Text) (n : Nat) : Except Fault Expr × Draft :=
  if IsArity n then
    (.ok (.var (setting.labels draft).length),
      { draft with created := draft.created ++ [Variable.vector element n (some name)] })
  else (.ok (.name text), draft)

theorem vectorOutcome_inj {setting : Setting} {draft : Draft} {text : Text} {element : ValueType}
    {name : Text} {n m : Nat} :
    vectorOutcome setting draft text element name n =
      vectorOutcome setting draft text element name m ↔ n = m ∨ ¬ IsArity n ∧ ¬ IsArity m := by
  unfold vectorOutcome
  by_cases hn : IsArity n
  · by_cases hm : IsArity m
    · simp [hn, hm, Variable.vector, List.replicate_inj]
    · have hne : n ≠ m := fun h => hm (h ▸ hn)
      simp [hn, hm, hne]
  · by_cases hm : IsArity m
    · have hne : n ≠ m := fun h => hn (h ▸ hm)
      simp [hn, hm, hne]
    · simp [hn, hm]

/-- Two words without blanks, the first of them a vector keyword up to its first digit. -/
theorem run_item_vector (setting : Setting) (draft : Draft) {stem : Text} {element : ValueType}
    (hstem : (stem, element) ∈ vectorStems) {first : Char} {d : Nat}
    (hfirst : IsDigitOf 10 first d) {rest : Text}
    (hword : ∀ c ∈ stem ++ first :: rest, Text.isBlank c = false) {name : Text} (hne : name ≠ [])
    (hname : ∀ c ∈ name, Text.isBlank c = false) :
    let text := stem ++ first :: rest ++ ' ' :: name
    (item setting (.text text)).run draft = vectorOutcome setting draft text element name d := by
  intro text
  have hne' : stem ++ first :: rest ≠ [] := by simp
  have hwords : Text.words text = [stem ++ first :: rest, name] := by
    rw [Text.words_append_blank Text.isBlank_space, Text.words_of_forall hne' hword,
      Text.words_of_forall hne hname]
    rfl
  have htrim : Text.trim text = text :=
    Text.trim_of_tight ((Text.tight_of_forall hword).append (Text.tight_of_forall hname) hne' hne
      [' '])
  rw [run_item_words (by simp [hwords]), hwords, read?_pair, shape?_stem hstem,
    arity?_of_isDigitOf hfirst, htrim, vectorOutcome]
  by_cases hd : IsArity d
  · rw [if_pos hd, if_pos hd]
    rfl
  · rw [if_neg hd, if_neg hd]
    rfl

/-- The first digit of a vector type is its arity.  The whole number gives the same only if it has
no further digits, or if neither is an arity. -/
theorem item_digits (setting : Setting) (draft : Draft) {stem : Text} {element : ValueType}
    (hstem : (stem, element) ∈ vectorStems) {digits : Text} {n : Nat}
    (hdigits : Spells 10 digits n) {name : Text} (hne : name ≠ [])
    (hname : ∀ c ∈ name, Text.isBlank c = false) :
    let text := stem ++ digits ++ ' ' :: name
    let outcome := (item setting (.text text)).run draft
    let decodes := vectorOutcome setting draft text element name
    ∃ first rest d, digits = first :: rest ∧ IsDigitOf 10 first d ∧ outcome = decodes d ∧
      (outcome = decodes n ↔ rest = [] ∨ ¬ IsArity d ∧ ¬ IsArity n) := by
  intro text outcome decodes
  obtain ⟨hnonempty, hall, -⟩ := spells_iff.mp hdigits
  obtain ⟨first, rest, rfl⟩ := List.exists_cons_of_ne_nil hnonempty
  obtain ⟨d, hfirst⟩ := hall first (by simp)
  have houtcome : outcome = decodes d :=
    run_item_vector setting draft hstem hfirst (isBlank_stem_append hstem hdigits) hne hname
  refine ⟨first, rest, d, rfl, hfirst, houtcome, ?_⟩
  rw [houtcome, vectorOutcome_inj]
  constructor
  · rintro (rfl | hnot)
    · by_cases hrest : rest = []
      · exact .inl hrest
      · -- Only zero is no less than itself with a zero behind it.
        have hten : 10 ≤ 10 ^ rest.length :=
          Nat.le_self_pow (List.length_pos_iff.mpr hrest).ne' 10
        have hle : d * 10 ≤ d :=
          (Nat.mul_le_mul_left d hten).trans (hdigits.leading_le rfl hfirst)
        have hd : ¬ IsArity d := fun h => by have := h.1; omega
        exact .inr ⟨hd, hd⟩
    · exact .inr hnot
  · rintro (rfl | hnot)
    · have hvalue : digitsValue 10 [first] = digitValue first := by simp [digitsValue]
      exact .inl (by rw [← hdigits.digitsValue_eq, hvalue, digitValue_of_isDigitOf hfirst])
    · exact .inr hnot

/-- A number that is an arity behind a zero, which is none: the text is a name. -/
theorem item_digits_ivec02 :
    let setting : Setting := ⟨{}, [], 0⟩
    let text := "ivec02 w".toList
    let outcome := (item setting (.text text)).run {}
    Spells 10 "02".toList 2 ∧ outcome = (.ok (.name text), {}) ∧
    outcome ≠ vectorOutcome setting {} text .int ['w'] 2 := by
  intro setting text outcome
  have hdigits : Spells 10 "02".toList 2 :=
    IntegerNumeral.spells_decimal_iff.mpr ⟨by decide, by decide⟩
  obtain ⟨first, rest, d, hcons, hfirst, houtcome, hiff⟩ :=
    item_digits setting {} (by decide : ("ivec".toList, ValueType.int) ∈ vectorStems) hdigits
      (List.cons_ne_nil 'w' []) (by decide)
  obtain ⟨rfl, rfl⟩ : '0' = first ∧ ['2'] = rest := by simpa using hcons
  obtain rfl : 0 = d := digitValue_of_isDigitOf hfirst
  exact ⟨hdigits, houtcome, fun h => absurd (hiff.mp h) (by decide)⟩

/-- A first digit that is an arity before another, which makes the number none: the text is a
vector, though no vector has 23 members. -/
theorem item_digits_vec23 :
    let setting : Setting := ⟨{}, [], 0⟩
    let text := "vec23 v".toList
    let outcome := (item setting (.text text)).run {}
    Spells 10 "23".toList 23 ∧ ¬ IsArity 23 ∧
    outcome = (.ok (.var 0), { created := [Variable.vector .float 2 (some ['v'])] }) ∧
    outcome ≠ vectorOutcome setting {} text .float ['v'] 23 := by
  intro setting text outcome
  have hdigits : Spells 10 "23".toList 23 :=
    IntegerNumeral.spells_decimal_iff.mpr ⟨by decide, by decide⟩
  have houtcome : outcome = vectorOutcome setting {} text .float ['v'] 2 := rfl
  refine ⟨hdigits, by decide, houtcome, ?_⟩
  rw [houtcome, Ne, vectorOutcome_inj]
  decide

end Statement

end Shading
