import Mathlib.Data.List.Induction
import Shading.Proofs.Word

/-!
# Tokens of literals

The grammar of literals, stated without the reader: what a run of digits denotes, and which
texts are integers and floats.  The two forms overlap, for `12` is both, and the reader tries
integers first; what it finds is compared with the grammar form by form.

* `read?_of_integerToken`, `integerToken_of_read?`: a token is an integer if it reads as one,
  with the same number.
* `floatToken_iff`: a token is a float if it reads as one.
* `ofToken?_grammar`: the tokens that are literals, and the kind and value of each.
-/

namespace Shading

/-! ## Runs of digits -/

/-- The digits, each at the place of its value, with small letters. -/
def lowerDigits : Text :=
  "0123456789abcdef".toList

/-- The digits, each at the place of its value, with capital letters. -/
def upperDigits : Text :=
  "0123456789ABCDEF".toList

/-- The character is a digit of the base, and has this value. -/
def IsDigitOf (base : Nat) (c : Char) (d : Nat) : Prop :=
  d < base ∧ (lowerDigits[d]? = some c ∨ upperDigits[d]? = some c)

/-- The text is a nonempty run of digits of the base, which denotes this number. -/
inductive Spells (base : Nat) : Text → Nat → Prop
  | digit {c : Char} {d : Nat} (h : IsDigitOf base c d) : Spells base [c] d
  | snoc {text : Text} {n : Nat} (htext : Spells base text n) {c : Char} {d : Nat}
      (h : IsDigitOf base c d) : Spells base (text ++ [c]) (n * base + d)

/-- A digit with its value is an entry of the tables, which can be gone through. -/
theorem mem_digits_of_isDigitOf {base : Nat} {c : Char} {d : Nat} (h : IsDigitOf base c d) :
    (c, d) ∈ lowerDigits.zipIdx ++ upperDigits.zipIdx := by
  rw [List.mem_append, List.mk_mem_zipIdx_iff_getElem?, List.mk_mem_zipIdx_iff_getElem?]
  exact h.2

theorem digitValue_of_isDigitOf {base : Nat} {c : Char} {d : Nat} (h : IsDigitOf base c d) :
    digitValue c = d := by
  have hall : ∀ p ∈ lowerDigits.zipIdx ++ upperDigits.zipIdx, digitValue p.1 = p.2 := by decide
  exact hall _ (mem_digits_of_isDigitOf h)

/-- The reader and the grammar agree on what a digit is. -/
theorem isDigitOf_digitValue {c : Char} (h : isHexDigit c = true) :
    IsDigitOf 16 c (digitValue c) ∧ (isDigit c = true ↔ digitValue c < 10) := by
  have hbound : c.toNat < 128 := by
    have hf : c ≤ 'f' := by
      simp only [isHexDigit, isDigit, Bool.or_eq_true, Bool.and_eq_true, decide_eq_true_eq] at h
      rcases h with (⟨-, h⟩ | ⟨-, h⟩) | ⟨-, h⟩
      · exact Char.le_trans h (by decide)
      · exact h
      · exact Char.le_trans h (by decide)
    exact Nat.lt_of_le_of_lt (UInt32.le_iff_toNat_le.mp (Char.le_def.mp hf)) (by decide)
  have hall : ∀ n < 128, isHexDigit (Char.ofNat n) = true →
      IsDigitOf 16 (Char.ofNat n) (digitValue (Char.ofNat n)) ∧
        (isDigit (Char.ofNat n) = true ↔ digitValue (Char.ofNat n) < 10) := by
    unfold IsDigitOf
    decide +kernel
  simpa [Char.ofNat_toNat] using hall c.toNat hbound (by simpa [Char.ofNat_toNat] using h)

theorem isHexDigit_iff {c : Char} : isHexDigit c = true ↔ ∃ d, IsDigitOf 16 c d := by
  refine ⟨fun h => ⟨_, (isDigitOf_digitValue h).1⟩, fun ⟨d, h⟩ => ?_⟩
  have hall : ∀ c ∈ lowerDigits ++ upperDigits, isHexDigit c = true := by decide
  refine hall c (List.mem_append.mpr ?_)
  exact h.2.imp List.mem_of_getElem? List.mem_of_getElem?

theorem isDigit_iff {c : Char} : isDigit c = true ↔ ∃ d, IsDigitOf 10 c d := by
  constructor
  · intro h
    obtain ⟨⟨-, hdigit⟩, hten⟩ := isDigitOf_digitValue (c := c) (by simp [isHexDigit, h])
    exact ⟨_, hten.mp h, hdigit⟩
  · rintro ⟨d, hd, hdigit⟩
    have hhex : IsDigitOf 16 c d := ⟨by omega, hdigit⟩
    rw [(isDigitOf_digitValue (isHexDigit_iff.mpr ⟨d, hhex⟩)).2, digitValue_of_isDigitOf hhex]
    exact hd

theorem Spells.digitsValue_eq {base : Nat} {text : Text} {n : Nat} (h : Spells base text n) :
    digitsValue base text = n := by
  induction h with
  | digit h => simp [digitsValue, digitValue_of_isDigitOf h]
  | snoc htext h ih =>
      rw [digitsValue, List.foldl_append, ← digitsValue, ih]
      simp [digitValue_of_isDigitOf h]

theorem spells_iff {base : Nat} {text : Text} {n : Nat} :
    Spells base text n ↔
      text ≠ [] ∧ (∀ c ∈ text, ∃ d, IsDigitOf base c d) ∧ digitsValue base text = n := by
  constructor
  · intro h
    refine ⟨?_, ?_, h.digitsValue_eq⟩
    · cases h <;> simp
    · induction h with
      | digit h => simpa using ⟨_, h⟩
      | snoc htext h ih =>
          intro c hc
          rcases List.mem_append.mp hc with hc | hc
          · exact ih c hc
          · rw [List.mem_singleton.mp hc]
            exact ⟨_, h⟩
  · rintro ⟨hne, hdigits, rfl⟩
    induction text using List.reverseRecOn with
    | nil => exact absurd rfl hne
    | append_singleton front c ih =>
        obtain ⟨d, hd⟩ := hdigits c (by simp)
        by_cases hfront : front = []
        · subst hfront
          have hvalue : digitsValue base ([] ++ [c]) = d := by
            simp [digitsValue, digitValue_of_isDigitOf hd]
          rw [hvalue]
          exact .digit hd
        · have hvalue : digitsValue base (front ++ [c]) = digitsValue base front * base + d := by
            simp [digitsValue, digitValue_of_isDigitOf hd]
          rw [hvalue]
          exact .snoc (ih hfront fun c hc => hdigits c (by simp [hc])) hd

theorem exists_spells_iff {text : Text} :
    (∃ n, Spells 10 text n) ↔ text ≠ [] ∧ ∀ c ∈ text, isDigit c = true := by
  constructor
  · rintro ⟨n, h⟩
    obtain ⟨hne, hdigits, -⟩ := spells_iff.mp h
    exact ⟨hne, fun c hc => isDigit_iff.mpr (hdigits c hc)⟩
  · rintro ⟨hne, hdigits⟩
    exact ⟨_, spells_iff.mpr ⟨hne, fun c hc => isDigit_iff.mp (hdigits c hc), rfl⟩⟩

/-! ## Integers -/

/-- The number of digits that a radix has. -/
def Radix.base : Radix → Nat
  | .decimal => 10
  | .hexadecimal => 16

/-- An unmarked integer, with the number it denotes: decimal digits, or `0x` or `0X` and hexadecimal
ones. -/
inductive Denotes : Radix → Text → Nat → Prop
  | decimal {digits : Text} {n : Nat} (h : Spells 10 digits n) : Denotes .decimal digits n
  | hexadecimal {mark : Char} (hmark : mark = 'x' ∨ mark = 'X') {digits : Text} {n : Nat}
      (h : Spells 16 digits n) : Denotes .hexadecimal ('0' :: mark :: digits) n

/-- An integer, with the number it denotes and whether `u` or `U` is at its end. -/
inductive IntegerToken (radix : Radix) : Text → Nat → Bool → Prop
  | unmarked {text : Text} {n : Nat} (h : Denotes radix text n) : IntegerToken radix text n false
  | marked {text : Text} {n : Nat} (h : Denotes radix text n) {mark : Char}
      (hmark : mark = 'u' ∨ mark = 'U') : IntegerToken radix (text ++ [mark]) n true

namespace IntegerNumeral

theorem spells_decimal_iff {text : Text} {n : Nat} :
    Spells 10 text n ↔ isDigits text = true ∧ digitsValue 10 text = n := by
  rw [spells_iff, ← and_assoc]
  simp [isDigits, ← isDigit_iff]

theorem spells_hexadecimal_iff {text : Text} {n : Nat} :
    Spells 16 text n ↔ isHexDigits text = true ∧ digitsValue 16 text = n := by
  rw [spells_iff, ← and_assoc]
  simp [isHexDigits, ← isHexDigit_iff]

theorem value_eq_of_spells {radix : Radix} {digits : Text} {n : Nat}
    (h : Spells radix.base digits n) (isUnsigned : Bool) :
    value ⟨radix, digits, isUnsigned⟩ = n := by
  cases radix with
  | decimal => exact h.digitsValue_eq
  | hexadecimal => exact h.digitsValue_eq

theorem readDigits?_of_denotes {radix : Radix} {text : Text} {n : Nat} (h : Denotes radix text n) :
    ∃ digits, readDigits? text = some (radix, digits) ∧ Spells radix.base digits n := by
  cases h with
  | decimal h =>
      obtain ⟨hdigits, -⟩ := spells_decimal_iff.mp h
      exact ⟨text, by simp [readDigits?, hdigits], h⟩
  | hexadecimal hmark h =>
      obtain ⟨hdigits, -⟩ := spells_hexadecimal_iff.mp h
      refine ⟨_, ?_, h⟩
      rcases hmark with rfl | rfl
      · simp [readDigits?, hdigits, isDigits, isDigit]
      · simp [readDigits?, hdigits, isDigits, isDigit]

theorem denotes_of_readDigits? {radix : Radix} {text digits : Text}
    (h : readDigits? text = some (radix, digits)) (isUnsigned : Bool) :
    Denotes radix text (value ⟨radix, digits, isUnsigned⟩) := by
  unfold readDigits? at h
  split at h
  next hdigits =>
    obtain ⟨rfl, rfl⟩ : Radix.decimal = radix ∧ text = digits := by simpa using h
    exact .decimal (spells_decimal_iff.mpr ⟨hdigits, rfl⟩)
  next =>
    split at h
    next mark more _ =>
      split at h
      next hhex =>
        obtain ⟨rfl, rfl⟩ : Radix.hexadecimal = radix ∧ more = digits := by simpa using h
        obtain ⟨hmark, hdigits⟩ : (mark = 'x' ∨ mark = 'X') ∧ isHexDigits more = true := by
          simpa using hhex
        exact .hexadecimal hmark (spells_hexadecimal_iff.mpr ⟨hdigits, rfl⟩)
      · cases h
    · cases h

theorem isMarked_append {text : Text} {mark : Char} :
    isMarked (text ++ [mark]) = true ↔ mark = 'u' ∨ mark = 'U' := by
  simp [isMarked]

/-- An unmarked integer ends in a digit, so it has no mark. -/
theorem isMarked_of_denotes {radix : Radix} {text : Text} {n : Nat} (h : Denotes radix text n) :
    isMarked text = false := by
  have hlast : ∃ front c, text = front ++ [c] ∧ isHexDigit c = true := by
    cases h with
    | decimal h =>
        obtain ⟨hne, hdigits, -⟩ := spells_iff.mp h
        obtain ⟨front, c, rfl⟩ := List.eq_nil_or_concat _ |>.resolve_left hne
        obtain ⟨d, hd, hdigit⟩ := hdigits c (by simp)
        exact ⟨front, c, by simp, isHexDigit_iff.mpr ⟨d, by omega, hdigit⟩⟩
    | @hexadecimal mark _ digits _ h =>
        obtain ⟨hne, hdigits, -⟩ := spells_iff.mp h
        obtain ⟨front, c, rfl⟩ := List.eq_nil_or_concat _ |>.resolve_left hne
        exact ⟨'0' :: mark :: front, c, by simp, isHexDigit_iff.mpr (hdigits c (by simp))⟩
  obtain ⟨front, c, rfl, hc⟩ := hlast
  rw [← Bool.not_eq_true, isMarked_append]
  rintro (rfl | rfl)
  · exact absurd hc (by decide)
  · exact absurd hc (by decide)

/-- An integer is read as its digits and its mark. -/
theorem read?_of_integerToken {radix : Radix} {token : Text} {n : Nat} {isUnsigned : Bool}
    (h : IntegerToken radix token n isUnsigned) :
    ∃ digits, read? token = some ⟨radix, digits, isUnsigned⟩ ∧ Spells radix.base digits n := by
  cases h with
  | unmarked h =>
      obtain ⟨digits, hread, hdigits⟩ := readDigits?_of_denotes h
      exact ⟨digits, by simp [read?, isMarked_of_denotes h, hread], hdigits⟩
  | marked h hmark =>
      obtain ⟨digits, hread, hdigits⟩ := readDigits?_of_denotes h
      exact ⟨digits, by simp [read?, isMarked_append.mpr hmark, hread], hdigits⟩

/-- What is read as an integer is one. -/
theorem integerToken_of_read? {token : Text} {numeral : IntegerNumeral}
    (h : read? token = some numeral) :
    IntegerToken numeral.radix token numeral.value numeral.isUnsigned := by
  simp only [read?, Option.map_eq_some_iff, Prod.exists] at h
  obtain ⟨radix, digits, hread, rfl⟩ := h
  have hdenotes := denotes_of_readDigits? hread (isMarked token)
  by_cases hmarked : isMarked token = true
  · rw [if_pos hmarked, hmarked] at hdenotes
    have hne : token ≠ [] := by
      rintro rfl
      cases hmarked
    obtain ⟨front, mark, rfl⟩ := List.eq_nil_or_concat token |>.resolve_left hne
    rw [List.concat_eq_append] at hmarked hdenotes ⊢
    rw [List.dropLast_concat] at hdenotes
    rw [hmarked]
    exact .marked hdenotes (isMarked_append.mp hmarked)
  · rw [if_neg hmarked] at hdenotes
    rw [Bool.not_eq_true] at hmarked
    rw [hmarked] at hdenotes ⊢
    exact .unmarked hdenotes

end IntegerNumeral

/-! ## Floats -/

/-- Digits, digits with a point and possibly more digits, or a point and digits. -/
inductive Mantissa : Text → Prop
  | whole {whole : Text} {n : Nat} (h : Spells 10 whole n) : Mantissa whole
  | point {whole : Text} {n : Nat} (h : Spells 10 whole n) : Mantissa (whole ++ ['.'])
  | fraction {whole fraction : Text} {n m : Nat} (h : Spells 10 whole n)
      (hfraction : Spells 10 fraction m) : Mantissa (whole ++ '.' :: fraction)
  | pointFirst {fraction : Text} {m : Nat} (h : Spells 10 fraction m) :
      Mantissa ('.' :: fraction)

/-- Nothing, or the letter of an exponent, an optional sign and digits. -/
inductive Exponent : Text → Prop
  | absent : Exponent []
  | present {letter : Char} (hletter : letter = 'e' ∨ letter = 'E') {sign : Text}
      (hsign : sign = [] ∨ sign = ['+'] ∨ sign = ['-']) {digits : Text} {n : Nat}
      (h : Spells 10 digits n) : Exponent (letter :: (sign ++ digits))

/-- A mantissa, an exponent that may be absent, and a suffix that may be absent. -/
def FloatToken (token : Text) : Prop :=
  ∃ mantissa exponent suffix, token = mantissa ++ (exponent ++ suffix) ∧ Mantissa mantissa ∧
    Exponent exponent ∧ suffix ∈ [[], ['f'], ['F'], ['l', 'f'], ['L', 'F']]

namespace FloatNumeral

/-- A mantissa is read up to what is neither a digit nor a point. -/
theorem readMantissa?_of_mantissa {mantissa rest : Text} (h : Mantissa mantissa)
    (hrest : ∀ c ∈ rest.head?, isMantissaChar c = false) :
    ∃ whole fraction, readMantissa? (mantissa ++ rest) = some (whole, fraction, rest) := by
  have hdigit : ∀ c ∈ rest.head?, isDigit c = false :=
    fun c hc => (Bool.or_eq_false_iff.mp (hrest c hc)).1
  have hpoint : ∀ {whole fraction : Text}, ¬ (whole = [] ∧ fraction = []) →
      (∀ c ∈ whole, isDigit c = true) → (∀ c ∈ fraction, isDigit c = true) →
      readMantissa? ((whole ++ '.' :: fraction) ++ rest) = some (whole, fraction, rest) := by
    intro whole fraction hne hwhole hfraction
    rw [List.append_assoc, List.cons_append]
    exact readMantissa?_point hne hwhole hfraction hdigit
  cases h with
  | whole h =>
      obtain ⟨hne, hdigits⟩ := exists_spells_iff.mp ⟨_, h⟩
      exact ⟨_, _, readMantissa?_digits hne hdigits hrest⟩
  | point h =>
      obtain ⟨hne, hdigits⟩ := exists_spells_iff.mp ⟨_, h⟩
      exact ⟨_, _, hpoint (by simp [hne]) hdigits (by simp)⟩
  | fraction h hfraction =>
      obtain ⟨hne, hdigits⟩ := exists_spells_iff.mp ⟨_, h⟩
      obtain ⟨-, hmore⟩ := exists_spells_iff.mp ⟨_, hfraction⟩
      exact ⟨_, _, hpoint (by simp [hne]) hdigits hmore⟩
  | pointFirst h =>
      obtain ⟨hne, hdigits⟩ := exists_spells_iff.mp ⟨_, h⟩
      have hnone : ∀ c ∈ ([] : Text), isDigit c = true := by simp
      exact ⟨_, _, hpoint (by simp [hne]) hnone hdigits⟩

theorem exists_mantissa {text whole fraction rest : Text}
    (h : readMantissa? text = some (whole, fraction, rest)) :
    ∃ mantissa, text = mantissa ++ rest ∧ Mantissa mantissa := by
  obtain ⟨hwhole, hfraction, ⟨rfl, hne⟩ | ⟨rfl, hne⟩⟩ := readMantissa?_cases h
  · obtain ⟨n, hn⟩ := exists_spells_iff.mpr ⟨hne, hwhole⟩
    exact ⟨whole, rfl, .whole hn⟩
  · refine ⟨whole ++ '.' :: fraction, by simp, ?_⟩
    by_cases hfirst : whole = []
    · subst hfirst
      obtain ⟨m, hm⟩ := exists_spells_iff.mpr ⟨fun hnil => hne ⟨rfl, hnil⟩, hfraction⟩
      exact .pointFirst hm
    · obtain ⟨n, hn⟩ := exists_spells_iff.mpr ⟨hfirst, hwhole⟩
      by_cases hlast : fraction = []
      · subst hlast
        exact .point hn
      · obtain ⟨m, hm⟩ := exists_spells_iff.mpr ⟨hlast, hfraction⟩
        exact .fraction hn hm

/-- A sign and digits are read up to what is no digit. -/
theorem readSigned?_of_digits {sign digits rest : Text}
    (hsign : sign = [] ∨ sign = ['+'] ∨ sign = ['-']) (hne : digits ≠ [])
    (hdigits : ∀ c ∈ digits, isDigit c = true) (hrest : ∀ c ∈ rest.head?, isDigit c = false) :
    ∃ value, readSigned? (sign ++ digits ++ rest) = some (value, rest) := by
  obtain ⟨htake, hdrop⟩ := span_digits hdigits hrest
  rcases hsign with rfl | rfl | rfl
  · obtain ⟨c, more, rfl⟩ := List.exists_cons_of_ne_nil hne
    have hc : isDigit c = true := hdigits c (by simp)
    have hunsigned : c ≠ '+' ∧ c ≠ '-' :=
      ⟨by rintro rfl; exact absurd hc (by decide), by rintro rfl; exact absurd hc (by decide)⟩
    simp_all [readSigned?]
  · simp [readSigned?, htake, hdrop, hne]
  · simp [readSigned?, htake, hdrop, hne]

/-- An exponent is read up to what is no digit and, if it is absent, does not start one. -/
theorem readExponent?_of_exponent {exponent rest : Text} (h : Exponent exponent)
    (hrest : ∀ c ∈ rest.head?, isDigit c = false ∧ c ≠ 'e' ∧ c ≠ 'E') :
    ∃ value, readExponent? (exponent ++ rest) = some (value, rest) := by
  cases h with
  | absent =>
      refine ⟨0, ?_⟩
      rw [List.nil_append]
      unfold readExponent?
      split
      · exact absurd rfl (hrest _ rfl).2.1
      · exact absurd rfl (hrest _ rfl).2.2
      · rfl
  | present hletter hsign h =>
      obtain ⟨hne, hdigits⟩ := exists_spells_iff.mp ⟨_, h⟩
      obtain ⟨value, hvalue⟩ :=
        readSigned?_of_digits hsign hne hdigits fun c hc => (hrest c hc).1
      refine ⟨value, ?_⟩
      rw [List.cons_append]
      rcases hletter with rfl | rfl
      · exact hvalue
      · exact hvalue

theorem exists_exponent {text rest : Text} {value : Int}
    (h : readExponent? text = some (value, rest)) :
    ∃ exponent, text = exponent ++ rest ∧ Exponent exponent := by
  rcases readExponent?_spec h with rfl | ⟨letter, sign, digits, rfl, hletter, hsign, hne, hdigits⟩
  · exact ⟨[], rfl, .absent⟩
  · obtain ⟨n, hn⟩ := exists_spells_iff.mpr ⟨hne, hdigits⟩
    exact ⟨letter :: (sign ++ digits), by simp, .present hletter hsign hn⟩

/-- A token is a float if it reads as one. -/
theorem floatToken_iff {token : Text} : FloatToken token ↔ (read? token).isSome = true := by
  constructor
  · rintro ⟨mantissa, exponent, suffix, rfl, hmantissa, hexponent, hsuffix⟩
    have hends : isSuffix suffix = true ∧
        ∀ c ∈ suffix.head?, isMantissaChar c = false ∧ c ≠ 'e' ∧ c ≠ 'E' := by
      have hall : ∀ suffix ∈ [[], ['f'], ['F'], ['l', 'f'], ['L', 'F']], isSuffix suffix = true ∧
          suffix.head?.all (fun c => !isMantissaChar c && c != 'e' && c != 'E') = true := by
        decide
      obtain ⟨hsuffix, hhead⟩ := hall suffix hsuffix
      refine ⟨hsuffix, fun c hc => ?_⟩
      rw [Option.mem_def.mp hc] at hhead
      simpa [and_assoc] using hhead
    have hdigit : ∀ {c : Char}, isMantissaChar c = false → isDigit c = false :=
      fun hc => (Bool.or_eq_false_iff.mp hc).1
    have hafter : ∀ c ∈ (exponent ++ suffix).head?, isMantissaChar c = false := by
      cases hexponent with
      | absent => exact fun c hc => (hends.2 c hc).1
      | present hletter =>
          rintro c ⟨⟩
          rcases hletter with rfl | rfl <;> decide
    obtain ⟨whole, fraction, hread⟩ := readMantissa?_of_mantissa hmantissa hafter
    obtain ⟨value, hvalue⟩ := readExponent?_of_exponent hexponent
      fun c hc => ⟨hdigit (hends.2 c hc).1, (hends.2 c hc).2⟩
    simp [read?, hread, hvalue, hends.1]
  · intro h
    obtain ⟨numeral, h⟩ := Option.isSome_iff_exists.mp h
    unfold read? at h
    split at h
    · cases h
    next whole fraction after hread =>
      split at h
      · cases h
      next value suffix hvalue =>
        split at h
        next hsuffix =>
          obtain ⟨mantissa, rfl, hmantissa⟩ := exists_mantissa hread
          obtain ⟨exponent, rfl, hexponent⟩ := exists_exponent hvalue
          refine ⟨mantissa, exponent, suffix, rfl, hmantissa, hexponent, ?_⟩
          simpa [isSuffix, or_assoc] using hsuffix
        · cases h

end FloatNumeral

/-! ## Literals -/

namespace Literal

theorem ofToken?_of_integer {token : Text} {numeral : IntegerNumeral}
    (h : IntegerNumeral.read? token = some numeral) :
    ofToken? token = some (ofInteger numeral) := by
  have hwords : IntegerNumeral.read? "true".toList = none ∧
      IntegerNumeral.read? "false".toList = none := by
    decide
  rw [ofToken?, if_neg, if_neg, h]
  · rintro rfl
    rw [hwords.2] at h
    cases h
  · rintro rfl
    rw [hwords.1] at h
    cases h

/-- A token that is no integer is read as a float, if it is one. -/
theorem ofToken?_of_float {token : Text} (hinteger : IntegerNumeral.read? token = none)
    (h : (FloatNumeral.read? token).isSome = true) :
    ∃ x, ofToken? token = some (.float x) := by
  have hwords : FloatNumeral.read? "true".toList = none ∧
      FloatNumeral.read? "false".toList = none := by
    decide
  obtain ⟨numeral, hread⟩ := Option.isSome_iff_exists.mp h
  refine ⟨.ofDecimal numeral.digits numeral.scale, ?_⟩
  rw [ofToken?, if_neg, if_neg, hinteger, hread]
  · rfl
  · rintro rfl
    rw [hwords.2] at h
    cases h
  · rintro rfl
    rw [hwords.1] at h
    cases h

/-- The bound below which an integer is kept as it is. -/
def bound (isUnsigned : Bool) : Nat :=
  if isUnsigned then unsignedBound else signedBound

/-- What an integer becomes that is too large to be kept. -/
def ofOversized (numeral : IntegerNumeral) : Binary64 :=
  match numeral.radix with
  | .decimal => .ofNat numeral.value
  | .hexadecimal =>
      if numeral.value < unsignedBound then .ofNat numeral.value else foldHex numeral.digits

/-- An integer below its bound is kept, and every other becomes a float. -/
theorem ofInteger_eq (numeral : IntegerNumeral) :
    ofInteger numeral =
      if numeral.value < bound numeral.isUnsigned then
        if numeral.isUnsigned then .uint numeral.value else .int numeral.value
      else .float (ofOversized numeral) := by
  have hbounds : signedBound < unsignedBound := by decide
  unfold ofInteger ofOversized bound
  grind

/-- The tokens that are literals, and what each of them is. -/
theorem ofToken?_grammar (token : Text) :
    ((ofToken? token).isSome = true ↔
      token = "true".toList ∨ token = "false".toList ∨
        (∃ radix n isUnsigned, IntegerToken radix token n isUnsigned) ∨ FloatToken token) ∧
    (∀ radix n, IntegerToken radix token n true →
      if n < Nat.pow 2 64 then ofToken? token = some (.uint n)
      else ∃ x, ofToken? token = some (.float x)) ∧
    (∀ radix n, IntegerToken radix token n false →
      if n < Nat.pow 2 63 then ofToken? token = some (.int n)
      else ∃ x, ofToken? token = some (.float x)) ∧
    (FloatToken token → (¬ ∃ radix n isUnsigned, IntegerToken radix token n isUnsigned) →
      ∃ x, ofToken? token = some (.float x)) := by
  have hinteger : ∀ {radix n isUnsigned}, IntegerToken radix token n isUnsigned →
      ∃ digits, ofToken? token = some (ofInteger ⟨radix, digits, isUnsigned⟩) ∧
        IntegerNumeral.value ⟨radix, digits, isUnsigned⟩ = n := by
    intro radix n isUnsigned h
    obtain ⟨digits, hread, hdigits⟩ := IntegerNumeral.read?_of_integerToken h
    exact ⟨digits, ofToken?_of_integer hread, IntegerNumeral.value_eq_of_spells hdigits _⟩
  have hnone : (¬ ∃ radix n isUnsigned, IntegerToken radix token n isUnsigned) →
      IntegerNumeral.read? token = none := by
    intro h
    by_contra hread
    obtain ⟨numeral, hread⟩ := Option.ne_none_iff_exists'.mp hread
    exact h ⟨_, _, _, IntegerNumeral.integerToken_of_read? hread⟩
  refine ⟨⟨fun h => ?_, ?_⟩, fun radix n h => ?_, fun radix n h => ?_, fun h hnot => ?_⟩
  · by_contra hnot
    simp only [not_or] at hnot
    obtain ⟨htrue, hfalse, hnot, hfloat⟩ := hnot
    rw [ofToken?, if_neg htrue, if_neg hfalse, hnone hnot, Option.isSome_map,
      ← FloatNumeral.floatToken_iff] at h
    exact hfloat h
  · have hsome : ∀ {radix n isUnsigned}, IntegerToken radix token n isUnsigned →
        (ofToken? token).isSome = true := by
      intro radix n isUnsigned h
      obtain ⟨digits, hread, -⟩ := hinteger h
      rw [hread]
      rfl
    rintro (rfl | rfl | ⟨radix, n, isUnsigned, h⟩ | h)
    · rfl
    · rfl
    · exact hsome h
    · -- Digits alone are a float as well as an integer, and are read as an integer.
      by_cases hboth : ∃ radix n isUnsigned, IntegerToken radix token n isUnsigned
      · obtain ⟨radix, n, isUnsigned, hboth⟩ := hboth
        exact hsome hboth
      · obtain ⟨x, hx⟩ := ofToken?_of_float (hnone hboth) (FloatNumeral.floatToken_iff.mp h)
        rw [hx]
        rfl
  · obtain ⟨digits, hread, hvalue⟩ := hinteger h
    rw [hread, ofInteger_eq, hvalue]
    split
    next hlt => exact congrArg some (if_pos hlt)
    next hle => exact ⟨_, congrArg some (if_neg hle)⟩
  · obtain ⟨digits, hread, hvalue⟩ := hinteger h
    rw [hread, ofInteger_eq, hvalue]
    split
    next hlt => exact congrArg some (if_pos hlt)
    next hle => exact ⟨_, congrArg some (if_neg hle)⟩
  · exact ofToken?_of_float (hnone hnot) (FloatNumeral.floatToken_iff.mp h)

/-- The letters `e` and `f` are digits after `0x`, and belong to a float otherwise. -/
example : ofToken? "0x1e2f".toList = some (.int 7727) ∧
    ofToken? "1e2f".toList = some (.float (.ofNat 100)) ∧
    ofToken? "0x1e+2".toList = none := by
  decide +kernel

end Literal

end Shading
