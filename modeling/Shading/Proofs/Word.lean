import Mathlib.Data.List.TakeWhile
import Shading.Literal.Basic
import Shading.Proofs.Scan

/-!
# Words that do not split

A word without operator characters has no split point.  Neither has a literal: the only
operator character in one is the sign of an exponent, and a sign is no split point
directly after a mantissa and `e`.  Both kinds of word are `Quiet`.

* `quiet_of_literal`: every token that reads as a literal is quiet.
* `pointsFrom_quiet`: a scan passes a quiet word that starts where no other word ends.
-/

namespace Shading

/-- A word that a scan passes without finding a split point. -/
inductive Quiet : Text → Prop
  /-- No operator characters. -/
  | free {text : Text} (h : ∀ c ∈ text, Symbol.isSymbolChar c = false) : Quiet text
  /-- A mantissa, the letter of the exponent, its sign, and no further operator character. -/
  | exponent {mantissa tail : Text} {letter sign : Char}
      (hmantissa : FloatNumeral.isMantissa mantissa = true)
      (hword : ∀ c ∈ mantissa, Occurrence.isWordChar c = true)
      (hfree : ∀ c ∈ mantissa, Symbol.isSymbolChar c = false)
      (hletter : letter = 'e' ∨ letter = 'E') (hsign : sign = '+' ∨ sign = '-')
      (hne : tail ≠ []) (htail : ∀ c ∈ tail, Symbol.isSymbolChar c = false) :
      Quiet (mantissa ++ letter :: sign :: tail)

/-! ## Characters of numbers -/

theorem isSymbolChar_of_isDigit {c : Char} (h : isDigit c = true) :
    Symbol.isSymbolChar c = false :=
  Symbol.isSymbolChar_eq_false (by decide) h

theorem isSymbolChar_of_isHexDigit {c : Char} (h : isHexDigit c = true) :
    Symbol.isSymbolChar c = false :=
  Symbol.isSymbolChar_eq_false (by decide) h

theorem isWordChar_of_isDigit {c : Char} (h : isDigit c = true) :
    Occurrence.isWordChar c = true := by
  simp [Occurrence.isWordChar, h]

theorem isDigit_of_mem_takeWhile {c : Char} {text : Text} (h : c ∈ text.takeWhile isDigit) :
    isDigit c = true :=
  List.all_eq_true.mp List.all_takeWhile c h

/-- A run of digits ends where no digit follows. -/
theorem span_digits {digits rest : Text} (hdigits : ∀ c ∈ digits, isDigit c = true)
    (hrest : ∀ c ∈ rest.head?, isDigit c = false) :
    (digits ++ rest).takeWhile isDigit = digits ∧ (digits ++ rest).dropWhile isDigit = rest := by
  have hstops : rest.takeWhile isDigit = [] ∧ rest.dropWhile isDigit = rest := by
    cases rest with
    | nil => exact ⟨rfl, rfl⟩
    | cons c more => simp [hrest c rfl]
  rw [List.takeWhile_append_of_pos hdigits, List.dropWhile_append_of_pos hdigits, hstops.1,
    hstops.2, List.append_nil]
  exact ⟨rfl, rfl⟩

/-! ## Mantissas -/

namespace FloatNumeral

/-- The characters of a mantissa: digits and points. -/
def isMantissaChar (c : Char) : Bool :=
  isDigit c || c == '.'

/-- Digits are a mantissa, up to what is neither a digit nor a point. -/
theorem readMantissa?_digits {digits rest : Text} (hne : digits ≠ [])
    (hdigits : ∀ c ∈ digits, isDigit c = true)
    (hrest : ∀ c ∈ rest.head?, isMantissaChar c = false) :
    readMantissa? (digits ++ rest) = some (digits, [], rest) := by
  have hdigit : ∀ c ∈ rest.head?, isDigit c = false :=
    fun c hc => (Bool.or_eq_false_iff.mp (hrest c hc)).1
  obtain ⟨htake, hdrop⟩ := span_digits hdigits hdigit
  rw [readMantissa?, htake, hdrop]
  split
  next more => exact absurd (hrest '.' rfl) (by decide)
  next => simp [hne]

/-- Digits on either side of a point are a mantissa, up to what is no digit. -/
theorem readMantissa?_point {whole fraction rest : Text} (hne : ¬ (whole = [] ∧ fraction = []))
    (hwhole : ∀ c ∈ whole, isDigit c = true) (hfraction : ∀ c ∈ fraction, isDigit c = true)
    (hrest : ∀ c ∈ rest.head?, isDigit c = false) :
    readMantissa? (whole ++ '.' :: (fraction ++ rest)) = some (whole, fraction, rest) := by
  have hpoint : ∀ c ∈ ('.' :: (fraction ++ rest)).head?, isDigit c = false := by
    simpa using (by decide : isDigit '.' = false)
  obtain ⟨htake, hdrop⟩ := span_digits hwhole hpoint
  obtain ⟨htake', hdrop'⟩ := span_digits hfraction hrest
  rw [readMantissa?, htake, hdrop]
  simp [htake', hdrop', hne]

theorem isMantissa_of_digits {digits : Text} (hne : digits ≠ [])
    (hdigits : ∀ c ∈ digits, isDigit c = true) : isMantissa digits = true := by
  have hread : readMantissa? (digits ++ []) = _ := readMantissa?_digits hne hdigits (by simp)
  rw [List.append_nil] at hread
  simp [isMantissa, hread]

theorem isMantissa_of_point {whole fraction : Text} (hne : ¬ (whole = [] ∧ fraction = []))
    (hwhole : ∀ c ∈ whole, isDigit c = true) (hfraction : ∀ c ∈ fraction, isDigit c = true) :
    isMantissa (whole ++ '.' :: fraction) = true := by
  have hread : readMantissa? (whole ++ '.' :: (fraction ++ [])) = _ :=
    readMantissa?_point hne hwhole hfraction (by simp)
  rw [List.append_nil] at hread
  simp [isMantissa, hread]

/-- What is read as a mantissa: digits, or digits on either side of a point. -/
theorem readMantissa?_cases {text whole fraction rest : Text}
    (h : readMantissa? text = some (whole, fraction, rest)) :
    (∀ c ∈ whole, isDigit c = true) ∧ (∀ c ∈ fraction, isDigit c = true) ∧
      ((text = whole ++ rest ∧ whole ≠ []) ∨
        (text = whole ++ '.' :: (fraction ++ rest) ∧ ¬ (whole = [] ∧ fraction = []))) := by
  have hsplit : text.takeWhile isDigit ++ text.dropWhile isDigit = text :=
    List.takeWhile_append_dropWhile ..
  have hdigits : ∀ {part : Text}, ∀ c ∈ part.takeWhile isDigit, isDigit c = true :=
    fun c hc => isDigit_of_mem_takeWhile hc
  unfold readMantissa? at h
  split at h
  next after hafter =>
    dsimp only at h
    split at h
    · simp at h
    next hne =>
      simp only [Option.some.injEq, Prod.mk.injEq] at h
      obtain ⟨rfl, rfl, rfl⟩ := h
      refine ⟨hdigits, hdigits, .inr ⟨?_, by simpa using hne⟩⟩
      rw [List.takeWhile_append_dropWhile, ← hafter, hsplit]
  next after hafter =>
    dsimp only at h
    split at h
    · simp at h
    next hne =>
      simp only [Option.some.injEq, Prod.mk.injEq] at h
      obtain ⟨rfl, rfl, rfl⟩ := h
      exact ⟨hdigits, by simp, .inl ⟨hsplit.symm, by simpa using hne⟩⟩

/-- What is read as a mantissa is one on its own, and is a run of digits and points. -/
theorem readMantissa?_spec {text whole fraction rest : Text}
    (h : readMantissa? text = some (whole, fraction, rest)) :
    ∃ mantissa, text = mantissa ++ rest ∧ isMantissa mantissa = true ∧
      ∀ c ∈ mantissa, isMantissaChar c = true := by
  obtain ⟨hwhole, hfraction, ⟨rfl, hne⟩ | ⟨rfl, hne⟩⟩ := readMantissa?_cases h
  · refine ⟨whole, rfl, isMantissa_of_digits hne hwhole, fun c hc => ?_⟩
    simp [isMantissaChar, hwhole c hc]
  · refine ⟨whole ++ '.' :: fraction, by simp, isMantissa_of_point hne hwhole hfraction, ?_⟩
    intro c hc
    rcases List.mem_append.mp hc with hc | hc
    · simp [isMantissaChar, hwhole c hc]
    · rcases List.mem_cons.mp hc with rfl | hc
      · decide
      · simp [isMantissaChar, hfraction c hc]

theorem isWordChar_of_isMantissaChar {c : Char} (h : isMantissaChar c = true) :
    Occurrence.isWordChar c = true := by
  rcases Bool.or_eq_true _ _ |>.mp h with h | h
  · exact isWordChar_of_isDigit h
  · simp [Occurrence.isWordChar, h]

theorem isSymbolChar_of_isMantissaChar {c : Char} (h : isMantissaChar c = true) :
    Symbol.isSymbolChar c = false :=
  Symbol.isSymbolChar_eq_false (by decide) h

/-! ## Exponents -/

theorem isSymbolChar_of_isSuffix {text : Text} (h : isSuffix text = true) :
    ∀ c ∈ text, Symbol.isSymbolChar c = false := by
  simp only [isSuffix, Bool.or_eq_true, beq_iff_eq] at h
  rcases h with (((rfl | rfl) | rfl) | rfl) | rfl <;> decide

/-- Digits at the front of a text, as an exponent takes them. -/
theorem exists_digits {α : Type} {text rest : Text} {a b : α}
    (h : (if (text.takeWhile isDigit).isEmpty then none
      else some (a, text.dropWhile isDigit)) = some (b, rest)) :
    ∃ digits, text = digits ++ rest ∧ digits ≠ [] ∧ ∀ c ∈ digits, isDigit c = true := by
  split at h
  · simp at h
  next hne =>
    simp only [Option.some.injEq, Prod.mk.injEq] at h
    obtain ⟨-, rfl⟩ := h
    exact ⟨text.takeWhile isDigit, List.takeWhile_append_dropWhile.symm, by simpa using hne,
      fun _ hc => isDigit_of_mem_takeWhile hc⟩

/-- An exponent is an optional sign and digits. -/
theorem readSigned?_spec {text rest : Text} {value : Int}
    (h : readSigned? text = some (value, rest)) :
    ∃ sign digits, text = sign ++ (digits ++ rest) ∧
      (sign = [] ∨ sign = ['+'] ∨ sign = ['-']) ∧ digits ≠ [] ∧
      ∀ c ∈ digits, isDigit c = true := by
  unfold readSigned? at h
  split at h
  next isNegative body hbody =>
    obtain ⟨digits, rfl, hne, hall⟩ := exists_digits h
    split at hbody
    · obtain ⟨-, rfl⟩ := Prod.mk.inj hbody
      exact ⟨['+'], digits, rfl, by simp, hne, hall⟩
    · obtain ⟨-, rfl⟩ := Prod.mk.inj hbody
      exact ⟨['-'], digits, rfl, by simp, hne, hall⟩
    · obtain ⟨-, rfl⟩ := Prod.mk.inj hbody
      exact ⟨[], digits, rfl, by simp, hne, hall⟩

theorem readExponent?_spec {text rest : Text} {value : Int}
    (h : readExponent? text = some (value, rest)) :
    text = rest ∨ ∃ letter sign digits, text = letter :: (sign ++ (digits ++ rest)) ∧
      (letter = 'e' ∨ letter = 'E') ∧ (sign = [] ∨ sign = ['+'] ∨ sign = ['-']) ∧
      digits ≠ [] ∧ ∀ c ∈ digits, isDigit c = true := by
  unfold readExponent? at h
  split at h
  · obtain ⟨sign, digits, rfl, hspec⟩ := readSigned?_spec h
    exact Or.inr ⟨'e', sign, digits, rfl, Or.inl rfl, hspec⟩
  · obtain ⟨sign, digits, rfl, hspec⟩ := readSigned?_spec h
    exact Or.inr ⟨'E', sign, digits, rfl, Or.inr rfl, hspec⟩
  · simp only [Option.some.injEq, Prod.mk.injEq] at h
    exact Or.inl h.2

/-- A float is a quiet word. -/
theorem quiet_of_read? {token : Text} {numeral : FloatNumeral}
    (h : read? token = some numeral) : Quiet token := by
  unfold read? at h
  split at h
  · simp at h
  next whole fraction after hread =>
    split at h
    · simp at h
    next exponent suffix hexponent =>
      split at h
      next hsuffix =>
        obtain ⟨mantissa, rfl, hmantissa, hchars⟩ := readMantissa?_spec hread
        have hfree : ∀ c ∈ mantissa, Symbol.isSymbolChar c = false :=
          fun c hc => isSymbolChar_of_isMantissaChar (hchars c hc)
        have hsuffixFree := isSymbolChar_of_isSuffix hsuffix
        rcases readExponent?_spec hexponent with
          rfl | ⟨letter, sign, digits, rfl, hletter, hsign, hne, hdigits⟩
        · refine .free fun c hc => ?_
          rcases List.mem_append.mp hc with hc | hc
          · exact hfree c hc
          · exact hsuffixFree c hc
        have htail : ∀ c ∈ digits ++ suffix, Symbol.isSymbolChar c = false := by
          intro c hc
          rcases List.mem_append.mp hc with hc | hc
          · exact isSymbolChar_of_isDigit (hdigits c hc)
          · exact hsuffixFree c hc
        have hsigned : ∀ mark, mark = '+' ∨ mark = '-' →
            Quiet (mantissa ++ letter :: ([mark] ++ (digits ++ suffix))) := fun mark hmark =>
          .exponent hmantissa (fun c hc => isWordChar_of_isMantissaChar (hchars c hc)) hfree
            hletter hmark (by simp [hne]) htail
        -- Without a sign in the exponent there is no operator character in the word.
        rcases hsign with rfl | rfl | rfl
        · refine .free fun c hc => ?_
          rcases List.mem_append.mp hc with hc | hc
          · exact hfree c hc
          rcases List.mem_cons.mp hc with rfl | hc
          · rcases hletter with rfl | rfl <;> decide
          · exact htail c hc
        · exact hsigned '+' (Or.inl rfl)
        · exact hsigned '-' (Or.inr rfl)
      · simp at h

end FloatNumeral

/-! ## Integers and literals -/

theorem IntegerNumeral.isSymbolChar_of_readDigits? {text digits : Text} {radix : Radix}
    (h : readDigits? text = some (radix, digits)) :
    ∀ c ∈ text, Symbol.isSymbolChar c = false := by
  unfold readDigits? at h
  split at h
  next hdigits =>
    simp only [isDigits, Bool.and_eq_true, List.all_eq_true] at hdigits
    exact fun c hc => isSymbolChar_of_isDigit (hdigits.2 c hc)
  split at h
  next mark rest =>
    split at h
    next hhex =>
      simp only [isHexDigits, Bool.and_eq_true, List.all_eq_true, Bool.or_eq_true,
        beq_iff_eq] at hhex
      intro c hc
      rcases List.mem_cons.mp hc with rfl | hc
      · decide
      rcases List.mem_cons.mp hc with rfl | hc
      · rcases hhex.1 with rfl | rfl <;> decide
      · exact isSymbolChar_of_isHexDigit (hhex.2.2 c hc)
    · simp at h
  · simp at h

/-- An integer has no operator characters. -/
theorem IntegerNumeral.quiet_of_read? {token : Text} {numeral : IntegerNumeral}
    (h : read? token = some numeral) : Quiet token := by
  simp only [read?, Option.map_eq_some_iff, Prod.exists] at h
  obtain ⟨radix, digits, hdigits, -⟩ := h
  have hfree := isSymbolChar_of_readDigits? hdigits
  refine .free fun c hc => ?_
  by_cases hmarked : isMarked token = true
  · rw [if_pos hmarked] at hfree
    obtain ⟨front, mark, rfl⟩ := List.eq_nil_or_concat token |>.resolve_left (List.ne_nil_of_mem hc)
    simp only [isMarked, List.concat_eq_append, List.getLast?_concat, Bool.or_eq_true,
      beq_iff_eq, Option.some.injEq] at hmarked
    simp only [List.concat_eq_append, List.dropLast_concat, List.mem_append,
      List.mem_singleton] at hfree hc
    rcases hc with hc | rfl
    · exact hfree c hc
    · rcases hmarked with rfl | rfl <;> decide
  · rw [if_neg hmarked] at hfree
    exact hfree c hc

/-- A literal is a quiet word. -/
theorem quiet_of_literal {token : Text} (h : (Literal.ofToken? token).isSome = true) :
    Quiet token := by
  unfold Literal.ofToken? at h
  split at h
  next htrue => exact .free (by rw [htrue]; decide)
  split at h
  next hfalse => exact .free (by rw [hfalse]; decide)
  split at h
  next numeral hread => exact IntegerNumeral.quiet_of_read? hread
  next =>
    rw [Option.isSome_map] at h
    obtain ⟨numeral, hread⟩ := Option.isSome_iff_exists.mp h
    exact FloatNumeral.quiet_of_read? hread

/-! ## Passing a quiet word -/

theorem Quiet.isSymbolChar_getLast {word : Text} (h : Quiet word) :
    ∀ c ∈ word.getLast?, Symbol.isSymbolChar c = false := by
  cases h with
  | free hfree => exact fun c hc => hfree c (List.mem_of_getLast? hc)
  | @exponent mantissa tail letter sign _ _ _ _ _ hne htail =>
      obtain ⟨front, last, rfl⟩ := List.eq_nil_or_concat tail |>.resolve_left hne
      have hlast : (mantissa ++ letter :: sign :: front.concat last).getLast? = some last := by
        rw [show mantissa ++ letter :: sign :: front.concat last =
          (mantissa ++ letter :: sign :: front) ++ [last] by simp, List.getLast?_concat]
      intro c hc
      rw [hlast] at hc
      obtain rfl : last = c := by simpa using hc
      exact htail last (by simp)

theorem Quiet.isSymbolChar_head {word : Text} (h : Quiet word) :
    ∀ c ∈ word.head?, Symbol.isSymbolChar c = false := by
  cases h with
  | free hfree => exact fun c hc => hfree c (List.mem_of_mem_head? hc)
  | @exponent mantissa tail letter sign hmantissa _ hfree _ _ _ _ =>
      cases mantissa with
      | nil => exact absurd hmantissa (by decide)
      | cons d rest =>
          intro c hc
          obtain rfl : d = c := by simpa using hc
          exact hfree d (List.mem_cons_self ..)

namespace Occurrence

theorem endsInExponent_cons {mantissa behind : Text} {letter : Char}
    (hmantissa : FloatNumeral.isMantissa mantissa = true)
    (hword : ∀ c ∈ mantissa, isWordChar c = true)
    (hletter : letter = 'e' ∨ letter = 'E')
    (hbehind : ∀ c ∈ behind.head?, isWordChar c = false) :
    endsInExponent (letter :: (mantissa.reverse ++ behind)) = true := by
  have hnone : behind.takeWhile isWordChar = [] := by
    cases behind with
    | nil => rfl
    | cons c rest => simp [hbehind c rfl]
  have hrun : (mantissa.reverse ++ behind).takeWhile isWordChar = mantissa.reverse := by
    rw [List.takeWhile_append_of_pos (by simpa using hword), hnone, List.append_nil]
  rw [endsInExponent, hrun, List.reverse_reverse, hmantissa, Bool.and_true]
  rcases hletter with rfl | rfl <;> decide

/-- The sign of an exponent is no split point. -/
theorem pointsFrom_sign {sign : Char} (hsign : sign = '+' ∨ sign = '-') {behind rest : Text}
    (hbehind : endsInExponent behind = true)
    (hrest : ∀ c ∈ rest.head?, Symbol.isSymbolChar c = false) :
    pointsFrom behind (sign :: rest) = pointsFrom (sign :: behind) rest := by
  have hpass : ∀ symbol ∈ Symbol.table, symbol.text = [sign] → symbol.isSign = true →
      pointsFrom behind (sign :: rest) = pointsFrom (sign :: behind) rest := by
    intro symbol hsymbol htext hmark
    have h := pointsFrom_symbol hsymbol hrest behind
    rw [if_neg (by simp [isSplitPoint, hmark, hbehind]), htext] at h
    exact h
  rcases hsign with rfl | rfl
  · exact hpass ⟨['+'], .additive, .between .add⟩ (by decide) rfl (by decide)
  · exact hpass ⟨['-'], .subtractive, .betweenOrBefore .subtract .negate⟩ (by decide) rfl
      (by decide)

/-- A scan passes a quiet word, if no other word reaches up to it. -/
theorem pointsFrom_quiet {word : Text} (hword : Quiet word) {behind : Text}
    (hbehind : ∀ c ∈ behind.head?, isWordChar c = false) (rest : Text) :
    pointsFrom behind (word ++ rest) = pointsFrom (word.reverse ++ behind) rest := by
  cases hword with
  | free hfree => exact pointsFrom_append hfree behind rest
  | @exponent mantissa tail letter sign hmantissa hchars hfree hletter hsign hne htail =>
      have hletterFree : Symbol.isSymbolChar letter = false := by
        rcases hletter with rfl | rfl <;> decide
      have hafter : ∀ c ∈ (tail ++ rest).head?, Symbol.isSymbolChar c = false := by
        obtain ⟨d, more, rfl⟩ := List.exists_cons_of_ne_nil hne
        intro c hc
        obtain rfl : d = c := by simpa using hc
        exact htail d (List.mem_cons_self ..)
      have hends := endsInExponent_cons hmantissa hchars hletter hbehind
      rw [List.append_assoc, List.cons_append, List.cons_append, pointsFrom_append hfree,
        pointsFrom_cons hletterFree, pointsFrom_sign hsign hends hafter, pointsFrom_append htail]
      simp

end Occurrence

end Shading
