import Shading.Text.Basic

/-!
# Numerals

The two written forms of numbers.  An `IntegerNumeral` is a run of decimal digits, or
`0x` and a run of hexadecimal ones, with an optional mark of being unsigned.  A
`FloatNumeral` is a mantissa with an optional exponent and an optional suffix that does
not change its value.
-/

namespace Shading

/-! ## Digits -/

/-- A decimal digit. -/
def isDigit (c : Char) : Bool :=
  '0' ≤ c && c ≤ '9'

/-- A hexadecimal digit of either case. -/
def isHexDigit (c : Char) : Bool :=
  isDigit c || ('a' ≤ c && c ≤ 'f') || ('A' ≤ c && c ≤ 'F')

/-- The value of a decimal or hexadecimal digit. -/
def digitValue (c : Char) : Nat :=
  if isDigit c then c.toNat - '0'.toNat
  else if 'a' ≤ c then c.toNat - 'a'.toNat + 10
  else c.toNat - 'A'.toNat + 10

/-- The number that a run of digits denotes in a base. -/
def digitsValue (base : Nat) (digits : Text) : Nat :=
  digits.foldl (fun n c => n * base + digitValue c) 0

/-- A nonempty run of decimal digits. -/
def isDigits (text : Text) : Bool :=
  !text.isEmpty && text.all isDigit

/-- A nonempty run of hexadecimal digits. -/
def isHexDigits (text : Text) : Bool :=
  !text.isEmpty && text.all isHexDigit

/-! ## Integers -/

/-- The base an integer is written in. -/
inductive Radix where
  | decimal
  | hexadecimal
  deriving DecidableEq, Repr

/-- An integer as written: its digits without `0x`, and whether `u` or `U` follows them. -/
structure IntegerNumeral where
  radix : Radix
  digits : Text
  isUnsigned : Bool
  deriving DecidableEq, Repr

namespace IntegerNumeral

/-- The digits of an unmarked integer. -/
def readDigits? (text : Text) : Option (Radix × Text) :=
  if isDigits text then some (.decimal, text)
  else
    match text with
    | '0' :: mark :: digits =>
        if (mark == 'x' || mark == 'X') && isHexDigits digits then some (.hexadecimal, digits)
        else none
    | _ => none

/-- Whether a token ends in the mark of unsigned integers. -/
def isMarked (token : Text) : Bool :=
  token.getLast? == some 'u' || token.getLast? == some 'U'

/-- Reads a whole token as an integer. -/
def read? (token : Text) : Option IntegerNumeral :=
  let marked := isMarked token
  (readDigits? (if marked then token.dropLast else token)).map fun (radix, digits) =>
    ⟨radix, digits, marked⟩

/-- The number that an integer denotes. -/
def value (numeral : IntegerNumeral) : Nat :=
  match numeral.radix with
  | .decimal => digitsValue 10 numeral.digits
  | .hexadecimal => digitsValue 16 numeral.digits

end IntegerNumeral

/-! ## Floats -/

/-- A float as written: the digits on either side of the point, and the exponent. -/
structure FloatNumeral where
  whole : Text
  fraction : Text
  exponent : Int
  deriving DecidableEq, Repr

namespace FloatNumeral

/-- Reads a mantissa from the front of a text: digits, digits with a point and possibly
more digits, or a point and digits.  Gives both runs of digits and the rest. -/
def readMantissa? (text : Text) : Option (Text × Text × Text) :=
  let whole := text.takeWhile isDigit
  match text.dropWhile isDigit with
  | '.' :: rest =>
      let fraction := rest.takeWhile isDigit
      if whole.isEmpty && fraction.isEmpty then none
      else some (whole, fraction, rest.dropWhile isDigit)
  | rest => if whole.isEmpty then none else some (whole, [], rest)

/-- Whether a whole text is a mantissa. -/
def isMantissa (text : Text) : Bool :=
  match readMantissa? text with
  | some (_, _, rest) => rest.isEmpty
  | none => false

/-- The size at which an exponent is complete, whatever digits follow. -/
def exponentBound : Nat :=
  65536

/-- The number that the digits of an exponent denote.  Once it has reached the bound, the
digits that follow are passed over. -/
def exponentValue (digits : Text) : Nat :=
  digits.foldl (fun n c => if n < exponentBound then n * 10 + digitValue c else n) 0

/-- Reads an exponent's sign, digits and what follows them, after the `e`. -/
def readSigned? (text : Text) : Option (Int × Text) :=
  let (isNegative, rest) : Bool × Text :=
    match text with
    | '+' :: rest => (false, rest)
    | '-' :: rest => (true, rest)
    | rest => (false, rest)
  let digits := rest.takeWhile isDigit
  if digits.isEmpty then none
  else
    let magnitude : Int := exponentValue digits
    some (if isNegative then -magnitude else magnitude, rest.dropWhile isDigit)

/-- Reads an optional exponent; without `e` or `E` the exponent is zero. -/
def readExponent? (text : Text) : Option (Int × Text) :=
  match text with
  | 'e' :: rest => readSigned? rest
  | 'E' :: rest => readSigned? rest
  | rest => some (0, rest)

/-- The suffixes that may end a float. -/
def isSuffix (text : Text) : Bool :=
  text == [] || text == ['f'] || text == ['F'] || text == ['l', 'f'] || text == ['L', 'F']

/-- Reads a whole token as a float. -/
def read? (token : Text) : Option FloatNumeral :=
  match readMantissa? token with
  | none => none
  | some (whole, fraction, afterMantissa) =>
      match readExponent? afterMantissa with
      | none => none
      | some (exponent, suffix) =>
          if isSuffix suffix then some ⟨whole, fraction, exponent⟩ else none

/-- All digits of the mantissa as one number. -/
def digits (numeral : FloatNumeral) : Nat :=
  digitsValue 10 (numeral.whole ++ numeral.fraction)

/-- The power of ten by which `digits` counts. -/
def scale (numeral : FloatNumeral) : Int :=
  numeral.exponent - numeral.fraction.length

end FloatNumeral

end Shading
