/-!
# Binary64 numbers

Floating literals are binary64 numbers, kept as their 64 bits.  Everything about
them is computed exactly on natural numbers: every finite magnitude is a whole
number of *units* of `2 ^ (-1074)`, and an operation takes its exact result to
the nearest magnitude, a tie to the even one, and what is too large to infinity.
-/

namespace Shading

/-- A binary64 number, by its bits: sign, eleven of exponent, fifty-two of fraction. -/
structure Binary64 where
  bits : UInt64
  deriving DecidableEq, Repr

namespace Binary64

/-! ## The fields of a number -/

/-- The weight of the hidden bit of a significand, one more than the largest fraction. -/
def hiddenBit : Nat :=
  Nat.pow 2 52

/-- The number of units in one. -/
def unitsInOne : Nat :=
  Nat.pow 2 1074

/-- The sign bit. -/
def isNegative (x : Binary64) : Bool :=
  Nat.pow 2 63 ≤ x.bits.toNat

/-- The exponent field. -/
def exponentField (x : Binary64) : Nat :=
  x.bits.toNat / hiddenBit % 2048

/-- The fraction field. -/
def fractionField (x : Binary64) : Nat :=
  x.bits.toNat % hiddenBit

/-- Whether the bits denote no number. -/
def isNaN (x : Binary64) : Bool :=
  x.exponentField == 2047 && x.fractionField != 0

/-- Whether the bits denote an infinity. -/
def isInfinite (x : Binary64) : Bool :=
  x.exponentField == 2047 && x.fractionField == 0

/-- Whether the bits denote one of the two zeros. -/
def isZero (x : Binary64) : Bool :=
  x.exponentField == 0 && x.fractionField == 0

/-- The significand as a natural number, with its hidden bit. -/
def significand (x : Binary64) : Nat :=
  if x.exponentField = 0 then x.fractionField else hiddenBit + x.fractionField

/-- The power of two by which the significand counts units. -/
def scale (x : Binary64) : Nat :=
  x.exponentField - 1

/-- The magnitude in units; infinity stands for `2 ^ 1024`, the first magnitude out of reach. -/
def units (x : Binary64) : Nat :=
  x.significand * Nat.pow 2 x.scale

/-- Equality of numbers: the two zeros are equal, and what is no number equals nothing. -/
def equal (x y : Binary64) : Bool :=
  !x.isNaN && !y.isNaN && (x.bits == y.bits || (x.isZero && y.isZero))

/-! ## Rounding -/

/-- The natural number nearest to `num / den`, a tie going to the even one. -/
def nearestEven (num den : Nat) : Nat :=
  let quotient := num / den
  let twice := 2 * (num % den)
  if den < twice ∨ (den = twice ∧ quotient % 2 = 1) then quotient + 1 else quotient

/-- The bits of positive infinity. -/
def infinityBits : Nat :=
  2047 * hiddenBit

/-- The bits of the magnitude nearest to `num / den` units.  A value of at least
`2 ^ 53` units keeps its fifty-three leading bits, and the exponent field counts
the bits it drops, so that rounding up to the next power of two carries into it. -/
def nearestBits (num den : Nat) : Nat :=
  let dropped := (num / den).log2 - 52
  min (dropped * hiddenBit + nearestEven num (den * Nat.pow 2 dropped)) infinityBits

/-- The number nearest to `num / den` units. -/
def ofUnits (num den : Nat) : Binary64 :=
  ⟨UInt64.ofNat (nearestBits num den)⟩

/-- The number nearest to a natural number. -/
def ofNat (n : Nat) : Binary64 :=
  ofUnits (n * unitsInOne) 1

/-- The number with the opposite sign. -/
def neg (x : Binary64) : Binary64 :=
  ⟨x.bits ^^^ 0x8000000000000000⟩

/-- The number nearest to an integer. -/
def ofInt : Int → Binary64
  | .ofNat n => ofNat n
  | .negSucc n => neg (ofNat (n + 1))

/-- The sum of two magnitudes, rounded once. -/
def add (x y : Binary64) : Binary64 :=
  ofUnits (x.units + y.units) 1

/-- The product of two magnitudes, rounded once. -/
def mul (x y : Binary64) : Binary64 :=
  ofUnits (x.units * y.units) unitsInOne

/-- The number nearest to `digits * 10 ^ exponent`.  A positive value of more than
`10 ^ 400` is out of reach and one below `10 ^ (-400)` rounds to zero, so no large
power is computed for them. -/
def ofDecimal (digits : Nat) (exponent : Int) : Binary64 :=
  if digits = 0 then ofUnits 0 1
  else if 400 < exponent then ⟨UInt64.ofNat infinityBits⟩
  else if exponent + digits.log2 < -401 then ofUnits 0 1
  else ofUnits (digits * Nat.pow 10 exponent.toNat * unitsInOne) (Nat.pow 10 (-exponent).toNat)

end Binary64

end Shading
