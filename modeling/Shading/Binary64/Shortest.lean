import Shading.Text.Basic
import Shading.Binary64.Basic

/-!
# The shortest decimal of a number

A number is shown with the fewest digits that read back as the same number, the
nearest such decimal if there are several, and the larger of two that are equally
near.  Magnitudes from `10 ^ (-4)` up to but not including `10 ^ 16` are written
positionally with at least one digit after the point, the others with an exponent.
-/

namespace Shading.Binary64

/-- The decimal `digits * 10 ^ exponent`. -/
structure Decimal where
  digits : Nat
  exponent : Int
  deriving DecidableEq, Repr

/-! ## Exact comparison -/

/-- Compares a decimal with `quarters * 2 ^ (-1076)`, a count of quarter units. -/
def Decimal.compare (d : Decimal) (quarters : Nat) : Ordering :=
  Ord.compare (d.digits * Nat.pow 10 d.exponent.toNat * (4 * unitsInOne))
    (quarters * Nat.pow 10 (-d.exponent).toNat)

/-- Whether the neighbour below is nearer than the neighbour above. -/
def isNarrowBelow (x : Binary64) : Bool :=
  x.fractionField == 0 && 1 < x.exponentField

/-- Whether a decimal lies among the values that round to the magnitude of `x`: from
halfway to the neighbour below to halfway to the one above, the ends included if the
significand is even. -/
def readsBack (x : Binary64) (d : Decimal) : Bool :=
  let below := (4 * x.significand - if x.isNarrowBelow then 1 else 2) * Nat.pow 2 x.scale
  let above := (4 * x.significand + 2) * Nat.pow 2 x.scale
  let closed := x.significand % 2 == 0
  (d.compare below == .gt || (closed && d.compare below == .eq)) &&
    (d.compare above == .lt || (closed && d.compare above == .eq))

/-! ## Selecting the digits -/

/-- The number of decimal digits of a positive number. -/
def decimalLength (n : Nat) : Nat :=
  (Nat.toDigits 10 n).length

/-- The least `k` such that the magnitude of a nonzero `x` is below `10 ^ k`. -/
def decimalExponent (x : Binary64) : Int :=
  decimalLength (x.units * Nat.pow 10 400 / unitsInOne) - 400

/-- The greatest multiple of `10 ^ exponent` that is not above the magnitude of `x`. -/
def floorAt (x : Binary64) (exponent : Int) : Decimal :=
  ⟨x.units * Nat.pow 10 (-exponent).toNat / (unitsInOne * Nat.pow 10 exponent.toNat), exponent⟩

/-- The best decimal on the grid of `10 ^ exponent`, if one reads back: of the two
neighbours of `x` there the nearer, on a tie the upper. -/
def bestAt? (x : Binary64) (exponent : Int) : Option Decimal :=
  let lower := x.floorAt exponent
  let upper : Decimal := ⟨lower.digits + 1, exponent⟩
  if x.readsBack lower then
    if x.readsBack upper then
      let middle : Decimal := ⟨lower.digits + upper.digits, exponent⟩
      if middle.compare (8 * x.units) == .gt then some lower else some upper
    else some lower
  else if x.readsBack upper then some upper
  else none

/-- The shortest decimal of a finite nonzero magnitude.  Seventeen digits are enough;
the exact value stands behind them. -/
def shortest (x : Binary64) : Decimal :=
  let top := x.decimalExponent
  ((List.range 17).findSome? fun (n : Nat) => x.bestAt? (top - (n + 1))).getD
    ⟨x.units * Nat.pow 5 1074, -1074⟩

/-! ## Layout -/

/-- Lays out the digits of `0.digits * 10 ^ point`, the last digit not being zero. -/
def layout (digits : Text) (point : Int) : Text :=
  if -4 < point ∧ point ≤ 16 then
    if point ≤ 0 then
      '0' :: '.' :: (List.replicate (-point).toNat '0' ++ digits)
    else if point < digits.length then
      digits.take point.toNat ++ '.' :: digits.drop point.toNat
    else
      digits ++ List.replicate (point.toNat - digits.length) '0' ++ ['.', '0']
  else
    let fraction := digits.drop 1
    digits.take 1 ++ (if fraction.isEmpty then [] else '.' :: fraction) ++
      'e' :: (toString (point - 1)).toList

/-- The text of a finite magnitude. -/
def magnitudeText (x : Binary64) : Text :=
  if x.isZero then ['0', '.', '0']
  else
    let decimal := x.shortest
    let digits := Nat.toDigits 10 decimal.digits
    layout (digits.reverse.dropWhile (· == '0')).reverse (digits.length + decimal.exponent)

/-- The text of a number. -/
def text (x : Binary64) : Text :=
  if x.isNaN then ['N', 'a', 'N']
  else
    let magnitude := if x.isInfinite then ['i', 'n', 'f'] else x.magnitudeText
    if x.isNegative then '-' :: magnitude else magnitude

end Shading.Binary64
