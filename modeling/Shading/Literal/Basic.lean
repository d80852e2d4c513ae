import Shading.Literal.Numeral
import Shading.Binary64.Basic

/-!
# Literals

A literal is a truth value or a number written directly in the source.  An integer
that does not fit sixty-four bits, or the signed half of them when it is not marked
unsigned, is kept as a float.
-/

namespace Shading

/-- A value written directly in the source. -/
inductive Literal where
  | bool (value : Bool)
  | int (value : Int)
  | uint (value : Nat)
  | float (value : Binary64)
  deriving DecidableEq, Repr

namespace Literal

/-- Reads hexadecimal digits from the left in floating arithmetic, rounding at every digit. -/
def foldHex (digits : Text) : Binary64 :=
  digits.foldl (fun x c => (x.mul (.ofNat 16)).add (.ofNat (digitValue c))) (.ofNat 0)

/-- The least number that sixty-four bits cannot hold. -/
def unsignedBound : Nat :=
  Nat.pow 2 64

/-- The least number that sixty-four signed bits cannot hold. -/
def signedBound : Nat :=
  Nat.pow 2 63

/-- The literal of an integer as written. -/
def ofInteger (numeral : IntegerNumeral) : Literal :=
  let n := numeral.value
  if n < unsignedBound then
    if numeral.isUnsigned then .uint n
    else if n < signedBound then .int n
    else .float (.ofNat n)
  else
    match numeral.radix with
    | .decimal => .float (.ofNat n)
    | .hexadecimal => .float (foldHex numeral.digits)

/-- Reads one token as a literal, if it is one. -/
def ofToken? (token : Text) : Option Literal :=
  if token = "true".toList then some (.bool true)
  else if token = "false".toList then some (.bool false)
  else
    match IntegerNumeral.read? token with
    | some numeral => some (ofInteger numeral)
    | none =>
        (FloatNumeral.read? token).map fun numeral =>
          .float (.ofDecimal numeral.digits numeral.scale)

/-- The number nearest to a literal; a truth value has none. -/
def toBinary64? : Literal → Option Binary64
  | .bool _ => none
  | .int value => some (.ofInt value)
  | .uint value => some (.ofNat value)
  | .float value => some value

/-- Equality of literals as values: of one kind, and floats equal as numbers. -/
def equal : Literal → Literal → Bool
  | .bool a, .bool b => a == b
  | .int a, .int b => a == b
  | .uint a, .uint b => a == b
  | .float a, .float b => a.equal b
  | _, _ => false

end Literal

end Shading
