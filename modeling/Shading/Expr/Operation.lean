/-!
# Operations

The operations an expression can apply, and how many operands each takes.
-/

namespace Shading

/-- The kinds of operation. -/
inductive Operation where
  | add
  | subtract
  | multiply
  | divide
  | negate
  | not
  | equalTo
  | notEqualTo
  | greaterThan
  | greaterThanOrEqualTo
  | lessThan
  | lessThanOrEqualTo
  | and
  | or
  | bitwiseAnd
  | bitwiseOr
  | shiftLeftLogical
  | shiftRightLogical
  deriving DecidableEq, Repr

namespace Operation

/-- All operations. -/
def all : List Operation :=
  [.add, .subtract, .multiply, .divide, .negate, .not, .equalTo, .notEqualTo, .greaterThan,
    .greaterThanOrEqualTo, .lessThan, .lessThanOrEqualTo, .and, .or, .bitwiseAnd, .bitwiseOr,
    .shiftLeftLogical, .shiftRightLogical]

/-- The operations on one operand. -/
def isUnary : Operation → Bool
  | .negate | .not => true
  | _ => false

/-- The number of operands an operation takes. -/
def arity (operation : Operation) : Nat :=
  if operation.isUnary then 1 else 2

/-- The name under which inspection text shows an operation. -/
def name : Operation → String
  | .add => "Add"
  | .subtract => "Subtract"
  | .multiply => "Multiply"
  | .divide => "Divide"
  | .negate => "Negate"
  | .not => "Not"
  | .equalTo => "EqualTo"
  | .notEqualTo => "NotEqualTo"
  | .greaterThan => "GreaterThan"
  | .greaterThanOrEqualTo => "GreaterThanOrEqualTo"
  | .lessThan => "LessThan"
  | .lessThanOrEqualTo => "LessThanOrEqualTo"
  | .and => "And"
  | .or => "Or"
  | .bitwiseAnd => "BitwiseAnd"
  | .bitwiseOr => "BitwiseOr"
  | .shiftLeftLogical => "ShiftLeftLogical"
  | .shiftRightLogical => "ShiftRightLogical"

end Operation

end Shading
