import Shading.Literal.Basic
import Shading.Expr.Operation

/-!
# Expressions

What a statement resolves to: operations over variables, literals and names that
nothing binds.  A variable stands in an expression by its identity in the store, so
an expression is finite even when a variable is reachable from its own value.
-/

namespace Shading

/-- The identity of a variable: its position in the store. -/
abbrev VariableId := Nat

/-- An expression. -/
inductive Expr where
  | unary (operation : Operation) (input : Expr)
  | binary (operation : Operation) (left right : Expr)
  | var (id : VariableId)
  | literal (value : Literal)
  | name (text : Text)
  deriving DecidableEq, Repr

namespace Expr

/-- The operation at the root. -/
def operation? : Expr → Option Operation
  | .unary operation _ => some operation
  | .binary operation _ _ => some operation
  | _ => none

/-- The operands of the operation at the root, in order. -/
def inputs : Expr → List Expr
  | .unary _ input => [input]
  | .binary _ left right => [left, right]
  | _ => []

/-- The variable that the whole expression refers to. -/
def var? : Expr → Option VariableId
  | .var id => some id
  | _ => none

/-- The literal that is the whole expression. -/
def literal? : Expr → Option Literal
  | .literal value => some value
  | _ => none

/-- The unbound name that is the whole expression. -/
def name? : Expr → Option Text
  | .name text => some text
  | _ => none

/-- Equality of expressions as values: variables by identity, literals by value. -/
def equal : Expr → Expr → Bool
  | .unary f a, .unary g b => f == g && equal a b
  | .binary f a b, .binary g c d => f == g && equal a c && equal b d
  | .var i, .var j => i == j
  | .literal a, .literal b => a.equal b
  | .name a, .name b => a == b
  | _, _ => false

/-- The variables an expression refers to, from left to right. -/
def vars : Expr → List VariableId
  | .unary _ input => input.vars
  | .binary _ left right => left.vars ++ right.vars
  | .var id => [id]
  | .literal _ => []
  | .name _ => []

end Expr

end Shading
