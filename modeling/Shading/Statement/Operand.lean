import Shading.Store.Basic

/-!
# Operands

Text without an operator is an operand: a declaration of a new variable, the key of a
variable in scope, a literal, or else a name that nothing binds.
-/

namespace Shading

/-! ## Declarations -/

namespace Declaration

/-- The words for a precision, which a declaration may have and which mean nothing here. -/
def precisions : List Text :=
  ["lowp".toList, "mediump".toList, "highp".toList]

/-- The qualifier at the front of a declaration, and the words after it. -/
def takeQualifier : List Text → Qualifier × List Text
  | [] => (.unqualified, [])
  | word :: rest =>
      match Qualifier.ofKeyword? word with
      | some qualifier => (qualifier, rest)
      | none => (.unqualified, word :: rest)

/-- The words after an optional precision. -/
def dropPrecision : List Text → List Text
  | [] => []
  | word :: rest => if precisions.contains word then rest else word :: rest

/-- Whether a text contains `vec`. -/
def mentionsVec : Text → Bool
  | [] => false
  | c :: rest => ['v', 'e', 'c'].isPrefixOf (c :: rest) || mentionsVec rest

/-- The number of members that a digit allows a vector to have. -/
def arity? : Char → Option Nat
  | '2' => some 2
  | '3' => some 3
  | '4' => some 4
  | _ => none

/-- The shape that a vector keyword names.  Its first letter selects the element type, and
its arity stands three bytes in if that letter is `v`, else four. -/
def vector? : Text → Option Shape
  | [] => none
  | letter :: rest =>
      match Text.dropBytes? (letter :: rest) (if letter = 'v' then 3 else 4) with
      | some (digit :: _) =>
          (arity? digit).map fun arity =>
            .vector (List.replicate arity (ValueType.ofVectorLetter letter))
      | _ => none

/-- The shape that a type keyword names. -/
def shape? (word : Text) : Option Shape :=
  match ValueType.ofKeyword? word with
  | some type => some (.single type)
  | none => if mentionsVec word then vector? word else none

/-- Reads the words of a declaration: a qualifier, a precision, a type and a name, of which
the first two may be missing. -/
def read? (words : List Text) : Option Variable :=
  let (qualifier, afterQualifier) := takeQualifier words
  match dropPrecision afterQualifier with
  | [type, name] => (shape? type).map fun shape => { name := some name, shape, qualifier }
  | _ => none

end Declaration

/-! ## Operands -/

/-- What an operand is: a variable still to be created, or an expression. -/
inductive Operand where
  | fresh (v : Variable)
  | expr (result : Expr)
  deriving DecidableEq, Repr

namespace Operand

/-- Reads a single word. -/
def ofWord (scope : Scope) (word : Text) : Expr :=
  match scope.find? word with
  | some id => .var id
  | none =>
      match Literal.ofToken? word with
      | some literal => .literal literal
      | none => .name word

/-- Reads an operand.  Several words that are no declaration are one unbound name. -/
def read (scope : Scope) (text : Text) : Operand :=
  let trimmed := Text.trim text
  let words := Text.words trimmed
  if 1 < words.length then
    match Declaration.read? words with
    | some v => .fresh v
    | none => .expr (.name trimmed)
  else .expr (ofWord scope trimmed)

end Operand

end Shading
