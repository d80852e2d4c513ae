import Shading.Text.Basic
import Shading.Expr.Operation

/-!
# Operator symbols

The symbols that can split a statement, what each does with its operands, and which of
several comes first as the root: an assignment, then relations, divisions, products,
differences and sums.
-/

namespace Shading

/-- The classes of operators, which decide what becomes the root of a statement. -/
inductive Rank where
  | additive
  | subtractive
  | multiplicative
  | divisive
  | relational
  | assignment
  deriving DecidableEq, Repr

namespace Rank

/-- The position of a class; the highest class in a statement becomes its root. -/
def level : Rank → Nat
  | .additive => 0
  | .subtractive => 1
  | .multiplicative => 2
  | .divisive => 3
  | .relational => 4
  | .assignment => 5

/-- Compares two classes. -/
def compare (a b : Rank) : Ordering :=
  Ord.compare a.level b.level

/-- The name of a class. -/
def name : Rank → String
  | .additive => "Additive"
  | .subtractive => "Subtractive"
  | .multiplicative => "Multiplicative"
  | .divisive => "Divisive"
  | .relational => "Relational"
  | .assignment => "Assignment"

end Rank

/-- What an operator does with its operands. -/
inductive Role where
  /-- Sets the variable on its left to the value on its right. -/
  | assign
  /-- Takes an operand on each side. -/
  | between (operation : Operation)
  /-- Takes an operand on each side, or with none on its left only the one on its right. -/
  | betweenOrBefore (between before : Operation)
  /-- Takes only the operand on its right. -/
  | before (operation : Operation)
  deriving DecidableEq, Repr

/-- An operator symbol. -/
structure Symbol where
  text : Text
  rank : Rank
  role : Role
  deriving DecidableEq, Repr

namespace Symbol

/-- A relation between two operands. -/
def relation (text : String) (operation : Operation) : Symbol :=
  ⟨text.toList, .relational, .between operation⟩

/-- All symbols.  Those of two characters come first, so that they win over their first
character. -/
def table : List Symbol :=
  [relation ">=" .greaterThanOrEqualTo,
   relation "<=" .lessThanOrEqualTo,
   relation "!=" .notEqualTo,
   relation "==" .equalTo,
   relation "||" .or,
   relation "&&" .and,
   relation "<<" .shiftLeftLogical,
   relation ">>" .shiftRightLogical,
   relation "<" .lessThan,
   relation ">" .greaterThan,
   relation "|" .bitwiseOr,
   relation "&" .bitwiseAnd,
   ⟨['!'], .relational, .before .not⟩,
   ⟨['='], .assignment, .assign⟩,
   ⟨['+'], .additive, .between .add⟩,
   ⟨['-'], .subtractive, .betweenOrBefore .subtract .negate⟩,
   ⟨['*'], .multiplicative, .between .multiply⟩,
   ⟨['/'], .divisive, .between .divide⟩]

/-- The longest symbol at the start of a text. -/
def at? (text : Text) : Option Symbol :=
  table.find? fun symbol => symbol.text.isPrefixOf text

/-- The longest symbol that starts so many bytes into a text. -/
def atByte? (text : Text) (offset : Nat) : Option Symbol :=
  (Text.dropBytes? text offset).bind at?

/-- The characters that symbols are made of. -/
def isSymbolChar (c : Char) : Bool :=
  c == '+' || c == '-' || c == '*' || c == '/' || c == '<' || c == '>' || c == '=' ||
    c == '!' || c == '&' || c == '|'

/-- Whether a symbol can do without an operand on its left. -/
def canLead (symbol : Symbol) : Bool :=
  match symbol.role with
  | .betweenOrBefore _ _ => true
  | .before _ => true
  | _ => false

/-- Whether a symbol never takes an operand on its left. -/
def onlyLeads (symbol : Symbol) : Bool :=
  match symbol.role with
  | .before _ => true
  | _ => false

/-- The signs that can be part of an exponent. -/
def isSign (symbol : Symbol) : Bool :=
  symbol.text == ['+'] || symbol.text == ['-']

end Symbol

end Shading
