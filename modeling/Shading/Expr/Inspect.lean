import Shading.Text.Quoted
import Shading.Binary64.Shortest
import Shading.Variable.Basic

/-!
# Inspection text

How messages show literals, expressions and variables.  Inside an expression a variable
is shown by its label alone, so the text never depends on a value and is finite even for
a variable that refers to itself.  A variable that cannot be looked at, because its
assignment is under way, is shown as borrowed.
-/

namespace Shading

/-- An optional part: `Some` of its text, or `None`. -/
def inspectOption {α : Type} (inspect : α → String) : Option α → String
  | some a => "Some(" ++ inspect a ++ ")"
  | none => "None"

/-- A list of texts between square brackets. -/
def inspectList (items : List String) : String :=
  "[" ++ ", ".intercalate items ++ "]"

/-- The text of a literal: its kind, and its value in parentheses. -/
def Literal.inspect : Literal → String
  | .bool true => "Bool(true)"
  | .bool false => "Bool(false)"
  | .int value => "Int(" ++ toString value ++ ")"
  | .uint value => "UInt(" ++ toString value ++ ")"
  | .float value => "Float(" ++ Text.plain value.text ++ ")"

/-- The text of a variable inside an expression. -/
def Variable.Label.inspect (label : Variable.Label) : String :=
  "Variable \x7b name: " ++ inspectOption Text.quoted label.name ++ ", type: " ++
    label.type.name ++ ", .. \x7d"

namespace Expr

/-- The text of an operation with the texts of its operands. -/
def inspectOperation (operation : Operation) (inputs : List String) : String :=
  "Operation \x7b type_: " ++ operation.name ++ ", inputs: " ++ inspectList inputs ++ " \x7d"

/-- The text of an expression, `look` giving the labels of the variables. -/
def inspect (look : VariableId → Option Variable.Label) : Expr → String
  | .unary operation input => inspectOperation operation [input.inspect look]
  | .binary operation left right =>
      inspectOperation operation [left.inspect look, right.inspect look]
  | .var id =>
      match look id with
      | some label => label.inspect
      | none => "Variable(<borrowed>)"
  | .literal value => value.inspect
  | .name text => "Name(" ++ Text.quoted text ++ ")"

end Expr

namespace Variable

/-- The text of all fields of a variable, given the texts of the last two. -/
def inspectFields (v : Variable) (members value : String) : String :=
  "Variable \x7b name: " ++ inspectOption Text.quoted v.name ++ ", type_: " ++ v.type.name ++
    ", qualifier: " ++ v.qualifier.name ++ ", permission: " ++ v.permission.name ++
    ", members: " ++ members ++ ", value: " ++ value ++ " \x7d"

/-- The text of a variable with all its fields; members have neither members nor a value. -/
def inspect (look : VariableId → Option Label) (v : Variable) : String :=
  let members (list : List Variable) : String :=
    inspectList (list.map fun member => member.inspectFields "None" "None")
  v.inspectFields (inspectOption members v.members) (inspectOption (Expr.inspect look) v.value)

end Variable

end Shading
