import Shading.Expr.Inspect
import Shading.Statement.Item

/-!
# Events

What a run reports on its way, as data.  An event becomes a line of text only when it is
shown; the variables in it are shown by their labels, which never change, so it does not
matter when that is.
-/

namespace Shading

/-- How much an event matters. -/
inductive Severity where
  | trace
  | debug
  | warn
  deriving DecidableEq, Repr

/-- The name of a severity. -/
def Severity.name : Severity → String
  | .trace => "TRACE"
  | .debug => "DEBUG"
  | .warn => "WARN"

/-- Something worth reporting.  A `fragment` is the text in which `symbol` was found. -/
inductive Event where
  /-- A definition was read. -/
  | defined (name value : Text)
  /-- A directive that is not a definition was dropped. -/
  | ignoredDirective (line : Text)
  /-- A fragment was split at an operator, so many bytes from its start. -/
  | split (fragment symbol : Text) (offset : Nat)
  /-- Items without an operator between them: all but the first were dropped. -/
  | keptFirst (items : List (Item Expr))
  /-- An operand stood to the left of an operator that takes none there. -/
  | droppedLeft (fragment symbol : Text) (left : Expr)
  /-- One operand was missing, and the other became the result. -/
  | missingOperand (fragment symbol : Text) (operand : Expr)
  /-- Both operands were missing. -/
  | noOperands (fragment symbol : Text)
  /-- A statement was resolved. -/
  | resolved (statement : Text) (result : Expr)
  deriving DecidableEq, Repr

namespace Event

/-- How much an event matters. -/
def severity : Event → Severity
  | .defined _ _ => .debug
  | .ignoredDirective _ => .warn
  | .split _ _ _ => .trace
  | .keptFirst _ => .debug
  | .droppedLeft _ _ _ => .warn
  | .missingOperand _ _ _ => .warn
  | .noOperands _ _ => .warn
  | .resolved _ _ => .debug

/-- A text between backticks. -/
def ticked (text : Text) : String :=
  "`" ++ Text.plain text ++ "`"

/-- The text of an item. -/
def inspectItem (look : VariableId → Option Variable.Label) : Item Expr → String
  | .text fragment => "Raw(" ++ Text.quoted fragment ++ ")"
  | .value result => "Resolved(" ++ result.inspect look ++ ")"

/-- The line of text that reports an event. -/
def message (look : VariableId → Option Variable.Label) : Event → String
  | .defined name value => "defined macro " ++ ticked name ++ " as " ++ ticked value
  | .ignoredDirective line => "dropping unsupported directive " ++ ticked line
  | .split fragment symbol offset =>
      "splitting " ++ ticked fragment ++ " at " ++ ticked symbol ++ " (offset " ++
        toString offset ++ ")"
  | .keptFirst items =>
      "no operator between " ++ toString items.length ++ " elements, keeping the first: " ++
        inspectList (items.map (inspectItem look))
  | .droppedLeft fragment symbol left =>
      ticked symbol ++ " takes no left operand, dropping " ++ left.inspect look ++ " in " ++
        ticked fragment
  | .missingOperand fragment symbol operand =>
      ticked symbol ++ " is missing an operand in " ++ ticked fragment ++ ", keeping " ++
        operand.inspect look
  | .noOperands fragment symbol => ticked symbol ++ " has no operands in " ++ ticked fragment
  | .resolved statement result =>
      "resolved " ++ ticked statement ++ " to " ++ result.inspect look

end Event

end Shading
