import Shading.Text.Quoted

/-!
# Faults

The ways in which reading a source can fail.  A fault is a cause and the text it was
found in: a directive line, a statement's fragment, or the whole text being cut.
-/

namespace Shading

/-- Why reading failed. -/
inductive Cause where
  /-- A definition without a name or without a value. -/
  | malformedDefinition (directive : Text)
  /-- The left side of an assignment is not a variable. -/
  | notAssignable (target : Text)
  /-- Brackets or operators nest beyond the limit. -/
  | tooDeep (limit : Nat)
  deriving DecidableEq, Repr

namespace Cause

/-- The name of a cause. -/
def name : Cause → String
  | .malformedDefinition _ => "MalformedMacroDirective"
  | .notAssignable _ => "InvalidAssignmentTarget"
  | .tooDeep _ => "RecursionLimitExceeded"

/-- A cause in words. -/
def message : Cause → String
  | .malformedDefinition directive => "malformed macro directive: " ++ Text.quoted directive
  | .notAssignable target => "invalid assignment target: " ++ Text.quoted target
  | .tooDeep limit => "nesting exceeds the recursion limit of " ++ toString limit

/-- A cause with its name and payload. -/
def inspect (cause : Cause) : String :=
  let payload :=
    match cause with
    | .malformedDefinition directive => "directive: " ++ Text.quoted directive
    | .notAssignable target => "target: " ++ Text.quoted target
    | .tooDeep limit => "limit: " ++ toString limit
  cause.name ++ " \x7b " ++ payload ++ " \x7d"

/-- What the author of the source can do about it. -/
def tip? : Cause → Option String
  | .malformedDefinition _ => some "A macro needs both a name and a value: `#define NAME VALUE`"
  | .notAssignable target =>
      some ("`" ++ Text.plain target ++
        "` is not a variable, declare it or add it to the scope")
  | .tooDeep limit =>
      some ("Brackets or operators nest deeper than " ++ toString limit ++
        " levels, raise `max_depth` if this is intended")

/-- The text of an optional tip. -/
def tipText (tip? : Option String) : String :=
  tip?.getD ""

end Cause

/-- A failure: its cause and the text in which it was found. -/
structure Fault where
  cause : Cause
  source : Text
  deriving DecidableEq, Repr

namespace Fault

/-- A fault in words. -/
def message (fault : Fault) : String :=
  fault.cause.message ++ " in `" ++ Text.plain fault.source ++ "`"

/-- A fault with all its fields. -/
def inspect (fault : Fault) : String :=
  "Error \x7b internal_error: " ++ fault.cause.inspect ++ ", source_text: " ++
    Text.quoted fault.source ++ " \x7d"

end Fault

end Shading
