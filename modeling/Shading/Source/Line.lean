import Shading.Source.Comment
import Shading.Fault
import Shading.Event

/-!
# Lines of a source

Each line of a source is read on its own, after the substitutions defined on earlier
lines: it is blank, a line of code, a definition of a further substitution, a directive
that is dropped, or a definition that cannot be read.
-/

namespace Shading

/-- A textual substitution. -/
structure Substitution where
  find : Text
  value : Text
  deriving DecidableEq, Repr

/-- Applies substitutions one after the other. -/
def Substitution.applyAll (substitutions : List Substitution) (text : Text) : Text :=
  substitutions.foldl (fun line s => Text.replaceAll s.find s.value line) text

/-- What a line of a source is. -/
inductive Line where
  | blank
  | code (text : Text)
  | definition (substitution : Substitution)
  | ignored (line : Text)
  | malformed (fault : Fault)
  deriving DecidableEq, Repr

namespace Line

/-- Reads a directive; `body` follows the `#` of `line`.  A definition needs a name and a
value, and the value is all that follows the name. -/
def ofDirective (line body : Text) : Line :=
  let directive := Text.trim (Source.cutLineComment .outside (Text.trim body))
  if Text.firstWord directive = "define".toList then
    let arguments := Text.afterFirstWord directive
    let name := Text.firstWord arguments
    let value := Text.afterFirstWord arguments
    if name.isEmpty || value.isEmpty then .malformed ⟨.malformedDefinition directive, line⟩
    else .definition ⟨name, value⟩
  else .ignored line

/-- Reads a line without surrounding blanks. -/
def ofTrimmed : Text → Line
  | [] => .blank
  | '/' :: '/' :: _ => .blank
  | '#' :: body => ofDirective ('#' :: body) body
  | line => .code (Text.trimRight (Source.cutLineComment .outside line))

/-- Reads a line under the substitutions defined before it. -/
def read (substitutions : List Substitution) (raw : Text) : Line :=
  ofTrimmed (Text.trim (Substitution.applyAll substitutions raw))

/-- Reads lines in order, each under the definitions before it, up to the first malformed one. -/
def readAll : (substitutions : List Substitution) → (raws : List Text) → List Line
  | _, [] => []
  | substitutions, raw :: rest =>
      match read substitutions raw with
      | .definition s => .definition s :: readAll (substitutions ++ [s]) rest
      | .malformed fault => [.malformed fault]
      | line => line :: readAll substitutions rest

/-- The code of the lines, in order, or the fault of the first malformed one. -/
def codes : (lines : List Line) → Except Fault (List Text)
  | [] => .ok []
  | .malformed fault :: _ => .error fault
  | .code text :: rest => (codes rest).map (text :: ·)
  | _ :: rest => codes rest

/-- What reading a line reports. -/
def event? : Line → Option Event
  | .definition s => some (.defined s.find s.value)
  | .ignored line => some (.ignoredDirective line)
  | _ => none

end Line

end Shading
