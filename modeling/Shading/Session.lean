import Shading.Source.Basic
import Shading.Piece.Brackets
import Shading.Statement.Value

/-!
# Sessions

A session reads sources and single statements one after the other.  It has a scope, the
store of all variables, and the events reported so far.  A source is reduced to its code,
cut into blocks at curly brackets and into statements at semicolons, and its statements
are resolved in order; a fault ends the reading of the source, and what was assigned
before it stays.
-/

namespace Shading

/-- The settings of a session. -/
structure Options where
  /-- How deep brackets may nest, and groups and splits within a statement. -/
  limit : Nat := 256
  /-- Whether a named variable that a statement resolves to enters the scope. -/
  declares : Bool := false
  deriving DecidableEq, Repr

/-- The state of a session. -/
structure Session where
  options : Options := {}
  scope : Scope := {}
  store : Store := {}
  events : List Event := []
  deriving DecidableEq, Repr

mutual

/-- The statements of a block, in reading order. -/
def Piece.statements : Piece → List Text
  | .text fragment => fragment.splitOn ';'
  | .group inner => Piece.allStatements inner

/-- The statements of a sequence of blocks, in reading order. -/
def Piece.allStatements : List Piece → List Text
  | [] => []
  | piece :: rest => piece.statements ++ Piece.allStatements rest

end

/-- A step of a session. -/
abbrev Run (α : Type) : Type := Action Session α

namespace Session

/-- What a statement of the session is resolved against. -/
def setting (session : Session) : Setting :=
  ⟨session.scope, session.store.labels, session.options.limit⟩

/-- The session after a draft. -/
def commit (session : Session) (draft : Draft) : Session :=
  { session with
    store := session.store.commit draft
    events := session.events ++ draft.events }

/-- Reports events. -/
def report (events : List Event) : Run Unit :=
  .update fun session => { session with events := session.events ++ events }

/-- Resolves the pieces of a statement and commits what was drafted, fault or not. -/
def evaluate (pieces : List Piece) : Run (Option Expr) := fun session =>
  let (result, draft) := (Statement.value session.setting pieces).run {}
  (result, session.commit draft)

/-- Lets a named variable enter the scope, if the session is set to do so. -/
def enterScope (result : Expr) (session : Session) : Session :=
  match session.options.declares, result with
  | true, .var id =>
      match (session.store.get? id).bind (·.name) with
      | some name => { session with scope := session.scope.insert name id }
      | none => session
  | _, _ => session

/-- Reads one statement; a blank one has no value. -/
def statement (text : Text) : Run (Option Expr) := do
  let trimmed := Text.trim text
  if trimmed.isEmpty then
    pure none
  else
    let session ← .state
    let pieces ← .ofExcept (Brackets.paren.cut session.options.limit trimmed)
    let result ← evaluate pieces
    match result with
    | none => pure none
    | some value => do
        report [.resolved trimmed value]
        .update (enterScope value)
        pure (some value)

/-- Reads statements in order and gives the values of those that have one. -/
def statements : List Text → Run (List Expr)
  | [] => pure []
  | first :: rest => do
      let value ← statement first
      let values ← statements rest
      pure (value.toList ++ values)

/-- Reads a whole source and gives the values of its statements. -/
def source (text : Text) : Run (List Expr) := do
  let session ← .state
  report (Source.events text)
  let code ← .ofExcept (Source.code text)
  let blocks ← .ofExcept (Brackets.curly.cut session.options.limit code)
  statements (Piece.allStatements blocks)

end Session

end Shading
