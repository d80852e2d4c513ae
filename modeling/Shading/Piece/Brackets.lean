import Shading.Text.Quote
import Shading.Piece.Basic
import Shading.Fault

/-!
# Cutting at brackets

The text is read once from left to right.  Outside quotes an opening bracket starts a
group and a closing bracket ends the innermost open one; a closing bracket with no group
open is ordinary text, and groups still open at the end hold whatever followed their
opening bracket.  Fragments are trimmed, and blank ones are dropped.

A bracket that is itself a quotation mark never acts as a bracket, and if the two
brackets are equal they always open.
-/

namespace Shading

/-- A pair of brackets. -/
structure Brackets where
  opening : Char
  closing : Char
  deriving DecidableEq, Repr

namespace Brackets

/-- The brackets around blocks of statements. -/
def curly : Brackets := ⟨'\x7b', '\x7d'⟩

/-- The brackets around parts of an expression. -/
def paren : Brackets := ⟨'(', ')'⟩

/-- One level of the reading: the pieces completed on it and the characters of the fragment
being read, both latest first. -/
structure Level where
  done : List Piece := []
  pending : Text := []

namespace Level

/-- Completes the fragment being read. -/
def close (level : Level) : List Piece :=
  Piece.ofText level.pending.reverse ++ level.done

/-- The pieces of a level in reading order. -/
def pieces (level : Level) : List Piece :=
  level.close.reverse

/-- Appends a character to the fragment being read. -/
def push (level : Level) (c : Char) : Level :=
  { level with pending := c :: level.pending }

/-- Completes the fragment being read and appends a group. -/
def pushGroup (level : Level) (inner : List Piece) : Level :=
  { done := .group inner :: level.close }

end Level

/-- The state of the reading: the position relative to quotes, the innermost level, and the
levels around it, the nearest first. -/
structure Reading where
  quote : Quote := .outside
  level : Level := {}
  enclosing : List Level := []

namespace Reading

/-- Takes a character as text. -/
def push (reading : Reading) (c : Char) : Reading :=
  { reading with quote := reading.quote.next c, level := reading.level.push c }

/-- Starts a group. -/
def openGroup (reading : Reading) : Reading :=
  { reading with level := {}, enclosing := reading.level :: reading.enclosing }

/-- Ends the innermost group; without one, the closing bracket is text. -/
def closeGroup (reading : Reading) (c : Char) : Reading :=
  match reading.enclosing with
  | [] => reading.push c
  | outer :: rest =>
      { reading with level := outer.pushGroup reading.level.pieces, enclosing := rest }

/-- Closes every open group at the end of the text. -/
def finish (level : Level) : (enclosing : List Level) → List Piece
  | [] => level.pieces
  | outer :: rest => finish (outer.pushGroup level.pieces) rest

/-- The pieces read, when the text ends here. -/
def pieces (reading : Reading) : List Piece :=
  finish reading.level reading.enclosing

end Reading

/-- Reads one character; `none` when it opens a group beyond the limit. -/
def step? (brackets : Brackets) (limit : Nat) (reading : Reading) (c : Char) : Option Reading :=
  if reading.quote.exposes c then
    if c = brackets.opening then
      if reading.enclosing.length < limit then some reading.openGroup else none
    else if c = brackets.closing then some (reading.closeGroup c)
    else some (reading.push c)
  else some (reading.push c)

/-- Reads a text; `none` when groups nest beyond the limit. -/
def read? (brackets : Brackets) (limit : Nat) (reading : Reading) (text : Text) :
    Option Reading :=
  text.foldlM (brackets.step? limit) reading

/-- Cuts a text into pieces whose groups nest at most `limit` deep. -/
def cut (brackets : Brackets) (limit : Nat) (text : Text) : Except Fault (List Piece) :=
  match brackets.read? limit {} text with
  | some reading => .ok reading.pieces
  | none => .error ⟨.tooDeep limit, text⟩

end Brackets

end Shading
