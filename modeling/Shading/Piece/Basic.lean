import Shading.Text.Basic

/-!
# Pieces

A text cut at a pair of brackets is a sequence of pieces: fragments of text, and
groups, which are again sequences of pieces.
-/

namespace Shading

/-- A fragment of text, or what stands between a pair of brackets. -/
inductive Piece where
  | text (fragment : Text)
  | group (inner : List Piece)
  deriving Repr, BEq

namespace Piece

/-- The pieces of a text without brackets: its fragment, if it is not blank. -/
def ofText (text : Text) : List Piece :=
  (Text.fragment? text).toList.map .text

@[simp] theorem ofText_nil : ofText [] = [] := rfl

/-- The fragment that a piece is. -/
def text? : Piece → Option Text
  | .text fragment => some fragment
  | .group _ => none

mutual

/-- How deep groups nest in a piece; a fragment has depth zero. -/
def depth : Piece → Nat
  | .text _ => 0
  | .group inner => 1 + nesting inner

/-- How deep groups nest in a sequence of pieces. -/
def nesting : List Piece → Nat
  | [] => 0
  | piece :: rest => max piece.depth (nesting rest)

end

mutual

/-- The fragments of a piece, at every depth, in order. -/
def fragments : Piece → List Text
  | .text fragment => [fragment]
  | .group inner => allFragments inner

/-- The fragments of a sequence of pieces, at every depth, in order. -/
def allFragments : List Piece → List Text
  | [] => []
  | piece :: rest => piece.fragments ++ allFragments rest

end

@[simp] theorem depth_text (fragment : Text) : (text fragment).depth = 0 := by
  simp [depth]

@[simp] theorem depth_group (inner : List Piece) : (group inner).depth = 1 + nesting inner := by
  simp [depth]

@[simp] theorem nesting_nil : nesting [] = 0 := by
  simp [nesting]

@[simp] theorem nesting_cons (piece : Piece) (rest : List Piece) :
    nesting (piece :: rest) = max piece.depth (nesting rest) := by
  simp [nesting]

@[simp] theorem fragments_text (fragment : Text) : (text fragment).fragments = [fragment] := by
  simp [fragments]

@[simp] theorem fragments_group (inner : List Piece) :
    (group inner).fragments = allFragments inner := by
  simp [fragments]

@[simp] theorem allFragments_nil : allFragments [] = [] := by
  simp [allFragments]

@[simp] theorem allFragments_cons (piece : Piece) (rest : List Piece) :
    allFragments (piece :: rest) = piece.fragments ++ allFragments rest := by
  simp [allFragments]

end Piece

end Shading
