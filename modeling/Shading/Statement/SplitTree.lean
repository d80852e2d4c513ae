import Shading.Symbol.Occurrence
import Shading.Statement.Item

/-!
# Splitting a flat statement

A flat statement splits at the split point of highest rank in its fragments, the last
fragment winning among equals.  What stands before the symbol and what stands after it
are flat statements again, and so a statement unfolds into a tree of splits.
-/

namespace Shading

variable {α : Type}

/-! ## One split -/

/-- A flat statement taken apart at a symbol in one of its fragments. -/
structure Cut (α : Type) where
  left : List (Item α)
  point : Occurrence
  right : List (Item α)
  deriving Repr

namespace Cut

/-- The rank of the symbol. -/
def level (cut : Cut α) : Nat :=
  cut.point.symbol.rank.level

/-- The same cut with one more item in front. -/
def cons (item : Item α) (cut : Cut α) : Cut α :=
  { cut with left := item :: cut.left }

/-- The cut inside the first of a sequence of items. -/
def inFirst? : (item : Item α) → (rest : List (Item α)) → Option (Cut α)
  | .text fragment, rest => (Occurrence.root? fragment).map fun point => ⟨[], point, rest⟩
  | .value _, _ => none

/-- The cut at which a flat statement splits. -/
def find? : List (Item α) → Option (Cut α)
  | [] => none
  | item :: rest =>
      match inFirst? item rest, find? rest with
      | none, later => later.map (cons item)
      | some first, none => some first
      | some first, some later =>
          if later.level < first.level then some first else some (later.cons item)

/-- The flat statement before the symbol. -/
def leftSide (cut : Cut α) : List (Item α) :=
  cut.left ++ Item.ofText cut.point.before

/-- The flat statement after the symbol. -/
def rightSide (cut : Cut α) : List (Item α) :=
  Item.ofText cut.point.after ++ cut.right

end Cut

/-! ## All splits -/

/-- The splits of a flat statement, down to the statements that do not split. -/
inductive SplitTree (α : Type) where
  /-- No split point. -/
  | leaf (items : List (Item α))
  /-- A split that the limit does not allow. -/
  | tooDeep (point : Occurrence)
  | split (point : Occurrence) (left right : SplitTree α)
  deriving Repr

namespace SplitTree

/-- Splits a flat statement, at most `levels` splits below each other. -/
def ofItems : (levels : Nat) → (items : List (Item α)) → SplitTree α
  | 0, items =>
      match Cut.find? items with
      | none => .leaf items
      | some cut => .tooDeep cut.point
  | levels + 1, items =>
      match Cut.find? items with
      | none => .leaf items
      | some cut =>
          .split cut.point (ofItems levels cut.leftSide) (ofItems levels cut.rightSide)

end SplitTree

end Shading
