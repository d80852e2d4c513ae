import Shading.Piece.Basic
import Shading.Statement.SplitTree
import Shading.Statement.Operand
import Shading.Statement.Draft

/-!
# The value of a statement

A statement arrives as pieces.  Its groups are resolved first, from left to right, each
to a value or to nothing; the flat statement that remains is split, and each split is
built from the values of its two sides.  A group counts one level of nesting and so does
a split, and no more than the limit may stand below each other.

Building never fails for want of an operand: an operator with one operand missing gives
the other, and one without operands gives its fragment as a name.  Only an assignment to
something that is not a variable is refused.
-/

namespace Shading.Statement

/-! ## Splits -/

/-- How a fault names an expression that is not assignable. -/
def targetText (look : VariableId → Option Variable.Label) : Expr → Text
  | .name text => text
  | target => (target.inspect look).toList

/-- The value of a split, from the values of its sides. -/
def combine (setting : Setting) (point : Occurrence) :
    (left right : Option Expr) → Drafting Expr
  | some left, some right =>
      match point.symbol.role with
      | .assign =>
          match left with
          | .var id => do
              Drafting.assign id right
              pure (.var id)
          | target => do
              let draft ← .state
              .fail ⟨.notAssignable (targetText (setting.look draft) target), point.fragment⟩
      | .between operation => pure (.binary operation left right)
      | .betweenOrBefore operation _ => pure (.binary operation left right)
      | .before operation => do
          Drafting.report (.droppedLeft point.fragment point.symbol.text left)
          pure (.unary operation right)
  | none, some right =>
      match point.symbol.role with
      | .betweenOrBefore _ operation => pure (.unary operation right)
      | .before operation => pure (.unary operation right)
      | _ => do
          Drafting.report (.missingOperand point.fragment point.symbol.text right)
          pure right
  | some left, none => do
      Drafting.report (.missingOperand point.fragment point.symbol.text left)
      pure left
  | none, none => do
      Drafting.report (.noOperands point.fragment point.symbol.text)
      pure (.name point.fragment)

/-- The value of one item. -/
def item (setting : Setting) : Item Expr → Drafting Expr
  | .value result => pure result
  | .text fragment =>
      match Operand.read setting.scope fragment with
      | .expr result => pure result
      | .fresh v => do
          let id ← Drafting.create setting v
          pure (.var id)

/-- The value of a flat statement without a split point: that of its first item. -/
def leaf (setting : Setting) : List (Item Expr) → Drafting (Option Expr)
  | [] => pure none
  | [single] => do
      let result ← item setting single
      pure (some result)
  | first :: second :: rest => do
      Drafting.report (.keptFirst (first :: second :: rest))
      let result ← item setting first
      pure (some result)

/-- The value of a flat statement, from the tree of its splits. -/
def tree (setting : Setting) : SplitTree Expr → Drafting (Option Expr)
  | .leaf items => leaf setting items
  | .tooDeep point => .fail ⟨.tooDeep setting.limit, point.fragment⟩
  | .split point left right => do
      Drafting.report (.split point.fragment point.symbol.text point.offset)
      let leftValue ← tree setting left
      let rightValue ← tree setting right
      let result ← combine setting point leftValue rightValue
      pure (some result)

/-! ## Groups -/

/-- The value of a flat statement below which `levels` groups may still nest. -/
def flat (setting : Setting) (levels : Nat) (items : List (Item Expr)) :
    Drafting (Option Expr) :=
  tree setting (.ofItems (levels + 1) items)

mutual

/-- The items that a piece becomes: its text, or the value of the group if it has one. -/
def piece (setting : Setting) (levels : Nat) : Piece → Drafting (List (Item Expr))
  | .text fragment => pure [.text fragment]
  | .group inner =>
      match levels with
      | 0 => .fail ⟨.tooDeep setting.limit, (inner.findSome? Piece.text?).getD []⟩
      | levels + 1 => do
          let items ← pieces setting levels inner
          let result ← flat setting levels items
          pure (result.toList.map .value)

/-- The items that pieces become, below which `levels` groups may still nest. -/
def pieces (setting : Setting) (levels : Nat) : List Piece → Drafting (List (Item Expr))
  | [] => pure []
  | first :: rest => do
      let firstItems ← piece setting levels first
      let restItems ← pieces setting levels rest
      pure (firstItems ++ restItems)

end

/-- The value of a statement; one without any text has none. -/
def value (setting : Setting) (parts : List Piece) : Drafting (Option Expr) := do
  let items ← pieces setting setting.limit parts
  flat setting setting.limit items

end Shading.Statement
