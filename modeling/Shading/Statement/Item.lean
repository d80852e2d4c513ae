import Shading.Text.Basic

/-!
# Items of a flat statement

Once the groups of a statement are resolved, it is a flat sequence of items: text
still to be read, and the values of the groups between.  What a value is does not matter
to how a statement is split, so it is a parameter.
-/

namespace Shading

/-- Text still to be read, or a value that stands for a resolved group. -/
inductive Item (α : Type) where
  | text (fragment : Text)
  | value (a : α)
  deriving DecidableEq, Repr

namespace Item

variable {α : Type}

/-- The items of a text: its fragment, if it is not blank. -/
def ofText (text : Text) : List (Item α) :=
  (Text.fragment? text).toList.map .text

end Item

end Shading
