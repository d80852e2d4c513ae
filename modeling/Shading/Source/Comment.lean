import Shading.Text.Quote

/-!
# Comments

A block comment runs from its opening two characters to the first `*/` after them, and
comments do not nest.  One that is never closed is no comment, and its text stays.  A
line comment runs from a `//` outside quotes to the end of its line.
-/

namespace Shading.Source

/-- Reads on, in the code (`none`) or inside a comment with its text so far, latest first;
gives the code that remains. -/
def dropBlocks : (comment : Option Text) → (text : Text) → Text
  | none, '/' :: '*' :: rest => dropBlocks (some ['*', '/']) rest
  | none, c :: rest => c :: dropBlocks none rest
  | none, [] => []
  | some _, '*' :: '/' :: rest => dropBlocks none rest
  | some held, c :: rest => dropBlocks (some (c :: held)) rest
  | some held, [] => held.reverse

/-- A text without its block comments. -/
def dropBlockComments (text : Text) : Text :=
  dropBlocks none text

/-- A line up to the first `//` outside quotes, read from a position relative to quotes. -/
def cutLineComment (quote : Quote) : (line : Text) → Text
  | [] => []
  | c :: rest =>
      if quote == .outside && c == '/' && rest.head? == some '/' then []
      else c :: cutLineComment (quote.next c) rest

end Shading.Source
