import Shading.Text.Basic

/-!
# Quoted spans

A quote of one kind inside a span of the other kind is inert, and a span that is
never closed reaches to the end of the text.  `Quote` is the position of a
left-to-right scan relative to such spans.
-/

namespace Shading

/-- Where a scan stands: outside quotes, or inside a span of one of the two kinds. -/
inductive Quote where
  | outside
  | single
  | double
  deriving DecidableEq, Repr

namespace Quote

/-- The position after reading one more character. -/
def next : Quote → Char → Quote
  | .outside, '"' => .double
  | .outside, '\'' => .single
  | .double, '"' => .outside
  | .single, '\'' => .outside
  | quote, _ => quote

/-- The position after reading a text. -/
def after (quote : Quote) (text : Text) : Quote :=
  text.foldl next quote

/-- The characters that open and close spans. -/
def isMark (c : Char) : Bool :=
  c == '"' || c == '\''

/-- Whether a character read in this position has its ordinary meaning: it is
neither part of a quoted span nor a mark of one. -/
def exposes (quote : Quote) (c : Char) : Bool :=
  quote == .outside && !isMark c

@[simp] theorem after_nil (quote : Quote) : quote.after [] = quote := rfl

@[simp] theorem after_cons (quote : Quote) (c : Char) (rest : Text) :
    quote.after (c :: rest) = (quote.next c).after rest := rfl

@[simp] theorem after_append (quote : Quote) (first second : Text) :
    quote.after (first ++ second) = (quote.after first).after second := by
  simp [after]

/-- A character that is no quotation mark leaves the position as it is. -/
theorem next_of_not_isMark {c : Char} (h : isMark c = false) (quote : Quote) :
    quote.next c = quote := by
  unfold next
  split <;> simp_all [isMark]

end Quote

end Shading
