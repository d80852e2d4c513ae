import Mathlib.Data.List.Chain
import Shading.Proofs.NormalForm

/-!
# Sources that are their own code

A source of one line, without comments, doubled exclamation marks and directives, is its
own code, and reading it reports nothing.  Comments and doubled marks start with two
characters next to each other, so it is enough to look at neighbours: `Text.Apart` holds
of two characters that start neither, and a text is a chain of such neighbours.
-/

namespace Shading

/-- Neighbours that start neither a comment nor a doubled exclamation mark. -/
def Text.Apart (c d : Char) : Prop :=
  ¬ (c = '/' ∧ (d = '/' ∨ d = '*')) ∧ ¬ (c = '!' ∧ d = '!')

instance : DecidableRel Text.Apart :=
  fun _ _ => inferInstanceAs (Decidable (_ ∧ _))

theorem Text.not_infix_of_isChain {text : Text} (h : text.IsChain Apart) {c d : Char}
    (hpair : ¬ Apart c d) : ¬ [c, d] <:+: text := by
  rintro ⟨front, back, rfl⟩
  rw [List.append_assoc] at h
  have hback := (List.isChain_append.mp h).2.1
  exact hpair (List.isChain_cons_cons.mp hback).1

namespace Source

/-- A text that is the only line of its source, and all of it code. -/
structure IsVerbatim (text : Text) : Prop where
  apart : text.IsChain Text.Apart
  tight : Text.Tight text
  ne_nil : text ≠ []
  oneLine : '\n' ∉ text
  noDirective : text.head? ≠ some '#'

theorem IsVerbatim.unmarked {text : Text} (h : IsVerbatim text) : Unmarked text :=
  ⟨Text.not_infix_of_isChain h.apart (by decide), Text.not_infix_of_isChain h.apart (by decide)⟩

theorem IsVerbatim.isCodeLine {text : Text} (h : IsVerbatim text) : IsCodeLine text where
  ne_nil := h.ne_nil
  oneLine := h.oneLine
  tight := h.tight
  noDirective := h.noDirective
  noComment := by
    rintro ⟨front, back, hline, -⟩
    refine Text.not_infix_of_isChain h.apart (c := '/') (d := '/') (by decide) ⟨front, back, ?_⟩
    rw [hline]
    simp

theorem IsVerbatim.lines_eq {text : Text} (h : IsVerbatim text) : lines text = [.code text] := by
  have hraw : rawLines text = [text] := by
    rw [h.unmarked.rawLines_eq, List.splitOn_eq_singleton h.oneLine]
  simp [lines, hraw, Line.readAll, Line.read_of_isCodeLine h.isCodeLine]

theorem IsVerbatim.code_eq {text : Text} (h : IsVerbatim text) : code text = .ok text := by
  simp [code, h.lines_eq, Line.codes, Except.map]

theorem IsVerbatim.events_eq {text : Text} (h : IsVerbatim text) : events text = [] := by
  simp [events, h.lines_eq, Line.event?]

end Source

end Shading
