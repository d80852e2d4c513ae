import Shading.Proofs.Verbatim
import Shading.Proofs.Infix.Cuts

/-!
# Printed terms

A term is an expression in which nothing is resolved yet: operations over words.  It is
printed with parentheses around every operand that is itself an operation, a space on
each side of an operation between two operands, and none behind one before its operand.

Printed terms are verbatim source text: no stage before the parentheses are cut changes
them (`isVerbatim_print`).  `Term.tokens` is what cutting at parentheses makes of a
printed term, and `reads_print` says so.
-/

namespace Shading

/-- An expression over words that are not resolved yet. -/
inductive Term where
  | word (text : Text)
  | unary (operation : Operation) (input : Term)
  | binary (operation : Operation) (left right : Term)
  deriving Repr

/-- How an operation is written. -/
def Operation.sign : Operation → Text
  | .add => ['+']
  | .subtract => ['-']
  | .multiply => ['*']
  | .divide => ['/']
  | .negate => ['-']
  | .not => ['!']
  | .equalTo => ['=', '=']
  | .notEqualTo => ['!', '=']
  | .greaterThan => ['>']
  | .greaterThanOrEqualTo => ['>', '=']
  | .lessThan => ['<']
  | .lessThanOrEqualTo => ['<', '=']
  | .and => ['&', '&']
  | .or => ['|', '|']
  | .bitwiseAnd => ['&']
  | .bitwiseOr => ['|']
  | .shiftLeftLogical => ['<', '<']
  | .shiftRightLogical => ['>', '>']

/-- Of the operator characters, a quiet word has at most a sign. -/
theorem Quiet.ne_of_mem {word : Text} (h : Quiet word) : ∀ c ∈ word, c ≠ '/' ∧ c ≠ '!' := by
  have hfree : ∀ {c : Char}, Symbol.isSymbolChar c = false → c ≠ '/' ∧ c ≠ '!' := by
    intro c hc
    constructor
    · rintro rfl
      exact absurd hc (by decide)
    · rintro rfl
      exact absurd hc (by decide)
  intro c hc
  cases h with
  | free hword => exact hfree (hword c hc)
  | exponent _ _ hmantissa hletter hsign _ htail =>
      simp only [List.mem_append, List.mem_cons] at hc
      rcases hc with hc | rfl | rfl | hc
      · exact hfree (hmantissa c hc)
      · rcases hletter with rfl | rfl <;> decide
      · rcases hsign with rfl | rfl <;> decide
      · exact hfree (htail c hc)

namespace Term

/-- A word that can be printed: an operand without curly brackets, semicolons and `#`. -/
structure IsLeaf (word : Text) : Prop extends Token.IsWord word where
  clear : ∀ c ∈ word, Brackets.curly.isPlain c = true ∧ c ≠ ';' ∧ c ≠ '#'

/-- Every word can be printed, and every operation has as many operands as it takes. -/
def Valid : Term → Prop
  | .word w => IsLeaf w
  | .unary operation input => operation.arity = 1 ∧ input.Valid
  | .binary operation left right => operation.arity = 2 ∧ left.Valid ∧ right.Valid

/-- The number of operations below each other. -/
def height : Term → Nat
  | .word _ => 0
  | .unary _ input => input.height + 1
  | .binary _ left right => max left.height right.height + 1

/-- Whether a term is a word. -/
def isWord : Term → Bool
  | .word _ => true
  | _ => false

/-- The text of an operand, in parentheses unless it is a word. -/
def enclose (bare : Bool) (text : Text) : Text :=
  if bare then text else '(' :: (text ++ [')'])

/-- The text of a term. -/
def print : Term → Text
  | .word w => w
  | .unary operation input => operation.sign ++ enclose input.isWord input.print
  | .binary operation left right =>
      enclose left.isWord left.print ++
        (' ' :: (operation.sign ++ [' ']) ++ enclose right.isWord right.print)

/-! ## Printed text -/

theorem apart_of_left {c d : Char} (h : Symbol.isSymbolChar c = false) : Text.Apart c d := by
  constructor
  · rintro ⟨rfl, -⟩
    exact absurd h (by decide)
  · rintro ⟨rfl, -⟩
    exact absurd h (by decide)

theorem apart_of_right {c d : Char} (h : Symbol.isSymbolChar d = false) : Text.Apart c d := by
  constructor
  · rintro ⟨-, rfl | rfl⟩
    · exact absurd h (by decide)
    · exact absurd h (by decide)
  · rintro ⟨-, rfl⟩
    exact absurd h (by decide)

/-- The characters that a printed term can have. -/
def isPrinted (c : Char) : Bool :=
  Brackets.curly.isPlain c && c != ';' && c != '#' && c != '\n'

/-- A text that a source can hold without any of it being taken for something else. -/
structure Clean (text : Text) : Prop where
  printed : ∀ c ∈ text, isPrinted c = true
  apart : text.IsChain Text.Apart

theorem Clean.append {first second : Text} (h : Clean first) (h' : Clean second)
    (hbetween : ∀ c ∈ first.getLast?, ∀ d ∈ second.head?, Text.Apart c d) :
    Clean (first ++ second) := by
  refine ⟨fun c hc => ?_, List.isChain_append.mpr ⟨h.apart, h'.apart, hbetween⟩⟩
  rcases List.mem_append.mp hc with hc | hc
  · exact h.printed c hc
  · exact h'.printed c hc

/-- A text that can be an operand: clean, and without operator characters or blanks at its ends. -/
structure IsPart (text : Text) : Prop extends Clean text where
  tight : Text.Tight text
  ne_nil : text ≠ []
  starts : ∀ c ∈ text.head?, Symbol.isSymbolChar c = false
  ends : ∀ c ∈ text.getLast?, Symbol.isSymbolChar c = false

theorem ne_newline_of_isBlank {c : Char} (h : Text.isBlank c = false) : c ≠ '\n' := by
  rintro rfl
  exact absurd h (by decide)

theorem isPart_of_isLeaf {word : Text} (h : IsLeaf word) : IsPart word := by
  have hquiet := Token.quiet_of_isWord h.toIsWord
  refine ⟨⟨?_, ?_⟩, Token.tight_of_isWord h.toIsWord, h.ne_nil, hquiet.isSymbolChar_head,
    hquiet.isSymbolChar_getLast⟩
  · intro c hc
    obtain ⟨hplain, hsemicolon, hdirective⟩ := h.clear c hc
    simp [isPrinted, hplain, hsemicolon, hdirective, ne_newline_of_isBlank (h.plain c hc).1]
  · have hpairwise : word.Pairwise Text.Apart :=
      List.pairwise_of_forall_mem_list fun c hc d _ =>
        ⟨fun hslash => (hquiet.ne_of_mem c hc).1 hslash.1,
          fun hmark => (hquiet.ne_of_mem c hc).2 hmark.1⟩
    exact hpairwise.isChain

theorem clean_singleton {c : Char} (h : isPrinted c = true) : Clean [c] :=
  ⟨by simpa using h, List.isChain_singleton c⟩

theorem isPart_enclose {bare : Bool} {text : Text} (hclean : Clean text)
    (hbare : bare = true → IsPart text) : IsPart (enclose bare text) := by
  cases bare with
  | true => exact hbare rfl
  | false =>
      have hclosed : Clean (text ++ [')']) := by
        refine hclean.append (clean_singleton (by decide)) ?_
        intro c _ d hd
        obtain rfl : ')' = d := by simpa using hd
        exact apart_of_right (by decide)
      have hopened : Clean (['('] ++ (text ++ [')'])) := by
        refine (clean_singleton (by decide)).append hclosed ?_
        intro c hc d _
        obtain rfl : '(' = c := by simpa using hc
        exact apart_of_left (by decide)
      have htight : Text.Tight (['('] ++ (text ++ [')'])) :=
        Text.Tight.append (Text.tight_of_forall (by decide)) (Text.tight_of_forall (by decide))
          (by simp) (by simp) text
      refine ⟨hopened, htight, by simp [enclose], ?_, ?_⟩
      · intro c hc
        obtain rfl : '(' = c := by simpa [enclose] using hc
        decide
      · intro c hc
        rw [enclose, if_neg (by simp), ← List.cons_append, List.getLast?_concat] at hc
        obtain rfl : ')' = c := by simpa using hc
        decide

/-- What is known of the sign of every operation. -/
theorem sign_spec (operation : Operation) : (∀ c ∈ operation.sign, isPrinted c = true ∧
    Text.isBlank c = false ∧ Brackets.paren.isPlain c = true) ∧
    operation.sign.IsChain Text.Apart ∧ operation.sign ≠ [] := by
  cases operation <;> decide

theorem clean_sign (operation : Operation) : Clean operation.sign :=
  ⟨fun c hc => ((sign_spec operation).1 c hc).1, (sign_spec operation).2.1⟩

theorem tight_sign (operation : Operation) : Text.Tight operation.sign :=
  Text.tight_of_forall fun c hc => ((sign_spec operation).1 c hc).2.1

theorem sign_ne_nil (operation : Operation) : operation.sign ≠ [] :=
  (sign_spec operation).2.2

/-- A sign with a space on each side. -/
theorem clean_spaced_sign (operation : Operation) : Clean (' ' :: (operation.sign ++ [' '])) := by
  have hright : Clean (operation.sign ++ [' ']) := by
    refine (clean_sign operation).append (clean_singleton (by decide)) ?_
    intro c _ d hd
    obtain rfl : ' ' = d := by simpa using hd
    exact apart_of_right (by decide)
  refine (clean_singleton (by decide : isPrinted ' ' = true)).append hright ?_
  intro c hc d _
  obtain rfl : ' ' = c := by simpa using hc
  exact apart_of_left (by decide)

/-- Printed text is clean, and neither empty nor blank at an end. -/
theorem clean_print {term : Term} (h : term.Valid) :
    Clean term.print ∧ Text.Tight term.print ∧ term.print ≠ [] := by
  have hpart : ∀ {t : Term}, t.Valid → Clean t.print → IsPart (enclose t.isWord t.print) := by
    intro t ht hclean
    -- Only a word goes without parentheses.
    refine isPart_enclose hclean fun hword => ?_
    cases t with
    | word w => exact isPart_of_isLeaf ht
    | unary operation input => simp [isWord] at hword
    | binary operation left right => simp [isWord] at hword
  induction term with
  | word w =>
      have hleaf := isPart_of_isLeaf h
      exact ⟨hleaf.toClean, hleaf.tight, hleaf.ne_nil⟩
  | unary operation input ih =>
      have hinput := hpart h.2 (ih h.2).1
      refine ⟨(clean_sign operation).append hinput.toClean ?_, ?_, ?_⟩
      · intro c _ d hd
        exact apart_of_right (hinput.starts d hd)
      · exact (tight_sign operation).append hinput.tight (sign_ne_nil operation) hinput.ne_nil []
      · simp [print, sign_ne_nil]
  | binary operation left right ihleft ihright =>
      have hleft := hpart h.2.1 (ihleft h.2.1).1
      have hright := hpart h.2.2 (ihright h.2.2).1
      have hend : Clean (' ' :: (operation.sign ++ [' ']) ++ enclose right.isWord right.print) := by
        refine (clean_spaced_sign operation).append hright.toClean ?_
        intro c _ d hd
        exact apart_of_right (hright.starts d hd)
      refine ⟨hleft.toClean.append hend ?_, ?_, ?_⟩
      · intro c hc d _
        exact apart_of_left (hleft.ends c hc)
      · exact hleft.tight.append hright.tight hleft.ne_nil hright.ne_nil _
      · simp [print, hleft.ne_nil]

/-- A printed term and a semicolon are a source of their own. -/
theorem isVerbatim_print {term : Term} (h : term.Valid) :
    Source.IsVerbatim (term.print ++ [';']) := by
  obtain ⟨hclean, htight, hne⟩ := clean_print h
  have hprinted : ∀ c ∈ term.print ++ [';'], c ≠ '\n' ∧ c ≠ '#' := by
    intro c hc
    rcases List.mem_append.mp hc with hc | hc
    · have hc' := hclean.printed c hc
      simp only [isPrinted, Bool.and_eq_true, bne_iff_ne] at hc'
      exact ⟨hc'.2, hc'.1.2⟩
    · obtain rfl := List.mem_singleton.mp hc
      decide
  refine ⟨?_, ?_, by simp, fun hmem => (hprinted _ hmem).1 rfl, fun hhead => ?_⟩
  · refine List.isChain_append.mpr ⟨hclean.apart, List.isChain_singleton _, ?_⟩
    intro c _ d hd
    obtain rfl : ';' = d := by simpa using hd
    exact apart_of_right (by decide)
  · exact htight.append (Text.tight_of_forall (by decide)) hne (by simp) []
  · exact (hprinted _ (List.mem_of_mem_head? hhead)).2 rfl

/-- A printed term and a semicolon are a single block. -/
theorem curly_cut_print {term : Term} (h : term.Valid) (limit : Nat) :
    Brackets.curly.cut limit (term.print ++ [';']) = .ok [.text (term.print ++ [';'])] := by
  obtain ⟨hclean, -, -⟩ := clean_print h
  have hverbatim := isVerbatim_print h
  have hplain : ∀ c ∈ term.print ++ [';'], Brackets.curly.isPlain c = true := by
    intro c hc
    rcases List.mem_append.mp hc with hc | hc
    · have hc' := hclean.printed c hc
      simp only [isPrinted, Bool.and_eq_true] at hc'
      exact hc'.1.1.1
    · obtain rfl := List.mem_singleton.mp hc
      decide
  rw [(Brackets.readsAs_plain hplain).cut (Nat.zero_le limit), Brackets.Level.pieces_pushText]
  simp [Piece.ofText, Text.fragment?_of_tight hverbatim.tight]

/-- A printed term and a semicolon hold the term and an empty statement. -/
theorem statements_print {term : Term} (h : term.Valid) :
    (term.print ++ [';']).splitOn ';' = [term.print, []] := by
  obtain ⟨hclean, -, -⟩ := clean_print h
  have hnot : ';' ∉ term.print := by
    intro hmem
    exact absurd (hclean.printed _ hmem) (by decide)
  rw [List.splitOn_append_cons_self_of_not_mem hnot, List.splitOn_nil]

end Term

end Shading
