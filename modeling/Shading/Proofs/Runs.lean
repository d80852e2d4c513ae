import Mathlib.Data.List.SplitBy
import Shading.Statement.Value
import Shading.Proofs.Root
import Shading.Proofs.Sides
import Shading.Proofs.Token

/-!
# Runs of symbols

Symbols with nothing but blanks between them form a run.  Of a run the first symbol has an
ordinary character before it, or nothing, and the others have an operator, so each rule
that keeps a symbol from being a split point has its own place in a run:

```text
first     a sign, if it is that of an exponent
later     `-` and `!`; an `=` only directly behind a comparison of two characters,
          which is a split point itself
```

So a fragment does not split exactly if each of its runs is the sign of an exponent with
nothing but `-` and `!` behind it.  A fragment with an operator character that is not such a
sign splits, and is never read as an operand.

* `endsInExponent_iff`: the texts after which a sign belongs to an exponent.
* `exists_of_mem_runs`: what stands before the symbols of a run.
* `splitPoints_eq_nil`: the fragments that do not split.
-/

namespace Shading

/-! ## Mantissas -/

namespace FloatNumeral

theorem isMantissa_iff {text : Text} : isMantissa text = true ↔ Mantissa text := by
  constructor
  · intro h
    unfold isMantissa at h
    split at h
    next whole fraction rest hread =>
      obtain ⟨mantissa, rfl, hmantissa⟩ := exists_mantissa hread
      rw [List.isEmpty_iff.mp h, List.append_nil]
      exact hmantissa
    next => cases h
  · intro h
    obtain ⟨whole, fraction, hread⟩ := readMantissa?_of_mantissa h (by simp : ∀ c ∈ [].head?, _)
    rw [List.append_nil] at hread
    simp [isMantissa, hread]

theorem isWordChar_of_mem_mantissa {text : Text} (h : Mantissa text) :
    ∀ c ∈ text, Occurrence.isWordChar c = true := by
  obtain ⟨whole, fraction, hread⟩ := readMantissa?_of_mantissa h (by simp : ∀ c ∈ [].head?, _)
  obtain ⟨mantissa, heq, -, hchars⟩ := readMantissa?_spec hread
  rw [List.append_cancel_right heq]
  exact fun c hc => isWordChar_of_isMantissaChar (hchars c hc)

end FloatNumeral

namespace Occurrence

/-- A text that ends in a mantissa and `e` or `E`, with no letter, digit, underscore or point
before the mantissa. -/
def EndsInMantissa (text : Text) : Prop :=
  ∃ front mantissa letter, text = front ++ (mantissa ++ [letter]) ∧ Mantissa mantissa ∧
    (letter = 'e' ∨ letter = 'E') ∧ ∀ c ∈ front.getLast?, isWordChar c = false

theorem endsInExponent_iff {behind : Text} :
    endsInExponent behind = true ↔ EndsInMantissa behind.reverse := by
  constructor
  · intro h
    cases behind with
    | nil => cases h
    | cons letter rest =>
        simp only [endsInExponent, Bool.and_eq_true, Bool.or_eq_true, beq_iff_eq,
          FloatNumeral.isMantissa_iff] at h
        refine ⟨(rest.dropWhile isWordChar).reverse, _, letter, ?_, h.2, h.1, ?_⟩
        · rw [← List.append_assoc, ← List.reverse_append, List.takeWhile_append_dropWhile,
            List.reverse_cons]
        · intro c hc
          rw [List.getLast?_reverse] at hc
          have hnot := List.head?_dropWhile_not isWordChar rest
          rw [hc] at hnot
          exact hnot
  · rintro ⟨front, mantissa, letter, hreverse, hmantissa, hletter, hfront⟩
    have hbehind : behind = letter :: (mantissa.reverse ++ front.reverse) := by
      rw [← List.reverse_reverse behind, hreverse]
      simp
    rw [hbehind]
    exact endsInExponent_cons (FloatNumeral.isMantissa_iff.mpr hmantissa)
      (FloatNumeral.isWordChar_of_mem_mantissa hmantissa) hletter (by simpa using hfront)

instance decidableEndsInMantissa (text : Text) : Decidable (EndsInMantissa text) :=
  decidable_of_iff (endsInExponent text.reverse = true) (by
    rw [endsInExponent_iff, List.reverse_reverse])

/-- The sign of an exponent. -/
def IsExponentSign (o : Occurrence) : Prop :=
  (o.symbol.text = ['+'] ∨ o.symbol.text = ['-']) ∧ EndsInMantissa o.before

instance decidableIsExponentSign (o : Occurrence) : Decidable o.IsExponentSign :=
  inferInstanceAs (Decidable (_ ∧ _))

theorem isExponentSign_iff {o : Occurrence} :
    o.IsExponentSign ↔ o.symbol.isSign = true ∧ endsInExponent o.behind = true := by
  rw [IsExponentSign, endsInExponent_iff, Symbol.isSign, before]
  simp

/-! ## Runs -/

/-- The text between two occurrences of a fragment. -/
def between (o p : Occurrence) : Text :=
  p.before.drop (o.before ++ o.symbol.text).length

/-- Whether nothing but blanks stands between two occurrences. -/
def joins (o p : Occurrence) : Bool :=
  (between o p).all Text.isBlank

/-- The maximal runs of symbols with nothing but blanks between them. -/
def runs (fragment : Text) : List (List Occurrence) :=
  (scan fragment).splitBy joins

theorem flatten_runs (fragment : Text) : (runs fragment).flatten = scan fragment :=
  List.flatten_splitBy joins (scan fragment)

theorem mem_scan_of_mem_runs {fragment : Text} {run : List Occurrence} {o : Occurrence}
    (h : run ∈ runs fragment) (ho : o ∈ run) : o ∈ scan fragment := by
  rw [← flatten_runs]
  exact List.mem_flatten_of_mem h ho

/-- The sign of an exponent with nothing but `-` and `!` behind it. -/
def IsExponentRun : List Occurrence → Prop
  | [] => False
  | first :: rest =>
      first.IsExponentSign ∧ ∀ o ∈ rest, o.symbol.text = ['-'] ∨ o.symbol.text = ['!']

instance decidableIsExponentRun : (run : List Occurrence) → Decidable (IsExponentRun run)
  | [] => inferInstanceAs (Decidable False)
  | _ :: _ => inferInstanceAs (Decidable (_ ∧ _))

/-! ## What stands before a symbol -/

variable {behind fragment : Text} {o p : Occurrence}

theorem endsInOperator_of_ordinary (h : ∀ c ∈ behind, Symbol.isSymbolChar c = false) :
    endsInOperator behind = false := by
  unfold endsInOperator
  split
  next => rfl
  next c more hdrop =>
    apply h c
    apply (List.dropWhile_sublist Text.isBlank).subset
    rw [hdrop]
    exact List.mem_cons_self ..

/-- Over blanks, the last character of a symbol is in sight. -/
theorem endsInOperator_of_symbol {symbol : Symbol} (h : symbol ∈ Symbol.table) {blanks : Text}
    (hblanks : ∀ c ∈ blanks, Text.isBlank c = true) (behind : Text) :
    endsInOperator (blanks ++ (symbol.text.reverse ++ behind)) = true := by
  obtain ⟨c, more, hcons⟩ := List.exists_cons_of_ne_nil
    (List.reverse_ne_nil_iff.mpr (Symbol.text_ne_nil h))
  have hc : Symbol.isSymbolChar c = true := by
    apply Symbol.isSymbolChar_of_mem_text h
    rw [← List.mem_reverse, hcons]
    exact List.mem_cons_self ..
  have hblank : Text.isBlank c = false := by
    by_contra hblank
    rw [Bool.not_eq_false] at hblank
    rw [Symbol.isSymbolChar_of_isBlank hblank] at hc
    cases hc
  simp [endsInOperator, List.dropWhile_append_of_pos hblanks, hcons, hblank, hc]

theorem endsInOperator_of_endsInComparison (h : endsInComparison behind = true) :
    endsInOperator behind = true := by
  cases behind with
  | nil => cases h
  | cons c rest =>
      simp only [endsInComparison, Bool.or_eq_true, beq_iff_eq] at h
      rcases h with ((rfl | rfl) | rfl) | rfl <;> rfl

theorem endsInOperator_of_endsInExponent (h : endsInExponent behind = true) :
    endsInOperator behind = false := by
  cases behind with
  | nil => rfl
  | cons c rest =>
      simp only [endsInExponent, Bool.and_eq_true, Bool.or_eq_true, beq_iff_eq] at h
      rcases h.1 with rfl | rfl <;> rfl

/-- An occurrence has an operator before it, blanks aside, if it is in one run with the one before
it. -/
theorem Follows.endsInOperator_eq (h : Follows o p) (ho : o.symbol ∈ Symbol.table) :
    endsInOperator p.behind = joins o p := by
  obtain ⟨gap, hgap, -, hbehind⟩ := h
  have hbefore : p.before = (o.before ++ o.symbol.text) ++ gap := by
    simp [before, hbehind]
  have hbetween : between o p = gap := by
    rw [between, hbefore, List.drop_left]
  rw [joins, hbetween, hbehind]
  by_cases hblank : ∀ c ∈ gap, Text.isBlank c = true
  · rw [List.all_eq_true.mpr hblank]
    exact endsInOperator_of_symbol ho (by simpa using hblank) o.behind
  · have hother : ∃ c ∈ gap.reverse, Text.isBlank c = false := by simpa using hblank
    rw [endsInOperator_append hother, endsInOperator_of_ordinary (by simpa using hgap)]
    simpa using hblank

/-- What stands before the symbols of a run: no operator before the first, and before each other
the symbol that precedes it in the run. -/
theorem exists_of_mem_runs {run : List Occurrence} (h : run ∈ runs fragment) :
    ∃ first rest, run = first :: rest ∧ endsInOperator first.behind = false ∧
      ∀ o ∈ rest, endsInOperator o.behind = true ∧ ∃ p ∈ scan fragment, Follows p o := by
  obtain ⟨earlier, later, hruns⟩ := List.append_of_mem h
  have hscan : scan fragment = earlier.flatten ++ (run ++ later.flatten) := by
    rw [← flatten_runs, hruns]
    simp
  have hneighbours := List.isChain_iff_forall_rel_of_append_cons_cons.mp (isChain_scan fragment)
  obtain ⟨first, rest, rfl⟩ := List.exists_cons_of_ne_nil (List.ne_nil_of_mem_splitBy h)
  refine ⟨first, rest, rfl, ?_, ?_⟩
  -- The first symbol is the first of the fragment, or a run ends before it.
  · rcases List.eq_nil_or_concat earlier with rfl | ⟨before, previous, rfl⟩
    · have hhead : first ∈ (scan fragment).head? := by
        rw [hscan]
        rfl
      obtain ⟨gap, hgap, -, hbehind⟩ := exists_of_head?_scanFrom hhead
      exact endsInOperator_of_ordinary (by simpa [hbehind] using hgap)
    · have hbreaks := List.isChain_getLast_head_splitBy joins (scan fragment)
      rw [← runs, hruns, List.concat_eq_append, List.append_assoc] at hbreaks
      obtain ⟨hne, _, hbreak⟩ := (List.isChain_append_cons_cons.mp hbreaks).2.1
      obtain ⟨front, last, rfl⟩ := List.eq_nil_or_concat previous |>.resolve_left hne
      have hsplit : scan fragment =
          (before.flatten ++ front) ++ last :: first :: (rest ++ later.flatten) := by
        rw [hscan]
        simp
      have hlast : last.symbol ∈ Symbol.table :=
        symbol_mem_table (show last ∈ scan fragment by simp [hsplit])
      rw [(hneighbours hsplit).endsInOperator_eq hlast]
      simpa using hbreak
  -- Each other one has a neighbour on its left in the run, to which it is joined.
  · intro o ho
    obtain ⟨front, back, rfl⟩ := List.append_of_mem ho
    obtain ⟨start, p, hstart⟩ :=
      List.eq_nil_or_concat (first :: front) |>.resolve_left (List.cons_ne_nil first front)
    have hrun : first :: (front ++ o :: back) = start ++ p :: o :: back := by
      rw [← List.cons_append, hstart]
      simp
    have hsplit : scan fragment =
        (earlier.flatten ++ start) ++ p :: o :: (back ++ later.flatten) := by
      rw [hscan, hrun]
      simp
    have hp : p ∈ scan fragment := by simp [hsplit]
    have hjoins := List.isChain_of_mem_splitBy h
    rw [hrun] at hjoins
    refine ⟨?_, p, hp, hneighbours hsplit⟩
    rw [(hneighbours hsplit).endsInOperator_eq (symbol_mem_table hp)]
    exact (List.isChain_append_cons_cons.mp hjoins).2.1

/-! ## Symbols that are no split points -/

/-- With no operator before it, only the sign of an exponent is refused. -/
theorem isExponentSign_of_refuses (h : refuses o.behind o.symbol = true)
    (hoperator : endsInOperator o.behind = false) : o.IsExponentSign := by
  have hcomparison : endsInComparison o.behind = false := by
    by_contra hends
    rw [Bool.not_eq_false] at hends
    rw [endsInOperator_of_endsInComparison hends] at hoperator
    cases hoperator
  rw [isExponentSign_iff]
  simpa [refuses, hoperator, hcomparison] using h

/-- A comparison character directly before an `=` is the end of a symbol of two characters, which is
a split point: with one character it would have been one symbol with the `=`. -/
theorem Follows.not_refuses (h : Follows p o) (hp : p ∈ scan fragment) (ho : o ∈ scan fragment)
    (hrole : o.symbol.role = .assign) (hcomparison : endsInComparison o.behind = true) :
    refuses p.behind p.symbol = false := by
  obtain ⟨gap, hgap, hafter, hbehind⟩ := h
  have hnil : gap = [] := by
    by_contra hne
    rw [hbehind, endsInComparison_append (by simpa using hne),
      endsInComparison_of_ordinary (by simpa using hgap)] at hcomparison
    cases hcomparison
  rw [hnil, Symbol.text_eq_of_role (symbol_mem_table ho) hrole, List.nil_append] at hafter
  rw [hbehind, hnil, List.reverse_nil, List.nil_append,
    endsInComparison_append (by simpa using Symbol.text_ne_nil (symbol_mem_table hp))]
    at hcomparison
  have hat : Symbol.at? (p.symbol.text ++ ['=']) = some p.symbol := by
    have hwhole := at?_of_mem_scanFrom hp
    rw [hafter, ← List.append_assoc] at hwhole
    exact Symbol.at?_of_append hwhole (by simp)
  have htable : ∀ symbol ∈ Symbol.table, Symbol.at? (symbol.text ++ ['=']) = some symbol →
      endsInComparison symbol.text.reverse = true →
      symbol.isSign = false ∧ (symbol.role == .assign) = false ∧ symbol.canLead = false := by
    decide
  obtain ⟨hsign, hassign, hlead⟩ := htable p.symbol (symbol_mem_table hp) hat hcomparison
  simp [refuses, hsign, hassign, hlead]

theorem refuses_of_not_split (hnone : splitPoints fragment = []) (ho : o ∈ scan fragment) :
    refuses o.behind o.symbol = true := by
  have hnot := List.filter_eq_nil_iff.mp hnone o ho
  rw [isSplitPoint_eq ho] at hnot
  simpa using hnot

/-- With an operator before it, a symbol of a fragment that does not split is a `-` or a `!`. -/
theorem text_of_not_split (hnone : splitPoints fragment = []) (ho : o ∈ scan fragment)
    (hoperator : endsInOperator o.behind = true) (hp : p ∈ scan fragment) (hfollows : Follows p o) :
    o.symbol.text = ['-'] ∨ o.symbol.text = ['!'] := by
  have hexponent : endsInExponent o.behind = false := by
    by_contra hends
    rw [Bool.not_eq_false] at hends
    rw [endsInOperator_of_endsInExponent hends] at hoperator
    cases hoperator
  have hrefuses := refuses_of_not_split hnone ho
  simp only [refuses, hexponent, Bool.and_false, Bool.false_or, Bool.or_eq_true, Bool.and_eq_true,
    beq_iff_eq] at hrefuses
  rcases hrefuses with ⟨hrole, hcomparison⟩ | ⟨hlead, -⟩
  · have hsplits := hfollows.not_refuses hp ho hrole hcomparison
    rw [refuses_of_not_split hnone hp] at hsplits
    cases hsplits
  · have htable : ∀ symbol ∈ Symbol.table, symbol.canLead = true →
        symbol.text = ['-'] ∨ symbol.text = ['!'] := by decide
    exact htable o.symbol (symbol_mem_table ho) hlead

/-! ## Fragments that do not split -/

/-- A fragment of which every run is the sign of an exponent and what follows it has no split
point, and no other fragment has none. -/
theorem splitPoints_eq_nil :
    splitPoints fragment = [] ↔ ∀ run ∈ runs fragment, IsExponentRun run := by
  constructor
  · intro hnone run hrun
    obtain ⟨first, rest, rfl, hfirst, hrest⟩ := exists_of_mem_runs hrun
    constructor
    · have hmem := mem_scan_of_mem_runs hrun (List.mem_cons_self ..)
      exact isExponentSign_of_refuses (refuses_of_not_split hnone hmem) hfirst
    · intro o ho
      have hmem := mem_scan_of_mem_runs hrun (List.mem_cons_of_mem _ ho)
      obtain ⟨hoperator, p, hp, hfollows⟩ := hrest o ho
      exact text_of_not_split hnone hmem hoperator hp hfollows
  · intro hruns
    apply List.filter_eq_nil_iff.mpr
    intro o ho
    rw [isSplitPoint_eq ho, Bool.not_eq_true, Bool.not_eq_false']
    have htable : ∀ symbol ∈ Symbol.table, symbol.text = ['-'] ∨ symbol.text = ['!'] →
        symbol.canLead = true := by decide
    obtain ⟨run, hrun, hmem⟩ : ∃ run ∈ runs fragment, o ∈ run := by
      rwa [← List.mem_flatten, flatten_runs]
    obtain ⟨first, rest, rfl, -, hrest⟩ := exists_of_mem_runs hrun
    obtain ⟨hsign, hleads⟩ := hruns _ hrun
    rcases List.mem_cons.mp hmem with rfl | hmem
    · obtain ⟨hmark, hexponent⟩ := isExponentSign_iff.mp hsign
      simp [refuses, hmark, hexponent]
    · simp [refuses, htable o.symbol (symbol_mem_table ho) (hleads o hmem), (hrest o hmem).1]

/-- An operator character that is not the sign of an exponent makes a fragment split. -/
theorem splitPoints_ne_nil (hchar : ∃ c ∈ fragment, Symbol.isSymbolChar c = true)
    (hsign : ∀ o ∈ scan fragment, ¬ o.IsExponentSign) : splitPoints fragment ≠ [] := by
  intro hnone
  have hruns := splitPoints_eq_nil.mp hnone
  rcases scanFrom_next [] fragment with ⟨-, hordinary⟩ | ⟨gap, symbol, after, -, -, hscan⟩
  · obtain ⟨c, hc, hsymbol⟩ := hchar
    rw [hordinary c hc] at hsymbol
    cases hsymbol
  · have hne : scan fragment ≠ [] := by
      rw [scan, hscan]
      simp
    obtain ⟨run, hrun⟩ := List.exists_mem_of_ne_nil _ (List.splitBy_ne_nil.mpr hne)
    obtain ⟨first, rest, rfl, -⟩ := exists_of_mem_runs hrun
    apply hsign first (mem_scan_of_mem_runs hrun (List.mem_cons_self ..))
    exact (hruns _ hrun).1

end Occurrence

/-! ## Leaves -/

namespace SplitTree

variable {α : Type}

/-- The flat statements in which splitting ends; they are read as operands. -/
def leaves : SplitTree α → List (List (Item α))
  | .leaf items => [items]
  | .tooDeep _ => []
  | .split _ left right => left.leaves ++ right.leaves

/-- No fragment with a split point is left when splitting ends. -/
theorem splitPoints_of_mem_leaves {levels : Nat} {items leaf : List (Item α)}
    (h : leaf ∈ (ofItems levels items).leaves) {fragment : Text} (hmem : .text fragment ∈ leaf) :
    Occurrence.splitPoints fragment = [] := by
  induction levels generalizing items with
  | zero =>
      simp only [ofItems] at h
      split at h
      next hfind =>
        rw [List.mem_singleton.mp h] at hmem
        exact Cut.splitPoints_of_find?_eq_none hfind hmem
      next => cases h
  | succ levels ih =>
      simp only [ofItems] at h
      split at h
      next hfind =>
        rw [List.mem_singleton.mp h] at hmem
        exact Cut.splitPoints_of_find?_eq_none hfind hmem
      next cut hfind =>
        rcases List.mem_append.mp h with h | h
        · exact ih h
        · exact ih h

end SplitTree

namespace Occurrence

/-- A fragment does not split exactly if each of its runs of symbols is the sign of an exponent with
nothing but `-` and `!` behind it.  So one with an operator character and no sign of an exponent
splits, and no leaf of a tree of splits holds it: it is never read as a name, a literal or a
declaration. -/
theorem splitPoints_eq_nil_iff_runs (fragment : Text) :
    (splitPoints fragment = [] ↔ ∀ run ∈ runs fragment, IsExponentRun run) ∧
    ((∃ c ∈ fragment, Symbol.isSymbolChar c = true) →
      (∀ o ∈ scan fragment, ¬ o.IsExponentSign) →
      splitPoints fragment ≠ [] ∧
      ∀ (levels : Nat) (items : List (Item Expr)),
        ∀ leaf ∈ (SplitTree.ofItems levels items).leaves, .text fragment ∉ leaf) := by
  refine ⟨splitPoints_eq_nil, fun hchar hsign => ?_⟩
  have hsplits := splitPoints_ne_nil hchar hsign
  refine ⟨hsplits, fun levels items leaf hleaf hmem => ?_⟩
  exact hsplits (SplitTree.splitPoints_of_mem_leaves hleaf hmem)

/-- Two exponents, one with a `!` behind its sign, and then a sign that only looks like that of an
exponent. -/
theorem splitPoints_eq_nil_iff_runs_signs :
    let quiet : Text := "1.5e- !x .2E+y".toList
    let loud : Text := "a2e-1 != -x".toList
    (runs quiet).map List.length = [2, 1] ∧ splitPoints quiet = [] ∧
    (∀ run ∈ runs quiet, IsExponentRun run) ∧
    (runs loud).map List.length = [1, 2] ∧ (∀ o ∈ scan loud, ¬ o.IsExponentSign) ∧
    splitPoints loud ≠ [] ∧
    ∀ (levels : Nat) (items : List (Item Expr)),
      ∀ leaf ∈ (SplitTree.ofItems levels items).leaves, .text loud ∉ leaf := by
  intro quiet loud
  have hquiet : splitPoints quiet = [] := by decide
  have hsign : ∀ o ∈ scan loud, ¬ o.IsExponentSign := by decide
  have hruns := (splitPoints_eq_nil_iff_runs quiet).1.mp hquiet
  have hloud := (splitPoints_eq_nil_iff_runs loud).2 ⟨'-', by decide, by decide⟩ hsign
  exact ⟨by decide, hquiet, hruns, by decide, hsign, hloud⟩

end Occurrence

end Shading
