import Mathlib.Data.List.TakeWhile
import Shading.Proofs.Rescan

/-!
# Split points of the two sides

When a fragment is split, both sides are trimmed and scanned anew.  They hold the symbols
that they held in the fragment, but what makes a symbol a split point is the text before
it, and of that less is left:

```text
in the fragment          on a side of its own
mantissa, then a sign    the same: no mantissa reaches over a symbol or a blank
comparison, then `=`     the `=` at the start of the right side has lost the comparison
operator, then `-` `!`   the one at the start of the right side has lost the operator
```

So the left side has the split points that it had, and the right side has one more at most,
at its very start.  The rule that looks at the text after an `=` never matters: two of
them are one symbol.

* `isSplitPoint_eq`: split points by the text before them.
* `splitPoints_sides`: the split points of a fragment, from those of its sides.
* `marks_sides`: the same by the number of bytes before each.
-/

namespace Shading

namespace Symbol

theorem at?_equals_equals (rest : Text) :
    at? ('=' :: '=' :: rest) = some (relation "==" .equalTo) := by
  rfl

end Symbol

namespace Occurrence

/-! ## Split points by the text before them -/

/-- Whether the text before a symbol, given from its end, keeps it from being a split point. -/
def refuses (behind : Text) (symbol : Symbol) : Bool :=
  (symbol.isSign && endsInExponent behind) ||
    (symbol.role == .assign && endsInComparison behind) ||
    (symbol.canLead && endsInOperator behind)

/-- An assignment is a split point unless it stands directly after a comparison character: behind
it there is no `=`, or the two would be one symbol. -/
theorem isSplitPoint_of_assign {fragment : Text} {o : Occurrence} (h : o ∈ scan fragment)
    (hrole : o.symbol.role = .assign) : o.isSplitPoint = !endsInComparison o.behind := by
  have htext := Symbol.text_eq_of_role (symbol_mem_table h) hrole
  have hnext : o.after.head? ≠ some '=' := by
    intro hhead
    obtain ⟨rest, hafter⟩ := List.head?_eq_some_iff.mp hhead
    have hat := at?_of_mem_scanFrom h
    rw [htext, hafter, List.singleton_append, Symbol.at?_equals_equals] at hat
    rw [← Option.some.inj hat] at hrole
    cases hrole
  have hsign : o.symbol.isSign = false := by
    rw [Symbol.isSign, htext]
    decide
  simp [isSplitPoint, hsign, hrole, hnext]

theorem isSplitPoint_eq {fragment : Text} {o : Occurrence} (h : o ∈ scan fragment) :
    o.isSplitPoint = !refuses o.behind o.symbol := by
  by_cases hrole : o.symbol.role = .assign
  · have hexclusive : ∀ symbol ∈ Symbol.table, symbol.role = .assign →
        symbol.isSign = false ∧ symbol.canLead = false := by decide
    obtain ⟨hsign, hlead⟩ := hexclusive o.symbol (symbol_mem_table h) hrole
    rw [isSplitPoint_of_assign h hrole, refuses, hsign, hlead, hrole]
    simp
  · have hnot : (o.symbol.role == .assign) = false := by simpa using hrole
    rw [isSplitPoint, refuses, hnot, if_neg hrole]
    split
    next hexponent => simp [hexponent]
    next hexponent =>
      rw [Bool.not_eq_true] at hexponent
      rw [hexponent]
      cases o.symbol.canLead <;> simp

/-! ## More text before a symbol -/

theorem isWordChar_of_isSymbolChar {c : Char} (h : Symbol.isSymbolChar c = true) :
    isWordChar c = false := by
  have hapart : ∀ d ∈ Symbol.operatorChars, isWordChar d = false := by decide
  exact hapart c (Symbol.isSymbolChar_iff.mp h)

theorem isWordChar_of_isBlank {c : Char} (h : Text.isBlank c = true) : isWordChar c = false := by
  by_contra hword
  have hrange : 46 ≤ c.toNat ∧ c.toNat ≤ 122 := by
    simp only [isWordChar, isDigit, Bool.not_eq_false, Bool.or_eq_true, Bool.and_eq_true,
      decide_eq_true_eq, beq_iff_eq, Char.le_def, UInt32.le_iff_toNat_le, Char.reduceVal,
      UInt32.reduceToNat] at hword
    have hvalue : c.toNat = c.val.toNat := rfl
    rcases hword with ((hletter | hdigit) | rfl) | rfl
    · omega
    · omega
    · decide
    · decide
  simp only [Text.isBlank, Bool.or_eq_true, Bool.and_eq_true, decide_eq_true_eq,
    beq_iff_eq] at h
  omega

variable {behind rest blanks : Text}

/-- A mantissa does not reach over a character that is part of no word. -/
theorem endsInExponent_append (hrest : ∀ c ∈ rest.head?, isWordChar c = false) :
    endsInExponent (behind ++ rest) = endsInExponent behind := by
  have hstops : rest.takeWhile isWordChar = [] := by
    cases rest with
    | nil => rfl
    | cons c more => simp [hrest c rfl]
  cases behind with
  | nil =>
      cases rest with
      | nil => rfl
      | cons c more =>
          have hc := hrest c rfl
          have hletter : (c == 'e' || c == 'E') = false := by
            by_contra hletter
            simp only [Bool.not_eq_false, Bool.or_eq_true, beq_iff_eq] at hletter
            revert hc
            rcases hletter with rfl | rfl <;> decide
          simp [endsInExponent, hletter]
  | cons c more =>
      have hrun : (more ++ rest).takeWhile isWordChar = more.takeWhile isWordChar := by
        rw [List.takeWhile_append, hstops, List.append_nil]
        split
        next hall => exact (List.takeWhile_prefix _).eq_of_length hall |>.symm
        next => rfl
      simp only [List.cons_append, endsInExponent, hrun]

theorem endsInComparison_of_ordinary (h : ∀ c ∈ behind, Symbol.isSymbolChar c = false) :
    endsInComparison behind = false := by
  cases behind with
  | nil => rfl
  | cons c rest =>
      have hc := h c (List.mem_cons_self ..)
      simp only [Symbol.isSymbolChar, Bool.or_eq_false_iff] at hc
      simp [endsInComparison, hc]

theorem endsInComparison_append (hne : behind ≠ []) (rest : Text) :
    endsInComparison (behind ++ rest) = endsInComparison behind := by
  obtain ⟨c, more, rfl⟩ := List.exists_cons_of_ne_nil hne
  rfl

theorem endsInComparison_append_blank (h : ∀ c ∈ blanks, Text.isBlank c = true)
    (behind : Text) : endsInComparison (behind ++ blanks) = endsInComparison behind := by
  cases behind with
  | cons c more => rfl
  | nil =>
      exact endsInComparison_of_ordinary fun c hc => Symbol.isSymbolChar_of_isBlank (h c hc)

theorem endsInOperator_append (hbehind : ∃ c ∈ behind, Text.isBlank c = false) (rest : Text) :
    endsInOperator (behind ++ rest) = endsInOperator behind := by
  have hne : behind.dropWhile Text.isBlank ≠ [] := by
    obtain ⟨c, hc, hblank⟩ := hbehind
    intro hnil
    have := List.dropWhile_eq_nil_iff.mp hnil c hc
    simp [hblank] at this
  obtain ⟨c, more, hdrop⟩ := List.exists_cons_of_ne_nil hne
  simp [endsInOperator, List.dropWhile_append, hdrop]

theorem endsInOperator_append_blank (h : ∀ c ∈ blanks, Text.isBlank c = true)
    (behind : Text) : endsInOperator (behind ++ blanks) = endsInOperator behind := by
  by_cases hbehind : ∃ c ∈ behind, Text.isBlank c = false
  · exact endsInOperator_append hbehind blanks
  · have hall : ∀ c ∈ behind, Text.isBlank c = true := by simpa using hbehind
    have hnil : ∀ text : Text, (∀ c ∈ text, Text.isBlank c = true) →
        endsInOperator text = false := by
      intro text htext
      simp [endsInOperator, List.dropWhile_eq_nil_iff.mpr htext]
    rw [hnil behind hall, hnil (behind ++ blanks)]
    simpa [or_imp, forall_and] using ⟨hall, h⟩

/-- Blanks in front of everything make no difference. -/
theorem refuses_append_blank (h : ∀ c ∈ blanks, Text.isBlank c = true) (behind : Text)
    (symbol : Symbol) : refuses (behind ++ blanks) symbol = refuses behind symbol := by
  have hword : ∀ c ∈ blanks.head?, isWordChar c = false :=
    fun c hc => isWordChar_of_isBlank (h c (List.mem_of_mem_head? hc))
  rw [refuses, endsInExponent_append hword, endsInComparison_append_blank h,
    endsInOperator_append_blank h, refuses]

/-- Nothing makes a difference from a place on that is neither in a word nor among the blanks
directly before the symbol. -/
theorem refuses_append (hbehind : ∃ c ∈ behind, Text.isBlank c = false)
    (hrest : ∀ c ∈ rest.head?, isWordChar c = false) (symbol : Symbol) :
    refuses (behind ++ rest) symbol = refuses behind symbol := by
  have hne : behind ≠ [] := by
    obtain ⟨c, hc, -⟩ := hbehind
    exact List.ne_nil_of_mem hc
  rw [refuses, endsInExponent_append hrest, endsInComparison_append hne,
    endsInOperator_append hbehind, refuses]

variable {fragment text first last : Text} {o p : Occurrence}

/-- Blanks in front of a text make no difference to its split points. -/
theorem isSplitPoint_amid_blank (hp : p ∈ scan text) (hq : amid first last p ∈ scan fragment)
    (hfirst : ∀ c ∈ first, Text.isBlank c = true) :
    isSplitPoint (amid first last p) = isSplitPoint p := by
  rw [isSplitPoint_eq hp, isSplitPoint_eq hq]
  exact congrArg not (refuses_append_blank (by simpa using hfirst) p.behind p.symbol)

/-- A text that does not start with a blank, behind a character of no word: only a split point at
its very start sees what is in front. -/
theorem isSplitPoint_amid (hp : p ∈ scan text) (hq : amid first last p ∈ scan fragment)
    (hfirst : ∀ c ∈ first.reverse.head?, isWordChar c = false)
    (hstarts : ∀ c ∈ text.head?, Text.isBlank c = false) (hne : p.behind ≠ []) :
    isSplitPoint (amid first last p) = isSplitPoint p := by
  obtain ⟨front, hbehind, htext, -⟩ := scanFrom_split hp
  rw [List.append_nil] at hbehind
  have hhead : ∃ c ∈ p.behind, Text.isBlank c = false := by
    rw [hbehind] at hne ⊢
    obtain ⟨c, more, rfl⟩ := List.exists_cons_of_ne_nil (List.reverse_ne_nil_iff.mp hne)
    refine ⟨c, by simp, hstarts c ?_⟩
    rw [htext]
    rfl
  rw [isSplitPoint_eq hp, isSplitPoint_eq hq]
  exact congrArg not (refuses_append hhead hfirst p.symbol)

/-! ## Marks -/

/-- The number of bytes before a symbol, and the symbol. -/
structure Mark where
  offset : Nat
  symbol : Symbol
  deriving DecidableEq, Repr

/-- The same mark with so many bytes more before it. -/
def Mark.shift (count : Nat) (mark : Mark) : Mark :=
  { mark with offset := count + mark.offset }

/-- Where an occurrence stands. -/
def mark (o : Occurrence) : Mark :=
  ⟨o.offset, o.symbol⟩

/-- The split points of a fragment, by the bytes before them. -/
def marks (fragment : Text) : List Mark :=
  (splitPoints fragment).map mark

theorem mark_amid (first last : Text) (o : Occurrence) :
    (amid first last o).mark = o.mark.shift (Text.byteLength first) := by
  simp [mark, offset, amid, Mark.shift, Nat.add_comm]

theorem map_mark_amid (first last : Text) (occurrences : List Occurrence) :
    (occurrences.map (amid first last)).map mark =
      (occurrences.map mark).map (Mark.shift (Text.byteLength first)) := by
  rw [List.map_map, List.map_map]
  exact List.map_congr_left fun o _ => mark_amid first last o

theorem Follows.offset_lt (h : Follows o p) (ho : o.symbol ∈ Symbol.table) :
    o.offset < p.offset := by
  obtain ⟨gap, -, -, hbehind⟩ := h
  have hpos := Text.byteLength_pos (Symbol.text_ne_nil ho)
  simp only [offset, hbehind, Text.byteLength_append, Text.byteLength_reverse]
  omega

/-- The marks of a fragment stand in the order of their bytes. -/
theorem pairwise_marks (fragment : Text) :
    (marks fragment).Pairwise fun a b => a.offset < b.offset := by
  have hchain : ((scan fragment).map offset).IsChain (· < ·) :=
    (List.isChain_map offset).mpr <| (isChain_scan fragment).imp_of_mem_imp
      fun o p ho _ h => h.offset_lt (symbol_mem_table ho)
  have hscan := List.pairwise_map.mp hchain.pairwise
  exact List.pairwise_map.mpr (hscan.filter _)

/-- The marks on either side of one of them are those with fewer bytes before them, and those with
more. -/
theorem filter_marks {earlier later : List Mark} {m : Mark}
    (h : marks fragment = earlier ++ m :: later) :
    (marks fragment).filter (fun n => n.offset < m.offset) = earlier ∧
      (marks fragment).filter (fun n => m.offset < n.offset) = later := by
  have hsorted := pairwise_marks fragment
  rw [h] at hsorted ⊢
  obtain ⟨-, hlater, hcross⟩ := List.pairwise_append.mp hsorted
  have hbelow : ∀ n ∈ earlier, n.offset < m.offset :=
    fun n hn => hcross n hn m (List.mem_cons_self ..)
  have habove : ∀ n ∈ later, m.offset < n.offset := (List.pairwise_cons.mp hlater).1
  constructor
  · rw [List.filter_append, List.filter_eq_self.mpr (by simpa using hbelow),
      List.filter_eq_nil_iff.mpr, List.append_nil]
    simpa using fun n hn => Nat.le_of_lt (habove n hn)
  · rw [List.filter_append, List.filter_eq_nil_iff.mpr, List.nil_append,
      List.filter_cons_of_neg (by simp), List.filter_eq_self.mpr (by simpa using habove)]
    simpa using fun n hn => Nat.le_of_lt (hbelow n hn)

/-! ## A text on its own -/

/-- The marks that a text has on its own and did not have behind a symbol: none, or a `-`, `!` or
`=` at its very start. -/
inductive Freed (text : Text) : List Mark → Prop
  | none : Freed text []
  | start {symbol : Symbol} (hat : Symbol.at? text = some symbol)
      (htext : symbol.text = ['-'] ∨ symbol.text = ['!'] ∨ symbol.text = ['=']) :
      Freed text [⟨0, symbol⟩]

/-- At most the first occurrence stands at the start of a text. -/
theorem exists_scan_start (text : Text) :
    ∃ start later, scan text = start ++ later ∧ (∀ p ∈ later, p.behind ≠ []) ∧
      (start = [] ∨ ∃ symbol after, Symbol.at? text = some symbol ∧
        start = [⟨[], symbol, after⟩]) := by
  rcases scanFrom_next [] text with ⟨hnil, -⟩ | ⟨gap, symbol, after, -, htext, hscan⟩
  · exact ⟨[], [], hnil, by simp, .inl rfl⟩
  have hmem : ⟨gap.reverse ++ [], symbol, after⟩ ∈ scan text := by
    rw [scan, hscan]
    exact List.mem_cons_self ..
  have hlater : ∀ p ∈ scanFrom (symbol.text.reverse ++ (gap.reverse ++ [])) 0 after,
      p.behind ≠ [] := by
    intro p hp
    obtain ⟨front, hbehind, -⟩ := scanFrom_split hp
    simp [hbehind, Symbol.text_ne_nil (symbol_mem_table hmem)]
  cases gap with
  | nil =>
      have hat : Symbol.at? text = some symbol := by
        rw [htext]
        exact at?_of_mem_scanFrom hmem
      exact ⟨[⟨[], symbol, after⟩], _, hscan, hlater, .inr ⟨symbol, after, hat, rfl⟩⟩
  | cons c more =>
      refine ⟨[], scan text, rfl, ?_, .inl rfl⟩
      rw [scan, hscan]
      exact List.forall_mem_cons.mpr ⟨by simp, hlater⟩

theorem refuses_nil (symbol : Symbol) : refuses [] symbol = false := by
  simp [refuses, endsInExponent, endsInComparison, endsInOperator]

theorem text_of_refuses {symbol : Symbol} (h : symbol ∈ Symbol.table)
    (hexponent : endsInExponent behind = false) (hrefuses : refuses behind symbol = true) :
    symbol.text = ['-'] ∨ symbol.text = ['!'] ∨ symbol.text = ['='] := by
  have htable : ∀ symbol ∈ Symbol.table, symbol.role = .assign ∨ symbol.canLead = true →
      symbol.text = ['-'] ∨ symbol.text = ['!'] ∨ symbol.text = ['='] := by decide
  apply htable symbol h
  simp only [refuses, hexponent, Bool.and_false, Bool.false_or, Bool.or_eq_true,
    Bool.and_eq_true, beq_iff_eq] at hrefuses
  exact hrefuses.imp And.left And.left

/-- A text that does not start with a blank and is cut off behind a character of no word: the split
points that it had stay, and one may be freed. -/
theorem exists_freed {trail : Text} (hstarts : ∀ c ∈ text.head?, Text.isBlank c = false)
    (hfirst : ∀ c ∈ first.reverse.head?, isWordChar c = false)
    (hmem : ∀ p ∈ scan text, amid first trail p ∈ scan fragment) :
    ∃ freed later, Freed text (freed.map mark) ∧ splitPoints text = freed ++ later ∧
      ((scan text).map (amid first trail)).filter isSplitPoint =
        later.map (amid first trail) := by
  obtain ⟨start, later, hscan, hlater, hstart⟩ := exists_scan_start text
  have hsame : ∀ p ∈ later, (isSplitPoint ∘ amid first trail) p = isSplitPoint p := by
    intro p hp
    have hpscan : p ∈ scan text := by simp [hscan, hp]
    exact isSplitPoint_amid hpscan (hmem p hpscan) hfirst hstarts (hlater p hp)
  have hkept : (later.map (amid first trail)).filter isSplitPoint =
      (later.filter isSplitPoint).map (amid first trail) := by
    rw [List.filter_map, List.filter_congr hsame]
  rcases hstart with rfl | ⟨symbol, after, hat, rfl⟩
  · refine ⟨[], later.filter isSplitPoint, .none, ?_, ?_⟩
    · rw [splitPoints, hscan]
      simp
    · rw [hscan, List.nil_append, hkept]
  · have hpscan : ⟨[], symbol, after⟩ ∈ scan text := by simp [hscan]
    have hpoint : isSplitPoint ⟨[], symbol, after⟩ = true := by
      rw [isSplitPoint_eq hpscan, refuses_nil]
      rfl
    have hpoints : splitPoints text = ⟨[], symbol, after⟩ :: later.filter isSplitPoint := by
      rw [splitPoints, hscan, List.singleton_append, List.filter_cons_of_pos hpoint]
    rw [hscan, List.map_append, List.filter_append, hkept, hpoints]
    by_cases hkeeps : isSplitPoint (amid first trail ⟨[], symbol, after⟩) = true
    · refine ⟨[], ⟨[], symbol, after⟩ :: later.filter isSplitPoint, .none, rfl, ?_⟩
      simp [hkeeps]
    · refine ⟨[⟨[], symbol, after⟩], later.filter isSplitPoint, .start hat ?_, rfl, ?_⟩
      · have hexponent : endsInExponent first.reverse = false :=
          @endsInExponent_append [] first.reverse hfirst
        rw [isSplitPoint_eq (hmem _ hpscan), Bool.not_eq_true, Bool.not_eq_false'] at hkeeps
        exact text_of_refuses (symbol_mem_table hpscan) hexponent hkeeps
      · simp [hkeeps]

/-! ## The sides of a split point -/

theorem amid_amid (first last lead trail : Text) (o : Occurrence) :
    amid first last (amid lead trail o) = amid (first ++ lead) (trail ++ last) o := by
  simp [amid]

/-- The scan of a fragment, from the scans of its trimmed sides. -/
theorem scan_trimmed (h : o ∈ scan fragment) :
    ∃ rest trail, scan fragment =
      (scan (Text.trim o.before)).map (amid (Text.indent o.before) rest) ++
        o :: (scan (Text.trim o.after)).map
          (amid (o.before ++ (o.symbol.text ++ Text.indent o.after)) trail) := by
  obtain ⟨trail, hbefore⟩ := scan_trim o.before
  obtain ⟨trail', hafter⟩ := scan_trim o.after
  refine ⟨trail ++ (o.symbol.text ++ o.after), trail', ?_⟩
  rw [scan_sides h, hbefore, hafter, List.map_map, List.map_map]
  congr 1
  · exact List.map_congr_left fun p _ => by simp [amid_amid]
  · exact congrArg _ (List.map_congr_left fun p _ => by simp [amid_amid])

/-- What stands before the trimmed right side ends in a blank or in the symbol. -/
theorem isWordChar_before_right (h : o.symbol ∈ Symbol.table) :
    ∀ c ∈ (o.before ++ (o.symbol.text ++ Text.indent o.after)).reverse.head?,
      isWordChar c = false := by
  intro c hc
  have hne : (o.symbol.text ++ Text.indent o.after).reverse ≠ [] := by
    simp [Symbol.text_ne_nil h]
  obtain ⟨d, more, hcons⟩ := List.exists_cons_of_ne_nil hne
  rw [List.reverse_append, hcons] at hc
  obtain rfl : d = c := by simpa using hc
  have hd : d ∈ o.symbol.text ++ Text.indent o.after := by
    rw [← List.mem_reverse, hcons]
    exact List.mem_cons_self ..
  rcases List.mem_append.mp hd with hd | hd
  · exact isWordChar_of_isSymbolChar (Symbol.isSymbolChar_of_mem_text h d hd)
  · exact isWordChar_of_isBlank (Text.isBlank_of_mem_indent hd)

/-- The split points of a fragment, cut at one of them. -/
theorem splitPoints_sides (h : o ∈ splitPoints fragment) :
    ∃ rest trail freed later, Freed (Text.trim o.after) (freed.map mark) ∧
      splitPoints (Text.trim o.after) = freed ++ later ∧
      splitPoints fragment =
        (splitPoints (Text.trim o.before)).map (amid (Text.indent o.before) rest) ++
          o :: later.map (amid (o.before ++ (o.symbol.text ++ Text.indent o.after)) trail) := by
  obtain ⟨hscan, hpoint⟩ := List.mem_filter.mp h
  obtain ⟨rest, trail, heq⟩ := scan_trimmed hscan
  have hleft : ∀ p ∈ scan (Text.trim o.before),
      (isSplitPoint ∘ amid (Text.indent o.before) rest) p = isSplitPoint p := by
    intro p hp
    have hq : amid (Text.indent o.before) rest p ∈ scan fragment := by
      rw [heq]
      exact List.mem_append_left _ (List.mem_map_of_mem hp)
    exact isSplitPoint_amid_blank hp hq fun _ => Text.isBlank_of_mem_indent
  have hright : ∀ p ∈ scan (Text.trim o.after),
      amid (o.before ++ (o.symbol.text ++ Text.indent o.after)) trail p ∈ scan fragment := by
    intro p hp
    rw [heq]
    exact List.mem_append_right _ (List.mem_cons_of_mem _ (List.mem_map_of_mem hp))
  obtain ⟨freed, later, hfreed, hsplit, hlater⟩ :=
    exists_freed (Text.tight_trim o.after).starts (isWordChar_before_right (symbol_mem_table hscan))
      hright
  refine ⟨rest, trail, freed, later, hfreed, hsplit, ?_⟩
  rw [splitPoints, heq, List.filter_append, List.filter_cons_of_pos hpoint, hlater,
    List.filter_map, List.filter_congr hleft, splitPoints]

/-- Splitting a fragment at one of its split points.  The symbol stands there, at the end of a
character.  The split points of the trimmed left side are those of the fragment before the symbol,
and those of the trimmed right side are those after it, but for a `-`, `!` or `=` at the start of
that side, which may be one more. -/
theorem marks_sides {fragment : Text} {o : Occurrence} (h : o ∈ splitPoints fragment) :
    fragment = o.before ++ (o.symbol.text ++ o.after) ∧
    Text.dropBytes? fragment o.offset = some (o.symbol.text ++ o.after) ∧
    Text.dropBytes? fragment (o.offset + Text.byteLength o.symbol.text) = some o.after ∧
    (marks (Text.trim o.before)).map (Mark.shift (Text.byteLength (Text.indent o.before))) =
      (marks fragment).filter (fun m => m.offset < o.offset) ∧
    ∃ freed later, Freed (Text.trim o.after) freed ∧
      marks (Text.trim o.after) = freed ++ later ∧
      later.map (Mark.shift (o.offset + Text.byteLength o.symbol.text +
          Text.byteLength (Text.indent o.after))) =
        (marks fragment).filter (fun m => o.offset < m.offset) := by
  have hfragment : fragment = o.before ++ (o.symbol.text ++ o.after) := by
    obtain ⟨front, hbehind, htext, -⟩ := scanFrom_split (List.mem_filter.mp h).1
    simpa [before, hbehind] using htext
  have hoffset : Text.byteLength o.before = o.offset := Text.byteLength_reverse o.behind
  obtain ⟨rest, trail, freed, later, hfreed, hsplit, hpoints⟩ := splitPoints_sides h
  have hmarks : marks fragment =
      (marks (Text.trim o.before)).map (Mark.shift (Text.byteLength (Text.indent o.before))) ++
        o.mark :: (later.map mark).map (Mark.shift (o.offset + Text.byteLength o.symbol.text +
          Text.byteLength (Text.indent o.after))) := by
    rw [marks, hpoints, List.map_append, List.map_cons, map_mark_amid, map_mark_amid,
      Text.byteLength_append, Text.byteLength_append, hoffset, Nat.add_assoc, marks]
  obtain ⟨hbelow, habove⟩ := filter_marks hmarks
  refine ⟨hfragment, ?_, ?_, hbelow.symm, freed.map mark, later.map mark, hfreed, ?_, habove.symm⟩
  · exact Text.dropBytes?_eq_some_iff.mpr ⟨o.before, hfragment, hoffset⟩
  · refine Text.dropBytes?_eq_some_iff.mpr ⟨o.before ++ o.symbol.text, ?_, ?_⟩
    · rw [List.append_assoc, ← hfragment]
    · rw [Text.byteLength_append, hoffset]
  · rw [marks, hsplit, List.map_append]

/-- A letter and a blank of more than one byte, the sign of an exponent on the left, and on the
right a `-` that is freed. -/
theorem marks_sides_freed :
    let fragment : Text := "α * 2e+1 <=\u2003- b + c".toList
    let o : Occurrence := ⟨"α * 2e+1 ".toList.reverse, .relation "<=" .lessThanOrEqualTo,
      "\u2003- b + c".toList⟩
    o ∈ splitPoints fragment ∧ (marks fragment).map Mark.offset = [3, 10, 19] ∧
    (marks "α * 2e+1".toList).map (Mark.shift 0) =
      (marks fragment).filter (fun m => m.offset < 10) ∧
    ∃ freed later, Freed "- b + c".toList freed ∧ marks "- b + c".toList = freed ++ later ∧
      later.map (Mark.shift 15) = (marks fragment).filter (fun m => 10 < m.offset) ∧
      freed ≠ [] := by
  intro fragment o
  have ho : o ∈ splitPoints fragment := by decide
  obtain ⟨-, -, -, hleft, freed, later, hfreed, hsplit, hlater⟩ := marks_sides ho
  refine ⟨ho, by decide, hleft, freed, later, hfreed, hsplit, hlater, ?_⟩
  rintro rfl
  have hlength := congrArg List.length hlater
  rw [List.length_map, ← List.nil_append later, ← hsplit] at hlength
  revert hlength
  decide

end Occurrence

end Shading
