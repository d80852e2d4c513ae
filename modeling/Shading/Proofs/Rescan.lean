import Mathlib.Data.List.Chain
import Shading.Proofs.Scan

/-!
# Scanning a part of a fragment again

When a fragment is split, each side is trimmed and scanned on its own.  The symbols found
there are those that the scan of the whole fragment found on that side: a scan that
stops or starts between two symbols sees the same symbols, because the longest match at
a place depends on what follows only as far as the match itself, and blanks are no part
of a symbol.

* `scanFrom_next`: one step of a scan; `isChain_scan`: what is between two occurrences.
* `scanFrom_split`: the scan of a fragment, cut at one of its occurrences.
* `scanFrom_append`: the same at an ordinary character.
* `scan_sides`, `scan_trim`: the scan of a side, and of a trimmed text, in that of the whole.
* `symbols_of_mem_scan`, `symbols_trim`: the same for the symbols alone.
-/

namespace Shading

/-! ## Longest match in a shorter text -/

namespace Symbol

theorem isSymbolChar_of_isBlank {c : Char} (h : Text.isBlank c = true) :
    isSymbolChar c = false :=
  isSymbolChar_eq_false (by decide) h

theorem text_isPrefix_of_at? {text : Text} {symbol : Symbol} (h : at? text = some symbol) :
    symbol.text <+: text := by
  obtain ⟨hmatch, -⟩ := List.find?_eq_some_iff_append.mp h
  exact List.isPrefixOf_iff_prefix.mp hmatch

/-- A match takes the character at which it is found, and then some of what follows. -/
theorem exists_of_at?_cons {c : Char} {rest : Text} {symbol : Symbol}
    (h : at? (c :: rest) = some symbol) :
    ∃ more after, symbol.text = c :: more ∧ rest = more ++ after := by
  obtain ⟨after, happend⟩ := text_isPrefix_of_at? h
  obtain ⟨d, more, htext⟩ :=
    List.exists_cons_of_ne_nil (text_ne_nil (List.mem_of_find?_eq_some h))
  rw [htext, List.cons_append] at happend
  obtain ⟨rfl, rfl⟩ := List.cons.inj happend
  exact ⟨more, after, htext, rfl⟩

/-- An operator character is always the start of a symbol. -/
theorem isSymbolChar_of_at?_eq_none {c : Char} {rest : Text} (h : at? (c :: rest) = none) :
    isSymbolChar c = false := by
  by_contra hc
  rw [Bool.not_eq_false, isSymbolChar_iff] at hc
  have hsingle : ∀ d ∈ operatorChars, ∃ symbol ∈ table, symbol.text = [d] := by decide
  obtain ⟨symbol, hsymbol, htext⟩ := hsingle c hc
  have hnot := List.find?_eq_none.mp h symbol hsymbol
  simp [htext] at hnot

theorem at?_eq_none_of_append {first rest : Text} (h : at? (first ++ rest) = none) :
    at? first = none := by
  refine List.find?_eq_none.mpr fun symbol hsymbol hprefix => ?_
  have hfirst : symbol.text <+: first := List.isPrefixOf_iff_prefix.mp hprefix
  have hwhole := List.find?_eq_none.mp h symbol hsymbol
  exact hwhole (List.isPrefixOf_iff_prefix.mpr (hfirst.trans (List.prefix_append ..)))

/-- The longest match is found as soon as the text reaches as far as it does. -/
theorem at?_of_append {first rest : Text} {symbol : Symbol} (h : at? (first ++ rest) = some symbol)
    (hle : symbol.text.length ≤ first.length) : at? first = some symbol := by
  obtain ⟨hmatch, earlier, later, htable, hearlier⟩ := List.find?_eq_some_iff_append.mp h
  have hprefix : symbol.text <+: first :=
    List.prefix_of_prefix_length_le (List.isPrefixOf_iff_prefix.mp hmatch)
      (List.prefix_append ..) hle
  refine List.find?_eq_some_iff_append.mpr
    ⟨List.isPrefixOf_iff_prefix.mpr hprefix, earlier, later, htable, fun other hother => ?_⟩
  have hnot := hearlier other hother
  simp only [Bool.not_eq_true', Bool.eq_false_iff, ne_eq, List.isPrefixOf_iff_prefix] at hnot ⊢
  exact fun hother' => hnot (hother'.trans (List.prefix_append ..))

end Symbol

namespace Occurrence

/-! ## What a scan finds -/

/-- The symbol of an occurrence is the longest match at its place. -/
theorem at?_of_mem_scanFrom {behind text : Text} {skip : Nat} {o : Occurrence}
    (h : o ∈ scanFrom behind skip text) :
    Symbol.at? (o.symbol.text ++ o.after) = some o.symbol := by
  induction text generalizing behind skip with
  | nil => simp [scanFrom] at h
  | cons c rest ih =>
      cases skip with
      | succ skip => exact ih h
      | zero =>
          simp only [scanFrom] at h
          split at h
          · exact ih h
          next symbol hat =>
            rcases List.mem_cons.mp h with rfl | h
            · obtain ⟨more, after, htext, rfl⟩ := Symbol.exists_of_at?_cons hat
              simpa [htext] using hat
            · exact ih h

theorem symbol_mem_table {behind text : Text} {skip : Nat} {o : Occurrence}
    (h : o ∈ scanFrom behind skip text) : o.symbol ∈ Symbol.table :=
  List.mem_of_find?_eq_some (at?_of_mem_scanFrom h)

/-- One step of a scan: it passes the ordinary characters up to the next symbol, if there is one. -/
theorem scanFrom_next (behind text : Text) :
    (scanFrom behind 0 text = [] ∧ ∀ c ∈ text, Symbol.isSymbolChar c = false) ∨
    ∃ gap symbol after, (∀ c ∈ gap, Symbol.isSymbolChar c = false) ∧
      text = gap ++ (symbol.text ++ after) ∧
      scanFrom behind 0 text = ⟨gap.reverse ++ behind, symbol, after⟩ ::
        scanFrom (symbol.text.reverse ++ (gap.reverse ++ behind)) 0 after := by
  induction text generalizing behind with
  | nil => exact .inl ⟨by simp [scanFrom], by simp⟩
  | cons c rest ih =>
      cases hat : Symbol.at? (c :: rest) with
      | some symbol =>
          obtain ⟨more, after, htext, rfl⟩ := Symbol.exists_of_at?_cons hat
          have happend : symbol.text ++ after = c :: (more ++ after) := by
            rw [htext, List.cons_append]
          rw [← happend] at hat ⊢
          exact .inr ⟨[], symbol, after, by simp, rfl, scanFrom_symbol hat behind⟩
      | none =>
          have hc := Symbol.isSymbolChar_of_at?_eq_none hat
          have hpass : scanFrom behind 0 (c :: rest) = scanFrom (c :: behind) 0 rest := by
            simp only [scanFrom, hat]
          rw [hpass]
          rcases ih (c :: behind) with ⟨hnil, hrest⟩ | ⟨gap, symbol, after, hgap, rfl, hscan⟩
          · exact .inl ⟨hnil, List.forall_mem_cons.mpr ⟨hc, hrest⟩⟩
          · refine .inr ⟨c :: gap, symbol, after, List.forall_mem_cons.mpr ⟨hc, hgap⟩, rfl, ?_⟩
            simpa using hscan

/-! ## Neighbours -/

/-- The second occurrence is the next one after the first: only ordinary characters stand between
them. -/
def Follows (o p : Occurrence) : Prop :=
  ∃ gap, (∀ c ∈ gap, Symbol.isSymbolChar c = false) ∧
    o.after = gap ++ (p.symbol.text ++ p.after) ∧
    p.behind = gap.reverse ++ (o.symbol.text.reverse ++ o.behind)

/-- Before the first occurrence that a scan finds there are only ordinary characters. -/
theorem exists_of_head?_scanFrom {behind text : Text} {o : Occurrence}
    (h : o ∈ (scanFrom behind 0 text).head?) :
    ∃ gap, (∀ c ∈ gap, Symbol.isSymbolChar c = false) ∧
      text = gap ++ (o.symbol.text ++ o.after) ∧ o.behind = gap.reverse ++ behind := by
  rcases scanFrom_next behind text with ⟨hnil, -⟩ | ⟨gap, symbol, after, hgap, htext, hscan⟩
  · simp [hnil] at h
  · rw [hscan, List.head?_cons, Option.mem_some_iff] at h
    subst h
    exact ⟨gap, hgap, htext, rfl⟩

theorem isChain_scanFrom (behind text : Text) : (scanFrom behind 0 text).IsChain Follows := by
  induction hlength : text.length using Nat.strong_induction_on generalizing behind text with
  | _ length ih =>
      rcases scanFrom_next behind text with ⟨hnil, -⟩ | ⟨gap, symbol, after, -, rfl, hscan⟩
      · rw [hnil]
        exact .nil
      · have hmem : ⟨gap.reverse ++ behind, symbol, after⟩ ∈
            scanFrom behind 0 (gap ++ (symbol.text ++ after)) := by
          rw [hscan]
          exact List.mem_cons_self ..
        have hpos : 0 < symbol.text.length :=
          List.length_pos_iff.mpr (Symbol.text_ne_nil (symbol_mem_table hmem))
        have hafter : after.length < length := by
          simp only [List.length_append] at hlength
          omega
        rw [hscan]
        refine List.isChain_cons.mpr ⟨fun p hp => ?_, ih _ hafter _ _ rfl⟩
        exact exists_of_head?_scanFrom hp

/-- The occurrences of a fragment follow each other. -/
theorem isChain_scan (fragment : Text) : (scan fragment).IsChain Follows :=
  isChain_scanFrom [] fragment

/-! ## Cutting a scan -/

/-- The same occurrence in a fragment that goes on. -/
def extend (rest : Text) (o : Occurrence) : Occurrence :=
  { o with after := o.after ++ rest }

/-- The scan of a fragment, cut at one of its occurrences. -/
theorem scanFrom_split {behind text : Text} {skip : Nat} {o : Occurrence}
    (h : o ∈ scanFrom behind skip text) :
    ∃ front, o.behind = front.reverse ++ behind ∧ text = front ++ (o.symbol.text ++ o.after) ∧
      skip ≤ front.length ∧
      scanFrom behind skip text =
        (scanFrom behind skip front).map (extend (o.symbol.text ++ o.after)) ++
          o :: scanFrom (o.symbol.text.reverse ++ o.behind) 0 o.after := by
  induction text generalizing behind skip with
  | nil => simp [scanFrom] at h
  | cons c rest ih =>
      cases skip with
      | succ skip =>
          obtain ⟨front, hbehind, htext, hle, hscan⟩ := ih h
          refine ⟨c :: front, by simp [hbehind], by rw [htext]; rfl, by simpa using hle, ?_⟩
          simpa only [scanFrom] using hscan
      | zero =>
          simp only [scanFrom] at h
          split at h
          next hat =>
            obtain ⟨front, hbehind, htext, -, hscan⟩ := ih h
            have hfront : Symbol.at? (c :: front) = none := by
              rw [htext, ← List.cons_append] at hat
              exact Symbol.at?_eq_none_of_append hat
            refine ⟨c :: front, by simp [hbehind], by rw [htext]; rfl, Nat.zero_le _, ?_⟩
            simp only [scanFrom, hat, hfront]
            exact hscan
          next symbol hat =>
            obtain ⟨more, after, hsymbol, rfl⟩ := Symbol.exists_of_at?_cons hat
            have hothers : symbol.text.length - 1 = more.length := by simp [hsymbol]
            rw [hothers, List.drop_left] at h
            rcases List.mem_cons.mp h with rfl | h
            -- The occurrence is the one found here, so nothing stands before it.
            · refine ⟨[], rfl, by simp [hsymbol], Nat.le_refl _, ?_⟩
              simp only [scanFrom, hat, hothers, List.drop_left, scanFrom_skip]
              simp [hsymbol]
            -- It stands behind the symbol found here, which is whole in the front.
            · obtain ⟨front, hbehind, htext, hle, hscan⟩ := ih h
              have hfront : Symbol.at? (c :: front) = some symbol := by
                rw [htext, ← List.cons_append] at hat
                exact Symbol.at?_of_append hat (by simpa [hsymbol] using hle)
              have hdrop : (front.drop more.length) ++ (o.symbol.text ++ o.after) = after := by
                rw [← List.drop_append_of_le_length hle, ← htext, List.drop_left]
              refine ⟨c :: front, by simp [hbehind], by rw [htext]; rfl, Nat.zero_le _, ?_⟩
              simp only [scanFrom, hat, hfront, hothers, List.drop_left, hscan, List.map_cons,
                extend, hdrop, List.cons_append]

/-- The scan of a text that goes on with an ordinary character. -/
theorem scanFrom_append {first rest : Text}
    (hrest : ∀ c ∈ rest.head?, Symbol.isSymbolChar c = false) {skip : Nat}
    (hskip : skip ≤ first.length) (behind : Text) :
    scanFrom behind skip (first ++ rest) =
      (scanFrom behind skip first).map (extend rest) ++
        scanFrom (first.reverse ++ behind) 0 rest := by
  induction first generalizing behind skip with
  | nil =>
      obtain rfl : skip = 0 := by simpa using hskip
      simp [scanFrom]
  | cons c more ih =>
      have hreverse : (c :: more).reverse ++ behind = more.reverse ++ c :: behind := by simp
      rw [hreverse, List.cons_append]
      cases skip with
      | succ skip =>
          simp only [scanFrom]
          exact ih (by simpa using hskip) (c :: behind)
      | zero =>
          have hat : Symbol.at? (c :: (more ++ rest)) = Symbol.at? (c :: more) := by
            rw [← List.cons_append]
            exact Symbol.at?_append (c :: more) hrest
          simp only [scanFrom, hat]
          split
          next => exact ih (Nat.zero_le _) (c :: behind)
          next symbol hfound =>
            obtain ⟨tail, after, hsymbol, rfl⟩ := Symbol.exists_of_at?_cons hfound
            have hothers : symbol.text.length - 1 = tail.length := by simp [hsymbol]
            have hle : tail.length ≤ (tail ++ after).length := by simp
            rw [hothers, ih hle (c :: behind)]
            simp only [List.append_assoc, List.drop_left, List.map_cons, extend, List.cons_append]

/-! ## Occurrences with more text around them -/

/-- The same occurrence in a fragment with `first` in front and `last` at its end. -/
def amid (first last : Text) (o : Occurrence) : Occurrence :=
  ⟨o.behind ++ first.reverse, o.symbol, o.after ++ last⟩

/-- What is found does not depend on what is behind, which is only carried along. -/
theorem scanFrom_amid (first behind : Text) (skip : Nat) (text : Text) :
    scanFrom (behind ++ first.reverse) skip text =
      (scanFrom behind skip text).map (amid first []) := by
  induction text generalizing behind skip with
  | nil => simp [scanFrom]
  | cons c rest ih =>
      cases skip with
      | succ skip => exact ih (c :: behind) skip
      | zero =>
          simp only [scanFrom]
          split
          next => exact ih (c :: behind) 0
          next symbol _ =>
            have hrest := ih (c :: behind) (symbol.text.length - 1)
            rw [List.map_cons, ← hrest]
            simp [amid]

/-- The occurrences before and after one of them, in the scan of the whole fragment. -/
theorem scan_sides {fragment : Text} {o : Occurrence} (h : o ∈ scan fragment) :
    scan fragment = (scan o.before).map (amid [] (o.symbol.text ++ o.after)) ++
      o :: (scan o.after).map (amid (o.before ++ o.symbol.text) []) := by
  obtain ⟨front, hbehind, -, -, hscan⟩ := scanFrom_split h
  have hbefore : o.before = front := by simp [before, hbehind]
  have hafter := scanFrom_amid (o.before ++ o.symbol.text) [] 0 o.after
  have hreverse : [] ++ (o.before ++ o.symbol.text).reverse =
      o.symbol.text.reverse ++ o.behind := by simp [before]
  rw [hreverse] at hafter
  rw [scan, hscan, hafter, hbefore]
  simp [scan, extend, amid]

/-- The scan of a text sees the symbols of the trimmed text, amid the blanks around it. -/
theorem scan_trim (text : Text) :
    ∃ trail, scan text = (scan (Text.trim text)).map (amid (Text.indent text) trail) := by
  obtain ⟨trail, htext, htrail⟩ := Text.exists_trim_indent text
  refine ⟨trail, ?_⟩
  have hindentFree : ∀ c ∈ Text.indent text, Symbol.isSymbolChar c = false :=
    fun c hc => Symbol.isSymbolChar_of_isBlank (Text.isBlank_of_mem_indent hc)
  have htrailFree : ∀ c ∈ trail, Symbol.isSymbolChar c = false :=
    fun c hc => Symbol.isSymbolChar_of_isBlank (htrail c hc)
  have htrailHead : ∀ c ∈ trail.head?, Symbol.isSymbolChar c = false :=
    fun c hc => htrailFree c (List.mem_of_mem_head? hc)
  have hnone : ∀ behind, scanFrom behind 0 trail = [] := by
    intro behind
    simpa [scanFrom] using scanFrom_ordinary htrailFree behind []
  calc scan text = scanFrom [] 0 (Text.indent text ++ (Text.trim text ++ trail)) := by
        rw [scan, ← htext]
    _ = scanFrom ([] ++ (Text.indent text).reverse) 0 (Text.trim text ++ trail) := by
        rw [scanFrom_ordinary hindentFree, List.append_nil, List.nil_append]
    _ = (scanFrom ([] ++ (Text.indent text).reverse) 0 (Text.trim text)).map (extend trail) := by
        rw [scanFrom_append htrailHead (Nat.zero_le _), hnone, List.append_nil]
    _ = (scan (Text.trim text)).map (amid (Text.indent text) trail) := by
        rw [scanFrom_amid, List.map_map]
        congr 1
        funext o
        simp [extend, amid]

/-! ## The symbols of a text -/

/-- The symbols that a scan finds, from left to right. -/
def symbols (text : Text) : List Symbol :=
  (scan text).map symbol

@[simp] theorem symbols_nil : symbols [] = [] := rfl

/-- Which symbols are found does not depend on what stands before the text. -/
theorem map_symbol_scanFrom (behind text : Text) :
    (scanFrom behind 0 text).map symbol = symbols text := by
  have hscan := scanFrom_amid behind.reverse [] 0 text
  rw [List.reverse_reverse, List.nil_append] at hscan
  rw [hscan, List.map_map]
  rfl

/-- Trimming takes no symbol. -/
theorem symbols_trim (text : Text) : symbols (Text.trim text) = symbols text := by
  obtain ⟨trail, hscan⟩ := scan_trim text
  rw [symbols, symbols, hscan, List.map_map]
  rfl

/-- The symbols of a fragment, cut at one of its occurrences. -/
theorem symbols_of_mem_scan {fragment : Text} {o : Occurrence} (h : o ∈ scan fragment) :
    symbols fragment = symbols o.before ++ o.symbol :: symbols o.after := by
  rw [symbols, scan_sides h, List.map_append, List.map_cons, List.map_map, List.map_map]
  rfl

end Occurrence

end Shading
