import Mathlib.Data.List.Find
import Shading.Symbol.Occurrence
import Shading.Proofs.Text

/-!
# Scanning for symbols

A scan takes the longest symbol at each place and passes over ordinary characters one by
one.  Ordinary characters occur in no symbol, so a match ends before the next of them at
the latest, whatever stands behind it.

`pointsFrom` is the list of split points that a scan finds from a place on.

* `isSymbolChar_eq_false`: characters of a class apart from the operator characters.
* `at?_append`, `at?_text_append`: the longest match before an ordinary character.
* `scanFrom_ordinary`, `scanFrom_symbol`: a scan passes ordinary text, and a symbol.
* `pointsFrom_append`, `pointsFrom_symbol`: the same for its split points.
-/

namespace Shading

namespace Symbol

/-! ## Operator characters -/

/-- The operator characters, listed. -/
def operatorChars : Text :=
  ['+', '-', '*', '/', '<', '>', '=', '!', '&', '|']

theorem isSymbolChar_iff {c : Char} : isSymbolChar c = true ↔ c ∈ operatorChars := by
  simp [isSymbolChar, operatorChars, or_assoc]

/-- The characters of a class to which no operator character belongs are ordinary. -/
theorem isSymbolChar_eq_false {member : Char → Bool}
    (hapart : ∀ d ∈ operatorChars, member d = false) {c : Char} (hc : member c = true) :
    isSymbolChar c = false := by
  by_contra hsymbol
  rw [Bool.not_eq_false] at hsymbol
  rw [hapart c (isSymbolChar_iff.mp hsymbol)] at hc
  cases hc

/-! ## Longest match -/

/-- The symbol starts with an operator character, and so do all its tails. -/
theorem isSymbolChar_of_mem_text {symbol : Symbol} (h : symbol ∈ table) :
    ∀ c ∈ symbol.text, isSymbolChar c = true := by
  revert symbol
  decide

theorem isPrefixOf_append {text first rest : Text} (htext : ∀ c ∈ text, isSymbolChar c = true)
    (hrest : ∀ c ∈ rest.head?, isSymbolChar c = false) :
    text.isPrefixOf (first ++ rest) = text.isPrefixOf first := by
  induction text generalizing first with
  | nil => simp
  | cons c more ih =>
      have hc : isSymbolChar c = true := htext c (List.mem_cons_self ..)
      cases first with
      | cons d first =>
          have hmore : more.isPrefixOf (first ++ rest) = more.isPrefixOf first :=
            ih fun c hc => htext c (List.mem_cons_of_mem _ hc)
          simp [List.isPrefixOf, hmore]
      | nil =>
          cases rest with
          | nil => rfl
          | cons d rest =>
              have hd : isSymbolChar d = false := hrest d rfl
              have hne : c ≠ d := by
                rintro rfl
                rw [hc] at hd
                exact Bool.noConfusion hd
              simp [List.isPrefixOf, hne]

/-- Longest match does not see what stands behind the next ordinary character. -/
theorem at?_append (first : Text) {rest : Text}
    (hrest : ∀ c ∈ rest.head?, isSymbolChar c = false) : at? (first ++ rest) = at? first := by
  unfold at?
  exact List.find?_congr fun symbol hsymbol =>
    isPrefixOf_append (isSymbolChar_of_mem_text hsymbol) hrest

theorem at?_of_not_isSymbolChar {c : Char} (hc : isSymbolChar c = false) (rest : Text) :
    at? (c :: rest) = none := by
  have h : at? ([] ++ c :: rest) = at? [] := at?_append [] (by simpa using hc)
  exact h.trans (by decide)

/-- A symbol is found where it stands, if no operator character follows it. -/
theorem at?_text_append {symbol : Symbol} (hsymbol : symbol ∈ table) {rest : Text}
    (hrest : ∀ c ∈ rest.head?, isSymbolChar c = false) :
    at? (symbol.text ++ rest) = some symbol := by
  rw [at?_append _ hrest]
  revert symbol
  decide

theorem text_ne_nil {symbol : Symbol} (hsymbol : symbol ∈ table) : symbol.text ≠ [] := by
  revert symbol
  decide

theorem text_eq_of_role {symbol : Symbol} (hsymbol : symbol ∈ table)
    (hrole : symbol.role = .assign) : symbol.text = ['='] := by
  revert symbol
  decide

end Symbol

/-! ## Passing ordinary characters and symbols -/

namespace Occurrence

/-- The split points that a scan finds in `text` when it has `behind` behind it. -/
def pointsFrom (behind text : Text) : List Occurrence :=
  (scanFrom behind 0 text).filter isSplitPoint

theorem splitPoints_eq (fragment : Text) : splitPoints fragment = pointsFrom [] fragment := rfl

@[simp] theorem pointsFrom_nil (behind : Text) : pointsFrom behind [] = [] := by
  simp [pointsFrom, scanFrom]

/-- The characters that belong to the symbol found last are passed over. -/
theorem scanFrom_skip (behind taken rest : Text) :
    scanFrom behind taken.length (taken ++ rest) = scanFrom (taken.reverse ++ behind) 0 rest := by
  induction taken generalizing behind with
  | nil => rfl
  | cons c more ih =>
      have h := ih (c :: behind)
      simpa [scanFrom] using h

theorem pointsFrom_cons {c : Char} (hc : Symbol.isSymbolChar c = false) (behind rest : Text) :
    pointsFrom behind (c :: rest) = pointsFrom (c :: behind) rest := by
  simp only [pointsFrom, scanFrom, Symbol.at?_of_not_isSymbolChar hc]

/-- Ordinary characters are passed over. -/
theorem scanFrom_ordinary {text : Text} (htext : ∀ c ∈ text, Symbol.isSymbolChar c = false)
    (behind rest : Text) :
    scanFrom behind 0 (text ++ rest) = scanFrom (text.reverse ++ behind) 0 rest := by
  induction text generalizing behind with
  | nil => rfl
  | cons c more ih =>
      have hc : Symbol.isSymbolChar c = false := htext c (List.mem_cons_self ..)
      have hmore := ih (fun d hd => htext d (List.mem_cons_of_mem _ hd)) (c :: behind)
      simp only [List.cons_append, scanFrom, Symbol.at?_of_not_isSymbolChar hc, hmore]
      simp

/-- Text without operator characters has no split points. -/
theorem pointsFrom_append {text : Text} (htext : ∀ c ∈ text, Symbol.isSymbolChar c = false)
    (behind rest : Text) :
    pointsFrom behind (text ++ rest) = pointsFrom (text.reverse ++ behind) rest := by
  rw [pointsFrom, scanFrom_ordinary htext, pointsFrom]

/-- A symbol that is the longest match is found, and passed whole. -/
theorem scanFrom_symbol {symbol : Symbol} {rest : Text}
    (hat : Symbol.at? (symbol.text ++ rest) = some symbol) (behind : Text) :
    scanFrom behind 0 (symbol.text ++ rest) =
      ⟨behind, symbol, rest⟩ :: scanFrom (symbol.text.reverse ++ behind) 0 rest := by
  obtain ⟨c, more, htext⟩ :=
    List.exists_cons_of_ne_nil (Symbol.text_ne_nil (List.mem_of_find?_eq_some hat))
  have happend : symbol.text ++ rest = c :: (more ++ rest) := by
    rw [htext, List.cons_append]
  have hothers : symbol.text.length - 1 = more.length := by
    simp [htext]
  have hskip : scanFrom (c :: behind) more.length (more ++ rest) =
      scanFrom (symbol.text.reverse ++ behind) 0 rest := by
    rw [scanFrom_skip, htext, List.reverse_cons, List.append_assoc]
    rfl
  rw [happend] at hat ⊢
  simp only [scanFrom, hat, hothers, List.drop_left, hskip]

/-- A symbol is passed whole, and is itself a split point if its place allows it. -/
theorem pointsFrom_symbol {symbol : Symbol} (hsymbol : symbol ∈ Symbol.table) {rest : Text}
    (hrest : ∀ c ∈ rest.head?, Symbol.isSymbolChar c = false) (behind : Text) :
    pointsFrom behind (symbol.text ++ rest) =
      if isSplitPoint ⟨behind, symbol, rest⟩ then
        ⟨behind, symbol, rest⟩ :: pointsFrom (symbol.text.reverse ++ behind) rest
      else pointsFrom (symbol.text.reverse ++ behind) rest := by
  have hat := Symbol.at?_text_append hsymbol hrest
  simp only [pointsFrom, scanFrom_symbol hat, List.filter_cons]

end Occurrence

end Shading
