import Shading.Literal.Numeral
import Shading.Symbol.Basic

/-!
# Occurrences of symbols

A fragment is scanned from left to right by longest match, which gives the occurrences
of symbols in it.  Those that can serve as the root of the fragment are its split points:

* a sign is none directly after the mantissa and `e` of a number, such as `1.5e`;
* an assignment is none next to another `=`, or directly after `<`, `>` or `!`;
* a symbol that can lead its operand is none after another operator, blanks between
  them or not: it belongs to the operand.
-/

namespace Shading

/-- A symbol at its place in a fragment. -/
structure Occurrence where
  /-- The characters before the symbol, the nearest first. -/
  behind : Text
  symbol : Symbol
  /-- The text after the symbol. -/
  after : Text
  deriving DecidableEq, Repr

namespace Occurrence

/-- The text before the symbol. -/
def before (o : Occurrence) : Text :=
  o.behind.reverse

/-- The whole fragment. -/
def fragment (o : Occurrence) : Text :=
  o.before ++ o.symbol.text ++ o.after

/-- The number of bytes before the symbol. -/
def offset (o : Occurrence) : Nat :=
  Text.byteLength o.behind

/-! ## Scanning -/

/-- Scans on behind `behind`; the first `skip` characters belong to the symbol found last. -/
def scanFrom : (behind : Text) → (skip : Nat) → (text : Text) → List Occurrence
  | _, _, [] => []
  | behind, skip + 1, c :: rest => scanFrom (c :: behind) skip rest
  | behind, 0, c :: rest =>
      match Symbol.at? (c :: rest) with
      | none => scanFrom (c :: behind) 0 rest
      | some symbol =>
          let others := symbol.text.length - 1
          ⟨behind, symbol, rest.drop others⟩ :: scanFrom (c :: behind) others rest

/-- The occurrences of symbols in a fragment, from left to right. -/
def scan (fragment : Text) : List Occurrence :=
  scanFrom [] 0 fragment

/-! ## Split points -/

/-- The characters of numbers and names. -/
def isWordChar (c : Char) : Bool :=
  ('a' ≤ c && c ≤ 'z') || ('A' ≤ c && c ≤ 'Z') || isDigit c || c == '_' || c == '.'

/-- Whether a text, given from its end, ends in `e` or `E` after a run of word characters
that is a mantissa. -/
def endsInExponent : (behind : Text) → Bool
  | [] => false
  | c :: rest =>
      (c == 'e' || c == 'E') && FloatNumeral.isMantissa (rest.takeWhile isWordChar).reverse

/-- Whether a text, given from its end, ends in an operator character, blanks aside. -/
def endsInOperator (behind : Text) : Bool :=
  match behind.dropWhile Text.isBlank with
  | [] => false
  | c :: _ => Symbol.isSymbolChar c

/-- Whether a text, given from its end, ends in a character that makes `=` no assignment. -/
def endsInComparison : (behind : Text) → Bool
  | [] => false
  | c :: _ => c == '<' || c == '>' || c == '!' || c == '='

/-- Whether a fragment can be split at an occurrence. -/
def isSplitPoint (o : Occurrence) : Bool :=
  if o.symbol.isSign && endsInExponent o.behind then false
  else if o.symbol.role = .assign then
    !(o.after.head? == some '=') && !endsInComparison o.behind
  else if o.symbol.canLead then !endsInOperator o.behind
  else true

/-- The split points of a fragment, from left to right. -/
def splitPoints (fragment : Text) : List Occurrence :=
  (scan fragment).filter isSplitPoint

/-! ## The root of a fragment -/

/-- The weight of an occurrence within its fragment: by rank, and among equals a symbol that
only leads yields to the others. -/
def weight (o : Occurrence) : Nat :=
  2 * o.symbol.rank.level + if o.symbol.onlyLeads then 0 else 1

/-- The first occurrence of greatest weight. -/
def heaviest? : List Occurrence → Option Occurrence
  | [] => none
  | o :: rest =>
      match heaviest? rest with
      | none => some o
      | some p => if o.weight < p.weight then some p else some o

/-- The occurrence at which a fragment splits. -/
def root? (fragment : Text) : Option Occurrence :=
  heaviest? (splitPoints fragment)

end Occurrence

end Shading
