/-!
# Text

Source text, names and scope keys are sequences of characters.  This file holds
the operations on them that every later stage shares: which characters are
blank, trimming, cutting into words, textual substitution and measuring in
UTF-8 bytes.
-/

namespace Shading

/-- A text is the sequence of its characters. -/
abbrev Text := List Char

namespace Text

/-! ## Blanks -/

/-- The blank characters: the code points with the Unicode property `White_Space`. -/
def isBlank (c : Char) : Bool :=
  let n := c.toNat
  (0x09 ≤ n && n ≤ 0x0D) || n == 0x20 || n == 0x85 || n == 0xA0 || n == 0x1680 ||
    (0x2000 ≤ n && n ≤ 0x200A) || n == 0x2028 || n == 0x2029 || n == 0x202F ||
    n == 0x205F || n == 0x3000

/-- The text without its leading blanks. -/
def trimLeft (text : Text) : Text :=
  text.dropWhile isBlank

/-- The text without its trailing blanks. -/
def trimRight (text : Text) : Text :=
  (text.reverse.dropWhile isBlank).reverse

/-- The text without the blanks at either end. -/
def trim (text : Text) : Text :=
  trimRight (trimLeft text)

@[simp] theorem trimLeft_nil : trimLeft [] = [] := rfl

@[simp] theorem trimRight_nil : trimRight [] = [] := rfl

@[simp] theorem trim_nil : trim [] = [] := rfl

/-- The fragment that a text is once the blanks at either end are gone; a blank text is none. -/
def fragment? (text : Text) : Option Text :=
  let fragment := trim text
  if fragment.isEmpty then none else some fragment

/-- The words of a text: its maximal runs of characters that are not blank. -/
def words (text : Text) : List Text :=
  (text.splitOnP isBlank).filter fun word => !word.isEmpty

/-- The leading word of a text that starts with one. -/
def firstWord (text : Text) : Text :=
  text.takeWhile fun c => !isBlank c

/-- What follows the leading word, without the blanks that separate them. -/
def afterFirstWord (text : Text) : Text :=
  trimLeft (text.dropWhile fun c => !isBlank c)

/-- Whether a text comes before another or equals it, in the order of code points. -/
def precedes : Text → Text → Bool
  | [], _ => true
  | _ :: _, [] => false
  | a :: first, b :: second => if a = b then precedes first second else a.toNat < b.toNat

/-! ## Substitution -/

/-- Works through `text`, whose first `skip` characters belong to an occurrence
of `find` that is already replaced. -/
def replaceFrom (find value : Text) : (skip : Nat) → (text : Text) → Text
  | _, [] => []
  | skip + 1, _ :: rest => replaceFrom find value skip rest
  | 0, c :: rest =>
      if find.isPrefixOf (c :: rest) then
        value ++ replaceFrom find value (find.length - 1) rest
      else
        c :: replaceFrom find value 0 rest

/-- Replaces the occurrences of a nonempty `find` by `value`, from the left and
without overlap. -/
def replaceAll (find value text : Text) : Text :=
  replaceFrom find value 0 text

/-! ## Bytes -/

/-- The number of bytes of the text in UTF-8. -/
def byteLength : Text → Nat
  | [] => 0
  | c :: rest => c.utf8Size + byteLength rest

/-- The text after its first `count` bytes, if a character ends there. -/
def dropBytes? : (text : Text) → (count : Nat) → Option Text
  | text, 0 => some text
  | [], _ + 1 => none
  | c :: rest, count + 1 =>
      if c.utf8Size ≤ count + 1 then dropBytes? rest (count + 1 - c.utf8Size) else none

end Text

end Shading
