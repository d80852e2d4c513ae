import Shading.Text.Hidden
import Shading.Text.Basic

/-!
# Quoted text

The form in which messages and inspection text show a text: between double
quotes, with the usual escapes, and with every other character that has no
visible form written as its code point in hexadecimal.
-/

namespace Shading.Text

/-- A code point written as `\u`, a brace, its lower-case hexadecimal digits, a brace. -/
def codeEscape (c : Char) : Text :=
  ['\\', 'u', '\x7b'] ++ Nat.toDigits 16 c.toNat ++ ['\x7d']

/-- A character as it stands between the quotes. -/
def escape (c : Char) : Text :=
  if c = '"' then ['\\', '"']
  else if c = '\\' then ['\\', '\\']
  else if c = '\n' then ['\\', 'n']
  else if c = '\r' then ['\\', 'r']
  else if c = '\t' then ['\\', 't']
  else if c = '\x00' then ['\\', '0']
  else if isHidden c then codeEscape c
  else [c]

/-- A text between double quotes. -/
def quoted (text : Text) : String :=
  String.ofList ('"' :: text.flatMap escape ++ ['"'])

/-- A text as it is. -/
def plain (text : Text) : String :=
  String.ofList text

end Shading.Text
