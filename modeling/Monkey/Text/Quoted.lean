/-
Quoted text: a text between quotes in which the backslash, the quote and every character that
cannot be printed are escaped.
-/
import Monkey.Text.Printable

namespace Monkey

/-- The lower-case hexadecimal digits of a number, padded with zeros to a width. -/
def hexDigits (width code : Nat) : String :=
  let digits := Nat.toDigits 16 code
  String.ofList (List.replicate (width - digits.length) '0' ++ digits)

/-- One character as it stands between quotes of the given kind, where some characters can be
shown as they are. -/
def escapeChar (isShown : Char → Bool) (mark c : Char) : String :=
  if c == mark || c == '\\' then String.ofList ['\\', c]
  else if c == '\n' then "\\n"
  else if c == '\r' then "\\r"
  else if c == '\t' then "\\t"
  else if isShown c then String.singleton c
  else if c.toNat < 0x100 then "\\x" ++ hexDigits 2 c.toNat
  else if c.toNat < 0x10000 then "\\u" ++ hexDigits 4 c.toNat
  else "\\U" ++ hexDigits 8 c.toNat

/-- Single quotes, unless the text holds one and no double quote. -/
def quoteMark (text : List Char) : Char :=
  if text.contains '\'' && !text.contains '"' then '"' else '\''

/-- A text in quotes, on one line. -/
def quoteWith (isShown : Char → Bool) (text : String) : String :=
  let mark := quoteMark text.toList
  let body := text.toList.map (escapeChar isShown mark)
  String.singleton mark ++ String.join body ++ String.singleton mark

/-- A text in quotes, on one line and printable. -/
def quote (text : String) : String :=
  quoteWith isPrintable text

/-- A text in quotes, on one line and in printable ASCII. -/
def quoteAscii (text : String) : String :=
  quoteWith (fun c => isPrintable c && c.toNat < 0x80) text

example : quote "it's" = "\"it's\"" := by decide +kernel

example : quoteAscii "\u00e9" = "'\\xe9'" := by decide +kernel

example : quote "a\\\n\x07" = "'a\\\\\\n\\x07'" := by decide +kernel

end Monkey
