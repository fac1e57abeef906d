/-
Reading an integer from text: blanks around it, an optional sign, and decimal digits of any
script, with single underscores allowed between digits.  The number of digits is limited.
-/
import Monkey.Text.Blank

namespace Monkey

/-- The code points of the decimal zeros; the nine digits after each zero follow it. -/
def digitZeros : List Nat :=
  [0x30, 0x660, 0x6F0, 0x7C0, 0x966, 0x9E6, 0xA66, 0xAE6, 0xB66, 0xBE6, 0xC66, 0xCE6, 0xD66,
   0xDE6, 0xE50, 0xED0, 0xF20, 0x1040, 0x1090, 0x17E0, 0x1810, 0x1946, 0x19D0, 0x1A80, 0x1A90,
   0x1B50, 0x1BB0, 0x1C40, 0x1C50, 0xA620, 0xA8D0, 0xA900, 0xA9D0, 0xA9F0, 0xAA50, 0xABF0,
   0xFF10, 0x104A0, 0x10D30, 0x11066, 0x110F0, 0x11136, 0x111D0, 0x112F0, 0x11450, 0x114D0,
   0x11650, 0x116C0, 0x11730, 0x118E0, 0x11950, 0x11C50, 0x11D50, 0x11DA0, 0x16A60, 0x16AC0,
   0x16B50, 0x1D7CE, 0x1D7D8, 0x1D7E2, 0x1D7EC, 0x1D7F6, 0x1E140, 0x1E2F0, 0x1E950, 0x1FBF0]

/-- The value of a decimal digit. -/
def digitValue? (c : Char) : Option Nat :=
  (digitZeros.find? fun first => first ≤ c.toNat && c.toNat < first + 10).map (c.toNat - ·)

/-- The value of a run of decimal digits, the most significant one first. -/
def ofDigits (digits : List Nat) : Nat :=
  digits.foldl (fun value digit => 10 * value + digit) 0

/-- The blanks allowed around a number: the information separators are not among them. -/
def isNumberBlank (c : Char) : Bool :=
  isBlank c && !(0x1C ≤ c.toNat && c.toNat ≤ 0x1F)

inductive NumberFault where
  | malformed
  | tooLong (digits : Nat)
deriving Repr, DecidableEq

/-- The most digits that a number may have. -/
def maxDigits : Nat := 4300

/-- No underscore at either end, nor next to another one. -/
def separatorsAlone : List Char → Bool
  | [] => true
  | ['_'] => false
  | '_' :: '_' :: _ => false
  | _ :: rest => separatorsAlone rest

/-- The digits of a number and what follows them, or `none` if there are no digits or an
underscore is out of place. -/
def splitDigits (text : List Char) : Option (List Nat × List Char) :=
  let isPart := fun c => c == '_' || (digitValue? c).isSome
  let run := text.takeWhile isPart
  if run.isEmpty || run.head? == some '_' || !separatorsAlone run then none
  else some (run.filterMap digitValue?, text.dropWhile isPart)

/-- Splits off a sign. -/
def splitSign : List Char → Bool × List Char
  | '-' :: rest => (true, rest)
  | '+' :: rest => (false, rest)
  | text => (false, text)

/-- Reads an integer.  Too many digits are refused before what follows them is looked at. -/
def readInt (text : String) : Except NumberFault Int :=
  let (negative, unsigned) := splitSign (text.toList.dropWhile isNumberBlank)
  match splitDigits unsigned with
  | none => .error .malformed
  | some (digits, rest) =>
      if digits.length > maxDigits then .error (.tooLong digits.length)
      else if rest.all isNumberBlank then
        .ok (if negative then -(ofDigits digits : Int) else ofDigits digits)
      else .error .malformed

example : readInt " -1_000\n" = .ok (-1000) := by rfl

example : readInt "1__0" = .error .malformed := by rfl

end Monkey
