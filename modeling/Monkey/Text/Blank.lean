/-
Blank characters, line boundaries, and the functions that trim and split text by them.
-/

namespace Monkey

/-- The Unicode white space characters, the four information separators included. -/
def isBlank (c : Char) : Bool :=
  let n := c.toNat
  (0x09 ≤ n && n ≤ 0x0D) || (0x1C ≤ n && n ≤ 0x20) || n == 0x85 || n == 0xA0 || n == 0x1680
    || (0x2000 ≤ n && n ≤ 0x200A) || n == 0x2028 || n == 0x2029 || n == 0x202F || n == 0x205F
    || n == 0x3000

/-- Drops blanks from the left end. -/
def trimLeft (text : List Char) : List Char :=
  text.dropWhile isBlank

/-- Drops the characters of a class from the right end. -/
def dropRight (p : Char → Bool) (text : List Char) : List Char :=
  (text.reverse.dropWhile p).reverse

/-- Drops blanks from both ends. -/
def trim (text : String) : String :=
  String.ofList (dropRight isBlank (trimLeft text.toList))

/-- Drops the newlines at the end of a text. -/
def dropNewlines (text : String) : String :=
  String.ofList (dropRight (· == '\n') text.toList)

/-- A text of blanks only. -/
def isBlankText (text : String) : Bool :=
  text.toList.all isBlank

/-- The characters that end a line when a text is shown line by line. -/
def isLineBreak (c : Char) : Bool :=
  let n := c.toNat
  (0x0A ≤ n && n ≤ 0x0D) || (0x1C ≤ n && n ≤ 0x1E) || n == 0x85 || n == 0x2028 || n == 0x2029

/-- The lines of a text that continues an open line, given in reverse. -/
def linesFrom (line : List Char) : List Char → List String
  | [] => if line.isEmpty then [] else [String.ofList line.reverse]
  | '\r' :: '\n' :: rest => String.ofList line.reverse :: linesFrom [] rest
  | c :: rest =>
      if isLineBreak c then String.ofList line.reverse :: linesFrom [] rest
      else linesFrom (c :: line) rest

/-- The lines of a text without their breaks; a carriage return and a newline are one break, and
a break at the very end opens no further line. -/
def splitLines (text : String) : List String :=
  linesFrom [] text.toList

/-- Rewrites every carriage return, alone or before a newline, to a newline. -/
def unifyNewlines : List Char → List Char
  | [] => []
  | '\r' :: '\n' :: rest => '\n' :: unifyNewlines rest
  | '\r' :: rest => '\n' :: unifyNewlines rest
  | c :: rest => c :: unifyNewlines rest

example : splitLines "a\r\n\nb\n" = ["a", "", "b"] := by decide +kernel

example : unifyNewlines "a\r\n\rb".toList = "a\n\nb".toList := by decide +kernel

end Monkey
