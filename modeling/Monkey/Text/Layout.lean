/-
Layouts: how a text is set into a field.  A layout is written as a fill character, an alignment,
marks for numbers, a width, a separator of digits, a greatest length and a kind, each of which
may be missing.  The marks that only numbers can have are read and then refused.  Main statement:
a text that is set takes its width or its own length, whichever is greater.
-/
import Monkey.Text.Number
import Monkey.Text.Quoted

namespace Monkey

inductive Alignment where
  | left
  | right
  | center
  /-- Between a sign and the digits after it. -/
  | afterSign
deriving Repr, DecidableEq

def Alignment.ofMark? : Char → Option Alignment
  | '<' => some .left
  | '>' => some .right
  | '^' => some .center
  | '=' => some .afterSign
  | _ => none

structure Layout where
  fill : Char
  alignment : Alignment
  sign : Option Char
  /-- A negative zero loses its sign. -/
  plainZero : Bool
  alternate : Bool
  width : Nat
  separator : Option Char
  /-- The greatest length; a longer text is cut. -/
  limit : Option Nat
  kind : Char
deriving Repr, DecidableEq

/-- Why a text cannot be set. -/
inductive LayoutFault where
  | countTooHigh
  | bothSeparators
  | noLimit
  | malformed (layout : List Char)
  | separatorFor (separator kind : Char)
  | unknownKind (kind : Char)
  | sign (mark : Char)
  | plainZero
  | alternate
  | afterSign
  | tooWide
deriving Repr, DecidableEq

/-- A character in a message, by its code unless it is visible and below a bound. -/
def visibleBelow (bound : Nat) (c : Char) : String :=
  if 32 < c.toNat && c.toNat < bound then String.singleton c
  else "\\x" ++ String.ofList (Nat.toDigits 16 c.toNat)

def LayoutFault.message : LayoutFault → String
  | .countTooHigh => "Too many decimal digits in format string"
  | .bothSeparators => "Cannot specify both ',' and '_'."
  | .noLimit => "Format specifier missing precision"
  | .malformed layout =>
      "Invalid format specifier '" ++ String.ofList layout ++ "' for object of type 'str'"
  | .separatorFor separator kind =>
      "Cannot specify '" ++ String.singleton separator ++ "' with '" ++ visibleBelow 128 kind
        ++ "'."
  | .unknownKind kind =>
      "Unknown format code '" ++ visibleBelow 128 kind ++ "' for object of type 'str'"
  | .sign mark =>
      (if mark = ' ' then "Space" else "Sign") ++ " not allowed in string format specifier"
  | .plainZero => "Negative zero coercion (z) not allowed in string format specifier"
  | .alternate => "Alternate form (#) not allowed in string format specifier"
  | .afterSign => "'=' alignment not allowed in string format specifier"
  | .tooWide => ""

/-- The highest count that can be written in a layout or a template, 2 ^ 63 - 1. -/
def maxCount : Nat := 0x7fffffffffffffff

/-- The number at the front of a text, if there is one, and what follows it. -/
def readCount (text : List Char) : Except LayoutFault (Option Nat × List Char) :=
  let digits := (text.takeWhile fun c => (digitValue? c).isSome).filterMap digitValue?
  let rest := text.dropWhile fun c => (digitValue? c).isSome
  if digits.isEmpty then .ok (none, text)
  else if maxCount < ofDigits digits then .error .countTooHigh
  else .ok (some (ofDigits digits), rest)

/-- The fill character and the alignment at the front of a layout. -/
def readAlignment : List Char → (Option Char × Option Alignment) × List Char
  | first :: second :: rest =>
      match Alignment.ofMark? second, Alignment.ofMark? first with
      | some alignment, _ => ((some first, some alignment), rest)
      | none, some alignment => ((none, some alignment), second :: rest)
      | none, none => ((none, none), first :: second :: rest)
  | [first] =>
      match Alignment.ofMark? first with
      | some alignment => ((none, some alignment), [])
      | none => ((none, none), [first])
  | [] => ((none, none), [])

/-- Takes the first character of a text if it is a mark of some sort. -/
def readMark (isMark : Char → Bool) : List Char → Option Char × List Char
  | c :: rest => if isMark c then (some c, rest) else (none, c :: rest)
  | [] => (none, [])

/-- Reads a separator of digits, of which there is one at most. -/
def readSeparator (text : List Char) : Except LayoutFault (Option Char × List Char) :=
  match readMark (· == ',') text with
  | (some comma, rest) =>
      if rest.head? = some '_' then .error .bothSeparators else .ok (some comma, rest)
  | (none, rest) =>
      match readMark (· == '_') rest with
      | (some underscore, rest) =>
          if rest.head? = some ',' then .error .bothSeparators else .ok (some underscore, rest)
      | (none, rest) => .ok (none, rest)

/-- Reads a point and the greatest length behind it. -/
def readLimit (text : List Char) : Except LayoutFault (Option Nat × List Char) :=
  match readMark (· == '.') text with
  | (none, rest) => .ok (none, rest)
  | (some _, rest) =>
      match readCount rest with
      | .error fault => .error fault
      | .ok (none, _) => .error .noLimit
      | .ok (limit, rest) => .ok (limit, rest)

/-- The kinds of number that can be written with a separator. -/
def separates (separator kind : Char) : Bool :=
  ['d', 'e', 'f', 'g', 'E', 'F', 'G', '%', '\x00'].contains kind
    || (separator == '_' && ['b', 'o', 'x', 'X'].contains kind)

/-- The kind of a text, which is also that of a layout without one. -/
def textKind : Char := 's'

/-- Reads a layout. -/
def Layout.read (text : List Char) : Except LayoutFault Layout := do
  let ((fill, alignment), rest) := readAlignment text
  let (sign, rest) := readMark (['+', '-', ' '].contains ·) rest
  let (plainZero, rest) := readMark (· == 'z') rest
  let (alternate, rest) := readMark (· == '#') rest
  let (zero, rest) := readMark (fun c => fill.isNone && c == '0') rest
  let (width, rest) ← readCount rest
  let (separator, rest) ← readSeparator rest
  let (limit, rest) ← readLimit rest
  let kind ←
    match rest with
    | [] => pure textKind
    | [kind] => pure kind
    | _ => .error (.malformed text)
  match separator with
  | some mark => if separates mark kind then pure () else .error (.separatorFor mark kind)
  | none => pure ()
  return {
    fill := fill.getD (if zero.isSome then '0' else ' ')
    alignment := alignment.getD .left
    sign := sign
    plainZero := plainZero.isSome
    alternate := alternate.isSome
    width := width.getD 0
    separator := separator
    limit := limit
    kind := kind }

/-- The width beyond which there is no room for a text, 2 ^ 36. -/
def maxWidth : Nat := 0x1000000000

/-- What a text cannot have is found in a fixed order. -/
def Layout.check (layout : Layout) : Except LayoutFault Unit :=
  if layout.kind ≠ textKind then .error (.unknownKind layout.kind)
  else match layout.sign with
    | some mark => .error (.sign mark)
    | none =>
        if layout.plainZero then .error .plainZero
        else if layout.alternate then .error .alternate
        else if layout.alignment = .afterSign then .error .afterSign
        else if maxWidth < layout.width then .error .tooWide
        else .ok ()

/-- The part of a text that is shown. -/
def Layout.cut (layout : Layout) (text : List Char) : List Char :=
  match layout.limit with
  | some limit => text.take limit
  | none => text

/-- Sets a text: it is cut, and filled up to the width. -/
def Layout.set (layout : Layout) (text : List Char) : List Char :=
  let shown := layout.cut text
  let room := layout.width - shown.length
  let before :=
    match layout.alignment with
    | .right => room
    | .center => room / 2
    | .left | .afterSign => 0
  List.replicate before layout.fill ++ shown ++ List.replicate (room - before) layout.fill

/-- Sets a text by a written layout.  An empty layout changes nothing. -/
def setText (layout text : List Char) : Except LayoutFault (List Char) :=
  if layout.isEmpty then .ok text
  else do
    let layout ← Layout.read layout
    layout.check
    return layout.set text

theorem setText_nil (text : List Char) : setText [] text = .ok text := rfl

example : setText "*^7.3".toList "abcd".toList = .ok "**abc**".toList := by cbv

example : setText "=10".toList "abcd".toList = .error .afterSign := by cbv

end Monkey
