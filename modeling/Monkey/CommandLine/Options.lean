/-
The command line of the program: an optional source file, and flags.  A flag may be shortened to
any unique beginning, its value may be attached behind an equals sign, and two dashes end the
flags.
-/
import Monkey.Text.Number

namespace Monkey

structure Options where
  file : Option String
  showTree : Bool
  recursionLimit : Int
deriving Repr, DecidableEq

def Options.default : Options :=
  ⟨none, false, 10000⟩

/-- Why the command line starts no run. -/
inductive Refusal where
  | help
  | misuse
deriving Repr, DecidableEq

def Refusal.exitCode : Refusal → Int
  | .help => 0
  | .misuse => 2

inductive Flag where
  | help
  | ast
  | recursionLimit
deriving Repr, DecidableEq

def Flag.all : List Flag := [.help, .ast, .recursionLimit]

def Flag.name : Flag → String
  | .help => "--help"
  | .ast => "--ast"
  | .recursionLimit => "--recursion-limit"

/-- The only flag with a name of one letter. -/
def shortHelp : String := "-h"

def Flag.ofName? (name : String) : Option Flag :=
  if name = shortHelp then some .help
  else Flag.all.find? fun flag => flag.name == name

def usageText : String :=
  "usage: monkey [-h] [--ast] [--recursion-limit LIMIT] [file]"

/-- An argument by its form. -/
inductive Argument where
  | operand (text : String)
  /-- Two dashes alone. -/
  | separator
  | flag (flag : Flag) (attached : Option String)
  /-- The short help flag with letters behind it. -/
  | cluster (letters : List Char)
  | unknown
deriving Repr, DecidableEq

/-- The text before the first equals sign, and the text behind it if there is one. -/
def splitEquals (text : String) : String × Option String :=
  let name := text.toList.takeWhile (· != '=')
  match text.toList.dropWhile (· != '=') with
  | [] => (text, none)
  | _ :: value => (String.ofList name, some (String.ofList value))

/-- A minus sign and a decimal number without exponent, before at most one newline. -/
def isNegativeNumber (text : String) : Bool :=
  let isDecimal := fun c => (digitValue? c).isSome
  match text.toList with
  | '-' :: rest =>
      let digits := if rest.getLast? = some '\n' then rest.dropLast else rest
      match digits.dropWhile isDecimal with
      | [] => !digits.isEmpty
      | '.' :: fraction => !fraction.isEmpty && fraction.all isDecimal
      | _ => false
  | _ => false

/-- The flags whose long names begin with a text. -/
def Flag.completions (beginning : String) : List Flag :=
  if beginning.startsWith "--" then Flag.all.filter (·.name.startsWith beginning) else []

/-- The form of an argument that begins with a minus sign and is no flag by its full name.  A
beginning shared by several flags is a misuse. -/
def Argument.ofDashed (text : String) : Except Refusal Argument :=
  let (name, attached) := splitEquals text
  if text.startsWith shortHelp then .ok (.cluster (text.toList.drop 2))
  else match Flag.completions name with
    | [only] => .ok (.flag only attached)
    | _ :: _ :: _ => .error .misuse
    | [] =>
        if isNegativeNumber text || text.contains ' ' then .ok (.operand text) else .ok .unknown

/-- The form of an argument before any separator. -/
def Argument.ofText (text : String) : Except Refusal Argument :=
  if !text.startsWith "-" || text = "-" then .ok (.operand text)
  else match Flag.ofName? text with
    | some named => .ok (.flag named none)
    | none => Argument.ofDashed text

/-- The forms of all arguments; behind the first separator everything is an operand. -/
def Argument.ofTexts : List String → Except Refusal (List Argument)
  | [] => .ok []
  | "--" :: rest => .ok (.separator :: rest.map .operand)
  | text :: rest => do
      let argument ← Argument.ofText text
      return argument :: (← Argument.ofTexts rest)

/-- The options so far. -/
structure OptionsReader where
  options : Options
  /-- No further operand is accepted. -/
  full : Bool
  /-- Something was found that has no meaning. -/
  excess : Bool

def OptionsReader.takeFile (reader : OptionsReader) (file : Option String) : OptionsReader :=
  { reader with options := { reader.options with file := file }, full := true }

def OptionsReader.takeLimit (reader : OptionsReader) (text : String) :
    Except Refusal OptionsReader :=
  match readInt text with
  | .ok limit => .ok { reader with options := { reader.options with recursionLimit := limit } }
  | .error _ => .error .misuse

/-- What becomes of the short help flag with letters behind it.  The same flag may be repeated; a
value, or another minus sign, is a misuse. -/
def clusterRefusal (letters : List Char) : Refusal :=
  match letters.dropWhile (· == 'h') with
  | '=' :: _ | '-' :: _ => .misuse
  | _ => .help

/-- Reads arguments from left to right.  A separator belongs to the operand next to it, or stands
for none, while the operand is still open; later it is in excess. -/
def OptionsReader.read (reader : OptionsReader) : List Argument → Except Refusal OptionsReader
  | [] => .ok reader
  | .operand text :: .separator :: rest =>
      if reader.full then ({ reader with excess := true } : OptionsReader).read rest
      else (reader.takeFile (some text)).read rest
  | .operand text :: rest =>
      if reader.full then ({ reader with excess := true } : OptionsReader).read rest
      else (reader.takeFile (some text)).read rest
  | .separator :: .operand text :: rest =>
      if reader.full then ({ reader with excess := true } : OptionsReader).read rest
      else (reader.takeFile (some text)).read rest
  | .separator :: rest =>
      if reader.full then ({ reader with excess := true } : OptionsReader).read rest
      else (reader.takeFile none).read rest
  | .flag .help none :: _ => .error .help
  | .flag .help (some _) :: _ => .error .misuse
  | .cluster letters :: _ => .error (clusterRefusal letters)
  | .flag .ast none :: rest =>
      ({ reader with options := { reader.options with showTree := true } } : OptionsReader).read
        rest
  | .flag .ast (some _) :: _ => .error .misuse
  | .flag .recursionLimit (some text) :: rest => do (← reader.takeLimit text).read rest
  | .flag .recursionLimit none :: .operand text :: rest => do
      (← reader.takeLimit text).read rest
  | .flag .recursionLimit none :: _ => .error .misuse
  | .unknown :: rest => ({ reader with excess := true } : OptionsReader).read rest

/-- Reads a command line. -/
def Options.read (texts : List String) : Except Refusal Options := do
  let arguments ← Argument.ofTexts texts
  let reader ← (OptionsReader.mk .default false false).read arguments
  if reader.excess then .error .misuse else .ok reader.options

example : Options.read ["--", "--ast"] = .ok ⟨some "--ast", false, 10000⟩ := by rfl

example : Options.read ["--rec", "-8", "a"] = .ok ⟨some "a", false, -8⟩ := by cbv

example : Options.read ["a", "b", "-h"] = .error .help := by cbv

end Monkey
