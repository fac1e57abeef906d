/-
Faults: what stops the machinery itself, as opposed to the errors of a program, which are parse
diagnostics and error values.  A fault has a category and a message.
-/
import Monkey.Label
import Monkey.Text.Template.Filling
import Monkey.Text.Utf8

namespace Monkey

inductive Fault where
  /-- Evaluation or parsing is nested beyond the limit. -/
  | tooDeep
  | number (fault : NumberFault) (text : String)
  /-- Something that is no syntax node stands where a node is evaluated. -/
  | notEvaluable (what : String)
  /-- What stands in some place lacks a part that is asked for. -/
  | noPart (owner part : String)
  /-- A syntax node stands where a label should. -/
  | unusableLabel (owner : String)
  | unordered (left right : String)
  | unbound (label : Label)
  | immutable (what : String)
  | zeroDivisor
  | noResult
  | template (fault : TemplateFault)
  | noExcerpt
  | undecodable (fault : Utf8Fault)
  | nullInPath
  | limitTooLow
  | limitTooHigh
  /-- A fault known only by its category and message. -/
  | other (category message : String)
deriving Repr, DecidableEq

def Fault.category : Fault → String
  | .tooDeep => "RecursionError"
  | .number .. => "ValueError"
  | .notEvaluable _ => "TypeError"
  | .noPart .. => "AttributeError"
  | .unusableLabel _ => "TypeError"
  | .unordered .. => "TypeError"
  | .unbound _ => "KeyError"
  | .immutable _ => "AttributeError"
  | .zeroDivisor => "ZeroDivisionError"
  | .noResult => "IndexError"
  | .template fault => fault.category
  | .noExcerpt => "IndexError"
  | .undecodable _ => "UnicodeDecodeError"
  | .nullInPath => "ValueError"
  | .limitTooLow => "ValueError"
  | .limitTooHigh => "OverflowError"
  | .other category _ => category

/-- The quoted text of a refused number is cut after this many characters. -/
def quotedNumberWidth : Nat := 200

def NumberFault.message (text : String) : NumberFault → String
  | .malformed =>
      "invalid literal for int() with base 10: "
        ++ String.ofList ((quote text).toList.take quotedNumberWidth)
  | .tooLong digits =>
      s!"Exceeds the limit ({maxDigits} digits) for integer string conversion: "
        ++ s!"value has {digits} digits; use sys.set_int_max_str_digits() to increase the limit"

def Fault.message : Fault → String
  | .tooDeep => "maximum recursion depth exceeded"
  | .number fault text => fault.message text
  | .notEvaluable what => "cannot evaluate " ++ what
  | .noPart owner part => "'" ++ owner ++ "' object has no attribute '" ++ part ++ "'"
  | .unusableLabel owner => "unhashable type: '" ++ owner ++ "'"
  | .unordered left right =>
      "'<' not supported between instances of '" ++ left ++ "' and '" ++ right ++ "'"
  | .unbound label => label.describe
  | .immutable what => what ++ " is immutable"
  | .zeroDivisor => "integer division or modulo by zero"
  | .noResult => "pop from empty list"
  | .template fault => fault.message
  | .noExcerpt => "list index out of range"
  | .undecodable fault => fault.message
  | .nullInPath => "embedded null byte"
  | .limitTooLow => "recursion limit must be greater or equal than 1"
  | .limitTooHigh => "Python int too large to convert to C int"
  | .other _ message => message

end Monkey
