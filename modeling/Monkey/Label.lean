/-
Labels: what a value is bound under in a frame.  A parsed program binds names only; a tree built
by hand can have something else in the place of a name.
-/
import Monkey.Text.Quoted

namespace Monkey

inductive Label where
  | name (text : String)
  | int (value : Int)
  | bool (value : Bool)
  | absent
deriving Repr, DecidableEq

/-- A label in a list of labels. -/
def Label.describe : Label → String
  | .name text => quote text
  | .int value => toString value
  | .bool value => if value then "True" else "False"
  | .absent => "None"

def Label.className : Label → String
  | .name _ => "str"
  | .int _ => "int"
  | .bool _ => "bool"
  | .absent => "NoneType"

/-- The order of labels.  Names have an order, and so have numbers and truth values together. -/
def Label.le? : Label → Label → Option Bool
  | .name left, .name right => some (left ≤ right)
  | .int left, .int right => some (left ≤ right)
  | .int left, .bool right => some (left ≤ right.toInt)
  | .bool left, .int right => some (left.toInt ≤ right)
  | .bool left, .bool right => some (left.toInt ≤ right.toInt)
  | _, _ => none

/-- The first two neighbours in a list that have no order. -/
def Label.unordered? : List Label → Option (Label × Label)
  | first :: second :: rest =>
      if (first.le? second).isNone then some (first, second) else unordered? (second :: rest)
  | _ => none

/-- Labels between brackets. -/
def Label.describeList (labels : List Label) : String :=
  "[" ++ ", ".intercalate (labels.map Label.describe) ++ "]"

example : Label.describeList [.name "a", .int 3] = "['a', 3]" := by decide +kernel

end Monkey
