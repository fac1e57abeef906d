/-
The built-in functions.  Misuse gives an error value without a token; the call fills it in.
-/
import Monkey.Machine

namespace Monkey

/-- Why evaluation gives an error value. -/
inductive Problem where
  | notFound (name : String)
  | prefixOperand (operator type : String)
  | infixOperands (left operator right : String)
  | divisionByZero
  | notFunction (type : String)
  | argumentCount (expected got : Nat)
  | arrayIndex (type : String)
  | unusableKey (type : String)
  | notIndexable (type : String)
  | arity (name : String) (got expected : Nat)
  | argument (name type : String)
deriving Repr, DecidableEq

def Problem.message : Problem → String
  | .notFound name => "identifier not found: " ++ name
  | .prefixOperand operator type => "unknown operator: " ++ operator ++ type
  | .infixOperands left operator right =>
      "unknown operator: " ++ left ++ " " ++ operator ++ " " ++ right
  | .divisionByZero => "division by zero"
  | .notFunction type => "not a function: " ++ type
  | .argumentCount expected got =>
      s!"invalid argument count: expected {expected}, got {got}"
  | .arrayIndex type => "array index must be INTEGER, got " ++ type
  | .unusableKey type => "unusable as hash key: " ++ type
  | .notIndexable type => "index operator not supported: " ++ type
  | .arity name got expected =>
      s!"wrong number of arguments to {name}: got {got}, want {expected}"
  | .argument name type => "argument to " ++ name ++ " not supported, got " ++ type

/-- The error value of a problem at a token. -/
def Problem.error (problem : Problem) (token : Option Token) : Value :=
  .error problem.message token none

/-- What an operation gives, or the error value of its problem at a token. -/
def settle (token : Option Token) : Except Problem Value → Value
  | .ok value => value
  | .error problem => problem.error token

/-- The type of an argument that a built-in function refuses. -/
def argumentType : Value → String
  | .nil => "nil"
  | value => value.typeName

/-- The elements of a single array argument. -/
def arrayArgument (builtin : Builtin) : List Value → Except Problem (List Value)
  | [.array _ elements] => .ok elements
  | [value] => .error (.argument builtin.name (argumentType value))
  | arguments => .error (.arity builtin.name arguments.length 1)

/-- Runs a built-in function on evaluated arguments. -/
def Builtin.run (builtin : Builtin) (arguments : List Value) : Action (Except Problem Value) :=
  match builtin with
  | .puts => do
      Action.emit (.wrote (String.join (arguments.map Value.display)))
      return .ok .nil
  | .toStr =>
      match arguments with
      | [value] => pure (.ok (.string value.display))
      | _ => pure (.error (.arity "toStr" arguments.length 1))
  | .len =>
      match arguments with
      | [.string text] => pure (.ok (.int text.length))
      | [.array _ elements] => pure (.ok (.int elements.length))
      | [value] => pure (.error (.argument "len" (argumentType value)))
      | _ => pure (.error (.arity "len" arguments.length 1))
  | .first => pure ((arrayArgument .first arguments).map fun elements => elements.head?.getD .nil)
  | .last => pure ((arrayArgument .last arguments).map fun elements => elements.getLast?.getD .nil)
  | .rest =>
      match arrayArgument .rest arguments with
      | .error problem => pure (.error problem)
      | .ok elements =>
          if elements.isEmpty then pure (.ok .nil)
          else return .ok (← Action.newArray elements.tail)
  | .push =>
      match arguments with
      | [.array _ elements, element] => return .ok (← Action.newArray (elements ++ [element]))
      | [value, _] => pure (.error (.argument "push" (argumentType value)))
      | _ => pure (.error (.arity "push" arguments.length 2))

/-- Calls a built-in function on evaluated arguments. -/
def Builtin.apply (builtin : Builtin) (arguments : List Value) : Action Value := do
  return settle none (← builtin.run arguments)

end Monkey
