/-
The evaluator.  Errors and returns are values: an error goes unchanged through everything up to
the result of the program, and a returned value goes up to the function call or the program
around it.  Only calls open frames.  Built-in names are looked up before any frame.

Evaluation is nested no deeper than a limit; beyond it stands a fault, so a result below the
limit does not depend on it.
-/
import Monkey.Arith
import Monkey.Builtin

namespace Monkey

section Steps

variable {m : Type → Type} [Monad m]

/-- Goes on with a value, or hands an error back. -/
def unlessError (value : Value) (go : Value → m Value) : m Value :=
  if value.isError then pure value else go value

/-- Evaluates nodes from left to right, up to the first error. -/
def evalAll (eval : Node → m Value) : List Node → m (Except Value (List Value))
  | [] => pure (.ok [])
  | node :: rest => do
      let value ← eval node
      if value.isError then pure (.error value)
      else return (← evalAll eval rest).map (value :: ·)

/-- Runs statements up to the first signal, which is passed on.  The value is the last one. -/
def runBlock (eval : Node → m Value) (last : Value) : List Node → m Value
  | [] => pure last
  | node :: rest => do
      let value ← eval node
      if value.isSignal then pure value else runBlock eval value rest

end Steps

/-- The value that a returned value carries; any other value itself. -/
def Value.unwrap : Value → Value
  | .returned _ value => value
  | value => value

/-- A program shows integers, booleans, strings and errors, and nil for anything else. -/
def Value.shown : Value → Value
  | .int value => .int value
  | .bool value => .bool value
  | .string value => .string value
  | .error message token identity => .error message token identity
  | _ => .nil

def applyPrefix (operator : String) (right : Value) : Except Problem Value :=
  match operator, right with
  | "-", .int value => .ok (.int (wrap (-value)))
  | "!", .bool value => .ok (.bool !value)
  | _, _ => .error (.prefixOperand operator right.typeName)

def evalPrefix (token : Option Token) (operator : String) (right : Value) : Value :=
  settle token (applyPrefix operator right)

def applyIntInfix (operator : String) (left right : Int) : Except Problem Value :=
  match operator with
  | "+" => .ok (.int (wrap (left + right)))
  | "-" => .ok (.int (wrap (left - right)))
  | "*" => .ok (.int (wrap (left * right)))
  | "/" =>
      match divide? left right with
      | some quotient => .ok (.int (wrap quotient))
      | none => .error .divisionByZero
  | "^" =>
      match power? left right with
      | some power => .ok (.int power)
      | none => .error .divisionByZero
  | "<" => .ok (.bool (left < right))
  | ">" => .ok (.bool (right < left))
  | "==" => .ok (.bool (left == right))
  | "!=" => .ok (.bool (left != right))
  | _ => .error (.infixOperands "INTEGER" operator "INTEGER")

/-- Strings can only be joined.  Values other than two integers or two strings can be compared,
which is by identity. -/
def applyInfix (operator : String) (left right : Value) : Except Problem Value :=
  let unknown := .error (.infixOperands left.typeName operator right.typeName)
  match left, right with
  | .int left, .int right => applyIntInfix operator left right
  | .string left, .string right =>
      if operator = "+" then .ok (.string (left ++ right)) else unknown
  | left, right =>
      if operator = "==" then .ok (.bool (left.equal right))
      else if operator = "!=" then .ok (.bool !(left.equal right))
      else match operator, left, right with
        | "&&", .bool left, .bool right => .ok (.bool (left && right))
        | "||", .bool left, .bool right => .ok (.bool (left || right))
        | _, _, _ => unknown

def evalInfix (token : Option Token) (operator : String) (left right : Value) : Value :=
  settle token (applyInfix operator left right)

def applyIndex (left index : Value) : Except Problem Value :=
  match left with
  | .array _ elements =>
      match index with
      | .int position =>
          .ok (if 0 ≤ position then (elements[position.toNat]?).getD .nil else .nil)
      | _ => .error (.arrayIndex index.typeName)
  | .hash _ entries =>
      match index.key? with
      | some key => .ok ((entries.lookup key).getD .nil)
      | none => .error (.unusableKey index.typeName)
  | _ => .error (.notIndexable left.typeName)

def evalIndex (token : Option Token) (left index : Value) : Value :=
  settle token (applyIndex left index)

/-- Evaluates the pairs of a hash, each key before its value, behind the entries so far. -/
def evalPairs (eval : Node → Action Value) (entries : List (Key × Value)) :
    List (Node × Node) → Action (Except Value (List (Key × Value)))
  | [] => pure (.ok entries)
  | (keyNode, valueNode) :: rest => do
      let keyValue ← eval keyNode
      if keyValue.isError then pure (.error keyValue)
      else match keyValue.key? with
        | none =>
            pure (.error (Problem.error (.unusableKey keyValue.typeName) keyNode.token?))
        | some key =>
            let value ← eval valueNode
            if value.isError then pure (.error value)
            else evalPairs eval (insertEntry key value entries) rest

/-- Gives an error that a built-in function made or handed on the token of the call, unless it has
one. -/
def locateError (token : Option Token) (value : Value) : Action Value :=
  match value, token with
  | .error message none identity, some token => do
      match identity with
      | some identity => Action.locate identity token
      | none => pure ()
      return .error message (some token) identity
  | value, _ => pure value

/-- Binds parameters to arguments in a frame. -/
def bindParameters (frame : FrameId) : List (Node × Value) → Action Unit
  | [] => pure ()
  | (parameter, value) :: rest => do
      Action.bindName frame (← Action.ofExcept parameter.label) value
      bindParameters frame rest

/-- Calls a value.  A function runs its body in a new frame inside the one it was made in. -/
def applyValue (eval : Node → FrameId → Action Value) (token : Option Token) (callee : Value)
    (arguments : List Value) : Action Value :=
  match callee with
  | .builtin builtin => do locateError token (← builtin.apply arguments)
  | .function _ parameters body outer =>
      if arguments.length ≠ parameters.length then
        pure (Problem.error (.argumentCount parameters.length arguments.length) token)
      else do
        let frame ← Action.openFrame (some outer)
        bindParameters frame (parameters.zip arguments)
        return (← eval body frame).unwrap
  | _ => pure (Problem.error (.notFunction callee.typeName) token)

/-- Binds the value of a let statement, with a warning if the name is that of a built-in
function, where the binding will not be seen. -/
def bindLet (frame : FrameId) (name : Node) (value : Value) : Action Value := do
  let label ← Action.ofExcept name.label
  match label with
  | .name text =>
      if (Builtin.ofName? text).isSome then
        Action.emit (.warned
          ("'" ++ text ++ "' is a built-in function, so this binding will never be looked up")
          name.token?)
  | _ => pure ()
  Action.bindName frame label value
  pure .nil

/-- The value of a name: a built-in function, or what the nearest frame binds it to. -/
def evalName (frame : FrameId) (token : Option Token) (name : String) : Action Value :=
  match Builtin.ofName? name with
  | some builtin => pure (.builtin builtin)
  | none => do
      match ← Action.lookup frame (.name name) with
      | some value => pure value
      | none => pure (Problem.error (.notFound name) token)

/-- Evaluates a node in a frame, nested no deeper than a limit. -/
def Node.eval : Nat → Node → FrameId → Action Value
  | 0, _, _ => throw .tooDeep
  | depth + 1, node, frame =>
      let eval (node : Node) : Action Value := node.eval depth frame
      match node with
      | .missing => pure .nil
      | .text _ | .flag _ => throw (.notEvaluable node.className)
      | .program statements => do return (← runBlock eval .nil statements).unwrap.shown
      | .exprStmt _ expression => eval expression
      | .letStmt _ name value => do unlessError (← eval value) (bindLet frame name)
      | .returnStmt _ value => do
          unlessError (← eval value) fun value => return .returned (← Action.newIdentity) value
      | .block _ statements => runBlock eval .nil statements
      | .ident token name => evalName frame token name
      | .int _ value => pure (.int value)
      | .string _ value => pure (.string value)
      | .bool _ value => pure (.bool value)
      | .prefixOp token operator right => do
          unlessError (← eval right) fun right => pure (evalPrefix token operator right)
      | .infixOp token left operator right => do
          unlessError (← eval left) fun left => do
            unlessError (← eval right) fun right => pure (evalInfix token operator left right)
      | .ifElse _ condition consequence alternative => do
          unlessError (← eval condition) fun condition =>
            if condition.isTruthy then eval consequence else eval alternative
      | .function _ parameters body => do
          return .function (← Action.newIdentity) parameters body frame
      | .call token callee arguments => do
          unlessError (← eval callee) fun callee => do
            match ← evalAll eval arguments with
            | .error error => pure error
            | .ok arguments =>
                applyValue (fun body frame => body.eval depth frame) token callee arguments
      | .array _ elements => do
          match ← evalAll eval elements with
          | .error error => pure error
          | .ok elements => Action.newArray elements
      | .index token left position => do
          unlessError (← eval left) fun left => do
            unlessError (← eval position) fun position => pure (evalIndex token left position)
      | .hash _ pairs => do
          match ← evalPairs eval [] pairs with
          | .error error => pure error
          | .ok entries => return .hash (← Action.newIdentity) entries

/-- The depth to which evaluation may be nested where no other one is asked for. -/
def depthLimit : Nat := 5000

end Monkey
