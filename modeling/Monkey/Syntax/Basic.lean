/-
Syntax trees.  Statements and expressions are nodes of one type, because an expression may
stand wherever a node is evaluated.  A node keeps the token that introduced it, for diagnostics
only: two trees are the same if they differ in tokens alone.
-/
import Monkey.Fault
import Monkey.Token

namespace Monkey

inductive Node where
  /-- A child that is absent, such as the alternative of an if without else. -/
  | missing
  /-- Plain text where a node belongs.  It can be shown but not evaluated. -/
  | text (value : String)
  /-- A plain truth value where a node belongs.  It can be shown but not evaluated. -/
  | flag (value : Bool)
  | program (statements : List Node)
  | exprStmt (token : Option Token) (expression : Node)
  | letStmt (token : Option Token) (name value : Node)
  | returnStmt (token : Option Token) (value : Node)
  | block (token : Option Token) (statements : List Node)
  | ident (token : Option Token) (name : String)
  | int (token : Option Token) (value : Int)
  | string (token : Option Token) (value : String)
  | bool (token : Option Token) (value : Bool)
  | prefixOp (token : Option Token) (operator : String) (right : Node)
  | infixOp (token : Option Token) (left : Node) (operator : String) (right : Node)
  | ifElse (token : Option Token) (condition consequence alternative : Node)
  | function (token : Option Token) (parameters : List Node) (body : Node)
  | call (token : Option Token) (callee : Node) (arguments : List Node)
  | array (token : Option Token) (elements : List Node)
  | index (token : Option Token) (left index : Node)
  | hash (token : Option Token) (pairs : List (Node × Node))
deriving Repr, Inhabited

/-- The token that introduced a node; a program has none. -/
def Node.token? : Node → Option Token
  | .missing | .text _ | .flag _ | .program _ => none
  | .exprStmt token _ | .letStmt token _ _ | .returnStmt token _ | .block token _
  | .ident token _ | .int token _ | .string token _ | .bool token _ | .prefixOp token _ _
  | .infixOp token _ _ _ | .ifElse token _ _ _ | .function token _ _ | .call token _ _
  | .array token _ | .index token _ _ | .hash token _ => token

/-- The text of a token, empty without one. -/
def literalOf (token : Option Token) : String :=
  (token.map Token.literal).getD ""

/-- The statements of a program or block. -/
def Node.statements : Node → List Node
  | .program statements | .block _ statements => statements
  | _ => []

/-- The class of a node, or of what stands in its place. -/
def Node.className : Node → String
  | .missing => "NoneType"
  | .text _ => "str"
  | .flag _ => "bool"
  | .program _ => "Program"
  | .exprStmt .. => "ExpressionStatement"
  | .letStmt .. => "LetStatement"
  | .returnStmt .. => "ReturnStatement"
  | .block .. => "BlockStatement"
  | .ident .. => "Identifier"
  | .int .. => "IntegerLiteral"
  | .string .. => "StringLiteral"
  | .bool .. => "BooleanLiteral"
  | .prefixOp .. => "PrefixExpression"
  | .infixOp .. => "InfixExpression"
  | .ifElse .. => "IfExpression"
  | .function .. => "FunctionLiteral"
  | .call .. => "CallExpression"
  | .array .. => "ArrayLiteral"
  | .index .. => "IndexExpression"
  | .hash .. => "HashLiteral"

/-- The text of the token that introduced a node; for a program, that of its first statement.
What is no node has none. -/
def Node.literal : Node → Except Fault String
  | .program (first :: _) => first.literal
  | node =>
      match node with
      | .missing | .text _ | .flag _ => .error (.noPart node.className "token_literal")
      | node => .ok (literalOf node.token?)

/-- What a value is bound under where a node stands in the place of a name.  A let or return
statement gives its value for that, which must be no node. -/
def Node.label : Node → Except Fault Label
  | .ident _ name | .string _ name => .ok (.name name)
  | .int _ value => .ok (.int value)
  | .bool _ value => .ok (.bool value)
  | .letStmt _ _ value | .returnStmt _ value =>
      match value with
      | .missing => .ok .absent
      | .text name => .ok (.name name)
      | .flag value => .ok (.bool value)
      | node => .error (.unusableLabel node.className)
  | node => .error (.noPart node.className "value")

mutual

/-- The tree without its tokens. -/
def Node.bare : Node → Node
  | .missing => .missing
  | .text value => .text value
  | .flag value => .flag value
  | .program statements => .program (bareAll statements)
  | .exprStmt _ expression => .exprStmt none expression.bare
  | .letStmt _ name value => .letStmt none name.bare value.bare
  | .returnStmt _ value => .returnStmt none value.bare
  | .block _ statements => .block none (bareAll statements)
  | .ident _ name => .ident none name
  | .int _ value => .int none value
  | .string _ value => .string none value
  | .bool _ value => .bool none value
  | .prefixOp _ operator right => .prefixOp none operator right.bare
  | .infixOp _ left operator right => .infixOp none left.bare operator right.bare
  | .ifElse _ condition consequence alternative =>
      .ifElse none condition.bare consequence.bare alternative.bare
  | .function _ parameters body => .function none (bareAll parameters) body.bare
  | .call _ callee arguments => .call none callee.bare (bareAll arguments)
  | .array _ elements => .array none (bareAll elements)
  | .index _ left index => .index none left.bare index.bare
  | .hash _ pairs => .hash none (barePairs pairs)

def bareAll : List Node → List Node
  | [] => []
  | node :: rest => node.bare :: bareAll rest

def barePairs : List (Node × Node) → List (Node × Node)
  | [] => []
  | (key, value) :: rest => (key.bare, value.bare) :: barePairs rest

end

mutual

/-- The trees differ in tokens at most. -/
def Node.same : Node → Node → Bool
  | .missing, .missing => true
  | .text left, .text right => left == right
  | .flag left, .flag right => left == right
  | .program left, .program right => sameAll left right
  | .exprStmt _ left, .exprStmt _ right => left.same right
  | .letStmt _ name value, .letStmt _ name' value' => name.same name' && value.same value'
  | .returnStmt _ left, .returnStmt _ right => left.same right
  | .block _ left, .block _ right => sameAll left right
  | .ident _ left, .ident _ right => left == right
  | .int _ left, .int _ right => left == right
  | .string _ left, .string _ right => left == right
  | .bool _ left, .bool _ right => left == right
  | .prefixOp _ operator right, .prefixOp _ operator' right' =>
      operator == operator' && right.same right'
  | .infixOp _ left operator right, .infixOp _ left' operator' right' =>
      left.same left' && operator == operator' && right.same right'
  | .ifElse _ condition consequence alternative, .ifElse _ condition' consequence' alternative' =>
      condition.same condition' && consequence.same consequence' && alternative.same alternative'
  | .function _ parameters body, .function _ parameters' body' =>
      sameAll parameters parameters' && body.same body'
  | .call _ callee arguments, .call _ callee' arguments' =>
      callee.same callee' && sameAll arguments arguments'
  | .array _ left, .array _ right => sameAll left right
  | .index _ left index, .index _ left' index' => left.same left' && index.same index'
  | .hash _ left, .hash _ right => samePairs left right
  | _, _ => false

def sameAll : List Node → List Node → Bool
  | [], [] => true
  | left :: lefts, right :: rights => left.same right && sameAll lefts rights
  | _, _ => false

def samePairs : List (Node × Node) → List (Node × Node) → Bool
  | [], [] => true
  | (key, value) :: lefts, (key', value') :: rights =>
      key.same key' && value.same value' && samePairs lefts rights
  | _, _ => false

end

end Monkey
