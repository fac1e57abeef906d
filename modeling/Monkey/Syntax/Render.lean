/-
The text of a syntax tree.  Every operator expression and every index is put in parentheses, so
that precedence and associativity are explicit.
-/
import Monkey.Syntax.Basic

namespace Monkey

mutual

def Node.render : Node → String
  | .missing => "None"
  | .text value => value
  | .flag value => if value then "True" else "False"
  | .program statements => renderLines statements
  | .exprStmt _ .missing => ""
  | .exprStmt _ expression => expression.render
  | .letStmt token name value =>
      literalOf token ++ " " ++ name.render ++ " = " ++ value.render
  | .returnStmt token value => literalOf token ++ " " ++ value.render
  | .block _ statements => "\x7b\n" ++ renderLines statements ++ "\x7d"
  | .ident _ name => name
  | .int token _ => literalOf token
  | .string _ value => "\"" ++ value ++ "\""
  | .bool _ value => if value then "true" else "false"
  | .prefixOp _ operator right => "(" ++ operator ++ right.render ++ ")"
  | .infixOp _ left operator right =>
      "(" ++ left.render ++ " " ++ operator ++ " " ++ right.render ++ ")"
  | .ifElse _ condition consequence .missing =>
      "if (" ++ condition.render ++ ") " ++ consequence.render
  | .ifElse _ condition consequence alternative =>
      "if (" ++ condition.render ++ ") " ++ consequence.render ++ " else " ++ alternative.render
  | .function token parameters body =>
      literalOf token ++ "(" ++ renderList parameters ++ ") " ++ body.render
  | .call _ callee arguments => callee.render ++ "(" ++ renderList arguments ++ ")"
  | .array _ elements => "[" ++ renderList elements ++ "]"
  | .index _ left index => "(" ++ left.render ++ "[" ++ index.render ++ "])"
  | .hash _ pairs => "\x7b" ++ renderPairs pairs ++ "\x7d"

/-- Each node on a line of its own. -/
def renderLines : List Node → String
  | [] => ""
  | node :: rest => node.render ++ "\n" ++ renderLines rest

/-- Nodes separated by commas. -/
def renderList : List Node → String
  | [] => ""
  | [node] => node.render
  | node :: rest => node.render ++ ", " ++ renderList rest

def renderPairs : List (Node × Node) → String
  | [] => ""
  | [(key, value)] => key.render ++ ": " ++ value.render
  | (key, value) :: rest => key.render ++ ": " ++ value.render ++ ", " ++ renderPairs rest

end

/-- A node as the class of the node around its text. -/
def Node.describe (node : Node) : String :=
  node.className ++ "('" ++ node.render ++ "')"

end Monkey
