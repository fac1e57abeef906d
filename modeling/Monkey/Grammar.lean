/-
The operator grammar: which rule reads an expression that starts with a token, which rule
continues an expression at a token, and how tightly it binds.  Both tables can be extended.
-/
import Monkey.Token

namespace Monkey

/-- How an expression that starts with a token is read. -/
inductive PrefixRule where
  | integer | string | boolean | identifier
  | operator | grouped | conditional | function | array | hash
deriving Repr, DecidableEq

/-- How an expression is continued at a token.  A right-associative operator reads its right
operand at one power less than its own. -/
inductive InfixRule where
  | operator (power : Int) (rightAssociative : Bool)
  | call
  | index
deriving Repr, DecidableEq

namespace Power

def lowest : Int := 10
def equality : Int := 11
def disjunction : Int := 20
def conjunction : Int := 30
def comparison : Int := 35
def sum : Int := 40
def product : Int := 50
def exponent : Int := 60
def sign : Int := 70
def call : Int := 71
def index : Int := 72

end Power

/-- How tightly a rule binds the expression to its left. -/
def InfixRule.power : InfixRule → Int
  | .operator power _ => power
  | .call => Power.call
  | .index => Power.index

/-- The power at which the right operand is read. -/
def InfixRule.rightPower : InfixRule → Int
  | .operator power true => power - 1
  | rule => rule.power

structure Grammar where
  prefixRule? : Kind → Option PrefixRule
  infixRule? : Kind → Option InfixRule

/-- The rules of the language. -/
def Grammar.standard : Grammar where
  prefixRule?
    | .int => some .integer
    | .string => some .string
    | .ident => some .identifier
    | .trueWord | .falseWord => some .boolean
    | .minus | .bang => some .operator
    | .lparen => some .grouped
    | .ifWord => some .conditional
    | .fnWord => some .function
    | .lbracket => some .array
    | .lbrace => some .hash
    | _ => none
  infixRule?
    | .or => some (.operator Power.disjunction true)
    | .and => some (.operator Power.conjunction true)
    | .eq | .notEq => some (.operator Power.equality false)
    | .lt | .gt => some (.operator Power.comparison false)
    | .plus | .minus => some (.operator Power.sum false)
    | .asterisk | .slash => some (.operator Power.product false)
    | .caret => some (.operator Power.exponent true)
    | .lparen => some .call
    | .lbracket => some .index
    | _ => none

def Grammar.setPrefix (grammar : Grammar) (kind : Kind) (rule : PrefixRule) : Grammar :=
  { grammar with prefixRule? := fun k => if k = kind then some rule else grammar.prefixRule? k }

def Grammar.setInfix (grammar : Grammar) (kind : Kind) (rule : InfixRule) : Grammar :=
  { grammar with infixRule? := fun k => if k = kind then some rule else grammar.infixRule? k }

end Monkey
