/-
The state of a parser: a grammar, the tokens from the current one on, and the diagnostics so
far.  At the end of the text the current token stays the end token.
-/
import Monkey.Fault
import Monkey.Grammar
import Monkey.Lexer

namespace Monkey

/-- A complaint about the source text and the token it is about. -/
structure Diagnostic where
  message : String
  token : Token
deriving Repr, DecidableEq

structure Parser where
  grammar : Grammar
  /-- The tokens not yet passed, the current one first. -/
  pending : List Token
  finish : Place
  /-- The diagnostics, the latest first. -/
  found : List Diagnostic

def Parser.ofStream (stream : TokenStream) : Parser :=
  ⟨.standard, stream.tokens, stream.finish, []⟩

def Parser.ofSource (source : String) : Parser :=
  .ofStream (tokenize source)

/-- The diagnostics in the order they were made. -/
def Parser.diagnostics (parser : Parser) : List Diagnostic :=
  parser.found.reverse

/-- The number of tokens from the current one on, the end token not counted. -/
def Parser.left (parser : Parser) : Nat :=
  parser.pending.length

/-- The token at the end of the text. -/
def Parser.eof (parser : Parser) : Token :=
  ⟨.eof, "", parser.finish⟩

def Parser.current (parser : Parser) : Token :=
  parser.pending.headD parser.eof

/-- The token after the current one. -/
def Parser.peek (parser : Parser) : Token :=
  parser.pending.tail.headD parser.eof

def Parser.next (parser : Parser) : Parser :=
  { parser with pending := parser.pending.tail }

@[simp] theorem Parser.left_next (parser : Parser) : parser.next.left = parser.left - 1 := by
  simp [Parser.left, Parser.next]

theorem Parser.current_kind_of_left_eq_zero {parser : Parser} (h : parser.left = 0) :
    parser.current.kind = .eof := by
  simp_all [Parser.left, Parser.current, Parser.eof]

theorem Parser.left_pos {parser : Parser} (h : parser.current.kind ≠ .eof) : 0 < parser.left :=
  Nat.pos_of_ne_zero fun hzero => h (current_kind_of_left_eq_zero hzero)

theorem Parser.one_lt_left {parser : Parser} (h : parser.peek.kind ≠ .eof) :
    1 < parser.left := by
  match hpending : parser.pending with
  | [] => simp [Parser.peek, Parser.eof, hpending] at h
  | [_] => simp [Parser.peek, Parser.eof, hpending] at h
  | _ :: _ :: _ => simp [Parser.left, hpending]

/-- Records a diagnostic about a token; the message ends with the place of the token. -/
def Parser.report (parser : Parser) (message : String) (token : Token) : Parser :=
  let place := s!" (line {token.place.line}, column {token.place.column})"
  { parser with found := ⟨message ++ place, token⟩ :: parser.found }

@[simp] theorem Parser.left_report (parser : Parser) (message : String) (token : Token) :
    (parser.report message token).left = parser.left := rfl

/-- Records that the next token is not of the expected kind. -/
def Parser.reportPeek (parser : Parser) (kind : Kind) : Parser :=
  parser.report
    ("expected next token to be " ++ kind.name ++ ", got " ++ parser.peek.kind.name ++ " instead")
    parser.peek

/-- Records that no expression starts with a token. -/
def Parser.reportNoPrefix (parser : Parser) (token : Token) : Parser :=
  let excerpt := if token.kind = .illegal then " " ++ quote token.literal else ""
  parser.report ("no prefix parse function for " ++ token.kind.name ++ excerpt) token

/-- Moves on if the next token is of a kind; otherwise stays and records a diagnostic. -/
def Parser.expect (parser : Parser) (kind : Kind) : Bool × Parser :=
  if parser.peek.kind = kind then (true, parser.next) else (false, parser.reportPeek kind)

theorem Parser.left_expect_le (parser : Parser) (kind : Kind) :
    (parser.expect kind).2.left ≤ parser.left := by
  unfold Parser.expect
  split <;> simp [Parser.reportPeek]

theorem Parser.left_of_expect {parser after : Parser} {kind : Kind} (hkind : kind ≠ .eof)
    (h : parser.expect kind = (true, after)) : after.left + 1 = parser.left ∧ 0 < after.left := by
  unfold Parser.expect at h
  split at h
  · cases h
    have : 1 < parser.left := Parser.one_lt_left (by simp_all)
    simp only [Parser.left_next]
    omega
  · cases h

theorem Parser.left_of_expect_false {parser after : Parser} {kind : Kind}
    (h : parser.expect kind = (false, after)) : after.left = parser.left := by
  unfold Parser.expect at h
  split at h
  · cases h
  · cases h
    rfl

/-- A parenthesis or bracket that opens a line starts a statement and does not bind. -/
def Parser.opensLine (parser : Parser) : Bool :=
  (parser.peek.kind == .lparen || parser.peek.kind == .lbracket)
    && parser.current.place.line < parser.peek.place.line

/-- How tightly the next token binds the expression before it. -/
def Parser.peekPower (parser : Parser) : Int :=
  if parser.opensLine then Power.lowest
  else match parser.grammar.infixRule? parser.peek.kind with
    | some rule => rule.power
    | none => Power.lowest

end Monkey
