/-
Tokens: the kinds of lexeme of the language, and a lexeme together with the place where it
starts.
-/
import Monkey.Text.Quoted

namespace Monkey

/-- A place in a source text.  Lines and columns count from one; what stands in no text can have
lower ones. -/
structure Place where
  line : Int
  column : Int
deriving Repr, DecidableEq

def Place.start : Place := ⟨1, 1⟩

/-- The place after a character: only a newline starts a line. -/
def Place.next (place : Place) (c : Char) : Place :=
  if c = '\n' then ⟨place.line + 1, 1⟩ else ⟨place.line, place.column + 1⟩

/-- The place after a text. -/
def Place.after (place : Place) (text : List Char) : Place :=
  text.foldl Place.next place

theorem Place.after_cons (place : Place) (c : Char) (text : List Char) :
    place.after (c :: text) = (place.next c).after text := rfl

theorem Place.after_append (place : Place) (first second : List Char) :
    place.after (first ++ second) = (place.after first).after second := by
  simp [Place.after]

inductive Kind where
  | illegal | eof
  | int | string | ident
  | assign | eq | notEq | bang | or | and | lt | gt
  | plus | minus | asterisk | slash | caret
  | comma | colon | semicolon
  | lparen | rparen | lbrace | rbrace | lbracket | rbracket
  | letWord | returnWord | fnWord | ifWord | elseWord | trueWord | falseWord
deriving Repr, DecidableEq

/-- The name of a kind in diagnostics. -/
def Kind.name : Kind → String
  | .illegal => "ILLEGAL"
  | .eof => "EOF"
  | .int => "INT"
  | .string => "STRING"
  | .ident => "IDENT"
  | .assign => "ASSIGN"
  | .eq => "EQ"
  | .notEq => "NOT_EQ"
  | .bang => "BANG"
  | .or => "OR"
  | .and => "AND"
  | .lt => "LT"
  | .gt => "GT"
  | .plus => "PLUS"
  | .minus => "MINUS"
  | .asterisk => "ASTERISK"
  | .slash => "FSLASH"
  | .caret => "CARROT"
  | .comma => "COMMA"
  | .colon => "COLON"
  | .semicolon => "SEMICOLON"
  | .lparen => "LPAREN"
  | .rparen => "RPAREN"
  | .lbrace => "LBRACE"
  | .rbrace => "RBRACE"
  | .lbracket => "LBRACKET"
  | .rbracket => "RBRACKET"
  | .letWord => "LET"
  | .returnWord => "RETURN"
  | .fnWord => "FUNCTION"
  | .ifWord => "IF"
  | .elseWord => "ELSE"
  | .trueWord => "TRUE"
  | .falseWord => "FALSE"

def Kind.all : List Kind :=
  [.illegal, .eof, .int, .string, .ident, .assign, .eq, .notEq, .bang, .or, .and, .lt, .gt,
   .plus, .minus, .asterisk, .slash, .caret, .comma, .colon, .semicolon, .lparen, .rparen,
   .lbrace, .rbrace, .lbracket, .rbracket, .letWord, .returnWord, .fnWord, .ifWord, .elseWord,
   .trueWord, .falseWord]

theorem Kind.mem_all (kind : Kind) : kind ∈ Kind.all := by
  cases kind <;> decide

def Kind.ofName? (name : String) : Option Kind :=
  Kind.all.find? fun kind => kind.name == name

/-- The words that are no identifiers. -/
def keywords : List (String × Kind) :=
  [("let", .letWord), ("return", .returnWord), ("fn", .fnWord), ("if", .ifWord),
   ("else", .elseWord), ("true", .trueWord), ("false", .falseWord)]

/-- The kind of a run of letters: a keyword only if the whole run is one. -/
def Kind.ofWord (word : String) : Kind :=
  (keywords.lookup word).getD .ident

/-- A lexeme: its kind, the text it was read from (a string without its quotes), and the place
of its first character. -/
structure Token where
  kind : Kind
  literal : String
  place : Place
deriving Repr, DecidableEq

/-- The place is for diagnostics only: tokens agree if their kind and literal do. -/
def Token.agrees (left right : Token) : Bool :=
  left.kind == right.kind && left.literal == right.literal

def Token.display (token : Token) : String :=
  token.kind.name ++ " - " ++ token.literal

def Token.describe (token : Token) : String :=
  "Token(" ++ token.kind.name ++ ", " ++ quote token.literal ++ ")"

end Monkey
