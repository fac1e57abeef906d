/-
The parser.  An expression is read by the prefix rule of its first token and then extended for
as long as the next token binds tighter than the caller asks.  Mistakes are recorded and parsing
goes on, so that one pass can find several of them; a part that could not be read is missing
from the tree.

Reading ends without an artificial bound: a part that is read later has fewer tokens left, or as
many and a lower rank.
-/
import Monkey.Parser.Reading
import Monkey.Syntax.Basic

namespace Monkey

/-- The number -2 ^ 63. -/
def minInteger : Int := -0x8000000000000000

/-- The number 2 ^ 63 - 1. -/
def maxInteger : Int := 0x7fffffffffffffff

/-- Reads the current token as an integer. -/
def Parser.readInteger (parser : Parser) : Reading parser.left Node :=
  let token := parser.current
  match readInt token.literal with
  | .error fault => .failed (.number fault token.literal) parser
  | .ok value =>
      if minInteger ≤ value ∧ value ≤ maxInteger then
        .done (.int (some token) value) parser (Nat.le_refl _)
      else
        .done .missing
          (parser.report ("could not parse " ++ token.literal ++ " as integer") token)
          (Nat.le_refl _)

/-- Reads identifiers separated by commas, and the closing parenthesis after them.  The next
token is the first identifier. -/
def Parser.readNames (parser : Parser) : Option (List Node) × Parser :=
  match h : parser.expect .ident with
  | (false, parser) => (none, parser)
  | (true, after) =>
      let name := Node.ident (some after.current) after.current.literal
      if after.peek.kind = .comma then
        have : after.next.left < parser.left := by
          have := Parser.left_of_expect (by decide) h
          simp only [Parser.left_next]
          omega
        let names := after.next.readNames
        (names.1.map (name :: ·), names.2)
      else
        let close := after.expect .rparen
        (if close.1 then some [name] else none, close.2)
termination_by parser.left
decreasing_by assumption

theorem Parser.left_readNames_le (parser : Parser) :
    parser.readNames.2.left ≤ parser.left := by
  fun_induction Parser.readNames parser with
  | case1 parser after h => exact Nat.le_of_eq (Parser.left_of_expect_false h)
  | case2 parser after h name hcomma hlt names ih =>
      exact Nat.le_trans ih (Nat.le_of_lt hlt)
  | case3 parser after h name hcomma close =>
      have hopen := Parser.left_of_expect (by decide) h
      exact Nat.le_trans (after.left_expect_le .rparen) (by omega)

/-- Reads a parameter list; the current token is its opening parenthesis. -/
def Parser.readParameters (parser : Parser) : Option (List Node) × Parser :=
  if parser.peek.kind = .rparen then (some [], parser.next) else parser.readNames

theorem Parser.left_readParameters_le (parser : Parser) :
    parser.readParameters.2.left ≤ parser.left := by
  unfold Parser.readParameters
  split
  · simp
  · exact parser.left_readNames_le

theorem Parser.left_le_of_next {parser after : Parser} (h : after.left ≤ parser.next.left) :
    after.left ≤ parser.left := by
  rw [Parser.left_next] at h
  omega

theorem Parser.left_le_of_expect {parser inner after : Parser} {kind : Kind} {found : Bool}
    (h : inner.left ≤ parser.next.left) (hexpect : inner.expect kind = (found, after)) :
    after.left ≤ parser.left := by
  have hle := inner.left_expect_le kind
  rw [hexpect] at hle
  exact Parser.left_le_of_next (Nat.le_trans hle h)

/-- Reading a parameter list in its parentheses goes on in the text. -/
theorem Parser.left_lt_of_parameters {parser opened after : Parser}
    {parameters : Option (List Node)} (hopen : parser.expect .lparen = (true, opened))
    (hparameters : opened.readParameters = (parameters, after)) : after.left < parser.left := by
  have hle := opened.left_readParameters_le
  rw [hparameters] at hle
  have hlt := Parser.left_of_expect (by decide) hopen
  exact Nat.lt_of_le_of_lt hle (by omega)

/-- So does reading the brace behind it, whether it is there or not. -/
theorem Parser.left_lt_of_header {parser opened named after : Parser} {parameters : List Node}
    {found : Bool} (hopen : parser.expect .lparen = (true, opened))
    (hparameters : opened.readParameters = (some parameters, named))
    (hbrace : named.expect .lbrace = (found, after)) : after.left < parser.left := by
  have hle := named.left_expect_le .lbrace
  rw [hbrace] at hle
  exact Nat.lt_of_le_of_lt hle (Parser.left_lt_of_parameters hopen hparameters)

mutual

/-- Reads an expression that starts at the current token, extended by everything that binds
tighter than a power. -/
def Parser.readExpression (parser : Parser) (power : Int) : Reading parser.left Node :=
  match parser.grammar.prefixRule? parser.current.kind with
  | none => .done .missing (parser.reportNoPrefix parser.current) (Nat.le_refl _)
  | some rule =>
      (parser.readPrefix rule).bind fun left parser' h =>
        (parser'.extend power left).weaken h
termination_by 8 * parser.left + 2

/-- Reads an expression by a prefix rule.  A rule that reads on at the end of the text, where it
meets itself again, never comes to an end. -/
def Parser.readPrefix (parser : Parser) (rule : PrefixRule) : Reading parser.left Node :=
  let token := parser.current
  match rule with
  | .integer => parser.readInteger
  | .string => .done (.string (some token) token.literal) parser (Nat.le_refl _)
  | .boolean => .done (.bool (some token) (token.kind == .trueWord)) parser (Nat.le_refl _)
  | .identifier => .done (.ident (some token) token.literal) parser (Nat.le_refl _)
  | .operator =>
      if _ : parser.left = 0 then .failed .tooDeep parser
      else (parser.next.readExpression Power.sign).bind fun right parser' h =>
        .done (.prefixOp (some token) token.literal right) parser'
          (Parser.left_le_of_next h)
  | .grouped =>
      if _ : parser.left = 0 then .failed .tooDeep parser
      else (parser.next.readExpression Power.lowest).bind fun inner parser' h =>
        match hclose : parser'.expect .rparen with
        | (false, parser'') => .done .missing parser'' (Parser.left_le_of_expect h hclose)
        | (true, parser'') => .done inner parser'' (Parser.left_le_of_expect h hclose)
  | .conditional => parser.readIf
  | .function =>
      match hopen : parser.expect .lparen with
      | (false, parser') =>
          .done .missing parser' (Nat.le_of_eq (Parser.left_of_expect_false hopen))
      | (true, parser') =>
          match hparameters : parser'.readParameters with
          | (none, parser'') =>
              .done .missing parser''
                (Nat.le_of_lt (Parser.left_lt_of_parameters hopen hparameters))
          | (some parameters, parser'') =>
              match hbrace : parser''.expect .lbrace with
              | (false, parser₃) =>
                  .done .missing parser₃
                    (Nat.le_of_lt (Parser.left_lt_of_header hopen hparameters hbrace))
              | (true, parser₃) =>
                  have hlt := Parser.left_lt_of_header hopen hparameters hbrace
                  (parser₃.readBlock.map (.function (some token) parameters)).weaken
                    (Nat.le_of_lt hlt)
  | .array =>
      if _ : parser.left = 0 then .failed .tooDeep parser
      else (parser.next.readList .rbracket).bind fun elements parser' h =>
        .done (match elements with
            | some elements => .array (some token) elements
            | none => .missing) parser'
          (Parser.left_le_of_next h)
  | .hash =>
      if _ : parser.left = 0 then .failed .tooDeep parser
      else parser.next.readPairs.bind fun pairs parser' h =>
        .done (match pairs with
            | some pairs => .hash (some token) pairs
            | none => .missing) parser'
          (Parser.left_le_of_next h)
termination_by 8 * parser.left + 1
decreasing_by all_goals (try simp only [Parser.left_next] at *); omega

/-- Reads an if expression; the current token is its first word.  The alternative is a block or
another if, which takes no operators of its own. -/
def Parser.readIf (parser : Parser) : Reading parser.left Node :=
  let token := parser.current
  match hopen : parser.expect .lparen with
  | (false, parser₁) =>
      .done .missing parser₁ (Nat.le_of_eq (Parser.left_of_expect_false hopen))
  | (true, parser₁) =>
      have hlt := Parser.left_of_expect (by decide) hopen
      (parser₁.next.readExpression Power.lowest).bind fun condition parser₂ h₂ =>
        match hclose : parser₂.expect .rparen with
        | (false, parser₃) => .done .missing parser₃ (by
            have := Parser.left_of_expect_false hclose
            simp only [Parser.left_next] at h₂
            omega)
        | (true, parser₃) =>
            have hclosed := Parser.left_of_expect (by decide) hclose
            match hbrace : parser₃.expect .lbrace with
            | (false, parser₄) => .done .missing parser₄ (by
                have := Parser.left_of_expect_false hbrace
                simp only [Parser.left_next] at h₂
                omega)
            | (true, parser₄) =>
                have hbraced := Parser.left_of_expect (by decide) hbrace
                have : parser₄.left < parser.left := by
                  simp only [Parser.left_next] at h₂
                  omega
                parser₄.readBlock.bind fun consequence parser₅ h₅ =>
                  (parser₅.readElse token condition consequence).weaken (by omega)
termination_by 8 * parser.left
decreasing_by all_goals (try simp only [Parser.left_next] at *); omega

/-- Reads what follows the consequence of an if. -/
def Parser.readElse (parser : Parser) (token : Token) (condition consequence : Node) :
    Reading parser.left Node :=
  if helse : parser.peek.kind = .elseWord then
    have hword : 1 < parser.left := Parser.one_lt_left (by simp [helse])
    if parser.next.peek.kind = .lbrace then
      (parser.next.next.readBlock.map
        (.ifElse (some token) condition consequence)).weaken (by simp; omega)
    else if parser.next.peek.kind = .ifWord then
      (parser.next.next.readIf.map
        (.ifElse (some token) condition consequence)).weaken (by simp; omega)
    else .done .missing (parser.next.reportPeek .lbrace) (by simp [Parser.reportPeek])
  else .done (.ifElse (some token) condition consequence .missing) parser (Nat.le_refl _)
termination_by 8 * parser.left
decreasing_by all_goals (try simp only [Parser.left_next] at *); omega

/-- Extends an expression for as long as the next token binds tighter than a power. -/
def Parser.extend (parser : Parser) (power : Int) (left : Node) : Reading parser.left Node :=
  if hend : parser.peek.kind = .eof then .done left parser (Nat.le_refl _)
  else if power < parser.peekPower then
    match parser.grammar.infixRule? parser.peek.kind with
    | none => .done left parser (Nat.le_refl _)
    | some rule =>
        have hleft : 1 < parser.left := Parser.one_lt_left hend
        (parser.next.readInfix rule left).bind fun node parser' h =>
          have hlt : parser'.left < parser.left := by
            simp only [Parser.left_next] at h
            omega
          (parser'.extend power node).weaken (Nat.le_of_lt hlt)
  else .done left parser (Nat.le_refl _)
termination_by 8 * parser.left
decreasing_by all_goals (try simp only [Parser.left_next] at *); omega

/-- Continues an expression at the current token by a rule. -/
def Parser.readInfix (parser : Parser) (rule : InfixRule) (left : Node) :
    Reading parser.left Node :=
  let token := parser.current
  if _ : parser.left = 0 then .done left parser (Nat.le_refl _)
  else match rule with
    | .operator .. =>
        (parser.next.readExpression rule.rightPower).bind fun right parser' h =>
          .done (.infixOp (some token) left token.literal right) parser'
            (Parser.left_le_of_next h)
    | .call =>
        (parser.next.readList .rparen).bind fun arguments parser' h =>
          .done (match arguments with
              | some arguments => .call (some token) left arguments
              | none => .missing) parser'
            (Parser.left_le_of_next h)
    | .index =>
        (parser.next.readExpression Power.lowest).bind fun index parser' h =>
          match hclose : parser'.expect .rbracket with
          | (false, parser'') => .done .missing parser'' (Parser.left_le_of_expect h hclose)
          | (true, parser'') =>
              .done (.index (some token) left index) parser'' (Parser.left_le_of_expect h hclose)
termination_by 8 * parser.left + 1
decreasing_by all_goals (try simp only [Parser.left_next] at *); omega

/-- Reads expressions separated by commas up to a closing token.  The current token is the one
after the opening token. -/
def Parser.readList (parser : Parser) (close : Kind) : Reading parser.left (Option (List Node)) :=
  if parser.current.kind = close then .done (some []) parser (Nat.le_refl _)
  else parser.readElements close
termination_by 8 * parser.left + 4

/-- Reads at least one expression, and the closing token. -/
def Parser.readElements (parser : Parser) (close : Kind) :
    Reading parser.left (Option (List Node)) :=
  (parser.readExpression Power.lowest).bind fun element parser₁ h₁ =>
    if hcomma : parser₁.peek.kind = .comma then
      have hleft : 1 < parser₁.left := Parser.one_lt_left (by simp [hcomma])
      ((parser₁.next.next.readElements close).map (Option.map (element :: ·))).weaken
        (by simp; omega)
    else match hclose : parser₁.expect close with
      | (false, parser₂) => .done none parser₂ (by
          have := Parser.left_of_expect_false hclose
          omega)
      | (true, parser₂) => .done (some [element]) parser₂ (by
          have := parser₁.left_expect_le close
          simp only [hclose] at this
          omega)
termination_by 8 * parser.left + 3
decreasing_by all_goals (try simp only [Parser.left_next] at *); omega

/-- Reads the pairs of a hash up to its closing brace.  The current token is the first one of a
key, or the closing brace. -/
def Parser.readPairs (parser : Parser) : Reading parser.left (Option (List (Node × Node))) :=
  if parser.current.kind = .rbrace then .done (some []) parser (Nat.le_refl _)
  else
    (parser.readExpression Power.lowest).bind fun key parser₁ h₁ =>
      match hcolon : parser₁.expect .colon with
      | (false, parser₂) => .done none parser₂ (by
          have := Parser.left_of_expect_false hcolon
          omega)
      | (true, parser₂) =>
          have := Parser.left_of_expect (by decide) hcolon
          (parser₂.next.readExpression Power.lowest).bind fun value parser₃ h₃ =>
            if parser₃.peek.kind = .rbrace then
              .done (some [(key, value)]) parser₃.next (by
                simp only [Parser.left_next] at h₃ ⊢
                omega)
            else match hcomma : parser₃.expect .comma with
              | (false, parser₄) => .done none parser₄ (by
                  have := Parser.left_of_expect_false hcomma
                  simp only [Parser.left_next] at h₃
                  omega)
              | (true, parser₄) =>
                  have := Parser.left_of_expect (by decide) hcomma
                  have : parser₄.next.left < parser.left := by
                    simp only [Parser.left_next] at h₃ ⊢
                    omega
                  (parser₄.next.readPairs.map (Option.map ((key, value) :: ·))).weaken
                    (Nat.le_of_lt this)
termination_by 8 * parser.left + 3
decreasing_by all_goals (try simp only [Parser.left_next] at *); omega

/-- Reads a block; the current token is its opening brace. -/
def Parser.readBlock (parser : Parser) : Reading parser.left Node :=
  let token := parser.current
  parser.next.readBody.bind fun statements parser' h =>
    have h' : parser'.left ≤ parser.left := by
      simp only [Parser.left_next] at h
      omega
    if parser'.current.kind = .eof then
      .done (.block (some token) statements)
        (parser'.report "expected RBRACE to close block, got EOF instead" parser'.current) h'
    else .done (.block (some token) statements) parser' h'
termination_by 8 * parser.left + 7
decreasing_by all_goals (try simp only [Parser.left_next] at *); omega

/-- Reads statements up to a closing brace or the end of the text. -/
def Parser.readBody (parser : Parser) : Reading parser.left (List Node) :=
  if hend : parser.current.kind = .rbrace ∨ parser.current.kind = .eof then
    .done [] parser (Nat.le_refl _)
  else
    have hleft : 0 < parser.left := Parser.left_pos fun h => hend (.inr h)
    parser.readStatement.bind fun statement parser' h =>
      have hlt : parser'.next.left < parser.left := by
        simp only [Parser.left_next]
        omega
      (parser'.next.readBody.map (statement.toList ++ ·)).weaken (Nat.le_of_lt hlt)
termination_by 8 * parser.left + 6
decreasing_by all_goals (try simp only [Parser.left_next] at *); omega

/-- Reads a statement and a semicolon after it.  A semicolon where a statement should start is
no statement, nor is a let statement that could not be read. -/
def Parser.readStatement (parser : Parser) : Reading parser.left (Option Node) :=
  let reading : Reading parser.left (Option Node) :=
    match parser.current.kind with
    | .letWord => parser.readLet
    | .returnWord => parser.readReturn.map some
    | .semicolon => .done none parser (Nat.le_refl _)
    | _ => (parser.readExpression Power.lowest).map
        (some <| .exprStmt (some parser.current) ·)
  reading.bind fun statement parser' h =>
    if statement.isSome && parser'.peek.kind == .semicolon then
      .done statement parser'.next (by simp only [Parser.left_next]; omega)
    else .done statement parser' h
termination_by 8 * parser.left + 5

/-- Reads a let statement; the current token is its first word. -/
def Parser.readLet (parser : Parser) : Reading parser.left (Option Node) :=
  let token := parser.current
  match hname : parser.expect .ident with
  | (false, parser₁) => .done none parser₁ (Nat.le_of_eq (Parser.left_of_expect_false hname))
  | (true, parser₁) =>
      have hnamed := Parser.left_of_expect (by decide) hname
      let name := Node.ident (some parser₁.current) parser₁.current.literal
      match hassign : parser₁.expect .assign with
      | (false, parser₂) => .done none parser₂ (by
          have := Parser.left_of_expect_false hassign
          omega)
      | (true, parser₂) =>
          have hassigned := Parser.left_of_expect (by decide) hassign
          ((parser₂.next.readExpression Power.lowest).map
            (some <| .letStmt (some token) name ·)).weaken (by simp; omega)
termination_by 8 * parser.left + 4
decreasing_by all_goals (try simp only [Parser.left_next] at *); omega

/-- Reads a return statement; the current token is its first word. -/
def Parser.readReturn (parser : Parser) : Reading parser.left Node :=
  let token := parser.current
  ((parser.next.readExpression Power.lowest).map (.returnStmt (some token))).weaken
    (by simp)
termination_by 8 * parser.left + 4
decreasing_by all_goals (try simp only [Parser.left_next] at *); omega

end

/-- Reads statements up to the end of the text. -/
def Parser.readStatements (parser : Parser) : Reading parser.left (List Node) :=
  if hend : parser.current.kind = .eof then .done [] parser (Nat.le_refl _)
  else
    have hleft : 0 < parser.left := Parser.left_pos hend
    parser.readStatement.bind fun statement parser' h =>
      have hlt : parser'.next.left < parser.left := by
        simp only [Parser.left_next]
        omega
      (parser'.next.readStatements.map (statement.toList ++ ·)).weaken (Nat.le_of_lt hlt)
termination_by parser.left

/-- Reads the whole text from the current token on. -/
def Parser.readProgram (parser : Parser) : Reading parser.left Node :=
  parser.readStatements.map .program

/-- Parses a source text. -/
def parse (source : String) : Reading (Parser.ofSource source).left Node :=
  (Parser.ofSource source).readProgram

end Monkey
