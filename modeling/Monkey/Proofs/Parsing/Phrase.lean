/-
The grammar of the language, apart from the parser.  `Derives` says that a run of tokens, with a
certain token after it, makes up a part of a program without mistakes.  The token after the run
matters in three places only: where an operator would go on with an expression, where `else`
would go on with an if, and where a semicolon would end a statement.
-/
import Monkey.Proofs.Parsing.Steps

namespace Monkey

/-- The rule by which a token continues an expression that ends just before it.  A parenthesis or
bracket that opens a line continues nothing. -/
def Token.continues? (last next : Token) : Option InfixRule :=
  if (next.kind = .lparen ∨ next.kind = .lbracket) ∧ last.place.line < next.place.line then none
  else Grammar.standard.infixRule? next.kind

theorem Token.infixRule?_of_continues? {last next : Token} {rule : InfixRule}
    (h : last.continues? next = some rule) :
    Grammar.standard.infixRule? next.kind = some rule ∧
      ¬ ((next.kind = .lparen ∨ next.kind = .lbracket) ∧
        last.place.line < next.place.line) := by
  unfold Token.continues? at h
  split at h
  · cases h
  · next hline => exact ⟨h, hline⟩

/-- A bracket after an expression, on the line where its last token starts. -/
theorem continues_of_line {last opener : Token} (hline : last.place.line = opener.place.line) :
    last.continues? opener = Grammar.standard.infixRule? opener.kind := by
  rw [Token.continues?, if_neg]
  rintro ⟨_, hlt⟩
  omega

/-- An expression that ends at a token is not continued above a power. -/
def Token.Stops (power : Int) (last next : Token) : Prop :=
  ∀ rule, last.continues? next = some rule → rule.power ≤ power

/-- The parts of a program that are read one by one, each with what its reading gives. -/
inductive Phrase where
  | expression (power : Int) (node : Node)
  /-- An expression up to where it could first be continued. -/
  | opening (rule : PrefixRule) (node : Node)
  /-- What continues an expression. -/
  | extension (power : Int) (left node : Node)
  | conditional (node : Node)
  /-- What follows the consequence of an if. -/
  | otherwise (token : Token) (condition consequence node : Node)
  | list (close : Kind) (nodes : Option (List Node))
  | elements (close : Kind) (nodes : Option (List Node))
  | pairs (pairs : Option (List (Node × Node)))
  | block (node : Node)
  | body (statements : List Node)
  /-- A statement without the semicolon after it. -/
  | sentence (statement : Option Node)
  | statement (statement : Option Node)

/-- Names between parentheses; the opening one is not among the tokens. -/
inductive Parameters : List Node → List Token → Prop where
  | none {close : Token} (hclose : close.kind = .rparen) : Parameters [] [close]
  | last {name close : Token} (hname : name.kind = .ident) (hclose : close.kind = .rparen) :
      Parameters [.ident (some name) name.literal] [name, close]
  | more {name comma : Token} {names : List Node} {tokens : List Token}
      (hname : name.kind = .ident) (hcomma : comma.kind = .comma) (hnames : names ≠ [])
      (hrest : Parameters names tokens) :
      Parameters (.ident (some name) name.literal :: names) (name :: comma :: tokens)

/-- The tokens make up the phrase when the given token comes after them.  Where a phrase goes on
from another one, its first token is the last one of the other. -/
inductive Derives : Phrase → List Token → Token → Prop where
  | integer {token next : Token} {value : Int} (hkind : token.kind = .int)
      (hread : readInt token.literal = .ok value) (hmin : minInteger ≤ value)
      (hmax : value ≤ maxInteger) :
      Derives (.opening .integer (.int (some token) value)) [token] next
  | string {token next : Token} (hkind : token.kind = .string) :
      Derives (.opening .string (.string (some token) token.literal)) [token] next
  | boolean {token next : Token} (hkind : token.kind = .trueWord ∨ token.kind = .falseWord) :
      Derives (.opening .boolean (.bool (some token) (token.kind == .trueWord))) [token] next
  | identifier {token next : Token} (hkind : token.kind = .ident) :
      Derives (.opening .identifier (.ident (some token) token.literal)) [token] next
  | sign {token next : Token} {right : Node} {tokens : List Token}
      (hkind : token.kind = .minus ∨ token.kind = .bang)
      (hright : Derives (.expression Power.sign right) tokens next) :
      Derives (.opening .operator (.prefixOp (some token) token.literal right))
        (token :: tokens) next
  | grouped {opener closer next : Token} {inner : Node} {tokens : List Token}
      (hopen : opener.kind = .lparen) (hclose : closer.kind = .rparen)
      (hinner : Derives (.expression Power.lowest inner) tokens closer) :
      Derives (.opening .grouped inner) (opener :: tokens ++ [closer]) next
  | conditional {next : Token} {node : Node} {tokens : List Token}
      (hif : Derives (.conditional node) tokens next) :
      Derives (.opening .conditional node) tokens next
  | function {token opener next : Token} {names : List Node} {body : Node}
      {parameters tokens : List Token} (hkind : token.kind = .fnWord)
      (hopen : opener.kind = .lparen) (hnames : Parameters names parameters)
      (hbody : Derives (.block body) tokens next) :
      Derives (.opening .function (.function (some token) names body))
        (token :: opener :: parameters ++ tokens) next
  | array {opener next : Token} {elements : List Node} {tokens : List Token}
      (hopen : opener.kind = .lbracket)
      (helements : Derives (.list .rbracket (some elements)) tokens next) :
      Derives (.opening .array (.array (some opener) elements)) (opener :: tokens) next
  | hash {opener next : Token} {pairs : List (Node × Node)} {tokens : List Token}
      (hopen : opener.kind = .lbrace) (hpairs : Derives (.pairs (some pairs)) tokens next) :
      Derives (.opening .hash (.hash (some opener) pairs)) (opener :: tokens) next
  | expression {power : Int} {rule : PrefixRule} {left node : Node} {last next : Token}
      {first rest : List Token}
      (hopening : Derives (.opening rule left) (first ++ [last]) (rest.headD next))
      (hextension : Derives (.extension power left node) (last :: rest) next) :
      Derives (.expression power node) (first ++ last :: rest) next
  | stop {power : Int} {node : Node} {last next : Token} (hstop : last.Stops power next) :
      Derives (.extension power node node) [last] next
  | infixOp {power binding : Int} {right : Bool} {left operand node : Node}
      {last operator last' next : Token} {tokens rest : List Token}
      (hrule : last.continues? operator = some (.operator binding right))
      (hpower : power < binding)
      (hoperand : Derives (.expression (InfixRule.operator binding right).rightPower operand)
        (tokens ++ [last']) (rest.headD next))
      (hextension : Derives
        (.extension power (.infixOp (some operator) left operator.literal operand) node)
        (last' :: rest) next) :
      Derives (.extension power left node) (last :: operator :: tokens ++ last' :: rest) next
  | call {power : Int} {left node : Node} {arguments : List Node}
      {last opener closer next : Token} {tokens rest : List Token}
      (hrule : last.continues? opener = some .call) (hpower : power < Power.call)
      (harguments : Derives (.list .rparen (some arguments)) (tokens ++ [closer])
        (rest.headD next))
      (hextension : Derives (.extension power (.call (some opener) left arguments) node)
        (closer :: rest) next) :
      Derives (.extension power left node) (last :: opener :: tokens ++ closer :: rest) next
  | index {power : Int} {left position node : Node} {last opener closer next : Token}
      {tokens rest : List Token}
      (hrule : last.continues? opener = some .index) (hpower : power < Power.index)
      (hclose : closer.kind = .rbracket)
      (hposition : Derives (.expression Power.lowest position) tokens closer)
      (hextension : Derives (.extension power (.index (some opener) left position) node)
        (closer :: rest) next) :
      Derives (.extension power left node) (last :: opener :: tokens ++ closer :: rest) next
  | ifElse {token opener closer last next : Token} {condition consequence node : Node}
      {test body rest : List Token} (hkind : token.kind = .ifWord)
      (hopen : opener.kind = .lparen) (hclose : closer.kind = .rparen)
      (hcondition : Derives (.expression Power.lowest condition) test closer)
      (hconsequence : Derives (.block consequence) (body ++ [last]) (rest.headD next))
      (hrest : Derives (.otherwise token condition consequence node) (last :: rest) next) :
      Derives (.conditional node)
        (token :: opener :: test ++ closer :: body ++ last :: rest) next
  | noElse {token last next : Token} {condition consequence : Node}
      (hnext : next.kind ≠ .elseWord) :
      Derives (.otherwise token condition consequence
        (.ifElse (some token) condition consequence .missing)) [last] next
  | elseBlock {token last word next : Token} {condition consequence alternative : Node}
      {tokens : List Token} (hword : word.kind = .elseWord)
      (halternative : Derives (.block alternative) tokens next) :
      Derives (.otherwise token condition consequence
        (.ifElse (some token) condition consequence alternative)) (last :: word :: tokens) next
  | elseIf {token last word next : Token} {condition consequence alternative : Node}
      {tokens : List Token} (hword : word.kind = .elseWord)
      (halternative : Derives (.conditional alternative) tokens next) :
      Derives (.otherwise token condition consequence
        (.ifElse (some token) condition consequence alternative)) (last :: word :: tokens) next
  | emptyList {close : Kind} {closer next : Token} (hclose : closer.kind = close) :
      Derives (.list close (some [])) [closer] next
  | list {close : Kind} {next : Token} {nodes : List Node} {tokens : List Token}
      (helements : Derives (.elements close (some nodes)) tokens next) :
      Derives (.list close (some nodes)) tokens next
  | lastElement {close : Kind} {closer next : Token} {element : Node} {tokens : List Token}
      (hclose : closer.kind = close)
      (helement : Derives (.expression Power.lowest element) tokens closer) :
      Derives (.elements close (some [element])) (tokens ++ [closer]) next
  | moreElements {close : Kind} {comma next : Token} {element : Node} {nodes : List Node}
      {tokens rest : List Token} (hcomma : comma.kind = .comma)
      (helement : Derives (.expression Power.lowest element) tokens comma)
      (hrest : Derives (.elements close (some nodes)) rest next) :
      Derives (.elements close (some (element :: nodes))) (tokens ++ comma :: rest) next
  | emptyPairs {closer next : Token} (hclose : closer.kind = .rbrace) :
      Derives (.pairs (some [])) [closer] next
  | lastPair {colon closer next : Token} {key value : Node} {keys values : List Token}
      (hcolon : colon.kind = .colon) (hclose : closer.kind = .rbrace)
      (hkey : Derives (.expression Power.lowest key) keys colon)
      (hvalue : Derives (.expression Power.lowest value) values closer) :
      Derives (.pairs (some [(key, value)])) (keys ++ colon :: values ++ [closer]) next
  | morePairs {colon comma next : Token} {key value : Node} {pairs : List (Node × Node)}
      {keys values rest : List Token} (hcolon : colon.kind = .colon)
      (hcomma : comma.kind = .comma)
      (hkey : Derives (.expression Power.lowest key) keys colon)
      (hvalue : Derives (.expression Power.lowest value) values comma)
      (hrest : Derives (.pairs (some pairs)) rest next) :
      Derives (.pairs (some ((key, value) :: pairs)))
        (keys ++ colon :: values ++ comma :: rest) next
  | block {opener next : Token} {statements : List Node} {tokens : List Token}
      (hopen : opener.kind = .lbrace) (hbody : Derives (.body statements) tokens next) :
      Derives (.block (.block (some opener) statements)) (opener :: tokens) next
  | emptyBody {closer next : Token} (hclose : closer.kind = .rbrace) :
      Derives (.body []) [closer] next
  | body {first next : Token} {statement : Option Node} {statements : List Node}
      {tokens rest : List Token} (hstatement : Derives (.statement statement) tokens first)
      (hrest : Derives (.body statements) (first :: rest) next) :
      Derives (.body (statement.toList ++ statements)) (tokens ++ first :: rest) next
  | letSentence {token name assign next : Token} {value : Node} {tokens : List Token}
      (hkind : token.kind = .letWord) (hname : name.kind = .ident)
      (hassign : assign.kind = .assign)
      (hvalue : Derives (.expression Power.lowest value) tokens next) :
      Derives (.sentence (some (.letStmt (some token) (.ident (some name) name.literal) value)))
        (token :: name :: assign :: tokens) next
  | returnSentence {token next : Token} {value : Node} {tokens : List Token}
      (hkind : token.kind = .returnWord)
      (hvalue : Derives (.expression Power.lowest value) tokens next) :
      Derives (.sentence (some (.returnStmt (some token) value))) (token :: tokens) next
  | exprSentence {first next : Token} {value : Node} {tokens : List Token}
      (hvalue : Derives (.expression Power.lowest value) (first :: tokens) next) :
      Derives (.sentence (some (.exprStmt (some first) value))) (first :: tokens) next
  | stray {token next : Token} (hkind : token.kind = .semicolon) :
      Derives (.sentence none) [token] next
  | bare {next : Token} {statement : Option Node} {tokens : List Token}
      (hnext : statement.isSome → next.kind ≠ .semicolon)
      (hsentence : Derives (.sentence statement) tokens next) :
      Derives (.statement statement) tokens next
  | ended {semicolon next : Token} {statement : Node} {tokens : List Token}
      (hkind : semicolon.kind = .semicolon)
      (hsentence : Derives (.sentence (some statement)) tokens semicolon) :
      Derives (.statement (some statement)) (tokens ++ [semicolon]) next

theorem Parameters.ne_nil {names : List Node} {tokens : List Token}
    (h : Parameters names tokens) : tokens ≠ [] := by
  cases h <;> simp

theorem Derives.ne_nil {phrase : Phrase} {tokens : List Token} {next : Token}
    (h : Derives phrase tokens next) : tokens ≠ [] := by
  induction h <;> simp_all

theorem Derives.exists_last {phrase : Phrase} {tokens : List Token} {next : Token}
    (h : Derives phrase tokens next) : ∃ front last, tokens = front ++ [last] :=
  ⟨_, _, (List.dropLast_concat_getLast h.ne_nil).symm⟩

/-- An expression that nothing goes on with. -/
theorem Derives.of_opening {power : Int} {rule : PrefixRule} {node : Node} {next : Token}
    {tokens : List Token} (hopening : Derives (.opening rule node) tokens next)
    (hstop : ∀ last ∈ tokens, last.Stops power next) :
    Derives (.expression power node) tokens next := by
  obtain ⟨first, last, rfl⟩ := hopening.exists_last
  exact @Derives.expression power rule node node last next first [] hopening
    (.stop (hstop last (by simp)))

/-- An expression starts with a token of its prefix rule. -/
theorem Derives.opening_head {rule : PrefixRule} {node : Node} {token next : Token}
    {tokens : List Token} (h : Derives (.opening rule node) (token :: tokens) next) :
    Grammar.standard.prefixRule? token.kind = some rule := by
  cases h with
  | integer hkind _ _ _ => simp [hkind, Grammar.standard]
  | string hkind => simp [hkind, Grammar.standard]
  | boolean hkind => rcases hkind with hkind | hkind <;> simp [hkind, Grammar.standard]
  | identifier hkind => simp [hkind, Grammar.standard]
  | sign hkind _ => rcases hkind with hkind | hkind <;> simp [hkind, Grammar.standard]
  | grouped hopen _ _ => simp [hopen, Grammar.standard]
  | conditional hif =>
      cases hif with
      | ifElse hkind _ _ _ _ _ => simp [hkind, Grammar.standard]
  | function hkind _ _ _ => simp [hkind, Grammar.standard]
  | array hopen _ => simp [hopen, Grammar.standard]
  | hash hopen _ => simp [hopen, Grammar.standard]

theorem Derives.expression_head {power : Int} {node : Node} {token next : Token}
    {tokens : List Token} (h : Derives (.expression power node) (token :: tokens) next) :
    ∃ rule, Grammar.standard.prefixRule? token.kind = some rule := by
  generalize htokens : token :: tokens = all at h
  cases h with
  | @expression _ rule _ _ last _ first rest hopening _ =>
      cases first with
      | nil =>
          cases htokens
          exact ⟨rule, hopening.opening_head⟩
      | cons head first =>
          cases htokens
          exact ⟨rule, hopening.opening_head⟩

theorem Derives.elements_head {close : Kind} {nodes : Option (List Node)} {token next : Token}
    {tokens : List Token} (h : Derives (.elements close nodes) (token :: tokens) next) :
    ∃ rule, Grammar.standard.prefixRule? token.kind = some rule := by
  generalize htokens : token :: tokens = all at h
  cases h with
  | @lastElement _ _ _ _ front _ helement =>
      cases front with
      | nil => exact absurd rfl helement.ne_nil
      | cons head front =>
          cases htokens
          exact helement.expression_head
  | @moreElements _ _ _ _ _ front _ _ helement _ =>
      cases front with
      | nil => exact absurd rfl helement.ne_nil
      | cons head front =>
          cases htokens
          exact helement.expression_head

/-- The statements of a block end with its closing brace. -/
theorem Derives.body_last {statements : List Node} {tokens : List Token} {next : Token}
    (h : Derives (.body statements) tokens next) :
    ∃ front closer, tokens = front ++ [closer] ∧ closer.kind = .rbrace := by
  generalize hphrase : Phrase.body statements = phrase at h
  induction h generalizing statements with
  | @emptyBody closer _ hclose => exact ⟨[], closer, rfl, hclose⟩
  | @body first _ _ _ tokens rest _ _ _ ih =>
      obtain ⟨front, closer, hrest, hclose⟩ := ih rfl
      exact ⟨tokens ++ front, closer, by rw [hrest, List.append_assoc], hclose⟩
  | _ => cases hphrase

theorem Derives.conditional_ne_missing {node : Node} {tokens : List Token} {next : Token}
    (h : Derives (.conditional node) tokens next) : node ≠ .missing := by
  cases h with
  | ifElse _ _ _ _ _ hrest => cases hrest <;> simp

/-- A statement starts with one of its words, with a semicolon, or with an expression. -/
theorem Derives.sentence_head {statement : Option Node} {token next : Token}
    {tokens : List Token} (h : Derives (.sentence statement) (token :: tokens) next) :
    token.kind = .letWord ∨ token.kind = .returnWord ∨ token.kind = .semicolon ∨
      ∃ rule, Grammar.standard.prefixRule? token.kind = some rule := by
  cases h with
  | letSentence hkind _ _ _ => exact Or.inl hkind
  | returnSentence hkind _ => exact Or.inr (Or.inl hkind)
  | exprSentence hvalue => exact Or.inr (Or.inr (Or.inr hvalue.expression_head))
  | stray hkind => exact Or.inr (Or.inr (Or.inl hkind))

theorem Derives.statement_head {statement : Option Node} {token next : Token}
    {tokens : List Token} (h : Derives (.statement statement) (token :: tokens) next) :
    token.kind ≠ .rbrace ∧ token.kind ≠ .eof := by
  have hsentence : ∃ tokens next, Derives (.sentence statement) (token :: tokens) next := by
    generalize htokens : token :: tokens = all at h
    cases h with
    | bare _ hsentence =>
        subst htokens
        exact ⟨tokens, next, hsentence⟩
    | @ended semicolon _ _ front _ hsentence =>
        cases front with
        | nil => exact absurd rfl hsentence.ne_nil
        | cons head front =>
            cases htokens
            exact ⟨front, semicolon, hsentence⟩
  obtain ⟨tokens, next, hsentence⟩ := hsentence
  rcases hsentence.sentence_head with hkind | hkind | hkind | ⟨rule, hrule⟩
  · simp [hkind]
  · simp [hkind]
  · simp [hkind]
  · constructor
    · intro hkind
      rw [hkind] at hrule
      cases hrule
    · intro hkind
      rw [hkind] at hrule
      cases hrule

theorem Derives.list_isSome {close : Kind} {nodes : Option (List Node)} {tokens : List Token}
    {next : Token} (h : Derives (.list close nodes) tokens next) : ∃ list, nodes = some list := by
  cases h with
  | emptyList _ => exact ⟨[], rfl⟩
  | list _ => exact ⟨_, rfl⟩

theorem Derives.elements_isSome {close : Kind} {nodes : Option (List Node)}
    {tokens : List Token} {next : Token} (h : Derives (.elements close nodes) tokens next) :
    ∃ list, nodes = some list := by
  cases h with
  | lastElement _ _ => exact ⟨_, rfl⟩
  | moreElements _ _ _ => exact ⟨_, rfl⟩

theorem Derives.pairs_isSome {pairs : Option (List (Node × Node))} {tokens : List Token}
    {next : Token} (h : Derives (.pairs pairs) tokens next) : ∃ list, pairs = some list := by
  cases h with
  | emptyPairs _ => exact ⟨[], rfl⟩
  | lastPair _ _ _ _ => exact ⟨_, rfl⟩
  | morePairs _ _ _ _ _ => exact ⟨_, rfl⟩

/-- The tokens make up a run of statements. -/
inductive DerivesAll : List Node → List Token → Token → Prop where
  | nil {next : Token} : DerivesAll [] [] next
  | cons {next : Token} {statement : Option Node} {statements : List Node}
      {tokens rest : List Token}
      (hstatement : Derives (.statement statement) tokens (rest.headD next))
      (hrest : DerivesAll statements rest next) :
      DerivesAll (statement.toList ++ statements) (tokens ++ rest) next

end Monkey
