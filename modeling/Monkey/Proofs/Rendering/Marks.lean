/-
The text of a syntax tree as marks: which characters of it are to be read as which token.
-/
import Monkey.Proofs.Lexing.Layout
import Monkey.Syntax.Render

namespace Monkey

/-- The kind that is always spelled like the text. -/
def Kind.ofSpelling (literal : String) : Kind :=
  (Kind.all.find? fun kind => kind.spelling? == some literal).getD .illegal

theorem Kind.ofSpelling_eq {kind : Kind} {literal : String}
    (h : kind.spelling? = some literal) : Kind.ofSpelling literal = kind := by
  cases kind <;> cases h <;> decide

/-- The text is the spelling of a kind, or of none. -/
theorem Kind.ofSpelling_ne_string (literal : String) : Kind.ofSpelling literal ≠ .string := by
  unfold Kind.ofSpelling
  cases hfound : Kind.all.find? fun kind => kind.spelling? == some literal with
  | none => decide
  | some kind =>
      have hspelling := List.find?_some hfound
      intro hkind
      rw [Option.getD_some] at hkind
      rw [hkind] at hspelling
      cases hspelling

mutual

/-- The marks that make up the rendering of a tree. -/
def Node.marks : Node → List Mark
  | .missing => [.word .ident "None"]
  | .text value => [.word .illegal value]
  | .flag value => [.word .ident (if value then "True" else "False")]
  | .program statements => lineMarks statements
  | .exprStmt _ .missing => []
  | .exprStmt _ expression => expression.marks
  | .letStmt token name value =>
      .word .letWord (literalOf token) :: .gap ' ' :: name.marks ++
        .gap ' ' :: .word .assign "=" :: .gap ' ' :: value.marks
  | .returnStmt token value =>
      .word .returnWord (literalOf token) :: .gap ' ' :: value.marks
  | .block _ statements =>
      .word .lbrace "\x7b" :: .gap '\n' :: lineMarks statements ++ [.word .rbrace "\x7d"]
  | .ident _ name => [.word .ident name]
  | .int token _ => [.word .int (literalOf token)]
  | .string _ value => [.word .string value]
  | .bool _ value => [if value then .word .trueWord "true" else .word .falseWord "false"]
  | .prefixOp _ operator right =>
      .word .lparen "(" :: .word (.ofSpelling operator) operator :: right.marks ++
        [.word .rparen ")"]
  | .infixOp _ left operator right =>
      .word .lparen "(" :: left.marks ++
        .gap ' ' :: .word (.ofSpelling operator) operator :: .gap ' ' :: right.marks ++
          [.word .rparen ")"]
  | .ifElse _ condition consequence .missing =>
      .word .ifWord "if" :: .gap ' ' :: .word .lparen "(" :: condition.marks ++
        .word .rparen ")" :: .gap ' ' :: consequence.marks
  | .ifElse _ condition consequence alternative =>
      .word .ifWord "if" :: .gap ' ' :: .word .lparen "(" :: condition.marks ++
        .word .rparen ")" :: .gap ' ' :: consequence.marks ++
          .gap ' ' :: .word .elseWord "else" :: .gap ' ' :: alternative.marks
  | .function token parameters body =>
      .word .fnWord (literalOf token) :: .word .lparen "(" :: listMarks parameters ++
        .word .rparen ")" :: .gap ' ' :: body.marks
  | .call _ callee arguments =>
      callee.marks ++ .word .lparen "(" :: listMarks arguments ++ [.word .rparen ")"]
  | .array _ elements =>
      .word .lbracket "[" :: listMarks elements ++ [.word .rbracket "]"]
  | .index _ left index =>
      .word .lparen "(" :: left.marks ++ .word .lbracket "[" :: index.marks ++
        [.word .rbracket "]", .word .rparen ")"]
  | .hash _ pairs =>
      .word .lbrace "\x7b" :: pairMarks pairs ++ [.word .rbrace "\x7d"]

/-- Each node on a line of its own. -/
def lineMarks : List Node → List Mark
  | [] => []
  | node :: rest => node.marks ++ .gap '\n' :: lineMarks rest

/-- Nodes separated by commas. -/
def listMarks : List Node → List Mark
  | [] => []
  | [node] => node.marks
  | node :: rest => node.marks ++ .word .comma "," :: .gap ' ' :: listMarks rest

def pairMarks : List (Node × Node) → List Mark
  | [] => []
  | [(key, value)] => key.marks ++ .word .colon ":" :: .gap ' ' :: value.marks
  | (key, value) :: rest =>
      key.marks ++ .word .colon ":" :: .gap ' ' :: value.marks ++
        .word .comma "," :: .gap ' ' :: pairMarks rest

end

theorem Node.marks_exprStmt {token : Option Token} {expression : Node}
    (h : expression ≠ .missing) : (Node.exprStmt token expression).marks = expression.marks := by
  rw [Node.marks]
  exact h

theorem Node.marks_ifElse {token : Option Token} {condition consequence alternative : Node}
    (h : alternative ≠ .missing) :
    (Node.ifElse token condition consequence alternative).marks =
      (Node.ifElse token condition consequence .missing).marks ++
        .gap ' ' :: .word .elseWord "else" :: .gap ' ' :: alternative.marks := by
  rw [Node.marks, Node.marks]
  exact h

theorem listMarks_cons (node : Node) (rest : List Node) :
    listMarks (node :: rest) =
      node.marks ++ if rest = [] then [] else .word .comma "," :: .gap ' ' :: listMarks rest := by
  cases rest with
  | nil => simp [listMarks]
  | cons second rest => simp [listMarks]

theorem pairMarks_cons (key value : Node) (rest : List (Node × Node)) :
    pairMarks ((key, value) :: rest) =
      key.marks ++ .word .colon ":" :: .gap ' ' :: value.marks ++
        if rest = [] then [] else .word .comma "," :: .gap ' ' :: pairMarks rest := by
  cases rest with
  | nil => simp [pairMarks]
  | cons second rest => simp [pairMarks]

theorem Mark.text_operator (operator : String) :
    (Mark.word (.ofSpelling operator) operator).text = operator.toList :=
  Mark.text_word (Kind.ofSpelling_ne_string operator) operator

mutual

/-- The marks of a tree spell its rendering. -/
theorem Node.toList_render : ∀ node : Node, node.render.toList = textOf node.marks
  | .missing | .text _ | .flag _ | .ident _ _ | .int _ _ => by
      simp [Node.render, Node.marks, Mark.text]
  | .string _ value => by simp [Node.render, Node.marks, Mark.text]
  | .bool _ value => by cases value <;> simp [Node.render, Node.marks, Mark.text]
  | .program statements => by
      rw [Node.render, Node.marks]
      exact toList_renderLines statements
  | .exprStmt token expression => by
      have ih := Node.toList_render expression
      by_cases h : expression = .missing
      · subst h
        simp [Node.render, Node.marks]
      · rw [Node.render, Node.marks]
        · exact ih
        · exact h
        · exact h
  | .letStmt token name value => by
      simp [Node.render, Node.marks, Mark.text, Node.toList_render name,
        Node.toList_render value]
  | .returnStmt token value => by
      simp [Node.render, Node.marks, Mark.text, Node.toList_render value]
  | .block token statements => by
      simp [Node.render, Node.marks, Mark.text, toList_renderLines statements]
  | .prefixOp token operator right => by
      simp [Node.render, Node.marks, Mark.text_operator, Node.toList_render right]
      simp [Mark.text]
  | .infixOp token left operator right => by
      simp [Node.render, Node.marks, Mark.text_operator, Node.toList_render left,
        Node.toList_render right]
      simp [Mark.text]
  | .ifElse token condition consequence alternative => by
      have ih := Node.toList_render condition
      have ih' := Node.toList_render consequence
      have ih'' := Node.toList_render alternative
      by_cases h : alternative = .missing
      · subst h
        simp [Node.render, Node.marks, Mark.text, ih, ih']
      · rw [Node.render, Node.marks]
        · simp [Mark.text, ih, ih', ih'']
        · exact h
        · exact h
  | .function token parameters body => by
      simp [Node.render, Node.marks, Mark.text, toList_renderList parameters,
        Node.toList_render body]
  | .call token callee arguments => by
      simp [Node.render, Node.marks, Mark.text, Node.toList_render callee,
        toList_renderList arguments]
  | .array token elements => by
      simp [Node.render, Node.marks, Mark.text, toList_renderList elements]
  | .index token left index => by
      simp [Node.render, Node.marks, Mark.text, Node.toList_render left,
        Node.toList_render index]
  | .hash token pairs => by
      simp [Node.render, Node.marks, Mark.text, toList_renderPairs pairs]

theorem toList_renderLines :
    ∀ nodes : List Node, (renderLines nodes).toList = textOf (lineMarks nodes)
  | [] => by simp [renderLines, lineMarks]
  | node :: rest => by
      simp [renderLines, lineMarks, Mark.text, Node.toList_render node, toList_renderLines rest]

theorem toList_renderList :
    ∀ nodes : List Node, (renderList nodes).toList = textOf (listMarks nodes)
  | [] => by simp [renderList, listMarks]
  | [node] => by
      rw [renderList, listMarks]
      exact Node.toList_render node
  | node :: second :: rest => by
      simp [renderList, listMarks, Mark.text, Node.toList_render node,
        toList_renderList (second :: rest)]

theorem toList_renderPairs :
    ∀ pairs : List (Node × Node), (renderPairs pairs).toList = textOf (pairMarks pairs)
  | [] => by simp [renderPairs, pairMarks]
  | [(key, value)] => by
      simp [renderPairs, pairMarks, Mark.text, Node.toList_render key, Node.toList_render value]
  | (key, value) :: second :: rest => by
      simp [renderPairs, pairMarks, Mark.text, Node.toList_render key, Node.toList_render value,
        toList_renderPairs (second :: rest)]

end

end Monkey
