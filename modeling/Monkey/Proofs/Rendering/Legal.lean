/-
The trees of programs without mistakes: nothing is missing but the alternative of an if without
else, and every text in the tree is one that the lexer can read.
-/
import Monkey.Proofs.Parsing.Programs
import Monkey.Proofs.Rendering.Marks

namespace Monkey

/-- The parts of a tree, apart from the token runs they come from. -/
inductive Form where
  | expression (node : Node)
  | conditional (node : Node)
  | block (node : Node)
  | nodes (nodes : List Node)
  | pairs (pairs : List (Node × Node))
  | sentence (node : Node)
  | lines (nodes : List Node)

def Form.marks : Form → List Mark
  | .expression node | .conditional node | .block node | .sentence node => node.marks
  | .nodes list => listMarks list
  | .pairs list => pairMarks list
  | .lines list => lineMarks list

/-- The operator of an infix expression. -/
def Token.IsOperator (token : Token) : Prop :=
  ∃ power right, Grammar.standard.infixRule? token.kind = some (.operator power right)

/-- The part can be the outcome of reading without a mistake. -/
inductive Legal : Form → Prop where
  | ident {token : Token} (hkind : token.kind = .ident)
      (hspells : token.kind.Spells token.literal) :
      Legal (.expression (.ident (some token) token.literal))
  | int {token : Token} {value : Int} (hkind : token.kind = .int)
      (hspells : token.kind.Spells token.literal) (hread : readInt token.literal = .ok value)
      (hmin : minInteger ≤ value) (hmax : value ≤ maxInteger) :
      Legal (.expression (.int (some token) value))
  | string {token : Token} (hkind : token.kind = .string)
      (hspells : token.kind.Spells token.literal) :
      Legal (.expression (.string (some token) token.literal))
  | bool {token : Option Token} {value : Bool} : Legal (.expression (.bool token value))
  | prefixOp {token : Token} {right : Node}
      (hkind : token.kind = .minus ∨ token.kind = .bang)
      (hspells : token.kind.Spells token.literal) (hright : Legal (.expression right)) :
      Legal (.expression (.prefixOp (some token) token.literal right))
  | infixOp {token : Token} {left right : Node} (hkind : token.IsOperator)
      (hspells : token.kind.Spells token.literal) (hleft : Legal (.expression left))
      (hright : Legal (.expression right)) :
      Legal (.expression (.infixOp (some token) left token.literal right))
  | conditional {node : Node} (hnode : Legal (.conditional node)) : Legal (.expression node)
  | function {token : Token} {names : List Node} {body : Node} (hkind : token.kind = .fnWord)
      (hspells : token.kind.Spells token.literal)
      (hnames : ∀ name ∈ names, ∃ token, name = .ident (some token) token.literal ∧
        token.kind = .ident ∧ token.kind.Spells token.literal)
      (hbody : Legal (.block body)) :
      Legal (.expression (.function (some token) names body))
  | call {token : Option Token} {callee : Node} {arguments : List Node}
      (hcallee : Legal (.expression callee)) (harguments : Legal (.nodes arguments)) :
      Legal (.expression (.call token callee arguments))
  | array {token : Option Token} {elements : List Node} (helements : Legal (.nodes elements)) :
      Legal (.expression (.array token elements))
  | index {token : Option Token} {left position : Node} (hleft : Legal (.expression left))
      (hposition : Legal (.expression position)) :
      Legal (.expression (.index token left position))
  | hash {token : Option Token} {pairs : List (Node × Node)} (hpairs : Legal (.pairs pairs)) :
      Legal (.expression (.hash token pairs))
  | noElse {token : Option Token} {condition consequence : Node}
      (hcondition : Legal (.expression condition)) (hconsequence : Legal (.block consequence)) :
      Legal (.conditional (.ifElse token condition consequence .missing))
  | elseBlock {token : Option Token} {condition consequence alternative : Node}
      (hcondition : Legal (.expression condition)) (hconsequence : Legal (.block consequence))
      (halternative : Legal (.block alternative)) :
      Legal (.conditional (.ifElse token condition consequence alternative))
  | elseIf {token : Option Token} {condition consequence alternative : Node}
      (hcondition : Legal (.expression condition)) (hconsequence : Legal (.block consequence))
      (halternative : Legal (.conditional alternative)) :
      Legal (.conditional (.ifElse token condition consequence alternative))
  | noNodes : Legal (.nodes [])
  | nodes {node : Node} {nodes : List Node} (hnode : Legal (.expression node))
      (hnodes : Legal (.nodes nodes)) : Legal (.nodes (node :: nodes))
  | noPairs : Legal (.pairs [])
  | pairs {key value : Node} {pairs : List (Node × Node)} (hkey : Legal (.expression key))
      (hvalue : Legal (.expression value)) (hpairs : Legal (.pairs pairs)) :
      Legal (.pairs ((key, value) :: pairs))
  | block {token : Option Token} {statements : List Node} (hlines : Legal (.lines statements)) :
      Legal (.block (.block token statements))
  | letSentence {token name : Token} {value : Node} (hkind : token.kind = .letWord)
      (hspells : token.kind.Spells token.literal) (hname : name.kind = .ident)
      (hspells' : name.kind.Spells name.literal) (hvalue : Legal (.expression value)) :
      Legal (.sentence (.letStmt (some token) (.ident (some name) name.literal) value))
  | returnSentence {token : Token} {value : Node} (hkind : token.kind = .returnWord)
      (hspells : token.kind.Spells token.literal) (hvalue : Legal (.expression value)) :
      Legal (.sentence (.returnStmt (some token) value))
  | exprSentence {token : Option Token} {value : Node} (hvalue : Legal (.expression value)) :
      Legal (.sentence (.exprStmt token value))
  | noLines : Legal (.lines [])
  | lines {statement : Node} {statements : List Node} (hstatement : Legal (.sentence statement))
      (hlines : Legal (.lines statements)) : Legal (.lines (statement :: statements))

theorem Legal.ne_missing {node : Node}
    (h : Legal (.expression node) ∨ Legal (.block node) ∨ Legal (.conditional node)) :
    node ≠ .missing := by
  rintro rfl
  rcases h with h | h | h
  · cases h with
    | conditional h => cases h
  · cases h
  · cases h

/-- What reading a phrase without a mistake makes. -/
def Phrase.Makes : Phrase → Prop
  | .expression _ node | .opening _ node => Legal (.expression node)
  | .extension _ left node => Legal (.expression left) → Legal (.expression node)
  | .conditional node => Legal (.conditional node)
  | .otherwise _ condition consequence node =>
      Legal (.expression condition) → Legal (.block consequence) → Legal (.conditional node)
  | .list _ found | .elements _ found => ∀ list, found = some list → Legal (.nodes list)
  | .pairs found => ∀ list, found = some list → Legal (.pairs list)
  | .block node => Legal (.block node)
  | .body statements => Legal (.lines statements)
  | .sentence found | .statement found =>
      ∀ node, found = some node → Legal (.sentence node)

theorem Legal.toList_lines {statement : Option Node} {statements : List Node}
    (h : ∀ node, statement = some node → Legal (.sentence node))
    (hrest : Legal (.lines statements)) : Legal (.lines (statement.toList ++ statements)) := by
  cases statement with
  | none => exact hrest
  | some node => exact .lines (h node rfl) hrest

theorem Parameters.legal {names : List Node} {tokens : List Token} (h : Parameters names tokens)
    (hspells : ∀ token ∈ tokens, token.kind.Spells token.literal) :
    ∀ name ∈ names, ∃ token, name = .ident (some token) token.literal ∧
      token.kind = .ident ∧ token.kind.Spells token.literal := by
  induction h with
  | none _ => simp
  | @last token _ hname _ =>
      intro name hmem
      rw [List.mem_singleton] at hmem
      exact ⟨token, hmem, hname, hspells _ (by simp)⟩
  | @more token _ _ _ hname _ _ _ ih =>
      intro name hmem
      rcases List.mem_cons.mp hmem with rfl | hmem
      · exact ⟨token, rfl, hname, hspells _ (by simp)⟩
      · exact ih (fun token htoken => hspells token (by simp [htoken])) name hmem

/-- Reading well-spelled tokens without a mistake makes a legal tree. -/
theorem Derives.legal {phrase : Phrase} {tokens : List Token} {next : Token}
    (h : Derives phrase tokens next)
    (hspells : ∀ token ∈ tokens, token.kind.Spells token.literal) : phrase.Makes := by
  induction h with
  | integer hkind hread hmin hmax => exact .int hkind (hspells _ (by simp)) hread hmin hmax
  | string hkind => exact .string hkind (hspells _ (by simp))
  | boolean _ => exact .bool
  | identifier hkind => exact .ident hkind (hspells _ (by simp))
  | sign hkind _ ih =>
      exact .prefixOp hkind (hspells _ (by simp)) (ih fun t ht => hspells t (by simp [ht]))
  | grouped _ _ _ ih => exact ih fun t ht => hspells t (by simp [ht])
  | conditional _ ih => exact .conditional (ih hspells)
  | function hkind _ hnames _ ih =>
      refine .function hkind (hspells _ (by simp)) ?_ (ih fun t ht => hspells t (by simp [ht]))
      exact hnames.legal fun t ht => hspells t (by simp [ht])
  | array _ _ ih => exact .array (ih (fun t ht => hspells t (by simp [ht])) _ rfl)
  | hash _ _ ih => exact .hash (ih (fun t ht => hspells t (by simp [ht])) _ rfl)
  | expression _ _ ih ih' =>
      exact ih' (fun t ht => hspells t (by simp [ht])) (ih fun t ht => hspells t (by grind))
  | stop _ => exact id
  | @infixOp _ binding right _ _ _ _ operator _ _ _ _ hrule _ _ _ ih ih' =>
      intro hleft
      apply ih' (fun t ht => hspells t (by simp [ht]))
      exact .infixOp ⟨binding, right, (Token.infixRule?_of_continues? hrule).1⟩
        (hspells _ (by simp)) hleft (ih fun t ht => hspells t (by grind))
  | call _ _ _ _ ih ih' =>
      intro hleft
      have harguments := ih (fun t ht => hspells t (by grind)) _ rfl
      exact ih' (fun t ht => hspells t (by simp [ht])) (.call hleft harguments)
  | index _ _ _ _ _ ih ih' =>
      intro hleft
      refine ih' (fun t ht => hspells t (by simp [ht])) (.index hleft (ih fun t ht => ?_))
      exact hspells t (by simp [ht])
  | ifElse _ _ _ _ _ _ ih ih' ih'' =>
      exact ih'' (fun t ht => hspells t (by simp [ht]))
        (ih fun t ht => hspells t (by simp [ht])) (ih' fun t ht => hspells t (by grind))
  | noElse _ => exact .noElse
  | elseBlock _ _ ih =>
      intro hcondition hconsequence
      exact .elseBlock hcondition hconsequence (ih fun t ht => hspells t (by simp [ht]))
  | elseIf _ _ ih =>
      intro hcondition hconsequence
      exact .elseIf hcondition hconsequence (ih fun t ht => hspells t (by simp [ht]))
  | emptyList _ =>
      rintro list ⟨⟩
      exact .noNodes
  | list _ ih => exact ih hspells
  | lastElement _ _ ih =>
      rintro list ⟨⟩
      exact .nodes (ih fun t ht => hspells t (by simp [ht])) .noNodes
  | moreElements _ _ _ ih ih' =>
      rintro list ⟨⟩
      exact .nodes (ih fun t ht => hspells t (by simp [ht]))
        (ih' (fun t ht => hspells t (by simp [ht])) _ rfl)
  | emptyPairs _ =>
      rintro list ⟨⟩
      exact .noPairs
  | lastPair _ _ _ _ ih ih' =>
      rintro list ⟨⟩
      exact .pairs (ih fun t ht => hspells t (by simp [ht]))
        (ih' fun t ht => hspells t (by simp [ht])) .noPairs
  | morePairs _ _ _ _ _ ih ih' ih'' =>
      rintro list ⟨⟩
      exact .pairs (ih fun t ht => hspells t (by simp [ht]))
        (ih' fun t ht => hspells t (by simp [ht]))
        (ih'' (fun t ht => hspells t (by simp [ht])) _ rfl)
  | block _ _ ih => exact .block (ih fun t ht => hspells t (by simp [ht]))
  | emptyBody _ => exact .noLines
  | body _ _ ih ih' =>
      refine .toList_lines (ih fun t ht => hspells t (by simp [ht])) ?_
      exact ih' fun t ht => hspells t (List.mem_append_right _ ht)
  | letSentence hkind hname _ _ ih =>
      rintro node ⟨⟩
      exact .letSentence hkind (hspells _ (by simp)) hname (hspells _ (by simp))
        (ih fun t ht => hspells t (by simp [ht]))
  | returnSentence hkind _ ih =>
      rintro node ⟨⟩
      exact .returnSentence hkind (hspells _ (by simp))
        (ih fun t ht => hspells t (by simp [ht]))
  | exprSentence _ ih =>
      rintro node ⟨⟩
      exact .exprSentence (ih hspells)
  | stray _ =>
      rintro node ⟨⟩
  | bare _ _ ih => exact ih hspells
  | ended _ _ ih => exact ih fun t ht => hspells t (by simp [ht])

theorem DerivesAll.legal {statements : List Node} {tokens : List Token} {next : Token}
    (h : DerivesAll statements tokens next)
    (hspells : ∀ token ∈ tokens, token.kind.Spells token.literal) :
    Legal (.lines statements) := by
  induction h with
  | nil => exact .noLines
  | cons hstatement _ ih =>
      refine .toList_lines (hstatement.legal fun t ht => ?_) (ih fun t ht => ?_)
      · exact hspells t (List.mem_append_left _ ht)
      · exact hspells t (List.mem_append_right _ ht)

/-- A program that parses without errors is legal. -/
theorem Parses.legal {source : String} {program : Node} (h : Parses source program) :
    ∃ statements, program = .program statements ∧ Legal (.lines statements) := by
  obtain ⟨statements, rfl, hderives⟩ := parses_iff.mp h
  exact ⟨statements, rfl, hderives.legal fun _ htoken => spells_of_mem_tokenize htoken⟩

end Monkey
