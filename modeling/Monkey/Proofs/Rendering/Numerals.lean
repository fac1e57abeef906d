/-
Integer literals of a tree.  They are those of its tokens, in the order of the text.  So trees that
are read from the same lexemes have them written alike.
-/
import Monkey.Proofs.Parsing.Programs
import Monkey.Proofs.Rendering.Ink

namespace Monkey

/-- The text of the token if it is an integer literal. -/
def Token.numeral (token : Token) : List String :=
  if token.kind = .int then [token.literal] else []

/-- The texts of the integer literals among tokens. -/
def numeralsOf (tokens : List Token) : List String :=
  tokens.flatMap Token.numeral

theorem Token.numeral_of_kind {token : Token} {kind : Kind} (h : token.kind = kind)
    (hkind : kind ≠ .int) : token.numeral = [] :=
  if_neg (h ▸ hkind)

@[simp] theorem numeralsOf_nil : numeralsOf [] = [] := rfl

@[simp] theorem numeralsOf_cons (token : Token) (tokens : List Token) :
    numeralsOf (token :: tokens) = token.numeral ++ numeralsOf tokens := rfl

@[simp] theorem numeralsOf_append (first second : List Token) :
    numeralsOf (first ++ second) = numeralsOf first ++ numeralsOf second :=
  List.flatMap_append

/-! ### Numerals of nodes -/

theorem Node.numerals_eq (node : Node) :
    node.numerals = node.numeral ++ node.children.flatMap Node.numerals :=
  node.gather_eq

section

variable {token : Option Token} {text : String} {left right body : Node} {nodes : List Node}

@[simp] theorem numerals_missing : Node.missing.numerals = [] := rfl

@[simp] theorem numerals_ident : (Node.ident token text).numerals = [] := rfl

@[simp] theorem numerals_int {value : Int} :
    (Node.int token value).numerals = [literalOf token] := rfl

@[simp] theorem numerals_string : (Node.string token text).numerals = [] := rfl

@[simp] theorem numerals_bool {value : Bool} : (Node.bool token value).numerals = [] := rfl

@[simp] theorem numerals_prefixOp :
    (Node.prefixOp token text right).numerals = right.numerals := by
  simp [Node.numerals_eq (.prefixOp _ _ _), Node.numeral, Node.children]

@[simp] theorem numerals_infixOp :
    (Node.infixOp token left text right).numerals = left.numerals ++ right.numerals := by
  simp [Node.numerals_eq (.infixOp _ _ _ _), Node.numeral, Node.children]

@[simp] theorem numerals_ifElse : (Node.ifElse token left right body).numerals =
    left.numerals ++ (right.numerals ++ body.numerals) := by
  simp [Node.numerals_eq (.ifElse _ _ _ _), Node.numeral, Node.children]

@[simp] theorem numerals_function : (Node.function token nodes body).numerals =
    nodes.flatMap Node.numerals ++ body.numerals := by
  simp [Node.numerals_eq (.function _ _ _), Node.numeral, Node.children]

@[simp] theorem numerals_call :
    (Node.call token left nodes).numerals = left.numerals ++ nodes.flatMap Node.numerals := by
  simp [Node.numerals_eq (.call _ _ _), Node.numeral, Node.children]

@[simp] theorem numerals_index :
    (Node.index token left right).numerals = left.numerals ++ right.numerals := by
  simp [Node.numerals_eq (.index _ _ _), Node.numeral, Node.children]

@[simp] theorem numerals_array :
    (Node.array token nodes).numerals = nodes.flatMap Node.numerals := by
  simp [Node.numerals_eq (.array _ _), Node.numeral, Node.children]

@[simp] theorem numerals_hash {pairs : List (Node × Node)} : (Node.hash token pairs).numerals =
    pairs.flatMap fun pair => pair.1.numerals ++ pair.2.numerals := by
  simp [Node.numerals_eq (.hash _ _), Node.numeral, Node.children, List.flatMap_assoc]

@[simp] theorem numerals_block :
    (Node.block token nodes).numerals = nodes.flatMap Node.numerals := by
  simp [Node.numerals_eq (.block _ _), Node.numeral, Node.children]

@[simp] theorem numerals_program :
    (Node.program nodes).numerals = nodes.flatMap Node.numerals := by
  simp [Node.numerals_eq (.program _), Node.numeral, Node.children]

@[simp] theorem numerals_letStmt :
    (Node.letStmt token left right).numerals = left.numerals ++ right.numerals := by
  simp [Node.numerals_eq (.letStmt _ _ _), Node.numeral, Node.children]

@[simp] theorem numerals_returnStmt :
    (Node.returnStmt token right).numerals = right.numerals := by
  simp [Node.numerals_eq (.returnStmt _ _), Node.numeral, Node.children]

@[simp] theorem numerals_exprStmt :
    (Node.exprStmt token right).numerals = right.numerals := by
  simp [Node.numerals_eq (.exprStmt _ _), Node.numeral, Node.children]

end

/-! ### Numerals of what is read -/

/-- The integer literals of a phrase are those of its tokens.  Where a phrase goes on from another
one, the first token belongs to the other. -/
def Phrase.Numbers (tokens : List Token) : Phrase → Prop
  | .expression _ node | .opening _ node | .conditional node | .block node =>
      node.numerals = numeralsOf tokens
  | .extension _ left node => node.numerals = left.numerals ++ numeralsOf tokens.tail
  | .otherwise _ condition consequence node =>
      node.numerals = condition.numerals ++ (consequence.numerals ++ numeralsOf tokens.tail)
  | .list close nodes | .elements close nodes =>
      close ≠ .int → (nodes.getD []).flatMap Node.numerals = numeralsOf tokens
  | .pairs nodes =>
      (nodes.getD []).flatMap (fun pair => pair.1.numerals ++ pair.2.numerals) = numeralsOf tokens
  | .body statements => statements.flatMap Node.numerals = numeralsOf tokens
  | .sentence read | .statement read =>
      read.toList.flatMap Node.numerals = numeralsOf tokens

theorem Parameters.numerals {names : List Node} {tokens : List Token}
    (h : Parameters names tokens) :
    names.flatMap Node.numerals = [] ∧ numeralsOf tokens = [] := by
  induction h with
  | none hclose => exact ⟨rfl, by simp [Token.numeral, hclose]⟩
  | last hident hclose => exact ⟨rfl, by simp [Token.numeral, hident, hclose]⟩
  | more hident hcomma _ _ ih =>
      exact ⟨ih.1, by simp [Token.numeral, hident, hcomma, ih.2]⟩

theorem Token.numeral_of_continues? {last next : Token} {rule : InfixRule}
    (h : last.continues? next = some rule) : next.numeral = [] := by
  refine Token.numeral_of_kind rfl fun hkind => ?_
  have hrule := (Token.infixRule?_of_continues? h).1
  rw [hkind] at hrule
  cases hrule

/-- By induction on how the phrase is made up.  No token but that of an integer literal has a
numeral, and every other one is known by its kind. -/
theorem Derives.numbers {phrase : Phrase} {tokens : List Token} {next : Token}
    (h : Derives phrase tokens next) : phrase.Numbers tokens := by
  induction h with
  | conditional _ ih | list _ ih | bare _ _ ih => exact ih
  | boolean hkind => rcases hkind with hkind | hkind <;> simp [Phrase.Numbers, Token.numeral, hkind]
  | sign hkind _ ih =>
      rcases hkind with hkind | hkind <;> simp_all [Phrase.Numbers, Token.numeral]
  | function _ _ hnames _ ih => simp_all [Phrase.Numbers, Token.numeral, hnames.numerals]
  | infixOp hrule _ _ _ ih ih' | call hrule _ _ _ ih ih' =>
      simp_all [Phrase.Numbers, Token.numeral_of_continues? hrule]
  | index hrule _ hclose _ _ ih ih' =>
      have hnumeral := Token.numeral_of_kind hclose (by decide)
      simp_all [Phrase.Numbers, Token.numeral_of_continues? hrule]
  | _ => simp_all [Phrase.Numbers, Token.numeral, literalOf]

theorem DerivesAll.numbers {statements : List Node} {tokens : List Token} {next : Token}
    (h : DerivesAll statements tokens next) :
    statements.flatMap Node.numerals = numeralsOf tokens := by
  induction h with
  | nil => rfl
  | cons hstatement _ ih =>
      rw [List.flatMap_append, hstatement.numbers, ih, numeralsOf_append]

theorem Parses.numerals_eq {source : String} {program : Node} (h : Parses source program) :
    program.numerals = numeralsOf (tokenize source).tokens := by
  obtain ⟨statements, rfl, hderives⟩ := parses_iff.mp h
  rw [numerals_program, hderives.numbers]

end Monkey
