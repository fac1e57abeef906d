/-
Strings that say something else.  The grammar asks nothing of what is in a string literal, so tokens
that make up a part of a program do so also with other strings in the same places.
-/
import Monkey.Proofs.Parsing.Phrase

namespace Monkey

/-- Other texts for strings, and for what is no token. -/
structure Rewording where
  token : Token → Token
  /-- The text of a string literal with that token. -/
  text : Option Token → String → String
  kind_token : ∀ t, (token t).kind = t.kind
  place_token : ∀ t, (token t).place = t.place
  token_eq : ∀ t, t.kind ≠ .string → t.kind ≠ .illegal → token t = t
  text_token : ∀ t, t.kind = .string → text (some t) t.literal = (token t).literal

attribute [simp] Rewording.kind_token Rewording.place_token

namespace Rewording

variable (rewording : Rewording)

mutual

/-- The tree with other texts in its string literals and tokens. -/
def node : Node → Node
  | .missing => .missing
  | .text value => .text value
  | .flag value => .flag value
  | .program statements => .program (nodes statements)
  | .exprStmt token expression => .exprStmt (token.map rewording.token) (node expression)
  | .letStmt token name value => .letStmt (token.map rewording.token) (node name) (node value)
  | .returnStmt token value => .returnStmt (token.map rewording.token) (node value)
  | .block token statements => .block (token.map rewording.token) (nodes statements)
  | .ident token name => .ident (token.map rewording.token) name
  | .int token value => .int (token.map rewording.token) value
  | .string token value => .string (token.map rewording.token) (rewording.text token value)
  | .bool token value => .bool (token.map rewording.token) value
  | .prefixOp token operator right =>
      .prefixOp (token.map rewording.token) operator (node right)
  | .infixOp token left operator right =>
      .infixOp (token.map rewording.token) (node left) operator (node right)
  | .ifElse token condition consequence alternative =>
      .ifElse (token.map rewording.token) (node condition) (node consequence) (node alternative)
  | .function token parameters body =>
      .function (token.map rewording.token) (nodes parameters) (node body)
  | .call token callee arguments =>
      .call (token.map rewording.token) (node callee) (nodes arguments)
  | .array token elements => .array (token.map rewording.token) (nodes elements)
  | .index token left index => .index (token.map rewording.token) (node left) (node index)
  | .hash token pairs => .hash (token.map rewording.token) (nodePairs pairs)

def nodes : List Node → List Node
  | [] => []
  | first :: rest => node first :: nodes rest

def nodePairs : List (Node × Node) → List (Node × Node)
  | [] => []
  | (key, value) :: rest => (node key, node value) :: nodePairs rest

end

theorem nodes_append (first second : List Node) :
    rewording.nodes (first ++ second) = rewording.nodes first ++ rewording.nodes second := by
  induction first with
  | nil => rfl
  | cons head first ih => rw [List.cons_append, nodes, ih, nodes, List.cons_append]

/-- What is read, with other texts. -/
def phrase : Phrase → Phrase
  | .expression power tree => .expression power (rewording.node tree)
  | .opening rule tree => .opening rule (rewording.node tree)
  | .extension power left tree => .extension power (rewording.node left) (rewording.node tree)
  | .conditional tree => .conditional (rewording.node tree)
  | .otherwise token condition consequence tree =>
      .otherwise (rewording.token token) (rewording.node condition) (rewording.node consequence)
        (rewording.node tree)
  | .list close trees => .list close (trees.map rewording.nodes)
  | .elements close trees => .elements close (trees.map rewording.nodes)
  | .pairs pairs => .pairs (pairs.map rewording.nodePairs)
  | .block tree => .block (rewording.node tree)
  | .body statements => .body (rewording.nodes statements)
  | .sentence statement => .sentence (statement.map rewording.node)
  | .statement statement => .statement (statement.map rewording.node)

/-! ### The tokens of a phrase -/

theorem token_of_kind {token : Token} {kind : Kind} (h : token.kind = kind)
    (hkind : kind ≠ .string ∧ kind ≠ .illegal) : rewording.token token = token :=
  rewording.token_eq token (h ▸ hkind.1) (h ▸ hkind.2)

theorem headD_map (rest : List Token) (next : Token) :
    (rest.map rewording.token).headD (rewording.token next) =
      rewording.token (rest.headD next) := by
  cases rest <;> rfl

theorem continues? (last next : Token) :
    (rewording.token last).continues? (rewording.token next) = last.continues? next := by
  simp only [Token.continues?, kind_token, place_token]

theorem token_of_continues? {last next : Token} {rule : InfixRule}
    (h : last.continues? next = some rule) : rewording.token next = next := by
  have hrule := (Token.infixRule?_of_continues? h).1
  refine rewording.token_eq next (fun hkind => ?_) (fun hkind => ?_) <;>
  · rw [hkind] at hrule
    cases hrule

theorem toList_map (statement : Option Node) :
    rewording.nodes statement.toList = (statement.map rewording.node).toList := by
  cases statement <;> rfl

theorem nodes_ne_nil {trees : List Node} (h : trees ≠ []) : rewording.nodes trees ≠ [] := by
  cases trees with
  | nil => exact absurd rfl h
  | cons => exact List.cons_ne_nil _ _

end Rewording

theorem Parameters.reworded {names : List Node} {tokens : List Token} (h : Parameters names tokens)
    (rewording : Rewording) : Parameters (rewording.nodes names) (tokens.map rewording.token) := by
  induction h with
  | none hclose => exact .none (by simpa using hclose)
  | last hname hclose =>
      have htoken := rewording.token_of_kind hname (by decide)
      simpa [Rewording.nodes, Rewording.node, htoken] using
        Parameters.last hname ((rewording.kind_token _).trans hclose)
  | more hname hcomma hnames _ ih =>
      have htoken := rewording.token_of_kind hname (by decide)
      simpa [Rewording.nodes, Rewording.node, htoken] using
        Parameters.more hname ((rewording.kind_token _).trans hcomma)
          (rewording.nodes_ne_nil hnames) ih

/-! ### What is derived -/

/-- By induction on how the phrase is made up.  A rule looks at the kinds and places of tokens, and
at the text of no string. -/
theorem Derives.reworded {phrase : Phrase} {tokens : List Token} {next : Token}
    (h : Derives phrase tokens next) (rewording : Rewording) :
    Derives (rewording.phrase phrase) (tokens.map rewording.token) (rewording.token next) := by
  have hkinds {token : Token} {kind : Kind} (hkind : token.kind = kind) :
      (rewording.token token).kind = kind := (rewording.kind_token token).trans hkind
  induction h with
  | integer hkind hread hmin hmax =>
      have htoken := rewording.token_of_kind hkind (by decide)
      refine .integer (hkinds hkind) ?_ hmin hmax
      rw [htoken, hread]
  | @string token next hkind =>
      have hstring : Derives (.opening .string (.string (some (rewording.token token))
          (rewording.token token).literal)) [rewording.token token] (rewording.token next) :=
        .string (hkinds hkind)
      rw [← rewording.text_token token hkind] at hstring
      exact hstring
  | @boolean token next hkind =>
      have hboolean : Derives (.opening .boolean (.bool (some (rewording.token token))
          ((rewording.token token).kind == .trueWord))) [rewording.token token]
          (rewording.token next) := .boolean (hkind.imp hkinds hkinds)
      rw [rewording.kind_token] at hboolean
      exact hboolean
  | @identifier token next hkind =>
      have htoken := rewording.token_of_kind hkind (by decide)
      have hidentifier : Derives (.opening .identifier (.ident (some token) token.literal)) [token]
          (rewording.token next) := .identifier hkind
      simpa [Rewording.phrase, Rewording.node, htoken] using hidentifier
  | @sign token next right tokens hkind _ ih =>
      have htoken : rewording.token token = token := by
        rcases hkind with hkind | hkind <;> exact rewording.token_of_kind hkind (by decide)
      have hsign : Derives (.opening .operator (.prefixOp (some token) token.literal
          (rewording.node right))) (token :: tokens.map rewording.token) (rewording.token next) :=
        .sign hkind ih
      simpa [Rewording.phrase, Rewording.node, htoken] using hsign
  | grouped hopen hclose _ ih =>
      rw [List.map_append, List.map_cons]
      exact .grouped (hkinds hopen) (hkinds hclose) ih
  | conditional _ ih => exact .conditional ih
  | function hkind hopen hnames _ ih =>
      rw [List.map_append, List.map_cons, List.map_cons]
      exact .function (hkinds hkind) (hkinds hopen) (hnames.reworded rewording) ih
  | array hopen _ ih => exact .array (hkinds hopen) ih
  | hash hopen _ ih => exact .hash (hkinds hopen) ih
  | expression _ _ ih ih' =>
      rw [← rewording.headD_map, List.map_append] at ih
      rw [List.map_append, List.map_cons]
      exact .expression ih ih'
  | stop hstop =>
      refine .stop fun rule hrule => hstop rule ?_
      rwa [rewording.continues?] at hrule
  | infixOp hrule hpower _ _ ih ih' =>
      -- the tree shows the text of the operator, which is no string
      have htoken := rewording.token_of_continues? hrule
      rw [← rewording.headD_map, List.map_append] at ih
      rw [← rewording.continues?] at hrule
      simp only [Rewording.phrase, Rewording.node, Option.map_some, htoken] at hrule ih'
      simp only [List.map_append, List.map_cons, htoken]
      exact .infixOp hrule hpower ih ih'
  | call hrule hpower _ _ ih ih' =>
      rw [← rewording.headD_map, List.map_append] at ih
      rw [← rewording.continues?] at hrule
      simp only [List.map_append, List.map_cons]
      exact .call hrule hpower ih ih'
  | index hrule hpower hclose _ _ ih ih' =>
      rw [← rewording.continues?] at hrule
      simp only [List.map_append, List.map_cons]
      exact .index hrule hpower (hkinds hclose) ih ih'
  | ifElse hkind hopen hclose _ _ _ ih ih' ih'' =>
      rw [← rewording.headD_map, List.map_append] at ih'
      simp only [List.map_append, List.map_cons]
      exact .ifElse (hkinds hkind) (hkinds hopen) (hkinds hclose) ih ih' ih''
  | noElse hnext => exact .noElse (by rwa [rewording.kind_token])
  | elseBlock hword _ ih => exact .elseBlock (hkinds hword) ih
  | elseIf hword _ ih => exact .elseIf (hkinds hword) ih
  | emptyList hclose => exact .emptyList (hkinds hclose)
  | list _ ih => exact .list ih
  | lastElement hclose _ ih =>
      rw [List.map_append]
      exact .lastElement (hkinds hclose) ih
  | moreElements hcomma _ _ ih ih' =>
      rw [List.map_append, List.map_cons]
      exact .moreElements (hkinds hcomma) ih ih'
  | emptyPairs hclose => exact .emptyPairs (hkinds hclose)
  | lastPair hcolon hclose _ _ ih ih' =>
      simp only [List.map_append, List.map_cons]
      exact .lastPair (hkinds hcolon) (hkinds hclose) ih ih'
  | morePairs hcolon hcomma _ _ _ ih ih' ih'' =>
      simp only [List.map_append, List.map_cons]
      exact .morePairs (hkinds hcolon) (hkinds hcomma) ih ih' ih''
  | block hopen _ ih => exact .block (hkinds hopen) ih
  | emptyBody hclose => exact .emptyBody (hkinds hclose)
  | @body first next statement statements tokens rest _ _ ih ih' =>
      rw [List.map_append, List.map_cons]
      have hbody := Derives.body ih ih'
      rw [← rewording.toList_map, ← rewording.nodes_append] at hbody
      exact hbody
  | @letSentence token name assign next value tokens hkind hname hassign _ ih =>
      have hlet := Derives.letSentence (hkinds hkind) (hkinds hname) (hkinds hassign) ih
      simpa [Rewording.phrase, Rewording.node, rewording.token_of_kind hname] using hlet
  | returnSentence hkind _ ih => exact .returnSentence (hkinds hkind) ih
  | exprSentence _ ih => exact .exprSentence ih
  | stray hkind => exact .stray (hkinds hkind)
  | bare hnext _ ih =>
      refine .bare (fun hsome => ?_) ih
      rw [rewording.kind_token]
      exact hnext (by simpa using hsome)
  | ended hkind _ ih =>
      rw [List.map_append]
      exact .ended (hkinds hkind) ih

theorem DerivesAll.reworded {statements : List Node} {tokens : List Token} {next : Token}
    (h : DerivesAll statements tokens next) (rewording : Rewording) :
    DerivesAll (rewording.nodes statements) (tokens.map rewording.token)
      (rewording.token next) := by
  induction h with
  | nil => exact .nil
  | cons hstatement _ ih =>
      have hfirst := hstatement.reworded rewording
      rw [← rewording.headD_map] at hfirst
      rw [rewording.nodes_append, rewording.toList_map, List.map_append]
      exact .cons hfirst ih

end Monkey
