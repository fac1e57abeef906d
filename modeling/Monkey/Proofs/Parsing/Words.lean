/-
Trees and their tokens.  A tree that is read without errors, walked from left to right, stands
for the tokens of the text one by one, but for those that the sieve passes over, and each node
keeps the token that introduces it.
-/
import Mathlib.Data.List.Forall2
import Monkey.Proofs.Parsing.Sieve
import Monkey.Proofs.Parsing.WellFormed

namespace Monkey

/-! ### The words of a tree -/

/-- What a word is there for: a keyword, bracket or separator inside a node, or the word that
introduces a node. -/
inductive Role where
  | mark (kind : Kind)
  | head (node : Node)

/-- A word of a tree, with the expression statements that begin with it. -/
structure Word where
  role : Role
  begins : List Node

namespace Word

def mark (kind : Kind) : Word :=
  ⟨.mark kind, []⟩

def head (node : Node) : Word :=
  ⟨.head node, []⟩

/-- The words, the first of which begins a statement. -/
def begin (statement : Node) : List Word → List Word
  | [] => []
  | word :: rest => ⟨word.role, statement :: word.begins⟩ :: rest

end Word

mutual

/-- The words that a tree stands for, from left to right. -/
def Node.words : Node → List Word
  | .missing | .text _ | .flag _ => []
  | .program statements => wordsOfAll statements
  | .exprStmt token expression => Word.begin (.exprStmt token expression) expression.words
  | .letStmt token name value =>
      .head (.letStmt token name value) :: name.words ++ .mark .assign :: value.words
  | .returnStmt token value => .head (.returnStmt token value) :: value.words
  | .block token statements =>
      .head (.block token statements) :: wordsOfAll statements ++ [.mark .rbrace]
  | .ident token name => [.head (.ident token name)]
  | .int token value => [.head (.int token value)]
  | .string token value => [.head (.string token value)]
  | .bool token value => [.head (.bool token value)]
  | .prefixOp token operator right => .head (.prefixOp token operator right) :: right.words
  | .infixOp token left operator right =>
      left.words ++ .head (.infixOp token left operator right) :: right.words
  | .ifElse token condition consequence alternative =>
      .head (.ifElse token condition consequence alternative) :: .mark .lparen ::
        condition.words ++ .mark .rparen :: consequence.words ++
          match alternative with
          | .missing => []
          | alternative => .mark .elseWord :: alternative.words
  | .function token parameters body =>
      .head (.function token parameters body) :: .mark .lparen :: wordsOfList parameters ++
        .mark .rparen :: body.words
  | .call token callee arguments =>
      callee.words ++ .head (.call token callee arguments) :: wordsOfList arguments ++
        [.mark .rparen]
  | .array token elements =>
      .head (.array token elements) :: wordsOfList elements ++ [.mark .rbracket]
  | .index token left position =>
      left.words ++ .head (.index token left position) :: position.words ++ [.mark .rbracket]
  | .hash token pairs =>
      .head (.hash token pairs) :: wordsOfPairs pairs ++ [.mark .rbrace]

/-- Nodes one after the other. -/
def wordsOfAll : List Node → List Word
  | [] => []
  | node :: rest => node.words ++ wordsOfAll rest

/-- Nodes separated by commas. -/
def wordsOfList : List Node → List Word
  | [] => []
  | [node] => node.words
  | node :: rest => node.words ++ .mark .comma :: wordsOfList rest

def wordsOfPairs : List (Node × Node) → List Word
  | [] => []
  | [(key, value)] => key.words ++ .mark .colon :: value.words
  | (key, value) :: rest =>
      key.words ++ .mark .colon :: value.words ++ .mark .comma :: wordsOfPairs rest

end

/-- A token as it introduces a node: its kind is the one for such nodes, and where the kind leaves
the text open, the text is what the node holds. -/
def Token.Introduces (token : Token) : Node → Prop
  | .letStmt .. => token.kind = .letWord
  | .returnStmt .. => token.kind = .returnWord
  | .block .. | .hash .. => token.kind = .lbrace
  | .ident _ name => token.kind = .ident ∧ token.literal = name
  | .int _ value => token.kind = .int ∧ readInt token.literal = .ok value
  | .string _ value => token.kind = .string ∧ token.literal = value
  | .bool _ value => token.kind = if value then .trueWord else .falseWord
  | .prefixOp _ operator _ =>
      (token.kind = .minus ∨ token.kind = .bang) ∧ token.literal = operator
  | .infixOp _ _ operator _ => token.IsOperator ∧ token.literal = operator
  | .ifElse .. => token.kind = .ifWord
  | .function .. => token.kind = .fnWord
  | .call .. => token.kind = .lparen
  | .array .. | .index .. => token.kind = .lbracket
  | .missing | .text _ | .flag _ | .program _ | .exprStmt .. => False

/-- The token stands in the place of the word.  The token of a node is that token, not just one
like it. -/
def Role.Is (token : Token) : Role → Prop
  | .mark kind => token.kind = kind
  | .head node => node.token? = some token ∧ token.Introduces node

/-- The kept token is the one that the word stands for.  A statement that begins with the word
keeps the token that leads it. -/
def Word.Is (word : Word) (kept : Kept) : Prop :=
  word.role.Is kept.token ∧ ∀ statement ∈ word.begins, statement.token? = some kept.lead

/-- What follows the consequence of an if. -/
def Node.elseWords : Node → List Word
  | .missing => []
  | alternative => .mark .elseWord :: alternative.words

theorem words_ifElse (token : Option Token) (condition consequence alternative : Node) :
    (Node.ifElse token condition consequence alternative).words =
      .head (.ifElse token condition consequence alternative) :: .mark .lparen ::
        condition.words ++ .mark .rparen :: consequence.words ++ alternative.elseWords := by
  cases alternative <;> simp only [Node.words, Node.elseWords]

theorem wordsOfList_cons (node : Node) {rest : List Node} (h : rest ≠ []) :
    wordsOfList (node :: rest) = node.words ++ .mark .comma :: wordsOfList rest := by
  cases rest with
  | nil => exact absurd rfl h
  | cons second rest => simp only [wordsOfList]

theorem wordsOfPairs_cons (key value : Node) {rest : List (Node × Node)} (h : rest ≠ []) :
    wordsOfPairs ((key, value) :: rest) =
      key.words ++ .mark .colon :: value.words ++ .mark .comma :: wordsOfPairs rest := by
  cases rest with
  | nil => exact absurd rfl h
  | cons second rest => simp only [wordsOfPairs]

theorem wordsOfAll_toList (statement : Option Node) (statements : List Node) :
    wordsOfAll (statement.toList ++ statements) =
      wordsOfAll statement.toList ++ wordsOfAll statements := by
  cases statement <;> simp [wordsOfAll]

theorem Word.is_mark {kind : Kind} {kept : Kept} (h : kept.token.kind = kind) :
    (Word.mark kind).Is kept :=
  ⟨h, nofun⟩

theorem Word.is_head {node : Node} {kept : Kept} (htoken : node.token? = some kept.token)
    (h : kept.token.Introduces node) : (Word.head node).Is kept :=
  ⟨⟨htoken, h⟩, nofun⟩

/-! ### Every node has its word -/

/-- The word is there for the node; an expression statement begins with it. -/
def Word.Introduces (word : Word) : Node → Prop
  | .exprStmt token expression => .exprStmt token expression ∈ word.begins
  | node => word.role = .head node

/-- Nothing is introduced by the one word that is not by the other. -/
def Word.Under (word other : Word) : Prop :=
  word.role = other.role ∧ word.begins ⊆ other.begins

theorem Word.Introduces.under {word other : Word} {node : Node} (h : word.Introduces node)
    (hunder : word.Under other) : other.Introduces node := by
  cases node with
  | exprStmt => exact hunder.2 h
  | _ => exact hunder.1.symm.trans h

theorem words_subset_all {node : Node} {nodes : List Node} (h : node ∈ nodes) :
    node.words ⊆ wordsOfAll nodes := by
  induction nodes with
  | nil => cases h
  | cons first rest ih =>
      rw [wordsOfAll]
      rcases List.mem_cons.mp h with rfl | hrest
      · exact List.subset_append_left _ _
      · exact List.Subset.trans (ih hrest) (List.subset_append_right _ _)

theorem words_subset_list {node : Node} {nodes : List Node} (h : node ∈ nodes) :
    node.words ⊆ wordsOfList nodes := by
  induction nodes with
  | nil => cases h
  | cons first rest ih =>
      rcases List.eq_nil_or_concat rest with rfl | ⟨front, last, hrest⟩
      · rw [List.mem_singleton.mp h, wordsOfList]
        exact List.Subset.refl _
      · rw [wordsOfList_cons first (by simp [hrest])]
        rcases List.mem_cons.mp h with rfl | hmem
        · exact List.subset_append_left _ _
        · exact List.Subset.trans (ih hmem)
            (List.Subset.trans (List.subset_cons_self _ _) (List.subset_append_right _ _))

theorem words_subset_pairs {pair : Node × Node} {pairs : List (Node × Node)} (h : pair ∈ pairs) :
    pair.1.words ⊆ wordsOfPairs pairs ∧ pair.2.words ⊆ wordsOfPairs pairs := by
  induction pairs with
  | nil => cases h
  | cons first rest ih =>
      have hfirst : first.1.words ++ .mark .colon :: first.2.words ⊆
          wordsOfPairs (first :: rest) := by
        cases rest with
        | nil => simp [wordsOfPairs]
        | cons second rest =>
            rw [wordsOfPairs_cons first.1 first.2 (List.cons_ne_nil second rest)]
            exact List.subset_append_left _ _
      rcases List.mem_cons.mp h with rfl | hrest
      · obtain ⟨hkey, hvalue⟩ := List.append_subset.mp hfirst
        exact ⟨hkey, List.Subset.trans (List.subset_cons_self _ _) hvalue⟩
      · have hothers : wordsOfPairs rest ⊆ wordsOfPairs (first :: rest) := by
          rw [wordsOfPairs_cons first.1 first.2 (List.ne_nil_of_mem hrest)]
          exact List.Subset.trans (List.subset_cons_self _ _) (List.subset_append_right _ _)
        obtain ⟨hkey, hvalue⟩ := ih hrest
        exact ⟨List.Subset.trans hkey hothers, List.Subset.trans hvalue hothers⟩

/-- The words of a child are among those of the node, but the first can begin the node as well. -/
theorem words_under {node child : Node} (h : child ∈ node.children) :
    ∀ word ∈ child.words, ∃ other ∈ node.words, word.Under other := by
  have hsubset (hwords : child.words ⊆ node.words) :
      ∀ word ∈ child.words, ∃ other ∈ node.words, word.Under other :=
    fun word hword => ⟨word, hwords hword, rfl, List.Subset.refl _⟩
  cases node with
  | missing | text | flag | ident | int | string | bool => cases h
  | exprStmt token expression =>
      obtain rfl := List.mem_singleton.mp h
      intro word hword
      rw [Node.words]
      cases hwords : child.words with
      | nil =>
          rw [hwords] at hword
          cases hword
      | cons first rest =>
          rw [hwords] at hword
          rcases List.mem_cons.mp hword with rfl | hrest
          · exact ⟨_, List.mem_cons_self, rfl, List.subset_cons_self _ _⟩
          · exact ⟨word, List.mem_cons_of_mem _ hrest, rfl, List.Subset.refl _⟩
  | program statements =>
      apply hsubset
      rw [Node.words]
      exact words_subset_all h
  | block token statements =>
      refine hsubset fun word hword => ?_
      have hmem : word ∈ wordsOfAll statements := words_subset_all h hword
      simp [Node.words, hmem]
  | array token elements =>
      refine hsubset fun word hword => ?_
      have hmem : word ∈ wordsOfList elements := words_subset_list h hword
      simp [Node.words, hmem]
  | hash token pairs =>
      refine hsubset fun word hword => ?_
      obtain ⟨pair, hpair, hchild⟩ := List.mem_flatMap.mp h
      obtain ⟨hkey, hvalue⟩ := words_subset_pairs hpair
      have hmem : word ∈ wordsOfPairs pairs := by
        simp only [List.mem_cons, List.not_mem_nil, or_false] at hchild
        rcases hchild with rfl | rfl
        · exact hkey hword
        · exact hvalue hword
      simp [Node.words, hmem]
  | function token parameters body =>
      refine hsubset fun word hword => ?_
      rcases List.mem_append.mp h with hparameter | hbody
      · simp [Node.words, words_subset_list hparameter hword]
      · rw [List.mem_singleton.mp hbody] at hword
        simp [Node.words, hword]
  | call token callee arguments =>
      refine hsubset fun word hword => ?_
      rcases List.mem_cons.mp h with rfl | hargument
      · simp [Node.words, hword]
      · simp [Node.words, words_subset_list hargument hword]
  | ifElse token condition consequence alternative =>
      refine hsubset fun word hword => ?_
      simp only [Node.children, List.mem_cons, List.not_mem_nil, or_false] at h
      rw [words_ifElse]
      rcases h with rfl | rfl | rfl
      · simp [hword]
      · simp [hword]
      · cases child <;> simp_all [Node.elseWords, Node.words]
  | returnStmt | letStmt | prefixOp | infixOp | index =>
      refine hsubset fun word hword => ?_
      simp only [Node.children, List.mem_cons, List.not_mem_nil, or_false] at h
      rcases h with rfl | rfl <;> simp [Node.words, hword]

/-- The node has no token of its own: it is a program, or what stands for a missing part. -/
def Node.isTokenless : Node → Bool
  | .missing | .program _ => true
  | _ => false

theorem words_ne_nil {node : Node} (h : node.isExpression = true) : node.words ≠ [] := by
  cases node with
  | ifElse token condition consequence alternative =>
      rw [words_ifElse]
      exact List.cons_ne_nil _ _
  | missing | text | flag | program | exprStmt | letStmt | returnStmt | block => cases h
  | _ => simp [Node.words]

theorem exists_introduces_self {tokens : List Token} {node : Node} (h : node.WellFormed tokens)
    (htoken : node.isTokenless = false) : ∃ word ∈ node.words, word.Introduces node := by
  cases node with
  | missing | program => cases htoken
  | text | flag => exact h.elim
  | exprStmt token expression =>
      obtain ⟨first, rest, hwords⟩ := List.exists_cons_of_ne_nil (words_ne_nil h.2)
      rw [Node.words, hwords]
      exact ⟨_, List.mem_cons_self, List.mem_cons_self⟩
  | ifElse token condition consequence alternative =>
      rw [words_ifElse]
      exact ⟨_, List.mem_cons_self, rfl⟩
  | _ => exact ⟨.head _, by simp [Node.words], rfl⟩

/-- Each part of a complete tree has a word among those of the tree. -/
theorem exists_introduces_part {tokens : List Token} {node part : Node}
    (h : node.Everywhere (Node.WellFormed tokens)) (hpart : part ∈ node.parts)
    (htoken : part.isTokenless = false) : ∃ word ∈ node.words, word.Introduces part := by
  induction hlength : node.parts.length using Nat.strongRecOn generalizing node with
  | _ bound ih =>
      obtain ⟨hself, hchildren⟩ := Node.everywhere_iff.mp h
      rw [node.parts_eq] at hpart
      rcases List.mem_cons.mp hpart with rfl | hpart
      · exact exists_introduces_self hself htoken
      · obtain ⟨child, hchild, hpart⟩ := List.mem_flatMap.mp hpart
        have hlt : child.parts.length < bound := hlength ▸ Node.length_parts_lt hchild
        obtain ⟨word, hword, hintroduces⟩ := ih _ hlt (hchildren child hchild) hpart rfl
        obtain ⟨other, hother, hunder⟩ := words_under hchild word hword
        exact ⟨other, hother, hintroduces.under hunder⟩

/-- The token of a node is the one that introduces it; that of an expression statement is the
one that leads its first word. -/
def Node.IntroducedBy (kept : Kept) : Node → Prop
  | .exprStmt token _ => token = some kept.lead
  | node => node.token? = some kept.token ∧ kept.token.Introduces node

theorem Word.Is.introducedBy {word : Word} {kept : Kept} {node : Node} (h : word.Is kept)
    (hintroduces : word.Introduces node) : node.IntroducedBy kept := by
  cases node with
  | exprStmt token expression => exact h.2 _ hintroduces
  | _ =>
      have hrole : word.role = .head _ := hintroduces
      have his := h.1
      rw [hrole] at his
      exact his

/-! ### What a run of tokens yields -/

/-- The words are those that the run leaves, and it leaves open the parentheses given. -/
structure Sieve.Yields (sieve : Sieve) (tokens : List Token) (words : List Word)
    (opened : List Bool) : Prop where
  words : List.Forall₂ Word.Is words (sieve.sift tokens)
  opened : (sieve.passAll tokens).opened = opened

/-- The first token kept is led by the first token of the run. -/
def Sieve.Leads (sieve : Sieve) (tokens : List Token) (first : Token) : Prop :=
  ∃ token others, sieve.sift tokens = ⟨sieve.lead.getD first, token⟩ :: others

namespace Sieve

variable {sieve : Sieve} {token first closer : Token} {tokens rest : List Token}
  {word : Word} {words others : List Word} {opened opened' : List Bool}

theorem yields_nil (sieve : Sieve) : sieve.Yields [] [] sieve.opened :=
  ⟨.nil, rfl⟩

theorem Yields.append (h : sieve.Yields tokens words opened)
    (hlast : ∀ last ∈ tokens.getLast?, last.kind ≠ .comma)
    (hrest : (sieve.passAll tokens).Yields rest others opened') :
    sieve.Yields (tokens ++ rest) (words ++ others) opened' where
  words := by
    rw [sieve.sift_append rest hlast]
    exact List.rel_append h.words hrest.words
  opened := by
    rw [passAll_append]
    exact hrest.opened

/-- A token that is kept. -/
theorem Yields.cons (hdrops : sieve.drops token rest.head? = false)
    (his : word.Is ⟨sieve.lead.getD token, token⟩)
    (hrest : (sieve.pass token).Yields rest words opened) :
    sieve.Yields (token :: rest) (word :: words) opened where
  words := by
    rw [sift, keep_of_not_drops hdrops]
    exact .cons his hrest.words
  opened := hrest.opened

/-- A token that is passed over. -/
theorem Yields.skip (hdrops : sieve.drops token rest.head? = true)
    (hrest : (sieve.pass token).Yields rest words opened) :
    sieve.Yields (token :: rest) words opened where
  words := by
    rw [sift, keep_of_drops hdrops]
    exact hrest.words
  opened := hrest.opened

/-- The kinds that are always kept. -/
def plain (kind : Kind) : Prop :=
  kind ≠ .semicolon ∧ kind ≠ .comma ∧ kind ≠ .lparen ∧ kind ≠ .rparen

instance (kind : Kind) : Decidable (plain kind) :=
  inferInstanceAs (Decidable (_ ∧ _))

theorem drops_of_plain (h : plain token.kind) (next : Option Token) :
    sieve.drops token next = false := by
  obtain ⟨hsemicolon, hcomma, hopen, hclose⟩ := h
  simp [drops]

theorem Yields.plain (hkind : plain token.kind) (his : word.Is ⟨sieve.lead.getD token, token⟩)
    (hrest : (sieve.pass token).Yields rest words opened) :
    sieve.Yields (token :: rest) (word :: words) opened :=
  .cons (drops_of_plain hkind _) his hrest

theorem opened_pass_plain (sieve : Sieve) (h : Sieve.plain token.kind) :
    (sieve.pass token).opened = sieve.opened :=
  opened_pass h.2.2.1 h.2.2.2

/-- A token that is always kept, and opens or closes no parenthesis. -/
theorem Yields.balanced (hkind : Sieve.plain token.kind)
    (his : word.Is ⟨sieve.lead.getD token, token⟩)
    (hrest : (sieve.pass token).Yields rest words (sieve.pass token).opened) :
    sieve.Yields (token :: rest) (word :: words) sieve.opened := by
  rw [opened_pass_plain sieve hkind] at hrest
  exact .plain hkind his hrest

theorem leads_plain (hkind : Sieve.plain token.kind) (rest : List Token) :
    sieve.Leads (token :: rest) token := by
  refine ⟨token, (sieve.pass token).sift rest, ?_⟩
  rw [sift, keep_of_not_drops (drops_of_plain hkind _)]
  rfl

theorem Leads.append (h : sieve.Leads tokens first)
    (hlast : ∀ last ∈ tokens.getLast?, last.kind ≠ .comma) (rest : List Token) :
    sieve.Leads (tokens ++ rest) first := by
  obtain ⟨token, others, hsift⟩ := h
  refine ⟨token, others ++ (sieve.passAll tokens).sift rest, ?_⟩
  rw [sieve.sift_append rest hlast, hsift]
  rfl

end Sieve

end Monkey
