/-
Chains of operands with operators between them, and the tree that a chain stands for.  The tree is
given without regard to the parser: a chain splits at an operator of the lowest level in it, at
the first such operator if its level groups to the right and at the last one otherwise, and both
sides split on.
-/
import Monkey.Proofs.Lexing.Digits
import Monkey.Proofs.Parsing.Following

namespace Monkey

/-! ### Operators -/

/-- The operators of the language by level, the ones that bind least first. -/
def Kind.levels : List (List Kind) :=
  [[.eq, .notEq], [.or], [.and], [.lt, .gt], [.plus, .minus], [.asterisk, .slash], [.caret]]

def Kind.operators : List Kind :=
  Kind.levels.flatten

def Kind.level (kind : Kind) : Nat :=
  Kind.levels.findIdx (·.contains kind)

/-- A run of operators of the level groups from the right. -/
def Kind.groupsRight (kind : Kind) : Bool :=
  [Kind.or, Kind.and, Kind.caret].contains kind

/-! ### Operands -/

/-- Expressions without mistakes, separated by commas. -/
inductive Arguments : List Token → List Node → Prop where
  | none : Arguments [] []
  | last {tokens : List Token} {node : Node} (hnode : ReadsAlone tokens node) :
      Arguments tokens [node]
  | more {tokens rest : List Token} {comma : Token} {node : Node} {nodes : List Node}
      (hnode : ReadsAlone tokens node) (hcomma : comma.kind = .comma) (hne : nodes ≠ [])
      (hrest : Arguments rest nodes) : Arguments (tokens ++ comma :: rest) (node :: nodes)

/-- A simple expression with the calls and indexes that apply to it, each of which opens on the
line of the token before it. -/
inductive Applied : List Token → Node → Prop where
  | name {token : Token} (hkind : token.kind = .ident) :
      Applied [token] (.ident (some token) token.literal)
  | integer {token : Token} (hkind : token.kind = .int)
      (hmax : (decimalValue token.literal : Int) ≤ maxInteger) :
      Applied [token] (.int (some token) (decimalValue token.literal))
  | boolean {token : Token} (hkind : token.kind = .trueWord ∨ token.kind = .falseWord) :
      Applied [token] (.bool (some token) (token.kind == .trueWord))
  | string {token : Token} (hkind : token.kind = .string) :
      Applied [token] (.string (some token) token.literal)
  | grouped {opener closer : Token} {tokens : List Token} {node : Node}
      (hopen : opener.kind = .lparen) (hclose : closer.kind = .rparen)
      (hnode : ReadsAlone tokens node) : Applied (opener :: tokens ++ [closer]) node
  | call {front tokens : List Token} {last opener closer : Token} {callee : Node}
      {nodes : List Node} (hcallee : Applied (front ++ [last]) callee)
      (hopen : opener.kind = .lparen) (hline : opener.place.line = last.place.line)
      (hclose : closer.kind = .rparen) (harguments : Arguments tokens nodes) :
      Applied (front ++ last :: opener :: tokens ++ [closer]) (.call (some opener) callee nodes)
  | index {front tokens : List Token} {last opener closer : Token} {left position : Node}
      (hleft : Applied (front ++ [last]) left) (hopen : opener.kind = .lbracket)
      (hline : opener.place.line = last.place.line) (hclose : closer.kind = .rbracket)
      (hposition : ReadsAlone tokens position) :
      Applied (front ++ last :: opener :: tokens ++ [closer]) (.index (some opener) left position)

/-- An operand: signs, and what they apply to as a whole. -/
inductive Signed : List Token → Node → Prop where
  | applied {tokens : List Token} {node : Node} (h : Applied tokens node) : Signed tokens node
  | sign {token : Token} {tokens : List Token} {node : Node}
      (hkind : token.kind = .minus ∨ token.kind = .bang) (h : Signed tokens node) :
      Signed (token :: tokens) (.prefixOp (some token) token.literal node)

structure Operand where
  tokens : List Token
  node : Node
  signed : Signed tokens node

def Operand.name (token : Token) (hkind : token.kind = .ident) : Operand :=
  ⟨[token], .ident (some token) token.literal, .applied (.name hkind)⟩

def Operand.integer (token : Token) (hkind : token.kind = .int)
    (hmax : (decimalValue token.literal : Int) ≤ maxInteger) : Operand :=
  ⟨[token], .int (some token) (decimalValue token.literal), .applied (.integer hkind hmax)⟩

/-! ### Chains -/

/-- An operator and the operand after it. -/
structure Link where
  operator : Token
  isOperator : operator.kind ∈ Kind.operators
  operand : Operand

def Link.kind (link : Link) : Kind :=
  link.operator.kind

theorem Link.kind_mem (link : Link) : link.kind ∈ Kind.operators :=
  link.isOperator

theorem groupsRight_eq_of_level {kind kind' : Kind} (h : kind ∈ Kind.operators)
    (h' : kind' ∈ Kind.operators) (hlevel : kind.level = kind'.level) :
    kind.groupsRight = kind'.groupsRight := by
  have hall : ∀ kind ∈ Kind.operators, ∀ kind' ∈ Kind.operators, kind.level = kind'.level →
      kind.groupsRight = kind'.groupsRight := by decide
  exact hall kind h kind' h' hlevel

/-- A chain splits at the link rather than at a later one. -/
def Link.splitsBefore (link later : Link) : Prop :=
  link.kind.level < later.kind.level ∨
    link.kind.level = later.kind.level ∧ link.kind.groupsRight = true

instance (link later : Link) : Decidable (link.splitsBefore later) :=
  inferInstanceAs (Decidable (_ ∨ _))

/-- The link at which a chain splits, with the links before and after it. -/
def pivot : List Link → Option (List Link × Link × List Link)
  | [] => none
  | link :: rest =>
      match pivot rest with
      | none => some ([], link, [])
      | some (before, later, after) =>
          if link.splitsBefore later then some ([], link, rest)
          else some (link :: before, later, after)

theorem eq_nil_of_pivot {links : List Link} (h : pivot links = none) : links = [] := by
  cases links with
  | nil => rfl
  | cons first rest =>
      rw [pivot] at h
      split at h
      · cases h
      · split at h <;> cases h

theorem pivot_eq_append {links before after : List Link} {link : Link}
    (h : pivot links = some (before, link, after)) : links = before ++ link :: after := by
  induction links generalizing before with
  | nil => cases h
  | cons first rest ih =>
      rw [pivot] at h
      split at h
      · next hnone =>
          cases h
          rw [eq_nil_of_pivot hnone]
          rfl
      · next before' later after' hsome =>
          split at h
          · cases h
            rfl
          · cases h
            rw [ih hsome, List.cons_append]

theorem pivot_length {links before after : List Link} {link : Link}
    (h : pivot links = some (before, link, after)) :
    before.length < links.length ∧ after.length < links.length := by
  rw [pivot_eq_append h]
  simp
  omega

/-- Of two links, the chain splits at the first or rather at the second. -/
theorem splits_total {link later : Link} (h : ¬ link.splitsBefore later) :
    later.kind.level < link.kind.level ∨
      later.kind.level = link.kind.level ∧ later.kind.groupsRight = false := by
  unfold Link.splitsBefore at h
  rcases Nat.lt_trichotomy link.kind.level later.kind.level with hlt | heq | hgt
  · exact absurd (Or.inl hlt) h
  · right
    have hgroups := groupsRight_eq_of_level link.kind_mem later.kind_mem heq
    refine ⟨heq.symm, Bool.eq_false_iff.mpr fun hlater => h (Or.inr ⟨heq, ?_⟩)⟩
    exact hgroups.trans hlater
  · exact Or.inl hgt

/-- A chain splits at its lowest level: no link before it binds less, nor as little if the level
groups to the right, and no link after it binds less, nor as little otherwise. -/
theorem pivot_lowest {links before after : List Link} {link : Link}
    (h : pivot links = some (before, link, after)) :
    (∀ other ∈ before, link.kind.level < other.kind.level ∨
      link.kind.level = other.kind.level ∧ link.kind.groupsRight = false) ∧
      ∀ other ∈ after, link.splitsBefore other := by
  induction links generalizing before link after with
  | nil => cases h
  | cons first rest ih =>
      rw [pivot] at h
      split at h
      · cases h
        exact ⟨by simp, by simp⟩
      · next before' later after' hsome =>
          obtain ⟨hbefore, hafter⟩ := ih hsome
          split at h
          · next hsplits =>
              cases h
              refine ⟨by simp, fun other hother => ?_⟩
              have hgroups : first.kind.level = later.kind.level →
                  first.kind.groupsRight = later.kind.groupsRight :=
                groupsRight_eq_of_level first.kind_mem later.kind_mem
              rw [pivot_eq_append hsome] at hother
              unfold Link.splitsBefore at hsplits hafter ⊢
              rcases List.mem_append.mp hother with hother | hother
              · have hlater := hbefore other hother
                grind
              · rcases List.mem_cons.mp hother with rfl | hother
                · exact hsplits
                · have hlater := hafter other hother
                  grind
          · next hsplits =>
              cases h
              refine ⟨fun other hother => ?_, hafter⟩
              rcases List.mem_cons.mp hother with rfl | hother
              · exact splits_total hsplits
              · exact hbefore other hother

/-- The tree of a chain. -/
def splitTree (head : Operand) (links : List Link) : Node :=
  match _h : pivot links with
  | none => head.node
  | some (before, link, after) =>
      .infixOp (some link.operator) (splitTree head before) link.operator.literal
        (splitTree link.operand after)
termination_by links.length
decreasing_by
  · exact (pivot_length _h).1
  · exact (pivot_length _h).2

def chainTokens (head : Operand) (links : List Link) : List Token :=
  head.tokens ++ links.flatMap fun link => link.operator :: link.operand.tokens

theorem chainTokens_append (head : Operand) (before after : List Link) (link : Link) :
    chainTokens head (before ++ link :: after) =
      chainTokens head before ++ link.operator :: chainTokens link.operand after := by
  simp [chainTokens]

/-- An operand and any number of links after it. -/
structure Chain where
  head : Operand
  links : List Link

def Chain.tokens (chain : Chain) : List Token :=
  chainTokens chain.head chain.links

def Chain.tree (chain : Chain) : Node :=
  splitTree chain.head chain.links

/-- The program that consists of the chain only. -/
def Chain.program (chain : Chain) : Node :=
  .program [.exprStmt chain.tokens.head? chain.tree]

end Monkey
