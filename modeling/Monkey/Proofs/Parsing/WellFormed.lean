/-
What parsing without errors promises.  The tree is complete: nothing is missing in it but the
alternative of an if without else, and every part is what its place asks for and keeps a token of
the text.  The other way round, a part that could not be read is missing from the tree only where
a diagnostic says so.
-/
import Monkey.Proofs.Parsing.Integers
import Monkey.Proofs.Rendering.Parts

namespace Monkey

/-! ### Complete trees -/

def Node.isExpression : Node → Bool
  | .ident .. | .int .. | .string .. | .bool .. | .prefixOp .. | .infixOp .. | .ifElse ..
  | .function .. | .call .. | .array .. | .index .. | .hash .. => true
  | _ => false

def Node.isStatement : Node → Bool
  | .exprStmt .. | .letStmt .. | .returnStmt .. => true
  | _ => false

def Node.isBlock : Node → Bool
  | .block .. => true
  | _ => false

def Node.isIf : Node → Bool
  | .ifElse .. => true
  | _ => false

def Node.isName : Node → Bool
  | .ident .. => true
  | _ => false

/-- The token is there, and is one of the text. -/
def Keeps (tokens : List Token) (token : Option Token) : Prop :=
  ∃ found ∈ tokens, token = some found

/-- A run of letters and underscores that is no keyword. -/
def IsName (name : String) : Prop :=
  name.toList ≠ [] ∧ (∀ c ∈ name.toList, isLetter c = true) ∧ keywords.lookup name = none

def prefixOperators : List String :=
  ["-", "!"]

def infixOperators : List String :=
  ["||", "&&", "==", "!=", "<", ">", "+", "-", "*", "/", "^"]

/-- A part of a complete tree keeps a token of the text and has all its children, each of the sort
that belongs there.  Only the alternative of an if can be missing; what stands for it is no part
that asks for anything. -/
def Node.WellFormed (tokens : List Token) : Node → Prop
  | .missing => True
  | .text _ | .flag _ => False
  | .program statements => ∀ statement ∈ statements, statement.isStatement = true
  | .exprStmt token expression => Keeps tokens token ∧ expression.isExpression = true
  | .letStmt token name value =>
      Keeps tokens token ∧ name.isName = true ∧ value.isExpression = true
  | .returnStmt token value => Keeps tokens token ∧ value.isExpression = true
  | .block token statements =>
      Keeps tokens token ∧ ∀ statement ∈ statements, statement.isStatement = true
  | .ident token name => Keeps tokens token ∧ IsName name
  | .int token value =>
      (∃ found ∈ tokens, token = some found ∧ value = decimalValue found.literal) ∧
        0 ≤ value ∧ value ≤ maxInteger
  | .string token value => Keeps tokens token ∧ '"' ∉ value.toList
  | .bool token _ => Keeps tokens token
  | .prefixOp token operator right =>
      Keeps tokens token ∧ operator ∈ prefixOperators ∧ right.isExpression = true
  | .infixOp token left operator right =>
      Keeps tokens token ∧ operator ∈ infixOperators ∧
        left.isExpression = true ∧ right.isExpression = true
  | .ifElse token condition consequence alternative =>
      Keeps tokens token ∧ condition.isExpression = true ∧ consequence.isBlock = true ∧
        (alternative = .missing ∨ alternative.isBlock = true ∨ alternative.isIf = true)
  | .function token parameters body =>
      Keeps tokens token ∧ (∀ parameter ∈ parameters, parameter.isName = true) ∧
        body.isBlock = true
  | .call token callee arguments =>
      Keeps tokens token ∧ callee.isExpression = true ∧
        ∀ argument ∈ arguments, argument.isExpression = true
  | .array token elements =>
      Keeps tokens token ∧ ∀ element ∈ elements, element.isExpression = true
  | .index token left position =>
      Keeps tokens token ∧ left.isExpression = true ∧ position.isExpression = true
  | .hash token pairs =>
      Keeps tokens token ∧
        ∀ pair ∈ pairs, pair.1.isExpression = true ∧ pair.2.isExpression = true

/-- The node is of a sort, and complete. -/
def Node.Whole (tokens : List Token) (sort : Node → Bool) (node : Node) : Prop :=
  sort node = true ∧ node.Everywhere (Node.WellFormed tokens)

theorem Node.whole_iff {tokens : List Token} {sort : Node → Bool} {node : Node} :
    node.Whole tokens sort ↔ sort node = true ∧ node.WellFormed tokens ∧
      ∀ child ∈ node.children, child.Everywhere (Node.WellFormed tokens) := by
  rw [Node.Whole, Node.everywhere_iff]

theorem everywhere_missing {tokens : List Token} :
    Node.missing.Everywhere (Node.WellFormed tokens) := by
  simp [Node.Everywhere, Node.parts, Node.WellFormed]

theorem Node.isExpression_of_isIf {node : Node} (h : node.isIf = true) :
    node.isExpression = true := by
  cases node <;> first | rfl | cases h

/-! ### What tokens promise -/

theorem isName_of_spells {name : String} (h : Kind.ident.Spells name) : IsName name := by
  obtain ⟨hne, hletters, hword⟩ := h
  refine ⟨hne, hletters, ?_⟩
  cases hlookup : keywords.lookup name with
  | none => rfl
  | some kind =>
      rw [Kind.ofWord, hlookup, Option.getD_some] at hword
      subst hword
      obtain ⟨front, rest, hkeywords, _⟩ := List.lookup_eq_some_iff.mp hlookup
      have hmem : Kind.ident ∈ keywords.map Prod.snd := by simp [hkeywords]
      exact absurd hmem (by decide)

theorem prefixOperator_of_spells {token : Token} (hkind : token.kind = .minus ∨ token.kind = .bang)
    (h : token.kind.Spells token.literal) : token.literal ∈ prefixOperators := by
  rcases hkind with hkind | hkind
  · rw [hkind] at h
    obtain hliteral := Option.some.inj h
    simp [prefixOperators, ← hliteral]
  · rw [hkind] at h
    obtain hliteral := Option.some.inj h
    simp [prefixOperators, ← hliteral]

theorem infixOperator_of_spells {kind : Kind} {literal : String} {power : Int} {right : Bool}
    (hrule : Grammar.standard.infixRule? kind = some (.operator power right))
    (h : kind.Spells literal) : literal ∈ infixOperators := by
  cases kind <;> simp [Grammar.standard] at hrule <;>
    (obtain rfl := Option.some.inj h; decide)

theorem int_of_spells {token : Token} {value : Int} (hkind : token.kind = .int)
    (h : token.kind.Spells token.literal) (hread : readInt token.literal = .ok value) :
    value = decimalValue token.literal := by
  rw [Token.readInt_eq h hkind] at hread
  split at hread
  · cases hread
  · cases hread
    rfl

/-! ### Reading complete parts -/

/-- What reading a phrase without a mistake makes. -/
def Phrase.Completes (tokens : List Token) : Phrase → Prop
  | .expression _ node | .opening _ node => node.Whole tokens Node.isExpression
  | .extension _ left node =>
      left.Whole tokens Node.isExpression → node.Whole tokens Node.isExpression
  | .conditional node => node.Whole tokens Node.isIf
  | .otherwise token condition consequence node =>
      token ∈ tokens → condition.Whole tokens Node.isExpression →
        consequence.Whole tokens Node.isBlock → node.Whole tokens Node.isIf
  | .list _ found | .elements _ found =>
      ∀ nodes, found = some nodes → ∀ node ∈ nodes, node.Whole tokens Node.isExpression
  | .pairs found =>
      ∀ pairs, found = some pairs → ∀ pair ∈ pairs,
        pair.1.Whole tokens Node.isExpression ∧ pair.2.Whole tokens Node.isExpression
  | .block node => node.Whole tokens Node.isBlock
  | .body statements => ∀ statement ∈ statements, statement.Whole tokens Node.isStatement
  | .sentence found | .statement found =>
      ∀ statement, found = some statement → statement.Whole tokens Node.isStatement

theorem whole_name {tokens : List Token} {token : Token} (hmem : token ∈ tokens)
    (hkind : token.kind = .ident) (hspells : token.kind.Spells token.literal) :
    (Node.ident (some token) token.literal).Whole tokens Node.isName := by
  rw [hkind] at hspells
  exact Node.whole_iff.mpr ⟨rfl, ⟨⟨token, hmem, rfl⟩, isName_of_spells hspells⟩, nofun⟩

theorem whole_ifElse {tokens : List Token} {token : Token}
    {condition consequence alternative : Node} (hmem : token ∈ tokens)
    (hcondition : condition.Whole tokens Node.isExpression)
    (hconsequence : consequence.Whole tokens Node.isBlock)
    (hsort : alternative = .missing ∨ alternative.isBlock = true ∨ alternative.isIf = true)
    (halternative : alternative.Everywhere (Node.WellFormed tokens)) :
    (Node.ifElse (some token) condition consequence alternative).Whole tokens Node.isIf := by
  refine Node.whole_iff.mpr ⟨rfl, ⟨⟨token, hmem, rfl⟩, hcondition.1, hconsequence.1, hsort⟩, ?_⟩
  intro child hchild
  simp only [Node.children, List.mem_cons, List.not_mem_nil, or_false] at hchild
  rcases hchild with rfl | rfl | rfl
  · exact hcondition.2
  · exact hconsequence.2
  · exact halternative

theorem Parameters.whole {names : List Node} {tokens all : List Token}
    (h : Parameters names tokens)
    (hall : ∀ token ∈ tokens, token ∈ all ∧ token.kind.Spells token.literal) :
    ∀ name ∈ names, name.Whole all Node.isName := by
  induction h with
  | none _ => simp
  | @last token _ hname _ =>
      intro name hmem
      rw [List.mem_singleton.mp hmem]
      obtain ⟨hin, hspells⟩ := hall token (by simp)
      exact whole_name hin hname hspells
  | @more token _ _ _ hname _ _ _ ih =>
      intro name hmem
      rcases List.mem_cons.mp hmem with rfl | hmem
      · obtain ⟨hin, hspells⟩ := hall token (by simp)
        exact whole_name hin hname hspells
      · exact ih (fun token htoken => hall token (by simp [htoken])) name hmem

theorem whole_toList {tokens : List Token} {statement : Option Node} {statements : List Node}
    (h : ∀ node, statement = some node → node.Whole tokens Node.isStatement)
    (hrest : ∀ node ∈ statements, node.Whole tokens Node.isStatement) :
    ∀ node ∈ statement.toList ++ statements, node.Whole tokens Node.isStatement := by
  intro node hmem
  rcases List.mem_append.mp hmem with hmem | hmem
  · exact h node (Option.mem_toList.mp hmem)
  · exact hrest node hmem

/-- Reading well-spelled tokens without a mistake makes a complete tree that keeps them. -/
theorem Derives.completes {phrase : Phrase} {tokens all : List Token} {next : Token}
    (h : Derives phrase tokens next)
    (hall : ∀ token ∈ tokens, token ∈ all ∧ token.kind.Spells token.literal) :
    phrase.Completes all := by
  induction h with
  | @integer token _ value hkind hread _ hmax =>
      obtain ⟨hin, hspells⟩ := hall token (by simp)
      have hvalue := int_of_spells hkind hspells hread
      refine Node.whole_iff.mpr ⟨rfl, ⟨⟨token, hin, rfl, hvalue⟩, ?_, hmax⟩, nofun⟩
      rw [hvalue]
      exact Int.natCast_nonneg _
  | @string token _ hkind =>
      obtain ⟨hin, hspells⟩ := hall token (by simp)
      rw [hkind] at hspells
      exact Node.whole_iff.mpr ⟨rfl, ⟨⟨token, hin, rfl⟩, hspells⟩, nofun⟩
  | @boolean token _ _ =>
      exact Node.whole_iff.mpr ⟨rfl, ⟨token, (hall token (by simp)).1, rfl⟩, nofun⟩
  | @identifier token _ hkind =>
      obtain ⟨hin, hspells⟩ := hall token (by simp)
      exact ⟨rfl, (whole_name hin hkind hspells).2⟩
  | @sign token _ right _ hkind _ ih =>
      obtain ⟨hin, hspells⟩ := hall token (by simp)
      obtain ⟨hsort, hright⟩ := ih fun t ht => hall t (by simp [ht])
      refine Node.whole_iff.mpr ⟨rfl, ⟨⟨token, hin, rfl⟩, ?_, hsort⟩, ?_⟩
      · exact prefixOperator_of_spells hkind hspells
      · exact List.forall_mem_singleton.mpr hright
  | grouped _ _ _ ih => exact ih fun t ht => hall t (by simp [ht])
  | conditional _ ih =>
      obtain ⟨hsort, hnode⟩ := ih hall
      exact ⟨Node.isExpression_of_isIf hsort, hnode⟩
  | @function token _ _ names body _ _ _ _ hnames _ ih =>
      obtain ⟨hsort, hbody⟩ := ih fun t ht => hall t (by simp [ht])
      have hwhole := hnames.whole fun t ht => hall t (by simp [ht])
      have hin := (hall token (by simp)).1
      refine Node.whole_iff.mpr
        ⟨rfl, ⟨⟨token, hin, rfl⟩, fun name hname => (hwhole name hname).1, hsort⟩, ?_⟩
      intro child hchild
      rcases List.mem_append.mp hchild with hchild | hchild
      · exact (hwhole child hchild).2
      · rwa [List.mem_singleton.mp hchild]
  | @array token _ _ _ _ _ ih =>
      have helements := ih (fun t ht => hall t (by simp [ht])) _ rfl
      have hin := (hall token (by simp)).1
      refine Node.whole_iff.mpr ⟨rfl, ⟨⟨token, hin, rfl⟩, ?_⟩, ?_⟩
      · exact fun node hnode => (helements node hnode).1
      · exact fun node hnode => (helements node hnode).2
  | @hash token _ pairs _ _ _ ih =>
      have hpairs := ih (fun t ht => hall t (by simp [ht])) _ rfl
      have hin := (hall token (by simp)).1
      refine Node.whole_iff.mpr ⟨rfl, ⟨⟨token, hin, rfl⟩, fun pair hpair => ?_⟩, ?_⟩
      · exact ⟨(hpairs pair hpair).1.1, (hpairs pair hpair).2.1⟩
      · intro child hchild
        obtain ⟨⟨key, value⟩, hpair, hchild⟩ := List.mem_flatMap.mp hchild
        obtain ⟨hkey, hvalue⟩ := hpairs _ hpair
        obtain rfl | rfl : child = key ∨ child = value := by simpa using hchild
        · exact hkey.2
        · exact hvalue.2
  | expression _ _ ih ih' =>
      exact ih' (fun t ht => hall t (by simp [ht])) (ih fun t ht => hall t (by grind))
  | stop _ => exact id
  | @infixOp _ _ _ left operand _ _ operator _ _ _ _ hrule _ _ _ ih ih' =>
      intro hleft
      apply ih' (fun t ht => hall t (by simp [ht]))
      obtain ⟨hin, hspells⟩ := hall operator (by simp)
      obtain ⟨hsort, hoperand⟩ : operand.Whole all Node.isExpression :=
        ih fun t ht => hall t (by grind)
      refine Node.whole_iff.mpr ⟨rfl, ⟨⟨operator, hin, rfl⟩, ?_, hleft.1, hsort⟩, ?_⟩
      · exact infixOperator_of_spells (Token.infixRule?_of_continues? hrule).1 hspells
      · exact List.forall_mem_cons.mpr ⟨hleft.2, List.forall_mem_singleton.mpr hoperand⟩
  | @call _ _ _ arguments _ opener _ _ _ _ _ _ _ _ ih ih' =>
      intro hleft
      apply ih' (fun t ht => hall t (by simp [ht]))
      have harguments := ih (fun t ht => hall t (by grind)) _ rfl
      have hin := (hall opener (by simp)).1
      refine Node.whole_iff.mpr
        ⟨rfl, ⟨⟨opener, hin, rfl⟩, hleft.1, fun node hnode => (harguments node hnode).1⟩, ?_⟩
      exact List.forall_mem_cons.mpr ⟨hleft.2, fun node hnode => (harguments node hnode).2⟩
  | @index _ _ _ _ _ opener _ _ _ _ _ _ _ _ _ ih ih' =>
      intro hleft
      apply ih' (fun t ht => hall t (by simp [ht]))
      obtain ⟨hsort, hposition⟩ := ih fun t ht => hall t (by simp [ht])
      have hin := (hall opener (by simp)).1
      refine Node.whole_iff.mpr ⟨rfl, ⟨⟨opener, hin, rfl⟩, hleft.1, hsort⟩, ?_⟩
      exact List.forall_mem_cons.mpr ⟨hleft.2, List.forall_mem_singleton.mpr hposition⟩
  | ifElse _ _ _ _ _ _ ih ih' ih'' =>
      exact ih'' (fun t ht => hall t (by simp [ht])) (hall _ (by simp)).1
        (ih fun t ht => hall t (by simp [ht])) (ih' fun t ht => hall t (by grind))
  | @noElse token _ _ _ _ _ =>
      intro hin hcondition hconsequence
      exact whole_ifElse hin hcondition hconsequence (Or.inl rfl) everywhere_missing
  | @elseBlock token _ _ _ _ _ _ _ _ _ ih =>
      intro hin hcondition hconsequence
      obtain ⟨hsort, halternative⟩ := ih fun t ht => hall t (by simp [ht])
      exact whole_ifElse hin hcondition hconsequence (Or.inr (Or.inl hsort)) halternative
  | @elseIf token _ _ _ _ _ _ _ _ _ ih =>
      intro hin hcondition hconsequence
      obtain ⟨hsort, halternative⟩ := ih fun t ht => hall t (by simp [ht])
      exact whole_ifElse hin hcondition hconsequence (Or.inr (Or.inr hsort)) halternative
  | emptyList _ =>
      rintro nodes ⟨⟩
      simp
  | list _ ih => exact ih hall
  | lastElement _ _ ih =>
      rintro nodes ⟨⟩
      exact List.forall_mem_singleton.mpr (ih fun t ht => hall t (by simp [ht]))
  | moreElements _ _ _ ih ih' =>
      rintro nodes ⟨⟩
      exact List.forall_mem_cons.mpr ⟨ih fun t ht => hall t (by simp [ht]),
        ih' (fun t ht => hall t (by simp [ht])) _ rfl⟩
  | emptyPairs _ =>
      rintro pairs ⟨⟩
      simp
  | lastPair _ _ _ _ ih ih' =>
      rintro pairs ⟨⟩
      exact List.forall_mem_singleton.mpr ⟨ih fun t ht => hall t (by simp [ht]),
        ih' fun t ht => hall t (by simp [ht])⟩
  | morePairs _ _ _ _ _ ih ih' ih'' =>
      rintro pairs ⟨⟩
      exact List.forall_mem_cons.mpr ⟨⟨ih fun t ht => hall t (by simp [ht]),
        ih' fun t ht => hall t (by simp [ht])⟩,
        ih'' (fun t ht => hall t (by simp [ht])) _ rfl⟩
  | @block opener _ _ _ _ _ ih =>
      have hstatements := ih fun t ht => hall t (by simp [ht])
      have hin := (hall opener (by simp)).1
      refine Node.whole_iff.mpr ⟨rfl, ⟨⟨opener, hin, rfl⟩, ?_⟩, ?_⟩
      · exact fun node hnode => (hstatements node hnode).1
      · exact fun node hnode => (hstatements node hnode).2
  | emptyBody _ => exact fun _ hmem => (List.not_mem_nil hmem).elim
  | body _ _ ih ih' =>
      refine whole_toList (ih fun t ht => hall t (by simp [ht])) ?_
      exact ih' fun t ht => hall t (List.mem_append_right _ ht)
  | @letSentence token name _ _ _ _ _ hname _ _ ih =>
      rintro statement ⟨⟩
      obtain ⟨hsort, hvalue⟩ := ih fun t ht => hall t (by simp [ht])
      obtain ⟨hin, hspells⟩ := hall name (by simp)
      have hin' := (hall token (by simp)).1
      refine Node.whole_iff.mpr ⟨rfl, ⟨⟨token, hin', rfl⟩, rfl, hsort⟩, ?_⟩
      exact List.forall_mem_cons.mpr
        ⟨(whole_name hin hname hspells).2, List.forall_mem_singleton.mpr hvalue⟩
  | @returnSentence token _ _ _ _ _ ih =>
      rintro statement ⟨⟩
      obtain ⟨hsort, hvalue⟩ := ih fun t ht => hall t (by simp [ht])
      have hin := (hall token (by simp)).1
      exact Node.whole_iff.mpr
        ⟨rfl, ⟨⟨token, hin, rfl⟩, hsort⟩, List.forall_mem_singleton.mpr hvalue⟩
  | @exprSentence first _ _ _ _ ih =>
      rintro statement ⟨⟩
      obtain ⟨hsort, hvalue⟩ := ih hall
      have hin := (hall first (by simp)).1
      exact Node.whole_iff.mpr
        ⟨rfl, ⟨⟨first, hin, rfl⟩, hsort⟩, List.forall_mem_singleton.mpr hvalue⟩
  | stray _ =>
      rintro statement ⟨⟩
  | bare _ _ ih => exact ih hall
  | ended _ _ ih => exact ih fun t ht => hall t (by simp [ht])

theorem DerivesAll.whole {statements : List Node} {tokens all : List Token} {next : Token}
    (h : DerivesAll statements tokens next)
    (hall : ∀ token ∈ tokens, token ∈ all ∧ token.kind.Spells token.literal) :
    ∀ statement ∈ statements, statement.Whole all Node.isStatement := by
  induction h with
  | nil => simp
  | cons hstatement _ ih =>
      refine whole_toList (hstatement.completes fun t ht => ?_) (ih fun t ht => ?_)
      · exact hall t (List.mem_append_left _ ht)
      · exact hall t (List.mem_append_right _ ht)

/-- The tree of a program that parses without errors is complete. -/
theorem Parses.complete {source : String} {program : Node} (h : Parses source program) :
    ∃ statements, program = .program statements ∧
      program.Everywhere (Node.WellFormed (tokenize source).tokens) := by
  obtain ⟨statements, rfl, hderives⟩ := parses_iff.mp h
  have hwhole := hderives.whole fun _ htoken => ⟨htoken, spells_of_mem_tokenize htoken⟩
  refine ⟨statements, rfl, Node.everywhere_iff.mpr ⟨?_, ?_⟩⟩
  · exact fun statement hstatement => (hwhole statement hstatement).1
  · exact fun statement hstatement => (hwhole statement hstatement).2

/-! ### What is missing is reported -/

/-- What is to be read at a token is there.  At a semicolon no statement is to be read. -/
def Phrase.Found (token : Token) : Phrase → Prop
  | .expression _ node | .opening _ node | .conditional node | .otherwise _ _ _ node
  | .block node => node ≠ .missing
  | .extension _ left node => left ≠ .missing → node ≠ .missing
  | .list _ found | .elements _ found => found ≠ none
  | .pairs found => found ≠ none
  | .body _ => True
  | .sentence found | .statement found => found = none → token.kind = .semicolon

/-- The grammar leaves nothing out. -/
theorem Derives.found {phrase : Phrase} {tokens : List Token} {next : Token}
    (h : Derives phrase tokens next) :
    ∀ token ∈ tokens.head?, phrase.Found token := by
  induction h with
  | grouped _ _ hinner ih =>
      obtain ⟨first, rest, rfl⟩ := List.exists_cons_of_ne_nil hinner.ne_nil
      exact fun _ _ => ih first rfl
  | conditional _ ih => exact ih
  | @expression _ _ _ _ last _ first _ hopening _ ih ih' =>
      obtain ⟨head, rest, hhead⟩ := List.exists_cons_of_ne_nil hopening.ne_nil
      exact fun _ _ => ih' last rfl (ih head (by rw [hhead]; rfl))
  | _ => simp_all [Phrase.Found]

namespace Parser

/-- Some diagnostics were added between two parsers. -/
def Reports (parser after : Parser) : Prop :=
  ∃ added, added ≠ [] ∧ after.found = added ++ parser.found

theorem Before.reports {parser after : Parser} (h : parser.Before after)
    (hquiet : ¬ parser.Quiet after) : parser.Reports after := by
  obtain ⟨added, hadded⟩ := h.found
  refine ⟨added, ?_, hadded.symm⟩
  rintro rfl
  exact hquiet hadded.symm

theorem reports_of_reads {parser after : Parser} {phrase : Phrase}
    (hgrammar : parser.grammar = .standard) (hfits : parser.Fits phrase)
    (hreads : parser.Reads phrase after) (hmissing : ¬ phrase.Found parser.current) :
    parser.Reports after := by
  apply (before_of_reads phrase hreads).reports
  intro hquiet
  have hends : after.Ends phrase := by
    cases phrase with
    | body => exact absurd trivial hmissing
    | _ => trivial
  obtain ⟨tokens, hpasses, hderives⟩ := sound parser phrase after hreads hgrammar hfits hends hquiet
  obtain ⟨rest, rfl⟩ := hpasses.exists_head
  exact hmissing (hderives.found parser.current rfl)

/-- A continuation that could not be read is reported, also where what it goes on from is
missing. -/
theorem reports_of_readInfix {parser after : Parser} {rule : InfixRule} {left : Node}
    (hgrammar : parser.grammar = .standard) (hleft : parser.left ≠ 0)
    (hreads : (parser.readInfix rule left).Gives .missing after) : parser.Reports after := by
  apply (before_readInfix (forwardBelow _) hleft hreads).reports
  cases rule with
  | operator power right =>
      obtain ⟨_, _, _, hnode, _⟩ := (gives_readInfix_operator hleft).mp hreads
      cases hnode
  | call =>
      obtain ⟨arguments, mid, harguments, hnode, rfl⟩ := (gives_readInfix_call hleft).mp hreads
      cases arguments with
      | some _ => cases hnode
      | none =>
          obtain ⟨added, hne, hfound⟩ := @reports_of_reads parser.next mid (.list .rparen none)
            hgrammar (Or.inl rfl) harguments (absurd rfl)
          intro hquiet
          exact hne (List.append_left_eq_self.mp (hfound.symm.trans hquiet))
  | index =>
      obtain ⟨position, mid, hposition, ⟨_, hnode, _⟩ | ⟨_, _, rfl⟩⟩ :=
        (gives_readInfix_index hleft).mp hreads
      · cases hnode
      · exact not_quiet_report
          ((before_next _).trans (before_of_reads (.expression _ position) hposition)) _ _

theorem reports_of_readParameters {parser after : Parser}
    (h : parser.readParameters = (none, after)) : parser.Reports after := by
  have hbefore := before_readParameters parser
  rw [h] at hbefore
  exact hbefore.reports (not_quiet_readParameters h)

end Parser

/-- A tree that is read without a diagnostic is complete, and what cannot be read is reported,
wherever the parser stands. -/
theorem complete_or_reported (source : String) :
    (∀ program, Parses source program → (∃ statements, program = .program statements) ∧
        program.Everywhere (Node.WellFormed (tokenize source).tokens)) ∧
      ∀ parser after : Parser, parser.grammar = .standard →
        (∀ phrase, parser.Fits phrase → parser.Reads phrase after →
          ¬ phrase.Found parser.current → parser.Reports after) ∧
        (∀ rule left, parser.left ≠ 0 → (parser.readInfix rule left).Gives .missing after →
          parser.Reports after) ∧
        (parser.readParameters = (none, after) → parser.Reports after) := by
  refine ⟨fun program hparses => ?_, fun parser after hgrammar => ⟨?_, ?_, ?_⟩⟩
  · obtain ⟨statements, rfl, hwhole⟩ := hparses.complete
    exact ⟨⟨statements, rfl⟩, hwhole⟩
  · exact fun phrase hfits hreads => Parser.reports_of_reads hgrammar hfits hreads
  · exact fun rule left hleft hreads => Parser.reports_of_readInfix hgrammar hleft hreads
  · exact fun hnames => Parser.reports_of_readParameters hnames

open Reading in
theorem gives_missing {bound : Nat} {reading : Reading bound Node}
    (h : (match reading.toExcept with | .ok .missing => true | _ => false) = true) :
    reading.Gives .missing reading.after := by
  apply gives_of_toExcept
  split at h
  · assumption
  · cases h

/-- An if in a let statement is read whole; an if without a brace, a call without a closing
parenthesis and parameters without one are reported. -/
theorem letIf_complete_or_reported :
    (∃ program, Parses "let x = if (a) { b }" program ∧
        (∃ statements, program = .program statements) ∧
        program.Everywhere (Node.WellFormed (tokenize "let x = if (a) { b }").tokens)) ∧
      (Parser.ofSource "if (a) b").Reports (Parser.ofSource "if (a) b").readIf.after ∧
      (Parser.ofSource "(a b").Reports ((Parser.ofSource "(a b").readInfix .call .missing).after ∧
      (Parser.ofSource "(a, 1)").Reports (Parser.ofSource "(a, 1)").readParameters.2 := by
  obtain ⟨program, hparses, _⟩ : ∃ program, Parses "let x = if (a) { b }" program ∧ true = true :=
    exists_parses (by decide +kernel) (by decide +kernel)
  have hkind : (Parser.ofSource "if (a) b").current.kind = .ifWord := by decide +kernel
  have hif : (Parser.ofSource "if (a) b").readIf.Gives .missing _ :=
    gives_missing (by decide +kernel)
  have hcall : ((Parser.ofSource "(a b").readInfix .call .missing).Gives .missing _ :=
    gives_missing (by decide +kernel)
  have hnames : (Parser.ofSource "(a, 1)").readParameters.1.isNone = true := by decide +kernel
  obtain ⟨hcomplete, _⟩ := complete_or_reported "let x = if (a) { b }"
  obtain ⟨_, hreported⟩ := complete_or_reported "if (a) b"
  refine ⟨⟨program, hparses, hcomplete program hparses⟩, ?_, ?_, ?_⟩
  · exact (hreported _ _ rfl).1 (.conditional .missing) hkind hif (absurd rfl)
  · exact (hreported _ _ rfl).2.1 .call .missing (by decide +kernel) hcall
  · exact (hreported _ _ rfl).2.2 (Prod.ext (Option.isNone_iff_eq_none.mp hnames) rfl)

end Monkey
