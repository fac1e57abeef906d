/-
The parser finds everything the grammar allows: where the tokens that make up a phrase are
pending, it passes them, gives the value of the phrase and adds no diagnostic.  The induction is
over the derivation.
-/
import Monkey.Proofs.Parsing.Soundness

namespace Monkey

/-- A phrase as the parser reads it: above the lowest power, and up to a closing token. -/
def Phrase.Proper : Phrase → Prop
  | .expression power _ | .extension power _ _ => Power.lowest ≤ power
  | .list close _ | .elements close _ => close = .rparen ∨ close = .rbracket
  | _ => True

namespace Parser

open Reading

/-- Wherever the tokens are pending, the parser reads the phrase from them. -/
def Complete (phrase : Phrase) (tokens : List Token) (next : Token) : Prop :=
  ∀ parser after : Parser, parser.grammar = .standard → parser.Passes tokens after →
    after.peek = next → parser.Reads phrase after

theorem Complete.reads {phrase : Phrase} {tokens : List Token} {next : Token}
    (h : Complete phrase tokens next) {parser after : Parser}
    (hpasses : parser.Passes tokens after) (hgrammar : parser.grammar = .standard)
    (hpeek : after.peek = next) : parser.Reads phrase after :=
  h parser after hgrammar hpasses hpeek

/-- The last of the tokens passed is the one after all the others. -/
theorem passes_concat {parser after : Parser} {tokens : List Token} {closer : Token}
    (htokens : tokens ≠ []) (h : parser.Passes (tokens ++ [closer]) after) :
    ∃ mid, parser.Passes tokens mid ∧ mid.peek = closer ∧ mid.next = after := by
  obtain ⟨mid, hfirst, hsecond⟩ := (passes_append htokens (List.cons_ne_nil _ _)).mp h
  obtain ⟨_, hcurrent, rfl⟩ := passes_singleton.mp hsecond
  exact ⟨mid, hfirst, hcurrent, rfl⟩

/-- The tokens passed with one that stands between two parts. -/
theorem passes_between {parser after : Parser} {tokens rest : List Token} {between : Token}
    (htokens : tokens ≠ []) (hrest : rest ≠ [])
    (h : parser.Passes (tokens ++ between :: rest) after) :
    ∃ mid, parser.Passes tokens mid ∧ mid.peek = between ∧ mid.next.next.Passes rest after := by
  obtain ⟨mid, hfirst, hsecond⟩ := (passes_append htokens (List.cons_ne_nil _ _)).mp h
  obtain ⟨_, hcurrent, hthird⟩ := (passes_cons hrest).mp hsecond
  exact ⟨mid, hfirst, hcurrent, hthird⟩

theorem readNames_of_parameters {names : List Node} {tokens : List Token}
    (h : Parameters names tokens) (hne : names ≠ []) {parser after : Parser}
    (hpasses : parser.next.Passes tokens after) : parser.readNames = (some names, after) := by
  induction h generalizing parser with
  | none _ => exact absurd rfl hne
  | @last name close hname hclose =>
      obtain ⟨mid, hfirst, rfl, rfl⟩ := passes_concat (List.cons_ne_nil name []) hpasses
      obtain ⟨_, rfl, rfl⟩ := passes_singleton.mp hfirst
      rw [readNames_of_ident hname, if_neg (by simp [hclose]), if_pos hclose]
      rfl
  | @more name comma names tokens hname hcomma hnames hrest ih =>
      obtain ⟨mid, hfirst, rfl, hthird⟩ :=
        passes_between (List.cons_ne_nil name []) hrest.ne_nil hpasses
      obtain ⟨_, rfl, rfl⟩ := passes_singleton.mp hfirst
      rw [readNames_of_ident hname, if_pos hcomma, ih hnames hthird]
      rfl

theorem readParameters_of_parameters {names : List Node} {tokens : List Token}
    (h : Parameters names tokens) {parser after : Parser}
    (hpasses : parser.next.Passes tokens after) :
    parser.readParameters = (some names, after) := by
  have hhead := hpasses.exists_head
  unfold readParameters
  cases h with
  | none hclose =>
      obtain ⟨_, rfl, rfl⟩ := passes_singleton.mp hpasses
      exact if_pos hclose
  | last hname hclose =>
      have hnot : parser.peek.kind ≠ .rparen := by
        rw [show parser.peek = _ from hpasses.head, hname]
        decide
      rw [if_neg hnot]
      exact readNames_of_parameters (.last hname hclose) (by simp) hpasses
  | more hname hcomma hnames hrest =>
      have hnot : parser.peek.kind ≠ .rparen := by
        rw [show parser.peek = _ from hpasses.head, hname]
        decide
      rw [if_neg hnot]
      exact readNames_of_parameters (.more hname hcomma hnames hrest) (by simp) hpasses

/-- Where a rule continues the expression, the parser takes it. -/
theorem power_of_continues {parser : Parser} {rule : InfixRule}
    (hgrammar : parser.grammar = .standard)
    (h : parser.current.continues? parser.peek = some rule) :
    parser.peek.kind ≠ .eof ∧ parser.grammar.infixRule? parser.peek.kind = some rule ∧
      parser.peekPower = rule.power := by
  rcases continues_cases hgrammar with ⟨rule', hcont, hfound, hpower⟩ | ⟨hnone, _⟩
  · have hsame : rule' = rule := by simpa [hcont] using h
    subst hsame
    refine ⟨?_, hfound, hpower⟩
    intro hend
    rw [hgrammar, hend] at hfound
    cases hfound
  · rw [hnone] at h
    cases h

/-- Where nothing continues the expression, the parser stops. -/
theorem power_of_stops {parser : Parser} {power : Int} (hgrammar : parser.grammar = .standard)
    (hlowest : Power.lowest ≤ power) (h : parser.current.Stops power parser.peek) :
    parser.peekPower ≤ power ∨ parser.grammar.infixRule? parser.peek.kind = none := by
  rcases continues_cases hgrammar with ⟨rule, hcont, _, hpower⟩ | ⟨_, hlow | hnone⟩
  · exact Or.inl (hpower ▸ h rule hcont)
  · exact Or.inl (hlow ▸ hlowest)
  · exact Or.inr hnone

section Extension

variable {parser mid after : Parser} {power : Int} {left more node : Node}

/-- Going on with an expression by a rule, once it is known what the rule gives. -/
theorem extension_of_readInfix {rule : InfixRule} (hgrammar : parser.grammar = .standard)
    (hcontinues : parser.current.continues? parser.peek = some rule)
    (hpower : power < rule.power) (hmore : (parser.next.readInfix rule left).Gives more mid)
    (hrest : (mid.extend power more).Gives node after) :
    (parser.extend power left).Gives node after := by
  obtain ⟨hend, hrule, heq⟩ := power_of_continues hgrammar hcontinues
  exact gives_extend.mpr (Or.inr ⟨hend, heq ▸ hpower, rule, hrule, more, mid, hmore, hrest⟩)

end Extension

section Complete

variable {power : Int} {left node : Node} {tokens : List Token} {next : Token}

theorem complete_integer {token : Token} {value : Int}
    (hread : readInt token.literal = .ok value) (hmin : minInteger ≤ value)
    (hmax : value ≤ maxInteger) :
    Complete (.opening .integer (.int (some token) value)) [token] next := by
  rintro parser after hgrammar hpasses -
  obtain ⟨_, rfl, rfl⟩ := passes_singleton.mp hpasses
  simp only [Reads, readPrefix]
  exact gives_readInteger.mpr ⟨_, hread, Or.inl ⟨⟨hmin, hmax⟩, rfl, rfl⟩⟩

theorem complete_sign {token : Token} {right : Node} (hne : tokens ≠ [])
    (hright : Complete (.expression Power.sign right) tokens next) :
    Complete (.opening .operator (.prefixOp (some token) token.literal right))
      (token :: tokens) next := by
  intro parser after hgrammar hpasses hpeek
  obtain ⟨hleft, rfl, hnext⟩ := (passes_cons hne).mp hpasses
  have hread := hright.reads hnext hgrammar hpeek
  exact gives_readPrefix_operator.mpr ⟨hleft, _, after, hread, rfl, rfl⟩

theorem complete_grouped {opener closer : Token} (hne : tokens ≠ [])
    (hclose : closer.kind = .rparen)
    (hinner : Complete (.expression Power.lowest node) tokens closer) :
    Complete (.opening .grouped node) (opener :: tokens ++ [closer]) next := by
  rintro parser after hgrammar hpasses -
  obtain ⟨mid, hfirst, rfl, rfl⟩ := passes_concat (by simp) hpasses
  obtain ⟨hleft, rfl, hnext⟩ := (passes_cons hne).mp hfirst
  have hread := hinner.reads hnext hgrammar rfl
  exact gives_readPrefix_grouped.mpr ⟨hleft, _, mid, hread, Or.inl ⟨hclose, rfl, rfl⟩⟩

theorem complete_function {token opener : Token} {names : List Node} {parameters : List Token}
    (hopen : opener.kind = .lparen) (hnames : Parameters names parameters)
    (hderives : Derives (.block node) tokens next) (hbody : Complete (.block node) tokens next) :
    Complete (.opening .function (.function (some token) names node))
      (token :: opener :: parameters ++ tokens) next := by
  intro parser after hgrammar hpasses hpeek
  obtain ⟨mid, hfirst, hsecond⟩ := (passes_append (by simp) hderives.ne_nil).mp hpasses
  obtain ⟨hleft, rfl, hfront⟩ := (passes_cons (List.cons_ne_nil _ _)).mp hfirst
  obtain ⟨_, hopener, hinside⟩ := (passes_cons hnames.ne_nil).mp hfront
  have hparameters := readParameters_of_parameters hnames hinside
  have hbrace : mid.peek.kind = .lbrace := by
    cases hderives with
    | block hopen' _ => rw [show mid.peek = _ from hsecond.head, hopen']
  have hblock := hbody.reads hsecond (hfirst.grammar.trans hgrammar) hpeek
  refine gives_readPrefix_function.mpr (Or.inr ⟨?_, _, mid, hparameters, Or.inr ⟨_, rfl, ?_⟩⟩)
  · rw [show parser.peek = _ from hopener, hopen]
  · exact Or.inr ⟨hbrace, _, hblock, rfl⟩

theorem complete_array {opener : Token} {elements : List Node} (hne : tokens ≠ [])
    (helements : Complete (.list .rbracket (some elements)) tokens next) :
    Complete (.opening .array (.array (some opener) elements)) (opener :: tokens) next := by
  intro parser after hgrammar hpasses hpeek
  obtain ⟨hleft, rfl, hnext⟩ := (passes_cons hne).mp hpasses
  have hread := helements.reads hnext hgrammar hpeek
  exact gives_readPrefix_array.mpr ⟨hleft, _, after, hread, rfl, rfl⟩

theorem complete_hash {opener : Token} {pairs : List (Node × Node)} (hne : tokens ≠ [])
    (hpairs : Complete (.pairs (some pairs)) tokens next) :
    Complete (.opening .hash (.hash (some opener) pairs)) (opener :: tokens) next := by
  intro parser after hgrammar hpasses hpeek
  obtain ⟨hleft, rfl, hnext⟩ := (passes_cons hne).mp hpasses
  have hread := hpairs.reads hnext hgrammar hpeek
  exact gives_readPrefix_hash.mpr ⟨hleft, _, after, hread, rfl, rfl⟩

theorem complete_expression {rule : PrefixRule} {last : Token} {first rest : List Token}
    (hderives : Derives (.opening rule left) (first ++ [last]) (rest.headD next))
    (hopening : Complete (.opening rule left) (first ++ [last]) (rest.headD next))
    (hextension : Complete (.extension power left node) (last :: rest) next) :
    Complete (.expression power node) (first ++ last :: rest) next := by
  intro parser after hgrammar hpasses hpeek
  obtain ⟨mid, hfirst, hsecond⟩ := passes_overlap.mp hpasses
  have hread := hopening.reads hfirst hgrammar (hpeek ▸ hsecond.peek)
  have hread' := hextension.reads hsecond (hfirst.grammar.trans hgrammar) hpeek
  have hrule : parser.grammar.prefixRule? parser.current.kind = some rule := by
    obtain ⟨others, htokens⟩ := hfirst.exists_head
    rw [htokens] at hderives
    exact hgrammar ▸ hderives.opening_head
  exact gives_readExpression.mpr (Or.inr ⟨rule, hrule, left, mid, hread, hread'⟩)

theorem complete_stop {last : Token} (hlowest : Power.lowest ≤ power)
    (hstop : last.Stops power next) : Complete (.extension power node node) [last] next := by
  rintro parser after hgrammar hpasses rfl
  obtain ⟨_, rfl, rfl⟩ := passes_singleton.mp hpasses
  have hpower := power_of_stops hgrammar hlowest hstop
  exact gives_extend.mpr (Or.inl ⟨Or.inr hpower, rfl, rfl⟩)

theorem complete_infixOp {binding : Int} {right : Bool} {operand : Node}
    {last operator last' : Token} {rest : List Token}
    (hrule : last.continues? operator = some (.operator binding right))
    (hpower : power < binding)
    (hoperand : Complete (.expression (InfixRule.operator binding right).rightPower operand)
      (tokens ++ [last']) (rest.headD next))
    (hextension : Complete
      (.extension power (.infixOp (some operator) left operator.literal operand) node)
      (last' :: rest) next) :
    Complete (.extension power left node) (last :: operator :: tokens ++ last' :: rest) next := by
  intro parser after hgrammar hpasses hpeek
  obtain ⟨_, rfl, hsecond⟩ := (passes_cons (List.cons_ne_nil _ _)).mp hpasses
  obtain ⟨hleft, rfl, hthird⟩ := (passes_cons (by simp)).mp hsecond
  obtain ⟨mid, hfirst, hback⟩ := passes_overlap.mp hthird
  have hread := hoperand.reads hfirst hgrammar (hpeek ▸ hback.peek)
  have hread' := hextension.reads hback (hfirst.grammar.trans hgrammar) hpeek
  refine extension_of_readInfix hgrammar hrule hpower ?_ hread'
  exact (gives_readInfix_operator hleft).mpr ⟨_, mid, hread, rfl, rfl⟩

theorem complete_call {arguments : List Node} {last opener closer : Token}
    {rest : List Token} (hrule : last.continues? opener = some .call)
    (hpower : power < Power.call)
    (harguments : Complete (.list .rparen (some arguments)) (tokens ++ [closer])
      (rest.headD next))
    (hextension : Complete (.extension power (.call (some opener) left arguments) node)
      (closer :: rest) next) :
    Complete (.extension power left node) (last :: opener :: tokens ++ closer :: rest) next := by
  intro parser after hgrammar hpasses hpeek
  obtain ⟨_, rfl, hsecond⟩ := (passes_cons (List.cons_ne_nil _ _)).mp hpasses
  obtain ⟨hleft, rfl, hthird⟩ := (passes_cons (by simp)).mp hsecond
  obtain ⟨mid, hfirst, hback⟩ := passes_overlap.mp hthird
  have hread := harguments.reads hfirst hgrammar (hpeek ▸ hback.peek)
  have hread' := hextension.reads hback (hfirst.grammar.trans hgrammar) hpeek
  refine extension_of_readInfix hgrammar hrule hpower ?_ hread'
  exact (gives_readInfix_call hleft).mpr ⟨_, mid, hread, rfl, rfl⟩

theorem complete_index {position : Node} {last opener closer : Token} {rest : List Token}
    (hne : tokens ≠ []) (hrule : last.continues? opener = some .index)
    (hpower : power < Power.index) (hclose : closer.kind = .rbracket)
    (hposition : Complete (.expression Power.lowest position) tokens closer)
    (hextension : Complete (.extension power (.index (some opener) left position) node)
      (closer :: rest) next) :
    Complete (.extension power left node) (last :: opener :: tokens ++ closer :: rest) next := by
  intro parser after hgrammar hpasses hpeek
  obtain ⟨_, rfl, hsecond⟩ := (passes_cons (List.cons_ne_nil _ _)).mp hpasses
  obtain ⟨hleft, rfl, hthird⟩ := (passes_cons (by simp)).mp hsecond
  obtain ⟨mid, hfront, hback⟩ := passes_overlap.mp hthird
  obtain ⟨inside, hfirst, rfl, rfl⟩ := passes_concat hne hfront
  have hread := hposition.reads hfirst hgrammar rfl
  have hread' := hextension.reads hback (hfront.grammar.trans hgrammar) hpeek
  refine extension_of_readInfix hgrammar hrule hpower ?_ hread'
  exact (gives_readInfix_index hleft).mpr ⟨_, inside, hread, Or.inl ⟨hclose, rfl, rfl⟩⟩

theorem complete_ifElse {token opener closer last : Token} {condition consequence : Node}
    {test body rest : List Token} (hne : test ≠ []) (hopen : opener.kind = .lparen)
    (hclose : closer.kind = .rparen)
    (hderives : Derives (.block consequence) (body ++ [last]) (rest.headD next))
    (hcondition : Complete (.expression Power.lowest condition) test closer)
    (hconsequence : Complete (.block consequence) (body ++ [last]) (rest.headD next))
    (hrest : Complete (.otherwise token condition consequence node) (last :: rest) next) :
    Complete (.conditional node) (token :: opener :: test ++ closer :: body ++ last :: rest)
      next := by
  intro parser after hgrammar hpasses hpeek
  have hshape : token :: opener :: test ++ closer :: body ++ last :: rest =
      token :: opener :: (test ++ closer :: (body ++ last :: rest)) := by simp
  rw [hshape] at hpasses
  obtain ⟨_, rfl, hsecond⟩ := (passes_cons (List.cons_ne_nil _ _)).mp hpasses
  obtain ⟨_, hopener, hthird⟩ := (passes_cons (by simp)).mp hsecond
  obtain ⟨mid, hfirst, hcloser, hblock⟩ := passes_between hne (by simp) hthird
  obtain ⟨final, hbody, hback⟩ := passes_overlap.mp hblock
  have hmid : mid.grammar = .standard := hfirst.grammar.trans hgrammar
  have hread := hcondition.reads hfirst hgrammar hcloser
  have hread' := hconsequence.reads hbody hmid (hpeek ▸ hback.peek)
  have hread'' := hrest.reads hback (hbody.grammar.trans hmid) hpeek
  have hbrace : mid.next.peek.kind = .lbrace := by
    obtain ⟨others, htokens⟩ := hbody.exists_head
    rw [htokens] at hderives
    cases hderives with
    | block hopen' _ => exact hopen'
  refine gives_readIf.mpr (Or.inr ⟨?_, _, mid, hread, Or.inr ⟨?_, Or.inr ⟨hbrace, ?_⟩⟩⟩)
  · rw [show parser.peek = _ from hopener, hopen]
  · rw [hcloser, hclose]
  · exact ⟨_, final, hread', hread''⟩

theorem complete_noElse {token last : Token} {condition consequence : Node}
    (hnext : next.kind ≠ .elseWord) :
    Complete (.otherwise token condition consequence
      (.ifElse (some token) condition consequence .missing)) [last] next := by
  rintro parser after hgrammar hpasses rfl
  obtain ⟨_, rfl, rfl⟩ := passes_singleton.mp hpasses
  exact gives_readElse.mpr (Or.inl ⟨hnext, rfl, rfl⟩)

theorem complete_elseBlock {token last word : Token} {condition consequence alternative : Node}
    (hword : word.kind = .elseWord) (hderives : Derives (.block alternative) tokens next)
    (halternative : Complete (.block alternative) tokens next) :
    Complete (.otherwise token condition consequence
      (.ifElse (some token) condition consequence alternative)) (last :: word :: tokens) next := by
  intro parser after hgrammar hpasses hpeek
  obtain ⟨_, rfl, hsecond⟩ := (passes_cons (List.cons_ne_nil _ _)).mp hpasses
  obtain ⟨_, rfl, hthird⟩ := (passes_cons hderives.ne_nil).mp hsecond
  have hread := halternative.reads hthird hgrammar hpeek
  have hbrace : parser.next.peek.kind = .lbrace := by
    cases hderives with
    | block hopen _ => rw [show parser.next.peek = _ from hthird.head, hopen]
  exact gives_readElse.mpr (Or.inr ⟨hword, Or.inl ⟨hbrace, _, hread, rfl⟩⟩)

theorem complete_elseIf {token last word : Token} {condition consequence alternative : Node}
    (hword : word.kind = .elseWord) (hderives : Derives (.conditional alternative) tokens next)
    (halternative : Complete (.conditional alternative) tokens next) :
    Complete (.otherwise token condition consequence
      (.ifElse (some token) condition consequence alternative)) (last :: word :: tokens) next := by
  intro parser after hgrammar hpasses hpeek
  obtain ⟨_, rfl, hsecond⟩ := (passes_cons (List.cons_ne_nil _ _)).mp hpasses
  obtain ⟨_, rfl, hthird⟩ := (passes_cons hderives.ne_nil).mp hsecond
  have hread := halternative.reads hthird hgrammar hpeek
  have hif : parser.next.peek.kind = .ifWord := by
    cases hderives with
    | ifElse hkind _ _ _ _ _ => rw [show parser.next.peek = _ from hthird.head, hkind]
  exact gives_readElse.mpr (Or.inr ⟨hword, Or.inr (Or.inl ⟨hif, _, hread, rfl⟩)⟩)

theorem complete_emptyList {close : Kind} {closer : Token} (hclose : closer.kind = close) :
    Complete (.list close (some [])) [closer] next := by
  rintro parser after hgrammar hpasses -
  obtain ⟨_, rfl, rfl⟩ := passes_singleton.mp hpasses
  exact gives_readList.mpr (Or.inl ⟨hclose, rfl, rfl⟩)

theorem complete_list {close : Kind} {nodes : List Node}
    (hstop : close = .rparen ∨ close = .rbracket)
    (hderives : Derives (.elements close (some nodes)) tokens next)
    (helements : Complete (.elements close (some nodes)) tokens next) :
    Complete (.list close (some nodes)) tokens next := by
  intro parser after hgrammar hpasses hpeek
  refine gives_readList.mpr (Or.inr ⟨?_, helements.reads hpasses hgrammar hpeek⟩)
  obtain ⟨others, rfl⟩ := hpasses.exists_head
  obtain ⟨rule, hrule⟩ := hderives.elements_head
  intro hkind
  rw [hkind] at hrule
  rcases hstop with rfl | rfl <;> cases hrule

theorem complete_lastElement {close : Kind} {closer : Token} (hne : tokens ≠ [])
    (hstop : close = .rparen ∨ close = .rbracket) (hclose : closer.kind = close)
    (helement : Complete (.expression Power.lowest node) tokens closer) :
    Complete (.elements close (some [node])) (tokens ++ [closer]) next := by
  rintro parser after hgrammar hpasses -
  obtain ⟨mid, hfirst, rfl, rfl⟩ := passes_concat hne hpasses
  have hread := helement.reads hfirst hgrammar rfl
  refine gives_readElements.mpr ⟨node, mid, hread, Or.inr (Or.inl ⟨?_, hclose, rfl, rfl⟩)⟩
  rw [hclose]
  rcases hstop with rfl | rfl <;> decide

theorem complete_moreElements {close : Kind} {comma : Token} {nodes : List Node}
    {rest : List Token} (hne : tokens ≠ []) (hne' : rest ≠ []) (hcomma : comma.kind = .comma)
    (helement : Complete (.expression Power.lowest node) tokens comma)
    (hrest : Complete (.elements close (some nodes)) rest next) :
    Complete (.elements close (some (node :: nodes))) (tokens ++ comma :: rest) next := by
  intro parser after hgrammar hpasses hpeek
  obtain ⟨mid, hfirst, rfl, hsecond⟩ := passes_between hne hne' hpasses
  have hread := helement.reads hfirst hgrammar rfl
  have hread' := hrest.reads hsecond (hfirst.grammar.trans hgrammar) hpeek
  exact gives_readElements.mpr ⟨node, mid, hread, Or.inl ⟨hcomma, _, hread', rfl⟩⟩

theorem complete_emptyPairs {closer : Token} (hclose : closer.kind = .rbrace) :
    Complete (.pairs (some [])) [closer] next := by
  rintro parser after hgrammar hpasses -
  obtain ⟨_, rfl, rfl⟩ := passes_singleton.mp hpasses
  exact gives_readPairs.mpr (Or.inl ⟨hclose, rfl, rfl⟩)

section Pairs

variable {colon : Token} {key value : Node} {keys values rest : List Token}

/-- The parser on the first key of a pair does not see a closing brace. -/
theorem not_rbrace_of_key {parser mid : Parser}
    (hkey : Derives (.expression Power.lowest key) keys colon) (h : parser.Passes keys mid) :
    parser.current.kind ≠ .rbrace := by
  obtain ⟨others, rfl⟩ := h.exists_head
  obtain ⟨rule, hrule⟩ := hkey.expression_head
  intro hkind
  rw [hkind] at hrule
  cases hrule

theorem complete_lastPair {closer : Token} (hne : values ≠ []) (hcolon : colon.kind = .colon)
    (hclose : closer.kind = .rbrace)
    (hderives : Derives (.expression Power.lowest key) keys colon)
    (hkey : Complete (.expression Power.lowest key) keys colon)
    (hvalue : Complete (.expression Power.lowest value) values closer) :
    Complete (.pairs (some [(key, value)])) (keys ++ colon :: values ++ [closer]) next := by
  rintro parser after hgrammar hpasses -
  obtain ⟨last, hfront, rfl, rfl⟩ := passes_concat (by simp) hpasses
  obtain ⟨mid, hfirst, rfl, hsecond⟩ := passes_between hderives.ne_nil hne hfront
  have hread := hkey.reads hfirst hgrammar rfl
  have hread' := hvalue.reads hsecond (hfirst.grammar.trans hgrammar) rfl
  refine gives_readPairs.mpr (Or.inr ⟨not_rbrace_of_key hderives hfirst, key, mid, hread, ?_⟩)
  exact Or.inr ⟨hcolon, value, last, hread', Or.inl ⟨hclose, rfl, rfl⟩⟩

theorem complete_morePairs {comma : Token} {pairs : List (Node × Node)} (hne : values ≠ [])
    (hne' : rest ≠ []) (hcolon : colon.kind = .colon) (hcomma : comma.kind = .comma)
    (hderives : Derives (.expression Power.lowest key) keys colon)
    (hkey : Complete (.expression Power.lowest key) keys colon)
    (hvalue : Complete (.expression Power.lowest value) values comma)
    (hrest : Complete (.pairs (some pairs)) rest next) :
    Complete (.pairs (some ((key, value) :: pairs))) (keys ++ colon :: values ++ comma :: rest)
      next := by
  intro parser after hgrammar hpasses hpeek
  obtain ⟨last, hfront, rfl, hthird⟩ := passes_between (by simp) hne' hpasses
  obtain ⟨mid, hfirst, rfl, hsecond⟩ := passes_between hderives.ne_nil hne hfront
  have hread := hkey.reads hfirst hgrammar rfl
  have hread' := hvalue.reads hsecond (hfirst.grammar.trans hgrammar) rfl
  have hread'' := hrest.reads hthird (hfront.grammar.trans hgrammar) hpeek
  refine gives_readPairs.mpr (Or.inr ⟨not_rbrace_of_key hderives hfirst, key, mid, hread, ?_⟩)
  exact Or.inr ⟨hcolon, value, last, hread', Or.inr (Or.inl ⟨hcomma, _, hread'', rfl⟩)⟩

end Pairs

theorem complete_block {opener : Token} {statements : List Node}
    (hderives : Derives (.body statements) tokens next)
    (hbody : Complete (.body statements) tokens next) :
    Complete (.block (.block (some opener) statements)) (opener :: tokens) next := by
  intro parser after hgrammar hpasses hpeek
  obtain ⟨_, rfl, hnext⟩ := (passes_cons hderives.ne_nil).mp hpasses
  have hread := hbody.reads hnext hgrammar hpeek
  refine gives_readBlock.mpr ⟨statements, after, hread, rfl, Or.inl ⟨?_, rfl⟩⟩
  obtain ⟨front, closer, rfl, hclose⟩ := hderives.body_last
  rw [hnext.current, hclose]
  decide

theorem complete_emptyBody {closer : Token} (hclose : closer.kind = .rbrace) :
    Complete (.body []) [closer] next := by
  rintro parser after hgrammar hpasses -
  obtain ⟨_, rfl, rfl⟩ := passes_singleton.mp hpasses
  exact gives_readBody.mpr (Or.inl ⟨Or.inl hclose, rfl, rfl⟩)

theorem complete_body {first : Token} {statement : Option Node} {statements : List Node}
    {rest : List Token} (hderives : Derives (.statement statement) tokens first)
    (hstatement : Complete (.statement statement) tokens first)
    (hrest : Complete (.body statements) (first :: rest) next) :
    Complete (.body (statement.toList ++ statements)) (tokens ++ first :: rest) next := by
  intro parser after hgrammar hpasses hpeek
  obtain ⟨mid, hfirst, hsecond⟩ :=
    (passes_append hderives.ne_nil (List.cons_ne_nil _ _)).mp hpasses
  have hread := hstatement.reads hfirst hgrammar hsecond.head
  have hread' := hrest.reads hsecond (hfirst.grammar.trans hgrammar) hpeek
  obtain ⟨others, rfl⟩ := hfirst.exists_head
  obtain ⟨hbrace, hend⟩ := hderives.statement_head
  exact gives_readBody.mpr (Or.inr ⟨hbrace, hend, _, mid, hread, _, hread', rfl⟩)

theorem complete_letSentence {token name assign : Token} (hne : tokens ≠ [])
    (hkind : token.kind = .letWord) (hname : name.kind = .ident)
    (hassign : assign.kind = .assign)
    (hvalue : Complete (.expression Power.lowest node) tokens next) :
    Complete (.sentence (some (.letStmt (some token) (.ident (some name) name.literal) node)))
      (token :: name :: assign :: tokens) next := by
  intro parser after hgrammar hpasses hpeek
  obtain ⟨_, rfl, hsecond⟩ := (passes_cons (List.cons_ne_nil _ _)).mp hpasses
  obtain ⟨_, rfl, hthird⟩ := (passes_cons (List.cons_ne_nil _ _)).mp hsecond
  obtain ⟨_, rfl, hfourth⟩ := (passes_cons hne).mp hthird
  have hread := hvalue.reads hfourth hgrammar hpeek
  simp only [Reads, GivesSentence, hkind]
  exact gives_readLet.mpr (Or.inr ⟨hname, Or.inr ⟨hassign, node, hread, rfl⟩⟩)

theorem complete_returnSentence {token : Token} (hne : tokens ≠ [])
    (hkind : token.kind = .returnWord)
    (hvalue : Complete (.expression Power.lowest node) tokens next) :
    Complete (.sentence (some (.returnStmt (some token) node))) (token :: tokens) next := by
  intro parser after hgrammar hpasses hpeek
  obtain ⟨_, rfl, hnext⟩ := (passes_cons hne).mp hpasses
  have hread := hvalue.reads hnext hgrammar hpeek
  simp only [Reads, GivesSentence, hkind]
  exact ⟨_, gives_readReturn.mpr ⟨node, hread, rfl⟩, rfl⟩

theorem complete_exprSentence {first : Token}
    (hderives : Derives (.expression Power.lowest node) (first :: tokens) next)
    (hvalue : Complete (.expression Power.lowest node) (first :: tokens) next) :
    Complete (.sentence (some (.exprStmt (some first) node))) (first :: tokens) next := by
  intro parser after hgrammar hpasses hpeek
  have hread := hvalue.reads hpasses hgrammar hpeek
  obtain rfl := hpasses.head
  obtain ⟨rule, hrule⟩ := hderives.expression_head
  simp only [Reads, GivesSentence]
  split
  · next hkind => cases hkind ▸ hrule
  · next hkind => cases hkind ▸ hrule
  · next hkind => cases hkind ▸ hrule
  · exact ⟨node, hread, rfl⟩

theorem complete_stray {token : Token} (hkind : token.kind = .semicolon) :
    Complete (.sentence none) [token] next := by
  rintro parser after hgrammar hpasses -
  obtain ⟨_, rfl, rfl⟩ := passes_singleton.mp hpasses
  simp [Reads, GivesSentence, hkind]

theorem complete_bare {statement : Option Node}
    (hnext : statement.isSome → next.kind ≠ .semicolon)
    (hsentence : Complete (.sentence statement) tokens next) :
    Complete (.statement statement) tokens next := by
  rintro parser after hgrammar hpasses rfl
  have hread := hsentence.reads hpasses hgrammar rfl
  exact gives_readStatement.mpr ⟨after, hread, Or.inr ⟨hnext, rfl⟩⟩

theorem complete_ended {semicolon : Token} (hne : tokens ≠ [])
    (hkind : semicolon.kind = .semicolon)
    (hsentence : Complete (.sentence (some node)) tokens semicolon) :
    Complete (.statement (some node)) (tokens ++ [semicolon]) next := by
  rintro parser after hgrammar hpasses -
  obtain ⟨mid, hfirst, rfl, rfl⟩ := passes_concat hne hpasses
  have hread := hsentence.reads hfirst hgrammar rfl
  exact gives_readStatement.mpr ⟨mid, hread, Or.inl ⟨rfl, hkind, rfl⟩⟩

end Complete

/-- The parser reads every phrase that the grammar allows. -/
theorem complete {phrase : Phrase} {tokens : List Token} {next : Token}
    (h : Derives phrase tokens next) (hproper : phrase.Proper) : Complete phrase tokens next := by
  have hlow : Power.lowest ≤ Power.lowest := Int.le_refl _
  induction h with
  | integer _ hread hmin hmax => exact complete_integer hread hmin hmax
  | string _ | boolean _ | identifier _ =>
      rintro parser after hgrammar hpasses -
      obtain ⟨_, rfl, rfl⟩ := passes_singleton.mp hpasses
      simp only [Reads, readPrefix, gives_done, and_self]
  | sign _ hright ih =>
      have hpower : Power.lowest ≤ Power.sign := by decide
      exact complete_sign hright.ne_nil (ih hpower)
  | grouped _ hclose hinner ih => exact complete_grouped hinner.ne_nil hclose (ih hlow)
  | conditional _ ih =>
      intro parser after hgrammar hpasses hpeek
      simp only [Reads, readPrefix]
      exact (ih trivial).reads hpasses hgrammar hpeek
  | function _ hopen hnames hbody ih =>
      exact complete_function hopen hnames hbody (ih trivial)
  | array _ helements ih => exact complete_array helements.ne_nil (ih (Or.inr rfl))
  | hash _ hpairs ih => exact complete_hash hpairs.ne_nil (ih trivial)
  | expression hopening _ ih ih' => exact complete_expression hopening (ih trivial) (ih' hproper)
  | stop hstop => exact complete_stop hproper hstop
  | infixOp hrule hpower _ _ ih ih' =>
      refine complete_infixOp hrule hpower (ih ?_) (ih' hproper)
      exact rightPower_ge hproper hpower
  | call hrule hpower _ _ ih ih' =>
      exact complete_call hrule hpower (ih (Or.inl rfl)) (ih' hproper)
  | index hrule hpower hclose hposition _ ih ih' =>
      exact complete_index hposition.ne_nil hrule hpower hclose (ih hlow) (ih' hproper)
  | ifElse _ hopen hclose hcondition hconsequence _ ih ih' ih'' =>
      exact complete_ifElse hcondition.ne_nil hopen hclose hconsequence (ih hlow)
        (ih' trivial) (ih'' trivial)
  | noElse hnext => exact complete_noElse hnext
  | elseBlock hword halternative ih => exact complete_elseBlock hword halternative (ih trivial)
  | elseIf hword halternative ih => exact complete_elseIf hword halternative (ih trivial)
  | emptyList hclose => exact complete_emptyList hclose
  | list helements ih => exact complete_list hproper helements (ih hproper)
  | lastElement hclose helement ih =>
      exact complete_lastElement helement.ne_nil hproper hclose (ih hlow)
  | moreElements hcomma helement hrest ih ih' =>
      exact complete_moreElements helement.ne_nil hrest.ne_nil hcomma (ih hlow) (ih' hproper)
  | emptyPairs hclose => exact complete_emptyPairs hclose
  | lastPair hcolon hclose hkey hvalue ih ih' =>
      exact complete_lastPair hvalue.ne_nil hcolon hclose hkey (ih hlow) (ih' hlow)
  | morePairs hcolon hcomma hkey hvalue hrest ih ih' ih'' =>
      exact complete_morePairs hvalue.ne_nil hrest.ne_nil hcolon hcomma hkey (ih hlow)
        (ih' hlow) (ih'' trivial)
  | block _ hbody ih => exact complete_block hbody (ih trivial)
  | emptyBody hclose => exact complete_emptyBody hclose
  | body hstatement _ ih ih' => exact complete_body hstatement (ih trivial) (ih' trivial)
  | letSentence hkind hname hassign hvalue ih =>
      exact complete_letSentence hvalue.ne_nil hkind hname hassign (ih hlow)
  | returnSentence hkind hvalue ih =>
      exact complete_returnSentence hvalue.ne_nil hkind (ih hlow)
  | exprSentence hvalue ih => exact complete_exprSentence hvalue (ih hlow)
  | stray hkind => exact complete_stray hkind
  | bare hnext _ ih => exact complete_bare hnext (ih trivial)
  | ended hkind hsentence ih => exact complete_ended hsentence.ne_nil hkind (ih trivial)

end Parser

end Monkey
