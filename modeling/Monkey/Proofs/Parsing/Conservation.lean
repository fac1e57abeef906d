/-
No token is lost, doubled or moved.  What the sieve keeps of the tokens of a phrase are the words
of the tree that the phrase makes, by induction on how the phrase is derived.
-/
import Monkey.Proofs.Parsing.Words

namespace Monkey

open Sieve

variable {sieve : Sieve} {token first last closer next : Token} {tokens rest : List Token}

/-! ### Where expressions and statements end -/

/-- Nothing goes on with an expression at the token after it. -/
def Phrase.Stops (tokens : List Token) (next : Token) : Phrase → Prop
  | .expression power _ | .extension power _ _ =>
      ∃ front last, tokens = front ++ [last] ∧ last.Stops power next
  | _ => True

theorem Derives.stops {phrase : Phrase} (h : Derives phrase tokens next) :
    phrase.Stops tokens next := by
  induction h with
  | @expression _ _ _ _ last _ first rest _ _ _ ih =>
      obtain ⟨front, final, hrest, hstop⟩ := ih
      exact ⟨first ++ front, final, by rw [hrest, List.append_assoc], hstop⟩
  | @stop _ _ last _ hstop => exact ⟨[], last, rfl, hstop⟩
  | @infixOp _ _ _ _ _ _ last operator last' _ tokens rest _ _ _ _ _ ih =>
      obtain ⟨front, final, hrest, hstop⟩ := ih
      exact ⟨last :: operator :: tokens ++ front, final, by rw [hrest, List.append_assoc], hstop⟩
  | @call _ _ _ _ last opener closer _ tokens rest _ _ _ _ _ ih
  | @index _ _ _ _ last opener closer _ tokens rest _ _ _ _ _ _ ih =>
      obtain ⟨front, final, hrest, hstop⟩ := ih
      exact ⟨last :: opener :: tokens ++ front, final, by rw [hrest, List.append_assoc], hstop⟩
  | _ => trivial

/-- A parenthesis behind a whole expression opens a line. -/
theorem not_joins_of_stops (hstop : last.Stops Power.lowest next) (hopen : next.kind = .lparen) :
    last.joins next = false := by
  by_contra hjoins
  simp only [Token.joins, Bool.not_eq_false, Bool.and_eq_true, Bool.not_eq_true',
    decide_eq_false_iff_not] at hjoins
  have hrule : last.continues? next = some .call := by
    rw [Token.continues?, if_neg (fun h => hjoins.2 h.2), hopen]
    rfl
  exact absurd (hstop .call hrule) (by decide)

theorem closer_ne (h : last.kind ∈ Kind.closers) :
    last.kind ≠ .comma ∧ last.kind ≠ .ifWord ∧ last.kind ≠ .fnWord ∧ last.kind ≠ .lparen := by
  revert h
  cases last.kind <;> decide

/-- The run ends with a semicolon, or with an expression that does not go on. -/
def EndsBefore (next : Token) (tokens : List Token) : Prop :=
  ∃ front last, tokens = front ++ [last] ∧
    (last.kind ∈ Kind.closers ∧ last.Stops Power.lowest next ∨ last.kind = .semicolon)

theorem EndsBefore.append (h : EndsBefore next rest) (tokens : List Token) :
    EndsBefore next (tokens ++ rest) := by
  obtain ⟨front, last, rfl, hlast⟩ := h
  exact ⟨tokens ++ front, last, by rw [List.append_assoc], hlast⟩

theorem EndsBefore.last_ne_comma (h : EndsBefore next tokens) :
    ∀ last ∈ tokens.getLast?, last.kind ≠ .comma := by
  obtain ⟨front, last, rfl, hlast⟩ := h
  rw [List.getLast?_concat]
  rintro last ⟨⟩
  rcases hlast with ⟨hcloser, _⟩ | hkind
  · exact (closer_ne hcloser).1
  · rw [hkind]
    decide

/-- A statement can start with the token. -/
def Sieve.Rests (sieve : Sieve) (next : Token) : Prop :=
  sieve.lead = none ∧ sieve.Admits next

theorem EndsBefore.rests (h : EndsBefore next tokens) (sieve : Sieve) :
    (sieve.passAll tokens).Rests next := by
  obtain ⟨front, last, rfl, hlast⟩ := h
  rw [passAll_concat]
  rcases hlast with ⟨hcloser, hstop⟩ | hkind
  · obtain ⟨_, hif, hfn, hopen⟩ := closer_ne hcloser
    refine ⟨lead_pass (not_groups_of_kind hopen), fun hnext => ?_⟩
    exact admits_of_last (last_pass _ last) ⟨hif, hfn⟩ (not_joins_of_stops hstop hnext) hnext
  · refine ⟨lead_pass (not_groups_of_kind ?_), admits_pass ?_ next⟩
    · rw [hkind]
      decide
    · rw [hkind]
      decide

theorem Derives.expression_endsBefore {node : Node}
    (h : Derives (.expression Power.lowest node) tokens next) : EndsBefore next tokens := by
  obtain ⟨front, last, rfl, hstop⟩ := h.stops
  exact ⟨front, last, rfl, Or.inl ⟨h.linked.1.last, hstop⟩⟩

theorem Derives.sentence_endsBefore {statement : Option Node}
    (h : Derives (.sentence statement) tokens next) : EndsBefore next tokens := by
  cases h with
  | letSentence _ _ _ hvalue => exact hvalue.expression_endsBefore.append [_, _, _]
  | returnSentence _ hvalue => exact hvalue.expression_endsBefore.append [_]
  | exprSentence hvalue => exact hvalue.expression_endsBefore
  | stray hkind => exact ⟨[], _, rfl, Or.inr hkind⟩

theorem Derives.statement_endsBefore {statement : Option Node}
    (h : Derives (.statement statement) tokens next) : EndsBefore next tokens := by
  cases h with
  | bare _ hsentence => exact hsentence.sentence_endsBefore
  | ended hkind _ => exact ⟨_, _, rfl, Or.inr hkind⟩

/-! ### Phrases -/

/-- What the sieve keeps of the tokens are the words of what the phrase makes.  A phrase that goes
on from another one adds words to those of the other. -/
def Phrase.Conserves (tokens : List Token) : Phrase → Prop
  | .expression _ node | .opening _ node | .conditional node =>
      ∀ sieve : Sieve, sieve.Ready tokens →
        sieve.Yields tokens node.words sieve.opened ∧
          ∀ first ∈ tokens.head?, sieve.Leads tokens first
  | .extension _ left node =>
      ∀ (sieve : Sieve) last rest, tokens = last :: rest → sieve.last = some last →
        last.kind ∈ Kind.closers →
          ∃ words, node.words = left.words ++ words ∧ sieve.Yields rest words sieve.opened
  | .otherwise token condition consequence node =>
      ∃ alternative, node = .ifElse (some token) condition consequence alternative ∧
        ∀ (sieve : Sieve) last rest, tokens = last :: rest →
          sieve.Yields rest alternative.elseWords sieve.opened
  | .list close found | .elements close found =>
      ∀ (sieve : Sieve) nodes opened, found = some nodes → sieve.Ready tokens →
        (close = .rbracket ∧ sieve.opened = opened ∨
          close = .rparen ∧ sieve.opened = false :: opened) →
          sieve.Yields tokens (wordsOfList nodes ++ [.mark close]) opened
  | .pairs found =>
      ∀ (sieve : Sieve) pairs, found = some pairs → sieve.Ready tokens →
        sieve.Yields tokens (wordsOfPairs pairs ++ [.mark .rbrace]) sieve.opened
  | .block node => ∀ sieve : Sieve, sieve.Yields tokens node.words sieve.opened
  | .body statements =>
      ∀ sieve : Sieve, (∀ first ∈ tokens.head?, sieve.Rests first) →
        sieve.Yields tokens (wordsOfAll statements ++ [.mark .rbrace]) sieve.opened
  | .sentence found | .statement found =>
      ∀ sieve : Sieve, (∀ first ∈ tokens.head?, sieve.Rests first) →
        sieve.Yields tokens (wordsOfAll found.toList) sieve.opened

section Phrases

variable {operator opener last' colon comma : Token} {power power' : Int} {rule : PrefixRule}
  {left operand position node condition consequence alternative key value : Node}
  {words : List Word} {opened : List Bool} {close : Kind}

/-- A node that its first token introduces. -/
theorem conserves_headed (hkind : plain token.kind) (htoken : node.token? = some token)
    (hintroduces : token.Introduces node) (hwords : node.words = .head node :: words)
    (hrest : ∀ sieve : Sieve,
      (sieve.pass token).Yields tokens words (sieve.pass token).opened) :
    (Phrase.opening rule node).Conserves (token :: tokens) := by
  intro sieve _
  constructor
  · rw [hwords]
    exact .balanced hkind (Word.is_head htoken hintroduces) (hrest sieve)
  · rintro first ⟨⟩
    exact leads_plain hkind tokens

theorem conserves_leaf (hkind : plain token.kind) (htoken : node.token? = some token)
    (hintroduces : token.Introduces node) (hwords : node.words = [.head node]) :
    (Phrase.opening rule node).Conserves [token] :=
  conserves_headed hkind htoken hintroduces hwords fun _ => yields_nil _

theorem conserves_sign (hkind : token.kind = .minus ∨ token.kind = .bang)
    (h : (Phrase.expression Power.sign operand).Conserves tokens) :
    (Phrase.opening .operator (.prefixOp (some token) token.literal operand)).Conserves
      (token :: tokens) := by
  have hplain : plain token.kind := by rcases hkind with hkind | hkind <;> rw [hkind] <;> decide
  refine conserves_headed hplain rfl ⟨hkind, rfl⟩ (by rw [Node.words]) fun sieve => ?_
  refine (h (sieve.pass token) (ready_pass ?_ tokens)).1
  rcases hkind with hkind | hkind <;> rw [hkind] <;> decide

theorem conserves_grouped (hopen : opener.kind = .lparen) (hclose : closer.kind = .rparen)
    (hlast : ∀ last ∈ tokens.getLast?, last.kind ≠ .comma) (hne : tokens ≠ [])
    (h : (Phrase.expression Power.lowest node).Conserves tokens) :
    (Phrase.opening .grouped node).Conserves (opener :: tokens ++ [closer]) := by
  intro sieve hready
  have hgroups : sieve.groups opener = true := hready opener rfl hopen
  have hdrops (next : Option Token) : sieve.drops opener next = true := by
    simp [drops, hopen, hgroups]
  obtain ⟨hinner, hleads⟩ := h (sieve.pass opener) (ready_pass (by rw [hopen]; decide) tokens)
  rw [opened_pass_lparen _ hopen, hgroups] at hinner
  -- The closing parenthesis belongs to the one passed over.
  have hcloser : ((sieve.pass opener).passAll tokens).Yields [closer] [] sieve.opened := by
    refine .skip ?_ ?_
    · simp [drops, hclose, hinner.opened]
    · have hopened : (((sieve.pass opener).passAll tokens).pass closer).opened = sieve.opened := by
        rw [opened_pass_rparen hclose, hinner.opened, List.tail_cons]
      rw [← hopened]
      exact yields_nil _
  have hyields := hinner.append hlast hcloser
  rw [List.append_nil] at hyields
  refine ⟨.skip (hdrops _) hyields, ?_⟩
  rintro first ⟨⟩
  obtain ⟨second, others, rfl⟩ := List.exists_cons_of_ne_nil hne
  obtain ⟨token, kept, hsift⟩ := (hleads second rfl).append hlast [closer]
  refine ⟨token, kept, ?_⟩
  rw [List.cons_append, sift, keep_of_drops (hdrops _), List.nil_append, hsift,
    lead_pass_of_groups hgroups]
  rfl

/-- A closing token that is kept. -/
theorem yields_closer (hclose : closer.kind = close)
    (h : close = .rbracket ∧ sieve.opened = opened ∨
      close = .rparen ∧ sieve.opened = false :: opened) :
    sieve.Yields [closer] [.mark close] opened := by
  rcases h with ⟨rfl, rfl⟩ | ⟨rfl, hopened⟩
  · exact .balanced (by rw [hclose]; decide) (Word.is_mark hclose) (yields_nil _)
  · have hrest : (sieve.pass closer).opened = opened := by
      rw [opened_pass_rparen hclose, hopened, List.tail_cons]
    rw [← hrest]
    exact .cons (by simp [drops, hclose, hopened]) (Word.is_mark hclose) (yields_nil _)

/-- An opening parenthesis that is kept. -/
theorem yields_opener {word : Word} (hopen : opener.kind = .lparen)
    (hgroups : sieve.groups opener = false)
    (his : word.Is ⟨sieve.lead.getD opener, opener⟩)
    (hrest : (sieve.pass opener).Yields tokens words opened) :
    sieve.Yields (opener :: tokens) (word :: words) opened :=
  .cons (by simp [drops, hopen, hgroups]) his hrest

theorem yields_comma (hcomma : comma.kind = .comma)
    (hnext : ∀ next ∈ tokens.head?, next.kind ≠ .rbrace)
    (hrest : (sieve.pass comma).Yields tokens words opened) :
    sieve.Yields (comma :: tokens) (.mark .comma :: words) opened := by
  refine .cons ?_ (Word.is_mark hcomma) hrest
  cases hhead : tokens.head? with
  | none => simp [drops, hcomma]
  | some next => simp [drops, hcomma, hnext next (by rw [hhead]; rfl)]

theorem opened_pass_comma (hcomma : comma.kind = .comma) :
    (sieve.pass comma).opened = sieve.opened :=
  opened_pass (by rw [hcomma]; decide) (by rw [hcomma]; decide)

theorem Parameters.last_ne_comma {names : List Node} (h : Parameters names tokens) :
    ∀ last ∈ tokens.getLast?, last.kind ≠ .comma := by
  induction h with
  | none hclose | last _ hclose =>
      rintro last ⟨⟩
      simp [hclose]
  | more _ _ _ hrest ih =>
      obtain ⟨first, others, rfl⟩ := List.exists_cons_of_ne_nil hrest.ne_nil
      exact ih

theorem Parameters.yields {names : List Node} (h : Parameters names tokens) {sieve : Sieve}
    (hopened : sieve.opened = false :: opened) :
    sieve.Yields tokens (wordsOfList names ++ [.mark .rparen]) opened := by
  induction h generalizing sieve with
  | none hclose => exact yields_closer hclose (Or.inr ⟨rfl, hopened⟩)
  | @last name _ hname hclose =>
      have hplain : plain name.kind := by rw [hname]; decide
      refine .plain hplain (Word.is_head rfl ⟨hname, rfl⟩) (yields_closer hclose ?_)
      exact Or.inr ⟨rfl, (opened_pass_plain _ hplain).trans hopened⟩
  | @more name comma names tokens hname hcomma hne hrest ih =>
      have hplain : plain name.kind := by rw [hname]; decide
      rw [wordsOfList_cons _ hne]
      refine .plain hplain (Word.is_head rfl ⟨hname, rfl⟩) (yields_comma hcomma ?_ (ih ?_))
      · intro next hnext
        cases hrest with
        | none hclose => exact absurd rfl hne
        | last hname _ | more hname _ _ _ =>
            obtain rfl := Option.some.inj hnext
            rw [hname]
            decide
      · rw [opened_pass_comma hcomma, opened_pass_plain _ hplain, hopened]

theorem conserves_function {names : List Node} {parameters : List Token}
    (hkind : token.kind = .fnWord) (hopen : opener.kind = .lparen)
    (hnames : Parameters names parameters)
    (h : (Phrase.block node).Conserves tokens) :
    (Phrase.opening .function (.function (some token) names node)).Conserves
      (token :: opener :: parameters ++ tokens) := by
  have hplain : plain token.kind := by rw [hkind]; decide
  refine conserves_headed hplain rfl hkind (by rw [Node.words]; rfl) fun sieve => ?_
  have hgroups : (sieve.pass token).groups opener = false :=
    not_groups_of_last (last_pass sieve token) (Or.inr (Or.inl hkind))
  have hopened := opened_pass_lparen (sieve.pass token) hopen
  rw [hgroups] at hopened
  have hparameters := hnames.yields hopened
  have hbody := h (((sieve.pass token).pass opener).passAll parameters)
  rw [hparameters.opened] at hbody
  have hrest := hparameters.append hnames.last_ne_comma hbody
  rw [List.append_assoc] at hrest
  exact yields_opener hopen hgroups (Word.is_mark hopen) hrest

theorem conserves_expression {front : List Token}
    (hends : EndsExpression (front ++ [last]))
    (hopening : (Phrase.opening rule left).Conserves (front ++ [last]))
    (hextension : (Phrase.extension power left node).Conserves (last :: rest)) :
    (Phrase.expression power node).Conserves (front ++ last :: rest) := by
  intro sieve hready
  have hcloser : last.kind ∈ Kind.closers := hends.last
  have hlast : ∀ token ∈ (front ++ [last]).getLast?, token.kind ≠ .comma := by
    rw [List.getLast?_concat]
    rintro token ⟨⟩
    exact (closer_ne hcloser).1
  have hhead : (front ++ last :: rest).head? = (front ++ [last]).head? := by
    cases front <;> rfl
  have hready' : sieve.Ready (front ++ [last]) := by
    rwa [Ready, hhead] at hready
  obtain ⟨hyields, hleads⟩ := hopening sieve hready'
  obtain ⟨words, hwords, hrest⟩ := hextension (sieve.passAll (front ++ [last])) last rest rfl
    (by rw [passAll_concat, last_pass]) hcloser
  rw [hyields.opened] at hrest
  rw [hhead, hwords, List.append_cons]
  exact ⟨hyields.append hlast hrest, fun first hfirst => (hleads first hfirst).append hlast rest⟩

theorem conserves_stop : (Phrase.extension power node node).Conserves [last] := by
  rintro sieve last rest ⟨⟩ - -
  exact ⟨[], (List.append_nil _).symm, yields_nil sieve⟩

/-- What comes between the last token of an expression and that of a larger one. -/
theorem conserves_extend {larger : Node} (middle : List Token)
    (hwords : larger.words = left.words ++ words) (hcloser : last'.kind ∈ Kind.closers)
    (hmiddle : ∀ sieve : Sieve, sieve.last = some last → last.kind ∈ Kind.closers →
      sieve.Yields (middle ++ [last']) words sieve.opened)
    (hextension : (Phrase.extension power larger node).Conserves (last' :: rest)) :
    (Phrase.extension power left node).Conserves (last :: (middle ++ last' :: rest)) := by
  rintro sieve last tokens ⟨⟩ hlast hkind
  have hyields := hmiddle sieve hlast hkind
  obtain ⟨others, hnode, hrest⟩ := hextension (sieve.passAll (middle ++ [last'])) last' rest rfl
    (by rw [passAll_concat, last_pass]) hcloser
  rw [hyields.opened] at hrest
  refine ⟨words ++ others, by rw [hnode, hwords, List.append_assoc], ?_⟩
  rw [List.append_cons]
  refine hyields.append ?_ hrest
  rw [List.getLast?_concat]
  rintro token ⟨⟩
  exact (closer_ne hcloser).1

theorem operator_kind (h : operator.IsOperator) : plain operator.kind ∧
    operator.kind ≠ .ifWord ∧ operator.kind ≠ .fnWord ∧ operator.kind ∉ Kind.closers := by
  obtain ⟨power, right, hrule⟩ := h
  revert hrule
  cases operator.kind <;> simp [Grammar.standard] <;> intros <;> decide

theorem conserves_infixOp {binding : Int} {right : Bool}
    (hrule : last.continues? operator = some (.operator binding right))
    (hends : EndsExpression (tokens ++ [last']))
    (hoperand : (Phrase.expression power operand).Conserves (tokens ++ [last']))
    (hextension : (Phrase.extension power'
      (.infixOp (some operator) left operator.literal operand) node).Conserves (last' :: rest)) :
    (Phrase.extension power' left node).Conserves
      (last :: operator :: tokens ++ last' :: rest) := by
  have hoperator : operator.IsOperator :=
    ⟨binding, right, (Token.infixRule?_of_continues? hrule).1⟩
  obtain ⟨hplain, hkind⟩ := operator_kind hoperator
  refine conserves_extend (operator :: tokens) (by rw [Node.words]) hends.last ?_ hextension
  intro sieve _ _
  refine .balanced hplain (Word.is_head rfl ⟨hoperator, rfl⟩) ?_
  exact (hoperand (sieve.pass operator) (ready_pass hkind _)).1

theorem conserves_call {arguments : List Node} (hrule : last.continues? opener = some .call)
    (hopen : opener.kind = .lparen) (hclose : closer.kind = .rparen)
    (harguments : (Phrase.list .rparen (some arguments)).Conserves (tokens ++ [closer]))
    (hextension : (Phrase.extension power (.call (some opener) left arguments) node).Conserves
      (closer :: rest)) :
    (Phrase.extension power left node).Conserves (last :: opener :: tokens ++ closer :: rest) := by
  refine conserves_extend (opener :: tokens) (by rw [Node.words, List.append_assoc])
    (by rw [hclose]; decide) ?_ hextension
  intro sieve hlast hkind
  have hgroups : sieve.groups opener = false := not_groups_of_last hlast
    (Or.inr (Or.inr (joins_of_continues hkind hrule (Or.inl rfl))))
  refine yields_opener hopen hgroups (Word.is_head rfl hopen) ?_
  refine harguments (sieve.pass opener) arguments _ rfl ?_ (Or.inr ⟨rfl, ?_⟩)
  · exact ready_pass (by rw [hopen]; decide) _
  · rw [opened_pass_lparen _ hopen, hgroups]

theorem conserves_index (hopen : opener.kind = .lbracket) (hclose : closer.kind = .rbracket)
    (hlast : ∀ last ∈ tokens.getLast?, last.kind ≠ .comma)
    (hposition : (Phrase.expression Power.lowest position).Conserves tokens)
    (hextension : (Phrase.extension power (.index (some opener) left position) node).Conserves
      (closer :: rest)) :
    (Phrase.extension power left node).Conserves (last :: opener :: tokens ++ closer :: rest) := by
  refine conserves_extend (opener :: tokens) (by rw [Node.words, List.append_assoc])
    (by rw [hclose]; decide) ?_ hextension
  intro sieve _ _
  refine .balanced (by rw [hopen]; decide) (Word.is_head rfl hopen) ?_
  obtain ⟨hyields, _⟩ := hposition (sieve.pass opener) (ready_pass (by rw [hopen]; decide) _)
  exact hyields.append hlast (yields_closer hclose (Or.inl ⟨rfl, hyields.opened⟩))

theorem conserves_ifElse {test body : List Token} (hkind : token.kind = .ifWord)
    (hopen : opener.kind = .lparen) (hclose : closer.kind = .rparen)
    (htest : ∀ last ∈ test.getLast?, last.kind ≠ .comma)
    (hends : EndsExpression (body ++ [last]))
    (hcondition : (Phrase.expression Power.lowest condition).Conserves test)
    (hconsequence : (Phrase.block consequence).Conserves (body ++ [last]))
    (hrest : (Phrase.otherwise token condition consequence node).Conserves (last :: rest)) :
    (Phrase.conditional node).Conserves
      (token :: opener :: test ++ closer :: body ++ last :: rest) := by
  obtain ⟨alternative, rfl, helse⟩ := hrest
  have hplain : plain token.kind := by rw [hkind]; decide
  have hfirst : ∀ sieve : Sieve, (sieve.pass token).Yields
      (opener :: (test ++ closer :: (body ++ last :: rest)))
      (.mark .lparen :: (condition.words ++ .mark .rparen ::
        (consequence.words ++ alternative.elseWords))) (sieve.pass token).opened := by
    intro sieve
    have hgroups : (sieve.pass token).groups opener = false :=
      not_groups_of_last (last_pass sieve token) (Or.inl hkind)
    obtain ⟨htested, _⟩ := hcondition ((sieve.pass token).pass opener)
      (ready_pass (by rw [hopen]; decide) test)
    rw [opened_pass_lparen _ hopen, hgroups] at htested
    -- From the closing parenthesis on the parentheses before the if are open again.
    have hcloser : (((sieve.pass token).pass opener).passAll test).Yields [closer]
        [.mark .rparen] (sieve.pass token).opened :=
      yields_closer hclose (Or.inr ⟨rfl, htested.opened⟩)
    have hbody := hconsequence ((((sieve.pass token).pass opener).passAll test).passAll [closer])
    rw [hcloser.opened] at hbody
    have hothers := helse (((((sieve.pass token).pass opener).passAll test).passAll
      [closer]).passAll (body ++ [last])) last rest rfl
    rw [hbody.opened] at hothers
    have hlast : ∀ token ∈ (body ++ [last]).getLast?, token.kind ≠ .comma := by
      rw [List.getLast?_concat]
      rintro token ⟨⟩
      exact (closer_ne hends.last).1
    have hblock := hcloser.append (by rintro token ⟨⟩; simp [hclose]) (hbody.append hlast hothers)
    rw [← List.append_cons] at hblock
    exact yields_opener hopen hgroups (Word.is_mark hopen) (htested.append htest hblock)
  have hheaded : (Phrase.opening .conditional
      (.ifElse (some token) condition consequence alternative)).Conserves
        (token :: opener :: (test ++ closer :: (body ++ last :: rest))) := by
    refine conserves_headed hplain rfl hkind ?_ hfirst
    rw [words_ifElse]
    simp only [List.cons_append, List.append_assoc]
  have htokens : token :: opener :: test ++ closer :: body ++ last :: rest =
      token :: opener :: (test ++ closer :: (body ++ last :: rest)) := by
    simp only [List.cons_append, List.append_assoc]
  rw [htokens]
  exact hheaded

/-- A block or another if behind `else`. -/
theorem conserves_else {word : Token} (hword : word.kind = .elseWord)
    (hne : alternative ≠ .missing)
    (h : ∀ sieve : Sieve, (sieve.pass word).Yields tokens alternative.words
      (sieve.pass word).opened) :
    (Phrase.otherwise token condition consequence
      (.ifElse (some token) condition consequence alternative)).Conserves
      (last :: word :: tokens) := by
  refine ⟨alternative, rfl, ?_⟩
  rintro sieve last rest ⟨⟩
  have hwords : alternative.elseWords = .mark .elseWord :: alternative.words := by
    cases alternative <;> first | rfl | exact absurd rfl hne
  rw [hwords]
  exact .balanced (by rw [hword]; decide) (Word.is_mark hword) (h sieve)

theorem conserves_lastElement (hclose : closer.kind = close)
    (hlast : ∀ last ∈ tokens.getLast?, last.kind ≠ .comma) (hne : tokens ≠ [])
    (h : (Phrase.expression Power.lowest node).Conserves tokens) :
    (Phrase.elements close (some [node])).Conserves (tokens ++ [closer]) := by
  rintro sieve nodes opened ⟨⟩ hready hcase
  have hready' : sieve.Ready tokens := by
    obtain ⟨first, others, rfl⟩ := List.exists_cons_of_ne_nil hne
    exact hready
  obtain ⟨hyields, _⟩ := h sieve hready'
  rw [← hyields.opened] at hcase
  exact hyields.append hlast (yields_closer hclose hcase)

theorem conserves_moreElements {nodes : List Node} (hcomma : comma.kind = .comma)
    (hlast : ∀ last ∈ tokens.getLast?, last.kind ≠ .comma) (hne : tokens ≠ [])
    (hnext : ∀ next ∈ rest.head?, next.kind ≠ .rbrace) (hnodes : nodes ≠ [])
    (h : (Phrase.expression Power.lowest node).Conserves tokens)
    (hrest : (Phrase.elements close (some nodes)).Conserves rest) :
    (Phrase.elements close (some (node :: nodes))).Conserves (tokens ++ comma :: rest) := by
  rintro sieve nodes opened ⟨⟩ hready hcase
  have hready' : sieve.Ready tokens := by
    obtain ⟨first, others, rfl⟩ := List.exists_cons_of_ne_nil hne
    exact hready
  obtain ⟨hyields, _⟩ := h sieve hready'
  rw [← hyields.opened, ← opened_pass_comma hcomma] at hcase
  have hothers := hrest _ _ opened rfl (ready_pass (by rw [hcomma]; decide) rest) hcase
  rw [wordsOfList_cons node hnodes, List.append_assoc]
  exact hyields.append hlast (yields_comma hcomma hnext hothers)

/-- A key, its value, and what follows them. -/
theorem yields_pair {keys values : List Token} {others : List Word} (hcolon : colon.kind = .colon)
    (hkeys : ∀ last ∈ keys.getLast?, last.kind ≠ .comma)
    (hvalues : ∀ last ∈ values.getLast?, last.kind ≠ .comma) (hne : keys ≠ [])
    (hkey : (Phrase.expression Power.lowest key).Conserves keys)
    (hvalue : (Phrase.expression Power.lowest value).Conserves values)
    (hready : sieve.Ready (keys ++ colon :: values ++ rest))
    (hrest : ∀ after : Sieve, after.opened = sieve.opened → after.Yields rest others opened) :
    sieve.Yields (keys ++ colon :: values ++ rest)
      (key.words ++ .mark .colon :: value.words ++ others) opened := by
  have hready' : sieve.Ready keys := by
    obtain ⟨first, front, rfl⟩ := List.exists_cons_of_ne_nil hne
    exact hready
  have hplain : plain colon.kind := by rw [hcolon]; decide
  obtain ⟨hyields, _⟩ := hkey sieve hready'
  obtain ⟨hyields', _⟩ := hvalue ((sieve.passAll keys).pass colon)
    (ready_pass (by rw [hcolon]; decide) values)
  have hopened : (((sieve.passAll keys).pass colon).passAll values).opened = sieve.opened := by
    rw [hyields'.opened, opened_pass_plain _ hplain, hyields.opened]
  have hpair := hyields.append hkeys
    (.plain hplain (Word.is_mark hcolon) (hyields'.append hvalues (hrest _ hopened)))
  simpa only [List.append_assoc, List.cons_append] using hpair

theorem conserves_lastPair {keys values : List Token} (hcolon : colon.kind = .colon)
    (hclose : closer.kind = .rbrace) (hkeys : ∀ last ∈ keys.getLast?, last.kind ≠ .comma)
    (hvalues : ∀ last ∈ values.getLast?, last.kind ≠ .comma) (hne : keys ≠ [])
    (hkey : (Phrase.expression Power.lowest key).Conserves keys)
    (hvalue : (Phrase.expression Power.lowest value).Conserves values) :
    (Phrase.pairs (some [(key, value)])).Conserves (keys ++ colon :: values ++ [closer]) := by
  rintro sieve pairs ⟨⟩ hready
  refine yields_pair hcolon hkeys hvalues hne hkey hvalue hready fun after hopened => ?_
  rw [← hopened]
  exact .balanced (by rw [hclose]; decide) (Word.is_mark hclose) (yields_nil _)

theorem conserves_morePairs {keys values : List Token} {pairs : List (Node × Node)}
    (hcolon : colon.kind = .colon) (hcomma : comma.kind = .comma)
    (hkeys : ∀ last ∈ keys.getLast?, last.kind ≠ .comma)
    (hvalues : ∀ last ∈ values.getLast?, last.kind ≠ .comma) (hne : keys ≠ [])
    (hnext : ∀ next ∈ rest.head?, (next.kind = .rbrace ↔ pairs = [])) (hne' : rest ≠ [])
    (hkey : (Phrase.expression Power.lowest key).Conserves keys)
    (hvalue : (Phrase.expression Power.lowest value).Conserves values)
    (hrest : (Phrase.pairs (some pairs)).Conserves rest) :
    (Phrase.pairs (some ((key, value) :: pairs))).Conserves
      (keys ++ colon :: values ++ comma :: rest) := by
  rintro sieve _ ⟨⟩ hready
  obtain ⟨next, others, rfl⟩ := List.exists_cons_of_ne_nil hne'
  have hiff : next.kind = .rbrace ↔ pairs = [] := hnext next rfl
  have hothers (after : Sieve) (hopened : after.opened = sieve.opened) :
      (after.pass comma).Yields (next :: others) (wordsOfPairs pairs ++ [.mark .rbrace])
        sieve.opened := by
    have hpass : (after.pass comma).opened = after.opened := opened_pass_comma hcomma
    rw [← hopened, ← hpass]
    exact hrest _ pairs rfl (ready_pass (by rw [hcomma]; decide) _)
  by_cases hempty : pairs = []
  · -- The comma stands before the closing brace.
    subst hempty
    refine yields_pair hcolon hkeys hvalues hne hkey hvalue hready fun after hopened => ?_
    exact .skip (by simp [drops, hcomma, hiff]) (hothers after hopened)
  · have hwords : wordsOfPairs ((key, value) :: pairs) ++ [.mark .rbrace] =
        key.words ++ .mark .colon :: value.words ++
          (.mark .comma :: (wordsOfPairs pairs ++ [.mark .rbrace])) := by
      rw [wordsOfPairs_cons key value hempty]
      simp only [List.append_assoc, List.cons_append]
    rw [hwords]
    refine yields_pair hcolon hkeys hvalues hne hkey hvalue hready fun after hopened => ?_
    refine yields_comma hcomma ?_ (hothers after hopened)
    rintro first ⟨⟩
    exact fun hkind => hempty (hiff.mp hkind)

/-- A semicolon is passed over. -/
theorem yields_semicolon (sieve : Sieve) (hkind : token.kind = .semicolon) :
    sieve.Yields [token] [] sieve.opened := by
  have hopened : (sieve.pass token).opened = sieve.opened :=
    opened_pass (by rw [hkind]; decide) (by rw [hkind]; decide)
  rw [← hopened]
  exact .skip (by simp [drops, hkind]) (yields_nil _)

theorem conserves_body {statement : Option Node} {statements : List Node}
    (hends : EndsBefore first tokens) (hne : tokens ≠ [])
    (hstatement : (Phrase.statement statement).Conserves tokens)
    (hrest : (Phrase.body statements).Conserves (first :: rest)) :
    (Phrase.body (statement.toList ++ statements)).Conserves (tokens ++ first :: rest) := by
  intro sieve hrests
  have hhead : (tokens ++ first :: rest).head? = tokens.head? := by
    obtain ⟨head, others, rfl⟩ := List.exists_cons_of_ne_nil hne
    rfl
  rw [hhead] at hrests
  have hyields := hstatement sieve hrests
  have hyields' := hrest (sieve.passAll tokens) (by rintro next ⟨⟩; exact hends.rests sieve)
  rw [hyields.opened] at hyields'
  rw [wordsOfAll_toList, List.append_assoc]
  exact hyields.append hends.last_ne_comma hyields'

theorem conserves_letSentence {name assign : Token} (hkind : token.kind = .letWord)
    (hname : name.kind = .ident) (hassign : assign.kind = .assign)
    (h : (Phrase.expression Power.lowest value).Conserves tokens) :
    (Phrase.sentence (some (.letStmt (some token) (.ident (some name) name.literal)
      value))).Conserves (token :: name :: assign :: tokens) := by
  intro sieve _
  obtain ⟨hyields, _⟩ := h (((sieve.pass token).pass name).pass assign)
    (ready_pass (by rw [hassign]; decide) tokens)
  have hwords : wordsOfAll [Node.letStmt (some token) (.ident (some name) name.literal) value] =
      [.head (.letStmt (some token) (.ident (some name) name.literal) value),
        .head (.ident (some name) name.literal), .mark .assign] ++ value.words := by
    simp [wordsOfAll, Node.words]
  rw [Option.toList, hwords]
  refine .balanced (by rw [hkind]; decide) (Word.is_head rfl hkind) ?_
  refine .balanced (by rw [hname]; decide) (Word.is_head rfl ⟨hname, rfl⟩) ?_
  exact .balanced (by rw [hassign]; decide) (Word.is_mark hassign) hyields

theorem conserves_returnSentence (hkind : token.kind = .returnWord)
    (h : (Phrase.expression Power.lowest value).Conserves tokens) :
    (Phrase.sentence (some (.returnStmt (some token) value))).Conserves (token :: tokens) := by
  intro sieve _
  obtain ⟨hyields, _⟩ := h (sieve.pass token) (ready_pass (by rw [hkind]; decide) tokens)
  have hwords : wordsOfAll [Node.returnStmt (some token) value] =
      .head (.returnStmt (some token) value) :: value.words := by
    simp [wordsOfAll, Node.words]
  rw [Option.toList, hwords]
  exact .balanced (by rw [hkind]; decide) (Word.is_head rfl hkind) hyields

/-- The first token of a statement is the one that its first word is led by. -/
theorem conserves_exprSentence
    (h : (Phrase.expression Power.lowest value).Conserves (first :: tokens)) :
    (Phrase.sentence (some (.exprStmt (some first) value))).Conserves (first :: tokens) := by
  intro sieve hrests
  obtain ⟨hlead, hadmits⟩ := hrests first rfl
  obtain ⟨⟨hwords, hopened⟩, hleads⟩ := h sieve (by rintro first ⟨⟩; exact hadmits)
  obtain ⟨token, others, hsift⟩ := hleads first rfl
  refine ⟨?_, hopened⟩
  rw [Option.toList, wordsOfAll, wordsOfAll, List.append_nil, Node.words]
  rw [hsift, hlead] at hwords ⊢
  generalize value.words = words at hwords
  cases hwords with
  | cons hfirst hothers =>
      refine .cons ⟨hfirst.1, fun statement hmem => ?_⟩ hothers
      rcases List.mem_cons.mp hmem with rfl | hrest
      · rfl
      · exact hfirst.2 statement hrest

end Phrases

/-! ### Derivations -/

theorem Derives.last_ne_comma {power : Int} {node : Node}
    (h : Derives (.expression power node) tokens next) :
    ∀ last ∈ tokens.getLast?, last.kind ≠ .comma := by
  obtain ⟨front, last, rfl, hcloser⟩ := h.linked.1
  rw [List.getLast?_concat]
  rintro last ⟨⟩
  exact (closer_ne hcloser).1

theorem Derives.head_ne_rbrace {power : Int} {node : Node}
    (h : Derives (.expression power node) (first :: tokens) next) : first.kind ≠ .rbrace := by
  obtain ⟨rule, hrule⟩ := h.expression_head
  intro hkind
  rw [hkind] at hrule
  cases hrule

theorem Derives.elements_facts {close : Kind} {nodes : List Node}
    (h : Derives (.elements close (some nodes)) tokens next) :
    nodes ≠ [] ∧ ∀ first ∈ tokens.head?, first.kind ≠ .rbrace := by
  constructor
  · cases h <;> simp
  · intro first hfirst
    obtain ⟨others, rfl⟩ : ∃ others, tokens = first :: others := List.head?_eq_some_iff.mp hfirst
    obtain ⟨rule, hrule⟩ := h.elements_head
    intro hkind
    rw [hkind] at hrule
    cases hrule

/-- Only without a pair do the pairs of a hash start with the closing brace. -/
theorem Derives.pairs_head {pairs : List (Node × Node)}
    (h : Derives (.pairs (some pairs)) tokens next) :
    ∀ first ∈ tokens.head?, (first.kind = .rbrace ↔ pairs = []) := by
  cases h with
  | emptyPairs hclose =>
      rintro first ⟨⟩
      simp [hclose]
  | lastPair _ _ hkey _ | morePairs _ _ hkey _ _ =>
      obtain ⟨head, others, rfl⟩ := List.exists_cons_of_ne_nil hkey.ne_nil
      rintro first ⟨⟩
      simp [hkey.head_ne_rbrace]

theorem continues_kind {last opener : Token} {rule : InfixRule}
    (hrule : last.continues? opener = some rule) :
    (rule = .call → opener.kind = .lparen) ∧ (rule = .index → opener.kind = .lbracket) := by
  have hinfix := (Token.infixRule?_of_continues? hrule).1
  revert hinfix
  cases opener.kind <;> simp [Grammar.standard] <;> rintro rfl <;> simp

/-- The sieve keeps the words of whatever is derived. -/
theorem Derives.conserves {phrase : Phrase} (h : Derives phrase tokens next) :
    phrase.Conserves tokens := by
  induction h with
  | integer hkind hread _ _ =>
      exact conserves_leaf (by rw [hkind]; decide) rfl ⟨hkind, hread⟩ (by rw [Node.words])
  | string hkind =>
      exact conserves_leaf (by rw [hkind]; decide) rfl ⟨hkind, rfl⟩ (by rw [Node.words])
  | @boolean token _ hkind =>
      have hplain : plain token.kind := by
        rcases hkind with hkind | hkind <;> rw [hkind] <;> decide
      refine conserves_leaf hplain rfl ?_ (by rw [Node.words])
      rcases hkind with hkind | hkind <;> simp [Token.Introduces, hkind]
  | identifier hkind =>
      exact conserves_leaf (by rw [hkind]; decide) rfl ⟨hkind, rfl⟩ (by rw [Node.words])
  | sign hkind _ ih => exact conserves_sign hkind ih
  | grouped hopen hclose hinner ih =>
      exact conserves_grouped hopen hclose hinner.last_ne_comma hinner.ne_nil ih
  | conditional _ ih => exact ih
  | function hkind hopen hnames _ ih => exact conserves_function hkind hopen hnames ih
  | @array opener _ elements tokens hopen _ ih =>
      refine conserves_headed (by rw [hopen]; decide) rfl hopen
        (by rw [Node.words, List.cons_append]) fun sieve => ?_
      exact ih _ _ _ rfl (ready_pass (by rw [hopen]; decide) tokens) (Or.inl ⟨rfl, rfl⟩)
  | @hash opener _ pairs tokens hopen _ ih =>
      refine conserves_headed (by rw [hopen]; decide) rfl hopen
        (by rw [Node.words, List.cons_append]) fun sieve => ?_
      exact ih _ _ rfl (ready_pass (by rw [hopen]; decide) tokens)
  | expression hopening _ ih ih' => exact conserves_expression hopening.linked.1 ih ih'
  | stop _ => exact conserves_stop
  | infixOp hrule _ hoperand _ ih ih' => exact conserves_infixOp hrule hoperand.linked.1 ih ih'
  | call hrule _ harguments _ ih ih' =>
      have hclose := (harguments.linked _ rfl).1.last
      exact conserves_call hrule ((continues_kind hrule).1 rfl) hclose ih ih'
  | index hrule _ hclose hposition _ ih ih' =>
      exact conserves_index ((continues_kind hrule).2 rfl) hclose hposition.last_ne_comma ih ih'
  | ifElse hkind hopen hclose hcondition hconsequence _ ih ih' ih'' =>
      exact conserves_ifElse hkind hopen hclose hcondition.last_ne_comma hconsequence.linked.1
        ih ih' ih''
  | noElse _ =>
      refine ⟨.missing, rfl, ?_⟩
      rintro sieve last rest ⟨⟩
      exact yields_nil sieve
  | elseBlock hword halternative ih =>
      refine conserves_else hword ?_ fun sieve => ih (sieve.pass _)
      cases halternative with
      | block _ _ => simp
  | elseIf hword halternative ih =>
      refine conserves_else hword halternative.conditional_ne_missing fun sieve => ?_
      exact (ih (sieve.pass _) (ready_pass (by rw [hword]; decide) _)).1
  | emptyList hclose =>
      rintro sieve nodes opened ⟨⟩ - hcase
      exact yields_closer hclose hcase
  | list _ ih => exact ih
  | lastElement hclose helement ih =>
      exact conserves_lastElement hclose helement.last_ne_comma helement.ne_nil ih
  | moreElements hcomma helement hrest ih ih' =>
      obtain ⟨hnodes, hnext⟩ := hrest.elements_facts
      exact conserves_moreElements hcomma helement.last_ne_comma helement.ne_nil hnext hnodes ih ih'
  | emptyPairs hclose =>
      rintro sieve pairs ⟨⟩ -
      exact .balanced (by rw [hclose]; decide) (Word.is_mark hclose) (yields_nil _)
  | lastPair hcolon hclose hkey hvalue ih ih' =>
      exact conserves_lastPair hcolon hclose hkey.last_ne_comma hvalue.last_ne_comma hkey.ne_nil
        ih ih'
  | morePairs hcolon hcomma hkey hvalue hrest ih ih' ih'' =>
      exact conserves_morePairs hcolon hcomma hkey.last_ne_comma hvalue.last_ne_comma hkey.ne_nil
        hrest.pairs_head hrest.ne_nil ih ih' ih''
  | @block opener _ statements tokens hopen _ ih =>
      intro sieve
      rw [Node.words]
      refine .balanced (by rw [hopen]; decide) (Word.is_head rfl hopen) (ih _ fun first _ => ?_)
      exact ⟨lead_pass (not_groups_of_kind (by rw [hopen]; decide)),
        admits_pass (by rw [hopen]; decide) first⟩
  | emptyBody hclose =>
      intro sieve _
      exact .balanced (by rw [hclose]; decide) (Word.is_mark hclose) (yields_nil _)
  | body hstatement _ ih ih' =>
      exact conserves_body hstatement.statement_endsBefore hstatement.ne_nil ih ih'
  | letSentence hkind hname hassign _ ih => exact conserves_letSentence hkind hname hassign ih
  | returnSentence hkind _ ih => exact conserves_returnSentence hkind ih
  | exprSentence _ ih => exact conserves_exprSentence ih
  | stray hkind => exact fun sieve _ => yields_semicolon sieve hkind
  | bare _ _ ih => exact ih
  | @ended semicolon _ _ tokens hkind hsentence ih =>
      intro sieve hrests
      obtain ⟨first, others, rfl⟩ := List.exists_cons_of_ne_nil hsentence.ne_nil
      have hyields := ih sieve hrests
      have hsemicolon := yields_semicolon (sieve.passAll (first :: others)) hkind
      rw [hyields.opened] at hsemicolon
      have hboth := hyields.append hsentence.sentence_endsBefore.last_ne_comma hsemicolon
      rwa [List.append_nil] at hboth

theorem DerivesAll.conserves {statements : List Node} (h : DerivesAll statements tokens next)
    (hrests : ∀ first ∈ tokens.head?, sieve.Rests first) :
    sieve.Yields tokens (wordsOfAll statements) sieve.opened := by
  induction h generalizing sieve with
  | nil => exact yields_nil sieve
  | @cons next statement statements tokens rest hstatement _ ih =>
      obtain ⟨head, others, rfl⟩ := List.exists_cons_of_ne_nil hstatement.ne_nil
      have hends := hstatement.statement_endsBefore
      have hyields := hstatement.conserves sieve hrests
      have hothers : (sieve.passAll (head :: others)).Yields rest (wordsOfAll statements)
          (sieve.passAll (head :: others)).opened := by
        refine ih fun first hfirst => ?_
        have hnext : rest.headD next = first := by
          rw [List.headD_eq_head?_getD, hfirst]
          rfl
        rw [hnext] at hends
        exact hends.rests sieve
      rw [hyields.opened] at hothers
      rw [wordsOfAll_toList]
      exact hyields.append hends.last_ne_comma hothers

/-! ### Programs -/

theorem Word.Is.exists_kept {words : List Word} {sifted : List Kept} {word : Word}
    (h : List.Forall₂ Word.Is words sifted) (hword : word ∈ words) :
    ∃ kept ∈ sifted, word.Is kept := by
  induction h with
  | nil => cases hword
  | cons hfirst _ ih =>
      rcases List.mem_cons.mp hword with rfl | hrest
      · exact ⟨_, List.mem_cons_self, hfirst⟩
      · obtain ⟨kept, hkept, his⟩ := ih hrest
        exact ⟨kept, List.mem_cons_of_mem _ hkept, his⟩

/-- The words of a program that is read without errors are the tokens of its text one by one, but
for semicolons, pairs of grouping parentheses and a comma before a closing brace; and each node
keeps the one of these tokens that introduces it. -/
theorem Parses.words_are_significant {source : String} {program : Node}
    (h : Parses source program) :
    List.Forall₂ Word.Is program.words (significant (tokenize source).tokens) ∧
      (Sieve.start.passAll (tokenize source).tokens).opened = [] ∧
      ∀ part ∈ program.parts, part.isTokenless = false →
        ∃ kept ∈ significant (tokenize source).tokens, part.IntroducedBy kept := by
  obtain ⟨statements, rfl, hderives⟩ := parses_iff.mp h
  have hyields :
      Sieve.start.Yields (tokenize source).tokens (Node.program statements).words [] := by
    rw [Node.words]
    exact hderives.conserves fun first _ => ⟨rfl, admits_start first⟩
  refine ⟨hyields.words, hyields.opened, fun part hpart htoken => ?_⟩
  obtain ⟨_, _, hcomplete⟩ := h.complete
  obtain ⟨word, hword, hintroduces⟩ := exists_introduces_part hcomplete hpart htoken
  obtain ⟨kept, hkept, his⟩ := Word.Is.exists_kept hyields.words hword
  exact ⟨kept, hkept, his.introducedBy hintroduces⟩

/-- Grouping, calling and testing parentheses, a stray semicolon and a comma before a brace. -/
theorem groupedCall_words_are_significant :
    ∃ program, Parses "((f)(1 + 2))[0]; ; if (x) { -(y) } else { {1: (fn(z) { z }),} }" program ∧
      program.words.length = 31 ∧
      List.Forall₂ Word.Is program.words (significant (tokenize
        "((f)(1 + 2))[0]; ; if (x) { -(y) } else { {1: (fn(z) { z }),} }").tokens) := by
  obtain ⟨program, hparses, hlength⟩ : ∃ program, Parses
      "((f)(1 + 2))[0]; ; if (x) { -(y) } else { {1: (fn(z) { z }),} }" program ∧
        (program.words.length == 31) = true :=
    exists_parses (by decide +kernel) (by decide +kernel)
  exact ⟨program, hparses, beq_iff_eq.mp hlength, hparses.words_are_significant.1⟩

end Monkey
