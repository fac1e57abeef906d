/-
The parser blames the first token at which a text cannot be right.  When a reading makes its
first complaint, the tokens before the one it complains about are the beginning of a phrase of
the form that was to be read: a few brackets, names and signs filled in complete it.  The
induction is that of the parser; what was read without complaint is known from soundness.
-/
import Monkey.Proofs.Parsing.Following

namespace Monkey

/-- Nothing goes on at the token, and no statement ends with it. -/
def Token.Settles (next : Token) : Prop :=
  next.Inert ∧ next.kind ≠ .semicolon

/-- The kinds of token that can be filled in. -/
def Kind.fillers : List Kind :=
  [.ident, .assign, .colon, .lparen, .rparen, .lbrace, .rbrace, .rbracket]

/-- The fillers that can come after an expression. -/
def Kind.settlers : List Kind :=
  [.ident, .colon, .rparen, .rbrace, .rbracket, .eof]

theorem settles_of_kind {next : Token} (h : next.kind ∈ Kind.settlers) : next.Settles := by
  unfold Token.Settles Token.Inert
  revert h
  cases next.kind <;> decide

/-- The tokens make up a phrase of this form in front of the next one. -/
def Phrase.Made (tokens : List Token) (next : Token) : Phrase → Prop
  | .expression power _ => ∃ node, Derives (.expression power node) tokens next
  | .opening _ _ => ∃ rule node, Derives (.opening rule node) tokens next
  | .extension power left _ => ∃ node, Derives (.extension power left node) tokens next
  | .conditional _ => ∃ node, Derives (.conditional node) tokens next
  | .otherwise token condition consequence _ =>
      ∃ node, Derives (.otherwise token condition consequence node) tokens next
  | .list close _ => ∃ nodes, Derives (.list close (some nodes)) tokens next
  | .elements close _ => ∃ nodes, Derives (.elements close (some nodes)) tokens next
  | .pairs _ => ∃ pairs, Derives (.pairs (some pairs)) tokens next
  | .block _ => ∃ node, Derives (.block node) tokens next
  | .body _ => ∃ statements, Derives (.body statements) tokens next
  | .sentence _ => ∃ statement, Derives (.sentence statement) tokens next
  | .statement _ => ∃ statement, Derives (.statement statement) tokens next

/-- Tokens of certain kinds complete the ones passed to a phrase of this form. -/
def Phrase.Viable (passed : List Token) (phrase : Phrase) : Prop :=
  ∃ kinds : List Kind, (∀ kind ∈ kinds, kind ∈ Kind.fillers) ∧
    ∀ tokens next, tokens.map Token.kind = kinds → next.Settles →
      phrase.Made (passed ++ tokens) next

namespace Phrase

variable {phrase phrase' : Phrase} {passed passed' : List Token}

theorem viable_of_kinds (kinds : List Kind) (hkinds : ∀ kind ∈ kinds, kind ∈ Kind.fillers)
    (hmade : ∀ tokens next, tokens.map Token.kind = kinds → next.Settles →
      phrase.Made (passed ++ tokens) next) : phrase.Viable passed :=
  ⟨kinds, hkinds, hmade⟩

/-- A phrase that one token completes. -/
theorem viable_of_kind (kind : Kind) (hkind : kind ∈ Kind.fillers)
    (hmade : ∀ (token next : Token), token.kind = kind → next.Settles →
      phrase.Made (passed ++ [token]) next) : phrase.Viable passed := by
  refine viable_of_kinds [kind] (by simpa using hkind) fun tokens next htokens hnext => ?_
  obtain ⟨token, rfl, htoken⟩ := List.map_eq_singleton_iff.mp htokens
  exact hmade token next htoken hnext

/-- A phrase that is a part of another one, at its end. -/
theorem Viable.map (h : phrase.Viable passed)
    (hmade : ∀ tokens next, next.Settles → phrase.Made (passed ++ tokens) next →
      phrase'.Made (passed' ++ tokens) next) : phrase'.Viable passed' := by
  obtain ⟨kinds, hkinds, hfilled⟩ := h
  exact ⟨kinds, hkinds, fun tokens next htokens hnext =>
    hmade tokens next hnext (hfilled tokens next htokens hnext)⟩

/-- A phrase that is a part of another one, which is filled in behind it. -/
theorem Viable.append (h : phrase.Viable passed) (kind : Kind) (kinds : List Kind)
    (hkind : kind ∈ Kind.settlers) (hkinds : ∀ k ∈ kind :: kinds, k ∈ Kind.fillers)
    (hmade : ∀ tokens closer closing next, closer.kind = kind →
      closing.map Token.kind = kinds → next.Settles → phrase.Made (passed ++ tokens) closer →
        phrase'.Made (passed' ++ (tokens ++ closer :: closing)) next) :
    phrase'.Viable passed' := by
  obtain ⟨front, hfront, hfilled⟩ := h
  refine ⟨front ++ kind :: kinds, ?_, fun tokens next htokens hnext => ?_⟩
  · intro k hk
    rcases List.mem_append.mp hk with hk | hk
    · exact hfront k hk
    · exact hkinds k hk
  · obtain ⟨tokens, back, rfl, hinside, hback⟩ := List.map_eq_append_iff.mp htokens
    obtain ⟨closer, closing, rfl, hcloser, hclosing⟩ := List.map_eq_cons_iff.mp hback
    have hsettles := settles_of_kind (hcloser ▸ hkind)
    exact hmade tokens closer closing next hcloser hclosing hnext
      (hfilled tokens closer hinside hsettles)

end Phrase

/-! ### What is filled in -/

theorem derives_name {power : Int} {name next : Token} (hname : name.kind = .ident)
    (hnext : next.Settles) :
    Derives (.expression power (.ident (some name) name.literal)) [name] next :=
  Derives.of_opening (.identifier hname) fun last _ => hnext.1.stops power last

theorem derives_emptyBlock {opener closer next : Token} (hopen : opener.kind = .lbrace)
    (hclose : closer.kind = .rbrace) :
    Derives (.block (.block (some opener) [])) [opener, closer] next :=
  .block hopen (.emptyBody hclose)

/-- An if without else. -/
theorem derives_noElse {token opener closer next : Token} {condition consequence : Node}
    {test body : List Token} (hkind : token.kind = .ifWord) (hopen : opener.kind = .lparen)
    (hclose : closer.kind = .rparen)
    (hcondition : Derives (.expression Power.lowest condition) test closer)
    (hconsequence : Derives (.block consequence) body next) (hnext : next.Settles) :
    Derives (.conditional (.ifElse (some token) condition consequence .missing))
      (token :: opener :: test ++ closer :: body) next := by
  obtain ⟨front, last, rfl⟩ := hconsequence.exists_last
  have helse : Derives (.otherwise token condition consequence
      (.ifElse (some token) condition consequence .missing)) [last] next := .noElse hnext.1.2
  have hif : Derives (.conditional (.ifElse (some token) condition consequence .missing))
      (token :: opener :: test ++ closer :: front ++ [last]) next :=
    .ifElse hkind hopen hclose hcondition hconsequence helse
  simpa using hif

theorem Derives.sentence_carries {statement : Option Node} {tokens : List Token} {next : Token}
    (h : Derives (.sentence statement) tokens next) {next' : Token} (hinert : next'.Inert) :
    Derives (.sentence statement) tokens next' := by
  cases h with
  | letSentence hkind hname hassign hvalue =>
      exact .letSentence hkind hname hassign (hvalue.carries next' hinert)
  | returnSentence hkind hvalue => exact .returnSentence hkind (hvalue.carries next' hinert)
  | exprSentence hvalue => exact .exprSentence (hvalue.carries next' hinert)
  | stray hkind => exact .stray hkind

/-- A statement is one also in front of a token that starts another one or ends a block. -/
theorem Derives.statement_carries {statement : Option Node} {tokens : List Token} {next : Token}
    (h : Derives (.statement statement) tokens next) {next' : Token} (hnext : next'.Settles) :
    Derives (.statement statement) tokens next' := by
  cases h with
  | bare _ hsentence => exact .bare (fun _ => hnext.2) (hsentence.sentence_carries hnext.1)
  | ended hkind hsentence => exact .ended hkind hsentence

namespace Parser

open Reading

/-! ### The first diagnostic -/

/-- The diagnostic is the first one that was added. -/
def Hears (parser : Parser) (first : Diagnostic) (after : Parser) : Prop :=
  first :: parser.found <:+ after.found

variable {parser mid after : Parser} {first : Diagnostic}

theorem not_hears_of_quiet (hquiet : parser.Quiet after) : ¬ parser.Hears first after := by
  intro h
  have hlength := h.length_le
  rw [hquiet, List.length_cons] at hlength
  omega

theorem token_of_hears_report {message : String} {token : Token}
    (h : parser.Hears first (parser.report message token)) : first.token = token := by
  have heq := h.eq_of_length rfl
  rw [(List.cons.inj heq).1]

/-- The first diagnostic of the whole way is the first of one of its parts. -/
theorem Hears.split (h : parser.Hears first after) (hmid : parser.Before mid)
    (hafter : mid.Before after) :
    parser.Hears first mid ∨ parser.Quiet mid ∧ mid.Hears first after := by
  obtain ⟨newer, hnewer⟩ := hmid.found
  rcases List.eq_nil_or_concat newer with rfl | ⟨front, second, rfl⟩
  · have hquiet : mid.found = parser.found := by rw [← hnewer, List.nil_append]
    right
    refine ⟨hquiet, ?_⟩
    rwa [Hears, hquiet]
  · left
    have hsecond : second :: parser.found <:+ mid.found := ⟨front, by simpa using hnewer⟩
    have hsame := List.suffix_of_suffix_length_le h (hsecond.trans hafter.found) (by simp)
    rwa [Hears, hsame.eq_of_length rfl]

/-! ### The tokens before a token -/

/-- The token comes right after the ones passed. -/
def Reaches (parser : Parser) (passed : List Token) (token : Token) : Prop :=
  ∃ rest, parser.pending = passed ++ rest ∧ token = rest.headD parser.eof

variable {passed tokens : List Token} {token : Token}

theorem reaches_current (parser : Parser) : parser.Reaches [] parser.current :=
  ⟨parser.pending, rfl, rfl⟩

theorem Reaches.cons (hleft : parser.left ≠ 0) (h : parser.next.Reaches passed token) :
    parser.Reaches (parser.current :: passed) token := by
  obtain ⟨rest, hpending, htoken⟩ := h
  refine ⟨rest, ?_, htoken⟩
  match hall : parser.pending with
  | [] => simp [left, hall] at hleft
  | first :: others =>
      have hothers : others = passed ++ rest := by simpa [next, hall] using hpending
      simp [current, hall, hothers]

theorem reaches_peek (hleft : parser.left ≠ 0) :
    parser.Reaches [parser.current] parser.peek :=
  Reaches.cons hleft (reaches_current parser.next)

theorem Reaches.append (hpasses : parser.Passes tokens mid)
    (h : mid.next.Reaches passed token) : parser.Reaches (tokens ++ passed) token := by
  obtain ⟨rest, hpending, htoken⟩ := h
  refine ⟨rest, ?_, ?_⟩
  · rw [hpasses.pending, hpending, List.append_assoc]
  · rw [htoken]
    simp only [eof, next, hpasses.finish]

/-- Going on from the token stood on. -/
theorem Reaches.overlap {front : List Token} {last : Token}
    (hpasses : parser.Passes (front ++ [last]) mid) (h : mid.Reaches passed token) :
    parser.Reaches (front ++ passed) token := by
  obtain ⟨rest, hpending, htoken⟩ := h
  obtain ⟨others, hall, rfl⟩ := passes_iff.mp hpasses
  exact ⟨rest, by rw [hall, List.append_assoc, ← hpending], htoken⟩

theorem Reaches.peek (hpasses : parser.Passes tokens mid) : parser.Reaches tokens mid.peek := by
  have h := Reaches.append hpasses (reaches_current mid.next)
  rwa [List.append_nil] at h

theorem Reaches.head {next : Token} {rest : List Token} (h : parser.Reaches (next :: rest) token) :
    parser.current = next := by
  obtain ⟨others, hpending, _⟩ := h
  simp [current, hpending]

/-! ### What a part without a diagnostic is -/

/-- An expression that was read without a diagnostic is one also where another token settles
it. -/
theorem Quiet.expression (hquiet : parser.Quiet mid) {power : Int} {node : Node}
    (hreads : (parser.readExpression power).Gives node mid)
    (hgrammar : parser.grammar = .standard) (hpower : Power.lowest ≤ power) :
    ∃ tokens, parser.Passes tokens mid ∧
      ∀ next : Token, next.Settles → Derives (.expression power node) tokens next := by
  obtain ⟨tokens, hpasses, hderives⟩ :=
    parser.sound (.expression power node) mid hreads hgrammar hpower trivial hquiet
  exact ⟨tokens, hpasses, fun next hnext => hderives.carries next hnext.1⟩

/-! ### What is blamed -/

/-- Where the phrase goes on from another one, the blame does not fall on its start. -/
def Resumes (parser : Parser) (passed : List Token) : Phrase → Prop
  | .extension .. | .otherwise .. => ∃ more, passed = parser.current :: parser.peek :: more
  | _ => True

/-- The first diagnostic of the reading blames a token up to which the tokens can be completed to
a phrase of the form. -/
def Blames (parser : Parser) (phrase : Phrase) : Prop :=
  ∀ after first, parser.Reads phrase after → parser.grammar = .standard → parser.Fits phrase →
    parser.Hears first after → ∃ passed, parser.Reaches passed first.token ∧
      phrase.Viable passed ∧ parser.Resumes passed phrase

def BlamesBelow (bound : Nat) : Prop :=
  ∀ (parser : Parser) (phrase : Phrase), parser.rank phrase < bound → parser.Blames phrase

theorem BlamesBelow.viable {bound : Nat} (h : BlamesBelow bound) (phrase : Phrase)
    (hreads : parser.Reads phrase after) (hears : parser.Hears first after)
    (hgrammar : parser.grammar = .standard) (hrank : parser.rank phrase < bound)
    (hfits : parser.Fits phrase) : ∃ passed, parser.Reaches passed first.token ∧
      phrase.Viable passed ∧ parser.Resumes passed phrase :=
  h parser phrase hrank after first hreads hgrammar hfits hears

/-! ### Parameters -/

/-- Tokens of certain kinds complete the ones passed to a parameter list. -/
def ViableNames (passed : List Token) : Prop :=
  ∃ kinds : List Kind, (∀ kind ∈ kinds, kind ∈ Kind.fillers) ∧
    ∀ tokens, tokens.map Token.kind = kinds → ∃ names, names ≠ [] ∧
      Parameters names (passed ++ tokens)

theorem viableNames_nil : ViableNames [] := by
  refine ⟨[.ident, .rparen], by decide, fun tokens htokens => ?_⟩
  obtain ⟨name, rest, rfl, hname, hrest⟩ := List.map_eq_cons_iff.mp htokens
  obtain ⟨closer, rfl, hclose⟩ := List.map_eq_singleton_iff.mp hrest
  exact ⟨_, by simp, .last hname hclose⟩

theorem viableNames_name {name : Token} (hname : name.kind = .ident) : ViableNames [name] := by
  refine ⟨[.rparen], by decide, fun tokens htokens => ?_⟩
  obtain ⟨closer, rfl, hclose⟩ := List.map_eq_singleton_iff.mp htokens
  exact ⟨_, by simp, .last hname hclose⟩

theorem ViableNames.more {name comma : Token} (hname : name.kind = .ident)
    (hcomma : comma.kind = .comma) (h : ViableNames passed) :
    ViableNames (name :: comma :: passed) := by
  obtain ⟨kinds, hkinds, hfilled⟩ := h
  refine ⟨kinds, hkinds, fun tokens htokens => ?_⟩
  obtain ⟨names, hne, hnames⟩ := hfilled tokens htokens
  exact ⟨_, by simp, .more hname hcomma hne hnames⟩

theorem blames_readNames {parser after : Parser} (hears : parser.Hears first after) :
    ∀ names, parser.readNames = (names, after) →
      ∃ passed, parser.next.Reaches passed first.token ∧ ViableNames passed := by
  fun_induction readNames parser with
  | case1 parser mid hname =>
      intro names h
      rcases parser.expect_eq .ident with ⟨_, heq⟩ | ⟨_, heq⟩
      · simp [heq] at hname
      · rw [heq] at hname
        cases hname
        cases h
        rw [token_of_hears_report hears]
        exact ⟨[], reaches_current _, viableNames_nil⟩
  | case2 parser mid hname name hcomma hlt rest ih =>
      intro names h
      rcases parser.expect_eq .ident with ⟨hkind, heq⟩ | ⟨_, heq⟩
      · rw [heq] at hname
        cases hname
        obtain ⟨passed, hreaches, hviable⟩ := ih hears _ (Prod.ext rfl (Prod.mk.inj h).2)
        have hfirst := passes_next parser (by simp [hkind])
        have hsecond := passes_next parser.next (by simp [hcomma])
        exact ⟨_, (hreaches.append hsecond).append hfirst, hviable.more hkind hcomma⟩
      · simp [heq] at hname
  | case3 parser mid hname name hcomma close =>
      intro names h
      rcases parser.expect_eq .ident with ⟨hkind, heq⟩ | ⟨_, heq⟩
      · rw [heq] at hname
        cases hname
        have hafter : close.2 = after := (Prod.mk.inj h).2
        rcases parser.next.expect_eq .rparen with ⟨_, hceq⟩ | ⟨_, hceq⟩
        · rw [show close = _ from hceq] at hafter
          subst hafter
          exact absurd hears (not_hears_of_quiet rfl)
        · rw [show close = _ from hceq] at hafter
          subst hafter
          have htoken : first.token = parser.next.peek :=
            token_of_hears_report (show parser.next.Hears first _ from hears)
          rw [htoken]
          exact ⟨_, Reaches.peek (passes_next parser (by simp [hkind])), viableNames_name hkind⟩
      · simp [heq] at hname

theorem blames_readParameters {names : Option (List Node)}
    (h : parser.readParameters = (names, after)) (hears : parser.Hears first after) :
    ∃ passed, parser.next.Reaches passed first.token ∧ ViableNames passed := by
  unfold readParameters at h
  split at h
  · cases h
    exact absurd hears (not_hears_of_quiet rfl)
  · exact blames_readNames hears names h

section Blames

/-- A parameter list that can be completed, with a block behind it. -/
theorem viable_function {node : Node} {token opener : Token} (hkind : token.kind = .fnWord)
    (hopen : opener.kind = .lparen) (h : ViableNames passed) :
    (Phrase.opening .function node).Viable (token :: opener :: passed) := by
  obtain ⟨kinds, hkinds, hfilled⟩ := h
  refine Phrase.viable_of_kinds (kinds ++ [.lbrace, .rbrace]) ?_ ?_
  · intro kind hmem
    rcases List.mem_append.mp hmem with hmem | hmem
    · exact hkinds kind hmem
    · have hblock : ∀ kind ∈ [Kind.lbrace, .rbrace], kind ∈ Kind.fillers := by decide
      exact hblock kind hmem
  · intro tokens next htokens _
    obtain ⟨front, back, rfl, hfront, hback⟩ := List.map_eq_append_iff.mp htokens
    simp only [List.map_eq_cons_iff, List.map_eq_nil_iff] at hback
    obtain ⟨brace, _, rfl, hbrace, last, _, rfl, hlast, rfl⟩ := hback
    obtain ⟨names, _, hparameters⟩ := hfilled front hfront
    have hfunction : Derives (.opening .function _) _ next :=
      .function hkind hopen hparameters (derives_emptyBlock hbrace hlast)
    exact ⟨_, _, by simpa using hfunction⟩

theorem blames_function {node : Node}
    (ih : BlamesBelow (parser.rank (.opening .function node))) :
    parser.Blames (.opening .function node) := by
  intro after first hreads hgrammar hfits hears
  have hkind := Grammar.kind_of_prefixRule? hfits
  have hleft := left_ne_zero_of_opening hfits
  rcases gives_readPrefix_function.mp hreads with
    ⟨_, _, rfl⟩ | ⟨hopen, names, mid, hnames, hrest⟩
  · rw [token_of_hears_report hears]
    refine ⟨_, reaches_peek hleft, ?_, trivial⟩
    refine Phrase.viable_of_kinds [.lparen, .rparen, .lbrace, .rbrace] (by decide) ?_
    intro tokens next htokens _
    simp only [List.map_eq_cons_iff, List.map_eq_nil_iff] at htokens
    obtain ⟨opener, _, rfl, hopen, closer, _, rfl, hclose, brace, _, rfl, hbrace, last, _, rfl,
      hlast, rfl⟩ := htokens
    exact ⟨_, _, .function hkind hopen (.none hclose) (derives_emptyBlock hbrace hlast)⟩
  have hbefore : parser.next.Before mid := by
    have hparameters := before_readParameters parser.next
    rwa [hnames] at hparameters
  have hopener := passes_next parser (by simp [hopen])
  have hafter : mid.Before after := by
    rcases hrest with ⟨_, _, rfl⟩ | ⟨_, _, ⟨_, _, rfl⟩ | ⟨_, body, hbody, _⟩⟩
    · exact Before.refl _
    · exact before_reportPeek _ _
    · exact (before_next _).trans (before_of_reads (.block body) hbody)
  rcases hears.split ((before_next _).trans hbefore) hafter with hears | ⟨hquiet, hears⟩
  · obtain ⟨passed, hreaches, hviable⟩ := blames_readParameters hnames hears
    exact ⟨_, (hreaches.append hopener).cons hleft, viable_function hkind hopen hviable, trivial⟩
  rcases hrest with ⟨rfl, _, rfl⟩ | ⟨parameters, rfl, hrest⟩
  · exact absurd hears (not_hears_of_quiet rfl)
  obtain ⟨tokens, hpasses, hparameters⟩ := passes_readParameters hnames
  have hfront := (hopener.append hpasses).cons hleft
  rcases hrest with ⟨_, _, rfl⟩ | ⟨hbrace, body, hbody, rfl⟩
  · rw [token_of_hears_report hears]
    refine ⟨_, Reaches.peek hfront, ?_, trivial⟩
    refine Phrase.viable_of_kinds [.lbrace, .rbrace] (by decide) ?_
    intro closing next hclosing _
    simp only [List.map_eq_cons_iff, List.map_eq_nil_iff] at hclosing
    obtain ⟨brace, _, rfl, hbrace, last, _, rfl, hlast, rfl⟩ := hclosing
    have hfunction : Derives (.opening .function _) _ next :=
      .function hkind hopen hparameters (derives_emptyBlock hbrace hlast)
    exact ⟨_, _, by simpa using hfunction⟩
  · have hlt : 1 < mid.left := one_lt_left (by simp [hbrace])
    have hle := hbefore.pending.length_le
    obtain ⟨passed, hreaches, hviable, _⟩ := ih.viable (.block body) hbody hears
      (hbefore.grammar.trans hgrammar)
      (by simp only [rank, Phrase.rank, left, next, List.length_tail] at hlt hle ⊢; omega) hbrace
    refine ⟨_, hreaches.append hfront, hviable.map fun fill next _ hmade => ?_, trivial⟩
    obtain ⟨block, hblock⟩ := hmade
    have hfunction : Derives (.opening .function _) _ next :=
      .function hkind hopen hparameters hblock
    exact ⟨_, _, by simpa using hfunction⟩

theorem blames_grouped {node : Node} (ih : BlamesBelow (parser.rank (.opening .grouped node))) :
    parser.Blames (.opening .grouped node) := by
  intro after first hreads hgrammar hfits hears
  have hkind := Grammar.kind_of_prefixRule? hfits
  have hleft := left_ne_zero_of_opening hfits
  obtain ⟨_, inner, mid, hinner, hclose⟩ := gives_readPrefix_grouped.mp hreads
  have hmid := (before_next parser).trans (before_of_reads (.expression _ inner) hinner)
  have hafter : mid.Before after := by
    rcases hclose with ⟨_, _, rfl⟩ | ⟨_, _, rfl⟩
    · exact before_next _
    · exact before_reportPeek _ _
  rcases hears.split hmid hafter with hears | ⟨hquiet, hears⟩
  · obtain ⟨passed, hreaches, hviable, _⟩ := ih.viable (.expression _ inner) hinner hears
      hgrammar (by simp only [rank, Phrase.rank, left_next]; omega) (by simp [Fits])
    refine ⟨_, hreaches.cons hleft,
      hviable.append .rparen [] (by decide) (by decide) ?_, trivial⟩
    rintro tokens closer _ next hclose hnil _ ⟨operand, hoperand⟩
    rw [List.map_eq_nil_iff.mp hnil]
    have hgrouped : Derives (.opening .grouped _) _ next := .grouped hkind hclose hoperand
    exact ⟨_, _, by simpa using hgrouped⟩
  · rcases hclose with ⟨_, _, rfl⟩ | ⟨_, _, rfl⟩
    · exact absurd hears (not_hears_of_quiet rfl)
    · rw [token_of_hears_report hears]
      obtain ⟨tokens, hpasses, hderives⟩ :=
        Quiet.expression (show parser.next.Quiet mid from hquiet) hinner hgrammar (by simp)
      refine ⟨_, Reaches.peek (hpasses.cons hleft), ?_, trivial⟩
      refine Phrase.viable_of_kind .rparen (by decide) fun closer next hclose _ => ?_
      have hsettles : closer.Settles := settles_of_kind (hclose ▸ by decide)
      exact ⟨_, _, .grouped hkind hclose (hderives closer hsettles)⟩

theorem blames_opening {rule : PrefixRule} {node : Node}
    (ih : BlamesBelow (parser.rank (.opening rule node))) :
    parser.Blames (.opening rule node) := by
  intro after first hreads hgrammar hfits hears
  have hkind := Grammar.kind_of_prefixRule? hfits
  have hleft := left_ne_zero_of_opening hfits
  cases rule with
  | integer =>
      simp only [Reads, readPrefix] at hreads
      obtain ⟨value, _, ⟨_, _, rfl⟩ | ⟨_, _, rfl⟩⟩ := gives_readInteger.mp hreads
      · exact absurd hears (not_hears_of_quiet rfl)
      · rw [token_of_hears_report hears]
        refine ⟨[], reaches_current parser, ?_, trivial⟩
        refine Phrase.viable_of_kind .ident (by decide) fun name next hname _ => ?_
        exact ⟨_, _, .identifier hname⟩
  | string | identifier | boolean =>
      simp only [Reads, readPrefix, gives_done] at hreads
      obtain ⟨_, rfl⟩ := hreads
      exact absurd hears (not_hears_of_quiet rfl)
  | operator =>
      obtain ⟨_, right, mid, hright, _, rfl⟩ := gives_readPrefix_operator.mp hreads
      obtain ⟨passed, hreaches, hviable, _⟩ := ih.viable (.expression _ right) hright hears
        hgrammar (by simp only [rank, Phrase.rank, left_next]; omega)
        (by simp [Fits, Power.lowest, Power.sign])
      refine ⟨_, hreaches.cons hleft, hviable.map fun tokens next _ hmade => ?_, trivial⟩
      obtain ⟨operand, hoperand⟩ := hmade
      exact ⟨_, _, .sign hkind hoperand⟩
  | grouped => exact blames_grouped ih after first hreads hgrammar hfits hears
  | conditional =>
      simp only [Reads, readPrefix] at hreads
      obtain ⟨passed, hreaches, hviable, _⟩ := ih.viable (.conditional node) hreads hears
        hgrammar (by simp [rank, Phrase.rank]) hkind
      refine ⟨_, hreaches, hviable.map fun tokens next _ hmade => ?_, trivial⟩
      obtain ⟨result, hresult⟩ := hmade
      exact ⟨_, _, .conditional hresult⟩
  | function => exact blames_function ih after first hreads hgrammar hfits hears
  | array =>
      obtain ⟨_, elements, mid, helements, _, rfl⟩ := gives_readPrefix_array.mp hreads
      obtain ⟨passed, hreaches, hviable, _⟩ := ih.viable (.list _ elements) helements hears
        hgrammar (by simp only [rank, Phrase.rank, left_next]; omega) (Or.inr rfl)
      refine ⟨_, hreaches.cons hleft, hviable.map fun tokens next _ hmade => ?_, trivial⟩
      obtain ⟨nodes, hnodes⟩ := hmade
      exact ⟨_, _, .array hkind hnodes⟩
  | hash =>
      obtain ⟨_, pairs, mid, hpairs, _, rfl⟩ := gives_readPrefix_hash.mp hreads
      obtain ⟨passed, hreaches, hviable, _⟩ := ih.viable (.pairs pairs) hpairs hears
        hgrammar (by simp only [rank, Phrase.rank, left_next]; omega) trivial
      refine ⟨_, hreaches.cons hleft, hviable.map fun tokens next _ hmade => ?_, trivial⟩
      obtain ⟨others, hothers⟩ := hmade
      exact ⟨_, _, .hash hkind hothers⟩

theorem blames_expression {power : Int} {node : Node}
    (ih : BlamesBelow (parser.rank (.expression power node))) :
    parser.Blames (.expression power node) := by
  intro after first hreads hgrammar hfits hears
  rcases gives_readExpression.mp hreads with ⟨_, _, rfl⟩ | ⟨rule, hrule, left, mid, hleft, hrest⟩
  · rw [token_of_hears_report hears]
    refine ⟨[], reaches_current parser, ?_, trivial⟩
    refine Phrase.viable_of_kind .ident (by decide) fun name next hname hnext => ?_
    exact ⟨_, derives_name hname hnext⟩
  have hmid := before_of_reads (.opening rule left) hleft
  have hafter := before_of_reads (.extension power left node) hrest
  have hopens : parser.Fits (.opening rule left) := by rwa [Fits, ← hgrammar]
  have hle := hleft.left_le
  rcases hears.split hmid hafter with hears | ⟨hquiet, hears⟩
  · obtain ⟨passed, hreaches, hviable, _⟩ := ih.viable (.opening rule left) hleft hears
      hgrammar (by simp only [rank, Phrase.rank]; omega) hopens
    refine ⟨_, hreaches, hviable.map fun tokens next hnext hmade => ?_, trivial⟩
    obtain ⟨_, _, hopening⟩ := hmade
    exact ⟨_, Derives.of_opening hopening fun last _ => hnext.1.stops power last⟩
  · obtain ⟨tokens, hpasses, hopening⟩ :=
      parser.sound (.opening rule left) mid hleft hgrammar hopens trivial hquiet
    obtain ⟨passed, hreaches, hviable, more, rfl⟩ := ih.viable (.extension power left node)
      hrest hears (hmid.grammar.trans hgrammar) (by simp only [rank, Phrase.rank]; omega)
      ⟨hpasses.left_after_pos, hfits⟩
    obtain ⟨front, last, rfl⟩ := hpasses.exists_last
    refine ⟨_, hreaches.overlap hpasses, hviable.map fun fill next _ hmade => ?_, trivial⟩
    obtain ⟨result, hextension⟩ := hmade
    rw [hpasses.current] at hextension ⊢
    have hexpression : Derives (.expression power result)
        (front ++ last :: (mid.peek :: more ++ fill)) next := .expression hopening hextension
    exact ⟨_, by simpa using hexpression⟩

/-- An index, up to the token blamed in it. -/
theorem blames_readIndex {power : Int} {left more node : Node}
    (ih : BlamesBelow (8 * parser.left)) (hend : parser.peek.kind ≠ .eof)
    (hgrammar : parser.grammar = .standard)
    (hcontinues : parser.current.continues? parser.peek = some .index)
    (hpower : power < Power.index) (hmore : (parser.next.readInfix .index left).Gives more mid)
    (hears : parser.Hears first mid) : ∃ passed, parser.next.next.Reaches passed first.token ∧
      (Phrase.extension power left node).Viable (parser.current :: parser.peek :: passed) := by
  have hlt : 1 < parser.left := one_lt_left hend
  have hnext : parser.next.left ≠ 0 := by rw [left_next]; omega
  obtain ⟨index, inside, hindex, hclose⟩ := (gives_readInfix_index hnext).mp hmore
  have hinside := before_of_reads (.expression _ index) hindex
  have hafter : inside.Before mid := by
    rcases hclose with ⟨_, _, rfl⟩ | ⟨_, _, rfl⟩
    · exact before_next _
    · exact before_reportPeek _ _
  have hclosed : ∀ {tokens : List Token} {closer next : Token} {position : Node},
      closer.kind = .rbracket → next.Settles →
        Derives (.expression Power.lowest position) tokens closer →
          Derives (.extension power left (.index (some parser.peek) left position))
            (parser.current :: parser.peek :: tokens ++ [closer]) next := by
    intro tokens closer next position hclose hnext hposition
    exact .index hcontinues hpower hclose hposition
      (.stop (hnext.1.stops power closer))
  rcases hears.split (((before_next _).trans (before_next _)).trans hinside) hafter with
    hears | ⟨hquiet, hears⟩
  · obtain ⟨passed, hreaches, hviable, _⟩ := ih.viable (.expression _ index) hindex hears
      hgrammar (by simp only [rank, Phrase.rank, left_next]; omega) (by simp [Fits])
    refine ⟨passed, hreaches, hviable.append .rbracket [] (by decide) (by decide) ?_⟩
    rintro tokens closer _ next hclose hnil hnext ⟨position, hposition⟩
    rw [List.map_eq_nil_iff.mp hnil]
    exact ⟨_, by simpa using hclosed hclose hnext hposition⟩
  · rcases hclose with ⟨_, _, rfl⟩ | ⟨_, _, rfl⟩
    · exact absurd hears (not_hears_of_quiet rfl)
    · rw [token_of_hears_report hears]
      obtain ⟨tokens, hpasses, hderives⟩ :=
        Quiet.expression (show parser.next.next.Quiet inside from hquiet) hindex hgrammar (by simp)
      refine ⟨tokens, Reaches.peek hpasses, ?_⟩
      refine Phrase.viable_of_kind .rbracket (by decide) fun closer next hclose hnext => ?_
      have hsettles : closer.Settles := settles_of_kind (hclose ▸ by decide)
      exact ⟨_, hclosed hclose hnext (hderives closer hsettles)⟩

/-- What continues an expression by a rule, up to the token blamed in it. -/
theorem blames_readInfix {power : Int} {rule : InfixRule} {left more node : Node}
    (ih : BlamesBelow (8 * parser.left)) (hend : parser.peek.kind ≠ .eof)
    (hgrammar : parser.grammar = .standard) (hlowest : Power.lowest ≤ power)
    (hcontinues : parser.current.continues? parser.peek = some rule) (hpower : power < rule.power)
    (hmore : (parser.next.readInfix rule left).Gives more mid) (hears : parser.Hears first mid) :
    ∃ passed, parser.next.next.Reaches passed first.token ∧
      (Phrase.extension power left node).Viable (parser.current :: parser.peek :: passed) := by
  have hlt : 1 < parser.left := one_lt_left hend
  have hnext : parser.next.left ≠ 0 := by rw [left_next]; omega
  cases rule with
  | operator binding right =>
      obtain ⟨operand, _, hoperand, _, rfl⟩ := (gives_readInfix_operator hnext).mp hmore
      obtain ⟨passed, hreaches, hviable, _⟩ := ih.viable (.expression _ operand) hoperand hears
        hgrammar (by simp only [rank, Phrase.rank, left_next]; omega)
        (rightPower_ge hlowest hpower)
      refine ⟨passed, hreaches, hviable.map fun tokens next hnext hmade => ?_⟩
      obtain ⟨result, hresult⟩ := hmade
      -- the expression would go on from the last token of what is filled in
      obtain ⟨front, last, hsplit⟩ := hresult.exists_last
      rw [hsplit] at hresult
      have hextension : Derives (.extension power left _)
          (parser.current :: parser.peek :: front ++ [last]) next :=
        .infixOp hcontinues hpower hresult (.stop (hnext.1.stops power last))
      exact ⟨_, by simpa [hsplit] using hextension⟩
  | call =>
      obtain ⟨arguments, _, harguments, _, rfl⟩ := (gives_readInfix_call hnext).mp hmore
      obtain ⟨passed, hreaches, hviable, _⟩ := ih.viable (.list _ arguments) harguments hears
        hgrammar (by simp only [rank, Phrase.rank, left_next]; omega) (Or.inl rfl)
      refine ⟨passed, hreaches, hviable.map fun tokens next hnext hmade => ?_⟩
      obtain ⟨nodes, hnodes⟩ := hmade
      obtain ⟨front, last, hsplit⟩ := hnodes.exists_last
      rw [hsplit] at hnodes
      have hextension : Derives (.extension power left _)
          (parser.current :: parser.peek :: front ++ [last]) next :=
        .call hcontinues hpower hnodes (.stop (hnext.1.stops power last))
      exact ⟨_, by simpa [hsplit] using hextension⟩
  | index => exact blames_readIndex ih hend hgrammar hcontinues hpower hmore hears

theorem blames_extension {power : Int} {left node : Node}
    (ih : BlamesBelow (parser.rank (.extension power left node))) :
    parser.Blames (.extension power left node) := by
  intro after first hreads hgrammar hfits hears
  obtain ⟨hleft, hlowest⟩ := hfits
  rcases gives_extend.mp hreads with
    ⟨_, _, rfl⟩ | ⟨hend, hpower, rule, hrule, more, mid, hmore, hrest⟩
  · exact absurd hears (not_hears_of_quiet rfl)
  obtain ⟨hcontinues, hpower⟩ := continues_of_power hgrammar hlowest hpower hrule
  have hlt : 1 < parser.left := one_lt_left hend
  have hnext : parser.next.left ≠ 0 := by rw [left_next]; omega
  have hle := hmore.left_le
  rw [left_next] at hle
  have hmid := (before_next parser).trans (before_readInfix (forwardBelow _) hnext hmore)
  have hafter := before_of_reads (.extension power more node) hrest
  rcases hears.split hmid hafter with hears | ⟨hquiet, hears⟩
  · obtain ⟨passed, hreaches, hviable⟩ :=
      blames_readInfix ih hend hgrammar hlowest hcontinues hpower hmore hears
    exact ⟨_, (hreaches.cons hnext).cons hleft, hviable, _, rfl⟩
  · obtain ⟨tokens, last, hpasses, hextends⟩ := extends_of_quiet (soundBelow _) hend hgrammar
      hlowest hcontinues hpower hmore hquiet
    obtain ⟨passed, hreaches, hviable, others, rfl⟩ := ih.viable (.extension power more node)
      hrest hears (hmid.grammar.trans hgrammar) (by simp only [rank, Phrase.rank]; omega)
      ⟨hpasses.left_after_pos, hlowest⟩
    have hwhole := ((hreaches.overlap hpasses).cons hnext).cons hleft
    refine ⟨parser.current :: parser.peek :: (tokens ++ mid.current :: mid.peek :: others), hwhole,
      hviable.map fun fill next _ hmade => ?_, _, rfl⟩
    obtain ⟨result, hresult⟩ := hmade
    rw [hpasses.current] at hresult ⊢
    exact ⟨_, by simpa using hextends _ next result rfl hresult⟩

/-- The block of an if whose condition is closed, and what comes behind it. -/
theorem blames_consequence {condition node : Node} {test : List Token}
    (ih : BlamesBelow (parser.rank (.conditional node))) (hkind : parser.current.kind = .ifWord)
    (hopen : parser.peek.kind = .lparen) (hclose : mid.peek.kind = .rparen)
    (htest : Derives (.expression Power.lowest condition) test mid.peek)
    (hcloser : parser.Passes (parser.current :: parser.peek :: test ++ [mid.peek]) mid.next)
    (hgrammar : mid.grammar = .standard) (hle : mid.left < parser.left)
    (hrest : mid.next.peek.kind ≠ .lbrace ∧ .missing = node ∧ mid.next.reportPeek .lbrace = after ∨
      mid.next.peek.kind = .lbrace ∧ ∃ consequence last,
        mid.next.next.readBlock.Gives consequence last ∧
          (last.readElse parser.current condition consequence).Gives node after)
    (hears : mid.Hears first after) :
    ∃ passed, parser.Reaches passed first.token ∧ (Phrase.conditional node).Viable passed := by
  rcases hrest with ⟨_, _, rfl⟩ | ⟨hbrace, body, last, hbody, helse⟩
  · rw [token_of_hears_report (show mid.next.Hears first _ from hears)]
    refine ⟨_, Reaches.peek hcloser, ?_⟩
    refine Phrase.viable_of_kinds [.lbrace, .rbrace] (by decide) ?_
    intro tokens next htokens hnext
    simp only [List.map_eq_cons_iff, List.map_eq_nil_iff] at htokens
    obtain ⟨brace, _, rfl, hbrace, last, _, rfl, hlast, rfl⟩ := htokens
    have hif := derives_noElse hkind hopen hclose htest (derives_emptyBlock hbrace hlast) hnext
    exact ⟨_, by simpa using hif⟩
  have hinside := (before_next mid).trans (before_next _)
  have hblock := before_of_reads (.block body) hbody
  have hle' := hbody.left_le
  rw [left_next, left_next] at hle'
  have hgrammar' := hinside.grammar.trans hgrammar
  rcases hears.split (hinside.trans hblock) (before_of_reads (.otherwise _ _ _ node) helse) with
    hears | ⟨hquiet, hears⟩
  · obtain ⟨passed, hreaches, hviable, _⟩ := ih.viable (.block body) hbody hears hgrammar'
      (by simp only [rank, Phrase.rank, left_next]; omega) hbrace
    refine ⟨_, hreaches.append hcloser, hviable.map fun tokens next hnext hmade => ?_⟩
    obtain ⟨consequence, hconsequence⟩ := hmade
    have hif := derives_noElse hkind hopen hclose htest hconsequence hnext
    exact ⟨_, by simpa using hif⟩
  · obtain ⟨tokens, hpasses, hconsequence⟩ := Parser.sound mid.next.next (.block body) last hbody
      hgrammar' hbrace trivial hquiet
    obtain ⟨passed, hreaches, hviable, others, rfl⟩ := ih.viable (.otherwise _ _ _ node) helse
      hears (hblock.grammar.trans hgrammar') (by simp only [rank, Phrase.rank]; omega)
      hpasses.left_after_pos
    obtain ⟨front, final, rfl⟩ := hpasses.exists_last
    refine ⟨_, (hreaches.overlap hpasses).append hcloser, hviable.map fun fill next _ hmade => ?_⟩
    obtain ⟨result, hresult⟩ := hmade
    rw [hpasses.current] at hresult ⊢
    have hif : Derives (.conditional result) (parser.current :: parser.peek :: test ++
        mid.peek :: front ++ final :: (last.peek :: others ++ fill)) next :=
      .ifElse hkind hopen hclose htest hconsequence hresult
    exact ⟨_, by simpa using hif⟩

theorem blames_conditional {node : Node} (ih : BlamesBelow (parser.rank (.conditional node))) :
    parser.Blames (.conditional node) := by
  intro after first hreads hgrammar hkind hears
  have hleft : parser.left ≠ 0 := Nat.ne_of_gt (Parser.left_pos (by rw [hkind]; decide))
  rcases gives_readIf.mp hreads with ⟨_, _, rfl⟩ | ⟨hopen, condition, mid, hcondition, hrest⟩
  · rw [token_of_hears_report hears]
    refine ⟨_, reaches_peek hleft, ?_, trivial⟩
    refine Phrase.viable_of_kinds [.lparen, .ident, .rparen, .lbrace, .rbrace] (by decide) ?_
    intro tokens next htokens hnext
    simp only [List.map_eq_cons_iff, List.map_eq_nil_iff] at htokens
    obtain ⟨opener, _, rfl, hopen, name, _, rfl, hname, closer, _, rfl, hclose, brace, _, rfl,
      hbrace, last, _, rfl, hlast, rfl⟩ := htokens
    have hsettles : closer.Settles := settles_of_kind (hclose ▸ by decide)
    exact ⟨_, derives_noElse hkind hopen hclose (derives_name hname hsettles)
      (derives_emptyBlock hbrace hlast) hnext⟩
  have hlt : 1 < parser.left := one_lt_left (by simp [hopen])
  have hle := hcondition.left_le
  rw [left_next, left_next] at hle
  have hopener := passes_next parser (by simp [hopen])
  have hbefore := before_of_reads (.expression _ condition) hcondition
  have hmid := ((before_next _).trans (before_next _)).trans hbefore
  have hafter : mid.Before after := by
    rcases hrest with ⟨_, _, rfl⟩ | ⟨_, ⟨_, _, rfl⟩ | ⟨_, body, last, hbody, helse⟩⟩
    · exact before_reportPeek _ _
    · exact (before_next _).trans (before_reportPeek _ _)
    · exact (((before_next _).trans (before_next _)).trans
        (before_of_reads (.block body) hbody)).trans (before_of_reads (.otherwise _ _ _ node) helse)
  rcases hears.split hmid hafter with hears | ⟨hquiet, hears⟩
  · obtain ⟨passed, hreaches, hviable, _⟩ := ih.viable (.expression _ condition) hcondition
      hears hgrammar (by simp only [rank, Phrase.rank, left_next]; omega) (by simp [Fits])
    refine ⟨_, (hreaches.append hopener).cons hleft,
      hviable.append .rparen [.lbrace, .rbrace] (by decide) (by decide) ?_, trivial⟩
    rintro tokens closer closing next hclose hclosing hnext ⟨test, htest⟩
    simp only [List.map_eq_cons_iff, List.map_eq_nil_iff] at hclosing
    obtain ⟨brace, _, rfl, hbrace, last, _, rfl, hlast, rfl⟩ := hclosing
    have hif := derives_noElse hkind hopen hclose htest (derives_emptyBlock hbrace hlast) hnext
    exact ⟨_, by simpa using hif⟩
  obtain ⟨test, hpasses, htest⟩ :=
    Quiet.expression (show parser.next.next.Quiet mid from hquiet) hcondition hgrammar (by simp)
  have hfront := (hopener.append hpasses).cons hleft
  rcases hrest with ⟨_, _, rfl⟩ | ⟨hclose, hrest⟩
  · rw [token_of_hears_report hears]
    refine ⟨_, Reaches.peek hfront, ?_, trivial⟩
    refine Phrase.viable_of_kinds [.rparen, .lbrace, .rbrace] (by decide) ?_
    intro tokens next htokens hnext
    simp only [List.map_eq_cons_iff, List.map_eq_nil_iff] at htokens
    obtain ⟨closer, _, rfl, hclose, brace, _, rfl, hbrace, last, _, rfl, hlast, rfl⟩ := htokens
    have hsettles : closer.Settles := settles_of_kind (hclose ▸ by decide)
    have hif := derives_noElse hkind hopen hclose (htest closer hsettles)
      (derives_emptyBlock hbrace hlast) hnext
    exact ⟨_, by simpa using hif⟩
  have hsettles : mid.peek.Settles := settles_of_kind (hclose ▸ by decide)
  have hcloser := hfront.append (passes_next mid (by simp [hclose]))
  obtain ⟨passed, hreaches, hviable⟩ := blames_consequence ih hkind hopen hclose
    (htest mid.peek hsettles) hcloser (hmid.grammar.trans hgrammar) (by omega) hrest hears
  exact ⟨passed, hreaches, hviable, trivial⟩

theorem blames_otherwise {token : Token} {condition consequence node : Node}
    (ih : BlamesBelow (parser.rank (.otherwise token condition consequence node))) :
    parser.Blames (.otherwise token condition consequence node) := by
  intro after first hreads hgrammar hleft hears
  rcases gives_readElse.mp hreads with ⟨_, _, rfl⟩ | ⟨hword, hrest⟩
  · exact absurd hears (not_hears_of_quiet rfl)
  have hlt : 1 < parser.left := one_lt_left (by simp [hword])
  have hworded := passes_next parser (by simp [hword])
  rcases hrest with ⟨hbrace, alternative, hblock, _⟩ | ⟨hif, alternative, hcond, _⟩ |
      ⟨_, _, _, rfl⟩
  · obtain ⟨passed, hreaches, hviable, _⟩ := ih.viable (.block alternative) hblock hears
      hgrammar (by simp only [rank, Phrase.rank, left_next]; omega) hbrace
    refine ⟨_, (hreaches.append hworded).cons hleft,
      hviable.map fun tokens next _ hmade => ?_, _, rfl⟩
    obtain ⟨result, hresult⟩ := hmade
    exact ⟨_, .elseBlock hword hresult⟩
  · obtain ⟨passed, hreaches, hviable, _⟩ := ih.viable (.conditional alternative) hcond hears
      hgrammar (by simp only [rank, Phrase.rank, left_next]; omega) hif
    refine ⟨_, (hreaches.append hworded).cons hleft,
      hviable.map fun tokens next _ hmade => ?_, _, rfl⟩
    obtain ⟨result, hresult⟩ := hmade
    exact ⟨_, .elseIf hword hresult⟩
  · rw [token_of_hears_report (show parser.next.Hears first _ from hears)]
    refine ⟨_, (Reaches.peek hworded).cons hleft, ?_, _, rfl⟩
    refine Phrase.viable_of_kinds [.lbrace, .rbrace] (by decide) fun tokens next htokens _ => ?_
    simp only [List.map_eq_cons_iff, List.map_eq_nil_iff] at htokens
    obtain ⟨brace, _, rfl, hbrace, last, _, rfl, hlast, rfl⟩ := htokens
    exact ⟨_, .elseBlock hword (derives_emptyBlock hbrace hlast)⟩

theorem blames_elements {close : Kind} {nodes : Option (List Node)}
    (ih : BlamesBelow (parser.rank (.elements close nodes))) :
    parser.Blames (.elements close nodes) := by
  intro after first hreads hgrammar hfits hears
  have hclose : close ∈ Kind.settlers ∧ ∀ kind ∈ [close], kind ∈ Kind.fillers := by
    rcases hfits with rfl | rfl <;> decide
  obtain ⟨element, mid, helement, hrest⟩ := gives_readElements.mp hreads
  have hmid := before_of_reads (.expression _ element) helement
  have hle := helement.left_le
  have hafter : mid.Before after := by
    rcases hrest with ⟨_, rest, hrest, _⟩ | ⟨_, _, _, rfl⟩ | ⟨_, _, _, rfl⟩
    · exact ((before_next _).trans (before_next _)).trans
        (before_of_reads (.elements close rest) hrest)
    · exact before_next _
    · exact before_reportPeek _ _
  rcases hears.split hmid hafter with hears | ⟨hquiet, hears⟩
  · obtain ⟨passed, hreaches, hviable, _⟩ := ih.viable (.expression _ element) helement hears
      hgrammar (by simp only [rank, Phrase.rank]; omega) (by simp [Fits])
    refine ⟨passed, hreaches, hviable.append close [] hclose.1 hclose.2 ?_, trivial⟩
    rintro tokens closer _ next hkind hnil _ ⟨result, hresult⟩
    rw [List.map_eq_nil_iff.mp hnil, ← List.append_assoc]
    exact ⟨_, .lastElement hkind hresult⟩
  obtain ⟨tokens, hpasses, hderives⟩ := hquiet.expression helement hgrammar (by simp)
  rcases hrest with ⟨hcomma, rest, hrest, _⟩ | ⟨_, _, _, rfl⟩ | ⟨_, _, _, rfl⟩
  · have hlt : 1 < mid.left := one_lt_left (by simp [hcomma])
    have hnext := (hmid.trans (before_next _)).trans (before_next _)
    obtain ⟨passed, hreaches, hviable, _⟩ := ih.viable (.elements close rest) hrest hears
      (hnext.grammar.trans hgrammar) (by simp only [rank, Phrase.rank, left_next]; omega) hfits
    have hfront := hpasses.append (passes_next mid (by simp [hcomma]))
    refine ⟨_, hreaches.append hfront, hviable.map fun fill next _ hmade => ?_, trivial⟩
    obtain ⟨others, hothers⟩ := hmade
    have hsettles : mid.peek.Inert := inert_of_kind _ (by simp [hcomma])
    have helements : Derives (.elements close _) _ next :=
      .moreElements hcomma (hderives mid.peek ⟨hsettles, by simp [hcomma]⟩) hothers
    exact ⟨_, by simpa using helements⟩
  · exact absurd hears (not_hears_of_quiet rfl)
  · rw [token_of_hears_report hears]
    refine ⟨tokens, Reaches.peek hpasses, ?_, trivial⟩
    refine Phrase.viable_of_kind close (hclose.2 close (by simp)) fun closer next hkind _ => ?_
    exact ⟨_, .lastElement hkind (hderives closer (settles_of_kind (hkind ▸ hclose.1)))⟩

theorem blames_list {close : Kind} {nodes : Option (List Node)}
    (ih : BlamesBelow (parser.rank (.list close nodes))) : parser.Blames (.list close nodes) := by
  intro after first hreads hgrammar hfits hears
  rcases gives_readList.mp hreads with ⟨_, _, rfl⟩ | ⟨_, helements⟩
  · exact absurd hears (not_hears_of_quiet rfl)
  · obtain ⟨passed, hreaches, hviable, _⟩ := ih.viable (.elements close nodes) helements hears
      hgrammar (by simp only [rank, Phrase.rank]; omega) hfits
    refine ⟨passed, hreaches, hviable.map fun tokens next _ hmade => ?_, trivial⟩
    obtain ⟨elements, hresult⟩ := hmade
    exact ⟨_, .list hresult⟩

/-- The value of a pair whose key is passed with its colon, and the pairs behind it. -/
theorem blames_value {key value : Node} {pairs : Option (List (Node × Node))} {last : Parser}
    {keys : List Token} (ih : BlamesBelow (parser.rank (.pairs pairs)))
    (hcolon : mid.peek.kind = .colon)
    (hkeys : Derives (.expression Power.lowest key) keys mid.peek)
    (hcoloned : parser.Passes (keys ++ [mid.peek]) mid.next) (hgrammar : mid.grammar = .standard)
    (hle : mid.left ≤ parser.left)
    (hvalue : (mid.next.next.readExpression Power.lowest).Gives value last)
    (hrest : last.peek.kind = .rbrace ∧ some [(key, value)] = pairs ∧ last.next = after ∨
      (last.peek.kind = .comma ∧ ∃ rest, last.next.next.readPairs.Gives rest after ∧
        rest.map ((key, value) :: ·) = pairs) ∨
      (last.peek.kind ≠ .rbrace ∧ last.peek.kind ≠ .comma ∧ none = pairs ∧
        last.reportPeek .comma = after))
    (hears : mid.Hears first after) :
    ∃ passed, parser.Reaches passed first.token ∧ (Phrase.pairs pairs).Viable passed := by
  have hlt : 1 < mid.left := one_lt_left (by simp [hcolon])
  have hle' := hvalue.left_le
  rw [left_next, left_next] at hle'
  have hnext := (before_next mid).trans (before_next _)
  have hlast := before_of_reads (.expression _ value) hvalue
  have hafter : last.Before after := by
    rcases hrest with ⟨_, _, rfl⟩ | ⟨_, rest, hrest, _⟩ | ⟨_, _, _, rfl⟩
    · exact before_next _
    · exact ((before_next _).trans (before_next _)).trans (before_of_reads (.pairs rest) hrest)
    · exact before_reportPeek _ _
  rcases hears.split (hnext.trans hlast) hafter with hears | ⟨hquiet, hears⟩
  · obtain ⟨passed, hreaches, hviable, _⟩ := ih.viable (.expression _ value) hvalue hears
      (hnext.grammar.trans hgrammar) (by simp only [rank, Phrase.rank, left_next]; omega)
      (by simp [Fits])
    refine ⟨_, hreaches.append hcoloned, hviable.append .rbrace [] (by decide) (by decide) ?_⟩
    rintro tokens closer _ next hclose hnil _ ⟨result, hresult⟩
    rw [List.map_eq_nil_iff.mp hnil]
    have hpair : Derives (.pairs _) _ next := .lastPair hcolon hclose hkeys hresult
    exact ⟨_, by simpa using hpair⟩
  obtain ⟨values, hpasses, hderives⟩ := Quiet.expression (show mid.next.next.Quiet last from
    hquiet) hvalue (hnext.grammar.trans hgrammar) (by simp)
  have hfront := hcoloned.append hpasses
  rcases hrest with ⟨_, _, rfl⟩ | ⟨hcomma, rest, hrest, _⟩ | ⟨_, _, _, rfl⟩
  · exact absurd hears (not_hears_of_quiet rfl)
  · have hmore := ((hnext.trans hlast).trans (before_next _)).trans (before_next _)
    obtain ⟨passed, hreaches, hviable, _⟩ := ih.viable (.pairs rest) hrest hears
      (hmore.grammar.trans hgrammar) (by simp only [rank, Phrase.rank, left_next]; omega) trivial
    have hinert : last.peek.Inert := inert_of_kind _ (by simp [hcomma])
    have hvalues := hderives last.peek ⟨hinert, by simp [hcomma]⟩
    refine ⟨_, hreaches.append (hfront.append (passes_next last (by simp [hcomma]))),
      hviable.map fun fill next _ hmade => ?_⟩
    obtain ⟨others, hothers⟩ := hmade
    have hpairs : Derives (.pairs _) _ next := .morePairs hcolon hcomma hkeys hvalues hothers
    exact ⟨_, by simpa using hpairs⟩
  · rw [token_of_hears_report hears]
    refine ⟨_, Reaches.peek hfront, ?_⟩
    refine Phrase.viable_of_kind .rbrace (by decide) fun closer next hclose _ => ?_
    have hvalues := hderives closer (settles_of_kind (hclose ▸ by decide))
    have hpair : Derives (.pairs _) _ next := .lastPair hcolon hclose hkeys hvalues
    exact ⟨_, by simpa using hpair⟩

theorem blames_pairs {pairs : Option (List (Node × Node))}
    (ih : BlamesBelow (parser.rank (.pairs pairs))) : parser.Blames (.pairs pairs) := by
  intro after first hreads hgrammar _ hears
  rcases gives_readPairs.mp hreads with ⟨_, _, rfl⟩ | ⟨_, key, mid, hkey, hrest⟩
  · exact absurd hears (not_hears_of_quiet rfl)
  have hle := hkey.left_le
  have hmid := before_of_reads (.expression _ key) hkey
  have hafter : mid.Before after := by
    rcases hrest with ⟨_, _, rfl⟩ | ⟨_, value, last, hvalue, hrest⟩
    · exact before_reportPeek _ _
    have hlast := ((before_next mid).trans (before_next _)).trans
      (before_of_reads (.expression _ value) hvalue)
    rcases hrest with ⟨_, _, rfl⟩ | ⟨_, rest, hrest, _⟩ | ⟨_, _, _, rfl⟩
    · exact hlast.trans (before_next _)
    · exact ((hlast.trans (before_next _)).trans (before_next _)).trans
        (before_of_reads (.pairs rest) hrest)
    · exact hlast.trans (before_reportPeek _ _)
  rcases hears.split hmid hafter with hears | ⟨hquiet, hears⟩
  · obtain ⟨passed, hreaches, hviable, _⟩ := ih.viable (.expression _ key) hkey hears
      hgrammar (by simp only [rank, Phrase.rank]; omega) (by simp [Fits])
    refine ⟨passed, hreaches,
      hviable.append .colon [.ident, .rbrace] (by decide) (by decide) ?_, trivial⟩
    rintro tokens colon closing next hcolon hclosing _ ⟨result, hresult⟩
    simp only [List.map_eq_cons_iff, List.map_eq_nil_iff] at hclosing
    obtain ⟨name, _, rfl, hname, closer, _, rfl, hclose, rfl⟩ := hclosing
    have hsettles : closer.Settles := settles_of_kind (hclose ▸ by decide)
    have hpair : Derives (.pairs _) _ next :=
      .lastPair hcolon hclose hresult (derives_name hname hsettles)
    exact ⟨_, by simpa using hpair⟩
  obtain ⟨keys, hpasses, hderives⟩ := hquiet.expression hkey hgrammar (by simp)
  rcases hrest with ⟨_, _, rfl⟩ | ⟨hcolon, value, last, hvalue, hrest⟩
  · rw [token_of_hears_report hears]
    refine ⟨keys, Reaches.peek hpasses, ?_, trivial⟩
    refine Phrase.viable_of_kinds [.colon, .ident, .rbrace] (by decide) ?_
    intro tokens next htokens _
    simp only [List.map_eq_cons_iff, List.map_eq_nil_iff] at htokens
    obtain ⟨colon, _, rfl, hcolon, name, _, rfl, hname, closer, _, rfl, hclose, rfl⟩ := htokens
    have hsettles : closer.Settles := settles_of_kind (hclose ▸ by decide)
    have hkeys := hderives colon (settles_of_kind (hcolon ▸ by decide))
    have hpair : Derives (.pairs _) _ next :=
      .lastPair hcolon hclose hkeys (derives_name hname hsettles)
    exact ⟨_, by simpa using hpair⟩
  have hkeys := hderives mid.peek (settles_of_kind (hcolon ▸ by decide))
  have hcoloned := hpasses.append (passes_next mid (by simp [hcolon]))
  obtain ⟨passed, hreaches, hviable⟩ := blames_value ih hcolon hkeys hcoloned
    (hmid.grammar.trans hgrammar) hle hvalue hrest hears
  exact ⟨passed, hreaches, hviable, trivial⟩

/-- A statement, and the statements behind it up to the token blamed.  If none of them is there
yet, the statement need not stand in front of the token blamed. -/
theorem viable_body {statement : Option Node} {rest statements : List Node}
    (hstatement : Derives (.statement statement) tokens mid.peek)
    (hreaches : mid.next.Reaches passed token) (hviable : (Phrase.body rest).Viable passed) :
    (Phrase.body statements).Viable (tokens ++ passed) := by
  cases passed with
  | nil =>
      refine Phrase.viable_of_kind .rbrace (by decide) fun closer next hclose _ => ?_
      have hsettles : closer.Settles := settles_of_kind (hclose ▸ by decide)
      have hbody : Derives (.body _) (tokens ++ closer :: []) next :=
        .body (hstatement.statement_carries hsettles) (.emptyBody hclose)
      exact ⟨_, by simpa using hbody⟩
  | cons head others =>
      refine hviable.map fun fill next _ hmade => ?_
      obtain ⟨result, hresult⟩ := hmade
      rw [show mid.peek = head from hreaches.head] at hstatement
      have hbody : Derives (.body _) (tokens ++ head :: (others ++ fill)) next :=
        .body hstatement hresult
      exact ⟨_, by simpa using hbody⟩

/-- The statements of a block that runs into the end of the text. -/
theorem viable_unclosed {parser after : Parser} {statements : List Node}
    (h : parser.readBody.Gives statements after) (hgrammar : parser.grammar = .standard)
    (hquiet : parser.Quiet after) (hend : after.current.kind = .eof) :
    ∃ passed, parser.Reaches passed after.current ∧ (Phrase.body statements).Viable passed := by
  induction hleft : parser.left using Nat.strongRecOn generalizing parser statements with
  | _ count ih =>
      rcases gives_readBody.mp h with
        ⟨_, _, rfl⟩ | ⟨_, hmore, statement, mid, hread, rest, hrest, _⟩
      · refine ⟨[], reaches_current parser, ?_⟩
        refine Phrase.viable_of_kind .rbrace (by decide) fun closer next hclose _ => ?_
        exact ⟨_, .emptyBody hclose⟩
      · have hpos := Parser.left_pos hmore
        have hle := hread.left_le
        have hmid := (before_of_reads (.statement statement) hread).trans (before_next _)
        obtain ⟨hquiet₁, hquiet₂⟩ := hquiet.of_reads hmid (.body rest) hrest
        obtain ⟨tokens, hpasses, hstatement⟩ :=
          parser.sound (.statement statement) mid hread hgrammar trivial trivial hquiet₁
        obtain ⟨passed, hreaches, hviable⟩ := ih mid.next.left (by rw [left_next]; omega)
          hrest (hmid.grammar.trans hgrammar) hquiet₂ rfl
        exact ⟨_, hreaches.append hpasses, viable_body hstatement hreaches hviable⟩

theorem blames_block {node : Node} (ih : BlamesBelow (parser.rank (.block node))) :
    parser.Blames (.block node) := by
  intro after first hreads hgrammar hkind hears
  have hleft : parser.left ≠ 0 := Nat.ne_of_gt (Parser.left_pos (by rw [hkind]; decide))
  obtain ⟨statements, mid, hbody, _, hend⟩ := gives_readBlock.mp hreads
  have hmid := (before_next parser).trans (before_of_reads (.body statements) hbody)
  have hafter : mid.Before after := by
    rcases hend with ⟨_, rfl⟩ | ⟨_, rfl⟩
    · exact Before.refl _
    · exact before_report _ _ _
  have hblock : ∀ {passed}, (Phrase.body statements).Viable passed →
      (Phrase.block node).Viable (parser.current :: passed) := by
    intro passed hviable
    refine hviable.map fun fill next _ hmade => ?_
    obtain ⟨result, hresult⟩ := hmade
    exact ⟨_, .block hkind hresult⟩
  rcases hears.split hmid hafter with hears | ⟨hquiet, hears⟩
  · obtain ⟨passed, hreaches, hviable, _⟩ := ih.viable (.body statements) hbody hears hgrammar
      (by simp only [rank, Phrase.rank, left_next]; omega) trivial
    exact ⟨_, hreaches.cons hleft, hblock hviable, trivial⟩
  · rcases hend with ⟨_, rfl⟩ | ⟨hend, rfl⟩
    · exact absurd hears (not_hears_of_quiet rfl)
    · rw [token_of_hears_report hears]
      obtain ⟨passed, hreaches, hviable⟩ := viable_unclosed hbody hgrammar hquiet hend
      exact ⟨_, hreaches.cons hleft, hblock hviable, trivial⟩

theorem blames_body {statements : List Node}
    (ih : BlamesBelow (parser.rank (.body statements))) : parser.Blames (.body statements) := by
  intro after first hreads hgrammar _ hears
  rcases gives_readBody.mp hreads with
    ⟨_, _, rfl⟩ | ⟨_, hmore, statement, mid, hread, rest, hrest, _⟩
  · exact absurd hears (not_hears_of_quiet rfl)
  have hpos := Parser.left_pos hmore
  have hle := hread.left_le
  have hmid := before_of_reads (.statement statement) hread
  have hafter := (before_next mid).trans (before_of_reads (.body rest) hrest)
  rcases hears.split hmid hafter with hears | ⟨hquiet, hears⟩
  · obtain ⟨passed, hreaches, hviable, _⟩ := ih.viable (.statement statement) hread hears
      hgrammar (by simp only [rank, Phrase.rank]; omega) trivial
    refine ⟨passed, hreaches, hviable.append .rbrace [] (by decide) (by decide) ?_, trivial⟩
    rintro tokens closer _ next hclose hnil _ ⟨result, hresult⟩
    rw [List.map_eq_nil_iff.mp hnil]
    have hbody : Derives (.body _) _ next := .body hresult (.emptyBody hclose)
    exact ⟨_, by simpa using hbody⟩
  · obtain ⟨tokens, hpasses, hstatement⟩ :=
      parser.sound (.statement statement) mid hread hgrammar trivial trivial hquiet
    obtain ⟨passed, hreaches, hviable, _⟩ := ih.viable (.body rest) hrest hears
      (hmid.grammar.trans hgrammar) (by simp only [rank, Phrase.rank, left_next]; omega) trivial
    exact ⟨_, hreaches.append hpasses, viable_body hstatement hreaches hviable, trivial⟩

theorem blames_let {statement : Option Node} (hkind : parser.current.kind = .letWord)
    (ih : BlamesBelow (parser.rank (.sentence statement))) (hgrammar : parser.grammar = .standard)
    (hread : parser.readLet.Gives statement after) (hears : parser.Hears first after) :
    ∃ passed, parser.Reaches passed first.token ∧ (Phrase.sentence statement).Viable passed := by
  have hleft : parser.left ≠ 0 := Nat.ne_of_gt (Parser.left_pos (by rw [hkind]; decide))
  rcases gives_readLet.mp hread with ⟨_, _, rfl⟩ | ⟨hname, hrest⟩
  · rw [token_of_hears_report hears]
    refine ⟨_, reaches_peek hleft, ?_⟩
    refine Phrase.viable_of_kinds [.ident, .assign, .ident] (by decide) ?_
    intro tokens next htokens hnext
    simp only [List.map_eq_cons_iff, List.map_eq_nil_iff] at htokens
    obtain ⟨name, _, rfl, hname, assign, _, rfl, hassign, value, _, rfl, hvalue, rfl⟩ := htokens
    exact ⟨_, .letSentence hkind hname hassign (derives_name hvalue hnext)⟩
  have hnamed := (passes_next parser (by simp [hname])).cons hleft
  rcases hrest with ⟨_, _, rfl⟩ | ⟨hassign, value, hvalue, _⟩
  · rw [token_of_hears_report (show parser.next.Hears first _ from hears)]
    refine ⟨_, Reaches.peek hnamed, ?_⟩
    refine Phrase.viable_of_kinds [.assign, .ident] (by decide) fun tokens next htokens hnext => ?_
    simp only [List.map_eq_cons_iff, List.map_eq_nil_iff] at htokens
    obtain ⟨assign, _, rfl, hassign, value, _, rfl, hvalue, rfl⟩ := htokens
    exact ⟨_, .letSentence hkind hname hassign (derives_name hvalue hnext)⟩
  · obtain ⟨passed, hreaches, hviable, _⟩ := ih.viable (.expression _ value) hvalue hears
      hgrammar (by simp only [rank, Phrase.rank, left_next]; omega) (by simp [Fits])
    have hassigned := hnamed.append (passes_next parser.next (by simp [hassign]))
    refine ⟨_, hreaches.append hassigned, hviable.map fun tokens next _ hmade => ?_⟩
    obtain ⟨result, hresult⟩ := hmade
    exact ⟨_, .letSentence hkind hname hassign hresult⟩

theorem blames_sentence {statement : Option Node}
    (ih : BlamesBelow (parser.rank (.sentence statement))) :
    parser.Blames (.sentence statement) := by
  intro after first hreads hgrammar _ hears
  simp only [Reads, GivesSentence] at hreads
  split at hreads
  · next hkind =>
    obtain ⟨passed, hreaches, hviable⟩ := blames_let hkind ih hgrammar hreads hears
    exact ⟨passed, hreaches, hviable, trivial⟩
  · next hkind =>
    have hleft : parser.left ≠ 0 := Nat.ne_of_gt (Parser.left_pos (by rw [hkind]; decide))
    obtain ⟨node, hnode, _⟩ := hreads
    obtain ⟨value, hvalue, _⟩ := gives_readReturn.mp hnode
    obtain ⟨passed, hreaches, hviable, _⟩ := ih.viable (.expression _ value) hvalue hears
      hgrammar (by simp only [rank, Phrase.rank, left_next]; omega) (by simp [Fits])
    refine ⟨_, hreaches.cons hleft, hviable.map fun tokens next _ hmade => ?_, trivial⟩
    obtain ⟨result, hresult⟩ := hmade
    exact ⟨_, .returnSentence hkind hresult⟩
  · obtain ⟨_, rfl⟩ := hreads
    exact absurd hears (not_hears_of_quiet rfl)
  · obtain ⟨node, hnode, _⟩ := hreads
    obtain ⟨passed, hreaches, hviable, _⟩ := ih.viable (.expression _ node) hnode hears
      hgrammar (by simp only [rank, Phrase.rank]; omega) (by simp [Fits])
    refine ⟨passed, hreaches, hviable.map fun tokens next _ hmade => ?_, trivial⟩
    obtain ⟨result, hresult⟩ := hmade
    obtain ⟨head, others, hall⟩ := List.exists_cons_of_ne_nil hresult.ne_nil
    rw [hall] at hresult ⊢
    exact ⟨_, .exprSentence hresult⟩

theorem blames_statement {statement : Option Node}
    (ih : BlamesBelow (parser.rank (.statement statement))) :
    parser.Blames (.statement statement) := by
  intro after first hreads hgrammar _ hears
  obtain ⟨mid, hsentence, hend⟩ := gives_readStatement.mp hreads
  have hmid : parser.Hears first mid := by
    rcases hend with ⟨_, _, rfl⟩ | ⟨_, rfl⟩
    · exact hears
    · exact hears
  obtain ⟨passed, hreaches, hviable, _⟩ := ih.viable (.sentence statement) hsentence hmid
    hgrammar (by simp only [rank, Phrase.rank]; omega) trivial
  refine ⟨passed, hreaches, hviable.map fun tokens next hnext hmade => ?_, trivial⟩
  obtain ⟨result, hresult⟩ := hmade
  exact ⟨_, .bare (fun _ => hnext.2) hresult⟩

end Blames

/-- Up to the token that its first diagnostic blames, a reading can be completed. -/
theorem blames (parser : Parser) (phrase : Phrase) : parser.Blames phrase := by
  induction parser, phrase using rank_induction with
  | step parser phrase ih =>
      cases phrase with
      | expression power node => exact blames_expression ih
      | opening rule node => exact blames_opening ih
      | extension power left node => exact blames_extension ih
      | conditional node => exact blames_conditional ih
      | otherwise token condition consequence node => exact blames_otherwise ih
      | list close nodes => exact blames_list ih
      | elements close nodes => exact blames_elements ih
      | pairs pairs => exact blames_pairs ih
      | block node => exact blames_block ih
      | body statements => exact blames_body ih
      | sentence statement => exact blames_sentence ih
      | statement statement => exact blames_statement ih

/-- The statements of a text, up to the token that the first diagnostic blames, can be completed
to a run of statements. -/
theorem blames_readStatements {parser after : Parser} {statements : List Node}
    (h : parser.readStatements.Gives statements after) (hgrammar : parser.grammar = .standard)
    (hears : parser.Hears first after) :
    ∃ passed kinds, parser.Reaches passed first.token ∧ (∀ kind ∈ kinds, kind ∈ Kind.fillers) ∧
      ∀ tokens (next : Token), tokens.map Token.kind = kinds → next.kind = .eof →
        ∃ all, DerivesAll all (passed ++ tokens) next := by
  induction hleft : parser.left using Nat.strongRecOn generalizing parser statements with
  | _ count ih =>
      rcases gives_readStatements.mp h with
        ⟨_, _, rfl⟩ | ⟨hmore, statement, mid, hread, rest, hrest, _⟩
      · exact absurd hears (not_hears_of_quiet rfl)
      have hpos := Parser.left_pos hmore
      have hle := hread.left_le
      have hmid := before_of_reads (.statement statement) hread
      have hafter := (before_next mid).trans (before_readStatements hrest)
      have hsettles : ∀ {next : Token}, next.kind = .eof → next.Settles := fun hend =>
        settles_of_kind (hend ▸ by decide)
      rcases hears.split hmid hafter with hears | ⟨hquiet, hears⟩
      · obtain ⟨passed, hreaches, ⟨kinds, hkinds, hfilled⟩, _⟩ :=
          parser.blames (.statement statement) mid first hread hgrammar trivial hears
        refine ⟨passed, kinds, hreaches, hkinds, fun tokens next htokens hend => ?_⟩
        obtain ⟨result, hresult⟩ := hfilled tokens next htokens (hsettles hend)
        have hall : DerivesAll _ ((passed ++ tokens) ++ []) next := .cons hresult .nil
        exact ⟨_, by simpa using hall⟩
      · obtain ⟨front, hpasses, hstatement⟩ :=
          parser.sound (.statement statement) mid hread hgrammar trivial trivial hquiet
        obtain ⟨passed, kinds, hreaches, hkinds, hfilled⟩ := ih mid.next.left
          (by rw [left_next]; omega) hrest (hmid.grammar.trans hgrammar) hears rfl
        cases passed with
        | nil =>
            refine ⟨_, [], hreaches.append hpasses, by simp, fun tokens next htokens hend => ?_⟩
            have hall : DerivesAll _ (front ++ []) next :=
              .cons (hstatement.statement_carries (hsettles hend)) .nil
            rw [List.map_eq_nil_iff.mp htokens]
            exact ⟨_, by simpa using hall⟩
        | cons head others =>
            refine ⟨_, kinds, hreaches.append hpasses, hkinds, fun tokens next htokens hend => ?_⟩
            obtain ⟨all, hall⟩ := hfilled tokens next htokens hend
            rw [show mid.peek = head from hreaches.head] at hstatement
            have hwhole : DerivesAll _ (front ++ (head :: others ++ tokens)) next :=
              .cons hstatement hall
            exact ⟨_, by simpa using hwhole⟩

end Parser

end Monkey
