/-
The parser finds nothing but what the grammar allows: a reading that adds no diagnostic passes a
run of tokens that make up the phrase it was to read.  The induction is that of the parser.
-/
import Monkey.Proofs.Parsing.Reads

namespace Monkey

/-- The kinds of token with which a prefix rule of the language starts. -/
theorem Grammar.kind_of_prefixRule? {kind : Kind} {rule : PrefixRule}
    (h : Grammar.standard.prefixRule? kind = some rule) :
    match rule with
    | .integer => kind = .int
    | .string => kind = .string
    | .identifier => kind = .ident
    | .boolean => kind = .trueWord ∨ kind = .falseWord
    | .operator => kind = .minus ∨ kind = .bang
    | .grouped => kind = .lparen
    | .conditional => kind = .ifWord
    | .function => kind = .fnWord
    | .array => kind = .lbracket
    | .hash => kind = .lbrace := by
  cases kind <;> simp [Grammar.standard] at h <;> subst h <;> simp

namespace Parser

open Reading

/-- What the caller of a function of the parser sees to. -/
def Fits (parser : Parser) : Phrase → Prop
  | .expression power _ => Power.lowest ≤ power
  | .opening rule _ => Grammar.standard.prefixRule? parser.current.kind = some rule
  | .extension power _ _ => parser.left ≠ 0 ∧ Power.lowest ≤ power
  | .conditional _ => parser.current.kind = .ifWord
  | .otherwise .. => parser.left ≠ 0
  | .list close _ | .elements close _ => close = .rparen ∨ close = .rbracket
  | .block _ => parser.current.kind = .lbrace
  | .pairs _ | .body _ | .sentence _ | .statement _ => True

/-- Only the statements of a block can run into the end of the text without a diagnostic. -/
def Ends (after : Parser) : Phrase → Prop
  | .body _ => after.current.kind ≠ .eof
  | _ => True

/-- The next token continues the expression, or does not bind at all. -/
theorem continues_cases {parser : Parser} (hgrammar : parser.grammar = .standard) :
    (∃ rule, parser.current.continues? parser.peek = some rule ∧
        parser.grammar.infixRule? parser.peek.kind = some rule ∧
          parser.peekPower = rule.power) ∨
      parser.current.continues? parser.peek = none ∧
        (parser.peekPower = Power.lowest ∨
          parser.grammar.infixRule? parser.peek.kind = none) := by
  unfold Token.continues? peekPower
  rw [hgrammar]
  have hline : parser.opensLine = true ↔
      (parser.peek.kind = .lparen ∨ parser.peek.kind = .lbracket) ∧
        parser.current.place.line < parser.peek.place.line := by
    simp [opensLine]
  by_cases hopens : parser.opensLine = true
  · rw [if_pos (hline.mp hopens), if_pos hopens]
    exact Or.inr ⟨rfl, Or.inl rfl⟩
  · rw [if_neg (mt hline.mpr hopens), if_neg hopens]
    cases hrule : Grammar.standard.infixRule? parser.peek.kind with
    | none => exact Or.inr ⟨rfl, Or.inr rfl⟩
    | some rule => exact Or.inl ⟨rule, rfl, rfl, rfl⟩

theorem stops_of_power {parser : Parser} {power : Int} (hgrammar : parser.grammar = .standard)
    (h : parser.peek.kind = .eof ∨ parser.peekPower ≤ power ∨
      parser.grammar.infixRule? parser.peek.kind = none) :
    parser.current.Stops power parser.peek := by
  intro rule hrule
  rcases continues_cases hgrammar with ⟨rule', hcont, hfound, hpower⟩ | ⟨hnone, _⟩
  · have hsame : rule' = rule := by simpa [hcont] using hrule
    subst hsame
    rcases h with hend | hle | hno
    · rw [hgrammar, hend] at hfound
      cases hfound
    · exact hpower ▸ hle
    · rw [hfound] at hno
      cases hno
  · rw [hnone] at hrule
    cases hrule

theorem continues_of_power {parser : Parser} {power : Int} {rule : InfixRule}
    (hgrammar : parser.grammar = .standard) (hlowest : Power.lowest ≤ power)
    (hpower : power < parser.peekPower)
    (hrule : parser.grammar.infixRule? parser.peek.kind = some rule) :
    parser.current.continues? parser.peek = some rule ∧ power < rule.power := by
  rcases continues_cases hgrammar with ⟨rule', hcont, hfound, heq⟩ | ⟨_, hlow | hno⟩
  · have hsame : rule' = rule := by simpa [hfound] using hrule
    subst hsame
    exact ⟨hcont, heq ▸ hpower⟩
  · omega
  · rw [hrule] at hno
    cases hno

/-- A right operand is read above the lowest power if its operator binds. -/
theorem rightPower_ge {power : Int} {rule : InfixRule} (hlowest : Power.lowest ≤ power)
    (hpower : power < rule.power) : Power.lowest ≤ rule.rightPower := by
  cases rule with
  | operator binding right =>
      cases right <;> simp only [InfixRule.power, InfixRule.rightPower] at hpower ⊢ <;> omega
  | call => decide
  | index => decide

/-- A quiet reading of the phrase passes tokens that make it up. -/
def Sound (parser : Parser) (phrase : Phrase) : Prop :=
  ∀ after, parser.Reads phrase after → parser.grammar = .standard → parser.Fits phrase →
    after.Ends phrase → parser.Quiet after →
      ∃ tokens, parser.Passes tokens after ∧ Derives phrase tokens after.peek

def SoundBelow (bound : Nat) : Prop :=
  ∀ (parser : Parser) (phrase : Phrase), parser.rank phrase < bound → parser.Sound phrase

theorem SoundBelow.derives {bound : Nat} (h : SoundBelow bound) {parser after : Parser}
    (phrase : Phrase) (hreads : parser.Reads phrase after) (hquiet : parser.Quiet after)
    (hgrammar : parser.grammar = .standard) (hrank : parser.rank phrase < bound)
    (hfits : parser.Fits phrase) (hends : after.Ends phrase) :
    ∃ tokens, parser.Passes tokens after ∧ Derives phrase tokens after.peek :=
  h parser phrase hrank after hreads hgrammar hfits hends hquiet

/-- A part that ends the reading, with what was read before it. -/
theorem Quiet.of_reads {parser mid after : Parser} (hquiet : parser.Quiet after)
    (h : parser.Before mid) (phrase : Phrase) (hreads : mid.Reads phrase after) :
    parser.Quiet mid ∧ mid.Quiet after :=
  hquiet.split h (before_of_reads phrase hreads)

theorem passes_readNames (parser after : Parser) :
    ∀ names, parser.readNames = (some names, after) →
      ∃ tokens, parser.next.Passes tokens after ∧ Parameters names tokens ∧ names ≠ [] := by
  fun_induction readNames parser with
  | case1 =>
      intro names h
      cases h
  | case2 parser mid hname name hcomma hlt rest ih =>
      intro names h
      rcases parser.expect_eq .ident with ⟨hkind, heq⟩ | ⟨_, heq⟩
      · rw [heq] at hname
        cases hname
        obtain ⟨names', hnames', rfl⟩ := Option.map_eq_some_iff.mp (Prod.mk.inj h).1
        have hrest : parser.next.next.readNames = (some names', after) :=
          Prod.ext hnames' (Prod.mk.inj h).2
        obtain ⟨tokens, hpasses, hparameters, hne⟩ := ih _ hrest
        refine ⟨_ :: _ :: tokens, ?_, .more hkind hcomma hne hparameters, by simp⟩
        have hfirst := passes_next parser (by simp [hkind])
        have hsecond := passes_next parser.next (by simp [hcomma])
        exact hfirst.append (hsecond.append hpasses)
      · simp [heq] at hname
  | case3 parser mid hname name hcomma close =>
      intro names h
      rcases parser.expect_eq .ident with ⟨hkind, heq⟩ | ⟨_, heq⟩
      · rw [heq] at hname
        cases hname
        rcases parser.next.expect_eq .rparen with ⟨hclose, hceq⟩ | ⟨_, hceq⟩
        · simp only [close, hceq, if_true, Prod.mk.injEq, Option.some.injEq] at h
          obtain ⟨rfl, rfl⟩ := h
          refine ⟨_, ?_, .last hkind hclose, by simp⟩
          have hfirst := passes_next parser (by simp [hkind])
          exact hfirst.append (passes_next _ (by simp [hclose]))
        · simp [close, hceq] at h
      · simp [heq] at hname

theorem passes_readParameters {parser after : Parser} {names : List Node}
    (h : parser.readParameters = (some names, after)) :
    ∃ tokens, parser.next.Passes tokens after ∧ Parameters names tokens := by
  unfold readParameters at h
  split at h
  · next hclose =>
    cases h
    exact ⟨_, passes_next _ (by simp [hclose]), .none hclose⟩
  · obtain ⟨tokens, hpasses, hparameters, _⟩ := passes_readNames _ _ _ h
    exact ⟨tokens, hpasses, hparameters⟩

/-- Parameters that could not be read are reported. -/
theorem not_quiet_readNames {parser after : Parser}
    (h : parser.readNames = (none, after)) : ¬ parser.Quiet after := by
  fun_induction readNames parser with
  | case1 parser mid hname =>
      rcases parser.expect_eq .ident with ⟨_, heq⟩ | ⟨_, heq⟩
      · simp [heq] at hname
      · rw [heq] at hname
        cases hname
        cases h
        exact not_quiet_report (Before.refl _) _ _
  | case2 parser mid hname name hcomma hlt rest ih =>
      rcases parser.expect_eq .ident with ⟨_, heq⟩ | ⟨_, heq⟩
      · rw [heq] at hname
        cases hname
        have hnone := Option.map_eq_none_iff.mp (Prod.mk.inj h).1
        exact ih (Prod.ext hnone (Prod.mk.inj h).2)
      · simp [heq] at hname
  | case3 parser mid hname name hcomma close =>
      rcases parser.expect_eq .ident with ⟨_, heq⟩ | ⟨_, heq⟩
      · rw [heq] at hname
        cases hname
        rcases parser.next.expect_eq .rparen with ⟨_, hceq⟩ | ⟨_, hceq⟩
        · simp [close, hceq] at h
        · simp only [close, hceq] at h
          cases h
          exact not_quiet_report (before_next _) _ _
      · simp [heq] at hname

theorem not_quiet_readParameters {parser after : Parser}
    (h : parser.readParameters = (none, after)) : ¬ parser.Quiet after := by
  unfold readParameters at h
  split at h
  · cases h
  · exact not_quiet_readNames h


section Sound

variable {parser : Parser}

/-- Where an expression opens, there is a token. -/
theorem left_ne_zero_of_opening {rule : PrefixRule} {node : Node}
    (hfits : parser.Fits (.opening rule node)) : parser.left ≠ 0 := by
  intro hzero
  rw [Fits, current_kind_of_left_eq_zero hzero] at hfits
  cases hfits

theorem sound_function {node : Node}
    (ih : SoundBelow (parser.rank (.opening .function node))) :
    parser.Sound (.opening .function node) := by
  intro after hreads hgrammar hfits _ hquiet
  have hkind := Grammar.kind_of_prefixRule? hfits
  have hleft := left_ne_zero_of_opening hfits
  rcases gives_readPrefix_function.mp hreads with
    ⟨_, _, rfl⟩ | ⟨hopen, names, mid, hnames, hrest⟩
  · exact absurd hquiet (not_quiet_report (Before.refl _) _ _)
  have hbefore : parser.next.Before mid := by
    have hparameters := before_readParameters parser.next
    rwa [hnames] at hparameters
  rcases hrest with ⟨rfl, _, rfl⟩ | ⟨parameters, rfl, ⟨_, _, rfl⟩ | ⟨hbrace, body, hbody, rfl⟩⟩
  · exact (not_quiet_readParameters hnames hquiet).elim
  · exact absurd hquiet (not_quiet_report ((before_next _).trans hbefore) _ _)
  have hmid := ((before_next _).trans hbefore).trans (before_next _)
  have hquiet' := (hquiet.of_reads hmid (.block body) hbody).2
  have hlt : 1 < mid.left := one_lt_left (by simp [hbrace])
  have hle := hbefore.pending.length_le
  obtain ⟨tokens, hpasses, hderives⟩ := ih.derives (.block body) hbody hquiet'
    (hmid.grammar.trans hgrammar)
    (by simp only [rank, Phrase.rank, left, next, List.length_tail] at hlt hle ⊢; omega)
    hbrace trivial
  obtain ⟨inside, hinside, hparameters⟩ := passes_readParameters hnames
  have hopener := passes_next parser (by simp [hopen])
  have hfront := (hopener.append hinside).cons hleft
  refine ⟨_, hfront.append hpasses, ?_⟩
  exact .function hkind hopen hparameters hderives

theorem sound_opening {rule : PrefixRule} {node : Node}
    (ih : SoundBelow (parser.rank (.opening rule node))) : parser.Sound (.opening rule node) := by
  intro after hreads hgrammar hfits hclosed hquiet
  have hkind := Grammar.kind_of_prefixRule? hfits
  have hleft := left_ne_zero_of_opening hfits
  cases rule with
  | integer =>
      simp only [Reads, readPrefix] at hreads
      obtain ⟨value, hread, ⟨⟨hmin, hmax⟩, rfl, rfl⟩ | ⟨_, _, rfl⟩⟩ :=
        gives_readInteger.mp hreads
      · exact ⟨_, passes_self hleft, .integer hkind hread hmin hmax⟩
      · exact absurd hquiet (not_quiet_report (Before.refl _) _ _)
  | string =>
      simp only [Reads, readPrefix, gives_done] at hreads
      obtain ⟨rfl, rfl⟩ := hreads
      exact ⟨_, passes_self hleft, .string hkind⟩
  | boolean =>
      simp only [Reads, readPrefix, gives_done] at hreads
      obtain ⟨rfl, rfl⟩ := hreads
      exact ⟨_, passes_self hleft, .boolean hkind⟩
  | identifier =>
      simp only [Reads, readPrefix, gives_done] at hreads
      obtain ⟨rfl, rfl⟩ := hreads
      exact ⟨_, passes_self hleft, .identifier hkind⟩
  | operator =>
      obtain ⟨_, right, mid, hright, rfl, rfl⟩ := gives_readPrefix_operator.mp hreads
      obtain ⟨tokens, hpasses, hderives⟩ := ih.derives (.expression _ right) hright hquiet
        hgrammar (by simp only [rank, Phrase.rank, left_next]; omega)
        (by simp [Fits, Power.lowest, Power.sign]) trivial
      exact ⟨_, hpasses.cons hleft, .sign hkind hderives⟩
  | grouped =>
      obtain ⟨_, inner, mid, hinner, hclose⟩ := gives_readPrefix_grouped.mp hreads
      have hbefore := (before_next _).trans (before_of_reads (.expression _ inner) hinner)
      rcases hclose with ⟨hclose, rfl, rfl⟩ | ⟨_, _, rfl⟩
      · obtain ⟨tokens, hpasses, hderives⟩ := ih.derives (.expression _ inner) hinner hquiet
          hgrammar (by simp only [rank, Phrase.rank, left_next]; omega)
          (by simp [Fits]) trivial
        have hcloser := passes_next mid (by simp [hclose])
        exact ⟨_, (hpasses.cons hleft).append hcloser, .grouped hkind hclose hderives⟩
      · exact absurd hquiet (not_quiet_report hbefore _ _)
  | conditional =>
      simp only [Reads, readPrefix] at hreads
      obtain ⟨tokens, hpasses, hderives⟩ := ih.derives (.conditional node) hreads hquiet
        hgrammar (by simp [rank, Phrase.rank]) hkind trivial
      exact ⟨tokens, hpasses, .conditional hderives⟩
  | function => exact sound_function ih after hreads hgrammar hfits hclosed hquiet
  | array =>
      obtain ⟨_, elements, mid, helements, rfl, rfl⟩ := gives_readPrefix_array.mp hreads
      obtain ⟨tokens, hpasses, hderives⟩ := ih.derives (.list _ elements) helements hquiet
        hgrammar (by simp only [rank, Phrase.rank, left_next]; omega) (Or.inr rfl) trivial
      obtain ⟨nodes, rfl⟩ := hderives.list_isSome
      exact ⟨_, hpasses.cons hleft, .array hkind hderives⟩
  | hash =>
      obtain ⟨_, pairs, mid, hpairs, rfl, rfl⟩ := gives_readPrefix_hash.mp hreads
      obtain ⟨tokens, hpasses, hderives⟩ := ih.derives (.pairs pairs) hpairs hquiet
        hgrammar (by simp only [rank, Phrase.rank, left_next]; omega) trivial trivial
      obtain ⟨nodes, rfl⟩ := hderives.pairs_isSome
      exact ⟨_, hpasses.cons hleft, .hash hkind hderives⟩

theorem sound_expression {power : Int} {node : Node}
    (ih : SoundBelow (parser.rank (.expression power node))) :
    parser.Sound (.expression power node) := by
  intro after hreads hgrammar hfits _ hquiet
  rcases gives_readExpression.mp hreads with ⟨_, _, rfl⟩ | ⟨rule, hrule, left, mid, hleft, hrest⟩
  · exact absurd hquiet (not_quiet_report (Before.refl _) _ _)
  have hmid := before_of_reads (.opening rule left) hleft
  have hle := hleft.left_le
  obtain ⟨hquiet₁, hquiet₂⟩ := hquiet.of_reads hmid (.extension power left node) hrest
  obtain ⟨tokens, hpasses, hopening⟩ := ih.derives (.opening rule left) hleft hquiet₁
    hgrammar (by simp only [rank, Phrase.rank]; omega) (by rwa [Fits, ← hgrammar]) trivial
  obtain ⟨tokens', hpasses', hextension⟩ := ih.derives (.extension power left node) hrest
    hquiet₂ (hmid.grammar.trans hgrammar) (by simp only [rank, Phrase.rank]; omega)
    ⟨hpasses.left_after_pos, hfits⟩ trivial
  obtain ⟨first, last, rfl⟩ := hpasses.exists_last
  obtain ⟨rest, rfl⟩ := hpasses'.exists_head
  rw [hpasses.current] at hpasses' hextension
  rw [hpasses'.peek] at hopening
  exact ⟨_, passes_overlap.mpr ⟨mid, hpasses, hpasses'⟩, .expression hopening hextension⟩

/-- A quiet continuation by a rule: whatever the rule, the expression goes on from the last token
of what was read. -/
theorem extends_of_quiet {power : Int} {rule : InfixRule} {left more : Node} {mid : Parser}
    (ih : SoundBelow (8 * parser.left)) (hend : parser.peek.kind ≠ .eof)
    (hgrammar : parser.grammar = .standard) (hlowest : Power.lowest ≤ power)
    (hcontinues : parser.current.continues? parser.peek = some rule) (hpower : power < rule.power)
    (hmore : (parser.next.readInfix rule left).Gives more mid) (hquiet : parser.Quiet mid) :
    ∃ tokens last, parser.next.next.Passes (tokens ++ [last]) mid ∧
      ∀ rest next node, mid.peek = rest.headD next →
        Derives (.extension power more node) (last :: rest) next →
          Derives (.extension power left node)
            (parser.current :: parser.peek :: tokens ++ last :: rest) next := by
  have hlt : 1 < parser.left := one_lt_left hend
  have hnext : parser.next.left ≠ 0 := by rw [left_next]; omega
  cases rule with
  | operator binding right =>
      obtain ⟨operand, _, hoperand, rfl, rfl⟩ := (gives_readInfix_operator hnext).mp hmore
      obtain ⟨tokens, hpasses, hderives⟩ := ih.derives (.expression _ operand) hoperand
        hquiet hgrammar (by simp only [rank, Phrase.rank, left_next]; omega)
        (rightPower_ge hlowest hpower) trivial
      obtain ⟨tokens, last, rfl⟩ := hpasses.exists_last
      refine ⟨tokens, last, hpasses, fun rest next node hpeek hextension => ?_⟩
      exact .infixOp hcontinues hpower (hpeek ▸ hderives) hextension
  | call =>
      obtain ⟨arguments, _, harguments, rfl, rfl⟩ := (gives_readInfix_call hnext).mp hmore
      obtain ⟨tokens, hpasses, hderives⟩ := ih.derives (.list _ arguments) harguments
        hquiet hgrammar (by simp only [rank, Phrase.rank, left_next]; omega)
        (Or.inl rfl) trivial
      obtain ⟨nodes, rfl⟩ := hderives.list_isSome
      obtain ⟨tokens, last, rfl⟩ := hpasses.exists_last
      refine ⟨tokens, last, hpasses, fun rest next node hpeek hextension => ?_⟩
      exact .call hcontinues hpower (hpeek ▸ hderives) hextension
  | index =>
      obtain ⟨index, inside, hindex, hclose⟩ := (gives_readInfix_index hnext).mp hmore
      have hinside := ((before_next _).trans (before_next _)).trans
        (before_of_reads (.expression _ index) hindex)
      rcases hclose with ⟨hclose, rfl, rfl⟩ | ⟨_, _, rfl⟩
      · obtain ⟨tokens, hpasses, hderives⟩ := ih.derives (.expression _ index) hindex
          hquiet hgrammar (by simp only [rank, Phrase.rank, left_next]; omega)
          (by simp [Fits]) trivial
        have hcloser := passes_next inside (by simp [hclose])
        refine ⟨tokens, inside.peek, hpasses.append hcloser,
          fun rest next node _ hextension => ?_⟩
        exact .index hcontinues hpower hclose hderives hextension
      · exact absurd hquiet (not_quiet_report hinside _ _)

theorem sound_extension {power : Int} {left node : Node}
    (ih : SoundBelow (parser.rank (.extension power left node))) :
    parser.Sound (.extension power left node) := by
  intro after hreads hgrammar hfits _ hquiet
  obtain ⟨hleft, hlowest⟩ := hfits
  rcases gives_extend.mp hreads with
    ⟨hstop, rfl, rfl⟩ | ⟨hend, hpower, rule, hrule, more, mid, hmore, hrest⟩
  · exact ⟨_, passes_self hleft, .stop (stops_of_power hgrammar hstop)⟩
  obtain ⟨hcontinues, hpower⟩ := continues_of_power hgrammar hlowest hpower hrule
  have hlt : 1 < parser.left := one_lt_left hend
  have hnext : parser.next.left ≠ 0 := by rw [left_next]; omega
  have hle := hmore.left_le
  rw [left_next] at hle
  have hmid := (before_next parser).trans (before_readInfix (forwardBelow _) hnext hmore)
  obtain ⟨hquiet₁, hquiet₂⟩ := hquiet.of_reads hmid (.extension power more node) hrest
  obtain ⟨tokens, last, hpasses, hextends⟩ :=
    extends_of_quiet ih hend hgrammar hlowest hcontinues hpower hmore hquiet₁
  obtain ⟨tokens', hpasses', hderives⟩ := ih.derives (.extension power more node) hrest
    hquiet₂ (hpasses.grammar.trans hgrammar) (by simp only [rank, Phrase.rank]; omega)
    ⟨hpasses.left_after_pos, hlowest⟩ trivial
  obtain ⟨rest, rfl⟩ := hpasses'.exists_head
  rw [hpasses.current] at hpasses' hderives
  have hwhole := passes_overlap.mpr ⟨mid, hpasses, hpasses'⟩
  exact ⟨_, Passes.cons hleft (Passes.cons hnext hwhole),
    hextends rest after.peek node hpasses'.peek hderives⟩

theorem sound_conditional {node : Node} (ih : SoundBelow (parser.rank (.conditional node))) :
    parser.Sound (.conditional node) := by
  intro after hreads hgrammar hkind _ hquiet
  have hleft : parser.left ≠ 0 := Nat.ne_of_gt (Parser.left_pos (by rw [hkind]; decide))
  rcases gives_readIf.mp hreads with ⟨_, _, rfl⟩ | ⟨hopen, condition, mid, hcondition, hrest⟩
  · exact absurd hquiet (not_quiet_report (Before.refl _) _ _)
  have hlt : 1 < parser.left := one_lt_left (by simp [hopen])
  have hle := hcondition.left_le
  rw [left_next, left_next] at hle
  have hmid := ((before_next _).trans (before_next _)).trans
    (before_of_reads (.expression _ condition) hcondition)
  rcases hrest with ⟨_, _, rfl⟩ | ⟨hclose, ⟨_, _, rfl⟩ | ⟨hbrace, body, last, hbody, helse⟩⟩
  · exact absurd hquiet (not_quiet_report hmid _ _)
  · exact absurd hquiet (not_quiet_report (hmid.trans (before_next _)) _ _)
  have hinside := (hmid.trans (before_next _)).trans (before_next _)
  have hlast := hinside.trans (before_of_reads (.block body) hbody)
  obtain ⟨hquiet₁, hquiet₃⟩ := hquiet.of_reads hlast (.otherwise _ _ _ node) helse
  obtain ⟨hquiet₁, hquiet₂⟩ := hquiet₁.of_reads hinside (.block body) hbody
  have hle' := hbody.left_le
  rw [left_next, left_next] at hle'
  obtain ⟨test, htest, hderives₁⟩ := ih.derives (.expression _ condition) hcondition hquiet₁
    hgrammar (by simp only [rank, Phrase.rank, left_next]; omega) (by simp [Fits]) trivial
  obtain ⟨inside, hpasses, hderives₂⟩ := ih.derives (.block body) hbody hquiet₂
    (hinside.grammar.trans hgrammar)
    (by simp only [rank, Phrase.rank, left_next]; omega) hbrace trivial
  obtain ⟨rest, hpasses', hderives₃⟩ := ih.derives (.otherwise _ _ _ node) helse hquiet₃
    (hlast.grammar.trans hgrammar) (by simp only [rank, Phrase.rank]; omega)
    hpasses.left_after_pos trivial
  obtain ⟨inside, final, rfl⟩ := hpasses.exists_last
  obtain ⟨rest, rfl⟩ := hpasses'.exists_head
  rw [hpasses.current] at hpasses' hderives₃
  rw [hpasses'.peek] at hderives₂
  have hcloser := passes_next mid (by simp [hclose])
  have hopener := passes_next parser (by simp [hopen])
  have hfront := (hopener.append htest).cons hleft
  have hback := hcloser.append (passes_overlap.mpr ⟨last, hpasses, hpasses'⟩)
  refine ⟨_, hfront.append hback, ?_⟩
  simpa using Derives.ifElse hkind hopen hclose hderives₁ hderives₂ hderives₃

theorem sound_otherwise {token : Token} {condition consequence node : Node}
    (ih : SoundBelow (parser.rank (.otherwise token condition consequence node))) :
    parser.Sound (.otherwise token condition consequence node) := by
  intro after hreads hgrammar hleft _ hquiet
  rcases gives_readElse.mp hreads with ⟨hnone, rfl, rfl⟩ | ⟨hword, hrest⟩
  · exact ⟨_, passes_self hleft, .noElse hnone⟩
  have hlt : 1 < parser.left := one_lt_left (by simp [hword])
  have hfront : ∀ {tokens}, parser.next.next.Passes tokens after →
      parser.Passes (parser.current :: parser.peek :: tokens) after := by
    intro tokens hpasses
    exact ((passes_next parser (by simp [hword])).append hpasses).cons hleft
  rcases hrest with ⟨hbrace, alternative, hblock, rfl⟩ | ⟨hif, alternative, hcond, rfl⟩ |
      ⟨_, _, _, rfl⟩
  · obtain ⟨tokens, hpasses, hderives⟩ := ih.derives (.block alternative) hblock hquiet
      hgrammar (by simp only [rank, Phrase.rank, left_next]; omega) hbrace trivial
    exact ⟨_, hfront hpasses, .elseBlock hword hderives⟩
  · obtain ⟨tokens, hpasses, hderives⟩ := ih.derives (.conditional alternative) hcond hquiet
      hgrammar (by simp only [rank, Phrase.rank, left_next]; omega) hif trivial
    exact ⟨_, hfront hpasses, .elseIf hword hderives⟩
  · exact absurd hquiet (not_quiet_report (before_next _) _ _)

theorem sound_list {close : Kind} {nodes : Option (List Node)}
    (ih : SoundBelow (parser.rank (.list close nodes))) : parser.Sound (.list close nodes) := by
  intro after hreads hgrammar hfits _ hquiet
  rcases gives_readList.mp hreads with ⟨hclose, rfl, rfl⟩ | ⟨_, helements⟩
  · refine ⟨_, passes_self (Nat.ne_of_gt (Parser.left_pos ?_)), .emptyList hclose⟩
    rcases hfits with rfl | rfl <;> simp [hclose]
  · obtain ⟨tokens, hpasses, hderives⟩ := ih.derives (.elements close nodes) helements hquiet
      hgrammar (by simp only [rank, Phrase.rank]; omega) hfits trivial
    obtain ⟨elements, rfl⟩ := hderives.elements_isSome
    exact ⟨tokens, hpasses, .list hderives⟩

theorem sound_elements {close : Kind} {nodes : Option (List Node)}
    (ih : SoundBelow (parser.rank (.elements close nodes))) :
    parser.Sound (.elements close nodes) := by
  intro after hreads hgrammar hfits _ hquiet
  obtain ⟨element, mid, helement, hrest⟩ := gives_readElements.mp hreads
  have hmid := before_of_reads (.expression _ element) helement
  have hle := helement.left_le
  have hpart : parser.Quiet mid → ∃ tokens, parser.Passes tokens mid ∧
      Derives (.expression Power.lowest element) tokens mid.peek := fun hquiet' =>
    ih.derives (.expression _ element) helement hquiet' hgrammar
      (by simp only [rank, Phrase.rank]; omega) (by simp [Fits]) trivial
  rcases hrest with ⟨hcomma, rest, hrest, rfl⟩ | ⟨_, hclose, rfl, rfl⟩ | ⟨_, _, _, rfl⟩
  · have hlt : 1 < mid.left := one_lt_left (by simp [hcomma])
    have hnext := (hmid.trans (before_next _)).trans (before_next _)
    obtain ⟨hquiet₁, hquiet₂⟩ := hquiet.of_reads hnext (.elements close rest) hrest
    obtain ⟨tokens, hpasses, hderives⟩ := hpart hquiet₁
    obtain ⟨tokens', hpasses', hderives'⟩ := ih.derives (.elements close rest) hrest hquiet₂
      (hnext.grammar.trans hgrammar) (by simp only [rank, Phrase.rank, left_next]; omega)
      hfits trivial
    obtain ⟨elements, rfl⟩ := hderives'.elements_isSome
    have hback := (passes_next mid (by simp [hcomma])).append hpasses'
    exact ⟨_, hpasses.append hback, .moreElements hcomma hderives hderives'⟩
  · obtain ⟨tokens, hpasses, hderives⟩ := hpart hquiet
    have hcloser : mid.next.Passes [mid.peek] mid.next := by
      apply passes_next mid
      rcases hfits with rfl | rfl <;> simp [hclose]
    exact ⟨_, hpasses.append hcloser, .lastElement hclose hderives⟩
  · exact absurd hquiet (not_quiet_report hmid _ _)

theorem sound_pairs {pairs : Option (List (Node × Node))}
    (ih : SoundBelow (parser.rank (.pairs pairs))) : parser.Sound (.pairs pairs) := by
  intro after hreads hgrammar _ _ hquiet
  rcases gives_readPairs.mp hreads with ⟨hclose, rfl, rfl⟩ | ⟨_, key, mid, hkey, hrest⟩
  · exact ⟨_, passes_self (Nat.ne_of_gt (Parser.left_pos (by simp [hclose]))),
      .emptyPairs hclose⟩
  have hmid := before_of_reads (.expression _ key) hkey
  have hle := hkey.left_le
  rcases hrest with ⟨_, _, rfl⟩ | ⟨hcolon, value, last, hvalue, hrest⟩
  · exact absurd hquiet (not_quiet_report hmid _ _)
  have hlt : 1 < mid.left := one_lt_left (by simp [hcolon])
  have hle' := hvalue.left_le
  rw [left_next, left_next] at hle'
  have hnext := (hmid.trans (before_next _)).trans (before_next _)
  have hlast := hnext.trans (before_of_reads (.expression _ value) hvalue)
  have hparts : parser.Quiet last →
      ∃ keys values, parser.Passes (keys ++ mid.peek :: values) last ∧
        Derives (.expression Power.lowest key) keys mid.peek ∧
          Derives (.expression Power.lowest value) values last.peek := by
    intro hquiet'
    obtain ⟨hquiet₁, hquiet₂⟩ := hquiet'.of_reads hnext (.expression _ value) hvalue
    obtain ⟨keys, hpasses, hderives⟩ := ih.derives (.expression _ key) hkey hquiet₁ hgrammar
      (by simp only [rank, Phrase.rank]; omega) (by simp [Fits]) trivial
    obtain ⟨values, hpasses', hderives'⟩ := ih.derives (.expression _ value) hvalue hquiet₂
      (hnext.grammar.trans hgrammar) (by simp only [rank, Phrase.rank, left_next]; omega)
      (by simp [Fits]) trivial
    have hback := (passes_next mid (by simp [hcolon])).append hpasses'
    exact ⟨keys, values, hpasses.append hback, hderives, hderives'⟩
  rcases hrest with ⟨hclose, rfl, rfl⟩ | ⟨hcomma, rest, hrest, rfl⟩ | ⟨_, _, _, rfl⟩
  · obtain ⟨keys, values, hpasses, hderives, hderives'⟩ := hparts hquiet
    have hcloser := passes_next last (by simp [hclose])
    exact ⟨_, hpasses.append hcloser, .lastPair hcolon hclose hderives hderives'⟩
  · have hmore := (hlast.trans (before_next _)).trans (before_next _)
    obtain ⟨hquiet₁, hquiet₂⟩ := hquiet.of_reads hmore (.pairs rest) hrest
    obtain ⟨keys, values, hpasses, hderives, hderives'⟩ := hparts hquiet₁
    obtain ⟨tokens, hpasses', hderives''⟩ := ih.derives (.pairs rest) hrest hquiet₂
      (hmore.grammar.trans hgrammar) (by simp only [rank, Phrase.rank, left_next]; omega)
      trivial trivial
    obtain ⟨others, rfl⟩ := hderives''.pairs_isSome
    have hback := (passes_next last (by simp [hcomma])).append hpasses'
    exact ⟨_, hpasses.append hback, .morePairs hcolon hcomma hderives hderives' hderives''⟩
  · exact absurd hquiet (not_quiet_report hlast _ _)

theorem sound_block {node : Node} (ih : SoundBelow (parser.rank (.block node))) :
    parser.Sound (.block node) := by
  intro after hreads hgrammar hkind _ hquiet
  have hleft : parser.left ≠ 0 := Nat.ne_of_gt (Parser.left_pos (by rw [hkind]; decide))
  obtain ⟨statements, mid, hbody, rfl, hend⟩ := gives_readBlock.mp hreads
  rcases hend with ⟨hend, rfl⟩ | ⟨_, rfl⟩
  · obtain ⟨tokens, hpasses, hderives⟩ := ih.derives (.body statements) hbody hquiet hgrammar
      (by simp only [rank, Phrase.rank, left_next]; omega) trivial hend
    exact ⟨_, hpasses.cons hleft, .block hkind hderives⟩
  · have hmid := (before_next _).trans (before_of_reads (.body statements) hbody)
    exact absurd hquiet (not_quiet_report hmid _ _)

theorem sound_body {statements : List Node}
    (ih : SoundBelow (parser.rank (.body statements))) : parser.Sound (.body statements) := by
  intro after hreads hgrammar _ hends hquiet
  rcases gives_readBody.mp hreads with
    ⟨hclose, rfl, rfl⟩ | ⟨_, hend, statement, mid, hread, rest, hrest, rfl⟩
  · rcases hclose with hclose | hclose
    · exact ⟨_, passes_self (Nat.ne_of_gt (Parser.left_pos hends)), .emptyBody hclose⟩
    · exact absurd hclose hends
  have hpos := Parser.left_pos hend
  have hle := hread.left_le
  have hnext := (before_of_reads (.statement statement) hread).trans (before_next _)
  obtain ⟨hquiet₁, hquiet₂⟩ := hquiet.of_reads hnext (.body rest) hrest
  obtain ⟨tokens, hpasses, hderives⟩ := ih.derives (.statement statement) hread hquiet₁
    hgrammar (by simp only [rank, Phrase.rank]; omega) trivial trivial
  obtain ⟨tokens', hpasses', hderives'⟩ := ih.derives (.body rest) hrest hquiet₂
    (hnext.grammar.trans hgrammar) (by simp only [rank, Phrase.rank, left_next]; omega)
    trivial hends
  obtain ⟨tokens', rfl⟩ := hpasses'.exists_head
  exact ⟨_, hpasses.append hpasses', .body hderives hderives'⟩

theorem sound_sentence {statement : Option Node}
    (ih : SoundBelow (parser.rank (.sentence statement))) :
    parser.Sound (.sentence statement) := by
  intro after hreads hgrammar _ _ hquiet
  simp only [Reads, GivesSentence] at hreads
  split at hreads
  · next hkind =>
    have hleft : parser.left ≠ 0 := Nat.ne_of_gt (Parser.left_pos (by rw [hkind]; decide))
    rcases gives_readLet.mp hreads with
      ⟨_, _, rfl⟩ | ⟨hname, ⟨_, _, rfl⟩ | ⟨hassign, value, hvalue, rfl⟩⟩
    · exact absurd hquiet (not_quiet_report (Before.refl _) _ _)
    · exact absurd hquiet (not_quiet_report (before_next _) _ _)
    · obtain ⟨tokens, hpasses, hderives⟩ := ih.derives (.expression _ value) hvalue hquiet
        hgrammar (by simp only [rank, Phrase.rank, left_next]; omega) (by simp [Fits]) trivial
      have hnamed := passes_next parser (by simp [hname])
      have hassigned := passes_next parser.next (by simp [hassign])
      refine ⟨_, (hnamed.append (hassigned.append hpasses)).cons hleft, ?_⟩
      exact .letSentence hkind hname hassign hderives
  · next hkind =>
    have hleft : parser.left ≠ 0 := Nat.ne_of_gt (Parser.left_pos (by rw [hkind]; decide))
    obtain ⟨node, hnode, rfl⟩ := hreads
    obtain ⟨value, hvalue, rfl⟩ := gives_readReturn.mp hnode
    obtain ⟨tokens, hpasses, hderives⟩ := ih.derives (.expression _ value) hvalue hquiet
      hgrammar (by simp only [rank, Phrase.rank, left_next]; omega) (by simp [Fits]) trivial
    exact ⟨_, hpasses.cons hleft, .returnSentence hkind hderives⟩
  · next hkind =>
    obtain ⟨rfl, rfl⟩ := hreads
    exact ⟨_, passes_self (Nat.ne_of_gt (Parser.left_pos (by rw [hkind]; decide))),
      .stray hkind⟩
  · obtain ⟨node, hnode, rfl⟩ := hreads
    obtain ⟨tokens, hpasses, hderives⟩ := ih.derives (.expression _ node) hnode hquiet
      hgrammar (by simp only [rank, Phrase.rank]; omega) (by simp [Fits]) trivial
    obtain ⟨tokens, rfl⟩ := hpasses.exists_head
    exact ⟨_, hpasses, .exprSentence hderives⟩

theorem sound_statement {statement : Option Node}
    (ih : SoundBelow (parser.rank (.statement statement))) :
    parser.Sound (.statement statement) := by
  intro after hreads hgrammar _ _ hquiet
  obtain ⟨mid, hsentence, hend⟩ := gives_readStatement.mp hreads
  have hpart : parser.Quiet mid → ∃ tokens, parser.Passes tokens mid ∧
      Derives (.sentence statement) tokens mid.peek := fun hquiet' =>
    ih.derives (.sentence statement) hsentence hquiet' hgrammar
      (by simp only [rank, Phrase.rank]; omega) trivial trivial
  rcases hend with ⟨hsome, hkind, rfl⟩ | ⟨hnext, rfl⟩
  · obtain ⟨tokens, hpasses, hderives⟩ := hpart hquiet
    obtain ⟨node, rfl⟩ := Option.isSome_iff_exists.mp hsome
    exact ⟨_, hpasses.append (passes_next mid (by simp [hkind])), .ended hkind hderives⟩
  · obtain ⟨tokens, hpasses, hderives⟩ := hpart hquiet
    exact ⟨_, hpasses, .bare hnext hderives⟩

end Sound

/-- A quiet reading of the language passes tokens that make up the phrase. -/
theorem sound (parser : Parser) (phrase : Phrase) : parser.Sound phrase := by
  induction parser, phrase using rank_induction with
  | step parser phrase ih =>
      cases phrase with
      | expression power node => exact sound_expression ih
      | opening rule node => exact sound_opening ih
      | extension power left node => exact sound_extension ih
      | conditional node => exact sound_conditional ih
      | otherwise token condition consequence node => exact sound_otherwise ih
      | list close nodes => exact sound_list ih
      | elements close nodes => exact sound_elements ih
      | pairs pairs => exact sound_pairs ih
      | block node => exact sound_block ih
      | body statements => exact sound_body ih
      | sentence statement => exact sound_sentence ih
      | statement statement => exact sound_statement ih

theorem soundBelow (bound : Nat) : SoundBelow bound :=
  fun parser phrase _ => parser.sound phrase

end Parser

end Monkey
