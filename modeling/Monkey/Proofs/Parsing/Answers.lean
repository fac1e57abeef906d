/-
When the parser gives a program at all.  Whatever is wrong with a text is reported and reading
goes on, so that every integer literal is read at some time; a literal that has more digits than
are read ends the parse instead, and nothing else does.
-/
import Monkey.Proofs.Parsing.Integers

namespace Monkey

namespace Parser

open Reading

theorem current_mem_pending {parser : Parser} (h : parser.left ≠ 0) :
    parser.current ∈ parser.pending := by
  cases hpending : parser.pending with
  | nil => simp [left, hpending] at h
  | cons token rest => simp [current, hpending]

/-- The integer literals from the current token on have values. -/
def Readable (parser : Parser) : Prop :=
  ∀ token ∈ parser.pending, token.Readable

theorem Readable.before {parser after : Parser} (h : parser.Readable)
    (hbefore : parser.Before after) : after.Readable :=
  fun token htoken => h token (hbefore.pending.mem htoken)

theorem Readable.of_next {parser : Parser} (hcurrent : parser.current.Readable)
    (h : parser.next.Readable) : parser.Readable := by
  intro token htoken
  match hpending : parser.pending with
  | [] => simp [hpending] at htoken
  | first :: rest =>
      rw [hpending] at htoken
      rcases List.mem_cons.mp htoken with rfl | hrest
      · simpa [current, hpending] using hcurrent
      · exact h token (by simpa [next, hpending] using hrest)

theorem Readable.of_kind {parser : Parser} (hkind : parser.current.kind ≠ .int)
    (h : parser.next.Readable) : parser.Readable :=
  h.of_next (readable_of_kind hkind)

/-- The next token is passed; it is no literal. -/
theorem Readable.of_peek {parser : Parser} {kind : Kind} (hpeek : parser.peek.kind = kind)
    (hkind : kind ≠ .int) (h : parser.next.next.Readable) : parser.next.Readable :=
  h.of_kind (hpeek ▸ hkind)

/-! ### Every literal is read -/

/-- Where the literals start that reading the phrase comes to.  What is extended was read
before. -/
def unread (parser : Parser) : Phrase → Parser
  | .extension .. | .otherwise .. => parser.next
  | _ => parser

/-- What is known of the token that a phrase starts at. -/
def Opens (parser : Parser) : Phrase → Prop
  | .opening rule _ => Grammar.standard.prefixRule? parser.current.kind = some rule
  | .conditional _ => parser.current.kind = .ifWord
  | .block _ => parser.current.kind = .lbrace
  | .list close _ | .elements close _ => close ≠ .int
  | _ => True

/-- If the literals behind the phrase have values, then so have the literals in it. -/
def Covers (parser : Parser) (phrase : Phrase) : Prop :=
  ∀ after, parser.Reads phrase after → parser.grammar = .standard → parser.Opens phrase →
    after.next.Readable → (parser.unread phrase).Readable

def CoversBelow (bound : Nat) : Prop :=
  ∀ (parser : Parser) (phrase : Phrase), parser.rank phrase < bound → parser.Covers phrase

theorem CoversBelow.readable {bound : Nat} (h : CoversBelow bound) {parser start after : Parser}
    (phrase : Phrase) (hreads : parser.Reads phrase after) (hstart : parser.unread phrase = start)
    (hgrammar : parser.grammar = .standard) (hrank : parser.rank phrase < bound)
    (hopens : parser.Opens phrase) (hafter : after.next.Readable) : start.Readable :=
  hstart ▸ h parser phrase hrank after hreads hgrammar hopens hafter

theorem readable_readNames {parser : Parser} (h : parser.readNames.2.next.Readable) :
    parser.next.Readable := by
  fun_induction readNames parser with
  | case1 parser mid hname =>
      rcases parser.expect_eq .ident with ⟨_, heq⟩ | ⟨_, heq⟩
      · simp [heq] at hname
      · rw [heq] at hname
        cases hname
        exact h
  | case2 parser mid hname name hcomma hlt rest ih =>
      rcases parser.expect_eq .ident with ⟨hkind, heq⟩ | ⟨_, heq⟩
      · rw [heq] at hname
        cases hname
        exact .of_peek hkind (by decide) (.of_peek hcomma (by decide) (ih h))
      · simp [heq] at hname
  | case3 parser mid hname name hcomma close =>
      rcases parser.expect_eq .ident with ⟨hkind, heq⟩ | ⟨_, heq⟩
      · rw [heq] at hname
        cases hname
        apply Readable.of_peek hkind (by decide)
        rcases parser.next.expect_eq .rparen with ⟨hclose, hceq⟩ | ⟨_, hceq⟩
        · simp only [close, hceq] at h
          exact .of_peek hclose (by decide) h
        · simp only [close, hceq] at h
          exact h
      · simp [heq] at hname

theorem readable_readParameters {parser : Parser} (h : parser.readParameters.2.next.Readable) :
    parser.next.Readable := by
  unfold readParameters at h
  split at h
  · next hclose => exact .of_peek hclose (by decide) h
  · exact readable_readNames h

section Covers

variable {parser : Parser}

theorem covers_function {node : Node} (ih : CoversBelow (parser.rank (.opening .function node))) :
    parser.Covers (.opening .function node) := by
  intro after hreads hgrammar hopens hafter
  show parser.Readable
  apply Readable.of_kind (by simp [Grammar.kind_of_prefixRule? hopens])
  rcases gives_readPrefix_function.mp hreads with
    ⟨_, _, rfl⟩ | ⟨hopen, names, mid, hnames, hrest⟩
  · exact hafter
  have hbefore := before_readParameters parser.next
  have hinside := @readable_readParameters parser.next
  rw [hnames] at hbefore hinside
  apply Readable.of_peek hopen (by decide)
  apply hinside
  rcases hrest with ⟨_, _, rfl⟩ | ⟨_, _, ⟨_, _, rfl⟩ | ⟨hbrace, body, hbody, _⟩⟩
  · exact hafter
  · exact hafter
  · have hlt : 1 < mid.left := one_lt_left (by simp [hbrace])
    have hle := hbefore.pending.length_le
    exact ih.readable (.block body) hbody rfl (hbefore.grammar.trans hgrammar)
      (by simp only [rank, Phrase.rank, left, next, List.length_tail] at hlt hle ⊢; omega)
      hbrace hafter

theorem covers_opening {rule : PrefixRule} {node : Node}
    (ih : CoversBelow (parser.rank (.opening rule node))) :
    parser.Covers (.opening rule node) := by
  intro after hreads hgrammar hopens hafter
  show parser.Readable
  have hkind := Grammar.kind_of_prefixRule? hopens
  have hleft : parser.left ≠ 0 := @left_ne_zero_of_opening parser rule node hopens
  cases rule with
  | integer =>
      simp only [Reads, readPrefix] at hreads
      obtain ⟨value, hread, hresult⟩ := gives_readInteger.mp hreads
      have hnext : parser.next.Readable := by
        rcases hresult with ⟨_, _, rfl⟩ | ⟨_, _, rfl⟩
        · exact hafter
        · exact hafter
      exact hnext.of_next fun _ => ⟨value, hread⟩
  | string | identifier =>
      simp only [Reads, readPrefix, gives_done] at hreads
      obtain ⟨_, rfl⟩ := hreads
      exact hafter.of_kind (by simp [hkind])
  | boolean =>
      simp only [Reads, readPrefix, gives_done] at hreads
      obtain ⟨_, rfl⟩ := hreads
      exact hafter.of_kind (by rcases hkind with hkind | hkind <;> simp [hkind])
  | operator =>
      obtain ⟨_, right, mid, hright, _, rfl⟩ := gives_readPrefix_operator.mp hreads
      have hnext := ih.readable (.expression _ right) hright rfl hgrammar
        (by simp only [rank, Phrase.rank, left_next]; omega) trivial hafter
      exact hnext.of_kind (by rcases hkind with hkind | hkind <;> simp [hkind])
  | grouped =>
      obtain ⟨_, inner, mid, hinner, hclose⟩ := gives_readPrefix_grouped.mp hreads
      have hmid : mid.next.Readable := by
        rcases hclose with ⟨hclose, _, rfl⟩ | ⟨_, _, rfl⟩
        · exact .of_peek hclose (by decide) hafter
        · exact hafter
      have hnext := ih.readable (.expression _ inner) hinner rfl hgrammar
        (by simp only [rank, Phrase.rank, left_next]; omega) trivial hmid
      exact hnext.of_kind (by simp [hkind])
  | conditional =>
      simp only [Reads, readPrefix] at hreads
      exact ih.readable (.conditional node) hreads rfl hgrammar (by simp [rank, Phrase.rank])
        hkind hafter
  | function => exact covers_function ih after hreads hgrammar hopens hafter
  | array =>
      obtain ⟨_, elements, mid, helements, _, rfl⟩ := gives_readPrefix_array.mp hreads
      have hnext := ih.readable (.list _ elements) helements rfl hgrammar
        (by simp only [rank, Phrase.rank, left_next]; omega) (by simp [Opens]) hafter
      exact hnext.of_kind (by simp [hkind])
  | hash =>
      obtain ⟨_, pairs, mid, hpairs, _, rfl⟩ := gives_readPrefix_hash.mp hreads
      have hnext := ih.readable (.pairs pairs) hpairs rfl hgrammar
        (by simp only [rank, Phrase.rank, left_next]; omega) trivial hafter
      exact hnext.of_kind (by simp [hkind])

theorem covers_expression {power : Int} {node : Node}
    (ih : CoversBelow (parser.rank (.expression power node))) :
    parser.Covers (.expression power node) := by
  intro after hreads hgrammar _ hafter
  show parser.Readable
  rcases gives_readExpression.mp hreads with
    ⟨hnone, _, rfl⟩ | ⟨rule, hrule, left, mid, hleft, hrest⟩
  · refine Readable.of_kind (fun hkind => ?_) hafter
    rw [hgrammar, hkind] at hnone
    cases hnone
  · have hle := hleft.left_le
    have hgrammar' := (before_of_reads (.opening rule left) hleft).grammar.trans hgrammar
    have hmid := ih.readable (.extension power left node) hrest rfl hgrammar'
      (by simp only [rank, Phrase.rank]; omega) trivial hafter
    exact ih.readable (.opening rule left) hleft rfl hgrammar
      (by simp only [rank, Phrase.rank]; omega) (by rwa [Opens, ← hgrammar]) hmid

theorem covers_readInfix {rule : InfixRule} {left node : Node} {after : Parser}
    (ih : CoversBelow (8 * parser.left)) (hleft : parser.left ≠ 0)
    (hgrammar : parser.grammar = .standard) (hreads : (parser.readInfix rule left).Gives node after)
    (hafter : after.next.Readable) : parser.next.Readable := by
  cases rule with
  | operator binding right =>
      obtain ⟨operand, _, hoperand, _, rfl⟩ := (gives_readInfix_operator hleft).mp hreads
      exact ih.readable (.expression _ operand) hoperand rfl hgrammar
        (by simp only [rank, Phrase.rank, left_next]; omega) trivial hafter
  | call =>
      obtain ⟨arguments, _, harguments, _, rfl⟩ := (gives_readInfix_call hleft).mp hreads
      exact ih.readable (.list _ arguments) harguments rfl hgrammar
        (by simp only [rank, Phrase.rank, left_next]; omega) (by simp [Opens]) hafter
  | index =>
      obtain ⟨index, last, hindex, hclose⟩ := (gives_readInfix_index hleft).mp hreads
      have hlast : last.next.Readable := by
        rcases hclose with ⟨hclose, _, rfl⟩ | ⟨_, _, rfl⟩
        · exact .of_peek hclose (by decide) hafter
        · exact hafter
      exact ih.readable (.expression _ index) hindex rfl hgrammar
        (by simp only [rank, Phrase.rank, left_next]; omega) trivial hlast

theorem covers_extension {power : Int} {left node : Node}
    (ih : CoversBelow (parser.rank (.extension power left node))) :
    parser.Covers (.extension power left node) := by
  intro after hreads hgrammar _ hafter
  show parser.next.Readable
  rcases gives_extend.mp hreads with
    ⟨_, _, rfl⟩ | ⟨hend, _, rule, hrule, more, mid, hmore, hrest⟩
  · exact hafter
  have hlt : 1 < parser.left := one_lt_left hend
  have hnext : parser.next.left ≠ 0 := by rw [left_next]; omega
  have hle := hmore.left_le
  rw [left_next] at hle
  have hgrammar' := (before_readInfix (forwardBelow _) hnext hmore).grammar.trans hgrammar
  have hmid := ih.readable (.extension power more node) hrest rfl hgrammar'
    (by simp only [rank, Phrase.rank]; omega) trivial hafter
  have hinside : parser.next.next.Readable := by
    refine covers_readInfix ?_ hnext hgrammar hmore hmid
    intro parser' phrase' hrank
    refine ih parser' phrase' (Nat.lt_trans hrank ?_)
    simp only [rank, Phrase.rank, left_next]
    omega
  apply Readable.of_peek rfl ?_ hinside
  intro hkind
  rw [hgrammar, hkind] at hrule
  cases hrule

theorem covers_conditional {node : Node} (ih : CoversBelow (parser.rank (.conditional node))) :
    parser.Covers (.conditional node) := by
  intro after hreads hgrammar hkind hafter
  show parser.Readable
  apply Readable.of_kind (by rw [show parser.current.kind = .ifWord from hkind]; decide)
  rcases gives_readIf.mp hreads with ⟨_, _, rfl⟩ | ⟨hopen, condition, mid, hcondition, hrest⟩
  · exact hafter
  have hlt : 1 < parser.left := one_lt_left (by simp [hopen])
  have hle := hcondition.left_le
  rw [left_next, left_next] at hle
  have hgrammar' := (before_of_reads (.expression _ condition) hcondition).grammar.trans hgrammar
  apply Readable.of_peek hopen (by decide)
  apply ih.readable (.expression _ condition) hcondition rfl hgrammar
    (by simp only [rank, Phrase.rank, left_next]; omega) trivial
  rcases hrest with ⟨_, _, rfl⟩ | ⟨hclose, ⟨_, _, rfl⟩ | ⟨hbrace, body, last, hbody, helse⟩⟩
  · exact hafter
  · exact .of_peek hclose (by decide) hafter
  have hle' := hbody.left_le
  rw [left_next, left_next] at hle'
  have hgrammar'' := (before_of_reads (.block body) hbody).grammar.trans hgrammar'
  have hlast := ih.readable (.otherwise _ _ _ node) helse rfl hgrammar''
    (by simp only [rank, Phrase.rank]; omega) trivial hafter
  apply Readable.of_peek hclose (by decide)
  exact ih.readable (.block body) hbody rfl hgrammar'
    (by simp only [rank, Phrase.rank, left_next]; omega) hbrace hlast

theorem covers_otherwise {token : Token} {condition consequence node : Node}
    (ih : CoversBelow (parser.rank (.otherwise token condition consequence node))) :
    parser.Covers (.otherwise token condition consequence node) := by
  intro after hreads hgrammar _ hafter
  show parser.next.Readable
  rcases gives_readElse.mp hreads with ⟨_, _, rfl⟩ | ⟨hword, hrest⟩
  · exact hafter
  have hlt : 1 < parser.left := one_lt_left (by simp [hword])
  apply Readable.of_peek hword (by decide)
  rcases hrest with ⟨hbrace, alternative, hblock, _⟩ | ⟨hif, alternative, hcond, _⟩ |
      ⟨_, _, _, rfl⟩
  · exact ih.readable (.block alternative) hblock rfl hgrammar
      (by simp only [rank, Phrase.rank, left_next]; omega) hbrace hafter
  · exact ih.readable (.conditional alternative) hcond rfl hgrammar
      (by simp only [rank, Phrase.rank, left_next]; omega) hif hafter
  · exact hafter

theorem covers_list {close : Kind} {nodes : Option (List Node)}
    (ih : CoversBelow (parser.rank (.list close nodes))) : parser.Covers (.list close nodes) := by
  intro after hreads hgrammar hopens hafter
  show parser.Readable
  rcases gives_readList.mp hreads with ⟨hclose, _, rfl⟩ | ⟨_, helements⟩
  · exact hafter.of_kind (hclose ▸ hopens)
  · exact ih.readable (.elements close nodes) helements rfl hgrammar
      (by simp only [rank, Phrase.rank]; omega) hopens hafter

theorem covers_elements {close : Kind} {nodes : Option (List Node)}
    (ih : CoversBelow (parser.rank (.elements close nodes))) :
    parser.Covers (.elements close nodes) := by
  intro after hreads hgrammar hopens hafter
  show parser.Readable
  obtain ⟨element, mid, helement, hrest⟩ := gives_readElements.mp hreads
  have hle := helement.left_le
  have hgrammar' := (before_of_reads (.expression _ element) helement).grammar.trans hgrammar
  apply ih.readable (.expression _ element) helement rfl hgrammar
    (by simp only [rank, Phrase.rank]; omega) trivial
  rcases hrest with ⟨hcomma, rest, hrest, _⟩ | ⟨_, hclose, _, rfl⟩ | ⟨_, _, _, rfl⟩
  · have hlt : 1 < mid.left := one_lt_left (by simp [hcomma])
    apply Readable.of_peek hcomma (by decide)
    exact ih.readable (.elements close rest) hrest rfl hgrammar'
      (by simp only [rank, Phrase.rank, left_next]; omega) hopens hafter
  · exact .of_peek hclose hopens hafter
  · exact hafter

theorem covers_pairs {pairs : Option (List (Node × Node))}
    (ih : CoversBelow (parser.rank (.pairs pairs))) : parser.Covers (.pairs pairs) := by
  intro after hreads hgrammar _ hafter
  show parser.Readable
  rcases gives_readPairs.mp hreads with ⟨hclose, _, rfl⟩ | ⟨_, key, mid, hkey, hrest⟩
  · exact hafter.of_kind (by rw [hclose]; decide)
  have hle := hkey.left_le
  have hgrammar' := (before_of_reads (.expression _ key) hkey).grammar.trans hgrammar
  apply ih.readable (.expression _ key) hkey rfl hgrammar
    (by simp only [rank, Phrase.rank]; omega) trivial
  rcases hrest with ⟨_, _, rfl⟩ | ⟨hcolon, value, last, hvalue, hrest⟩
  · exact hafter
  have hlt : 1 < mid.left := one_lt_left (by simp [hcolon])
  have hle' := hvalue.left_le
  rw [left_next, left_next] at hle'
  have hgrammar'' := (before_of_reads (.expression _ value) hvalue).grammar.trans hgrammar'
  apply Readable.of_peek hcolon (by decide)
  apply ih.readable (.expression _ value) hvalue rfl hgrammar'
    (by simp only [rank, Phrase.rank, left_next]; omega) trivial
  rcases hrest with ⟨hclose, _, rfl⟩ | ⟨hcomma, rest, hrest, _⟩ | ⟨_, _, _, rfl⟩
  · exact .of_peek hclose (by decide) hafter
  · apply Readable.of_peek hcomma (by decide)
    exact ih.readable (.pairs rest) hrest rfl hgrammar''
      (by simp only [rank, Phrase.rank, left_next]; omega) trivial hafter
  · exact hafter

theorem covers_block {node : Node} (ih : CoversBelow (parser.rank (.block node))) :
    parser.Covers (.block node) := by
  intro after hreads hgrammar hkind hafter
  show parser.Readable
  have hleft : parser.left ≠ 0 := Nat.ne_of_gt (Parser.left_pos (by rw [hkind]; decide))
  obtain ⟨statements, mid, hbody, _, hend⟩ := gives_readBlock.mp hreads
  have hmid : mid.next.Readable := by
    rcases hend with ⟨_, rfl⟩ | ⟨_, rfl⟩
    · exact hafter
    · exact hafter
  have hnext := ih.readable (.body statements) hbody rfl hgrammar
    (by simp only [rank, Phrase.rank, left_next]; omega) trivial hmid
  exact hnext.of_kind (by rw [show parser.current.kind = .lbrace from hkind]; decide)

theorem covers_body {statements : List Node}
    (ih : CoversBelow (parser.rank (.body statements))) : parser.Covers (.body statements) := by
  intro after hreads hgrammar _ hafter
  show parser.Readable
  rcases gives_readBody.mp hreads with
    ⟨hclose, _, rfl⟩ | ⟨_, hend, statement, mid, hread, rest, hrest, _⟩
  · exact hafter.of_kind (by rcases hclose with hclose | hclose <;> simp [hclose])
  have hpos := Parser.left_pos hend
  have hle := hread.left_le
  have hgrammar' := (before_of_reads (.statement statement) hread).grammar.trans hgrammar
  have hmid := ih.readable (.body rest) hrest rfl hgrammar'
    (by simp only [rank, Phrase.rank, left_next]; omega) trivial hafter
  exact ih.readable (.statement statement) hread rfl hgrammar
    (by simp only [rank, Phrase.rank]; omega) trivial hmid

theorem covers_sentence {statement : Option Node}
    (ih : CoversBelow (parser.rank (.sentence statement))) :
    parser.Covers (.sentence statement) := by
  intro after hreads hgrammar _ hafter
  show parser.Readable
  simp only [Reads, GivesSentence] at hreads
  split at hreads
  · next hkind =>
    have hleft : parser.left ≠ 0 := Nat.ne_of_gt (Parser.left_pos (by rw [hkind]; decide))
    apply Readable.of_kind (by rw [hkind]; decide)
    rcases gives_readLet.mp hreads with
      ⟨_, _, rfl⟩ | ⟨hname, ⟨_, _, rfl⟩ | ⟨hassign, value, hvalue, _⟩⟩
    · exact hafter
    · exact .of_peek hname (by decide) hafter
    · apply Readable.of_peek hname (by decide)
      apply Readable.of_peek hassign (by decide)
      exact ih.readable (.expression _ value) hvalue rfl hgrammar
        (by simp only [rank, Phrase.rank, left_next]; omega) trivial hafter
  · next hkind =>
    have hleft : parser.left ≠ 0 := Nat.ne_of_gt (Parser.left_pos (by rw [hkind]; decide))
    obtain ⟨node, hnode, _⟩ := hreads
    obtain ⟨value, hvalue, _⟩ := gives_readReturn.mp hnode
    apply Readable.of_kind (by rw [hkind]; decide)
    exact ih.readable (.expression _ value) hvalue rfl hgrammar
      (by simp only [rank, Phrase.rank, left_next]; omega) trivial hafter
  · next hkind =>
    obtain ⟨_, rfl⟩ := hreads
    exact hafter.of_kind (by rw [hkind]; decide)
  · obtain ⟨node, hnode, _⟩ := hreads
    exact ih.readable (.expression _ node) hnode rfl hgrammar
      (by simp only [rank, Phrase.rank]; omega) trivial hafter

theorem covers_statement {statement : Option Node}
    (ih : CoversBelow (parser.rank (.statement statement))) :
    parser.Covers (.statement statement) := by
  intro after hreads hgrammar _ hafter
  show parser.Readable
  obtain ⟨mid, hsentence, hend⟩ := gives_readStatement.mp hreads
  apply ih.readable (.sentence statement) hsentence rfl hgrammar
    (by simp only [rank, Phrase.rank]; omega) trivial
  rcases hend with ⟨_, hkind, rfl⟩ | ⟨_, rfl⟩
  · exact .of_peek hkind (by decide) hafter
  · exact hafter

end Covers

/-- Every literal that reading passes has a value. -/
theorem covers (parser : Parser) (phrase : Phrase) : parser.Covers phrase := by
  induction parser, phrase using rank_induction with
  | step parser phrase ih =>
      cases phrase with
      | expression power node => exact covers_expression ih
      | opening rule node => exact covers_opening ih
      | extension power left node => exact covers_extension ih
      | conditional node => exact covers_conditional ih
      | otherwise token condition consequence node => exact covers_otherwise ih
      | list close nodes => exact covers_list ih
      | elements close nodes => exact covers_elements ih
      | pairs pairs => exact covers_pairs ih
      | block node => exact covers_block ih
      | body statements => exact covers_body ih
      | sentence statement => exact covers_sentence ih
      | statement statement => exact covers_statement ih

/-! ### Nothing but a literal ends the parse -/

/-- Reading a phrase of this form from here gives something. -/
def Answers (parser : Parser) : Phrase → Prop
  | .expression power _ => ∃ node after, (parser.readExpression power).Gives node after
  | .opening rule _ => ∃ node after, (parser.readPrefix rule).Gives node after
  | .extension power left _ => ∃ node after, (parser.extend power left).Gives node after
  | .conditional _ => ∃ node after, parser.readIf.Gives node after
  | .otherwise token condition consequence _ =>
      ∃ node after, (parser.readElse token condition consequence).Gives node after
  | .list close _ => ∃ nodes after, (parser.readList close).Gives nodes after
  | .elements close _ => ∃ nodes after, (parser.readElements close).Gives nodes after
  | .pairs _ => ∃ pairs after, parser.readPairs.Gives pairs after
  | .block _ => ∃ node after, parser.readBlock.Gives node after
  | .body _ => ∃ statements after, parser.readBody.Gives statements after
  | .sentence _ => ∃ statement after, parser.GivesSentence statement after
  | .statement _ => ∃ statement after, parser.readStatement.Gives statement after

def AnswersBelow (bound : Nat) : Prop :=
  ∀ (parser : Parser) (phrase : Phrase), parser.rank phrase < bound →
    parser.grammar = .standard → parser.Opens phrase → parser.Readable → parser.Answers phrase

section Answers

variable {parser : Parser}

theorem answers_function {node : Node}
    (ih : AnswersBelow (parser.rank (.opening .function node)))
    (hgrammar : parser.grammar = .standard) (hreadable : parser.Readable) :
    parser.Answers (.opening .function node) := by
  by_cases hopen : parser.peek.kind = .lparen
  · rcases hparameters : parser.next.readParameters with ⟨names, mid⟩
    have hbefore := before_readParameters parser.next
    rw [hparameters] at hbefore
    cases names with
    | none =>
        exact ⟨_, _, gives_readPrefix_function.mpr
          (Or.inr ⟨hopen, none, mid, hparameters, Or.inl ⟨rfl, rfl, rfl⟩⟩)⟩
    | some parameters =>
        by_cases hbrace : mid.peek.kind = .lbrace
        · have hlt : 1 < mid.left := one_lt_left (by simp [hbrace])
          have hle := hbefore.pending.length_le
          have hmid := (before_next _).trans (hbefore.trans (before_next _))
          obtain ⟨body, after, hbody⟩ := ih mid.next (.block .missing)
            (by simp only [rank, Phrase.rank, left, next, List.length_tail] at hlt hle ⊢; omega)
            (hmid.grammar.trans hgrammar) hbrace (hreadable.before hmid)
          exact ⟨_, _, gives_readPrefix_function.mpr (Or.inr ⟨hopen, _, mid, hparameters,
            Or.inr ⟨parameters, rfl, Or.inr ⟨hbrace, body, hbody, rfl⟩⟩⟩)⟩
        · exact ⟨_, _, gives_readPrefix_function.mpr (Or.inr ⟨hopen, _, mid, hparameters,
            Or.inr ⟨parameters, rfl, Or.inl ⟨hbrace, rfl, rfl⟩⟩⟩)⟩
  · exact ⟨_, _, gives_readPrefix_function.mpr (Or.inl ⟨hopen, rfl, rfl⟩)⟩

theorem answers_opening {rule : PrefixRule} {node : Node}
    (ih : AnswersBelow (parser.rank (.opening rule node)))
    (hgrammar : parser.grammar = .standard) (hopens : parser.Opens (.opening rule node))
    (hreadable : parser.Readable) : parser.Answers (.opening rule node) := by
  have hkind := Grammar.kind_of_prefixRule? hopens
  have hleft : parser.left ≠ 0 := @left_ne_zero_of_opening parser rule node hopens
  have hnext := hreadable.before (before_next parser)
  cases rule with
  | integer =>
      obtain ⟨value, hread⟩ := hreadable _ (current_mem_pending hleft) hkind
      simp only [Answers, readPrefix]
      by_cases hrange : minInteger ≤ value ∧ value ≤ maxInteger
      · exact ⟨_, _, gives_readInteger.mpr ⟨value, hread, Or.inl ⟨hrange, rfl, rfl⟩⟩⟩
      · exact ⟨_, _, gives_readInteger.mpr ⟨value, hread, Or.inr ⟨hrange, rfl, rfl⟩⟩⟩
  | string | identifier | boolean =>
      simp only [Answers, readPrefix]
      exact ⟨_, _, gives_done.mpr ⟨rfl, rfl⟩⟩
  | operator =>
      obtain ⟨right, mid, hright⟩ := ih parser.next (.expression Power.sign .missing)
        (by simp only [rank, Phrase.rank, left_next]; omega) hgrammar trivial hnext
      exact ⟨_, _, gives_readPrefix_operator.mpr ⟨hleft, right, mid, hright, rfl, rfl⟩⟩
  | grouped =>
      obtain ⟨inner, mid, hinner⟩ := ih parser.next (.expression Power.lowest .missing)
        (by simp only [rank, Phrase.rank, left_next]; omega) hgrammar trivial hnext
      by_cases hclose : mid.peek.kind = .rparen
      · exact ⟨_, _, gives_readPrefix_grouped.mpr
          ⟨hleft, inner, mid, hinner, Or.inl ⟨hclose, rfl, rfl⟩⟩⟩
      · exact ⟨_, _, gives_readPrefix_grouped.mpr
          ⟨hleft, inner, mid, hinner, Or.inr ⟨hclose, rfl, rfl⟩⟩⟩
  | conditional =>
      obtain ⟨result, after, hresult⟩ := ih parser (.conditional .missing)
        (by simp [rank, Phrase.rank]) hgrammar hkind hreadable
      simp only [Answers, readPrefix]
      exact ⟨result, after, hresult⟩
  | function => exact answers_function ih hgrammar hreadable
  | array =>
      obtain ⟨elements, mid, helements⟩ := ih parser.next (.list .rbracket none)
        (by simp only [rank, Phrase.rank, left_next]; omega) hgrammar (by simp [Opens]) hnext
      exact ⟨_, _, gives_readPrefix_array.mpr ⟨hleft, elements, mid, helements, rfl, rfl⟩⟩
  | hash =>
      obtain ⟨pairs, mid, hpairs⟩ := ih parser.next (.pairs none)
        (by simp only [rank, Phrase.rank, left_next]; omega) hgrammar trivial hnext
      exact ⟨_, _, gives_readPrefix_hash.mpr ⟨hleft, pairs, mid, hpairs, rfl, rfl⟩⟩

theorem answers_expression {power : Int} {node : Node}
    (ih : AnswersBelow (parser.rank (.expression power node)))
    (hgrammar : parser.grammar = .standard) (hreadable : parser.Readable) :
    parser.Answers (.expression power node) := by
  cases hrule : parser.grammar.prefixRule? parser.current.kind with
  | none => exact ⟨_, _, gives_readExpression.mpr (Or.inl ⟨hrule, rfl, rfl⟩)⟩
  | some rule =>
      obtain ⟨left, mid, hleft⟩ := ih parser (.opening rule .missing)
        (by simp only [rank, Phrase.rank]; omega) hgrammar (by rwa [Opens, ← hgrammar]) hreadable
      have hle := hleft.left_le
      have hmid := before_of_reads (.opening rule left) hleft
      obtain ⟨result, after, hresult⟩ := ih mid (.extension power left .missing)
        (by simp only [rank, Phrase.rank]; omega) (hmid.grammar.trans hgrammar) trivial
        (hreadable.before hmid)
      exact ⟨_, _, gives_readExpression.mpr
        (Or.inr ⟨rule, hrule, left, mid, hleft, hresult⟩)⟩

theorem answers_readInfix (rule : InfixRule) (left : Node)
    (ih : AnswersBelow (8 * parser.left)) (hleft : parser.left ≠ 0)
    (hgrammar : parser.grammar = .standard) (hreadable : parser.Readable) :
    ∃ node after, (parser.readInfix rule left).Gives node after := by
  have hnext := hreadable.before (before_next parser)
  cases rule with
  | operator binding right =>
      obtain ⟨operand, mid, hoperand⟩ := ih parser.next
        (.expression (InfixRule.operator binding right).rightPower .missing)
        (by simp only [rank, Phrase.rank, left_next]; omega) hgrammar trivial hnext
      exact ⟨_, _, (gives_readInfix_operator hleft).mpr ⟨operand, mid, hoperand, rfl, rfl⟩⟩
  | call =>
      obtain ⟨arguments, mid, harguments⟩ := ih parser.next (.list .rparen none)
        (by simp only [rank, Phrase.rank, left_next]; omega) hgrammar (by simp [Opens]) hnext
      exact ⟨_, _, (gives_readInfix_call hleft).mpr ⟨arguments, mid, harguments, rfl, rfl⟩⟩
  | index =>
      obtain ⟨index, mid, hindex⟩ := ih parser.next (.expression Power.lowest .missing)
        (by simp only [rank, Phrase.rank, left_next]; omega) hgrammar trivial hnext
      by_cases hclose : mid.peek.kind = .rbracket
      · exact ⟨_, _, (gives_readInfix_index hleft).mpr
          ⟨index, mid, hindex, Or.inl ⟨hclose, rfl, rfl⟩⟩⟩
      · exact ⟨_, _, (gives_readInfix_index hleft).mpr
          ⟨index, mid, hindex, Or.inr ⟨hclose, rfl, rfl⟩⟩⟩

theorem answers_extension {power : Int} {left node : Node}
    (ih : AnswersBelow (parser.rank (.extension power left node)))
    (hgrammar : parser.grammar = .standard) (hreadable : parser.Readable) :
    parser.Answers (.extension power left node) := by
  by_cases hend : parser.peek.kind = .eof
  · exact ⟨_, _, gives_extend.mpr (Or.inl ⟨Or.inl hend, rfl, rfl⟩)⟩
  by_cases hpower : parser.peekPower ≤ power
  · exact ⟨_, _, gives_extend.mpr (Or.inl ⟨Or.inr (Or.inl hpower), rfl, rfl⟩)⟩
  cases hrule : parser.grammar.infixRule? parser.peek.kind with
  | none => exact ⟨_, _, gives_extend.mpr (Or.inl ⟨Or.inr (Or.inr hrule), rfl, rfl⟩)⟩
  | some rule =>
      have hlt : 1 < parser.left := one_lt_left hend
      have hnext : parser.next.left ≠ 0 := by rw [left_next]; omega
      have hinfix : AnswersBelow (8 * parser.next.left) := by
        intro parser' phrase' hrank
        refine ih parser' phrase' (Nat.lt_trans hrank ?_)
        simp only [rank, Phrase.rank, left_next]
        omega
      obtain ⟨more, mid, hmore⟩ := answers_readInfix rule left hinfix hnext hgrammar
        (hreadable.before (before_next parser))
      have hmid := (before_next parser).trans (before_readInfix (forwardBelow _) hnext hmore)
      have hle := hmore.left_le
      rw [left_next] at hle
      obtain ⟨result, after, hresult⟩ := ih mid (.extension power more .missing)
        (by simp only [rank, Phrase.rank]; omega) (hmid.grammar.trans hgrammar) trivial
        (hreadable.before hmid)
      exact ⟨_, _, gives_extend.mpr
        (Or.inr ⟨hend, Int.not_le.mp hpower, rule, hrule, more, mid, hmore, hresult⟩)⟩

theorem answers_conditional {node : Node}
    (ih : AnswersBelow (parser.rank (.conditional node)))
    (hgrammar : parser.grammar = .standard) (hreadable : parser.Readable) :
    parser.Answers (.conditional node) := by
  by_cases hopen : parser.peek.kind = .lparen
  case neg => exact ⟨_, _, gives_readIf.mpr (Or.inl ⟨hopen, rfl, rfl⟩)⟩
  have hlt : 1 < parser.left := one_lt_left (by simp [hopen])
  have htwice := (before_next parser).trans (before_next _)
  obtain ⟨condition, mid, hcondition⟩ := ih parser.next.next (.expression Power.lowest .missing)
    (by simp only [rank, Phrase.rank, left_next]; omega) hgrammar trivial
    (hreadable.before htwice)
  have hmid := htwice.trans (before_of_reads (.expression _ condition) hcondition)
  have hle := hcondition.left_le
  rw [left_next, left_next] at hle
  by_cases hclose : mid.peek.kind = .rparen
  case neg => exact ⟨_, _, gives_readIf.mpr
      (Or.inr ⟨hopen, condition, mid, hcondition, Or.inl ⟨hclose, rfl, rfl⟩⟩)⟩
  by_cases hbrace : mid.next.peek.kind = .lbrace
  case neg => exact ⟨_, _, gives_readIf.mpr (Or.inr ⟨hopen, condition, mid, hcondition,
      Or.inr ⟨hclose, Or.inl ⟨hbrace, rfl, rfl⟩⟩⟩)⟩
  have hinside := (hmid.trans (before_next _)).trans (before_next _)
  obtain ⟨body, last, hbody⟩ := ih mid.next.next (.block .missing)
    (by simp only [rank, Phrase.rank, left_next]; omega) (hinside.grammar.trans hgrammar)
    hbrace (hreadable.before hinside)
  have hlast := hinside.trans (before_of_reads (.block body) hbody)
  have hle' := hbody.left_le
  rw [left_next, left_next] at hle'
  obtain ⟨result, after, hresult⟩ := ih last (.otherwise parser.current condition body .missing)
    (by simp only [rank, Phrase.rank]; omega) (hlast.grammar.trans hgrammar) trivial
    (hreadable.before hlast)
  exact ⟨_, _, gives_readIf.mpr (Or.inr ⟨hopen, condition, mid, hcondition,
    Or.inr ⟨hclose, Or.inr ⟨hbrace, body, last, hbody, hresult⟩⟩⟩)⟩

theorem answers_otherwise {token : Token} {condition consequence node : Node}
    (ih : AnswersBelow (parser.rank (.otherwise token condition consequence node)))
    (hgrammar : parser.grammar = .standard) (hreadable : parser.Readable) :
    parser.Answers (.otherwise token condition consequence node) := by
  by_cases hword : parser.peek.kind = .elseWord
  case neg => exact ⟨_, _, gives_readElse.mpr (Or.inl ⟨hword, rfl, rfl⟩)⟩
  have hlt : 1 < parser.left := one_lt_left (by simp [hword])
  have hinside := hreadable.before ((before_next parser).trans (before_next _))
  by_cases hbrace : parser.next.peek.kind = .lbrace
  · obtain ⟨alternative, after, hblock⟩ := ih parser.next.next (.block .missing)
      (by simp only [rank, Phrase.rank, left_next]; omega) hgrammar hbrace hinside
    exact ⟨_, _, gives_readElse.mpr (Or.inr ⟨hword, Or.inl ⟨hbrace, alternative, hblock, rfl⟩⟩)⟩
  by_cases hif : parser.next.peek.kind = .ifWord
  · obtain ⟨alternative, after, hcond⟩ := ih parser.next.next (.conditional .missing)
      (by simp only [rank, Phrase.rank, left_next]; omega) hgrammar hif hinside
    exact ⟨_, _, gives_readElse.mpr
      (Or.inr ⟨hword, Or.inr (Or.inl ⟨hif, alternative, hcond, rfl⟩)⟩)⟩
  · exact ⟨_, _, gives_readElse.mpr
      (Or.inr ⟨hword, Or.inr (Or.inr ⟨hbrace, hif, rfl, rfl⟩)⟩)⟩

theorem answers_elements {close : Kind} {nodes : Option (List Node)}
    (ih : AnswersBelow (parser.rank (.elements close nodes)))
    (hgrammar : parser.grammar = .standard) (hclose : close ≠ .int)
    (hreadable : parser.Readable) : parser.Answers (.elements close nodes) := by
  obtain ⟨element, mid, helement⟩ := ih parser (.expression Power.lowest .missing)
    (by simp only [rank, Phrase.rank]; omega) hgrammar trivial hreadable
  have hmid := before_of_reads (.expression _ element) helement
  have hle := helement.left_le
  by_cases hcomma : mid.peek.kind = .comma
  · have hlt : 1 < mid.left := one_lt_left (by simp [hcomma])
    have hnext := (hmid.trans (before_next _)).trans (before_next _)
    obtain ⟨rest, after, hrest⟩ := ih mid.next.next (.elements close none)
      (by simp only [rank, Phrase.rank, left_next]; omega) (hnext.grammar.trans hgrammar) hclose
      (hreadable.before hnext)
    exact ⟨_, _, gives_readElements.mpr
      ⟨element, mid, helement, Or.inl ⟨hcomma, rest, hrest, rfl⟩⟩⟩
  by_cases hkind : mid.peek.kind = close
  · exact ⟨_, _, gives_readElements.mpr
      ⟨element, mid, helement, Or.inr (Or.inl ⟨hcomma, hkind, rfl, rfl⟩)⟩⟩
  · exact ⟨_, _, gives_readElements.mpr
      ⟨element, mid, helement, Or.inr (Or.inr ⟨hcomma, hkind, rfl, rfl⟩)⟩⟩

theorem answers_pairs {pairs : Option (List (Node × Node))}
    (ih : AnswersBelow (parser.rank (.pairs pairs)))
    (hgrammar : parser.grammar = .standard) (hreadable : parser.Readable) :
    parser.Answers (.pairs pairs) := by
  by_cases hclose : parser.current.kind = .rbrace
  · exact ⟨_, _, gives_readPairs.mpr (Or.inl ⟨hclose, rfl, rfl⟩)⟩
  obtain ⟨key, mid, hkey⟩ := ih parser (.expression Power.lowest .missing)
    (by simp only [rank, Phrase.rank]; omega) hgrammar trivial hreadable
  have hmid := before_of_reads (.expression _ key) hkey
  have hle := hkey.left_le
  by_cases hcolon : mid.peek.kind = .colon
  case neg => exact ⟨_, _, gives_readPairs.mpr
      (Or.inr ⟨hclose, key, mid, hkey, Or.inl ⟨hcolon, rfl, rfl⟩⟩)⟩
  have hlt : 1 < mid.left := one_lt_left (by simp [hcolon])
  have hnext := (hmid.trans (before_next _)).trans (before_next _)
  obtain ⟨value, last, hvalue⟩ := ih mid.next.next (.expression Power.lowest .missing)
    (by simp only [rank, Phrase.rank, left_next]; omega) (hnext.grammar.trans hgrammar) trivial
    (hreadable.before hnext)
  have hlast := hnext.trans (before_of_reads (.expression _ value) hvalue)
  have hle' := hvalue.left_le
  rw [left_next, left_next] at hle'
  by_cases hbrace : last.peek.kind = .rbrace
  · exact ⟨_, _, gives_readPairs.mpr (Or.inr ⟨hclose, key, mid, hkey,
      Or.inr ⟨hcolon, value, last, hvalue, Or.inl ⟨hbrace, rfl, rfl⟩⟩⟩)⟩
  by_cases hcomma : last.peek.kind = .comma
  · have hmore := (hlast.trans (before_next _)).trans (before_next _)
    obtain ⟨rest, after, hrest⟩ := ih last.next.next (.pairs none)
      (by simp only [rank, Phrase.rank, left_next]; omega) (hmore.grammar.trans hgrammar) trivial
      (hreadable.before hmore)
    exact ⟨_, _, gives_readPairs.mpr (Or.inr ⟨hclose, key, mid, hkey,
      Or.inr ⟨hcolon, value, last, hvalue, Or.inr (Or.inl ⟨hcomma, rest, hrest, rfl⟩)⟩⟩)⟩
  · exact ⟨_, _, gives_readPairs.mpr (Or.inr ⟨hclose, key, mid, hkey,
      Or.inr ⟨hcolon, value, last, hvalue, Or.inr (Or.inr ⟨hbrace, hcomma, rfl, rfl⟩)⟩⟩)⟩

theorem answers_block {node : Node} (ih : AnswersBelow (parser.rank (.block node)))
    (hgrammar : parser.grammar = .standard) (hkind : parser.Opens (.block node))
    (hreadable : parser.Readable) : parser.Answers (.block node) := by
  have hleft : parser.left ≠ 0 := Nat.ne_of_gt (Parser.left_pos (by rw [hkind]; decide))
  obtain ⟨statements, mid, hbody⟩ := ih parser.next (.body [])
    (by simp only [rank, Phrase.rank, left_next]; omega) hgrammar trivial
    (hreadable.before (before_next parser))
  by_cases hend : mid.current.kind = .eof
  · exact ⟨_, _, gives_readBlock.mpr ⟨statements, mid, hbody, rfl, Or.inr ⟨hend, rfl⟩⟩⟩
  · exact ⟨_, _, gives_readBlock.mpr ⟨statements, mid, hbody, rfl, Or.inl ⟨hend, rfl⟩⟩⟩

theorem answers_body {statements : List Node} (ih : AnswersBelow (parser.rank (.body statements)))
    (hgrammar : parser.grammar = .standard) (hreadable : parser.Readable) :
    parser.Answers (.body statements) := by
  by_cases hclose : parser.current.kind = .rbrace ∨ parser.current.kind = .eof
  · exact ⟨_, _, gives_readBody.mpr (Or.inl ⟨hclose, rfl, rfl⟩)⟩
  obtain ⟨hbrace, hend⟩ := not_or.mp hclose
  have hpos := Parser.left_pos hend
  obtain ⟨statement, mid, hread⟩ := ih parser (.statement none)
    (by simp only [rank, Phrase.rank]; omega) hgrammar trivial hreadable
  have hle := hread.left_le
  have hnext := (before_of_reads (.statement statement) hread).trans (before_next _)
  obtain ⟨rest, after, hrest⟩ := ih mid.next (.body [])
    (by simp only [rank, Phrase.rank, left_next]; omega) (hnext.grammar.trans hgrammar) trivial
    (hreadable.before hnext)
  exact ⟨_, _, gives_readBody.mpr
    (Or.inr ⟨hbrace, hend, statement, mid, hread, rest, hrest, rfl⟩)⟩

theorem answers_sentence {statement : Option Node}
    (ih : AnswersBelow (parser.rank (.sentence statement)))
    (hgrammar : parser.grammar = .standard) (hreadable : parser.Readable) :
    parser.Answers (.sentence statement) := by
  simp only [Answers, GivesSentence]
  split
  · next hkind =>
    have hleft : parser.left ≠ 0 := Nat.ne_of_gt (Parser.left_pos (by rw [hkind]; decide))
    by_cases hname : parser.peek.kind = .ident
    case neg => exact ⟨_, _, gives_readLet.mpr (Or.inl ⟨hname, rfl, rfl⟩)⟩
    by_cases hassign : parser.next.peek.kind = .assign
    case neg => exact ⟨_, _, gives_readLet.mpr (Or.inr ⟨hname, Or.inl ⟨hassign, rfl, rfl⟩⟩)⟩
    have hnext := ((before_next parser).trans (before_next _)).trans (before_next _)
    obtain ⟨value, after, hvalue⟩ := ih parser.next.next.next (.expression Power.lowest .missing)
      (by simp only [rank, Phrase.rank, left_next]; omega) hgrammar trivial
      (hreadable.before hnext)
    exact ⟨_, _, gives_readLet.mpr (Or.inr ⟨hname, Or.inr ⟨hassign, value, hvalue, rfl⟩⟩)⟩
  · next hkind =>
    have hleft : parser.left ≠ 0 := Nat.ne_of_gt (Parser.left_pos (by rw [hkind]; decide))
    obtain ⟨value, after, hvalue⟩ := ih parser.next (.expression Power.lowest .missing)
      (by simp only [rank, Phrase.rank, left_next]; omega) hgrammar trivial
      (hreadable.before (before_next parser))
    exact ⟨_, _, _, gives_readReturn.mpr ⟨value, hvalue, rfl⟩, rfl⟩
  · exact ⟨_, _, rfl, rfl⟩
  · obtain ⟨value, after, hvalue⟩ := ih parser (.expression Power.lowest .missing)
      (by simp only [rank, Phrase.rank]; omega) hgrammar trivial hreadable
    exact ⟨_, _, value, hvalue, rfl⟩

theorem answers_statement {statement : Option Node}
    (ih : AnswersBelow (parser.rank (.statement statement)))
    (hgrammar : parser.grammar = .standard) (hreadable : parser.Readable) :
    parser.Answers (.statement statement) := by
  obtain ⟨found, mid, hsentence⟩ := ih parser (.sentence none)
    (by simp only [rank, Phrase.rank]; omega) hgrammar trivial hreadable
  by_cases hends : found.isSome ∧ mid.peek.kind = .semicolon
  · exact ⟨_, _, gives_readStatement.mpr
      ⟨mid, hsentence, Or.inl ⟨hends.1, hends.2, rfl⟩⟩⟩
  · exact ⟨_, _, gives_readStatement.mpr ⟨mid, hsentence, Or.inr ⟨not_and.mp hends, rfl⟩⟩⟩

end Answers

/-- Where all literals have values, reading gives something, whatever else is wrong. -/
theorem answers (parser : Parser) (phrase : Phrase) (hgrammar : parser.grammar = .standard)
    (hopens : parser.Opens phrase) (hreadable : parser.Readable) : parser.Answers phrase := by
  induction parser, phrase using rank_induction with
  | step parser phrase ih =>
      have ih : AnswersBelow (parser.rank phrase) := fun parser' phrase' hrank hg ho hr =>
        ih parser' phrase' hrank hg ho hr
      cases phrase with
      | expression power node => exact answers_expression ih hgrammar hreadable
      | opening rule node => exact answers_opening ih hgrammar hopens hreadable
      | extension power left node => exact answers_extension ih hgrammar hreadable
      | conditional node => exact answers_conditional ih hgrammar hreadable
      | otherwise token condition consequence node =>
          exact answers_otherwise ih hgrammar hreadable
      | list close nodes =>
          by_cases hclose : parser.current.kind = close
          · exact ⟨_, _, gives_readList.mpr (Or.inl ⟨hclose, rfl, rfl⟩)⟩
          · obtain ⟨found, after, hfound⟩ := ih parser (.elements close nodes)
              (by simp only [rank, Phrase.rank]; omega) hgrammar hopens hreadable
            exact ⟨_, _, gives_readList.mpr (Or.inr ⟨hclose, hfound⟩)⟩
      | elements close nodes => exact answers_elements ih hgrammar hopens hreadable
      | pairs pairs => exact answers_pairs ih hgrammar hreadable
      | block node => exact answers_block ih hgrammar hopens hreadable
      | body statements => exact answers_body ih hgrammar hreadable
      | sentence statement => exact answers_sentence ih hgrammar hreadable
      | statement statement => exact answers_statement ih hgrammar hreadable

/-! ### Whole texts -/

theorem answers_readStatements {parser : Parser} (hgrammar : parser.grammar = .standard)
    (hreadable : parser.Readable) :
    ∃ statements after, parser.readStatements.Gives statements after := by
  obtain ⟨count, hcount⟩ : ∃ count, parser.left = count := ⟨_, rfl⟩
  induction count using Nat.strongRecOn generalizing parser with
  | _ count ih =>
      by_cases hend : parser.current.kind = .eof
      · exact ⟨_, _, gives_readStatements.mpr (Or.inl ⟨hend, rfl, rfl⟩)⟩
      have hpos := Parser.left_pos hend
      obtain ⟨statement, mid, hread⟩ :=
        parser.answers (.statement none) hgrammar trivial hreadable
      have hle := hread.left_le
      have hnext := (before_of_reads (.statement statement) hread).trans (before_next _)
      obtain ⟨rest, after, hrest⟩ := ih mid.next.left (by rw [left_next]; omega)
        (hnext.grammar.trans hgrammar) (hreadable.before hnext) rfl
      exact ⟨_, _, gives_readStatements.mpr
        (Or.inr ⟨hend, statement, mid, hread, rest, hrest, rfl⟩)⟩

theorem covers_readStatements {parser after : Parser} {statements : List Node}
    (h : parser.readStatements.Gives statements after) (hgrammar : parser.grammar = .standard)
    (htokens : ∀ token ∈ parser.pending, token.kind ≠ .eof) : parser.Readable := by
  induction hleft : parser.left using Nat.strongRecOn generalizing parser statements with
  | _ count ih =>
      rcases gives_readStatements.mp h with
        ⟨hend, _, rfl⟩ | ⟨hend, statement, mid, hread, rest, hrest, _⟩
      · intro token htoken
        match hpending : parser.pending with
        | [] => simp [hpending] at htoken
        | first :: others =>
            have hcurrent : parser.current = first := by simp [current, hpending]
            exact absurd (hcurrent ▸ hend) (htokens first (by simp [hpending]))
      · have hpos := Parser.left_pos hend
        have hle := hread.left_le
        have hnext := (before_of_reads (.statement statement) hread).trans (before_next _)
        have hrest := ih mid.next.left (by rw [left_next]; omega) hrest
          (hnext.grammar.trans hgrammar)
          (fun token htoken => htokens token (hnext.pending.mem htoken)) rfl
        exact parser.covers (.statement statement) mid hread hgrammar trivial hrest

end Parser

/-- No integer literal of the text has more digits than are read. -/
def Convertible (source : String) : Prop :=
  ∀ token ∈ (tokenize source).tokens, token.kind = .int → token.literal.length ≤ maxDigits

theorem readable_ofSource_iff (source : String) :
    (Parser.ofSource source).Readable ↔ Convertible source := by
  have htoken : ∀ token ∈ (tokenize source).tokens,
      token.Readable ↔ (token.kind = .int → token.literal.length ≤ maxDigits) := by
    intro token htoken
    refine forall_congr' fun hkind => ?_
    rw [Token.readInt_eq (spells_of_mem_tokenize htoken) hkind]
    split
    · next hlong => simp [Nat.not_le.mpr hlong]
    · next hshort => simp [Nat.not_lt.mp hshort]
  exact forall₂_congr htoken

open Reading in
theorem convertible_of_gives {source : String} {program : Node} {after : Parser}
    (h : (parse source).Gives program after) : Convertible source := by
  obtain ⟨statements, hread, _⟩ := gives_map.mp h
  rw [← readable_ofSource_iff]
  exact Parser.covers_readStatements hread rfl fun _ htoken => kind_ne_eof_of_mem_tokenize htoken

open Reading in
theorem Convertible.exists_gives {source : String} (h : Convertible source) :
    ∃ program after, (parse source).Gives program after := by
  have hreadable := (readable_ofSource_iff source).mpr h
  obtain ⟨statements, after, hread⟩ := Parser.answers_readStatements rfl hreadable
  exact ⟨.program statements, after, gives_map.mpr ⟨statements, hread, rfl⟩⟩

/-- The parser gives a program exactly if no integer literal of the text has more digits than are
read; and then the diagnostics tell a text that is a run of statements from one that is not. -/
theorem parse_answers_iff (source : String) :
    (∃ program after, (parse source).Gives program after ∧
      (after.diagnostics = [] ↔ ∃ statements,
        DerivesAll statements (tokenize source).tokens (tokenize source).eof)) ↔
      Convertible source := by
  constructor
  · rintro ⟨program, after, hgives, _⟩
    exact convertible_of_gives hgives
  · intro hconvertible
    obtain ⟨program, after, hgives⟩ := hconvertible.exists_gives
    refine ⟨program, after, hgives, ?_⟩
    constructor
    · intro hclean
      obtain ⟨statements, _, hderives⟩ := parses_iff.mp ⟨after, hgives, hclean⟩
      exact ⟨statements, hderives⟩
    · rintro ⟨statements, hderives⟩
      obtain ⟨after', hgives', hclean⟩ := parses_iff.mpr ⟨statements, rfl, hderives⟩
      rw [(hgives.unique hgives').2, hclean]

/-- A literal of ones. -/
def ones (count : Nat) : String :=
  String.ofList (List.replicate count '1')

theorem tokens_ones (count : Nat) :
    (tokenize (ones (count + 1))).tokens = [⟨.int, ones (count + 1), .start⟩] := by
  have hdigits : ∀ c ∈ (ones (count + 1)).toList, isDigit c = true := by
    intro c hc
    rw [ones, String.toList_ofList] at hc
    rw [List.eq_of_mem_replicate hc]
    decide
  have hlegible : Legible [.word .int (ones (count + 1))] [] :=
    ⟨⟨⟨by simp [ones], hdigits⟩, by simp [Kind.Ends]⟩, trivial⟩
  rw [tokenize, tokenize_of_legible hlegible (by simp [Cursor.ofText, Mark.text])]
  rfl

/-- On a literal with one digit too many no program is given, whatever is reported. -/
theorem parse_ones_unanswered :
    ¬ ∀ source, ∃ program after, (parse source).Gives program after := by
  intro h
  obtain ⟨program, after, hgives⟩ := h (ones (maxDigits + 1))
  have hmem : ⟨.int, ones (maxDigits + 1), .start⟩ ∈ (tokenize (ones (maxDigits + 1))).tokens := by
    rw [tokens_ones maxDigits]
    exact List.mem_singleton_self _
  have hle := convertible_of_gives hgives _ hmem rfl
  simp only [ones, String.length_ofList, List.length_replicate] at hle
  omega

end Monkey
