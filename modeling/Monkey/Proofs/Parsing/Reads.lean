/-
The functions of the parser as one family over phrases, and the induction that goes with it: a
part that is read later has fewer tokens left, or as many and a lower rank.  By it, reading only
moves forward.
-/
import Monkey.Proofs.Parsing.Passing

namespace Monkey

/-- How the parts of a program are ordered when they start at the same token. -/
def Phrase.rank : Phrase → Nat
  | .extension .. | .conditional _ | .otherwise .. => 0
  | .opening .. => 1
  | .expression .. => 2
  | .elements .. | .pairs _ => 3
  | .list .. | .sentence _ => 4
  | .statement _ => 5
  | .body _ => 6
  | .block _ => 7

namespace Parser

open Reading

/-- Reading the phrase from here leaves the parser after it. -/
def Reads (parser : Parser) (phrase : Phrase) (after : Parser) : Prop :=
  match phrase with
  | .expression power node => (parser.readExpression power).Gives node after
  | .opening rule node => (parser.readPrefix rule).Gives node after
  | .extension power left node => (parser.extend power left).Gives node after
  | .conditional node => parser.readIf.Gives node after
  | .otherwise token condition consequence node =>
      (parser.readElse token condition consequence).Gives node after
  | .list close nodes => (parser.readList close).Gives nodes after
  | .elements close nodes => (parser.readElements close).Gives nodes after
  | .pairs pairs => parser.readPairs.Gives pairs after
  | .block node => parser.readBlock.Gives node after
  | .body statements => parser.readBody.Gives statements after
  | .sentence statement => parser.GivesSentence statement after
  | .statement statement => parser.readStatement.Gives statement after

def rank (parser : Parser) (phrase : Phrase) : Nat :=
  8 * parser.left + phrase.rank

/-- What holds of a reading if it holds of all readings that come after it holds of every
reading. -/
theorem rank_induction {P : Parser → Phrase → Prop}
    (step : ∀ parser phrase, (∀ parser' phrase', parser'.rank phrase' < parser.rank phrase →
      P parser' phrase') → P parser phrase) (parser : Parser) (phrase : Phrase) :
    P parser phrase := by
  induction hrank : parser.rank phrase using Nat.strongRecOn
    generalizing parser phrase with
  | _ bound ih =>
      apply step
      intro parser' phrase' hlt
      exact ih _ (hrank ▸ hlt) parser' phrase' rfl

/-- Whatever is read below a rank moves forward. -/
def ForwardBelow (bound : Nat) : Prop :=
  ∀ (parser : Parser) (phrase : Phrase), parser.rank phrase < bound →
    ∀ after, parser.Reads phrase after → parser.Before after

theorem ForwardBelow.before {bound : Nat} (h : ForwardBelow bound) {parser after : Parser}
    (phrase : Phrase) (hreads : parser.Reads phrase after) (hrank : parser.rank phrase < bound) :
    parser.Before after :=
  h parser phrase hrank after hreads

section Forward

variable {parser after : Parser}

theorem before_readInteger {node : Node} (h : parser.readInteger.Gives node after) :
    parser.Before after := by
  obtain ⟨value, _, ⟨_, _, rfl⟩ | ⟨_, _, rfl⟩⟩ := gives_readInteger.mp h
  · exact Before.refl parser
  · exact before_report _ _ _

theorem before_readNames (parser : Parser) : parser.Before parser.readNames.2 := by
  fun_induction readNames parser with
  | case1 parser after h =>
      rcases parser.expect_eq .ident with ⟨_, heq⟩ | ⟨_, heq⟩
      · simp [heq] at h
      · rw [heq] at h
        cases h
        exact before_reportPeek _ _
  | case2 parser after h name hcomma hlt names ih =>
      rcases parser.expect_eq .ident with ⟨_, heq⟩ | ⟨_, heq⟩
      · rw [heq] at h
        cases h
        exact (before_next _).trans ((before_next _).trans ih)
      · simp [heq] at h
  | case3 parser after h name hcomma close =>
      rcases parser.expect_eq .ident with ⟨_, heq⟩ | ⟨_, heq⟩
      · rw [heq] at h
        cases h
        apply (before_next _).trans
        rcases parser.next.expect_eq .rparen with ⟨_, hclose⟩ | ⟨_, hclose⟩
        · simp only [close, hclose]
          exact before_next _
        · simp only [close, hclose]
          exact before_reportPeek _ _
      · simp [heq] at h

theorem before_readParameters (parser : Parser) : parser.Before parser.readParameters.2 := by
  unfold readParameters
  split
  · exact before_next _
  · exact before_readNames _

theorem before_opening {rule : PrefixRule} {node : Node}
    (ih : ForwardBelow (parser.rank (.opening rule node)))
    (h : (parser.readPrefix rule).Gives node after) : parser.Before after := by
  cases rule with
  | integer =>
      rw [readPrefix] at h
      exact before_readInteger h
  | string | boolean | identifier =>
      rw [readPrefix] at h
      rw [← (gives_done.mp h).2]
      exact Before.refl parser
  | operator =>
      obtain ⟨hleft, right, mid, hright, _, rfl⟩ := gives_readPrefix_operator.mp h
      exact (before_next _).trans (ih.before (.expression _ right) hright
        (by simp only [rank, Phrase.rank, left_next]; omega))
  | grouped =>
      obtain ⟨hleft, inner, mid, hinner, hclose⟩ := gives_readPrefix_grouped.mp h
      have hmid := (before_next _).trans (ih.before (.expression _ inner) hinner
        (by simp only [rank, Phrase.rank, left_next]; omega))
      rcases hclose with ⟨_, _, rfl⟩ | ⟨_, _, rfl⟩
      · exact hmid.trans (before_next _)
      · exact hmid.trans (before_reportPeek _ _)
  | conditional =>
      rw [readPrefix] at h
      exact ih.before (.conditional node) h (by simp [rank, Phrase.rank])
  | function =>
      rcases gives_readPrefix_function.mp h with ⟨_, _, rfl⟩ | ⟨hopen, names, mid, hnames, hrest⟩
      · exact before_reportPeek _ _
      · have hmid : parser.Before mid := by
          have hparameters := before_readParameters parser.next
          rw [hnames] at hparameters
          exact (before_next _).trans hparameters
        rcases hrest with ⟨_, _, rfl⟩ | ⟨parameters, _, ⟨_, _, rfl⟩ | ⟨hbrace, body, hbody, _⟩⟩
        · exact hmid
        · exact hmid.trans (before_reportPeek _ _)
        · refine (hmid.trans (before_next _)).trans (ih.before (.block body) hbody ?_)
          have hlt : 1 < mid.left := one_lt_left (by simp [hbrace])
          have hle := hmid.pending.length_le
          simp only [rank, Phrase.rank, left_next]
          simp only [left] at hlt hle ⊢
          omega
  | array =>
      obtain ⟨hleft, elements, mid, helements, _, rfl⟩ := gives_readPrefix_array.mp h
      exact (before_next _).trans (ih.before (.list _ elements) helements
        (by simp only [rank, Phrase.rank, left_next]; omega))
  | hash =>
      obtain ⟨hleft, pairs, mid, hpairs, _, rfl⟩ := gives_readPrefix_hash.mp h
      exact (before_next _).trans (ih.before (.pairs pairs) hpairs
        (by simp only [rank, Phrase.rank, left_next]; omega))

theorem before_readInfix {rule : InfixRule} {left node : Node}
    (ih : ForwardBelow (8 * parser.left)) (hleft : parser.left ≠ 0)
    (h : (parser.readInfix rule left).Gives node after) : parser.Before after := by
  cases rule with
  | operator binding right =>
      obtain ⟨operand, _, hoperand, _, rfl⟩ := (gives_readInfix_operator hleft).mp h
      exact (before_next _).trans (ih.before (.expression _ operand) hoperand
        (by simp only [rank, Phrase.rank, left_next]; omega))
  | call =>
      obtain ⟨arguments, _, harguments, _, rfl⟩ := (gives_readInfix_call hleft).mp h
      exact (before_next _).trans (ih.before (.list _ arguments) harguments
        (by simp only [rank, Phrase.rank, left_next]; omega))
  | index =>
      obtain ⟨index, last, hindex, hclose⟩ := (gives_readInfix_index hleft).mp h
      have hlast := (before_next _).trans (ih.before (.expression _ index) hindex
        (by simp only [rank, Phrase.rank, left_next]; omega))
      rcases hclose with ⟨_, _, rfl⟩ | ⟨_, _, rfl⟩
      · exact hlast.trans (before_next _)
      · exact hlast.trans (before_reportPeek _ _)

theorem before_extension {power : Int} {left node : Node}
    (ih : ForwardBelow (parser.rank (.extension power left node)))
    (h : (parser.extend power left).Gives node after) : parser.Before after := by
  rcases gives_extend.mp h with ⟨_, _, rfl⟩ | ⟨hend, _, rule, _, more, mid, hmore, hrest⟩
  · exact Before.refl _
  have hlt : 1 < parser.left := one_lt_left hend
  have hle := hmore.left_le
  rw [left_next] at hle
  have hmid : parser.next.Before mid := by
    refine before_readInfix ?_ (by rw [left_next]; omega) hmore
    intro parser' phrase' hrank
    refine ih parser' phrase' (Nat.lt_trans hrank ?_)
    simp only [rank, Phrase.rank, left_next]
    omega
  refine ((before_next _).trans hmid).trans (ih.before (.extension power more node) hrest ?_)
  simp only [rank, Phrase.rank]
  omega

theorem before_conditional {node : Node} (ih : ForwardBelow (parser.rank (.conditional node)))
    (h : parser.readIf.Gives node after) : parser.Before after := by
  rcases gives_readIf.mp h with ⟨_, _, rfl⟩ | ⟨hopen, condition, mid, hcondition, hrest⟩
  · exact before_reportPeek _ _
  have hlt : 1 < parser.left := one_lt_left (by simp [hopen])
  have hle := hcondition.left_le
  rw [left_next, left_next] at hle
  have hmid := ((before_next _).trans (before_next _)).trans
    (ih.before (.expression _ condition) hcondition
      (by simp only [rank, Phrase.rank, left_next]; omega))
  rcases hrest with ⟨_, _, rfl⟩ | ⟨_, ⟨_, _, rfl⟩ | ⟨hbrace, body, last, hbody, helse⟩⟩
  · exact hmid.trans (before_reportPeek _ _)
  · exact (hmid.trans (before_next _)).trans (before_reportPeek _ _)
  have hle' := hbody.left_le
  rw [left_next, left_next] at hle'
  have hlast := ((hmid.trans (before_next _)).trans (before_next _)).trans
    (ih.before (.block body) hbody (by
      have hlt' : 1 < mid.next.left := one_lt_left (by simp [hbrace])
      simp only [rank, Phrase.rank, left_next] at hlt' ⊢
      omega))
  exact hlast.trans (ih.before (.otherwise _ _ _ node) helse
    (by simp only [rank, Phrase.rank]; omega))

theorem before_otherwise {token : Token} {condition consequence node : Node}
    (ih : ForwardBelow (parser.rank (.otherwise token condition consequence node)))
    (h : (parser.readElse token condition consequence).Gives node after) :
    parser.Before after := by
  rcases gives_readElse.mp h with ⟨_, _, rfl⟩ | ⟨hword, hrest⟩
  · exact Before.refl _
  have hlt : 1 < parser.left := one_lt_left (by simp [hword])
  have htwice := (before_next parser).trans (before_next _)
  rcases hrest with ⟨_, alternative, hblock, _⟩ | ⟨_, alternative, hif, _⟩ | ⟨_, _, _, rfl⟩
  · refine htwice.trans (ih.before (.block alternative) hblock ?_)
    simp only [rank, Phrase.rank, left_next]
    omega
  · refine htwice.trans (ih.before (.conditional alternative) hif ?_)
    simp only [rank, Phrase.rank, left_next]
    omega
  · exact (before_next _).trans (before_reportPeek _ _)

theorem before_elements {close : Kind} {nodes : Option (List Node)}
    (ih : ForwardBelow (parser.rank (.elements close nodes)))
    (h : (parser.readElements close).Gives nodes after) : parser.Before after := by
  obtain ⟨element, mid, helement, hrest⟩ := gives_readElements.mp h
  have hle := helement.left_le
  have hmid := ih.before (.expression _ element) helement
    (by simp only [rank, Phrase.rank]; omega)
  rcases hrest with ⟨hcomma, rest, hrest, _⟩ | ⟨_, _, _, rfl⟩ | ⟨_, _, _, rfl⟩
  · have hlt : 1 < mid.left := one_lt_left (by simp [hcomma])
    refine ((hmid.trans (before_next _)).trans (before_next _)).trans
      (ih.before (.elements close rest) hrest ?_)
    simp only [rank, Phrase.rank, left_next]
    omega
  · exact hmid.trans (before_next _)
  · exact hmid.trans (before_reportPeek _ _)

theorem before_pairs {pairs : Option (List (Node × Node))}
    (ih : ForwardBelow (parser.rank (.pairs pairs)))
    (h : parser.readPairs.Gives pairs after) : parser.Before after := by
  rcases gives_readPairs.mp h with ⟨_, _, rfl⟩ | ⟨_, key, mid, hkey, hrest⟩
  · exact Before.refl _
  have hle := hkey.left_le
  have hmid := ih.before (.expression _ key) hkey (by simp only [rank, Phrase.rank]; omega)
  rcases hrest with ⟨_, _, rfl⟩ | ⟨hcolon, value, last, hvalue, hrest⟩
  · exact hmid.trans (before_reportPeek _ _)
  have hlt : 1 < mid.left := one_lt_left (by simp [hcolon])
  have hle' := hvalue.left_le
  rw [left_next, left_next] at hle'
  have hlast := ((hmid.trans (before_next _)).trans (before_next _)).trans
    (ih.before (.expression _ value) hvalue
      (by simp only [rank, Phrase.rank, left_next]; omega))
  rcases hrest with ⟨_, _, rfl⟩ | ⟨_, rest, hrest, _⟩ | ⟨_, _, _, rfl⟩
  · exact hlast.trans (before_next _)
  · refine ((hlast.trans (before_next _)).trans (before_next _)).trans
      (ih.before (.pairs rest) hrest ?_)
    simp only [rank, Phrase.rank, left_next]
    omega
  · exact hlast.trans (before_reportPeek _ _)

theorem before_block {node : Node} (ih : ForwardBelow (parser.rank (.block node)))
    (h : parser.readBlock.Gives node after) : parser.Before after := by
  obtain ⟨statements, mid, hbody, _, hend⟩ := gives_readBlock.mp h
  have hmid := (before_next _).trans (ih.before (.body statements) hbody
    (by simp only [rank, Phrase.rank, left_next]; omega))
  rcases hend with ⟨_, rfl⟩ | ⟨_, rfl⟩
  · exact hmid
  · exact hmid.trans (before_report _ _ _)

theorem before_body {statements : List Node}
    (ih : ForwardBelow (parser.rank (.body statements)))
    (h : parser.readBody.Gives statements after) : parser.Before after := by
  rcases gives_readBody.mp h with ⟨_, _, rfl⟩ | ⟨_, hend, statement, mid, hread, rest, hrest, _⟩
  · exact Before.refl _
  have hpos := Parser.left_pos hend
  have hle := hread.left_le
  have hmid := ih.before (.statement statement) hread
    (by simp only [rank, Phrase.rank]; omega)
  refine (hmid.trans (before_next _)).trans (ih.before (.body rest) hrest ?_)
  simp only [rank, Phrase.rank, left_next]
  omega

theorem before_sentence {statement : Option Node}
    (ih : ForwardBelow (parser.rank (.sentence statement)))
    (h : parser.GivesSentence statement after) : parser.Before after := by
  unfold GivesSentence at h
  split at h
  · rcases gives_readLet.mp h with ⟨_, _, rfl⟩ | ⟨_, ⟨_, _, rfl⟩ | ⟨_, value, hvalue, _⟩⟩
    · exact before_reportPeek _ _
    · exact (before_next _).trans (before_reportPeek _ _)
    · refine (((before_next _).trans (before_next _)).trans (before_next _)).trans
        (ih.before (.expression _ value) hvalue ?_)
      simp only [rank, Phrase.rank, left_next]
      omega
  · obtain ⟨node, hnode, _⟩ := h
    obtain ⟨value, hvalue, _⟩ := gives_readReturn.mp hnode
    refine (before_next _).trans (ih.before (.expression _ value) hvalue ?_)
    simp only [rank, Phrase.rank, left_next]
    omega
  · rw [← h.2]
    exact Before.refl _
  · obtain ⟨node, hnode, _⟩ := h
    exact ih.before (.expression _ node) hnode (by simp only [rank, Phrase.rank]; omega)

theorem before_statement {statement : Option Node}
    (ih : ForwardBelow (parser.rank (.statement statement)))
    (h : parser.readStatement.Gives statement after) : parser.Before after := by
  obtain ⟨mid, hsentence, hend⟩ := gives_readStatement.mp h
  have hmid := ih.before (.sentence statement) hsentence
    (by simp only [rank, Phrase.rank]; omega)
  rcases hend with ⟨_, _, rfl⟩ | ⟨_, rfl⟩
  · exact hmid.trans (before_next _)
  · exact hmid

end Forward

/-- Reading only moves forward. -/
theorem before_of_reads {parser after : Parser} (phrase : Phrase)
    (h : parser.Reads phrase after) : parser.Before after := by
  induction parser, phrase using rank_induction generalizing after with
  | step parser phrase ih =>
      have ih : ForwardBelow (parser.rank phrase) := fun parser' phrase' hrank _ h' =>
        ih parser' phrase' hrank h'
      cases phrase with
      | expression power node =>
          rcases gives_readExpression.mp h with ⟨_, _, rfl⟩ | ⟨rule, _, left, mid, hleft, hrest⟩
          · exact before_reportNoPrefix _ _
          · have hle := hleft.left_le
            refine (ih.before (.opening rule left) hleft ?_).trans
              (ih.before (.extension power left node) hrest ?_)
            · simp only [rank, Phrase.rank]
              omega
            · simp only [rank, Phrase.rank]
              omega
      | opening rule node => exact before_opening ih h
      | extension power left node => exact before_extension ih h
      | conditional node => exact before_conditional ih h
      | otherwise token condition consequence node => exact before_otherwise ih h
      | list close nodes =>
          rcases gives_readList.mp h with ⟨_, _, rfl⟩ | ⟨_, helements⟩
          · exact Before.refl _
          · exact ih.before (.elements close nodes) helements
              (by simp only [rank, Phrase.rank]; omega)
      | elements close nodes => exact before_elements ih h
      | pairs pairs => exact before_pairs ih h
      | block node => exact before_block ih h
      | body statements => exact before_body ih h
      | sentence statement => exact before_sentence ih h
      | statement statement => exact before_statement ih h

theorem forwardBelow (bound : Nat) : ForwardBelow bound :=
  fun _ phrase _ _ h => before_of_reads phrase h

end Parser

end Monkey
