/-
Diagnostics in order.  Whatever a parser reads, all it does is to pass the current token or to
complain about it: where it complains about the next token, it has passed the current one before
it reads on.  So its complaints keep to the order of the text.
-/
import Mathlib.Logic.Relation
import Monkey.Proofs.Lexing.Ordered
import Monkey.Proofs.Parsing.Programs

namespace Monkey

namespace Parser

open Reading

/-- One thing that a parser does. -/
inductive Move : Parser → Parser → Prop
  | pass (parser : Parser) : Move parser parser.next
  | complain (parser : Parser) (message : String) :
      Move parser (parser.report message parser.current)

/-- One parser comes to the other by passing tokens and complaining about them. -/
def Moves : Parser → Parser → Prop :=
  Relation.ReflTransGen Move

section

variable {earlier parser : Parser}

theorem Moves.refl (parser : Parser) : parser.Moves parser :=
  Relation.ReflTransGen.refl

theorem Moves.pass (h : earlier.Moves parser) : earlier.Moves parser.next :=
  Relation.ReflTransGen.tail h (.pass parser)

theorem Moves.complain (h : earlier.Moves parser) (message : String) :
    earlier.Moves (parser.report message parser.current) :=
  Relation.ReflTransGen.tail h (.complain parser message)

/-- The next token is complained about as the current one, once that one is passed. -/
theorem Moves.complainNext (h : earlier.Moves parser.next) (kind : Kind) :
    earlier.Moves (parser.reportPeek kind).next :=
  h.complain _

end

/-- Where a phrase begins: behind the current token, if it goes on from what ends there. -/
def entry (parser : Parser) : Phrase → Parser
  | .extension .. | .otherwise .. => parser.next
  | _ => parser

/-- Where a phrase has ended: behind the current token, except that a body stops in front of the
token that closes it. -/
def exit (after : Parser) : Phrase → Parser
  | .body _ => after
  | _ => after.next

/-- Whatever is read below a rank is moves. -/
def MovesBelow (bound : Nat) : Prop :=
  ∀ (parser : Parser) (phrase : Phrase), parser.rank phrase < bound →
    ∀ after, parser.Reads phrase after → (parser.entry phrase).Moves (after.exit phrase)

theorem MovesBelow.moves {bound : Nat} (ih : MovesBelow bound) {earlier parser after : Parser}
    (phrase : Phrase) (hreads : parser.Reads phrase after) (hrank : parser.rank phrase < bound)
    (h : earlier.Moves (parser.entry phrase)) : earlier.Moves (after.exit phrase) :=
  Relation.ReflTransGen.trans h (ih parser phrase hrank after hreads)

section Moving

variable {parser after : Parser}

theorem moves_readInteger {node : Node} (h : parser.readInteger.Gives node after) :
    parser.Moves after.next := by
  obtain ⟨value, _, ⟨_, _, rfl⟩ | ⟨_, _, rfl⟩⟩ := gives_readInteger.mp h
  · exact (Moves.refl parser).pass
  · exact ((Moves.refl parser).complain _).pass

theorem moves_readNames (parser : Parser) : parser.next.Moves parser.readNames.2.next := by
  fun_induction readNames parser with
  | case1 parser after h =>
      rcases parser.expect_eq .ident with ⟨_, heq⟩ | ⟨_, heq⟩
      · simp [heq] at h
      · rw [heq] at h
        cases h
        exact (Moves.refl _).complainNext _
  | case2 parser after h name hcomma hlt names ih =>
      rcases parser.expect_eq .ident with ⟨_, heq⟩ | ⟨_, heq⟩
      · rw [heq] at h
        cases h
        exact Relation.ReflTransGen.trans (Moves.refl parser.next).pass.pass ih
      · simp [heq] at h
  | case3 parser after h name hcomma close =>
      rcases parser.expect_eq .ident with ⟨_, heq⟩ | ⟨_, heq⟩
      · rw [heq] at h
        cases h
        have hpassed := (Moves.refl parser.next).pass
        rcases parser.next.expect_eq .rparen with ⟨_, hclose⟩ | ⟨_, hclose⟩
        · simp only [close, hclose]
          exact hpassed.pass
        · simp only [close, hclose]
          exact hpassed.complainNext _
      · simp [heq] at h

theorem moves_readParameters (parser : Parser) :
    parser.next.Moves parser.readParameters.2.next := by
  unfold readParameters
  split
  · exact (Moves.refl _).pass
  · exact moves_readNames parser

theorem moves_opening {rule : PrefixRule} {node : Node}
    (ih : MovesBelow (parser.rank (.opening rule node)))
    (h : (parser.readPrefix rule).Gives node after) : parser.Moves after.next := by
  have hpassed := (Moves.refl parser).pass
  cases rule with
  | integer =>
      rw [readPrefix] at h
      exact moves_readInteger h
  | string | boolean | identifier =>
      rw [readPrefix] at h
      rw [← (gives_done.mp h).2]
      exact hpassed
  | operator =>
      obtain ⟨hleft, right, mid, hright, _, rfl⟩ := gives_readPrefix_operator.mp h
      exact ih.moves (.expression _ right) hright
        (by simp only [rank, Phrase.rank, left_next]; omega) hpassed
  | grouped =>
      obtain ⟨hleft, inner, mid, hinner, hclose⟩ := gives_readPrefix_grouped.mp h
      have hmid := ih.moves (.expression _ inner) hinner
        (by simp only [rank, Phrase.rank, left_next]; omega) hpassed
      rcases hclose with ⟨_, _, rfl⟩ | ⟨_, _, rfl⟩
      · exact hmid.pass
      · exact hmid.complainNext _
  | conditional =>
      rw [readPrefix] at h
      exact ih.moves (.conditional node) h (by simp [rank, Phrase.rank]) (Moves.refl parser)
  | function =>
      rcases gives_readPrefix_function.mp h with ⟨_, _, rfl⟩ | ⟨hopen, names, mid, hnames, hrest⟩
      · exact hpassed.complainNext _
      have hmid : parser.Moves mid.next := by
        have hparameters := moves_readParameters parser.next
        rw [hnames] at hparameters
        exact Relation.ReflTransGen.trans hpassed.pass hparameters
      rcases hrest with ⟨_, _, rfl⟩ | ⟨parameters, _, ⟨_, _, rfl⟩ | ⟨hbrace, body, hbody, _⟩⟩
      · exact hmid
      · exact hmid.complainNext _
      · refine ih.moves (.block body) hbody ?_ hmid
        have hlt : 1 < mid.left := one_lt_left (by simp [hbrace])
        have hle : mid.left ≤ parser.next.left := by
          simpa only [hnames] using parser.next.left_readParameters_le
        rw [left_next] at hle
        simp only [rank, Phrase.rank, left_next]
        omega
  | array =>
      obtain ⟨hleft, elements, mid, helements, _, rfl⟩ := gives_readPrefix_array.mp h
      exact ih.moves (.list _ elements) helements
        (by simp only [rank, Phrase.rank, left_next]; omega) hpassed
  | hash =>
      obtain ⟨hleft, pairs, mid, hpairs, _, rfl⟩ := gives_readPrefix_hash.mp h
      exact ih.moves (.pairs pairs) hpairs
        (by simp only [rank, Phrase.rank, left_next]; omega) hpassed

theorem moves_readInfix {rule : InfixRule} {left node : Node}
    (ih : MovesBelow (8 * parser.left)) (hleft : parser.left ≠ 0)
    (h : (parser.readInfix rule left).Gives node after) : parser.Moves after.next := by
  have hpassed := (Moves.refl parser).pass
  cases rule with
  | operator binding right =>
      obtain ⟨operand, _, hoperand, _, rfl⟩ := (gives_readInfix_operator hleft).mp h
      exact ih.moves (.expression _ operand) hoperand
        (by simp only [rank, Phrase.rank, left_next]; omega) hpassed
  | call =>
      obtain ⟨arguments, _, harguments, _, rfl⟩ := (gives_readInfix_call hleft).mp h
      exact ih.moves (.list _ arguments) harguments
        (by simp only [rank, Phrase.rank, left_next]; omega) hpassed
  | index =>
      obtain ⟨index, last, hindex, hclose⟩ := (gives_readInfix_index hleft).mp h
      have hlast := ih.moves (.expression _ index) hindex
        (by simp only [rank, Phrase.rank, left_next]; omega) hpassed
      rcases hclose with ⟨_, _, rfl⟩ | ⟨_, _, rfl⟩
      · exact hlast.pass
      · exact hlast.complainNext _

theorem moves_extension {power : Int} {left node : Node}
    (ih : MovesBelow (parser.rank (.extension power left node)))
    (h : (parser.extend power left).Gives node after) : parser.next.Moves after.next := by
  rcases gives_extend.mp h with ⟨_, _, rfl⟩ | ⟨hend, _, rule, _, more, mid, hmore, hrest⟩
  · exact Moves.refl _
  have hlt : 1 < parser.left := one_lt_left hend
  have hle := hmore.left_le
  rw [left_next] at hle
  have hmid : parser.next.Moves mid.next := by
    refine moves_readInfix ?_ (by rw [left_next]; omega) hmore
    intro parser' phrase' hrank
    refine ih parser' phrase' (Nat.lt_trans hrank ?_)
    simp only [rank, Phrase.rank, left_next]
    omega
  refine ih.moves (.extension power more node) hrest ?_ hmid
  simp only [rank, Phrase.rank]
  omega

theorem moves_conditional {node : Node} (ih : MovesBelow (parser.rank (.conditional node)))
    (h : parser.readIf.Gives node after) : parser.Moves after.next := by
  have hpassed := (Moves.refl parser).pass
  rcases gives_readIf.mp h with ⟨_, _, rfl⟩ | ⟨hopen, condition, mid, hcondition, hrest⟩
  · exact hpassed.complainNext _
  have hlt : 1 < parser.left := one_lt_left (by simp [hopen])
  have hle := hcondition.left_le
  rw [left_next, left_next] at hle
  have hmid := ih.moves (.expression _ condition) hcondition
    (by simp only [rank, Phrase.rank, left_next]; omega) hpassed.pass
  rcases hrest with ⟨_, _, rfl⟩ | ⟨_, ⟨_, _, rfl⟩ | ⟨hbrace, body, last, hbody, helse⟩⟩
  · exact hmid.complainNext _
  · exact hmid.pass.complainNext _
  have hle' := hbody.left_le
  rw [left_next, left_next] at hle'
  have hlast := ih.moves (.block body) hbody (by
      have hlt' : 1 < mid.next.left := one_lt_left (by simp [hbrace])
      simp only [rank, Phrase.rank, left_next] at hlt' ⊢
      omega) hmid.pass
  exact ih.moves (.otherwise _ _ _ node) helse
    (by simp only [rank, Phrase.rank]; omega) hlast

theorem moves_otherwise {token : Token} {condition consequence node : Node}
    (ih : MovesBelow (parser.rank (.otherwise token condition consequence node)))
    (h : (parser.readElse token condition consequence).Gives node after) :
    parser.next.Moves after.next := by
  rcases gives_readElse.mp h with ⟨_, _, rfl⟩ | ⟨hword, hrest⟩
  · exact Moves.refl _
  have hlt : 1 < parser.left := one_lt_left (by simp [hword])
  have hpassed := (Moves.refl parser.next).pass
  rcases hrest with ⟨_, alternative, hblock, _⟩ | ⟨_, alternative, hif, _⟩ | ⟨_, _, _, rfl⟩
  · refine ih.moves (.block alternative) hblock ?_ hpassed
    simp only [rank, Phrase.rank, left_next]
    omega
  · refine ih.moves (.conditional alternative) hif ?_ hpassed
    simp only [rank, Phrase.rank, left_next]
    omega
  · exact hpassed.complainNext _

theorem moves_elements {close : Kind} {nodes : Option (List Node)}
    (ih : MovesBelow (parser.rank (.elements close nodes)))
    (h : (parser.readElements close).Gives nodes after) : parser.Moves after.next := by
  obtain ⟨element, mid, helement, hrest⟩ := gives_readElements.mp h
  have hle := helement.left_le
  have hmid := ih.moves (.expression _ element) helement
    (by simp only [rank, Phrase.rank]; omega) (Moves.refl parser)
  rcases hrest with ⟨hcomma, rest, hrest, _⟩ | ⟨_, _, _, rfl⟩ | ⟨_, _, _, rfl⟩
  · have hlt : 1 < mid.left := one_lt_left (by simp [hcomma])
    refine ih.moves (.elements close rest) hrest ?_ hmid.pass
    simp only [rank, Phrase.rank, left_next]
    omega
  · exact hmid.pass
  · exact hmid.complainNext _

theorem moves_pairs {pairs : Option (List (Node × Node))}
    (ih : MovesBelow (parser.rank (.pairs pairs)))
    (h : parser.readPairs.Gives pairs after) : parser.Moves after.next := by
  rcases gives_readPairs.mp h with ⟨_, _, rfl⟩ | ⟨_, key, mid, hkey, hrest⟩
  · exact (Moves.refl parser).pass
  have hle := hkey.left_le
  have hmid := ih.moves (.expression _ key) hkey
    (by simp only [rank, Phrase.rank]; omega) (Moves.refl parser)
  rcases hrest with ⟨_, _, rfl⟩ | ⟨hcolon, value, last, hvalue, hrest⟩
  · exact hmid.complainNext _
  have hlt : 1 < mid.left := one_lt_left (by simp [hcolon])
  have hle' := hvalue.left_le
  rw [left_next, left_next] at hle'
  have hlast := ih.moves (.expression _ value) hvalue
    (by simp only [rank, Phrase.rank, left_next]; omega) hmid.pass
  rcases hrest with ⟨_, _, rfl⟩ | ⟨_, rest, hrest, _⟩ | ⟨_, _, _, rfl⟩
  · exact hlast.pass
  · refine ih.moves (.pairs rest) hrest ?_ hlast.pass
    simp only [rank, Phrase.rank, left_next]
    omega
  · exact hlast.complainNext _

theorem moves_block {node : Node} (ih : MovesBelow (parser.rank (.block node)))
    (h : parser.readBlock.Gives node after) : parser.Moves after.next := by
  obtain ⟨statements, mid, hbody, _, hend⟩ := gives_readBlock.mp h
  have hmid := ih.moves (.body statements) hbody
    (by simp only [rank, Phrase.rank, left_next]; omega) (Moves.refl parser).pass
  rcases hend with ⟨_, rfl⟩ | ⟨_, rfl⟩
  · exact hmid.pass
  · exact (hmid.complain _).pass

theorem moves_body {statements : List Node}
    (ih : MovesBelow (parser.rank (.body statements)))
    (h : parser.readBody.Gives statements after) : parser.Moves after := by
  rcases gives_readBody.mp h with ⟨_, _, rfl⟩ | ⟨_, hend, statement, mid, hread, rest, hrest, _⟩
  · exact Moves.refl _
  have hpos := Parser.left_pos hend
  have hle := hread.left_le
  have hmid := ih.moves (.statement statement) hread
    (by simp only [rank, Phrase.rank]; omega) (Moves.refl parser)
  refine ih.moves (.body rest) hrest ?_ hmid
  simp only [rank, Phrase.rank, left_next]
  omega

theorem moves_sentence {statement : Option Node}
    (ih : MovesBelow (parser.rank (.sentence statement)))
    (h : parser.GivesSentence statement after) : parser.Moves after.next := by
  have hpassed := (Moves.refl parser).pass
  unfold GivesSentence at h
  split at h
  · rcases gives_readLet.mp h with ⟨_, _, rfl⟩ | ⟨_, ⟨_, _, rfl⟩ | ⟨_, value, hvalue, _⟩⟩
    · exact hpassed.complainNext _
    · exact hpassed.pass.complainNext _
    · refine ih.moves (.expression _ value) hvalue ?_ hpassed.pass.pass
      simp only [rank, Phrase.rank, left_next]
      omega
  · obtain ⟨node, hnode, _⟩ := h
    obtain ⟨value, hvalue, _⟩ := gives_readReturn.mp hnode
    refine ih.moves (.expression _ value) hvalue ?_ hpassed
    simp only [rank, Phrase.rank, left_next]
    omega
  · rw [← h.2]
    exact hpassed
  · obtain ⟨node, hnode, _⟩ := h
    exact ih.moves (.expression _ node) hnode (by simp only [rank, Phrase.rank]; omega)
      (Moves.refl parser)

theorem moves_statement {statement : Option Node}
    (ih : MovesBelow (parser.rank (.statement statement)))
    (h : parser.readStatement.Gives statement after) : parser.Moves after.next := by
  obtain ⟨mid, hsentence, hend⟩ := gives_readStatement.mp h
  have hmid := ih.moves (.sentence statement) hsentence
    (by simp only [rank, Phrase.rank]; omega) (Moves.refl parser)
  rcases hend with ⟨_, _, rfl⟩ | ⟨_, rfl⟩
  · exact hmid.pass
  · exact hmid

end Moving

/-- Whatever is read, from where it begins to where it has ended, is moves. -/
theorem moves_of_reads {parser after : Parser} (phrase : Phrase)
    (h : parser.Reads phrase after) : (parser.entry phrase).Moves (after.exit phrase) := by
  induction parser, phrase using rank_induction generalizing after with
  | step parser phrase ih =>
      have ih : MovesBelow (parser.rank phrase) := fun parser' phrase' hrank _ h' =>
        ih parser' phrase' hrank h'
      cases phrase with
      | expression power node =>
          rcases gives_readExpression.mp h with ⟨_, _, rfl⟩ | ⟨rule, _, left, mid, hleft, hrest⟩
          · exact ((Moves.refl parser).complain _).pass
          · have hle := hleft.left_le
            refine ih.moves (.extension power left node) hrest ?_
              (ih.moves (.opening rule left) hleft ?_ (Moves.refl parser))
            · simp only [rank, Phrase.rank]
              omega
            · simp only [rank, Phrase.rank]
              omega
      | opening rule node => exact moves_opening ih h
      | extension power left node => exact moves_extension ih h
      | conditional node => exact moves_conditional ih h
      | otherwise token condition consequence node => exact moves_otherwise ih h
      | list close nodes =>
          rcases gives_readList.mp h with ⟨_, _, rfl⟩ | ⟨_, helements⟩
          · exact (Moves.refl parser).pass
          · exact ih.moves (.elements close nodes) helements
              (by simp only [rank, Phrase.rank]; omega) (Moves.refl parser)
      | elements close nodes => exact moves_elements ih h
      | pairs pairs => exact moves_pairs ih h
      | block node => exact moves_block ih h
      | body statements => exact moves_body ih h
      | sentence statement => exact moves_sentence ih h
      | statement statement => exact moves_statement ih h

theorem moves_readStatements {parser after : Parser} {statements : List Node}
    (h : parser.readStatements.Gives statements after) : parser.Moves after := by
  induction h using readStatements_induction with
  | stop => exact Moves.refl _
  | step _ hread _ ih =>
      exact Relation.ReflTransGen.trans (moves_of_reads (.statement _) hread) ih

/-! ### What moves keep -/

/-- The tokens complained about, and behind them the tokens that are still to come. -/
def trail (parser : Parser) : List Token :=
  parser.diagnostics.map Diagnostic.token ++ (parser.pending ++ [parser.eof])

/-- The trail is in order, and made up of tokens of a stream. -/
structure Orderly (stream : List Token) (parser : Parser) : Prop where
  order : InOrder parser.trail
  subset : parser.trail ⊆ stream

/-- Passing a token takes at most that token off the trail. -/
theorem trail_next (parser : Parser) : parser.next.trail.Sublist parser.trail :=
  (List.Sublist.refl _).append ((List.tail_sublist _).append (List.Sublist.refl _))

/-- A complaint doubles the current token. -/
theorem exists_trail_report (parser : Parser) (message : String) : ∃ front back,
    parser.trail = front ++ parser.current :: back ∧
      (parser.report message parser.current).trail =
        front ++ parser.current :: parser.current :: back := by
  obtain ⟨back, hback⟩ : ∃ back, parser.pending ++ [parser.eof] = parser.current :: back := by
    cases hpending : parser.pending with
    | nil => exact ⟨[], by simp [current, hpending]⟩
    | cons token rest => exact ⟨rest ++ [parser.eof], by simp [current, hpending]⟩
  refine ⟨parser.diagnostics.map Diagnostic.token, back, by rw [trail, hback], ?_⟩
  have heof : (parser.report message parser.current).eof = parser.eof := rfl
  have hpending : (parser.report message parser.current).pending = parser.pending := rfl
  rw [trail, heof, hpending, hback]
  simp [diagnostics, report]

theorem Move.orderly {stream : List Token} {parser after : Parser} (hmove : parser.Move after)
    (h : parser.Orderly stream) : after.Orderly stream := by
  cases hmove with
  | pass => exact ⟨h.order.sublist parser.trail_next, fun _ htoken =>
      h.subset (parser.trail_next.subset htoken)⟩
  | complain message =>
      obtain ⟨front, back, htrail, hreported⟩ := parser.exists_trail_report message
      obtain ⟨horder, hsubset⟩ := h
      rw [InOrder, htrail] at horder
      rw [htrail] at hsubset
      obtain ⟨hfront, hback, hacross⟩ := List.pairwise_append.mp horder
      constructor
      · rw [InOrder, hreported]
        refine List.pairwise_append.mpr ⟨hfront, ?_, ?_⟩
        · refine List.pairwise_cons.mpr ⟨List.forall_mem_cons.mpr ⟨Place.le_refl _, ?_⟩, hback⟩
          exact (List.pairwise_cons.mp hback).1
        · intro token htoken
          have hbehind := hacross token htoken
          exact List.forall_mem_cons.mpr ⟨hbehind _ List.mem_cons_self, hbehind⟩
      · intro token htoken
        rw [hreported] at htoken
        apply hsubset
        simpa only [List.mem_append, List.mem_cons, or_self_left] using htoken

theorem Moves.orderly {stream : List Token} {parser after : Parser} (hmoves : parser.Moves after)
    (h : parser.Orderly stream) : after.Orderly stream := by
  induction hmoves with
  | refl => exact h
  | tail _ hmove ih => exact hmove.orderly ih

theorem orderly_ofSource (source : String) :
    (Parser.ofSource source).Orderly ((tokenize source).tokens ++ [(tokenize source).eof]) :=
  ⟨inOrder_tokenize source, fun _ htoken => htoken⟩

end Parser

/-- The diagnostics of a text are about tokens of it, and come in the order of their places. -/
theorem diagnostics_inOrder {source : String} {program : Node} {after : Parser}
    (h : (parse source).Gives program after) :
    (∀ diagnostic ∈ after.diagnostics,
        diagnostic.token ∈ (tokenize source).tokens ++ [(tokenize source).eof]) ∧
      after.diagnostics.Pairwise fun earlier later => earlier.token.place ≤ later.token.place := by
  obtain ⟨statements, hread, _⟩ := Reading.gives_map.mp h
  have horderly := (Parser.moves_readStatements hread).orderly (Parser.orderly_ofSource source)
  constructor
  · intro diagnostic hdiagnostic
    exact horderly.subset (List.mem_append_left _ (List.mem_map_of_mem hdiagnostic))
  · have horder := (List.pairwise_append.mp horderly.order).1
    rwa [List.pairwise_map] at horder

/-- Six diagnostics on three lines; the two about the closing brace, which no pair of a hash ends
in and no expression starts with, are about the same token. -/
theorem diagnostics_inOrder_unclosed : ∃ program after,
    (parse "let 1 = 2;\nif (x { y }\n[1 2").Gives program after ∧
      after.diagnostics.map (·.token.place) =
        [⟨1, 5⟩, ⟨1, 7⟩, ⟨2, 7⟩, ⟨2, 11⟩, ⟨2, 11⟩, ⟨3, 4⟩] ∧
      (∀ diagnostic ∈ after.diagnostics,
        diagnostic.token ∈ (tokenize "let 1 = 2;\nif (x { y }\n[1 2").tokens ++
          [(tokenize "let 1 = 2;\nif (x { y }\n[1 2").eof]) ∧
      after.diagnostics.Pairwise fun earlier later =>
        earlier.token.place ≤ later.token.place := by
  obtain ⟨program, hgives⟩ := @exists_gives "let 1 = 2;\nif (x { y }\n[1 2" (by decide +kernel)
  exact ⟨program, _, hgives, by decide +kernel, diagnostics_inOrder hgives⟩

end Monkey
