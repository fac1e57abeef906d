/-
The first and the last token of the rendering of a part, on which it depends what the tokens
around it can join on to.
-/
import Monkey.Proofs.Rendering.Legible

namespace Monkey

/-- The kinds with which an expression ends. -/
def Kind.closers : List Kind :=
  [.ident, .int, .string, .trueWord, .falseWord, .rparen, .rbracket, .rbrace]

/-- The kinds with which a rendered statement starts: no operator is among them. -/
def Kind.starters : List Kind :=
  [.ident, .int, .string, .trueWord, .falseWord, .lparen, .lbracket, .lbrace, .ifWord, .fnWord,
   .letWord, .returnWord]

/-- The last mark is a token to be; it spans lines only as a string literal by itself. -/
def Node.Closes (node : Node) : Prop :=
  ∃ front kind literal, node.marks = front ++ [.word kind literal] ∧ kind ∈ Kind.closers ∧
    ('\n' ∈ (Mark.word kind literal).text → ∃ token value, node = .string token value ∧
      '\n' ∈ value.toList)

def Node.Opens (node : Node) : Prop :=
  ∃ kind literal rest, node.marks = .word kind literal :: rest ∧ kind ∈ Kind.starters

def Form.Closes : Form → Prop
  | .expression node | .conditional node | .block node => node.Closes
  | _ => True

def Form.Opens : Form → Prop
  | .expression node | .conditional node | .sentence node => node.Opens
  | _ => True

theorem not_newline_of_letters {text : List Char} (h : ∀ c ∈ text, isLetter c = true) :
    '\n' ∉ text := by
  intro hmem
  exact absurd (h _ hmem) (by decide)

theorem not_newline_of_digits {text : List Char} (h : ∀ c ∈ text, isDigit c = true) :
    '\n' ∉ text := by
  intro hmem
  exact absurd (h _ hmem) (by decide)

/-- A part that ends with a closing bracket. -/
theorem closes_of_bracket {node : Node} {front : List Mark} {kind : Kind} {literal : String}
    (hmarks : node.marks = front ++ [.word kind literal])
    (hkind : kind ∈ [.rparen, .rbracket, .rbrace]) (hspelling : kind.spelling? = some literal) :
    node.Closes := by
  refine ⟨front, kind, literal, hmarks, ?_, ?_⟩
  · clear hmarks hspelling
    revert kind
    decide
  · intro hnewline
    simp only [List.mem_cons, List.not_mem_nil, or_false] at hkind
    rcases hkind with rfl | rfl | rfl <;> cases hspelling <;> exact absurd hnewline (by decide)

theorem closes_append {node : Node} {front : List Mark} {last : Node}
    (hmarks : node.marks = front ++ last.marks) (hlast : last.Closes)
    (hstring : ∀ token value, last ≠ .string token value) : node.Closes := by
  obtain ⟨front', kind, literal, hlast, hkind, hnewline⟩ := hlast
  refine ⟨front ++ front', kind, literal, ?_, hkind, ?_⟩
  · rw [hmarks, hlast, List.append_assoc]
  · intro h
    obtain ⟨token, value, heq, _⟩ := hnewline h
    exact absurd heq (hstring token value)

theorem Legal.closes {form : Form} (h : Legal form) : form.Closes := by
  induction h with
  | @ident token hkind hspells =>
      rw [hkind] at hspells
      refine ⟨[], .ident, _, rfl, by decide, fun hnewline => ?_⟩
      exact absurd hnewline (not_newline_of_letters hspells.2.1)
  | @int token _ hkind hspells _ _ _ =>
      rw [hkind] at hspells
      refine ⟨[], .int, _, rfl, by decide, fun hnewline => ?_⟩
      exact absurd hnewline (not_newline_of_digits hspells.2)
  | @string token _ _ =>
      refine ⟨[], .string, _, rfl, by decide, fun hnewline => ⟨_, _, rfl, ?_⟩⟩
      simpa [Mark.text] using hnewline
  | @bool _ value =>
      cases value
      · exact ⟨[], .falseWord, _, rfl, by decide, fun hnewline => absurd hnewline (by decide)⟩
      · exact ⟨[], .trueWord, _, rfl, by decide, fun hnewline => absurd hnewline (by decide)⟩
  | prefixOp _ _ _ _ => exact closes_of_bracket (by rw [Node.marks]) (by decide) rfl
  | infixOp _ _ _ _ _ _ => exact closes_of_bracket (by rw [Node.marks]) (by decide) rfl
  | conditional _ ih => exact ih
  | function _ _ _ hbody ih =>
      apply closes_append (by rw [Node.marks, List.append_cons, List.append_cons]) ih
      cases hbody with
      | block _ => simp
  | call _ _ _ _ => exact closes_of_bracket (by rw [Node.marks]) (by decide) rfl
  | array _ _ => exact closes_of_bracket (by rw [Node.marks]) (by decide) rfl
  | index _ _ _ _ =>
      exact closes_of_bracket (by rw [Node.marks, List.append_cons]) (by decide) rfl
  | hash _ _ => exact closes_of_bracket (by rw [Node.marks]) (by decide) rfl
  | noElse _ hconsequence _ ih =>
      apply closes_append (by rw [Node.marks, List.append_cons, List.append_cons]) ih
      cases hconsequence with
      | block _ => simp
  | elseBlock _ _ halternative _ _ ih =>
      refine closes_append (by
        rw [Node.marks_ifElse (Legal.ne_missing (Or.inr (Or.inl halternative))),
          List.append_cons, List.append_cons, List.append_cons]) ih ?_
      cases halternative with
      | block _ => simp
  | elseIf _ _ halternative _ _ ih =>
      refine closes_append (by
        rw [Node.marks_ifElse (Legal.ne_missing (Or.inr (Or.inr halternative))),
          List.append_cons, List.append_cons, List.append_cons]) ih ?_
      cases halternative with
      | noElse _ _ => simp
      | elseBlock _ _ _ => simp
      | elseIf _ _ _ => simp
  | block _ _ => exact closes_of_bracket (by rw [Node.marks]) (by decide) rfl
  | _ => trivial

theorem Legal.opens {form : Form} (h : Legal form) : form.Opens := by
  induction h with
  | ident _ _ => exact ⟨.ident, _, _, rfl, by decide⟩
  | int _ _ _ _ _ => exact ⟨.int, _, _, rfl, by decide⟩
  | string _ _ => exact ⟨.string, _, _, rfl, by decide⟩
  | @bool _ value =>
      cases value
      · exact ⟨.falseWord, _, _, rfl, by decide⟩
      · exact ⟨.trueWord, _, _, rfl, by decide⟩
  | prefixOp _ _ _ _ => exact ⟨.lparen, _, _, by rw [Node.marks, List.cons_append], by decide⟩
  | infixOp _ _ _ _ _ _ =>
      exact ⟨.lparen, _, _, by rw [Node.marks]; rfl, by decide⟩
  | conditional _ ih => exact ih
  | function _ _ _ _ _ =>
      exact ⟨.fnWord, _, _, by rw [Node.marks]; rfl, by decide⟩
  | @call _ _ arguments _ _ ih _ =>
      obtain ⟨kind, literal, rest, hmarks, hkind⟩ := ih
      refine ⟨kind, literal,
        rest ++ .word .lparen "(" :: listMarks arguments ++ [.word .rparen ")"], ?_, hkind⟩
      rw [Node.marks, hmarks]
      rfl
  | array _ _ => exact ⟨.lbracket, _, _, by rw [Node.marks, List.cons_append], by decide⟩
  | index _ _ _ _ =>
      exact ⟨.lparen, _, _, by rw [Node.marks]; rfl, by decide⟩
  | hash _ _ => exact ⟨.lbrace, _, _, by rw [Node.marks, List.cons_append], by decide⟩
  | noElse _ _ _ _ =>
      exact ⟨.ifWord, _, _, by rw [Node.marks]; rfl, by decide⟩
  | elseBlock _ _ halternative _ _ _ =>
      have hne := Legal.ne_missing (Or.inr (Or.inl halternative))
      exact ⟨.ifWord, _, _, by rw [Node.marks_ifElse hne, Node.marks]; rfl, by decide⟩
  | elseIf _ _ halternative _ _ _ =>
      have hne := Legal.ne_missing (Or.inr (Or.inr halternative))
      exact ⟨.ifWord, _, _, by rw [Node.marks_ifElse hne, Node.marks]; rfl, by decide⟩
  | letSentence _ _ _ _ _ _ =>
      exact ⟨.letWord, _, _, by rw [Node.marks]; rfl, by decide⟩
  | returnSentence _ _ _ _ => exact ⟨.returnWord, _, _, by rw [Node.marks], by decide⟩
  | exprSentence hvalue ih =>
      obtain ⟨kind, literal, rest, hmarks, hkind⟩ := ih
      refine ⟨kind, literal, rest, ?_, hkind⟩
      rw [Node.marks_exprStmt (Legal.ne_missing (Or.inl hvalue)), hmarks]
  | _ => trivial

end Monkey
