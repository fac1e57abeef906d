/-
What a source comes to by itself: it cannot be read, it is rejected with parse errors, or its
program is run in an environment of its own.  Sources with the same lexemes on lines that follow
each other in the same way come to the same.
-/
import Monkey.Proofs.Parsing.Respacing
import Monkey.Proofs.Rendering.Numerals
import Monkey.Proofs.Running.Twins

namespace Monkey

/-- What becomes of a source. -/
inductive Upshot where
  /-- Reading stops at an integer literal. -/
  | stopped (fault : Fault)
  | rejected (first : Diagnostic) (rest : List Diagnostic)
  | ran (program : Node) (outcome : EStateM.Result Fault Machine Value)

/-- Parses a source and runs its program from the start, nested no deeper than a limit. -/
def upshot (depth : Nat) (source : String) : Upshot :=
  match parse source with
  | .failed fault _ => .stopped fault
  | .done program parser _ =>
      match parser.diagnostics with
      | first :: rest => .rejected first rest
      | [] => .ran program (program.eval depth rootFrame .start)

/-- The diagnostics say the same about tokens that say the same. -/
def Diagnostic.Alike (diagnostic diagnostic' : Diagnostic) : Prop :=
  ∃ message token token', token.lexeme = token'.lexeme ∧ diagnostic = .about message token ∧
    diagnostic' = .about message token'

/-- The same fault, the same parse errors, or programs that differ in tokens only and run alike. -/
def Upshot.Alike : Upshot → Upshot → Prop
  | .stopped fault, .stopped fault' => fault = fault'
  | .rejected first rest, .rejected first' rest' =>
      List.Forall₂ Diagnostic.Alike (first :: rest) (first' :: rest')
  | .ran program outcome, .ran program' outcome' =>
      program.same program' = true ∧ TwinRuns outcome outcome'
  | _, _ => False

section

variable (depth : Nat) {source source' : String} {program program' : Node} {after : Parser}

theorem upshot_of_clean (h : (parse source).Gives program after) (hclean : after.diagnostics = []) :
    upshot depth source = .ran program (program.eval depth rootFrame .start) := by
  obtain ⟨_, h⟩ := h
  simp only [upshot, h, hclean]

theorem upshot_of_diagnostics {first : Diagnostic} {rest : List Diagnostic}
    (h : (parse source).Gives program after) (hfirst : after.diagnostics = first :: rest) :
    upshot depth source = .rejected first rest := by
  obtain ⟨_, h⟩ := h
  simp only [upshot, h, hfirst]

theorem upshot_of_failed {fault : Fault} (h : parse source = .failed fault after) :
    upshot depth source = .stopped fault := by
  simp only [upshot, h]

/-- What becomes of a source tells how it parses. -/
theorem upshot_cases (source : String) :
    (∃ fault parser, parse source = .failed fault parser ∧
      upshot depth source = .stopped fault) ∨
    (∃ program parser first rest, (parse source).Gives program parser ∧
      parser.diagnostics = first :: rest ∧ upshot depth source = .rejected first rest) ∨
    ∃ program, Parses source program ∧
      upshot depth source = .ran program (program.eval depth rootFrame .start) := by
  cases hparse : parse source with
  | failed fault parser => exact .inl ⟨fault, parser, rfl, upshot_of_failed depth hparse⟩
  | done program parser left_le =>
      have hgives : (parse source).Gives program parser := ⟨left_le, hparse⟩
      rw [← hparse]
      cases hdiagnostics : parser.diagnostics with
      | cons first rest =>
          exact .inr (.inl ⟨program, parser, first, rest, hgives, hdiagnostics,
            upshot_of_diagnostics depth hgives hdiagnostics⟩)
      | nil =>
          exact .inr (.inr ⟨program, ⟨parser, hgives, hdiagnostics⟩,
            upshot_of_clean depth hgives hdiagnostics⟩)

theorem numeralsOf_congr {tokens tokens' : List Token}
    (h : tokens.map Token.lexeme = tokens'.map Token.lexeme) :
    numeralsOf tokens = numeralsOf tokens' := by
  have hlexeme (tokens : List Token) : numeralsOf tokens =
      (tokens.map Token.lexeme).flatMap fun lexeme =>
        if lexeme.1 = .int then [lexeme.2] else [] := by
    rw [List.flatMap_map]
    rfl
  rw [hlexeme, hlexeme, h]

/-- What is read from the same lexemes shows the same integer literals. -/
theorem Parses.twin_of_respaces (h : (tokenize source).Respaces (tokenize source'))
    (hparses : Parses source program) (hparses' : Parses source' program')
    (hsame : program.same program' = true) : program.Twin program' := by
  refine hparses.twin hparses' hsame (functionNumerals_eq ((Node.same_iff_bare _ _).mp hsame) ?_)
  rw [hparses.numerals_eq, hparses'.numerals_eq, numeralsOf_congr h.lexemes]

theorem Diagnostic.Facing.alike (h : (tokenize source).Respaces (tokenize source'))
    {diagnostic diagnostic' : Diagnostic}
    (hfacing : Diagnostic.Facing (tokenize source) (tokenize source') diagnostic diagnostic') :
    diagnostic.Alike diagnostic' := by
  obtain ⟨message, token, token', ⟨index, rfl, rfl⟩, rfl, rfl⟩ := hfacing
  exact ⟨message, _, _, h.lexeme_get index, rfl, rfl⟩

/-- Layout that opens no other lines does not matter. -/
theorem upshot_alike (h : (tokenize source).Respaces (tokenize source')) :
    (upshot depth source).Alike (upshot depth source') := by
  rcases (facing_parse h).gives_or_failed with
    ⟨program, program', after, after', hgives, hgives', hbare, hfacing⟩ |
    ⟨fault, parser, parser', hparse, hparse', _, _, hfacing⟩
  · have hsame := (Node.same_iff_bare _ _).mpr hbare
    have hfound : List.Forall₂ Diagnostic.Alike after.diagnostics after'.diagnostics :=
      (List.rel_reverse hfacing.found).imp fun _ _ => Diagnostic.Facing.alike h
    cases hdiagnostics : after.diagnostics with
    | nil =>
        rw [hdiagnostics] at hfound
        have hdiagnostics' := List.forall₂_nil_left_iff.mp hfound
        rw [upshot_of_clean depth hgives hdiagnostics,
          upshot_of_clean depth hgives' hdiagnostics']
        have htwin := Parses.twin_of_respaces h ⟨after, hgives, hdiagnostics⟩
          ⟨after', hgives', hdiagnostics'⟩ hsame
        exact ⟨hsame, htwin.eval twin_start depth rootFrame⟩
    | cons first rest =>
        rw [hdiagnostics] at hfound
        obtain ⟨first', rest', hfirst, hrest, hdiagnostics'⟩ := List.forall₂_cons_left_iff.mp hfound
        rw [upshot_of_diagnostics depth hgives hdiagnostics,
          upshot_of_diagnostics depth hgives' hdiagnostics']
        exact .cons hfirst hrest
  · rw [upshot_of_failed depth hparse, upshot_of_failed depth hparse', hfacing.literal_current]
    rfl

end

end Monkey
