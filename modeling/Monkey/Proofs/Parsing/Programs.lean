/-
Whole programs.  A source text parses without errors exactly if its tokens make up a run of
statements.
-/
import Monkey.Proofs.Lexing.Spelling
import Monkey.Proofs.Parsing.Completeness

namespace Monkey

/-- The source text parses to the program, and no error is recorded. -/
def Parses (source : String) (program : Node) : Prop :=
  ∃ after, (parse source).Gives program after ∧ after.diagnostics = []

namespace Parser

open Reading

/-- What is still pending after the tokens passed comes after the one stood on. -/
theorem Passes.pending {parser after : Parser} {tokens : List Token}
    (h : parser.Passes tokens after) : parser.pending = tokens ++ after.next.pending := by
  obtain ⟨first, last, rest, rfl, hpending, rfl⟩ := h
  simp [hpending, Parser.next]

/-- Tokens at the front can be passed. -/
theorem exists_passes {parser : Parser} {tokens rest : List Token} (hne : tokens ≠ [])
    (h : parser.pending = tokens ++ rest) :
    ∃ after, parser.Passes tokens after ∧ after.next.pending = rest := by
  obtain ⟨first, last, rfl⟩ : ∃ first last, tokens = first ++ [last] :=
    ⟨_, _, (List.dropLast_concat_getLast hne).symm⟩
  refine ⟨{ parser with pending := last :: rest }, ?_, rfl⟩
  exact passes_iff.mpr ⟨rest, by simpa using h, rfl⟩

theorem peek_eq (parser : Parser) : parser.peek = parser.next.pending.headD parser.eof := rfl

theorem before_readStatements {parser after : Parser} {statements : List Node}
    (h : parser.readStatements.Gives statements after) : parser.Before after := by
  induction h using readStatements_induction with
  | stop => exact Before.refl _
  | step _ hread _ ih =>
      exact ((before_of_reads (.statement _) hread).trans (before_next _)).trans ih

theorem sound_readStatements {parser after : Parser} {statements : List Node}
    (h : parser.readStatements.Gives statements after) (hgrammar : parser.grammar = .standard)
    (htokens : ∀ token ∈ parser.pending, token.kind ≠ .eof) (hquiet : parser.Quiet after) :
    DerivesAll statements parser.pending parser.eof := by
  induction hleft : parser.left using Nat.strongRecOn generalizing parser statements with
  | _ count ih =>
      rcases gives_readStatements.mp h with
        ⟨hend, rfl, rfl⟩ | ⟨hend, statement, mid, hread, rest, hrest, rfl⟩
      · match hpending : parser.pending with
        | [] => exact .nil
        | token :: others =>
            have hcurrent : parser.current = token := by simp [current, hpending]
            exact absurd (hcurrent ▸ hend) (htokens token (by simp [hpending]))
      · have hpos := Parser.left_pos hend
        have hle := hread.left_le
        have hmid := (before_of_reads (.statement statement) hread).trans (before_next _)
        obtain ⟨hquiet₁, hquiet₂⟩ := hquiet.split hmid (before_readStatements hrest)
        obtain ⟨tokens, hpasses, hderives⟩ :=
          sound parser (.statement statement) mid hread hgrammar trivial trivial hquiet₁
        have hpending := hpasses.pending
        have htail : ∀ token ∈ mid.next.pending, token.kind ≠ .eof := fun token htoken =>
          htokens token (hpending ▸ List.mem_append_right tokens htoken)
        have hderives' := ih mid.next.left (by rw [left_next]; omega) hrest
          (hpasses.grammar.trans hgrammar) htail hquiet₂ rfl
        have heof : mid.next.eof = parser.eof := by
          simp only [eof, next, hpasses.finish]
        rw [heof] at hderives'
        rw [peek_eq, show mid.eof = parser.eof from heof] at hderives
        rw [hpending]
        exact .cons hderives hderives'

theorem complete_readStatements {statements : List Node} {tokens : List Token} {next : Token}
    (h : DerivesAll statements tokens next) {parser : Parser}
    (hgrammar : parser.grammar = .standard) (hpending : parser.pending = tokens)
    (hnext : parser.eof = next) :
    ∃ after, parser.readStatements.Gives statements after ∧ parser.Quiet after := by
  induction h generalizing parser with
  | nil =>
      refine ⟨parser, gives_readStatements.mpr (Or.inl ⟨?_, rfl, rfl⟩), rfl⟩
      simp [current, hpending, eof]
  | @cons next statement statements tokens rest hstatement _ ih =>
      obtain ⟨mid, hpasses, hrest⟩ := exists_passes hstatement.ne_nil hpending
      have heof : mid.eof = next := by
        rw [← hnext]
        simp only [eof, hpasses.finish]
      have hread := (complete hstatement trivial).reads hpasses hgrammar
        (by rw [peek_eq, hrest, heof])
      have hgrammar' : mid.next.grammar = .standard := hpasses.grammar.trans hgrammar
      obtain ⟨after, hgives, hquiet⟩ := ih hgrammar' hrest heof
      obtain ⟨others, rfl⟩ := hpasses.exists_head
      obtain ⟨_, hend⟩ := hstatement.statement_head
      refine ⟨after, ?_, hquiet.trans hpasses.found⟩
      exact gives_readStatements.mpr (Or.inr ⟨hend, _, mid, hread, _, hgives, rfl⟩)

end Parser

open Reading in
/-- A source text parses without errors exactly if its tokens make up a run of statements. -/
theorem parses_iff {source : String} {program : Node} :
    Parses source program ↔ ∃ statements, program = .program statements ∧
      DerivesAll statements (tokenize source).tokens (tokenize source).eof := by
  constructor
  · rintro ⟨after, hgives, hclean⟩
    obtain ⟨statements, hread, rfl⟩ := gives_map.mp hgives
    refine ⟨statements, rfl, ?_⟩
    have hquiet : (Parser.ofSource source).Quiet after := List.reverse_eq_nil_iff.mp hclean
    exact Parser.sound_readStatements hread rfl
      (fun token htoken => kind_ne_eof_of_mem_tokenize htoken) hquiet
  · rintro ⟨statements, rfl, hderives⟩
    have hgrammar : (Parser.ofSource source).grammar = .standard := rfl
    obtain ⟨after, hgives, hquiet⟩ := Parser.complete_readStatements hderives hgrammar rfl rfl
    refine ⟨after, gives_map.mpr ⟨statements, hgives, rfl⟩, ?_⟩
    exact List.reverse_eq_nil_iff.mpr hquiet

/-- Whether a text has a parse, with mistakes or without, can be found out by parsing it. -/
theorem exists_gives {source : String} (h : (parse source).toExcept.toOption.isSome = true) :
    ∃ program, (parse source).Gives program (parse source).after := by
  cases hresult : (parse source).toExcept with
  | error fault =>
      rw [hresult] at h
      cases h
  | ok program => exact ⟨program, Reading.gives_of_toExcept hresult⟩

open Reading in
/-- Whether a text parses without errors, and to what, can be found out by parsing it. -/
theorem exists_parses {source : String} {p : Node → Bool}
    (hread : (parse source).toExcept.toOption.any p = true)
    (hclean : (parse source).after.diagnostics = []) :
    ∃ program, Parses source program ∧ p program = true := by
  cases hresult : (parse source).toExcept with
  | error =>
      rw [hresult] at hread
      cases hread
  | ok program =>
      rw [hresult] at hread
      exact ⟨program, ⟨_, gives_of_toExcept hresult, hclean⟩, hread⟩

/-- What holds of the outcomes of two texts holds of their parses. -/
theorem exists_parses_two {source source' : String} {p : Node → Node → Bool}
    (hread : ((parse source).toExcept.toOption.any fun program =>
      (parse source').toExcept.toOption.any (p program)) = true)
    (hclean : (parse source).after.diagnostics = [])
    (hclean' : (parse source').after.diagnostics = []) :
    ∃ program program', Parses source program ∧ Parses source' program' ∧
      p program program' = true := by
  obtain ⟨program, hparses, hread'⟩ := exists_parses hread hclean
  obtain ⟨program', hparses', hp⟩ := exists_parses hread' hclean'
  exact ⟨program, program', hparses, hparses', hp⟩

/-- A source text has one parse. -/
theorem Parses.unique {source : String} {program program' : Node} (h : Parses source program)
    (h' : Parses source program') : program = program' := by
  obtain ⟨_, hgives, _⟩ := h
  obtain ⟨_, hgives', _⟩ := h'
  exact (hgives.unique hgives').1

end Monkey
