/-
Texts written one after the other.  A semicolon between two programs ends the last statement of
the first one as the end of the text did, whatever that statement is, and the second one is read
as by itself, some lines further down.
-/
import Monkey.Proofs.Parsing.Blame
import Monkey.Proofs.Parsing.Following
import Monkey.Proofs.Parsing.Respacing

namespace Monkey

/-! ### Tokens further down -/

/-- The tokens of the marks and the place after them. -/
def layStream (place : Place) (marks : List Mark) : TokenStream :=
  ⟨lay place marks, place.after (textOf marks)⟩

theorem Place.line_after_sub (place place' : Place) (text : List Char) :
    (place'.after text).line - (place.after text).line = place'.line - place.line := by
  induction text generalizing place place' with
  | nil => rfl
  | cons c text ih =>
      rw [Place.after_cons, Place.after_cons, ih]
      unfold Place.next
      split
      · simp only
        omega
      · rfl

theorem lexemes_lay (place place' : Place) (marks : List Mark) :
    (lay place marks).map Token.lexeme = (lay place' marks).map Token.lexeme := by
  induction marks generalizing place place' with
  | nil => rfl
  | cons mark marks ih =>
      cases mark with
      | gap c => exact ih _ _
      | word kind literal =>
          rw [lay, lay, List.map_cons, List.map_cons, ih]
          rfl

/-- All tokens, and the end, are as many lines further down. -/
theorem line_get_layStream (place place' : Place) (marks : List Mark) (index : Nat) :
    ((layStream place' marks).get index).place.line -
      ((layStream place marks).get index).place.line = place'.line - place.line := by
  induction marks generalizing place place' index with
  | nil => rfl
  | cons mark marks ih =>
      cases mark with
      | gap c =>
          have hnext := place.line_after_sub place' [c]
          exact (ih (place.next c) (place'.next c) index).trans hnext
      | word kind literal =>
          cases index with
          | zero => rfl
          | succ index =>
              have hafter := place.line_after_sub place' (Mark.word kind literal).text
              rw [← hafter]
              refine Eq.trans ?_ (ih _ _ index)
              simp only [layStream, textOf_cons, Place.after_append]
              rfl

theorem respaces_layStream (place place' : Place) (marks : List Mark) :
    (layStream place marks).Respaces (layStream place' marks) := by
  refine ⟨lexemes_lay place place' marks, fun index _ => ?_⟩
  have hlast := line_get_layStream place place' marks index
  have hnext := line_get_layStream place place' marks (index + 1)
  omega

/-! ### The tokens of both texts -/

theorem Kind.ends_of_semicolon {kind : Kind} {literal : String} (hkind : kind ≠ .illegal)
    (hspells : kind.Spells literal) (following : List Char) : kind.Ends (';' :: following) := by
  cases kind with
  | illegal => exact absurd rfl hkind
  | eof => exact absurd hspells id
  | int | ident | letWord | returnWord | fnWord | ifWord | elseWord | trueWord | falseWord =>
      rintro c ⟨rfl⟩
      decide
  | assign | bang => exact fun hsign => absurd hsign (by simp)
  | _ => trivial

/-- The marks of a text that has no mistake in its tokens. -/
theorem exists_marks_of_parses {source : String} {program : Node} (h : Parses source program) :
    ∃ marks, textOf marks = source.toList ∧ tokenize source = layStream .start marks ∧
      ∀ following, (∀ (kind : Kind) literal, kind ≠ .illegal → kind.Spells literal →
        kind.Ends following) → Legible marks following := by
  obtain ⟨marks, htext, htokens, hlongest⟩ := (Cursor.ofText source).exists_marks
  have hstream : tokenize source = layStream .start marks := by
    rw [layStream, htext]
    exact htokens
  obtain ⟨statements, _, hderives⟩ := parses_iff.mp h
  rw [hstream] at hderives
  refine ⟨marks, htext, hstream, fun following hfollowing => ?_⟩
  rw [← List.append_nil marks] at hlongest
  exact legible_of_allLongest hlongest hderives.kind_ne_illegal hfollowing

/-- The tokens of two texts with a semicolon and a newline between them. -/
theorem tokenize_joined {first second : String} {program program' : Node}
    (h : Parses first program) (h' : Parses second program') :
    ∃ semicolon place marks, semicolon.kind = Kind.semicolon ∧
      tokenize second = layStream .start marks ∧
      tokenize (first ++ ";\n" ++ second) =
        ⟨(tokenize first).tokens ++ semicolon :: lay place marks, place.after (textOf marks)⟩ := by
  obtain ⟨marks, htext, hstream, hlegible⟩ := exists_marks_of_parses h
  obtain ⟨marks', htext', hstream', hlegible'⟩ := exists_marks_of_parses h'
  let all := marks ++ .word .semicolon ";" :: .gap '\n' :: marks'
  have hall : Legible all [] := by
    refine legible_append.mpr ⟨hlegible _ fun kind literal hkind hspells => ?_, ?_, rfl, ?_⟩
    · exact Kind.ends_of_semicolon hkind hspells _
    · exact ⟨rfl, trivial⟩
    · exact hlegible' [] fun kind literal hkind hspells =>
        Kind.ends_of_layout hkind hspells (by simp)
  refine ⟨⟨.semicolon, ";", Place.start.after (textOf marks)⟩,
    (Place.start.after (textOf marks)).after [';', '\n'], marks', rfl, hstream', ?_⟩
  have hjoined : (Cursor.ofText (first ++ ";\n" ++ second)).rest = textOf all := by
    simp [all, Cursor.ofText, Mark.text, htext, htext']
  have htokens : tokenize (first ++ ";\n" ++ second) = layStream .start all :=
    tokenize_of_legible hall hjoined
  rw [htokens, hstream]
  simp only [layStream, all, lay_append, textOf_append, Place.after_append]
  rfl

/-! ### The statements of both texts -/

theorem inert_of_semicolon {next : Token} (h : next.kind = .semicolon) : next.Inert := by
  simp [Token.Inert, h, Grammar.standard]

/-- A semicolon by itself is no statement. -/
theorem DerivesAll.stray {semicolon next : Token} {statements : List Node} {rest : List Token}
    (hkind : semicolon.kind = .semicolon) (h : DerivesAll statements rest next) :
    DerivesAll statements (semicolon :: rest) next :=
  .cons (.bare (by simp) (.stray hkind)) h

/-- The semicolon ends the last statement, unless that one has ended already. -/
theorem Derives.append_semicolon {statement : Option Node} {tokens : List Token}
    {semicolon next next' : Token} {statements : List Node} {rest : List Token}
    (h : Derives (.statement statement) tokens next) (hkind : semicolon.kind = .semicolon)
    (hrest : DerivesAll statements rest next') :
    DerivesAll (statement.toList ++ statements) (tokens ++ semicolon :: rest) next' := by
  cases h with
  | bare _ hsentence =>
      cases statement with
      | none =>
          exact .cons (.bare (by simp) (hsentence.sentence_carries (inert_of_semicolon hkind)))
            (hrest.stray hkind)
      | some statement =>
          have hended := hsentence.sentence_carries (inert_of_semicolon hkind)
          have hall := DerivesAll.cons (.ended hkind hended) hrest
          rwa [List.append_assoc] at hall
  | ended hkind' hsentence => exact .cons (.ended hkind' hsentence) (hrest.stray hkind)

theorem DerivesAll.eq_nil {statements : List Node} {next : Token}
    (h : DerivesAll statements [] next) : statements = [] := by
  generalize htokens : [] = tokens at h
  cases h with
  | nil => rfl
  | cons hstatement _ => exact absurd (List.append_eq_nil_iff.mp htokens.symm).1 hstatement.ne_nil

/-- Statements go on behind a semicolon. -/
theorem DerivesAll.append_semicolon {statements statements' : List Node}
    {tokens rest : List Token} {semicolon next next' : Token}
    (h : DerivesAll statements tokens next) (hkind : semicolon.kind = .semicolon)
    (hrest : DerivesAll statements' rest next') :
    DerivesAll (statements ++ statements') (tokens ++ semicolon :: rest) next' := by
  induction h with
  | nil => exact hrest.stray hkind
  | @cons next statement statements tokens others hstatement hothers ih =>
      cases others with
      | nil =>
          rw [hothers.eq_nil, List.append_nil, List.append_nil]
          exact hstatement.append_semicolon hkind hrest
      | cons token others =>
          rw [List.append_assoc, List.append_assoc]
          exact .cons hstatement ih

/-- A run of statements is one also where its tokens stand in other places. -/
theorem DerivesAll.respaced {stream stream' : TokenStream} (hspaced : stream.Respaces stream')
    (hends : ∀ token ∈ stream.tokens, token.kind ≠ .eof) {statements : List Node}
    (h : DerivesAll statements stream.tokens stream.eof) :
    ∃ statements', DerivesAll statements' stream'.tokens stream'.eof ∧
      bareAll statements = bareAll statements' := by
  obtain ⟨after, hgives, hquiet⟩ :
      ∃ after, (Parser.ofStream stream).readStatements.Gives statements after ∧
        (Parser.ofStream stream).Quiet after :=
    Parser.complete_readStatements h rfl rfl rfl
  have hends' : ∀ token ∈ stream'.tokens, token.kind ≠ .eof := by
    intro token htoken
    have hmem : token.lexeme ∈ stream.tokens.map Token.lexeme :=
      hspaced.lexemes ▸ List.mem_map_of_mem htoken
    obtain ⟨token', htoken', hlexeme⟩ := List.mem_map.mp hmem
    have hkind : token'.kind = token.kind := congrArg Prod.fst hlexeme
    exact hkind ▸ hends token' htoken'
  rcases (Parser.Facing.ofStream hspaced).readStatements.gives_or_failed with
    ⟨_, statements', _, after', hgives₁, hgives', hsame, hafter⟩ | ⟨_, _, _, hfailed, _⟩
  · obtain ⟨rfl, rfl⟩ := hgives.unique hgives₁
    have hquiet' : (Parser.ofStream stream').Quiet after' := by
      have hfound := hafter.found
      rw [show after.found = [] from hquiet] at hfound
      exact List.forall₂_nil_left_iff.mp hfound
    exact ⟨statements', Parser.sound_readStatements hgives' rfl hends' hquiet', hsame⟩
  · rw [hfailed] at hgives
    exact absurd hgives Reading.not_gives_failed

theorem bareAll_append (first second : List Node) :
    bareAll (first ++ second) = bareAll first ++ bareAll second := by
  induction first with
  | nil => rfl
  | cons node first ih => rw [List.cons_append, bareAll, ih, bareAll, List.cons_append]

/-- The statements of two texts with a semicolon and a newline between them are those of the first
text and then those of the second. -/
theorem parses_append {first second : String} {statements statements' : List Node}
    (h : Parses first (.program statements)) (h' : Parses second (.program statements')) :
    ∃ all, Parses (first ++ ";\n" ++ second) (.program all) ∧
      sameAll all (statements ++ statements') = true := by
  obtain ⟨semicolon, place, marks, hkind, hstream', htokens⟩ := tokenize_joined h h'
  obtain ⟨_, hprogram, hderives⟩ := parses_iff.mp h
  obtain ⟨_, hprogram', hderives'⟩ := parses_iff.mp h'
  obtain rfl := Node.program.inj hprogram
  obtain rfl := Node.program.inj hprogram'
  have hends : ∀ token ∈ (layStream .start marks).tokens, token.kind ≠ .eof := fun token htoken =>
    kind_ne_eof_of_mem_tokenize (hstream' ▸ htoken)
  rw [hstream'] at hderives'
  obtain ⟨further, hfurther, hsame⟩ := hderives'.respaced (respaces_layStream _ place marks) hends
  refine ⟨statements ++ further, parses_iff.mpr ⟨_, rfl, ?_⟩, ?_⟩
  · rw [htokens]
    exact hderives.append_semicolon hkind hfurther
  · rw [sameAll_iff_bareAll, bareAll_append, bareAll_append, hsame]

/-- The first text ends with an if that an else could follow, the second one starts with what could
be a call. -/
theorem parses_append_call : ∃ statements statements',
    Parses "let f = fn(x) { x } f; if (f(1)) { f }" (.program statements) ∧
      Parses "(2) [f]" (.program statements') ∧
      ∃ all, Parses ("let f = fn(x) { x } f; if (f(1)) { f }" ++ ";\n" ++ "(2) [f]")
          (.program all) ∧ sameAll all (statements ++ statements') = true := by
  obtain ⟨program, hparses, _⟩ : ∃ program,
      Parses "let f = fn(x) { x } f; if (f(1)) { f }" program ∧ true = true :=
    exists_parses (p := fun _ => true) (by decide +kernel) (by decide +kernel)
  obtain ⟨program', hparses', _⟩ : ∃ program, Parses "(2) [f]" program ∧ true = true :=
    exists_parses (p := fun _ => true) (by decide +kernel) (by decide +kernel)
  obtain ⟨statements, rfl, _⟩ := parses_iff.mp hparses
  obtain ⟨statements', rfl, _⟩ := parses_iff.mp hparses'
  exact ⟨statements, statements', hparses, hparses', parses_append hparses hparses'⟩

end Monkey
