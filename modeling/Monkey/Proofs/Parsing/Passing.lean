/-
How a parser moves.  Reading never takes a diagnostic back and never returns to a token it has
passed; a reading that adds no diagnostic passes a run of tokens and stands on the last of them.
-/
import Monkey.Proofs.Parsing.Phrase

namespace Monkey

namespace Parser

/-- Later in the same text: fewer tokens pending, and more diagnostics found. -/
structure Before (parser after : Parser) : Prop where
  grammar : after.grammar = parser.grammar
  finish : after.finish = parser.finish
  pending : after.pending <:+ parser.pending
  found : parser.found <:+ after.found

theorem Before.refl (parser : Parser) : parser.Before parser :=
  ⟨rfl, rfl, List.suffix_refl _, List.suffix_refl _⟩

theorem Before.trans {parser mid after : Parser} (h : parser.Before mid)
    (h' : mid.Before after) : parser.Before after :=
  ⟨h'.grammar.trans h.grammar, h'.finish.trans h.finish, h'.pending.trans h.pending,
    h.found.trans h'.found⟩

theorem before_next (parser : Parser) : parser.Before parser.next :=
  ⟨rfl, rfl, List.tail_suffix _, List.suffix_refl _⟩

theorem before_report (parser : Parser) (message : String) (token : Token) :
    parser.Before (parser.report message token) :=
  ⟨rfl, rfl, List.suffix_refl _, List.suffix_cons _ _⟩

theorem before_reportPeek (parser : Parser) (kind : Kind) :
    parser.Before (parser.reportPeek kind) :=
  parser.before_report _ _

theorem before_reportNoPrefix (parser : Parser) (token : Token) :
    parser.Before (parser.reportNoPrefix token) :=
  parser.before_report _ _

/-- No diagnostic was added between two parsers. -/
def Quiet (parser after : Parser) : Prop :=
  after.found = parser.found

/-- If nothing was added over the whole way, nothing was added over its parts. -/
theorem Quiet.split {parser mid after : Parser} (hquiet : parser.Quiet after)
    (h : parser.Before mid) (h' : mid.Before after) : parser.Quiet mid ∧ mid.Quiet after := by
  have hlength : after.found.length = parser.found.length := by rw [hquiet]
  have hfirst := h.found.length_le
  have hsecond := h'.found.length_le
  have hmid : mid.found = after.found := h'.found.eq_of_length (by omega)
  exact ⟨hmid.trans hquiet, hmid.symm⟩

/-- A report is heard. -/
theorem not_quiet_report {parser before : Parser} (h : before.Before parser)
    (message : String) (token : Token) : ¬ before.Quiet (parser.report message token) := by
  intro hquiet
  have hparts := hquiet.split h (parser.before_report message token)
  have hlength := congrArg List.length hparts.2
  simp [Parser.report] at hlength

/-- The parser has passed the tokens and stands on the last of them. -/
def Passes (parser : Parser) (tokens : List Token) (after : Parser) : Prop :=
  ∃ first last rest, tokens = first ++ [last] ∧ parser.pending = first ++ last :: rest ∧
    after = { parser with pending := last :: rest }

/-- The tokens passed are the pending ones, up to the one stood on. -/
theorem passes_iff {parser after : Parser} {tokens : List Token} {last : Token} :
    parser.Passes (tokens ++ [last]) after ↔
      ∃ rest, parser.pending = tokens ++ last :: rest ∧
        after = { parser with pending := last :: rest } := by
  constructor
  · rintro ⟨first, last', rest, heq, hpending, hafter⟩
    obtain ⟨rfl, hlast⟩ := List.append_inj' heq rfl
    cases hlast
    exact ⟨rest, hpending, hafter⟩
  · rintro ⟨rest, hpending, hafter⟩
    exact ⟨tokens, last, rest, rfl, hpending, hafter⟩

theorem Passes.ne_nil {parser after : Parser} {tokens : List Token}
    (h : parser.Passes tokens after) : tokens ≠ [] := by
  obtain ⟨first, last, rest, rfl, _, _⟩ := h
  simp

theorem Passes.exists_last {parser after : Parser} {tokens : List Token}
    (h : parser.Passes tokens after) : ∃ first last, tokens = first ++ [last] := by
  obtain ⟨first, last, rest, rfl, _, _⟩ := h
  exact ⟨first, last, rfl⟩

theorem Passes.left_pos {parser after : Parser} {tokens : List Token}
    (h : parser.Passes tokens after) : parser.left ≠ 0 := by
  obtain ⟨first, last, rest, _, hpending, _⟩ := h
  simp [Parser.left, hpending]

theorem Passes.left_after_pos {parser after : Parser} {tokens : List Token}
    (h : parser.Passes tokens after) : after.left ≠ 0 := by
  obtain ⟨first, last, rest, _, _, rfl⟩ := h
  simp [Parser.left]

theorem Passes.grammar {parser after : Parser} {tokens : List Token}
    (h : parser.Passes tokens after) : after.grammar = parser.grammar := by
  obtain ⟨first, last, rest, _, _, rfl⟩ := h
  rfl

theorem Passes.found {parser after : Parser} {tokens : List Token}
    (h : parser.Passes tokens after) : after.found = parser.found := by
  obtain ⟨first, last, rest, _, _, rfl⟩ := h
  rfl

theorem Passes.finish {parser after : Parser} {tokens : List Token}
    (h : parser.Passes tokens after) : after.finish = parser.finish := by
  obtain ⟨first, last, rest, _, _, rfl⟩ := h
  rfl

theorem Passes.current {parser after : Parser} {tokens : List Token} {last : Token}
    (h : parser.Passes (tokens ++ [last]) after) : after.current = last := by
  obtain ⟨rest, _, rfl⟩ := passes_iff.mp h
  rfl

theorem Passes.head {parser after : Parser} {tokens : List Token} {first : Token}
    (h : parser.Passes (first :: tokens) after) : parser.current = first := by
  obtain ⟨front, last, rest, heq, hpending, _⟩ := h
  cases front with
  | nil =>
      cases heq
      simp [Parser.current, hpending]
  | cons first' front =>
      cases heq
      simp [Parser.current, hpending]

theorem Passes.exists_head {parser after : Parser} {tokens : List Token}
    (h : parser.Passes tokens after) : ∃ rest, tokens = parser.current :: rest := by
  cases tokens with
  | nil => exact absurd rfl h.ne_nil
  | cons token rest => exact ⟨rest, by rw [h.head]⟩

/-- Standing still passes the current token. -/
theorem passes_self {parser : Parser} (h : parser.left ≠ 0) :
    parser.Passes [parser.current] parser := by
  match hpending : parser.pending with
  | [] => simp [Parser.left, hpending] at h
  | token :: rest =>
      refine ⟨[], token, rest, ?_, by simpa using hpending, ?_⟩
      · simp [Parser.current, hpending]
      · rw [← hpending]

theorem passes_singleton {parser after : Parser} {token : Token} :
    parser.Passes [token] after ↔
      parser.left ≠ 0 ∧ parser.current = token ∧ after = parser := by
  constructor
  · intro h
    have h' : parser.Passes ([] ++ [token]) after := h
    obtain ⟨rest, hpending, rfl⟩ := passes_iff.mp h'
    rw [List.nil_append] at hpending
    refine ⟨h.left_pos, h.head, ?_⟩
    rw [← hpending]
  · rintro ⟨hleft, rfl, rfl⟩
    exact passes_self hleft

/-- Going on from the token after the one stood on. -/
theorem passes_append {parser after : Parser} {tokens rest : List Token}
    (htokens : tokens ≠ []) (hrest : rest ≠ []) :
    parser.Passes (tokens ++ rest) after ↔
      ∃ mid, parser.Passes tokens mid ∧ mid.next.Passes rest after := by
  obtain ⟨first, last, rfl⟩ : ∃ first last, tokens = first ++ [last] :=
    ⟨_, _, (List.dropLast_concat_getLast htokens).symm⟩
  obtain ⟨front, final, rfl⟩ : ∃ front final, rest = front ++ [final] :=
    ⟨_, _, (List.dropLast_concat_getLast hrest).symm⟩
  constructor
  · intro h
    rw [← List.append_assoc] at h
    obtain ⟨more, hpending, rfl⟩ := passes_iff.mp h
    refine ⟨{ parser with pending := last :: (front ++ final :: more) }, ?_, ?_⟩
    · exact passes_iff.mpr ⟨_, by simpa using hpending, rfl⟩
    · exact passes_iff.mpr ⟨more, rfl, rfl⟩
  · rintro ⟨mid, hfirst, hsecond⟩
    obtain ⟨more, hpending, rfl⟩ := passes_iff.mp hfirst
    obtain ⟨more', hpending', rfl⟩ := passes_iff.mp hsecond
    rw [← List.append_assoc]
    refine passes_iff.mpr ⟨more', ?_, rfl⟩
    have hmore : more = front ++ final :: more' := by simpa [Parser.next] using hpending'
    simp [hpending, hmore]

theorem passes_cons {parser after : Parser} {token : Token} {rest : List Token}
    (hrest : rest ≠ []) :
    parser.Passes (token :: rest) after ↔
      parser.left ≠ 0 ∧ parser.current = token ∧ parser.next.Passes rest after := by
  have hcons : token :: rest = [token] ++ rest := rfl
  rw [hcons, passes_append (List.cons_ne_nil _ _) hrest]
  constructor
  · rintro ⟨mid, hfirst, hsecond⟩
    obtain ⟨hleft, hcurrent, rfl⟩ := passes_singleton.mp hfirst
    exact ⟨hleft, hcurrent, hsecond⟩
  · rintro ⟨hleft, hcurrent, hsecond⟩
    exact ⟨parser, passes_singleton.mpr ⟨hleft, hcurrent, rfl⟩, hsecond⟩

/-- Going on from the token stood on. -/
theorem passes_overlap {parser after : Parser} {tokens rest : List Token} {last : Token} :
    parser.Passes (tokens ++ last :: rest) after ↔
      ∃ mid, parser.Passes (tokens ++ [last]) mid ∧ mid.Passes (last :: rest) after := by
  cases rest with
  | nil =>
      constructor
      · intro h
        refine ⟨after, h, ?_⟩
        exact passes_singleton.mpr ⟨h.left_after_pos, h.current, rfl⟩
      · rintro ⟨mid, hfirst, hsecond⟩
        obtain ⟨_, _, rfl⟩ := passes_singleton.mp hsecond
        exact hfirst
  | cons token rest =>
      have hcons : tokens ++ last :: token :: rest = (tokens ++ [last]) ++ token :: rest := by
        simp
      rw [hcons, passes_append (by simp) (by simp)]
      refine exists_congr fun mid => and_congr_right fun hfirst => ?_
      rw [show mid.Passes (last :: token :: rest) after ↔ _ from passes_cons (by simp)]
      constructor
      · intro hsecond
        exact ⟨hfirst.left_after_pos, hfirst.current, hsecond⟩
      · rintro ⟨_, _, hsecond⟩
        exact hsecond

theorem Passes.append {parser mid after : Parser} {tokens rest : List Token}
    (h : parser.Passes tokens mid) (h' : mid.next.Passes rest after) :
    parser.Passes (tokens ++ rest) after :=
  (passes_append h.ne_nil h'.ne_nil).mpr ⟨mid, h, h'⟩

theorem Passes.cons {parser after : Parser} {rest : List Token} (hleft : parser.left ≠ 0)
    (h : parser.next.Passes rest after) : parser.Passes (parser.current :: rest) after :=
  (passes_cons h.ne_nil).mpr ⟨hleft, rfl, h⟩

theorem passes_next (parser : Parser) (h : parser.peek.kind ≠ .eof) :
    parser.next.Passes [parser.peek] parser.next := by
  have hleft := Parser.one_lt_left h
  exact passes_singleton.mpr ⟨by rw [Parser.left_next]; omega, rfl, rfl⟩

/-- The token after the current one is the next one passed, if any, or else the one after all
that is passed. -/
theorem Passes.peek {parser after : Parser} {token : Token} {tokens : List Token}
    (h : parser.Passes (token :: tokens) after) :
    parser.peek = tokens.headD after.peek := by
  cases tokens with
  | nil =>
      obtain ⟨_, _, rfl⟩ := passes_singleton.mp h
      rfl
  | cons second tokens =>
      obtain ⟨_, _, hrest⟩ := (passes_cons (List.cons_ne_nil _ _)).mp h
      exact hrest.head

end Parser

end Monkey
