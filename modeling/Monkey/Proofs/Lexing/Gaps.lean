/-
Blank lines between tokens and in them.  Only strings, and strings without an end, go on over a
newline.  So a line of layout is all gaps, or one of them holds it from its beginning to its end;
and in both cases the other marks are the longest also without it.
-/
import Monkey.Proofs.Lexing.Longest
import Monkey.Proofs.Lexing.Pruning

namespace Monkey

theorem isBlank_of_isLayout {c : Char} (h : isLayout c = true) : isBlank c = true := by
  have hcases : ((c = ' ' ∨ c = '\t') ∨ c = '\n') ∨ c = '\r' := by simpa [isLayout] using h
  rcases hcases with ((rfl | rfl) | rfl) | rfl <;> rfl

/-! ### Other text behind a token -/

theorem Stray.congr {text following following' : List Char} (h : Stray text following)
    (hhead : following.head? = following'.head?) : Stray text following' := by
  cases h with
  | half hc halone => exact .half hc (hhead ▸ halone)
  | unclosed hbody =>
      obtain rfl := List.head?_eq_none_iff.mp hhead.symm
      exact .unclosed hbody
  | foreign hlayout hsingle hpair hquote hdigit hletter =>
      exact .foreign hlayout hsingle hpair hquote hdigit hletter

/-- What is the longest depends on one character behind it at most. -/
theorem Mark.Longest.congr {mark : Mark} {following following' : List Char}
    (h : mark.Longest following) (hhead : following.head? = following'.head?) :
    mark.Longest following' := by
  cases mark with
  | gap c => exact h
  | word kind literal =>
      have h : kind.Longest literal following := h
      exact {
        nonempty := h.nonempty
        spells := h.spells
        number := hhead ▸ h.number
        word := hhead ▸ h.word
        letters := h.letters
        keyword := h.keyword
        single := hhead ▸ h.single
        stray := fun hkind => (h.stray hkind).congr hhead }

theorem AllLongest.right {first second : List Mark} (h : AllLongest (first ++ second)) :
    AllLongest second := by
  induction first with
  | nil => exact h
  | cons mark first ih => exact ih h.2

/-- Marks may be exchanged for others whose text begins with the same character. -/
theorem AllLongest.exchange {first second second' : List Mark} (h : AllLongest (first ++ second))
    (h' : AllLongest second') (hhead : (textOf second).head? = (textOf second').head?) :
    AllLongest (first ++ second') := by
  induction first with
  | nil => exact h'
  | cons mark first ih =>
      refine ⟨h.1.congr ?_, ih h.2⟩
      show (textOf (first ++ second)).head? = (textOf (first ++ second')).head?
      rw [textOf_append, textOf_append, List.head?_append, List.head?_append, hhead]

/-! ### Marks around a place in the text -/

/-- A place in the text of the marks is between two of them or inside of one. -/
theorem split_marks {marks : List Mark} {front back : List Char}
    (h : textOf marks = front ++ back) :
    (∃ before behind, marks = before ++ behind ∧ textOf before = front ∧ textOf behind = back) ∨
      ∃ before kind literal behind head tail, marks = before ++ .word kind literal :: behind ∧
        (Mark.word kind literal).text = head ++ tail ∧ tail ≠ [] ∧
        front = textOf before ++ head ∧ back = tail ++ textOf behind := by
  induction marks generalizing front with
  | nil =>
      obtain ⟨rfl, rfl⟩ := List.append_eq_nil_iff.mp h.symm
      exact .inl ⟨[], [], rfl, rfl, rfl⟩
  | cons mark marks ih =>
      rw [textOf_cons] at h
      rcases List.append_eq_append_iff.mp h with ⟨front', rfl, hrest⟩ | ⟨tail, htext, rfl⟩
      · rcases ih hrest with ⟨before, behind, rfl, rfl, rfl⟩ |
          ⟨before, kind, literal, behind, head, tail, rfl, htext, htail, rfl, hback⟩
        · exact .inl ⟨mark :: before, behind, rfl, rfl, rfl⟩
        · exact .inr ⟨mark :: before, kind, literal, behind, head, tail, rfl, htext, htail,
            (List.append_assoc ..).symm, hback⟩
      · by_cases hfront : front = []
        · subst hfront
          rw [List.nil_append] at htext
          exact .inl ⟨[], mark :: marks, rfl, rfl, by rw [textOf_cons, htext]⟩
        · by_cases htail : tail = []
          · subst htail
            rw [List.append_nil] at htext
            exact .inl ⟨[mark], marks, rfl, by simp [htext], rfl⟩
          · cases mark with
            | gap c =>
                have hlength : 1 = front.length + tail.length := by
                  simpa [Mark.text] using congrArg List.length htext
                have hpos := List.length_pos_iff.mpr hfront
                have hpos' := List.length_pos_iff.mpr htail
                omega
            | word kind literal =>
                exact .inr ⟨[], kind, literal, marks, front, tail, rfl, htext, htail, rfl, rfl⟩

/-- Layout between two tokens is all gaps. -/
theorem exists_gaps {marks : List Mark} (h : AllLongest marks) {gap rest : List Char}
    (hgap : ∀ c ∈ gap, isLayout c = true) (htext : textOf marks = gap ++ rest) :
    ∃ behind, marks = gap.map Mark.gap ++ behind ∧ textOf behind = rest := by
  induction gap generalizing marks with
  | nil => exact ⟨marks, rfl, htext⟩
  | cons c gap ih =>
      obtain ⟨hc, hrest⟩ := List.forall_mem_cons.mp hgap
      cases marks with
      | nil => cases htext
      | cons mark marks =>
          obtain ⟨hmark, hmarks⟩ := h
          rw [textOf_cons, List.cons_append] at htext
          cases mark with
          | gap d =>
              obtain ⟨rfl, hothers⟩ := List.cons.inj htext
              obtain ⟨behind, rfl, hbehind⟩ := ih hmarks hrest hothers
              exact ⟨behind, rfl, hbehind⟩
          | word kind literal =>
              obtain ⟨d, hd, hlayout⟩ := Kind.Longest.head_not_layout hmark
              obtain ⟨others, hothers⟩ := List.head?_eq_some_iff.mp hd
              rw [hothers, List.cons_append] at htext
              obtain rfl := (List.cons.inj htext).1
              rw [hc] at hlayout
              cases hlayout

/-! ### Tokens over more than one line -/

/-- Only strings go on over a newline; without an end they go on to the end of the text. -/
theorem Kind.Longest.string_of_newline {kind : Kind} {literal : String} {following : List Char}
    (h : kind.Longest literal following) (hnewline : '\n' ∈ (Mark.word kind literal).text) :
    kind = .string ∨ kind = .illegal ∧ following = [] ∧
      ∃ body, '"' ∉ body ∧ literal.toList = '"' :: body := by
  cases kind with
  | illegal =>
      rw [Mark.text_word (by decide)] at hnewline
      have hstray := h.stray rfl
      generalize literal.toList = text at hnewline hstray
      cases hstray with
      | half hc _ =>
          obtain rfl := List.mem_singleton.mp hnewline
          exact absurd hc (by decide)
      | unclosed hbody => exact .inr ⟨rfl, rfl, _, hbody, rfl⟩
      | foreign hlayout _ _ _ _ _ =>
          obtain rfl := List.mem_singleton.mp hnewline
          cases hlayout
  | string => exact .inl rfl
  | eof => exact absurd h.spells id
  | int => exact absurd (h.spells.2 _ hnewline) (by decide)
  | ident => exact absurd (h.spells.2.1 _ hnewline) (by decide)
  | _ =>
      obtain rfl := Option.some.inj h.spells
      exact absurd hnewline (by decide)

theorem Kind.Longest.ends_of_newline {kind : Kind} {literal : String} {following : List Char}
    (h : kind.Longest literal following) (hnewline : '\n' ∈ (Mark.word kind literal).text) :
    following = [] ∨ (Mark.word kind literal).text.getLast? = some '"' := by
  rcases h.string_of_newline hnewline with rfl | ⟨rfl, hnil, _⟩
  · exact .inr (List.getLast?_concat (l := '"' :: literal.toList))
  · exact .inl hnil

/-- What a quote is put in front of does not start with a newline. -/
theorem exists_behind_quote {body head rest : List Char} (h : '"' :: body = head ++ '\n' :: rest) :
    ∃ front, head = '"' :: front ∧ body = front ++ '\n' :: rest := by
  cases head with
  | nil => cases h
  | cons c front =>
      obtain ⟨rfl, hbody⟩ := List.cons.inj h
      exact ⟨front, rfl, hbody⟩

/-- A string of which a newline and some more text is left ends with its quote. -/
theorem exists_before_quote {body front rest : List Char} {c : Char} (hc : c ≠ '"')
    (h : body ++ ['"'] = front ++ c :: rest) :
    ∃ rest', rest = rest' ++ ['"'] ∧ body = front ++ c :: rest' := by
  rcases List.eq_nil_or_concat rest with rfl | ⟨rest', last, rfl⟩
  · exact absurd (List.append_singleton_inj.mp h).2.symm hc
  · rw [List.concat_eq_append, ← List.cons_append, ← List.append_assoc] at h
    obtain ⟨rfl, rfl⟩ := List.append_singleton_inj.mp h
    exact ⟨rest', List.concat_eq_append, rfl⟩

theorem not_mem_without_line {c d : Char} {front blank others : List Char}
    (h : c ∉ front ++ d :: (blank ++ d :: others)) : c ∉ front ++ d :: others := by
  simp only [List.mem_append, List.mem_cons, not_or] at h ⊢
  exact ⟨h.1, h.2.1, h.2.2.2.2⟩

/-- A token that holds a blank line is a string, with an end or without.  It is one also without
the line, and the same is left of both texts without their blank lines. -/
theorem Kind.Longest.without_line {kind : Kind} {literal : String}
    {following head blank others : List Char} (h : kind.Longest literal following)
    (hline : '\n' ∉ blank) (hblank : blank.all isBlank = true)
    (htext : (Mark.word kind literal).text = head ++ '\n' :: (blank ++ '\n' :: others)) :
    ∃ literal', (Mark.word kind literal').text = head ++ '\n' :: others ∧
      kind.Longest literal' following ∧ (kind = .string ∨ kind = .illegal) ∧
      pruneText literal = pruneText literal' := by
  rcases h.string_of_newline (by simp [htext]) with rfl | ⟨rfl, rfl, body, hbody, hliteral⟩
  · have hspells : '"' ∉ literal.toList := h.spells
    obtain ⟨front, rfl, hclosed⟩ := exists_behind_quote htext
    rw [← List.cons_append, ← List.append_assoc] at hclosed
    obtain ⟨others, rfl, hliteral⟩ := exists_before_quote (by decide) hclosed
    rw [List.append_assoc, List.cons_append] at hliteral
    rw [hliteral] at hspells
    refine ⟨String.ofList (front ++ '\n' :: others), ?_, longest_of_ends ?_ trivial, .inl rfl, ?_⟩
    · simp [Mark.text]
    · show '"' ∉ (String.ofList (front ++ '\n' :: others)).toList
      rw [String.toList_ofList]
      exact not_mem_without_line hspells
    · rw [pruneText, pruneText, hliteral, String.toList_ofList, prune_blank hline hblank]
  · rw [Mark.text_word (by decide)] at htext
    obtain ⟨front, rfl, rfl⟩ := exists_behind_quote (hliteral.symm.trans htext)
    refine ⟨String.ofList ('"' :: front ++ '\n' :: others), ?_, longest_of_stray ?_, .inr rfl, ?_⟩
    · rw [Mark.text_word (by decide), String.toList_ofList]
    · rw [String.toList_ofList]
      exact .unclosed (not_mem_without_line hbody)
    · rw [pruneText, pruneText, htext, String.toList_ofList, prune_blank hline hblank]

/-- A line of layout behind a newline is all gaps, or it is held by a token. -/
theorem gaps_or_held {marks : List Mark} (h : AllLongest marks) {front blank rest : List Char}
    (hblank : ∀ c ∈ blank, isLayout c = true)
    (htext : textOf marks = front ++ '\n' :: (blank ++ '\n' :: rest)) :
    (∃ before behind, marks = before ++ .gap '\n' :: ((blank ++ ['\n']).map Mark.gap ++ behind) ∧
      textOf before = front ∧ textOf behind = rest) ∨
    ∃ before kind literal behind head others, marks = before ++ .word kind literal :: behind ∧
      (Mark.word kind literal).text = head ++ '\n' :: (blank ++ '\n' :: others) ∧
      front = textOf before ++ head ∧ rest = others ++ textOf behind := by
  let gap := '\n' :: (blank ++ ['\n'])
  have hgap : ∀ c ∈ gap, isLayout c = true := by
    refine List.forall_mem_cons.mpr ⟨rfl, List.forall_mem_append.mpr ⟨hblank, ?_⟩⟩
    exact List.forall_mem_singleton.mpr rfl
  have htext : textOf marks = front ++ (gap ++ rest) := by simpa [gap] using htext
  rcases split_marks htext with ⟨before, behind, rfl, hbefore, hbehind⟩ |
    ⟨before, kind, literal, behind, head, tail, rfl, hsplit, htail, hfront, hback⟩
  · obtain ⟨behind, rfl, hrest⟩ := exists_gaps h.right hgap hbehind
    exact .inl ⟨before, behind, rfl, hbefore, hrest⟩
  · have hlongest : kind.Longest literal (textOf behind) := h.right.1
    -- the token goes on behind the line, since it does not end with layout
    have hheld : ∃ others, tail = gap ++ others ∧ rest = others ++ textOf behind := by
      have hnewline : '\n' ∈ (Mark.word kind literal).text := by
        obtain ⟨c, tail, rfl⟩ := List.exists_cons_of_ne_nil htail
        obtain rfl := (List.cons.inj hback).1
        simp [hsplit]
      rcases List.append_eq_append_iff.mp hback with ⟨others, hothers, hrest⟩ |
        ⟨others, hothers, hrest⟩
      · exact ⟨others, hothers, hrest⟩
      · rcases hlongest.ends_of_newline hnewline with hnil | hquote
        · rw [hnil] at hrest
          obtain ⟨rfl, rfl⟩ := List.append_eq_nil_iff.mp hrest.symm
          exact ⟨[], by simpa using hothers.symm, by rw [hnil, List.append_nil]⟩
        · rw [hsplit, List.getLast?_append_of_ne_nil _ htail] at hquote
          have hmem : '"' ∈ gap := hothers ▸ List.mem_append_left _ (List.mem_of_getLast? hquote)
          exact absurd (hgap _ hmem) (by decide)
    obtain ⟨others, rfl, hrest⟩ := hheld
    refine .inr ⟨before, kind, literal, behind, head, others, rfl, ?_, hfront, hrest⟩
    simpa [gap] using hsplit

end Monkey
