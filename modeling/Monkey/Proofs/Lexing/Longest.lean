/-
Marks that are the longest.  Whatever they are made of, strays included, the lexer reads them back
as they stand.
-/
import Monkey.Proofs.Lexing.Lossless

namespace Monkey

/-! ### What stands behind a token -/

theorem Kind.ends_congr {kind : Kind} {first second : List Char}
    (h : first.head? = second.head?) : kind.Ends first ↔ kind.Ends second := by
  unfold Kind.Ends
  rw [h]

/-- What is legal does not run into layout. -/
theorem Kind.ends_of_layout {kind : Kind} {literal : String} {following : List Char}
    (hkind : kind ≠ .illegal) (hspells : kind.Spells literal)
    (h : ∀ c ∈ following.head?, isLayout c = true) : kind.Ends following := by
  have hno : ∀ {p : Char → Bool}, (∀ c, p c = true → isLayout c = false) →
      ∀ c ∈ following.head?, p c = false := by
    intro p hp c hc
    cases hpc : p c with
    | false => rfl
    | true =>
        have hlayout := h c hc
        rw [hp c hpc] at hlayout
        cases hlayout
  cases kind with
  | illegal => exact absurd rfl hkind
  | eof => exact absurd hspells id
  | int => exact hno fun c hc => isLayout_eq_false (Or.inl hc)
  | ident | letWord | returnWord | fnWord | ifWord | elseWord | trueWord | falseWord =>
      exact hno fun c hc => isLayout_eq_false (Or.inr (Or.inl hc))
  | assign | bang => exact fun hsign => absurd (h '=' hsign) (by decide)
  | _ => trivial

/-- What stands behind a token that is the longest does not go on with it. -/
theorem Kind.ends_of_longest {kind : Kind} {literal : String} {following : List Char}
    (h : kind.Longest literal following) (hkind : kind ≠ .illegal) : kind.Ends following := by
  cases kind with
  | illegal => exact absurd rfl hkind
  | eof => exact absurd h.spells id
  | int => exact h.number rfl
  | ident | letWord | returnWord | fnWord | ifWord | elseWord | trueWord | falseWord =>
      exact h.word (by decide)
  | assign | bang => exact h.single (by simp)
  | _ => trivial

theorem Mark.Longest.text_ne_nil {mark : Mark} {following : List Char}
    (h : mark.Longest following) : mark.text ≠ [] := by
  cases mark with
  | gap c => exact List.cons_ne_nil _ _
  | word kind literal => exact h.nonempty

/-! ### Reading back -/

namespace Cursor

variable {cursor : Cursor} {following : List Char} {kind : Kind} {literal : String}

/-- A string without an end is read to the end of the text. -/
theorem takes_unclosed {body : List Char} (hbody : '"' ∉ body)
    (hliteral : literal.toList = '"' :: body) (hrest : cursor.rest = literal.toList) :
    cursor.Takes .illegal literal := by
  rw [hliteral] at hrest
  have hadvance : cursor.advance.rest = body ++ [] := by
    rw [rest_advance, hrest, List.append_nil]
    rfl
  have hspan : cursor.advance.span (· != '"') = (body, cursor.advance.pass body.length) := by
    refine span_eq hadvance (fun c hc => ?_) (by simp)
    have hne : c ≠ '"' := fun heq => hbody (heq ▸ hc)
    simpa using hne
  have hend : (cursor.advance.pass body.length).rest = [] := by
    rw [rest_pass, hadvance, List.append_nil, List.drop_length]
  obtain ⟨hsingle, hpair⟩ := singleKind?_eq_none (Or.inr (Or.inr (rfl : '"' = '"')))
  have hofList : literal = String.ofList ('"' :: body) := by rw [← hliteral, String.ofList_toList]
  rw [Takes, Mark.text_word (by decide), hliteral]
  refine ⟨'"', rfl, rfl, ?_⟩
  simp only [readToken, hpair, hsingle, if_true, readString, hspan, hend, hrest, hofList]
  rfl

/-- What makes no token is read off its own text, too. -/
theorem takes_stray (hstray : Stray literal.toList following)
    (hrest : cursor.rest = literal.toList ++ following) : cursor.Takes .illegal literal := by
  generalize htext : literal.toList = text at hstray
  rw [htext] at hrest
  cases hstray with
  | @half c _ hc halone =>
      rw [← htext] at hrest
      rcases hc with rfl | rfl
      · exact takes_alone rfl (by decide) htext hrest halone
      · exact takes_alone rfl (by decide) htext hrest halone
  | unclosed hbody =>
      rw [List.append_nil] at hrest
      exact takes_unclosed hbody htext (hrest.trans htext.symm)
  | @foreign c _ hlayout hsingle hpair hquote hdigit hletter =>
      have hofList : literal = String.ofList [c] := by rw [← htext, String.ofList_toList]
      rw [Takes, Mark.text_word (by decide), htext]
      refine ⟨c, rfl, hlayout, ?_⟩
      simp [readToken, hpair, hsingle, hquote, hdigit, hletter, hofList, pass]

theorem takes_longest (h : kind.Longest literal following)
    (hrest : cursor.rest = (Mark.word kind literal).text ++ following) :
    cursor.Takes kind literal := by
  by_cases hkind : kind = .illegal
  · subst hkind
    rw [Mark.text_word (by decide)] at hrest
    exact takes_stray (h.stray rfl) hrest
  · exact takes_word h.spells (Kind.ends_of_longest h hkind) hrest

end Cursor

/-- No token starts with layout. -/
theorem Kind.Longest.head_not_layout {kind : Kind} {literal : String} {following : List Char}
    (h : kind.Longest literal following) :
    ∃ c ∈ (Mark.word kind literal).text.head?, isLayout c = false := by
  let cursor : Cursor := ⟨(Mark.word kind literal).text ++ following, 0, .start⟩
  obtain ⟨c, hc, hlayout, _⟩ := @Cursor.takes_longest cursor following kind literal h rfl
  exact ⟨c, hc, hlayout⟩

/-- Marks that are all the longest are read back token by token, by induction on the marks. -/
theorem tokenize_of_allLongest {marks : List Mark} (h : AllLongest marks) {cursor : Cursor}
    (hrest : cursor.rest = textOf marks) :
    cursor.tokenize = ⟨lay cursor.place marks, cursor.place.after (textOf marks)⟩ := by
  induction marks generalizing cursor with
  | nil => exact Cursor.tokenize_nil hrest
  | cons mark marks ih =>
      obtain ⟨hmark, hmarks⟩ := h
      cases mark with
      | gap c =>
          have hadvance : cursor.advance.rest = textOf marks := by
            rw [Cursor.rest_advance, hrest]
            rfl
          have hplace : cursor.advance.place = cursor.place.next c := by
            simp [Cursor.advance, hrest, Mark.text]
          rw [Cursor.tokenize_of_layout hrest hmark, ih hmarks hadvance, hplace]
          rfl
      | word kind literal =>
          have hpass : (cursor.pass (Mark.word kind literal).text.length).rest =
              textOf marks := by
            rw [Cursor.rest_pass, hrest, textOf_cons, List.drop_left]
          have hplace : (cursor.pass (Mark.word kind literal).text.length).place =
              cursor.place.after (Mark.word kind literal).text := by
            rw [Cursor.place_pass _ (by simp [hrest]), hrest, textOf_cons, List.take_left]
          rw [Cursor.tokenize_of_takes (Cursor.takes_longest hmark hrest) hrest, ih hmarks hpass,
            hplace, lay, textOf_cons, Place.after_append]

end Monkey
