/-
Texts on lines of their own.  A newline between two texts ends the last token of the first one as
the end of the text did, unless that is a string without an end, which goes on over the newline.
The tokens of the second text are as by themselves, so many lines further down.
-/
import Monkey.Proofs.Lexing.Gaps

namespace Monkey

/-! ### Lines further down -/

/-- The place a number of lines further down. -/
def Place.below (lines : Nat) (place : Place) : Place :=
  ⟨place.line + lines, place.column⟩

def Token.below (lines : Nat) (token : Token) : Token :=
  { token with place := token.place.below lines }

theorem Place.next_below (lines : Nat) (place : Place) (c : Char) :
    (place.below lines).next c = (place.next c).below lines := by
  unfold Place.next
  split
  · simp only [Place.below, Place.mk.injEq, and_true]
    omega
  · rfl

theorem Place.after_below (lines : Nat) (place : Place) (text : List Char) :
    (place.below lines).after text = (place.after text).below lines := by
  induction text generalizing place with
  | nil => rfl
  | cons c text ih => rw [Place.after_cons, Place.after_cons, Place.next_below, ih]

theorem lay_below (lines : Nat) (place : Place) (marks : List Mark) :
    lay (place.below lines) marks = (lay place marks).map (Token.below lines) := by
  induction marks generalizing place with
  | nil => rfl
  | cons mark marks ih =>
      cases mark with
      | gap c => rw [lay, lay, Place.next_below, ih]
      | word kind literal =>
          rw [lay, lay, Place.after_below, ih, List.map_cons]
          rfl

/-- A newline leads to the first column of the line below the newlines so far. -/
theorem Place.after_newline (text : List Char) :
    Place.start.after (text ++ ['\n']) = Place.start.below (1 + text.count '\n') := by
  have hstart : Place.start = placeAfter [] := rfl
  rw [hstart, Place.after_placeAfter, List.nil_append]
  simp [placeAfter, Place.below, Int.add_comm, Int.add_left_comm]

/-! ### Strings without an end -/

/-- The kind and the literal of a string without an end.  Its quote is part of the literal, and no
other illegal token has one. -/
def Kind.Unclosed (kind : Kind) (literal : String) : Prop :=
  kind = .illegal ∧ literal.toList.head? = some '"'

/-- The token of a string without an end. -/
def Token.Unclosed (token : Token) : Prop :=
  token.kind.Unclosed token.literal

instance (token : Token) : Decidable token.Unclosed :=
  inferInstanceAs (Decidable (_ ∧ _))

theorem exists_mem_lay {kind : Kind} {literal : String} {marks : List Mark}
    (h : .word kind literal ∈ marks) (place : Place) :
    ∃ place', ⟨kind, literal, place'⟩ ∈ lay place marks := by
  induction marks generalizing place with
  | nil => cases h
  | cons mark marks ih =>
      rcases List.mem_cons.mp h with rfl | hrest
      · exact ⟨place, List.mem_cons_self⟩
      · cases mark with
        | gap c => exact ih hrest _
        | word kind' literal' =>
            obtain ⟨place', hmem⟩ := ih hrest (place.after (Mark.word kind' literal').text)
            exact ⟨place', List.mem_cons_of_mem _ hmem⟩

theorem word_mem_of_mem_lay {token : Token} {place : Place} {marks : List Mark}
    (h : token ∈ lay place marks) : .word token.kind token.literal ∈ marks := by
  induction marks generalizing place with
  | nil => cases h
  | cons mark marks ih =>
      cases mark with
      | gap c => exact List.mem_cons_of_mem _ (ih h)
      | word kind literal =>
          rcases List.mem_cons.mp h with rfl | hrest
          · exact List.mem_cons_self
          · exact List.mem_cons_of_mem _ (ih hrest)

theorem Kind.Unclosed.text_eq {kind : Kind} {literal : String} (h : kind.Unclosed literal) :
    (Mark.word kind literal).text = literal.toList :=
  Mark.text_word (by rw [h.1]; decide) literal

/-- Nothing stands behind a string without an end. -/
theorem Kind.Unclosed.following_eq_nil {kind : Kind} {literal : String} {following : List Char}
    (h : kind.Unclosed literal) (hlongest : kind.Longest literal following) : following = [] := by
  obtain ⟨rfl, hquote⟩ := h
  have hstray := hlongest.stray rfl
  generalize literal.toList = text at hquote hstray
  cases hstray with
  | half hc _ =>
      obtain rfl := Option.some.inj hquote
      exact absurd hc (by decide)
  | unclosed _ => rfl
  | foreign _ _ _ hne _ _ => exact absurd (Option.some.inj hquote) hne

/-! ### The seam -/

/-- What is the longest at the end of a text is also in front of a newline, unless it is a string
without an end. -/
theorem Kind.Longest.before_newline {kind : Kind} {literal : String}
    (h : kind.Longest literal []) (hclosed : ¬ kind.Unclosed literal) (rest : List Char) :
    kind.Longest literal ('\n' :: rest) := by
  by_cases hkind : kind = .illegal
  · subst hkind
    apply longest_of_stray
    have hstray := h.stray rfl
    have hquote : literal.toList.head? ≠ some '"' := fun hquote => hclosed ⟨rfl, hquote⟩
    generalize literal.toList = text at hstray hquote
    cases hstray with
    | half hc _ =>
        refine .half hc fun hnewline => ?_
        obtain rfl := Option.some.inj hnewline
        exact absurd hc (by decide)
    | unclosed _ => exact absurd rfl hquote
    | foreign hlayout hsingle hpair hne hdigit hletter =>
        exact .foreign hlayout hsingle hpair hne hdigit hletter
  · exact longest_of_ends h.spells (Kind.ends_of_layout hkind h.spells (by rintro c ⟨rfl⟩; rfl))

/-- Marks that are the longest can be followed by a newline and others, unless one of them is a
string without an end. -/
theorem AllLongest.before_newline {marks others : List Mark} (h : AllLongest marks)
    (hclosed : ∀ kind literal, .word kind literal ∈ marks → ¬ kind.Unclosed literal)
    (hothers : AllLongest others) : AllLongest (marks ++ .gap '\n' :: others) := by
  induction marks with
  | nil => exact ⟨rfl, hothers⟩
  | cons mark marks ih =>
      obtain ⟨hmark, hmarks⟩ := h
      refine ⟨?_, ih hmarks fun kind literal hmem => hclosed kind literal (.tail _ hmem)⟩
      show mark.Longest (textOf (marks ++ .gap '\n' :: others))
      rw [textOf_append]
      cases htext : textOf marks with
      | nil =>
          rw [htext] at hmark
          cases mark with
          | gap c => exact hmark
          | word kind literal =>
              exact Kind.Longest.before_newline hmark (hclosed kind literal List.mem_cons_self) _
      | cons c text =>
          rw [htext] at hmark
          exact hmark.congr rfl

/-! ### The tokens of both texts -/

/-- All tokens of a stream, the end token behind them. -/
def TokenStream.all (stream : TokenStream) : List Token :=
  stream.tokens ++ [stream.eof]

theorem all_tokenize {source : String} {marks : List Mark} (h : AllLongest marks)
    (htext : source.toList = textOf marks) : (tokenize source).all =
      lay .start marks ++ [⟨.eof, "", Place.start.after (textOf marks)⟩] := by
  have hcursor : (Cursor.ofText source).rest = textOf marks := htext
  rw [tokenize, tokenize_of_allLongest h hcursor]
  rfl

/-- The marks of a text, and its tokens. -/
theorem exists_marks_tokens (source : String) : ∃ marks, source.toList = textOf marks ∧
    AllLongest marks ∧ (tokenize source).tokens = lay .start marks := by
  obtain ⟨marks, htext, htokens, hlongest⟩ := (Cursor.ofText source).exists_marks
  exact ⟨marks, htext.symm, hlongest, congrArg TokenStream.tokens htokens⟩

/-- Without strings that have no end, a newline keeps the tokens of both texts apart. -/
theorem all_tokenize_newline {first second : String}
    (h : ∀ token ∈ (tokenize first).tokens, ¬ token.Unclosed) :
    (tokenize (first ++ "\n" ++ second)).all = (tokenize first).tokens ++
      (tokenize second).all.map (Token.below (1 + first.toList.count '\n')) := by
  obtain ⟨marks, htext, hlongest, htokens⟩ := exists_marks_tokens first
  obtain ⟨marks', htext', hlongest', _⟩ := exists_marks_tokens second
  have hclosed : ∀ kind literal, .word kind literal ∈ marks → ¬ kind.Unclosed literal := by
    intro kind literal hmem
    obtain ⟨place, htoken⟩ := exists_mem_lay hmem .start
    exact h _ (htokens ▸ htoken)
  have hjoined : (first ++ "\n" ++ second).toList = textOf (marks ++ .gap '\n' :: marks') := by
    simp [htext, htext', Mark.text]
  have hplace : (Place.start.after (textOf marks)).next '\n' =
      Place.start.below (1 + first.toList.count '\n') := by
    rw [htext, ← Place.after_newline, Place.after_append]
    rfl
  have hlast : Place.start.after (textOf (marks ++ .gap '\n' :: marks')) =
      (Place.start.after (textOf marks')).below (1 + first.toList.count '\n') := by
    rw [textOf_append, textOf_cons, Place.after_append, ← Place.after_below, ← hplace]
    rfl
  rw [all_tokenize (hlongest.before_newline hclosed hlongest') hjoined,
    all_tokenize hlongest' htext', htokens, hlast, lay_append, lay, hplace, lay_below, List.map_append, List.append_assoc]
  rfl

/-- What is read first of a text that goes on behind the literal of a string without an end is not
its token. -/
theorem lay_ne_unclosed {kind : Kind} {literal : String} (h : kind.Unclosed literal)
    {marks : List Mark} (hlongest : AllLongest marks) {rest : List Char} (hrest : rest ≠ [])
    (htext : textOf marks = literal.toList ++ rest) (place : Place) (others others' : List Token) :
    lay place marks ++ others ≠ ⟨kind, literal, place⟩ :: others' := by
  intro heq
  obtain ⟨body, hbody⟩ := List.head?_eq_some_iff.mp h.2
  cases marks with
  | nil =>
      rw [hbody] at htext
      cases htext
  | cons mark marks =>
      obtain ⟨hmark, _⟩ := hlongest
      cases mark with
      | gap c =>
          rw [hbody] at htext
          obtain rfl : c = '"' := (List.cons.inj htext).1
          cases hmark
      | word kind' literal' =>
          obtain ⟨hfirst, _⟩ := List.cons.inj heq
          obtain ⟨rfl, rfl, -⟩ := Token.mk.inj hfirst
          rw [textOf_cons, h.text_eq, List.append_cancel_left_eq] at htext
          exact hrest (htext.symm.trans (h.following_eq_nil hmark))

/-- A string without an end goes on over the newline behind it, and its token is not read then. -/
theorem not_prefix_tokenize_newline {first second : String} {token : Token}
    (hmem : token ∈ (tokenize first).tokens) (h : token.Unclosed) (others : List Token) :
    (tokenize (first ++ "\n" ++ second)).all ≠ (tokenize first).tokens ++ others := by
  obtain ⟨marks, htext, hlongest, htokens⟩ := exists_marks_tokens first
  obtain ⟨kind, literal, place⟩ := token
  obtain ⟨before, behind, rfl⟩ := List.append_of_mem (word_mem_of_mem_lay (htokens ▸ hmem))
  have h : kind.Unclosed literal := h
  have hnil : textOf behind = [] := h.following_eq_nil hlongest.right.1
  -- The text from the string on is read anew, with the newline and the second text behind it.
  let cursor : Cursor := ⟨literal.toList ++ '\n' :: second.toList, 0, .start⟩
  obtain ⟨marks', htext', _, hlongest'⟩ := cursor.exists_marks
  have hhead : (textOf (.word kind literal :: behind)).head? = (textOf marks').head? := by
    rw [textOf_cons, h.text_eq, htext', List.head?_append, List.head?_append, h.2]
    rfl
  have hjoined : (first ++ "\n" ++ second).toList = textOf (before ++ marks') := by
    simp [htext, htext', h.text_eq, hnil, cursor]
  rw [all_tokenize (hlongest.exchange hlongest' hhead) hjoined, htokens, lay_append, lay_append,
    List.append_assoc, List.append_assoc, Ne, List.append_cancel_left_eq]
  exact lay_ne_unclosed h hlongest' (List.cons_ne_nil _ _) htext' _ _ _

/-- Lexing splits at a newline exactly outside of strings.  Two texts with a newline between them
have the tokens of the first one and then, the end token included, those of the second one: of the
same kinds and literals, in the same columns, and as many lines further down as the first text and
the newline have newlines.  That is so just if the first text ends in no string without an end. -/
theorem tokenize_splits_iff (first second : String) :
    (tokenize (first ++ "\n" ++ second)).all = (tokenize first).tokens ++
        (tokenize second).all.map (Token.below (1 + first.toList.count '\n')) ↔
      ∀ token ∈ (tokenize first).tokens, ¬ token.Unclosed :=
  ⟨fun h _ hmem hunclosed => not_prefix_tokenize_newline hmem hunclosed _ h, all_tokenize_newline⟩

example : (tokenize ("x =" ++ "\n" ++ "= \"y")).all =
    [⟨.ident, "x", ⟨1, 1⟩⟩, ⟨.assign, "=", ⟨1, 3⟩⟩, ⟨.assign, "=", ⟨2, 1⟩⟩,
      ⟨.illegal, "\"y", ⟨2, 3⟩⟩, ⟨.eof, "", ⟨2, 5⟩⟩] := by decide +kernel

end Monkey
