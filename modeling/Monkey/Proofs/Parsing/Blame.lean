/-
The first diagnostic stands at the earliest possible place.  Up to the token that it is about a
text has no mistake in it yet: some other text behind that part of it makes a program.
-/
import Monkey.Proofs.Lexing.Longest
import Monkey.Proofs.Parsing.Integers
import Monkey.Proofs.Parsing.Viable

namespace Monkey

/-! ### The front of a text -/

/-- Marks at the front of a text are read off as well when the text goes on with what no legal
token runs into. -/
theorem legible_of_allLongest {place : Place} {front back : List Mark} {following : List Char}
    (h : AllLongest (front ++ back))
    (hlegal : ∀ token ∈ lay place front, token.kind ≠ .illegal)
    (hfollowing : ∀ (kind : Kind) literal, kind ≠ .illegal → kind.Spells literal →
      kind.Ends following) :
    Legible front following := by
  induction front generalizing place with
  | nil => trivial
  | cons mark front ih =>
      obtain ⟨hmark, hfront⟩ := h
      cases mark with
      | gap c => exact ⟨hmark, ih hfront hlegal⟩
      | word kind literal =>
          obtain ⟨hkind, hrest⟩ := List.forall_mem_cons.mp hlegal
          refine ⟨⟨hmark.spells, ?_⟩, ih hfront hrest⟩
          cases front with
          | nil => exact hfollowing kind literal hkind hmark.spells
          | cons second front =>
              -- the character behind the mark is still the first one of the next mark
              obtain ⟨c, rest, hsecond⟩ := List.exists_cons_of_ne_nil hfront.1.text_ne_nil
              refine (Kind.ends_congr ?_).mp (Kind.ends_of_longest hmark hkind)
              simp [hsecond]

/-- Where the tokens of a text are cut in two, so are its marks. -/
theorem lay_eq_append {place : Place} {marks : List Mark} {passed rest : List Token}
    (h : lay place marks = passed ++ rest) : ∃ front back, marks = front ++ back ∧
      lay place front = passed ∧ (rest = [] → back = []) ∧
      ∀ token ∈ rest.head?, token.place = place.after (textOf front) ∧
        (Mark.word token.kind token.literal).text <+: textOf back := by
  induction marks generalizing place passed with
  | nil =>
      obtain ⟨rfl, rfl⟩ := List.append_eq_nil_iff.mp h.symm
      exact ⟨[], [], rfl, rfl, fun _ => rfl, by simp⟩
  | cons mark marks ih =>
      cases mark with
      | gap c =>
          obtain ⟨front, back, rfl, hfront, hback⟩ := ih h
          exact ⟨.gap c :: front, back, rfl, hfront, hback⟩
      | word kind literal =>
          cases passed with
          | nil =>
              rw [List.nil_append] at h
              subst h
              refine ⟨[], .word kind literal :: marks, rfl, rfl, nofun, ?_⟩
              intro token htoken
              cases htoken
              exact ⟨rfl, List.prefix_append _ _⟩
          | cons token passed =>
              obtain ⟨rfl, hrest⟩ := List.cons.inj h
              obtain ⟨front, back, rfl, rfl, hend, hhead⟩ := ih hrest
              refine ⟨.word kind literal :: front, back, rfl, rfl, hend, ?_⟩
              rw [textOf_cons, Place.after_append]
              exact hhead

/-! ### Offsets -/

theorem Place.column_after (place : Place) {text : List Char} (h : '\n' ∉ text) :
    (place.after text).column = place.column + text.length := by
  induction text generalizing place with
  | nil => simp [Place.after]
  | cons c text ih =>
      rw [List.mem_cons, not_or] at h
      rw [Place.after_cons, ih (place.next c) h.2, Place.next, if_neg (Ne.symm h.1),
        List.length_cons]
      simp only
      omega

/-- Every character moves the place. -/
theorem Place.after_ne (place : Place) {text : List Char} (h : text ≠ []) :
    place.after text ≠ place := by
  intro heq
  by_cases hnewline : '\n' ∈ text
  · have hline := place.line_lt_after hnewline
    rw [heq] at hline
    exact absurd hline (Int.lt_irrefl _)
  · have hcolumn := place.column_after hnewline
    have hpos := List.length_pos_iff.mpr h
    rw [heq] at hcolumn
    omega

theorem eq_of_placeAfter_take {text : List Char} {i j : Nat} (hle : i ≤ j) (hj : j ≤ text.length)
    (h : placeAfter (text.take i) = placeAfter (text.take j)) : i = j := by
  obtain ⟨count, rfl⟩ := Nat.exists_eq_add_of_le hle
  have htake : text.take (i + count) = text.take i ++ (text.drop i).take count := by
    rw [List.take_add]
  by_cases hnil : (text.drop i).take count = []
  · have hlength := congrArg List.length hnil
    simp only [List.length_take, List.length_drop, List.length_nil] at hlength
    omega
  · rw [htake, ← Place.after_placeAfter] at h
    exact absurd h.symm (Place.after_ne _ hnil)

/-- The token starts behind so many characters of the text; the end token starts behind them
all. -/
structure Token.StartsAt (token : Token) (source : String) (offset : Nat) : Prop where
  le : offset ≤ source.toList.length
  place : token.place = placeAfter (source.toList.take offset)
  text : token.kind ≠ .eof →
    (Mark.word token.kind token.literal).text <+: source.toList.drop offset
  finish : token.kind = .eof → offset = source.toList.length

theorem Token.StartsAt.unique {token : Token} {source : String} {i j : Nat}
    (hi : token.StartsAt source i) (hj : token.StartsAt source j) : i = j := by
  have hplace := hi.place.symm.trans hj.place
  rcases Nat.le_total i j with hle | hle
  · exact eq_of_placeAfter_take hle hj.le hplace
  · exact (eq_of_placeAfter_take hle hi.le hplace.symm).symm

/-! ### Filling in -/

/-- A text of the kind. -/
def Kind.filling (kind : Kind) : String :=
  kind.spelling?.getD "x"

/-- Words of certain kinds, a space in front of each. -/
def fillingMarks : List Kind → List Mark
  | [] => []
  | kind :: kinds => .gap ' ' :: .word kind kind.filling :: fillingMarks kinds

theorem head?_fillingMarks (kinds : List Kind) :
    ∀ c ∈ (textOf (fillingMarks kinds)).head?, isLayout c = true := by
  cases kinds with
  | nil => simp [fillingMarks]
  | cons kind kinds =>
      intro c hc
      cases hc
      rfl

theorem legible_fillingMarks {kinds : List Kind} (h : ∀ kind ∈ kinds, kind ∈ Kind.fillers) :
    Legible (fillingMarks kinds) [] := by
  have hspells : ∀ kind ∈ Kind.fillers, kind ≠ .illegal ∧ kind.Spells kind.filling := by
    decide
  induction kinds with
  | nil => trivial
  | cons kind kinds ih =>
      obtain ⟨hkind, hkinds⟩ := List.forall_mem_cons.mp h
      obtain ⟨hlegal, hfilling⟩ := hspells kind hkind
      refine ⟨rfl, ⟨hfilling, ?_⟩, ih hkinds⟩
      rw [List.append_nil]
      exact Kind.ends_of_layout hlegal hfilling (head?_fillingMarks kinds)

theorem kinds_lay_fillingMarks (place : Place) (kinds : List Kind) :
    (lay place (fillingMarks kinds)).map Token.kind = kinds := by
  induction kinds generalizing place with
  | nil => rfl
  | cons kind kinds ih => simp only [fillingMarks, lay, List.map_cons, ih]

/-- If tokens of certain kinds complete the tokens of a front of a text, then that front can be
completed. -/
theorem parses_of_front {front back : List Mark} {kinds : List Kind}
    (hlongest : AllLongest (front ++ back)) (hkinds : ∀ kind ∈ kinds, kind ∈ Kind.fillers)
    (hfilled : ∀ tokens (next : Token), tokens.map Token.kind = kinds → next.kind = .eof →
      ∃ all, DerivesAll all (lay .start front ++ tokens) next) :
    ∃ program, Parses (String.ofList (textOf front ++ textOf (fillingMarks kinds))) program := by
  let marks := front ++ fillingMarks kinds
  let place := Place.start.after (textOf front)
  have hsplit : lay .start marks = lay .start front ++ lay place (fillingMarks kinds) :=
    lay_append _ _ _
  obtain ⟨all, hall⟩ := hfilled (lay place (fillingMarks kinds))
    ⟨.eof, "", Place.start.after (textOf marks)⟩ (kinds_lay_fillingMarks place kinds) rfl
  have hlegal : ∀ token ∈ lay .start front, token.kind ≠ .illegal := fun token htoken =>
    hall.kind_ne_illegal token (List.mem_append_left _ htoken)
  have hlegible : Legible marks [] := by
    refine legible_append.mpr ⟨?_, legible_fillingMarks hkinds⟩
    rw [List.append_nil]
    exact legible_of_allLongest hlongest hlegal fun _ _ hkind hspells =>
      Kind.ends_of_layout hkind hspells (head?_fillingMarks kinds)
  have htokens : tokenize (String.ofList (textOf front ++ textOf (fillingMarks kinds))) =
      ⟨lay .start marks, Place.start.after (textOf marks)⟩ :=
    tokenize_of_legible hlegible (by simp [Cursor.ofText, marks])
  refine ⟨.program all, parses_iff.mpr ⟨all, rfl, ?_⟩⟩
  rw [htokens, hsplit]
  exact hall

open Reading in
/-- The token that the first diagnostic is about starts at one place of the text, and what stands
in front of that place can be completed to a program. -/
theorem completable_up_to_first {source : String} {program : Node} {after : Parser}
    {first : Diagnostic} {others : List Diagnostic} (h : (parse source).Gives program after)
    (hfirst : after.diagnostics = first :: others) :
    ∃ offset, (∀ k, first.token.StartsAt source k ↔ k = offset) ∧
      ∃ suffix completed,
        Parses (String.ofList (source.toList.take offset) ++ suffix) completed := by
  obtain ⟨statements, hread, _⟩ := gives_map.mp h
  have hears : (Parser.ofSource source).Hears first after := by
    refine ⟨others.reverse, ?_⟩
    rw [← List.reverse_inj, ← show after.diagnostics = after.found.reverse from rfl, hfirst]
    simp [Parser.ofSource, Parser.ofStream]
  obtain ⟨passed, kinds, ⟨rest, hpending, htoken⟩, hkinds, hfilled⟩ :=
    Parser.blames_readStatements hread rfl hears
  obtain ⟨marks, htext, htokens, hlongest⟩ := (Cursor.ofText source).exists_marks
  have hlay : lay .start marks = passed ++ rest := by
    rw [← hpending]
    exact (congrArg TokenStream.tokens htokens).symm
  have heof : (Parser.ofSource source).eof = ⟨.eof, "", placeAfter source.toList⟩ := by
    have hfinish := congrArg TokenStream.finish htokens
    rw [show (Cursor.ofText source).place = placeAfter [] from rfl,
      Place.after_placeAfter] at hfinish
    exact congrArg (Token.mk .eof "") hfinish
  obtain ⟨front, back, rfl, rfl, hend, hhead⟩ := lay_eq_append hlay
  have hsource : source.toList = textOf front ++ textOf back := by
    rw [← textOf_append, htext]
    rfl
  have htake : source.toList.take (textOf front).length = textOf front := by
    rw [hsource, List.take_left]
  have hstart : Place.start.after (textOf front) = placeAfter (textOf front) :=
    Place.after_placeAfter [] (textOf front)
  have hstarts : first.token.StartsAt source (textOf front).length := by
    rw [htoken]
    cases rest with
    | nil =>
        have hwhole : source.toList = textOf front := by simpa [hend rfl] using hsource
        rw [List.headD_nil, heof]
        exact ⟨by rw [hwhole], by rw [htake, hwhole], nofun, fun _ => by rw [hwhole]⟩
    | cons token rest =>
        obtain ⟨hplace, hprefix⟩ := hhead token rfl
        rw [List.headD_cons]
        refine ⟨by simp [hsource], by rw [hplace, htake, hstart], fun _ => ?_, fun hkind => ?_⟩
        · rwa [hsource, List.drop_left]
        · have hmem : token ∈ (tokenize source).tokens := by
            show token ∈ (Parser.ofSource source).pending
            rw [hpending]
            simp
          exact absurd hkind (kind_ne_eof_of_mem_tokenize hmem)
  refine ⟨_, fun k => ⟨fun hk => hk.unique hstarts, fun hk => hk ▸ hstarts⟩, ?_⟩
  obtain ⟨completed, hparses⟩ := parses_of_front hlongest hkinds hfilled
  refine ⟨String.ofList (textOf (fillingMarks kinds)), completed, ?_⟩
  rwa [htake, ← String.ofList_append]

/-- The sum in a group lacks its second operand; the first fault found is the sign after it. -/
theorem completable_up_to_sign : ∃ program after first others,
    (parse "let x = (1 + * 2").Gives program after ∧ after.diagnostics = first :: others ∧
      first.token = ⟨.asterisk, "*", ⟨1, 14⟩⟩ ∧
      ∃ offset, (∀ k, first.token.StartsAt "let x = (1 + * 2" k ↔ k = offset) ∧
        ∃ suffix completed,
          Parses (String.ofList ("let x = (1 + * 2".toList.take offset) ++ suffix) completed := by
  have hread : (parse "let x = (1 + * 2").toExcept.toOption.isSome = true := by decide +kernel
  have hhead : (parse "let x = (1 + * 2").after.diagnostics.head?.map Diagnostic.token =
      some ⟨.asterisk, "*", ⟨1, 14⟩⟩ := by decide +kernel
  cases hresult : (parse "let x = (1 + * 2").toExcept with
  | error =>
      rw [hresult] at hread
      cases hread
  | ok program =>
      have hgives := Reading.gives_of_toExcept hresult
      cases hdiagnostics : (parse "let x = (1 + * 2").after.diagnostics with
      | nil =>
          rw [hdiagnostics] at hhead
          cases hhead
      | cons first others =>
          rw [hdiagnostics] at hhead
          exact ⟨program, _, first, others, hgives, hdiagnostics, Option.some.inj hhead,
            completable_up_to_first hgives hdiagnostics⟩

end Monkey
