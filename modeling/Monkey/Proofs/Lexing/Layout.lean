/-
Text laid out in marks.  A mark is a character between tokens or a token to be; where no mark
runs into the text after it, the lexer gives the tokens back, each at the place where its mark
stands.
-/
import Monkey.Proofs.Lexing.Spelling

namespace Monkey

inductive Mark where
  /-- A character between tokens. -/
  | gap (c : Char)
  /-- A token to be. -/
  | word (kind : Kind) (literal : String)

/-- The text of a mark; a string is written with its quotes. -/
def Mark.text : Mark → List Char
  | .gap c => [c]
  | .word .string literal => '"' :: literal.toList ++ ['"']
  | .word _ literal => literal.toList

theorem Mark.text_word {kind : Kind} (h : kind ≠ .string) (literal : String) :
    (Mark.word kind literal).text = literal.toList := by
  cases kind <;> first | rfl | exact absurd rfl h

def textOf (marks : List Mark) : List Char :=
  marks.flatMap Mark.text

@[simp] theorem textOf_nil : textOf [] = [] := rfl

@[simp] theorem textOf_cons (mark : Mark) (marks : List Mark) :
    textOf (mark :: marks) = mark.text ++ textOf marks := rfl

@[simp] theorem textOf_append (first second : List Mark) :
    textOf (first ++ second) = textOf first ++ textOf second := by
  simp [textOf]

/-- The tokens of the marks when the text starts at a place. -/
def lay (place : Place) : List Mark → List Token
  | [] => []
  | .gap c :: marks => lay (place.next c) marks
  | .word kind literal :: marks =>
      ⟨kind, literal, place⟩ :: lay (place.after (Mark.word kind literal).text) marks

theorem lay_append (place : Place) (first second : List Mark) :
    lay place (first ++ second) =
      lay place first ++ lay (place.after (textOf first)) second := by
  induction first generalizing place with
  | nil => rfl
  | cons mark first ih =>
      cases mark with
      | gap c =>
          rw [List.cons_append, lay, lay, ih, textOf_cons, Place.after_append]
          rfl
      | word kind literal =>
          rw [List.cons_append, lay, lay, ih, textOf_cons, Place.after_append, List.cons_append]

/-! ### Lines -/

theorem Place.line_le_after (place : Place) (text : List Char) :
    place.line ≤ (place.after text).line := by
  induction text generalizing place with
  | nil => exact Int.le_refl _
  | cons c text ih =>
      rw [Place.after_cons]
      refine Int.le_trans ?_ (ih (place.next c))
      unfold Place.next
      split
      · simp only
        omega
      · exact Int.le_refl _

/-- Only a newline starts a line. -/
theorem Place.line_after_eq (place : Place) {text : List Char} (h : '\n' ∉ text) :
    (place.after text).line = place.line := by
  induction text generalizing place with
  | nil => rfl
  | cons c text ih =>
      rw [List.mem_cons, not_or] at h
      rw [Place.after_cons, ih (place.next c) h.2, Place.next, if_neg (Ne.symm h.1)]

theorem Place.line_lt_after (place : Place) {text : List Char} (h : '\n' ∈ text) :
    place.line < (place.after text).line := by
  obtain ⟨front, rest, rfl⟩ := List.append_of_mem h
  rw [Place.after_append, Place.after_cons]
  refine Int.lt_of_lt_of_le ?_ (Place.line_le_after _ rest)
  have hfront := place.line_le_after front
  simp only [Place.next, if_true]
  omega

/-- Tokens stand on the lines of their text. -/
theorem line_of_mem_lay {place : Place} {marks : List Mark} {token : Token}
    (h : token ∈ lay place marks) :
    place.line ≤ token.place.line ∧ token.place.line ≤ (place.after (textOf marks)).line := by
  induction marks generalizing place with
  | nil => cases h
  | cons mark marks ih =>
      rw [textOf_cons, Place.after_append]
      cases mark with
      | gap c =>
          obtain ⟨hlow, hhigh⟩ := ih h
          exact ⟨Int.le_trans (place.line_le_after [c]) hlow, hhigh⟩
      | word kind literal =>
          rcases List.mem_cons.mp h with rfl | hrest
          · refine ⟨Int.le_refl _, ?_⟩
            exact Int.le_trans (Place.line_le_after _ _) (Place.line_le_after _ _)
          · obtain ⟨hlow, hhigh⟩ := ih hrest
            exact ⟨Int.le_trans (Place.line_le_after _ _) hlow, hhigh⟩

/-- A token of the kind ends where the text begins, and does not run into it. -/
def Kind.Ends (kind : Kind) (following : List Char) : Prop :=
  match kind with
  | .string => True
  | .int => ∀ c ∈ following.head?, isDigit c = false
  | .ident | .letWord | .returnWord | .fnWord | .ifWord | .elseWord | .trueWord | .falseWord =>
      ∀ c ∈ following.head?, isLetter c = false
  | .assign | .bang => following.head? ≠ some '='
  | .illegal | .eof => False
  | _ => True

instance decidableNoneFound (p : Char → Bool) :
    (found : Option Char) → Decidable (∀ c ∈ found, p c = false)
  | none => .isTrue (by simp)
  | some c => decidable_of_iff (p c = false) (by simp)

instance (kind : Kind) (following : List Char) : Decidable (kind.Ends following) := by
  cases kind <;> unfold Kind.Ends <;> infer_instance

/-- The mark can be read off in front of a text. -/
def Mark.Stands (mark : Mark) (following : List Char) : Prop :=
  match mark with
  | .gap c => isLayout c = true
  | .word kind literal => kind.Spells literal ∧ kind.Ends following

instance (mark : Mark) (following : List Char) : Decidable (mark.Stands following) := by
  cases mark <;> unfold Mark.Stands <;> infer_instance

/-- The marks can be read off one by one in front of a text. -/
def Legible : List Mark → List Char → Prop
  | [], _ => True
  | mark :: marks, following =>
      mark.Stands (textOf marks ++ following) ∧ Legible marks following

instance decidableLegible : (marks : List Mark) → (following : List Char) →
    Decidable (Legible marks following)
  | [], _ => .isTrue trivial
  | mark :: marks, following =>
      have := decidableLegible marks following
      inferInstanceAs (Decidable (mark.Stands (textOf marks ++ following) ∧ _))

theorem legible_append {first second : List Mark} {following : List Char} :
    Legible (first ++ second) following ↔
      Legible first (textOf second ++ following) ∧ Legible second following := by
  induction first with
  | nil => simp [Legible]
  | cons mark first ih =>
      simp only [List.cons_append, Legible, ih, textOf_append, List.append_assoc]
      rw [and_assoc]

/-! ### Characters -/

theorem isDigit_iff (c : Char) : isDigit c = true ↔ 48 ≤ c.toNat ∧ c.toNat ≤ 57 := by
  simp only [isDigit, Char.isDigit, ge_iff_le, Bool.and_eq_true, decide_eq_true_eq]
  exact Iff.rfl

theorem isLetter_of_isDigit {c : Char} (h : isDigit c = true) : isLetter c = false := by
  obtain ⟨hlow, hhigh⟩ := (isDigit_iff c).mp h
  have hunderscore : c ≠ '_' := by
    rintro rfl
    exact absurd hhigh (by decide)
  rw [isLetter_of_ascii (by omega), beq_false_of_ne hunderscore, Bool.or_false]
  have hupper : ¬ (65 : UInt32) ≤ c.val := by
    intro hle
    have : 65 ≤ c.toNat := hle
    omega
  have hlower : ¬ (97 : UInt32) ≤ c.val := by
    intro hle
    have : 97 ≤ c.toNat := hle
    omega
  have hisUpper : c.isUpper = false := decide_eq_false fun h => hupper h.1
  have hisLower : c.isLower = false := by
    show (decide (97 ≤ c.val) && decide (c.val ≤ 122)) = false
    rw [decide_eq_false hlower, Bool.false_and]
  show (c.isUpper || c.isLower) = false
  rw [hisUpper, hisLower, Bool.or_false]

/-- No digit, letter or quote makes a token of its own. -/
theorem singleKind?_eq_none {c : Char} (h : isDigit c = true ∨ isLetter c = true ∨ c = '"') :
    singleKind? c = none ∧ pairRule? c = none := by
  constructor
  · unfold singleKind?
    split <;> first | rfl | (exfalso; revert h; decide)
  · unfold pairRule?
    split <;> first | rfl | (exfalso; revert h; decide)

theorem isLayout_eq_false {c : Char}
    (h : isDigit c = true ∨ isLetter c = true ∨ c = '"' ∨ (singleKind? c).isSome ∨
      (pairRule? c).isSome) : isLayout c = false := by
  cases hlayout : isLayout c with
  | false => rfl
  | true =>
  exfalso
  have hcases : ((c = ' ' ∨ c = '\t') ∨ c = '\n') ∨ c = '\r' := by
    simpa [isLayout] using hlayout
  rcases hcases with ((rfl | rfl) | rfl) | rfl <;> revert h <;> decide

/-- A fixed spelling is one character, a word, or one of the few that look at two characters. -/
theorem Kind.spelling?_cases {kind : Kind} {literal : String}
    (h : kind.spelling? = some literal) :
    (∃ c, literal.toList = [c] ∧ singleKind? c = some kind) ∨
      (literal.toList ≠ [] ∧ (∀ c ∈ literal.toList, isLetter c = true) ∧
        Kind.ofWord literal = kind) ∨
      kind ∈ [.assign, .bang, .eq, .notEq, .or, .and] := by
  cases kind <;> cases h <;> first
    | exact Or.inr (Or.inr (by decide))
    | exact Or.inr (Or.inl (by decide))
    | exact Or.inl ⟨_, rfl, rfl⟩

namespace Cursor

theorem pass_advance (cursor : Cursor) (count : Nat) :
    (cursor.pass count).advance = cursor.pass (count + 1) := by
  induction count generalizing cursor with
  | zero => rfl
  | succ count ih => exact ih cursor.advance

theorem span_eq {cursor : Cursor} {p : Char → Bool} {run following : List Char}
    (h : cursor.rest = run ++ following) (hrun : ∀ c ∈ run, p c = true)
    (hfollowing : ∀ c ∈ following.head?, p c = false) :
    cursor.span p = (run, cursor.pass run.length) := by
  have htake : cursor.rest.takeWhile p = run := by
    rw [h, List.takeWhile_append_of_pos hrun]
    cases following with
    | nil => simp
    | cons c following => simp [hfollowing c rfl]
  simp only [span, htake]

/-- The token is read off its own text, which starts with no layout. -/
def Takes (cursor : Cursor) (kind : Kind) (literal : String) : Prop :=
  ∃ c ∈ (Mark.word kind literal).text.head?, isLayout c = false ∧
    cursor.readToken c =
      (⟨kind, literal, cursor.place⟩, cursor.pass (Mark.word kind literal).text.length)

variable {cursor : Cursor} {following : List Char} {kind : Kind} {literal : String}

theorem takes_single {c : Char} (h : singleKind? c = some kind)
    (hliteral : literal.toList = [c]) : cursor.Takes kind literal := by
  have hkind : kind ≠ .string := by
    rintro rfl
    unfold singleKind? at h
    split at h <;> cases h
  have hpair : pairRule? c = none := by
    unfold singleKind? at h
    split at h <;> first | rfl | cases h
  rw [Takes, Mark.text_word hkind, hliteral]
  refine ⟨c, rfl, isLayout_eq_false (by simp [h]), ?_⟩
  have hofList : literal = String.ofList [c] := by rw [← hliteral, String.ofList_toList]
  simp only [readToken, hpair, h, hofList]
  rfl

theorem takes_pair {c second : Char} {alone : Kind}
    (h : pairRule? c = some ⟨second, kind, alone⟩) (hkind : kind ≠ .string)
    (hliteral : literal.toList = [c, second]) (hrest : cursor.rest = literal.toList ++ following) :
    cursor.Takes kind literal := by
  rw [Takes, Mark.text_word hkind, hliteral]
  refine ⟨c, rfl, isLayout_eq_false (by simp [h]), ?_⟩
  have hofList : literal = String.ofList [c, second] := by rw [← hliteral, String.ofList_toList]
  rw [hliteral] at hrest
  simp [readToken, h, peek?, hrest, hofList]

theorem takes_alone {c second : Char} {pair : Kind}
    (h : pairRule? c = some ⟨second, pair, kind⟩) (hkind : kind ≠ .string)
    (hliteral : literal.toList = [c]) (hrest : cursor.rest = literal.toList ++ following)
    (hends : following.head? ≠ some second) : cursor.Takes kind literal := by
  rw [Takes, Mark.text_word hkind, hliteral]
  refine ⟨c, rfl, isLayout_eq_false (by simp [h]), ?_⟩
  have hofList : literal = String.ofList [c] := by rw [← hliteral, String.ofList_toList]
  rw [hliteral] at hrest
  simp only [readToken, h, peek?, hrest, List.cons_append, List.nil_append, List.tail_cons,
    hends, if_false, hofList]
  rfl

theorem takes_string (hquote : '"' ∉ literal.toList)
    (hrest : cursor.rest = '"' :: literal.toList ++ '"' :: following) :
    cursor.Takes .string literal := by
  have hadvance : cursor.advance.rest = literal.toList ++ '"' :: following := by
    rw [rest_advance, hrest]
    rfl
  have hspan : cursor.advance.span (· != '"') =
      (literal.toList, cursor.advance.pass literal.toList.length) := by
    apply span_eq hadvance
    · intro c hc
      have hne : c ≠ '"' := fun heq => hquote (heq ▸ hc)
      simpa using hne
    · simp
  have hafter : (cursor.advance.pass literal.toList.length).rest = '"' :: following := by
    rw [rest_pass, hadvance, List.drop_left]
  have hstring : cursor.readString =
      (.string, literal, cursor.pass (literal.toList.length + 2)) := by
    simp only [readString, hspan, hafter, String.ofList_toList, pass_advance]
    rfl
  obtain ⟨hsingle, hpair⟩ := singleKind?_eq_none (Or.inr (Or.inr (rfl : '"' = '"')))
  refine ⟨'"', rfl, rfl, ?_⟩
  simp only [readToken, hpair, hsingle, if_true, hstring]
  simp [Mark.text]

theorem takes_digits (hne : literal.toList ≠ [])
    (hdigits : ∀ c ∈ literal.toList, isDigit c = true)
    (hrest : cursor.rest = literal.toList ++ following)
    (hends : ∀ c ∈ following.head?, isDigit c = false) : cursor.Takes .int literal := by
  obtain ⟨c, rest, hcons⟩ := List.exists_cons_of_ne_nil hne
  have hdigit : isDigit c = true := hdigits c (by simp [hcons])
  obtain ⟨hsingle, hpair⟩ := singleKind?_eq_none (Or.inl hdigit)
  have hquote : c ≠ '"' := by
    rintro rfl
    exact absurd hdigit (by decide)
  refine ⟨c, by simp [Mark.text, hcons], isLayout_eq_false (Or.inl hdigit), ?_⟩
  simp only [readToken, hpair, hsingle, hquote, if_false, hdigit, if_true,
    span_eq hrest hdigits hends, String.ofList_toList]
  rfl

theorem takes_letters (hne : literal.toList ≠ [])
    (hletters : ∀ c ∈ literal.toList, isLetter c = true) (hkind : Kind.ofWord literal = kind)
    (hrest : cursor.rest = literal.toList ++ following)
    (hends : ∀ c ∈ following.head?, isLetter c = false) : cursor.Takes kind literal := by
  obtain ⟨c, rest, hcons⟩ := List.exists_cons_of_ne_nil hne
  have hletter : isLetter c = true := hletters c (by simp [hcons])
  obtain ⟨hsingle, hpair⟩ := singleKind?_eq_none (Or.inr (Or.inl hletter))
  have hquote : c ≠ '"' := by
    rintro rfl
    exact absurd hletter (by decide)
  have hdigit : isDigit c = false := by
    cases h : isDigit c with
    | false => rfl
    | true => exact absurd hletter (by simp [isLetter_of_isDigit h])
  have hstring : kind ≠ .string := hkind ▸ Kind.ofWord_ne_string literal
  rw [Takes, Mark.text_word hstring]
  refine ⟨c, by simp [hcons], isLayout_eq_false (Or.inr (Or.inl hletter)), ?_⟩
  simp only [readToken, hpair, hsingle, hquote, if_false, hdigit, Bool.false_eq_true, hletter,
    if_true, span_eq hrest hletters hends, String.ofList_toList, hkind]

theorem ends_letter (hletters : ∀ c ∈ literal.toList, isLetter c = true)
    (hkind : kind.spelling? = some literal) (h : kind.Ends following) :
    ∀ c ∈ following.head?, isLetter c = false := by
  cases kind <;> cases hkind <;> first | exact h | exact absurd hletters (by decide)

theorem ends_of_letters (hletters : ∀ c ∈ literal.toList, isLetter c = true)
    (hkind : kind.spelling? = some literal) (hends : ∀ c ∈ following.head?, isLetter c = false) :
    kind.Ends following := by
  cases kind <;> cases hkind <;> first | exact hends | exact absurd hletters (by decide)

/-- In front of a text that it does not run into, a token is read off its own text. -/
theorem takes_word (hspells : kind.Spells literal) (hends : kind.Ends following)
    (hrest : cursor.rest = (Mark.word kind literal).text ++ following) :
    cursor.Takes kind literal := by
  cases hfixed : kind.spelling? with
  | some spelling =>
      obtain rfl := Kind.eq_of_spells hfixed hspells
      have hstring : kind ≠ .string := by
        rintro rfl
        cases hfixed
      rw [Mark.text_word hstring] at hrest
      rcases Kind.spelling?_cases hfixed with
        ⟨c, hliteral, hsingle⟩ | ⟨hne, hletters, hkind⟩ | hspecial
      · exact takes_single hsingle hliteral
      · exact takes_letters hne hletters hkind hrest (ends_letter hletters hfixed hends)
      · cases kind with
        | assign => cases hfixed; exact takes_alone rfl hstring rfl hrest hends
        | bang => cases hfixed; exact takes_alone rfl hstring rfl hrest hends
        | eq | notEq | or | and => cases hfixed; exact takes_pair rfl hstring rfl hrest
        | _ => exact absurd hspecial (by decide)
  | none =>
      cases kind with
      | int => exact takes_digits hspells.1 hspells.2 hrest hends
      | ident => exact takes_letters hspells.1 hspells.2.1 hspells.2.2 hrest hends
      | string =>
          have hquoted : cursor.rest = '"' :: literal.toList ++ '"' :: following := by
            simpa [Mark.text] using hrest
          exact takes_string hspells hquoted
      | illegal | eof => exact absurd hends id
      | _ => cases hfixed

theorem skipLayout_of_layout {c : Char} {rest : List Char} (h : cursor.rest = c :: rest)
    (hc : isLayout c = true) : cursor.skipLayout = cursor.advance.skipLayout := by
  simp [skipLayout, span, rest_advance, h, hc, pass]

theorem skipLayout_of_not_layout {c : Char} (h : cursor.rest.head? = some c)
    (hc : isLayout c = false) : cursor.skipLayout = cursor := by
  cases hrest : cursor.rest with
  | nil => simp [hrest] at h
  | cons first rest =>
      obtain rfl : first = c := by simpa [hrest] using h
      simp [skipLayout, span, hrest, hc, pass]

theorem tokenize_eq (cursor : Cursor) :
    cursor.tokenize =
      match cursor.skipLayout.rest with
      | [] => ⟨[], cursor.skipLayout.place⟩
      | c :: _ =>
          let read := cursor.skipLayout.readToken c
          ⟨read.1 :: read.2.tokenize.tokens, read.2.tokenize.finish⟩ := by
  rw [tokenize]
  split
  · next h => simp only [h]
  · next h => simp only [h]

theorem tokenize_nil (h : cursor.rest = []) : cursor.tokenize = ⟨[], cursor.place⟩ := by
  have hskip : cursor.skipLayout = cursor := by simp [skipLayout, span, h, pass]
  rw [tokenize_eq, hskip, h]

theorem tokenize_of_layout {c : Char} {rest : List Char} (h : cursor.rest = c :: rest)
    (hc : isLayout c = true) : cursor.tokenize = cursor.advance.tokenize := by
  rw [tokenize_eq, tokenize_eq cursor.advance, skipLayout_of_layout h hc]

theorem tokenize_of_takes (htakes : cursor.Takes kind literal)
    (hrest : cursor.rest = (Mark.word kind literal).text ++ following) :
    cursor.tokenize =
      ⟨⟨kind, literal, cursor.place⟩ ::
          (cursor.pass (Mark.word kind literal).text.length).tokenize.tokens,
        (cursor.pass (Mark.word kind literal).text.length).tokenize.finish⟩ := by
  obtain ⟨c, hc, hlayout, hread⟩ := htakes
  obtain ⟨rest, htext⟩ : ∃ rest, (Mark.word kind literal).text = c :: rest :=
    List.head?_eq_some_iff.mp hc
  have hcons : cursor.rest = c :: (rest ++ following) := by rw [hrest, htext, List.cons_append]
  have hskip := skipLayout_of_not_layout (by rw [hcons]; rfl) hlayout
  rw [tokenize_eq, hskip, hcons]
  simp only [hread]

end Cursor

/-- Legible marks are read back token by token. -/
theorem tokenize_of_legible {marks : List Mark} (hlegible : Legible marks []) {cursor : Cursor}
    (hrest : cursor.rest = textOf marks) :
    cursor.tokenize = ⟨lay cursor.place marks, cursor.place.after (textOf marks)⟩ := by
  induction marks generalizing cursor with
  | nil => exact Cursor.tokenize_nil hrest
  | cons mark marks ih =>
      obtain ⟨hstands, hmarks⟩ := hlegible
      cases mark with
      | gap c =>
          have hadvance : cursor.advance.rest = textOf marks := by
            rw [Cursor.rest_advance, hrest]
            rfl
          have hplace : cursor.advance.place = cursor.place.next c := by
            simp [Cursor.advance, hrest, Mark.text]
          rw [Cursor.tokenize_of_layout hrest hstands, ih hmarks hadvance, hplace]
          rfl
      | word kind literal =>
          obtain ⟨hspells, hends⟩ := hstands
          rw [List.append_nil] at hends
          have htakes := Cursor.takes_word hspells hends hrest
          have hpass : (cursor.pass (Mark.word kind literal).text.length).rest =
              textOf marks := by
            rw [Cursor.rest_pass, hrest, textOf_cons, List.drop_left]
          have hplace : (cursor.pass (Mark.word kind literal).text.length).place =
              cursor.place.after (Mark.word kind literal).text := by
            rw [Cursor.place_pass _ (by simp [hrest]), hrest, textOf_cons, List.take_left]
          rw [Cursor.tokenize_of_takes htakes hrest, ih hmarks hpass, hplace, lay, textOf_cons,
            Place.after_append]

end Monkey
