/-
Lexing loses nothing.  The tokens that are read one after another, each written as it stands in
the text, make up the source text together with the layout between them.  Every token stands at
the place that counting gives, and none could be longer.
-/
import Monkey.Proofs.Lexing.Layout

namespace Monkey

/-! ### Reading to the end of the text -/

/-- The tokens that are read one after another, up to the first end token. -/
inductive Cursor.Yields : Cursor → List Token → Prop where
  | last {cursor : Cursor} (hend : cursor.nextToken.1.kind = .eof) :
      cursor.Yields [cursor.nextToken.1]
  | more {cursor : Cursor} {tokens : List Token} (hmore : cursor.nextToken.1.kind ≠ .eof)
      (hrest : cursor.nextToken.2.Yields tokens) : cursor.Yields (cursor.nextToken.1 :: tokens)

theorem Cursor.Yields.unique {cursor : Cursor} {tokens tokens' : List Token}
    (h : cursor.Yields tokens) (h' : cursor.Yields tokens') : tokens = tokens' := by
  induction h generalizing tokens' with
  | last hend =>
      cases h' with
      | last _ => rfl
      | more hmore _ => exact absurd hend hmore
  | more hmore _ ih =>
      cases h' with
      | last hend => exact absurd hend hmore
      | more _ hrest => rw [ih hrest]

theorem Cursor.yields_tokenize (cursor : Cursor) :
    cursor.Yields (cursor.tokenize.tokens ++ [cursor.tokenize.eof]) := by
  fun_induction Cursor.tokenize cursor with
  | case1 cursor start hstart =>
      have hnext : cursor.nextToken = (⟨.eof, "", start.place⟩, start) := by
        simp only [nextToken, start] at hstart ⊢
        rw [hstart]
      have hlast := @Yields.last cursor (by rw [hnext])
      rw [hnext] at hlast
      exact hlast
  | case2 cursor start c rest hstart _ read stream ih =>
      have hnext : cursor.nextToken = read := by
        simp only [nextToken, start, read] at hstart ⊢
        rw [hstart]
      have hkind : cursor.nextToken.1.kind ≠ .eof := by
        intro hend
        have hspells := Cursor.readToken_spells hstart
        rw [← show cursor.nextToken = start.readToken c from hnext, hend] at hspells
        exact hspells
      have hmore := Yields.more hkind (hnext ▸ ih)
      rw [hnext] at hmore
      exact hmore

/-! ### Places -/

/-- The place after a text, by counting: its newlines, and the characters since the last one. -/
def placeAfter (text : List Char) : Place :=
  ⟨1 + text.count '\n', 1 + (text.reverse.takeWhile (· != '\n')).length⟩

theorem Place.next_placeAfter (passed : List Char) (c : Char) :
    (placeAfter passed).next c = placeAfter (passed ++ [c]) := by
  by_cases hnewline : c = '\n'
  · subst hnewline
    simp [placeAfter, Place.next, Int.add_assoc]
  · have hcount : List.count '\n' [c] = 0 := by simp [hnewline]
    simp [placeAfter, Place.next, hnewline, hcount, Int.add_assoc]

theorem Place.after_placeAfter (passed text : List Char) :
    (placeAfter passed).after text = placeAfter (passed ++ text) := by
  induction text generalizing passed with
  | nil => rw [List.append_nil]; rfl
  | cons c text ih => rw [Place.after_cons, Place.next_placeAfter, ih, List.append_assoc]; rfl

example : placeAfter "ab\nc".toList = ⟨2, 2⟩ := by decide

/-- The tokens of the marks that come after a text, each at its counted place. -/
def tokensAfter (passed : List Char) : List Mark → List Token
  | [] => []
  | .gap c :: marks => tokensAfter (passed ++ [c]) marks
  | .word kind literal :: marks =>
      ⟨kind, literal, placeAfter passed⟩ ::
        tokensAfter (passed ++ (Mark.word kind literal).text) marks

theorem lay_placeAfter (passed : List Char) (marks : List Mark) :
    lay (placeAfter passed) marks = tokensAfter passed marks := by
  induction marks generalizing passed with
  | nil => rfl
  | cons mark marks ih =>
      cases mark with
      | gap c => rw [lay, tokensAfter, Place.next_placeAfter, ih]
      | word kind literal => rw [lay, tokensAfter, Place.after_placeAfter, ih]

/-! ### Longest tokens -/

/-- The kinds of the tokens that are made of letters. -/
def Kind.words : List Kind :=
  [.ident, .letWord, .returnWord, .fnWord, .ifWord, .elseWord, .trueWord, .falseWord]

/-- A text that makes no token: half a pair, a string without an end, or a character that stands
for nothing. -/
inductive Stray : List Char → List Char → Prop where
  | half {c : Char} {following : List Char} (hc : c = '&' ∨ c = '|')
      (halone : following.head? ≠ some c) : Stray [c] following
  | unclosed {body : List Char} (hbody : '"' ∉ body) : Stray ('"' :: body) []
  | foreign {c : Char} {following : List Char} (hlayout : isLayout c = false)
      (hsingle : singleKind? c = none) (hpair : pairRule? c = none) (hquote : c ≠ '"')
      (hdigit : isDigit c = false) (hletter : isLetter c = false) : Stray [c] following

/-- The token is spelled as its kind requires, and what follows it does not belong to it. -/
structure Kind.Longest (kind : Kind) (literal : String) (following : List Char) : Prop where
  nonempty : (Mark.word kind literal).text ≠ []
  spells : kind.Spells literal
  number : kind = .int → ∀ c ∈ following.head?, isDigit c = false
  word : kind ∈ Kind.words → ∀ c ∈ following.head?, isLetter c = false
  letters : kind ∈ Kind.words ↔ kind ≠ .string ∧ ∀ c ∈ literal.toList, isLetter c = true
  keyword : kind ∈ Kind.words → kind = (keywords.lookup literal).getD .ident
  single : kind = .assign ∨ kind = .bang → following.head? ≠ some '='
  stray : kind = .illegal → Stray literal.toList following

def Mark.Longest (mark : Mark) (following : List Char) : Prop :=
  match mark with
  | .gap c => isLayout c = true
  | .word kind literal => kind.Longest literal following

/-- Every mark is the longest in front of the marks behind it. -/
def AllLongest : List Mark → Prop
  | [] => True
  | mark :: marks => mark.Longest (textOf marks) ∧ AllLongest marks

theorem Kind.text_ne_nil {kind : Kind} {literal : String} (hkind : kind ≠ .illegal)
    (hspells : kind.Spells literal) : (Mark.word kind literal).text ≠ [] := by
  cases kind with
  | illegal => exact absurd rfl hkind
  | eof => exact absurd hspells id
  | int | ident => exact hspells.1
  | string => simp [Mark.text]
  | _ =>
      obtain rfl := Option.some.inj hspells
      decide

/-- Names and keywords are the tokens that are made of letters. -/
theorem Kind.mem_words_iff {kind : Kind} {literal : String} (hkind : kind ≠ .illegal)
    (hspells : kind.Spells literal) :
    kind ∈ Kind.words ↔ kind ≠ .string ∧ ∀ c ∈ literal.toList, isLetter c = true := by
  cases kind with
  | illegal => exact absurd rfl hkind
  | eof => exact absurd hspells id
  | string => simp [Kind.words]
  | int =>
      obtain ⟨hne, hdigits⟩ := hspells
      obtain ⟨c, rest, hliteral⟩ := List.exists_cons_of_ne_nil hne
      have hdigit := hdigits c (by simp [hliteral])
      have hnot : ¬ ∀ c ∈ literal.toList, isLetter c = true := fun hletters => by
        have hletter := hletters c (by simp [hliteral])
        rw [isLetter_of_isDigit hdigit] at hletter
        cases hletter
      simp [Kind.words, hnot]
  | ident => simpa [Kind.words] using hspells.2.1
  | _ =>
      obtain rfl := Option.some.inj hspells
      decide

theorem Kind.eq_of_mem_words {kind : Kind} {literal : String} (hspells : kind.Spells literal)
    (hkind : kind ∈ Kind.words) : kind = (keywords.lookup literal).getD .ident := by
  cases kind with
  | ident => exact hspells.2.2.symm
  | letWord | returnWord | fnWord | ifWord | elseWord | trueWord | falseWord =>
      obtain rfl := Option.some.inj hspells
      rfl
  | _ => exact absurd hkind (by decide)

/-- A token that does not run into the text behind it is the longest. -/
theorem longest_of_ends {kind : Kind} {literal : String} {following : List Char}
    (hspells : kind.Spells literal) (hends : kind.Ends following) :
    kind.Longest literal following := by
  have hkind : kind ≠ .illegal := by
    rintro rfl
    exact hends
  refine ⟨Kind.text_ne_nil hkind hspells, hspells, ?_, ?_, Kind.mem_words_iff hkind hspells,
    Kind.eq_of_mem_words hspells, ?_, fun h => absurd h hkind⟩
  · rintro rfl
    exact hends
  · intro hword
    cases kind <;> first | exact hends | exact absurd hword (by decide)
  · rintro (rfl | rfl) <;> exact hends

theorem longest_of_stray {literal : String} {following : List Char}
    (h : Stray literal.toList following) : Kind.Longest .illegal literal following := by
  have hword : Kind.illegal ∉ Kind.words := by decide
  refine ⟨?_, trivial, nofun, fun h => absurd h hword, ?_, fun h => absurd h hword, nofun,
    fun _ => h⟩
  · rw [Mark.text_word (by decide)]
    generalize literal.toList = text at h
    cases h <;> simp
  · refine ⟨fun h => absurd h hword, fun ⟨_, hletters⟩ => ?_⟩
    exfalso
    generalize literal.toList = text at h hletters
    cases h with
    | half hc _ => rcases hc with rfl | rfl <;> revert hletters <;> decide
    | unclosed _ => exact absurd (hletters '"' (by simp)) (by decide)
    | foreign _ _ _ _ _ hletter =>
        have hself := hletters _ List.mem_cons_self
        rw [hletter] at hself
        cases hself

/-! ### One token -/

namespace Cursor

variable {cursor : Cursor} {c : Char} {rest : List Char}

/-- A token is read off the text, and is the longest in front of the rest of it. -/
def ReadsOff (cursor : Cursor) : Prop :=
  ∃ kind literal following, cursor.rest = (Mark.word kind literal).text ++ following ∧
    cursor.Takes kind literal ∧ kind.Longest literal following

theorem readsOff_pair {second : Char} {pair alone : Kind}
    (hrule : pairRule? c = some ⟨second, pair, alone⟩) (h : cursor.rest = c :: rest) :
    cursor.ReadsOff := by
  obtain ⟨hpair, halone⟩ := pairRule?_spells hrule
  have hkinds : (pair = .eq ∨ pair = .notEq ∨ pair = .and ∨ pair = .or) ∧
      (alone = .illegal ∧ (c = '&' ∨ c = '|') ∧ second = c ∨
        (alone = .assign ∨ alone = .bang) ∧ second = '=') := by
    unfold pairRule? at hrule
    split at hrule <;> cases hrule <;> simp
  obtain ⟨hpairs, halones⟩ := hkinds
  by_cases hnext : rest.head? = some second
  · obtain ⟨following, rfl⟩ := List.head?_eq_some_iff.mp hnext
    have hstring : pair ≠ .string := by rcases hpairs with rfl | rfl | rfl | rfl <;> decide
    have hrest : cursor.rest = (String.ofList [c, second]).toList ++ following := by
      rw [h, String.toList_ofList]
      rfl
    refine ⟨pair, String.ofList [c, second], following, ?_, ?_, ?_⟩
    · rw [Mark.text_word hstring, hrest]
    · exact takes_pair hrule hstring String.toList_ofList hrest
    · refine longest_of_ends hpair ?_
      rcases hpairs with rfl | rfl | rfl | rfl <;> trivial
  · have hstring : alone ≠ .string := by
      rcases halones with ⟨rfl, _⟩ | ⟨rfl | rfl, _⟩ <;> decide
    have hrest : cursor.rest = (String.ofList [c]).toList ++ rest := by
      rw [h, String.toList_ofList]
      rfl
    refine ⟨alone, String.ofList [c], rest, ?_, ?_, ?_⟩
    · rw [Mark.text_word hstring, hrest]
    · exact takes_alone hrule hstring String.toList_ofList hrest hnext
    · rcases halones with ⟨rfl, hc, rfl⟩ | ⟨rfl | rfl, rfl⟩
      · apply longest_of_stray
        rw [String.toList_ofList]
        exact .half hc hnext
      · exact longest_of_ends halone hnext
      · exact longest_of_ends halone hnext

theorem readsOff_single {kind : Kind} (hsingle : singleKind? c = some kind)
    (h : cursor.rest = c :: rest) : cursor.ReadsOff := by
  have hkind : kind ≠ .string ∧ kind.Ends rest := by
    unfold singleKind? at hsingle
    split at hsingle <;> cases hsingle <;> exact ⟨by decide, trivial⟩
  refine ⟨kind, String.ofList [c], rest, ?_, ?_, ?_⟩
  · rw [Mark.text_word hkind.1, String.toList_ofList, h]
    rfl
  · exact takes_single hsingle String.toList_ofList
  · exact longest_of_ends (singleKind?_spells hsingle) hkind.2

/-- A text is a run of characters of a class, and what follows it does not go on with it. -/
theorem exists_run (p : Char → Bool) (text : List Char) :
    ∃ run following, text = run ++ following ∧ (∀ c ∈ run, p c = true) ∧
      ∀ c ∈ following.head?, p c = false := by
  refine ⟨text.takeWhile p, text.dropWhile p, List.takeWhile_append_dropWhile.symm, ?_, ?_⟩
  · exact List.all_eq_true.mp List.all_takeWhile
  · intro c hc
    have hnot := List.head?_dropWhile_not p text
    rw [Option.mem_def.mp hc] at hnot
    simpa using hnot

theorem run_ne_nil {p : Char → Bool} (h : cursor.rest = c :: rest) (hc : p c = true)
    {run following : List Char} (hrest : cursor.rest = run ++ following)
    (hends : ∀ c ∈ following.head?, p c = false) : run ≠ [] := by
  rintro rfl
  rw [List.nil_append] at hrest
  have hnot := hends c (by rw [← hrest, h]; rfl)
  rw [hc] at hnot
  cases hnot

/-- A string runs up to the next quote, or else to the end of the text. -/
theorem readsOff_string (h : cursor.rest = '"' :: rest) : cursor.ReadsOff := by
  obtain ⟨body, following, hrest, hbody, hends⟩ := exists_run (· != '"') rest
  have hquote : '"' ∉ body := fun hmem => by simpa using hbody '"' hmem
  cases following with
  | cons c following =>
      obtain rfl : c = '"' := by simpa using hends c rfl
      have htext : cursor.rest =
          '"' :: (String.ofList body).toList ++ '"' :: following := by
        rw [h, hrest, String.toList_ofList, List.cons_append]
      refine ⟨.string, String.ofList body, following, ?_, ?_, ?_⟩
      · rw [htext]
        simp [Mark.text]
      · exact takes_string (by rwa [String.toList_ofList]) htext
      · exact longest_of_ends (by rwa [Kind.Spells, String.toList_ofList]) trivial
  | nil =>
      rw [List.append_nil] at hrest
      subst hrest
      have hadvance : cursor.advance.rest = rest := by rw [rest_advance, h]; rfl
      have hspan : cursor.advance.span (· != '"') = (rest, cursor.advance.pass rest.length) :=
        span_eq (by rw [hadvance, List.append_nil]) hbody hends
      have hend : (cursor.advance.pass rest.length).rest = [] := by
        rw [rest_pass, hadvance, List.drop_length]
      obtain ⟨hsingle, hpair⟩ := singleKind?_eq_none (Or.inr (Or.inr (rfl : '"' = '"')))
      refine ⟨.illegal, String.ofList ('"' :: rest), [], ?_, ⟨'"', ?_, rfl, ?_⟩, ?_⟩
      · rw [Mark.text_word (by decide), String.toList_ofList, List.append_nil, h]
      · rw [Mark.text_word (by decide), String.toList_ofList]
        rfl
      · rw [Mark.text_word (by decide), String.toList_ofList]
        simp only [readToken, hpair, hsingle, if_true, readString, hspan, hend, h]
        rfl
      · apply longest_of_stray
        rw [String.toList_ofList]
        exact .unclosed hquote

theorem readsOff_digits (hdigit : isDigit c = true) (h : cursor.rest = c :: rest) :
    cursor.ReadsOff := by
  obtain ⟨run, following, hrest, hrun, hends⟩ := exists_run isDigit cursor.rest
  have hne := run_ne_nil h hdigit hrest hends
  rw [← String.toList_ofList (l := run)] at hrest hrun hne
  refine ⟨.int, String.ofList run, following, hrest, takes_digits hne hrun hrest hends, ?_⟩
  exact longest_of_ends ⟨hne, hrun⟩ hends

theorem readsOff_letters (hletter : isLetter c = true) (h : cursor.rest = c :: rest) :
    cursor.ReadsOff := by
  obtain ⟨run, following, hrest, hrun, hends⟩ := exists_run isLetter cursor.rest
  have hne := run_ne_nil h hletter hrest hends
  have hspells := Kind.ofWord_spells hne hrun
  rw [← String.toList_ofList (l := run)] at hrest hrun hne
  refine ⟨Kind.ofWord (String.ofList run), String.ofList run, following, ?_,
    takes_letters hne hrun rfl hrest hends, ?_⟩
  · rw [Mark.text_word (Kind.ofWord_ne_string _), hrest]
  · apply longest_of_ends hspells
    rcases Kind.ofWord_cases (String.ofList run) with hident | hkeyword
    · rw [hident]
      exact hends
    · exact ends_of_letters hrun hkeyword hends

theorem readsOff_foreign (hlayout : isLayout c = false) (hsingle : singleKind? c = none)
    (hpair : pairRule? c = none) (hquote : c ≠ '"') (hdigit : isDigit c = false)
    (hletter : isLetter c = false) (h : cursor.rest = c :: rest) : cursor.ReadsOff := by
  refine ⟨.illegal, String.ofList [c], rest, ?_, ⟨c, ?_, hlayout, ?_⟩, ?_⟩
  · rw [Mark.text_word (by decide), String.toList_ofList, h]
    rfl
  · rw [Mark.text_word (by decide), String.toList_ofList]
    rfl
  · rw [Mark.text_word (by decide), String.toList_ofList]
    simp [readToken, hpair, hsingle, hquote, hdigit, hletter, pass]
  · apply longest_of_stray
    rw [String.toList_ofList]
    exact .foreign hlayout hsingle hpair hquote hdigit hletter

theorem readsOff_of_not_layout (h : cursor.rest = c :: rest) (hlayout : isLayout c = false) :
    cursor.ReadsOff := by
  cases hpair : pairRule? c with
  | some rule => exact readsOff_pair hpair h
  | none =>
  cases hsingle : singleKind? c with
  | some kind => exact readsOff_single hsingle h
  | none =>
  by_cases hquote : c = '"'
  · subst hquote
    exact readsOff_string h
  cases hdigit : isDigit c with
  | true => exact readsOff_digits hdigit h
  | false =>
  cases hletter : isLetter c with
  | true => exact readsOff_letters hletter h
  | false => exact readsOff_foreign hlayout hsingle hpair hquote hdigit hletter h

/-- From any cursor on, the text is made up of marks that the lexer reads as they stand. -/
theorem exists_marks (cursor : Cursor) : ∃ marks, textOf marks = cursor.rest ∧
    cursor.tokenize = ⟨lay cursor.place marks, cursor.place.after cursor.rest⟩ ∧
      AllLongest marks := by
  induction hlength : cursor.rest.length using Nat.strongRecOn generalizing cursor with
  | _ length ih =>
  match hrest : cursor.rest with
  | [] => exact ⟨[], rfl, tokenize_nil hrest, trivial⟩
  | c :: rest =>
  cases hlayout : isLayout c with
  | true =>
      have hadvance : cursor.advance.rest = rest := by rw [rest_advance, hrest]; rfl
      have hplace : cursor.advance.place = cursor.place.next c := by simp [advance, hrest]
      obtain ⟨marks, htext, htokens, hlongest⟩ :=
        ih cursor.advance.rest.length (by simp [← hlength, hadvance, hrest]) cursor.advance rfl
      refine ⟨.gap c :: marks, ?_, ?_, hlayout, hlongest⟩
      · rw [textOf_cons, htext, hadvance]
        rfl
      · rw [tokenize_of_layout hrest hlayout, htokens, hplace, hadvance]
        rfl
  | false =>
      obtain ⟨kind, literal, following, hsplit, htakes, hlong⟩ :=
        readsOff_of_not_layout hrest hlayout
      let passed := cursor.pass (Mark.word kind literal).text.length
      have hpassed : passed.rest = following := by
        rw [rest_pass, hsplit, List.drop_left]
      have hplace : passed.place = cursor.place.after (Mark.word kind literal).text := by
        rw [place_pass _ (by simp [hsplit]), hsplit, List.take_left]
      have hshorter : passed.rest.length < length := by
        have hpos := List.length_pos_iff.mpr hlong.nonempty
        rw [← hlength, hpassed, hsplit, List.length_append]
        omega
      obtain ⟨marks, htext, htokens, hlongest⟩ := ih passed.rest.length hshorter passed rfl
      rw [hpassed] at htext htokens
      refine ⟨.word kind literal :: marks, ?_, ?_, by rwa [Mark.Longest, htext], hlongest⟩
      · rw [textOf_cons, htext, ← hrest, hsplit]
      · rw [tokenize_of_takes htakes hsplit, htokens, hplace, ← hrest, hsplit,
          Place.after_append]
        rfl

end Cursor

/-- A source text is made up of layout and of the texts of its tokens, each the longest that can
be read where it stands.  Reading to the end gives just these tokens, none of which is an end
token, each at the place that counting gives, and the end token behind them. -/
theorem tokenize_lossless (source : String) : ∃ marks,
    textOf marks = source.toList ∧ AllLongest marks ∧
    (∀ token ∈ tokensAfter [] marks, token.kind ≠ .eof) ∧
    ∀ tokens, (Cursor.ofText source).Yields tokens ↔
      tokens = tokensAfter [] marks ++ [⟨.eof, "", placeAfter source.toList⟩] := by
  obtain ⟨marks, htext, htokens, hlongest⟩ := (Cursor.ofText source).exists_marks
  have hstart : (Cursor.ofText source).place = placeAfter [] := rfl
  rw [hstart, lay_placeAfter, Place.after_placeAfter] at htokens
  refine ⟨marks, htext, hlongest, ?_, fun tokens => ?_⟩
  · intro token htoken
    apply @kind_ne_eof_of_mem_tokenize source
    rw [tokenize, htokens]
    exact htoken
  · have hyields := (Cursor.ofText source).yields_tokenize
    rw [htokens] at hyields
    constructor
    · intro h
      exact h.unique hyields
    · rintro rfl
      exact hyields

end Monkey
