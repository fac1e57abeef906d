/-
Texts without their blank lines.  Without these lines, a text has the same lexemes, but for the
blank lines in strings, and they stand on lines that follow each other as before.
-/
import Monkey.Proofs.Lexing.Gaps
import Monkey.Proofs.Parsing.Joining
import Monkey.Proofs.Talking.Location

namespace Monkey

/-! ### Streams with the same lexemes -/

namespace TokenStream.Respaces

variable {stream stream' stream'' : TokenStream}

theorem refl (stream : TokenStream) : stream.Respaces stream :=
  ⟨rfl, fun _ _ => Iff.rfl⟩

theorem trans (h : stream.Respaces stream') (h' : stream'.Respaces stream'') :
    stream.Respaces stream'' := by
  refine ⟨h.lexemes.trans h'.lexemes, fun index hkind => ?_⟩
  have heq : (stream.get (index + 1)).kind = (stream'.get (index + 1)).kind :=
    congrArg Prod.fst (h.lexeme_get (index + 1))
  exact (h.lines index hkind).trans (h'.lines index (heq ▸ hkind))

theorem symm (h : stream.Respaces stream') : stream'.Respaces stream := by
  refine ⟨h.lexemes.symm, fun index hkind => (h.lines index ?_).symm⟩
  have heq : (stream.get (index + 1)).kind = (stream'.get (index + 1)).kind :=
    congrArg Prod.fst (h.lexeme_get (index + 1))
  exact heq ▸ hkind

/-- Behind tokens on lines above both streams or above none. -/
theorem behind (h : stream.Respaces stream') {tokens : List Token}
    (habove : ∀ token ∈ tokens, token.place.line < (stream.get 0).place.line ↔
      token.place.line < (stream'.get 0).place.line) :
    (TokenStream.mk (tokens ++ stream.tokens) stream.finish).Respaces
      ⟨tokens ++ stream'.tokens, stream'.finish⟩ := by
  induction tokens with
  | nil => exact h
  | cons token tokens ih =>
      obtain ⟨hfirst, hrest⟩ := List.forall_mem_cons.mp habove
      have htail := ih hrest
      refine ⟨?_, fun index hkind => ?_⟩
      · rw [List.cons_append, List.cons_append, List.map_cons, List.map_cons, htail.lexemes]
      · cases index with
        | succ index => exact htail.lines index hkind
        | zero =>
            cases tokens with
            | nil => exact hfirst
            | cons next tokens => exact Iff.rfl

end TokenStream.Respaces

/-! ### Streams without blank lines -/

/-- A string, and what may be one without an end, without its blank lines. -/
def Token.pruned (token : Token) : Token :=
  if token.kind = .string ∨ token.kind = .illegal then
    { token with literal := pruneText token.literal }
  else token

@[simp] theorem Token.kind_pruned (token : Token) : token.pruned.kind = token.kind := by
  unfold Token.pruned
  split <;> rfl

@[simp] theorem Token.place_pruned (token : Token) : token.pruned.place = token.place := by
  unfold Token.pruned
  split <;> rfl

/-- What is left of a lexeme. -/
def pruneLexeme (lexeme : Kind × String) : Kind × String :=
  (lexeme.1, if lexeme.1 = .string ∨ lexeme.1 = .illegal then pruneText lexeme.2 else lexeme.2)

theorem Token.lexeme_pruned (token : Token) : token.pruned.lexeme = pruneLexeme token.lexeme := by
  unfold Token.pruned pruneLexeme Token.lexeme
  split <;> simp_all

/-- Where a token holds no blank line, all of it is left. -/
theorem Token.pruned_of_compact {token : Token} (h : Compact token.text) :
    token.pruned = token := by
  obtain ⟨kind, literal, place⟩ := token
  unfold Token.pruned
  split
  · next hkind =>
    have hliteral : Compact literal.toList := by
      rcases hkind with rfl | rfl
      · exact @compact_append ['"'] literal.toList ['"'] h
      · exact h
    simp only [pruneText, prune_of_compact hliteral, String.ofList_toList]
  · rfl

def TokenStream.pruned (stream : TokenStream) : TokenStream :=
  ⟨stream.tokens.map Token.pruned, stream.finish⟩

theorem TokenStream.get_pruned (stream : TokenStream) (index : Nat) :
    stream.pruned.get index = (stream.get index).pruned :=
  List.getD_map _ stream.eof Token.pruned

theorem TokenStream.pruned_of_compact {stream : TokenStream}
    (h : ∀ token ∈ stream.tokens, Compact token.text) : stream.pruned = stream := by
  have htokens : stream.tokens.map Token.pruned = stream.tokens.map id :=
    List.map_congr_left fun token htoken => Token.pruned_of_compact (h token htoken)
  rw [pruned, htokens, List.map_id]

theorem TokenStream.Respaces.pruned {stream stream' : TokenStream} (h : stream.Respaces stream') :
    stream.pruned.Respaces stream'.pruned := by
  have hlexemes (stream : TokenStream) : stream.pruned.tokens.map Token.lexeme =
      (stream.tokens.map Token.lexeme).map pruneLexeme := by
    rw [TokenStream.pruned, List.map_map, List.map_map]
    exact List.map_congr_left fun token _ => token.lexeme_pruned
  refine ⟨?_, fun index hkind => ?_⟩
  · rw [hlexemes, hlexemes, h.lexemes]
  · rw [TokenStream.get_pruned, Token.kind_pruned] at hkind
    simp only [TokenStream.get_pruned, Token.place_pruned]
    exact h.lines index hkind

/-! ### Marks with gaps between them -/

theorem layStream_append (place : Place) (first second : List Mark) :
    layStream place (first ++ second) =
      ⟨lay place first ++ (layStream (place.after (textOf first)) second).tokens,
        (layStream (place.after (textOf first)) second).finish⟩ := by
  simp only [layStream, lay_append, textOf_append, Place.after_append]

theorem layStream_gaps (place : Place) (gap : List Char) (marks : List Mark) :
    layStream place (gap.map Mark.gap ++ marks) = layStream (place.after gap) marks := by
  induction gap generalizing place with
  | nil => rfl
  | cons c gap ih => exact ih (place.next c)

theorem line_le_get_layStream (place : Place) (marks : List Mark) (index : Nat) :
    place.line ≤ ((layStream place marks).get index).place.line := by
  by_cases hindex : index < (layStream place marks).tokens.length
  · have hmem : (layStream place marks).get index ∈ lay place marks := by
      rw [TokenStream.get, List.getD_eq_getElem _ _ hindex]
      exact List.getElem_mem hindex
    exact (line_of_mem_lay hmem).1
  · rw [TokenStream.get_of_le (Nat.le_of_not_lt hindex)]
    exact place.line_le_after _

/-- A token of the marks, and what is laid behind it. -/
theorem layStream_word (place : Place) (before behind : List Mark) (kind : Kind)
    (literal : String) :
    layStream place (before ++ .word kind literal :: behind) =
      let start := place.after (textOf before)
      let next := layStream (start.after (Mark.word kind literal).text) behind
      ⟨lay place before ++ ⟨kind, literal, start⟩ :: next.tokens, next.finish⟩ := by
  rw [layStream_append]
  simp only [layStream, textOf_cons, Place.after_append]
  rfl

/-! ### One line -/

/-- Two gaps behind a newline. -/
theorem respaces_gaps (place : Place) (before behind : List Mark) (gap : List Char) :
    (layStream place (before ++ .gap '\n' :: (gap.map Mark.gap ++ behind))).Respaces
      (layStream place (before ++ .gap '\n' :: behind)) := by
  let last := place.after (textOf before)
  have hlast : last.line < (last.next '\n').line := last.line_lt_after (List.mem_singleton.mpr rfl)
  have hnewline (marks : List Mark) :
      layStream last (.gap '\n' :: marks) = layStream (last.next '\n') marks := rfl
  rw [layStream_append, layStream_append]
  refine TokenStream.Respaces.behind ?_ fun token htoken => ?_
  · rw [hnewline, hnewline, layStream_gaps]
    exact respaces_layStream _ _ behind
  · have hle : token.place.line ≤ last.line := (line_of_mem_lay htoken).2
    rw [hnewline, hnewline, layStream_gaps]
    have hgap := (last.next '\n').line_le_after gap
    have hfirst := line_le_get_layStream ((last.next '\n').after gap) behind 0
    have hfirst' := line_le_get_layStream (last.next '\n') behind 0
    exact iff_of_true (by omega) (by omega)

/-- A token over more than one line, with other text. -/
theorem respaces_held (place : Place) (before behind : List Mark) {kind : Kind}
    {literal literal' : String} (hkind : kind = .string ∨ kind = .illegal)
    (htext : pruneText literal = pruneText literal')
    (hnewline : '\n' ∈ (Mark.word kind literal).text)
    (hnewline' : '\n' ∈ (Mark.word kind literal').text) :
    (layStream place (before ++ .word kind literal :: behind)).pruned.Respaces
      (layStream place (before ++ .word kind literal' :: behind)).pruned := by
  have hheld (start : Place) :
      (Token.mk kind literal' start).pruned = (Token.mk kind literal start).pruned := by
    rw [Token.pruned, Token.pruned, if_pos hkind, if_pos hkind, htext]
  let start := place.after (textOf before)
  let next := start.after (Mark.word kind literal).text
  let next' := start.after (Mark.word kind literal').text
  have hnext : start.line < next.line := start.line_lt_after hnewline
  have hnext' : start.line < next'.line := start.line_lt_after hnewline'
  have hbehind := (respaces_layStream next next' behind).pruned
  have hword := @TokenStream.Respaces.behind _ _ hbehind [(Token.mk kind literal start).pruned] (by
    simp only [TokenStream.get_pruned, Token.place_pruned, List.mem_singleton, forall_eq]
    have hfirst := line_le_get_layStream next behind 0
    have hfirst' := line_le_get_layStream next' behind 0
    exact iff_of_true (by omega) (by omega))
  have hall := @TokenStream.Respaces.behind _ _ hword ((lay place before).map Token.pruned)
    fun _ _ => Iff.rfl
  rw [layStream_word, layStream_word]
  simp only [TokenStream.pruned, List.map_append, List.map_cons, hheld]
  exact hall

/-- The marks of a text are those of any other that they make up. -/
theorem tokenize_eq_layStream {source : String} {marks : List Mark} (hlongest : AllLongest marks)
    (htext : textOf marks = source.toList) : tokenize source = layStream .start marks := by
  have hrest : (Cursor.ofText source).rest = textOf marks := htext.symm
  exact tokenize_of_allLongest hlongest hrest

/-- A line of layout more or less. -/
theorem respaces_without_line {source source' : String} {front blank rest : List Char}
    (hfront : WholeLines front) (hline : '\n' ∉ blank) (hblank : ∀ c ∈ blank, isLayout c = true)
    (hsource : source.toList = front ++ (blank ++ '\n' :: rest))
    (hsource' : source'.toList = front ++ rest) :
    (tokenize source).pruned.Respaces (tokenize source').pruned := by
  obtain ⟨marks, htext, -, hlongest⟩ := (Cursor.ofText source).exists_marks
  rw [tokenize_eq_layStream hlongest htext]
  replace htext : textOf marks = front ++ (blank ++ '\n' :: rest) := htext.trans hsource
  rcases hfront with rfl | ⟨front, rfl⟩
  · -- no token can hold the first line of the text
    have hgap : ∀ c ∈ blank ++ ['\n'], isLayout c = true :=
      List.forall_mem_append.mpr ⟨hblank, List.forall_mem_singleton.mpr rfl⟩
    have htext : textOf marks = (blank ++ ['\n']) ++ rest := by simpa using htext
    obtain ⟨behind, rfl, hbehind⟩ := exists_gaps hlongest hgap htext
    rw [tokenize_eq_layStream hlongest.right (hbehind.trans hsource'.symm), layStream_gaps]
    exact (respaces_layStream _ _ behind).pruned
  · rw [List.append_assoc, List.singleton_append] at htext hsource'
    rcases gaps_or_held hlongest hblank htext with ⟨before, behind, rfl, rfl, rfl⟩ |
      ⟨before, kind, literal, behind, head, others, rfl, hheld, rfl, rfl⟩
    · have hlongest' : AllLongest (before ++ .gap '\n' :: behind) :=
        hlongest.exchange ⟨hlongest.right.1, hlongest.right.2.right⟩ rfl
      rw [tokenize_eq_layStream hlongest' (by rw [textOf_append, hsource']; rfl)]
      exact (respaces_gaps .start before behind (blank ++ ['\n'])).pruned
    · have hword : kind.Longest literal (textOf behind) := hlongest.right.1
      obtain ⟨literal', htext', hword', hkind, hpruned⟩ := hword.without_line hline
        (List.all_eq_true.mpr fun c hc => isBlank_of_isLayout (hblank c hc)) hheld
      have hlongest' : AllLongest (before ++ .word kind literal' :: behind) := by
        refine hlongest.exchange ⟨hword', hlongest.right.2⟩ ?_
        rw [textOf_cons, textOf_cons, hheld, htext']
        cases head <;> rfl
      have hsource' : textOf (before ++ .word kind literal' :: behind) = source'.toList := by
        rw [textOf_append, textOf_cons, htext', hsource']
        simp
      rw [tokenize_eq_layStream hlongest' hsource']
      exact respaces_held .start before behind hkind hpruned (by simp [hheld]) (by simp [htext'])

/-! ### Blank lines of a group -/

theorem dropNewlines_eq {line : String} (h : '\n' ∉ line.toList) : dropNewlines line = line := by
  have hdrop : line.toList.reverse.dropWhile (· == '\n') = line.toList.reverse := by
    rw [List.dropWhile_eq_self_iff]
    intro hpos
    refine fun heq => h ?_
    rw [← List.mem_reverse, ← beq_iff_eq.mp heq]
    exact List.getElem_mem hpos
  rw [dropNewlines, dropRight, hdrop, List.reverse_reverse, String.ofList_toList]

theorem groupText_append (first second : List String) :
    (groupText (first ++ second)).toList =
      (groupText first).toList ++ (groupText second).toList := by
  simp [groupText, String.join_append]

/-- Lines of layout can be left out one by one, by induction on the lines behind those that are
kept. -/
theorem respaces_filter {lines : List String} {p : String → Bool} (kept : List String)
    (hblank : ∀ line ∈ lines, p line = false →
      '\n' ∉ line.toList ∧ ∀ c ∈ line.toList, isLayout c = true) :
    (tokenize (groupText (kept ++ lines))).pruned.Respaces
      (tokenize (groupText (kept ++ lines.filter p))).pruned := by
  induction lines generalizing kept with
  | nil => exact .refl _
  | cons line rest ih =>
      obtain ⟨hline, hrest⟩ := List.forall_mem_cons.mp hblank
      cases hp : p line with
      | true =>
          have hnext := ih (kept ++ [line]) hrest
          rw [List.append_assoc, List.append_assoc, List.singleton_append] at hnext
          rw [List.filter_cons_of_pos hp]
          exact hnext
      | false =>
          obtain ⟨hnewline, hlayout⟩ := hline hp
          have htext : (groupText (kept ++ line :: rest)).toList =
              (groupText kept).toList ++ (line.toList ++ '\n' :: (groupText rest).toList) := by
            rw [groupText_append, groupText_cons, dropNewlines_eq hnewline]
          have hstep := respaces_without_line (wholeLines_groupText kept) hnewline hlayout htext
            (groupText_append kept rest)
          rw [List.filter_cons_of_neg (by simp [hp])]
          exact hstep.trans (ih kept hrest)

/-! ### Groups without blank lines -/

theorem Compact.cons_line {line text : List Char} (h : Compact text) (hline : '\n' ∉ line)
    (hstart : ¬ StartsBlank text) : Compact (line ++ '\n' :: text) := by
  induction line with
  | nil =>
      intro rest hrest hhead
      rcases List.suffix_cons_iff.mp ((List.mem_tails _ _).mp hrest) with rfl | hrest
      · exact hstart
      · exact h rest ((List.mem_tails _ _).mpr hrest) hhead
  | cons c line ih =>
      rw [List.mem_cons, not_or] at hline
      intro rest hrest hhead
      rcases List.suffix_cons_iff.mp ((List.mem_tails _ _).mp hrest) with rfl | hrest
      · exact absurd (Option.some.inj hhead).symm hline.1
      · exact ih hline.2 rest ((List.mem_tails _ _).mpr hrest) hhead

theorem compact_groupText {lines : List String}
    (h : ∀ line ∈ lines, '\n' ∉ line.toList ∧ line.toList.all isBlank = false) :
    Compact (groupText lines).toList := by
  induction lines with
  | nil => exact compact_nil
  | cons line rest ih =>
      obtain ⟨⟨hline, -⟩, hrest⟩ := List.forall_mem_cons.mp h
      rw [groupText_cons, dropNewlines_eq hline]
      refine (ih hrest).cons_line hline ?_
      cases rest with
      | nil => exact fun hblank => absurd hblank.1 List.not_mem_nil
      | cons next rest =>
          obtain ⟨hnext, hblank⟩ := hrest next List.mem_cons_self
          rw [groupText_cons, dropNewlines_eq hnext, startsBlank_iff hnext, hblank]
          decide

/-- The tokens of a text that holds no blank line do not hold one. -/
theorem compact_of_mem_tokenize {source : String} (h : Compact source.toList) {token : Token}
    (htoken : token ∈ (tokenize source).tokens) : Compact token.text := by
  obtain ⟨marks, htext, htokens, hlongest⟩ := (Cursor.ofText source).exists_marks
  have hstart : (Cursor.ofText source).place = placeAfter [] := rfl
  rw [tokenize, htokens, hstart, lay_placeAfter] at htoken
  obtain ⟨front, back, hsplit, -, -⟩ := exists_text_of_mem hlongest htoken
  have hsource : source.toList = front ++ (token.text ++ back) := htext.symm.trans hsplit
  exact compact_append (hsource ▸ h)

end Monkey
