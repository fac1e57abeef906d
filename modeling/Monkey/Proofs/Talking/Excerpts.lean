/-
What an excerpt shows of a token.  The line and the columns of a token count from the newlines in
front of it, but its excerpt is looked for among the lines that are shown, and is as wide as the
token.  So the part of a line that is shown is that of the token, unless the token goes on on the
next line or other characters than newlines end a line in front of it or on its line.
-/
import Monkey.Proofs.Talking.Lines
import Monkey.Proofs.Talking.Location

namespace Monkey

/-- A token stands in a source behind some whole lines and some characters of its own line. -/
structure Token.StandsOn (token : Token) (source before line : String)
    (passed : List Char) : Prop where
  splits : ∃ after, source.toList = before.toList ++ (line.toList ++ after) ∧ BehindLine after ∧
    ∃ rest, line.toList = passed ++ rest ∧ token.text <+: rest ++ after
  whole : WholeLines before.toList
  single : '\n' ∉ line.toList
  nonempty : token.text ≠ []
  place : token.place = placeAfter (before.toList ++ passed)

/-- The excerpt is the line, and its span is the part of the token that lies on the line. -/
def Excerpt.Shows (excerpt : Excerpt) (line : String) (token : Token) : Prop :=
  excerpt.line = line ∧ excerpt.stop ≤ excerpt.line.length ∧
    (slice excerpt.line excerpt.start excerpt.stop).toList =
      token.text.takeWhile (· != '\n')

/-- Every token stands on a line between newlines. -/
theorem exists_standsOn {source : String} {token : Token}
    (h : token ∈ (tokenize source).tokens) :
    ∃ before line passed, token.StandsOn source before line passed := by
  obtain ⟨marks, htext, htokens, hmarks⟩ := (Cursor.ofText source).exists_marks
  have hstart : (Cursor.ofText source).place = placeAfter [] := rfl
  rw [hstart, lay_placeAfter] at htokens
  rw [tokenize, htokens] at h
  obtain ⟨front, back, hsplit, hplace, hne⟩ := exists_text_of_mem hmarks h
  obtain ⟨before, passed, rfl, hbefore, hpassed⟩ := exists_wholeLines front
  obtain ⟨rest, after, hrest, hline, hafter⟩ := exists_behindLine (token.text ++ back)
  refine ⟨String.ofList before, String.ofList (passed ++ rest), passed,
    ⟨⟨after, ?_, hafter, rest, String.toList_ofList, ?_⟩, ?_, ?_, hne, ?_⟩⟩
  · rw [String.toList_ofList, String.toList_ofList, List.append_assoc, ← hrest,
      ← List.append_assoc, ← hsplit]
    exact htext.symm
  · exact hrest ▸ List.prefix_append ..
  · rwa [String.toList_ofList]
  · rw [String.toList_ofList, List.mem_append, not_or]
    exact ⟨hpassed, hline⟩
  · rwa [String.toList_ofList]

namespace Token.StandsOn

variable {token : Token} {source before line : String} {passed : List Char}

theorem place_eq (h : token.StandsOn source before line passed) :
    token.place = ⟨1 + before.toList.count '\n', 1 + passed.length⟩ := by
  obtain ⟨_, _, _, rest, hline, _⟩ := h.splits
  refine h.place.trans (placeAfter_line h.whole fun hmem => h.single ?_)
  rw [hline]
  exact List.mem_append_left _ hmem

/-- The excerpt of a token: the line of its number among those shown, and its columns. -/
theorem locate_eq (h : token.StandsOn source before line passed) (number : Int) :
    locate source number token =
      ⟨(splitLines source)[before.toList.count '\n']?.getD "", number + token.place.line - 1,
        passed.length, passed.length + token.text.length⟩ := by
  have hplace := h.place_eq
  have hline : token.place.line = 1 + before.toList.count '\n' := congrArg Place.line hplace
  have hcolumn : token.place.column = 1 + passed.length := congrArg Place.column hplace
  have hindex : (token.place.line - 1).toNat = before.toList.count '\n' := by omega
  have hstart : (token.place.column - 1).toNat = passed.length := by omega
  have hlow : ¬ token.place.line < 1 := by omega
  have hmax : max token.place.line 1 = token.place.line := by omega
  simp only [locate, if_neg hlow, hindex, hstart, hmax, Token.width_eq h.nonempty]

/-- Of the lines that are shown, the one with the number of the line is the line itself. -/
theorem getElem?_splitLines_iff (h : token.StandsOn source before line passed)
    (hline : line ≠ "") :
    (splitLines source)[before.toList.count '\n']? = some line ↔
      (∀ c ∈ line.toList, isLineBreak c = false) ∧
        (splitLines before ++ [line])[before.toList.count '\n']? = some line := by
  obtain ⟨after, hsource, hafter, -⟩ := h.splits
  have hcount : before.toList.count '\n' ≤ (splitLines before).length :=
    count_le_length_linesFrom [] _
  have hlines : splitLines source =
      splitLines before ++ linesFrom [] (line.toList ++ after) := by
    rw [splitLines, hsource, h.whole.linesFrom_append, splitLines]
  -- A line without breaks is the first one behind those in front of it.
  have hwhole (hbreaks : ∀ c ∈ line.toList, isLineBreak c = false) :
      (splitLines source)[before.toList.count '\n']? =
        (splitLines before ++ [line])[before.toList.count '\n']? := by
    have hfirst : ∃ more, linesFrom [] (line.toList ++ after) = line :: more := by
      rcases hafter with rfl | ⟨rest, rfl⟩
      · rw [List.append_nil, linesFrom_last [] hbreaks (by simpa using hline)]
        exact ⟨[], by rw [List.reverse_nil, List.nil_append, String.ofList_toList]⟩
      · rw [linesFrom_oneLine [] hbreaks]
        exact ⟨_, by rw [List.reverse_nil, List.nil_append, String.ofList_toList]⟩
    obtain ⟨more, hmore⟩ := hfirst
    rw [hlines, hmore, List.append_cons]
    refine List.getElem?_append_left ?_
    rw [List.length_append, List.length_singleton]
    omega
  constructor
  · intro hfound
    have hbreaks : ∀ c ∈ line.toList, isLineBreak c = false :=
      not_break_of_mem_linesFrom (List.forall_mem_nil _) (List.mem_of_getElem? hfound)
    exact ⟨hbreaks, (hwhole hbreaks).symm.trans hfound⟩
  · rintro ⟨hbreaks, hfound⟩
    exact (hwhole hbreaks).trans hfound

/-- A token goes on behind its line just when it does not fit into the line. -/
theorem newline_mem_iff (h : token.StandsOn source before line passed) :
    '\n' ∈ token.text ↔ line.toList.length < passed.length + token.text.length := by
  obtain ⟨after, _, hafter, rest, hline, back, hback⟩ := h.splits
  have hclear := h.single
  rw [hline, List.mem_append, not_or] at hclear
  rw [hline, List.length_append, Nat.add_lt_add_iff_left]
  constructor
  · intro hmem
    by_contra hshort
    have hrest : token.text <+: rest :=
      List.prefix_of_prefix_length_le ⟨back, hback⟩ (List.prefix_append ..) (Nat.not_lt.mp hshort)
    exact hclear.2 (hrest.subset hmem)
  · intro hlong
    rcases hafter with rfl | ⟨after, rfl⟩
    · have hlength := congrArg List.length hback
      simp only [List.length_append, List.length_nil] at hlength
      omega
    · have hget : (token.text ++ back)[rest.length]? = some '\n' := by
        rw [hback, List.getElem?_append_right (Nat.le_refl _), Nat.sub_self]
        rfl
      rw [List.getElem?_append_left hlong] at hget
      exact List.mem_of_getElem? hget

/-- A token that stays on its line fits into it. -/
theorem stop_le_length (h : token.StandsOn source before line passed)
    (hmem : '\n' ∉ token.text) : passed.length + token.text.length ≤ line.length := by
  rw [← String.length_toList]
  exact Nat.not_lt.mp (mt h.newline_mem_iff.mpr hmem)

/-- The span of a token that stays on its line is the text of the token. -/
theorem slice_eq (h : token.StandsOn source before line passed) (hmem : '\n' ∉ token.text) :
    (slice line passed.length (passed.length + token.text.length)).toList = token.text := by
  have hfits := h.stop_le_length hmem
  obtain ⟨after, _, hafter, rest, hline, hprefix⟩ := h.splits
  rw [← String.length_toList, hline, List.length_append] at hfits
  obtain ⟨back, rfl⟩ : token.text <+: rest :=
    List.prefix_of_prefix_length_le hprefix (List.prefix_append ..) (by omega)
  have hlength : line.length = passed.length + (token.text.length + back.length) := by
    rw [← String.length_toList, hline, List.length_append, List.length_append]
  rw [← Int.natCast_add, toList_slice (by omega) (by omega), hline, List.take_append,
    List.take_of_length_le (by omega), Nat.add_sub_cancel_left, List.take_left, List.drop_left]

end Token.StandsOn

/-- Every token of a source stands on a line.  Its excerpt is numbered by this line, and its span
has the length of the token from where it starts on the line.  The excerpt shows just the part of
the token on the line, if and only if the token does not go on on the next line, the line itself is
shown as one, and of the lines shown up to it the one with its number is this line. -/
theorem locate_shows_iff {source : String} {token : Token}
    (h : token ∈ (tokenize source).tokens) (number : Int) :
    (∃ before line passed, token.StandsOn source before line passed) ∧
    ∀ before line passed, token.StandsOn source before line passed →
      (locate source number token).number = number + token.place.line - 1 ∧
      (locate source number token).start = passed.length ∧
      (locate source number token).stop = passed.length + token.text.length ∧
      ((locate source number token).Shows line token ↔
        '\n' ∉ token.text ∧ (∀ c ∈ line.toList, isLineBreak c = false) ∧
          (splitLines before ++ [line])[before.toList.count '\n']? = some line) := by
  refine ⟨exists_standsOn h, fun before line passed hstands => ?_⟩
  rw [hstands.locate_eq]
  refine ⟨rfl, rfl, rfl, ?_⟩
  have hline (hmem : '\n' ∉ token.text) : line ≠ "" := by
    have hfits := hstands.stop_le_length hmem
    have hpos := List.length_pos_iff.mpr hstands.nonempty
    rintro rfl
    rw [String.length_empty] at hfits
    omega
  constructor
  · rintro ⟨hfound, hstop, -⟩
    have hmem : '\n' ∉ token.text := by
      rw [hstands.newline_mem_iff, String.length_toList, Nat.not_lt, ← hfound]
      exact hstop
    refine ⟨hmem, (hstands.getElem?_splitLines_iff (hline hmem)).mp ?_⟩
    cases hget : (splitLines source)[before.toList.count '\n']? with
    | none => exact absurd (hfound.symm.trans (by rw [hget]; rfl)) (hline hmem)
    | some found =>
        rw [hget] at hfound
        exact congrArg some hfound
  · rintro ⟨hmem, hshown⟩
    have hget := (hstands.getElem?_splitLines_iff (hline hmem)).mpr hshown
    rw [hget, Excerpt.Shows]
    refine ⟨rfl, hstands.stop_le_length hmem, (hstands.slice_eq hmem).trans ?_⟩
    refine (List.takeWhile_eq_self_iff.mpr fun c hc => ?_).symm
    refine bne_iff_ne.mpr ?_
    rintro rfl
    exact hmem hc

/-- The word on the second line is shown on that line. -/
theorem wordOnSecondLine_shown :
    ⟨.trueWord, "true", ⟨2, 3⟩⟩ ∈ (tokenize "1 +\n  true").tokens ∧
      (locate "1 +\n  true" 4 ⟨.trueWord, "true", ⟨2, 3⟩⟩).number = 5 ∧
      (locate "1 +\n  true" 4 ⟨.trueWord, "true", ⟨2, 3⟩⟩).Shows "  true"
        ⟨.trueWord, "true", ⟨2, 3⟩⟩ := by
  have hmem : ⟨.trueWord, "true", ⟨2, 3⟩⟩ ∈ (tokenize "1 +\n  true").tokens := by
    decide +kernel
  have hstands : Token.StandsOn ⟨.trueWord, "true", ⟨2, 3⟩⟩ "1 +\n  true" "1 +\n" "  true"
      "  ".toList :=
    { splits := ⟨[], by decide +kernel, Or.inl rfl, "true".toList, by decide +kernel,
        by decide +kernel⟩
      whole := Or.inr ⟨"1 +".toList, by decide +kernel⟩
      single := by decide +kernel
      nonempty := by decide +kernel
      place := by decide +kernel }
  obtain ⟨_, hall⟩ := locate_shows_iff hmem 4
  obtain ⟨hnumber, _, _, hshows⟩ := hall _ _ _ hstands
  have hbreaks : ("  true".toList.all fun c => !isLineBreak c) = true := by decide +kernel
  refine ⟨hmem, hnumber, hshows.mpr ⟨by decide +kernel, fun c hc => ?_, by decide +kernel⟩⟩
  exact (Bool.not_eq_true' _).mp (List.all_eq_true.mp hbreaks c hc)

/-- A sum behind a string that holds a form feed. -/
def spreadSum : String :=
  "\"a\x0cb\" + 1"

/-- A form feed in a string starts a line that is shown.  So the excerpt of the operator behind the
string is the text in front of the form feed, and its carets stand behind that. -/
theorem operatorOfSpreadSum_not_shown :
    ⟨.plus, "+", ⟨1, 7⟩⟩ ∈ (tokenize spreadSum).tokens ∧
      Token.StandsOn ⟨.plus, "+", ⟨1, 7⟩⟩ spreadSum "" spreadSum "\"a\x0cb\" ".toList ∧
      locate spreadSum 1 ⟨.plus, "+", ⟨1, 7⟩⟩ = ⟨"\"a", 1, 6, 7⟩ ∧
      ¬ (locate spreadSum 1 ⟨.plus, "+", ⟨1, 7⟩⟩).Shows spreadSum ⟨.plus, "+", ⟨1, 7⟩⟩ := by
  have hlocate : locate spreadSum 1 ⟨.plus, "+", ⟨1, 7⟩⟩ = ⟨"\"a", 1, 6, 7⟩ := by
    decide +kernel
  have hstands : Token.StandsOn ⟨.plus, "+", ⟨1, 7⟩⟩ spreadSum "" spreadSum
      "\"a\x0cb\" ".toList :=
    { splits := ⟨[], by decide +kernel, Or.inl rfl, "+ 1".toList, by decide +kernel,
        by decide +kernel⟩
      whole := Or.inl (by decide +kernel)
      single := by decide +kernel
      nonempty := by decide +kernel
      place := by decide +kernel }
  refine ⟨by decide +kernel, hstands, hlocate, ?_⟩
  rw [hlocate]
  exact fun h => absurd h.1 (by decide +kernel)

-- A string that goes on on the next line has a span that ends behind its line.
example : locate "\"a\nb\"" 1 ⟨.string, "a\nb", ⟨1, 1⟩⟩ = ⟨"\"a", 1, 0, 5⟩ := by
  decide +kernel

end Monkey
