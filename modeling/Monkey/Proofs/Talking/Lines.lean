/-
Lines of a text.  Places count newlines only, but a text is shown with a new line after every
character that ends one.  So a line of the text is found by its number just when as many lines are
shown in front of it as there are newlines.
-/
import Mathlib.Data.List.Induction
import Monkey.Proofs.Lexing.Lossless
import Monkey.Text.Blank

namespace Monkey

/-! ### Lines between newlines -/

/-- A text of whole lines, each with its newline. -/
def WholeLines (text : List Char) : Prop :=
  text = [] ∨ ∃ front, text = front ++ ['\n']

/-- A text that goes on behind a line, with the newline of the line if there is one. -/
def BehindLine (text : List Char) : Prop :=
  text = [] ∨ ∃ rest, text = '\n' :: rest

/-- Every text is made up of whole lines and the characters of an open one. -/
theorem exists_wholeLines (text : List Char) : ∃ before passed,
    text = before ++ passed ∧ WholeLines before ∧ '\n' ∉ passed := by
  induction text using List.reverseRecOn with
  | nil => exact ⟨[], [], rfl, Or.inl rfl, nofun⟩
  | append_singleton front c ih =>
      by_cases hc : c = '\n'
      · subst hc
        exact ⟨front ++ ['\n'], [], (List.append_nil _).symm, Or.inr ⟨front, rfl⟩, nofun⟩
      · obtain ⟨before, passed, rfl, hbefore, hpassed⟩ := ih
        refine ⟨before, passed ++ [c], List.append_assoc .., hbefore, ?_⟩
        rw [List.mem_append, List.mem_singleton, not_or]
        exact ⟨hpassed, Ne.symm hc⟩

/-- Every text finishes a line and goes on behind it. -/
theorem exists_behindLine (text : List Char) : ∃ rest after,
    text = rest ++ after ∧ '\n' ∉ rest ∧ BehindLine after := by
  induction text with
  | nil => exact ⟨[], [], rfl, nofun, Or.inl rfl⟩
  | cons c text ih =>
      by_cases hc : c = '\n'
      · subst hc
        exact ⟨[], '\n' :: text, rfl, nofun, Or.inr ⟨text, rfl⟩⟩
      · obtain ⟨rest, after, rfl, hrest, hafter⟩ := ih
        refine ⟨c :: rest, after, rfl, ?_, hafter⟩
        rw [List.mem_cons, not_or]
        exact ⟨Ne.symm hc, hrest⟩

theorem WholeLines.takeWhile_reverse {before : List Char} (h : WholeLines before) :
    before.reverse.takeWhile (· != '\n') = [] := by
  rcases h with rfl | ⟨front, rfl⟩
  · rfl
  · simp

/-- A place is found by counting newlines, and then characters. -/
theorem placeAfter_line {before passed : List Char} (hbefore : WholeLines before)
    (hpassed : '\n' ∉ passed) :
    placeAfter (before ++ passed) = ⟨1 + before.count '\n', 1 + passed.length⟩ := by
  have hcolumn : (before ++ passed).reverse.takeWhile (· != '\n') = passed.reverse := by
    rw [List.reverse_append, List.takeWhile_append_of_pos, hbefore.takeWhile_reverse,
      List.append_nil]
    intro c hc
    refine bne_iff_ne.mpr ?_
    rintro rfl
    exact hpassed (List.mem_reverse.mp hc)
  rw [placeAfter, hcolumn, List.length_reverse, List.count_append,
    List.count_eq_zero.mpr hpassed, Nat.add_zero]

/-! ### Lines shown -/

theorem linesFrom_cons (line : List Char) {c : Char} {rest : List Char}
    (h : c = '\r' → rest.head? ≠ some '\n') :
    linesFrom line (c :: rest) =
      if isLineBreak c then String.ofList line.reverse :: linesFrom [] rest
      else linesFrom (c :: line) rest := by
  rw [linesFrom]
  rintro rest' rfl rfl
  exact h rfl rfl

/-- A newline ends a line, also behind a carriage return. -/
theorem linesFrom_newline (line front rest : List Char) :
    linesFrom line (front ++ '\n' :: rest) =
      linesFrom line (front ++ ['\n']) ++ linesFrom [] rest := by
  induction line, front using linesFrom.induct with
  | case1 line hline => rfl
  | case2 line hline => rfl
  | case3 line front ih => exact congrArg (_ :: ·) ih
  | case4 line c front hreturn hbreak ih =>
      cases front with
      | nil =>
          by_cases hc : c = '\r'
          · subst hc
            rfl
          · rw [List.cons_append, List.cons_append, linesFrom_cons _ (fun h => absurd h hc),
              linesFrom_cons _ (fun h => absurd h hc), if_pos hbreak, if_pos hbreak, ih]
            rfl
      | cons c' front =>
          have hhead (tail : List Char) : c = '\r' → (c' :: (front ++ tail)).head? ≠ some '\n' := by
            rintro rfl hc'
            exact hreturn front rfl (by rw [Option.some.inj hc'])
          simp only [List.cons_append] at ih ⊢
          rw [linesFrom_cons _ (hhead _), linesFrom_cons _ (hhead _), if_pos hbreak,
            if_pos hbreak, ih, List.cons_append]
  | case5 line c front hreturn hbreak ih =>
      have hc : c ≠ '\r' := fun h => hbreak (by rw [h]; rfl)
      rw [List.cons_append, List.cons_append, linesFrom_cons _ (fun h => absurd h hc),
        linesFrom_cons _ (fun h => absurd h hc), if_neg hbreak, if_neg hbreak, ih]

/-- What stands behind whole lines is shown as if it stood alone. -/
theorem WholeLines.linesFrom_append {before : List Char} (h : WholeLines before)
    (rest : List Char) :
    linesFrom [] (before ++ rest) = linesFrom [] before ++ linesFrom [] rest := by
  rcases h with rfl | ⟨front, rfl⟩
  · rfl
  · rw [List.append_assoc, List.singleton_append, linesFrom_newline]

/-- At least one line is shown for every newline. -/
theorem count_le_length_linesFrom (line text : List Char) :
    text.count '\n' ≤ (linesFrom line text).length := by
  induction line, text using linesFrom.induct with
  | case1 line hline => exact Nat.zero_le _
  | case2 line hline => exact Nat.zero_le _
  | case3 line rest ih =>
      rw [linesFrom, List.count_cons_of_ne (by decide), List.count_cons_self, List.length_cons]
      exact Nat.succ_le_succ ih
  | case4 line c rest hreturn hbreak ih =>
      rw [linesFrom, if_pos hbreak, List.length_cons, List.count_cons]
      · split <;> omega
      · exact hreturn
  | case5 line c rest hreturn hbreak ih =>
      have hc : c ≠ '\n' := fun h => hbreak (by rw [h]; rfl)
      rw [linesFrom, if_neg hbreak, List.count_cons_of_ne hc]
      · exact ih
      · exact hreturn

/-- Newlines are the only characters of the text that end a line. -/
def OnlyNewlines (text : List Char) : Prop :=
  ∀ c ∈ text, isLineBreak c = true → c = '\n'

/-- A text is searched, not the whole character set. -/
instance (text : List Char) : Decidable (OnlyNewlines text) :=
  List.decidableBAll (fun c => isLineBreak c = true → c = '\n') text

/-- If only newlines end lines, a line is shown for each. -/
theorem length_linesFrom_newline (line : List Char) {front : List Char}
    (h : OnlyNewlines front) :
    (linesFrom line (front ++ ['\n'])).length = front.count '\n' + 1 := by
  induction front generalizing line with
  | nil => rfl
  | cons c front ih =>
      obtain ⟨hc, hfront⟩ := List.forall_mem_cons.mp h
      have hreturn : c = '\r' → (front ++ ['\n']).head? ≠ some '\n' := fun heq =>
        absurd (hc (heq ▸ rfl)) (heq ▸ by decide)
      rw [List.cons_append, linesFrom_cons line hreturn, List.count_cons]
      by_cases hbreak : isLineBreak c = true
      · rw [if_pos hbreak, if_pos (by rw [hc hbreak]; rfl), List.length_cons, ih [] hfront]
      · have hne : c ≠ '\n' := fun heq => hbreak (heq ▸ rfl)
        rw [if_neg hbreak, ih _ hfront, if_neg (by simpa using hne)]

theorem WholeLines.length_linesFrom {before : List Char} (h : WholeLines before)
    (hbreaks : OnlyNewlines before) : (linesFrom [] before).length = before.count '\n' := by
  rcases h with rfl | ⟨front, rfl⟩
  · rfl
  · rw [length_linesFrom_newline [] fun c hc => hbreaks c (List.mem_append_left _ hc),
      List.count_append]
    rfl

/-- A line that is shown holds no character that ends one. -/
theorem not_break_of_mem_linesFrom {line text : List Char} {shown : String}
    (hline : ∀ c ∈ line, isLineBreak c = false) (h : shown ∈ linesFrom line text) :
    ∀ c ∈ shown.toList, isLineBreak c = false := by
  have hopen : ∀ c ∈ (String.ofList line.reverse).toList, isLineBreak c = false := by
    rw [String.toList_ofList]
    exact fun c hc => hline c (List.mem_reverse.mp hc)
  induction line, text using linesFrom.induct with
  | case1 line hempty => simp [linesFrom, hempty] at h
  | case2 line hempty =>
      rw [linesFrom, if_neg hempty, List.mem_singleton] at h
      exact h ▸ hopen
  | case3 line rest ih =>
      rcases List.mem_cons.mp h with rfl | h
      · exact hopen
      · exact ih nofun h nofun
  | case4 line c rest hreturn hbreak ih =>
      rw [linesFrom, if_pos hbreak] at h
      · rcases List.mem_cons.mp h with rfl | h
        · exact hopen
        · exact ih nofun h nofun
      · exact hreturn
  | case5 line c rest hreturn hbreak ih =>
      have hmore : ∀ c' ∈ c :: line, isLineBreak c' = false :=
        List.forall_mem_cons.mpr ⟨Bool.eq_false_iff.mpr hbreak, hline⟩
      rw [linesFrom, if_neg hbreak] at h
      · refine ih hmore h ?_
        rw [String.toList_ofList]
        exact fun c' hc' => hmore c' (List.mem_reverse.mp hc')
      · exact hreturn

theorem linesFrom_oneLine (passed : List Char) {line : List Char}
    (h : ∀ c ∈ line, isLineBreak c = false) (rest : List Char) :
    linesFrom passed (line ++ '\n' :: rest) =
      String.ofList (passed.reverse ++ line) :: linesFrom [] rest := by
  induction line generalizing passed with
  | nil =>
      rw [List.nil_append, linesFrom, if_pos (by decide), List.append_nil]
      nofun
  | cons c line ih =>
      obtain ⟨hc, hline⟩ := List.forall_mem_cons.mp h
      rw [List.cons_append, linesFrom, if_neg (by rw [hc]; decide), ih (c :: passed) hline,
        List.reverse_cons, List.append_assoc, List.singleton_append]
      rintro rest' rfl
      cases hc

theorem linesFrom_last (passed : List Char) {line : List Char}
    (h : ∀ c ∈ line, isLineBreak c = false) (hne : passed.reverse ++ line ≠ []) :
    linesFrom passed line = [String.ofList (passed.reverse ++ line)] := by
  induction line generalizing passed with
  | nil =>
      rw [List.append_nil] at hne ⊢
      rw [linesFrom, if_neg (by simpa using hne)]
  | cons c line ih =>
      obtain ⟨hc, hline⟩ := List.forall_mem_cons.mp h
      rw [linesFrom, if_neg (by rw [hc]; decide), ih (c :: passed) hline (by simp),
        List.reverse_cons, List.append_assoc, List.singleton_append]
      rintro rest' rfl
      cases hc

end Monkey
