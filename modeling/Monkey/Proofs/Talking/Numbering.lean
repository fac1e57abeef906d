/-
Numbers of lines.  The lines of programs are numbered through a conversation, and each group that
is run makes up the lines from its own number on.
-/
import Monkey.Proofs.Talking.Lines
import Monkey.Proofs.Talking.Sequential

namespace Monkey

/-! ### Groups among the lines typed -/

/-- The group makes up the lines of the script from a number on. -/
def StandsIn (script : List String) (number : Nat) (group : List String) : Prop :=
  ∃ earlier later, script = earlier ++ group ++ later ∧ number = earlier.length + 1

theorem StandsIn.append {script group : List String} {number : Nat}
    (h : StandsIn script number group) (more : List String) :
    StandsIn (script ++ more) number group := by
  obtain ⟨earlier, later, rfl, hnumber⟩ := h
  exact ⟨earlier, later ++ more, by simp only [List.append_assoc], hnumber⟩

/-- The lines of a group are those of the script. -/
theorem StandsIn.getElem {script before after : List String} {line : String} {number : Nat}
    (h : StandsIn script number (before ++ line :: after)) :
    script[number - 1 + before.length]? = some line := by
  obtain ⟨earlier, later, rfl, rfl⟩ := h
  rw [Nat.add_sub_cancel, List.append_assoc, List.getElem?_append_right (Nat.le_add_right ..),
    Nat.add_sub_cancel_left, List.append_assoc, List.getElem?_append_right (Nat.le_refl _),
    Nat.sub_self]
  rfl

namespace Typed

/-- The lines of programs in front of the open group. -/
def closed (typed : Typed) : Nat :=
  typed.count - typed.group.length

/-- The lines of programs that were typed are a script, at the end of which stands the open
group. -/
def Wrote (typed : Typed) (script : List String) : Prop :=
  typed.count = script.length ∧ ∃ earlier, script = earlier ++ typed.group

variable {typed : Typed} {script : List String}

theorem Wrote.stands (h : typed.Wrote script) : StandsIn script (typed.closed + 1) typed.group := by
  obtain ⟨hcount, earlier, rfl⟩ := h
  refine ⟨earlier, [], (List.append_nil _).symm, ?_⟩
  rw [closed, hcount, List.length_append, Nat.add_sub_cancel]

/-- One more line. -/
theorem Wrote.type (h : typed.Wrote script) (line : String) :
    (typed.type line).2.Wrote (script ++ [line].filter isProgramLine) ∧
      typed.closed ≤ (typed.type line).2.closed ∧
      ∀ number group, .run number group ∈ (typed.type line).1.toList →
        StandsIn script number group ∧ number ≤ (typed.type line).2.closed := by
  obtain ⟨hcount, earlier, hscript⟩ := id h
  cases hcommand : Command.ofLine? line with
  | some command =>
      have hline : [line].filter isProgramLine = [] := by simp [isProgramLine, hcommand]
      rw [hline, List.append_nil]
      cases command <;> simpa [Typed.type, hcommand] using h
  | none =>
      have hline : [line].filter isProgramLine = [line] := by simp [isProgramLine, hcommand]
      rw [hline]
      by_cases hsentinel : trim line = sentinel
      · simp only [Typed.type, hcommand, if_pos hsentinel, Option.toList, List.mem_singleton]
        refine ⟨⟨?_, script ++ [line], (List.append_nil _).symm⟩, ?_, ?_⟩
        · rw [hcount, List.length_append, List.length_singleton]
        · simp only [closed, List.length_nil]
          omega
        · rintro number group ⟨rfl, rfl⟩
          refine ⟨h.stands, ?_⟩
          simp only [closed, List.length_nil]
          omega
      · simp only [Typed.type, hcommand, if_neg hsentinel]
        refine ⟨⟨?_, earlier, by rw [hscript, List.append_assoc]⟩, ?_, fun _ _ hmem => ?_⟩
        · rw [hcount, List.length_append, List.length_singleton]
        · simp only [closed, List.length_append, List.length_singleton]
          omega
        · cases hmem

/-- All lines: every group that is run stands among the lines of programs, in front of the group
that is open at the end. -/
theorem Wrote.typeAll (h : typed.Wrote script) (lines : List String) :
    (typed.typeAll lines).Wrote (script ++ lines.filter isProgramLine) ∧
      typed.closed ≤ (typed.typeAll lines).closed ∧
      ∀ number group, .run number group ∈ typed.requests lines →
        StandsIn (script ++ lines.filter isProgramLine) number group ∧
          number ≤ (typed.typeAll lines).closed := by
  induction lines generalizing typed script with
  | nil =>
      rw [List.filter_nil, List.append_nil]
      exact ⟨h, Nat.le_refl _, nofun⟩
  | cons line rest ih =>
      obtain ⟨htyped, hclosed, hnow⟩ := h.type line
      obtain ⟨hall, hlater, hrest⟩ := ih htyped
      have hscript : script ++ (line :: rest).filter isProgramLine =
          script ++ [line].filter isProgramLine ++ rest.filter isProgramLine := by
        rw [List.append_assoc, ← List.filter_append, List.singleton_append]
      have htypeAll : typed.typeAll (line :: rest) = (typed.type line).2.typeAll rest := rfl
      rw [hscript, htypeAll]
      refine ⟨hall, Nat.le_trans hclosed hlater, fun number group hmem => ?_⟩
      rw [requests] at hmem
      rcases List.mem_append.mp hmem with hmem | hmem
      · obtain ⟨hstands, hle⟩ := hnow number group hmem
        rw [List.append_assoc]
        exact ⟨hstands.append _, Nat.le_trans hle hlater⟩
      · exact hrest number group hmem

theorem wrote_start : start.Wrote [] :=
  ⟨rfl, [], rfl⟩

end Typed

/-! ### Lines of the text of a group -/

theorem groupText_cons (line : String) (rest : List String) :
    (groupText (line :: rest)).toList =
      (dropNewlines line).toList ++ '\n' :: (groupText rest).toList := by
  simp [groupText, String.join_cons]

theorem groupText_nil_append (passed : List Char) : (groupText []).toList ++ passed = passed := by
  rw [groupText, List.map_nil, String.join_nil, String.toList_empty, List.nil_append]

/-- Whatever is left of the text of a group starts on a line of it. -/
theorem exists_line {group : List String} {front back : List Char}
    (h : (groupText group).toList = front ++ back) (hback : back ≠ []) :
    ∃ before line after passed rest, group = before ++ line :: after ∧
      front = (groupText before).toList ++ passed ∧ (dropNewlines line).toList = passed ++ rest ∧
      back = rest ++ '\n' :: (groupText after).toList := by
  induction group generalizing front with
  | nil => exact absurd (List.append_eq_nil_iff.mp h.symm).2 hback
  | cons line group ih =>
      rw [groupText_cons, List.append_eq_append_iff] at h
      rcases h with ⟨passed, hfront, htext⟩ | ⟨rest, hline, hrest⟩
      · cases passed with
        | nil =>
            rw [List.append_nil] at hfront
            exact ⟨[], line, group, (dropNewlines line).toList, [], rfl,
              hfront.trans (groupText_nil_append _).symm, (List.append_nil _).symm, htext.symm⟩
        | cons c passed =>
            obtain ⟨rfl, hgroup⟩ := List.cons.inj htext
            obtain ⟨before, found, after, start, rest, rfl, rfl, hfound, rfl⟩ := ih hgroup
            refine ⟨line :: before, found, after, start, rest, rfl, ?_, hfound, rfl⟩
            rw [hfront, groupText_cons, List.append_assoc]
            rfl
      · exact ⟨[], line, group, front, rest, rfl, (groupText_nil_append front).symm, hline, hrest⟩

/-- Every line adds a newline to the text of a group. -/
theorem length_le_count (group : List String) :
    group.length ≤ (groupText group).toList.count '\n' := by
  induction group with
  | nil => exact Nat.le_refl _
  | cons line rest ih =>
      rw [groupText_cons, List.count_append, List.count_cons_self, List.length_cons]
      omega

/-- The line is shown as one line. -/
def OneLine (line : String) : Prop :=
  ∀ c ∈ (dropNewlines line).toList, isLineBreak c = false

/-- A line is searched, not the whole character set. -/
instance (line : String) : Decidable (OneLine line) :=
  List.decidableBAll (fun c => isLineBreak c = false) (dropNewlines line).toList

theorem OneLine.newline_not_mem {line : String} (h : OneLine line) :
    '\n' ∉ (dropNewlines line).toList :=
  fun hmem => absurd (h '\n' hmem) (by decide)

theorem count_newline {group : List String} (h : ∀ line ∈ group, OneLine line) :
    (groupText group).toList.count '\n' = group.length := by
  induction group with
  | nil => rfl
  | cons line rest ih =>
      obtain ⟨hline, hrest⟩ := List.forall_mem_cons.mp h
      rw [groupText_cons, List.count_append, List.count_eq_zero.mpr hline.newline_not_mem,
        List.count_cons_self, ih hrest, List.length_cons, Nat.zero_add]

theorem wholeLines_groupText (group : List String) : WholeLines (groupText group).toList := by
  rcases List.eq_nil_or_concat group with rfl | ⟨front, line, rfl⟩
  · exact Or.inl rfl
  · refine Or.inr ⟨(groupText front).toList ++ (dropNewlines line).toList, ?_⟩
    rw [List.concat_eq_append, groupText_concat]
    simp

/-- Where every line is shown as one, a place is found by counting lines, and then characters. -/
theorem placeAfter_groupText {before : List String} {passed : List Char}
    (hbefore : ∀ line ∈ before, OneLine line) (hpassed : '\n' ∉ passed) :
    placeAfter ((groupText before).toList ++ passed) =
      ⟨1 + before.length, 1 + passed.length⟩ := by
  rw [placeAfter_line (wholeLines_groupText before) hpassed, count_newline hbefore]

/-- OneLine lines are found again in the text of their group. -/
theorem splitLines_groupText {group : List String} (h : ∀ line ∈ group, OneLine line) :
    splitLines (groupText group) = group.map dropNewlines := by
  induction group with
  | nil => rfl
  | cons line rest ih =>
      obtain ⟨hline, hrest⟩ := List.forall_mem_cons.mp h
      rw [splitLines, groupText_cons, linesFrom_oneLine [] hline, ← splitLines, ih hrest,
        List.reverse_nil, List.nil_append, String.ofList_toList, List.map_cons]

end Monkey
