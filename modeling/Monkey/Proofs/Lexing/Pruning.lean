/-
Texts without their blank lines.  Only what stands between two newlines of a text is known to be a
whole line of it.
-/
import Mathlib.Data.List.Infix
import Monkey.Text.Blank

namespace Monkey

/-- What follows the beginning of a line, without the blank lines that end in it. -/
def pruneFrom (line : List Char) : List Char → List Char
  | [] => line
  | c :: rest =>
      if c = '\n' then
        (if line.all isBlank then [] else line ++ ['\n']) ++ pruneFrom [] rest
      else pruneFrom (line ++ [c]) rest

/-- A text without the blank lines that stand between two newlines. -/
def prune : List Char → List Char
  | [] => []
  | c :: rest => c :: if c = '\n' then pruneFrom [] rest else prune rest

def pruneText (text : String) : String :=
  String.ofList (prune text.toList)

example : pruneText " \n\n  \nx\n \n " = " \nx\n " := by decide +kernel

/-- The first line of the text is blank and has an end. -/
def StartsBlank (text : List Char) : Prop :=
  '\n' ∈ text ∧ (text.takeWhile (· != '\n')).all isBlank = true

/-- No blank line stands between two newlines of the text. -/
def Compact (text : List Char) : Prop :=
  ∀ rest ∈ text.tails, rest.head? = some '\n' → ¬ StartsBlank rest.tail

instance (text : List Char) : Decidable (StartsBlank text) :=
  inferInstanceAs (Decidable (_ ∧ _))

instance (text : List Char) : Decidable (Compact text) :=
  inferInstanceAs (Decidable (∀ rest ∈ text.tails, _))

/-! ### A line at the beginning -/

theorem takeWhile_line {line : List Char} (hline : '\n' ∉ line) (rest : List Char) :
    (line ++ '\n' :: rest).takeWhile (· != '\n') = line := by
  rw [List.takeWhile_append_of_pos, List.takeWhile_cons_of_neg (by simp), List.append_nil]
  intro c hc
  refine bne_iff_ne.mpr ?_
  rintro rfl
  exact hline hc

theorem startsBlank_iff {line : List Char} (hline : '\n' ∉ line) (rest : List Char) :
    StartsBlank (line ++ '\n' :: rest) ↔ line.all isBlank = true := by
  rw [StartsBlank, takeWhile_line hline, and_iff_right (by simp)]

/-- More text behind the first line does not matter. -/
theorem StartsBlank.append {text : List Char} (h : StartsBlank text) (rest : List Char) :
    StartsBlank (text ++ rest) := by
  obtain ⟨line, after, rfl, hline⟩ := List.eq_append_cons_of_mem h.1
  rw [List.append_assoc, List.cons_append, startsBlank_iff hline]
  exact (startsBlank_iff hline _).mp h

/-! ### Compact texts -/

theorem compact_nil : Compact [] := by
  decide

theorem Compact.tail {c : Char} {text : List Char} (h : Compact (c :: text)) : Compact text := by
  refine fun rest hrest => h rest ?_
  rw [List.mem_tails] at hrest ⊢
  exact hrest.trans (List.suffix_cons c text)

theorem compact_append {front text back : List Char} (h : Compact (front ++ (text ++ back))) :
    Compact text := by
  intro rest hrest hhead hblank
  obtain ⟨before, rfl⟩ := (List.mem_tails _ _).mp hrest
  obtain ⟨tail, rfl⟩ := List.head?_eq_some_iff.mp hhead
  refine h ('\n' :: (tail ++ back)) ?_ rfl (hblank.append back)
  rw [List.mem_tails]
  exact ⟨front ++ before, by simp⟩

theorem Compact.line_not_blank {front line rest : List Char}
    (h : Compact (front ++ '\n' :: (line ++ '\n' :: rest))) (hline : '\n' ∉ line) :
    line.all isBlank = false := by
  have hsuffix : '\n' :: (line ++ '\n' :: rest) ∈ (front ++ '\n' :: (line ++ '\n' :: rest)).tails :=
    (List.mem_tails _ _).mpr (List.suffix_append _ _)
  have hnot := h _ hsuffix rfl
  rw [List.tail_cons, startsBlank_iff hline] at hnot
  exact Bool.eq_false_iff.mpr hnot

/-! ### Pruning -/

theorem pruneFrom_line {line more : List Char} (hmore : '\n' ∉ more) (rest : List Char) :
    pruneFrom line (more ++ '\n' :: rest) =
      (if (line ++ more).all isBlank then [] else line ++ more ++ ['\n']) ++ pruneFrom [] rest := by
  induction more generalizing line with
  | nil => rw [List.nil_append, pruneFrom, if_pos rfl, List.append_nil]
  | cons c more ih =>
      rw [List.mem_cons, not_or] at hmore
      obtain ⟨hc, hmore⟩ := hmore
      rw [List.cons_append, pruneFrom, if_neg (Ne.symm hc), ih hmore, List.append_assoc,
        List.singleton_append]

theorem pruneFrom_blank {line blank : List Char} (hline : '\n' ∉ blank)
    (hblank : blank.all isBlank = true) (front rest : List Char) :
    pruneFrom line (front ++ '\n' :: (blank ++ '\n' :: rest)) =
      pruneFrom line (front ++ '\n' :: rest) := by
  induction front generalizing line with
  | nil =>
      rw [List.nil_append, List.nil_append, pruneFrom, pruneFrom, if_pos rfl, if_pos rfl,
        pruneFrom_line hline, List.nil_append, if_pos hblank, List.nil_append]
  | cons c front ih =>
      rw [List.cons_append, List.cons_append, pruneFrom, pruneFrom, ih, ih]

/-- A blank line more or less. -/
theorem prune_blank {blank : List Char} (hline : '\n' ∉ blank)
    (hblank : blank.all isBlank = true) (front rest : List Char) :
    prune (front ++ '\n' :: (blank ++ '\n' :: rest)) = prune (front ++ '\n' :: rest) := by
  induction front with
  | nil =>
      rw [List.nil_append, List.nil_append, prune, prune, if_pos rfl, if_pos rfl,
        pruneFrom_line hline, List.nil_append, if_pos hblank, List.nil_append]
  | cons c front ih =>
      rw [List.cons_append, List.cons_append, prune, prune, pruneFrom_blank hline hblank, ih]

theorem pruneFrom_of_compact {line text : List Char} (h : Compact text)
    (hfirst : ∀ more rest, text = more ++ '\n' :: rest → '\n' ∉ more →
      (line ++ more).all isBlank = false) : pruneFrom line text = line ++ text := by
  induction text generalizing line with
  | nil => rw [pruneFrom, List.append_nil]
  | cons c text ih =>
      rw [pruneFrom]
      by_cases hc : c = '\n'
      · -- the line ends here, and what follows the newline begins another one
        subst hc
        have hline := hfirst [] text rfl List.not_mem_nil
        rw [List.append_nil] at hline
        rw [if_pos rfl, hline, ih h.tail fun more rest htext hmore => ?_]
        · simp
        · rw [htext] at h
          exact @Compact.line_not_blank [] more rest h hmore
      · rw [if_neg hc, ih h.tail fun more rest htext hmore => ?_]
        · simp
        · rw [List.append_assoc]
          refine hfirst (c :: more) rest (by rw [htext, List.cons_append]) ?_
          rw [List.mem_cons, not_or]
          exact ⟨Ne.symm hc, hmore⟩

/-- Nothing is left out of a compact text. -/
theorem prune_of_compact {text : List Char} (h : Compact text) : prune text = text := by
  induction text with
  | nil => rfl
  | cons c text ih =>
      rw [prune]
      split
      · next hc =>
        subst hc
        refine congrArg ('\n' :: ·) (pruneFrom_of_compact h.tail fun more rest htext hmore => ?_)
        rw [htext] at h
        exact @Compact.line_not_blank [] more rest h hmore
      · rw [ih h.tail]

end Monkey
