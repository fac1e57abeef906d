/-
Places in order.  Places are compared by line and then by column; the tokens of a text stand in
order, and the end token stands behind them all.
-/
import Monkey.Proofs.Lexing.Lossless

namespace Monkey

namespace Place

/-- Not behind: on an earlier line, or on the same one and in no later column. -/
protected def le (place place' : Place) : Prop :=
  place.line < place'.line ∨ place.line = place'.line ∧ place.column ≤ place'.column

instance : LE Place := ⟨Place.le⟩

theorem le_iff {place place' : Place} : place ≤ place' ↔
    place.line < place'.line ∨ place.line = place'.line ∧ place.column ≤ place'.column :=
  Iff.rfl

instance (place place' : Place) : Decidable (place ≤ place') :=
  decidable_of_iff _ le_iff.symm

theorem le_refl (place : Place) : place ≤ place :=
  Or.inr ⟨rfl, Int.le_refl _⟩

theorem le_trans {first second third : Place} (h : first ≤ second) (h' : second ≤ third) :
    first ≤ third := by
  rw [le_iff] at h h' ⊢
  omega

theorem le_next (place : Place) (c : Char) : place ≤ place.next c := by
  rw [le_iff, Place.next]
  split
  · exact Or.inl (Int.lt_succ place.line)
  · exact Or.inr ⟨rfl, Int.le_of_lt (Int.lt_succ place.column)⟩

theorem le_after (place : Place) (text : List Char) : place ≤ place.after text := by
  induction text generalizing place with
  | nil => exact le_refl place
  | cons c text ih =>
      rw [Place.after_cons]
      exact le_trans (place.le_next c) (ih (place.next c))

end Place

/-- The tokens stand one behind the other, or at the same place. -/
def InOrder (tokens : List Token) : Prop :=
  tokens.Pairwise fun token token' => token.place ≤ token'.place

/-- The tokens of marks stand in order, behind the place where the marks begin. -/
theorem inOrder_lay {place : Place} {marks : List Mark} {last : Token}
    (h : place.after (textOf marks) ≤ last.place) :
    InOrder (lay place marks ++ [last]) ∧
      ∀ token ∈ lay place marks ++ [last], place ≤ token.place := by
  induction marks generalizing place with
  | nil => exact ⟨List.pairwise_singleton _ _, List.forall_mem_singleton.mpr h⟩
  | cons mark marks ih =>
      rw [textOf_cons, Place.after_append] at h
      obtain ⟨horder, hbehind⟩ := ih h
      have hstep : ∀ token ∈ lay (place.after mark.text) marks ++ [last], place ≤ token.place :=
        fun token htoken => Place.le_trans (place.le_after mark.text) (hbehind token htoken)
      cases mark with
      | gap c => exact ⟨horder, hstep⟩
      | word kind literal =>
          exact ⟨List.pairwise_cons.mpr ⟨hstep, horder⟩,
            List.forall_mem_cons.mpr ⟨place.le_refl, hstep⟩⟩

/-- The tokens of a text stand in order, and the end token behind them. -/
theorem inOrder_tokenize (source : String) :
    InOrder ((tokenize source).tokens ++ [(tokenize source).eof]) := by
  obtain ⟨marks, htext, htokens, _⟩ := (Cursor.ofText source).exists_marks
  rw [tokenize, htokens]
  refine (inOrder_lay ?_).1
  rw [htext]
  exact Place.le_refl _

end Monkey
