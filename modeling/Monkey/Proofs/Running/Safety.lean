/-
Programs that parse without errors cannot go wrong.  On every machine that such programs lead to
they come to a value that can be shown, or meet the limit on the depth of evaluation, and a value
they come to is the same under every higher limit.
-/
import Monkey.Proofs.Running.Code
import Monkey.Proofs.Running.Depth

namespace Monkey

theorem Value.shown_shown (value : Value) : value.shown.shown = value.shown := by
  cases value <;> rfl

theorem shown_of_program {statements : List Node} {depth : Nat} {frame : FrameId}
    {machine after : Machine} {value : Value}
    (h : (Node.program statements).eval depth frame machine = .ok value after) :
    value.shown = value := by
  cases depth with
  | zero => cases h
  | succ depth =>
      simp only [Node.eval, Bind.bind, EStateM.bind] at h
      split at h
      · cases h
        exact Value.shown_shown _
      · cases h

/-- A program without parse errors ends with a value, nil or an error value, unless it enters as
many nodes as evaluation may be deep. -/
theorem Parses.ends {source : String} {program : Node} (h : Parses source program)
    {machine : Machine} (hmachine : machine.Reachable) (depth : Nat) (frame : FrameId) :
    (∃ value after, value.shown = value ∧
        ∀ deeper, depth ≤ deeper → program.eval deeper frame machine = .ok value after) ∨
      ∃ after, program.eval depth frame machine = .error .tooDeep after ∧
        depth ≤ entryCount (program.trace depth .passed frame machine).1 := by
  obtain ⟨statements, rfl, _⟩ := h.complete
  obtain ⟨_, hstops⟩ := h.sound.eval depth frame hmachine.unbroken
  cases hrun : (Node.program statements).eval depth frame machine with
  | error fault after =>
      obtain ⟨rfl, hcount⟩ := hstops fault after hrun
      exact Or.inr ⟨after, rfl, hcount⟩
  | ok value after =>
      refine Or.inl ⟨value, after, shown_of_program hrun, fun deeper hle => ?_⟩
      rcases Node.eval_within hle (.program statements) frame machine with ⟨_, hdeep⟩ | hsame
      · rw [hrun] at hdeep
        cases hdeep
      · rw [hsame, hrun]

/-- A program that divides by zero ends with an error value, also when it is run again. -/
theorem zeroDivision_ends : ∃ (program : Node) (value : Value) (after : Machine),
    Parses "let divide = fn(x, y) { x / y }; divide(1, 0)" program ∧ value.shown = value ∧
      ∀ deeper, 20 ≤ deeper →
        program.eval deeper rootFrame ((program.eval 20 rootFrame).leaves .start) =
          .ok value after := by
  obtain ⟨program, hparses, hends⟩ : ∃ program,
      Parses "let divide = fn(x, y) { x / y }; divide(1, 0)" program ∧
        (match program.eval 20 rootFrame ((program.eval 20 rootFrame).leaves .start) with
          | .ok value _ => value.isError
          | .error _ _ => false) = true :=
    exists_parses (by decide +kernel) (by decide +kernel)
  have hreachable : ((program.eval 20 rootFrame).leaves .start).Reachable :=
    .leaves .start hparses.parsed
  rcases hparses.ends hreachable 20 rootFrame with ⟨value, after, hshown, hrun⟩ | ⟨after, hdeep, _⟩
  · exact ⟨program, value, after, hparses, hshown, hrun⟩
  · rw [hdeep] at hends
    cases hends

end Monkey
