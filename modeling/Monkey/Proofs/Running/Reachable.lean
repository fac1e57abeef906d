/-
The machines that programs without parse errors lead to: between programs, wherever a node is
entered, and wherever it is done.
-/
import Monkey.Proofs.Parsing.Programs
import Monkey.Proofs.Rendering.Parts
import Monkey.Proofs.Running.Effect
import Monkey.Proofs.Running.Errors

namespace Monkey

/-- The node is part of a program that parses without errors. -/
def Node.Parsed (node : Node) : Prop :=
  ∃ source program, Parses source program ∧ node ∈ program.parts

theorem Parses.parsed {source : String} {program : Node} (h : Parses source program) :
    program.Parsed := by
  refine ⟨source, program, h, ?_⟩
  rw [Node.parts_eq]
  exact List.mem_cons_self

inductive Machine.Reachable : Machine → Prop where
  | start : Reachable .start
  /-- A frame is opened to run programs in. -/
  | opens {machine : Machine} (h : Reachable machine) :
      Reachable ((Action.openFrame none).leaves machine)
  /-- What a program has shown is taken away. -/
  | drains {machine : Machine} (h : Reachable machine) : Reachable { machine with events := #[] }
  | enters {machine mid : Machine} {node entered : Node} {depth : Nat} {use : Use}
      {frame inside : FrameId} (h : Reachable machine) (hnode : node.Parsed)
      (hmid : .enters entered inside mid ∈ (node.trace depth use frame machine).1) :
      Reachable mid
  | leaves {machine : Machine} {node : Node} {depth : Nat} {frame : FrameId}
      (h : Reachable machine) (hnode : node.Parsed) :
      Reachable ((node.eval depth frame).leaves machine)

/-- A run on a machine that holds no error: nothing holds one at any point. -/
theorem trace_clear {machine : Machine} (h : machine.Clear Value.isError) (depth : Nat) (use : Use)
    (node : Node) (frame : FrameId) :
    (node.trace depth use frame machine).Clear Value.isError := by
  rcases Watch.errors.hands_trace depth use node frame machine h with hfine | hstopped
  · exact (EndsAtError.of_fine hfine).clear
  · exact (EndsAtError.of_stopped hstopped).clear

theorem Ends.leaves {α : Type} {bad : Value → Bool} {good : α → Prop} {action : Action α}
    {machine : Machine} (h : Ends bad good (action machine)) :
    (action.leaves machine).Clear bad := by
  unfold Action.leaves
  cases hrun : action machine with
  | ok value after =>
      rw [hrun] at h
      exact h.2
  | error fault after =>
      rw [hrun] at h
      exact h

/-- No reachable machine holds an error. -/
theorem Machine.Reachable.clear {machine : Machine} (h : machine.Reachable) :
    machine.Clear Value.isError := by
  induction h with
  | start => exact clear_start
  | opens _ ih => exact Store.Clear.open ih none
  | drains _ ih => exact ih
  | enters _ _ hmid ih => exact (trace_clear ih _ _ _ _).holds _ hmid
  | @leaves machine node depth frame _ _ ih =>
      have hends := (trace_clear ih depth .passed node frame).leaves
      rw [Node.trace_result] at hends
      exact hends.leaves

end Monkey
