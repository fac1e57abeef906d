/-
The limit on the depth of evaluation.  A run that does not meet the limit is the same under every
higher one, so what it gives does not depend on the limit.
-/
import Monkey.Eval

namespace Monkey

variable {α β : Type}

/-- The other action does what this one does, unless this one is nested too deep. -/
def Action.Within (action other : Action α) : Prop :=
  ∀ machine, (∃ after, action machine = .error .tooDeep after) ∨ other machine = action machine

theorem within_refl (action : Action α) : action.Within action :=
  fun _ => Or.inr rfl

theorem within_tooDeep (other : Action α) : Action.Within (throw .tooDeep) other :=
  fun machine => Or.inl ⟨machine, rfl⟩

theorem Action.Within.bind {action other : Action α} {go go' : α → Action β}
    (h : action.Within other) (hgo : ∀ value, (go value).Within (go' value)) :
    (action >>= go).Within (other >>= go') := by
  intro machine
  simp only [Bind.bind, EStateM.bind]
  rcases h machine with ⟨after, hdeep⟩ | hsame
  · exact Or.inl ⟨after, by rw [hdeep]⟩
  · rw [hsame]
    cases action machine with
    | ok value after => exact hgo value after
    | error fault after => exact Or.inr rfl

theorem Action.Within.andThen {action other : Action α} (h : action.Within other)
    (go : α → Action β) : (action >>= go).Within (other >>= go) :=
  h.bind fun value => within_refl (go value)

/-! ### Lists of nodes -/

theorem within_unlessError (value : Value) {go go' : Value → Action Value}
    (h : ∀ value, (go value).Within (go' value)) :
    (unlessError value go).Within (unlessError value go') := by
  unfold unlessError
  split
  · exact within_refl _
  · exact h value

section

variable {eval eval' : Node → Action Value} (h : ∀ node, (eval node).Within (eval' node))

include h

theorem within_evalAll (nodes : List Node) :
    (evalAll eval nodes).Within (evalAll eval' nodes) := by
  induction nodes with
  | nil => exact within_refl _
  | cons node rest ih =>
      apply (h node).bind
      intro value
      split
      · exact within_refl _
      · exact ih.andThen _

theorem within_runBlock (last : Value) (nodes : List Node) :
    (runBlock eval last nodes).Within (runBlock eval' last nodes) := by
  induction nodes generalizing last with
  | nil => exact within_refl _
  | cons node rest ih =>
      apply (h node).bind
      intro value
      split
      · exact within_refl _
      · exact ih value

theorem within_evalPairs (entries : List (Key × Value)) (pairs : List (Node × Node)) :
    (evalPairs eval entries pairs).Within (evalPairs eval' entries pairs) := by
  induction pairs generalizing entries with
  | nil => exact within_refl _
  | cons pair rest ih =>
      apply (h pair.1).bind
      intro keyValue
      split
      · exact within_refl _
      · cases keyValue.key? with
        | none => exact within_refl _
        | some key =>
            apply (h pair.2).bind
            intro value
            split
            · exact within_refl _
            · exact ih _

end

theorem within_applyValue {eval eval' : Node → FrameId → Action Value}
    (h : ∀ node frame, (eval node frame).Within (eval' node frame)) (token : Option Token)
    (callee : Value) (arguments : List Value) :
    (applyValue eval token callee arguments).Within (applyValue eval' token callee arguments) := by
  cases callee with
  | function identity parameters body outer =>
      simp only [applyValue]
      split
      · exact within_refl _
      · apply (within_refl _).bind
        intro frame
        apply (within_refl _).bind
        intro _
        exact (h body frame).andThen _
  | _ => exact within_refl _

/-- One more level changes nothing for what does not need it. -/
theorem Node.eval_within_succ (depth : Nat) (node : Node) (frame : FrameId) :
    (node.eval depth frame).Within (node.eval (depth + 1) frame) := by
  induction depth generalizing node frame with
  | zero => exact within_tooDeep _
  | succ depth ih =>
      have heval (node : Node) : (node.eval depth frame).Within (node.eval (depth + 1) frame) :=
        ih node frame
      unfold Node.eval
      cases node with
      | missing | text | flag | ident | int | string | bool | function => exact within_refl _
      | program statements => exact (within_runBlock heval .nil statements).andThen _
      | exprStmt token expression => exact heval expression
      | letStmt token name value | returnStmt token value | prefixOp token operator value =>
          exact (heval value).andThen _
      | block token statements => exact within_runBlock heval .nil statements
      | infixOp token left operator right | index token left right =>
          apply (heval left).bind
          intro value
          apply within_unlessError
          intro left
          exact (heval right).andThen _
      | ifElse token condition consequence alternative =>
          apply (heval condition).bind
          intro value
          apply within_unlessError
          intro condition
          split
          · exact heval consequence
          · exact heval alternative
      | call token callee arguments =>
          apply (heval callee).bind
          intro value
          apply within_unlessError
          intro callee
          apply (within_evalAll heval arguments).bind
          intro result
          cases result with
          | error error => exact within_refl _
          | ok arguments => exact within_applyValue ih token callee arguments
      | array token elements => exact (within_evalAll heval elements).andThen _
      | hash token pairs => exact (within_evalPairs heval [] pairs).andThen _

/-- A run that is not too deep under one limit is the same under every higher one. -/
theorem Node.eval_within {depth deeper : Nat} (h : depth ≤ deeper) (node : Node)
    (frame : FrameId) : (node.eval depth frame).Within (node.eval deeper frame) := by
  induction h with
  | refl => exact within_refl _
  | @step deeper _ ih =>
      intro machine
      rcases ih machine with hdeep | hsame
      · exact Or.inl hdeep
      · rw [← hsame]
        exact Node.eval_within_succ deeper node frame machine

end Monkey
