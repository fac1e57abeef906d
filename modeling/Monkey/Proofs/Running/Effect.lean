/-
What running code in a frame may do to a machine.  From what single steps may do, and from a call
being allowed whatever its new frame allows, it follows for whole runs.
-/
import Monkey.Eval

namespace Monkey

variable {α β : Type}

/-- The machine that an action leaves, whether it ends or is stopped. -/
def Action.leaves (action : Action α) (machine : Machine) : Machine :=
  match action machine with
  | .ok _ after | .error _ after => after

theorem Action.leaves_bind {action : Action α} {go : α → Action β} {machine : Machine} :
    (∃ value, (action >>= go).leaves machine = (go value).leaves (action.leaves machine)) ∨
      (action >>= go).leaves machine = action.leaves machine := by
  unfold Action.leaves
  cases hrun : action machine with
  | ok value after =>
      exact Or.inl ⟨value, by simp only [Bind.bind, EStateM.bind, hrun]⟩
  | error fault after =>
      exact Or.inr (by simp only [Bind.bind, EStateM.bind, hrun])

/-- What may become of a machine while code runs in a frame. -/
structure Effect where
  allows : FrameId → Machine → Machine → Prop
  refl : ∀ {frame machine}, allows frame machine machine
  trans : ∀ {frame machine mid after}, allows frame machine mid → allows frame mid after →
    allows frame machine after
  newIdentity : ∀ {frame machine}, allows frame machine (Action.newIdentity.leaves machine)
  emit : ∀ {frame machine event}, allows frame machine ((Action.emit event).leaves machine)
  locate : ∀ {frame machine identity token},
    allows frame machine ((Action.locate identity token).leaves machine)
  bindName : ∀ {frame machine name value},
    allows frame machine ((Action.bindName frame name value).leaves machine)
  /-- A call may do what its own frame allows, once that is open. -/
  call : ∀ {frame machine outer after},
    allows machine.store.frames.size ((Action.openFrame outer).leaves machine) after →
      allows frame machine after

namespace Effect

variable {effect : Effect} {frame : FrameId}

/-- The action does no more than is allowed in the frame. -/
def Covers (effect : Effect) (frame : FrameId) (action : Action α) : Prop :=
  ∀ machine, effect.allows frame machine (action.leaves machine)

theorem covers_pure (value : α) : effect.Covers frame (pure value) :=
  fun _ => effect.refl

theorem covers_throw (fault : Fault) : effect.Covers frame (throw fault : Action α) :=
  fun _ => effect.refl

theorem Covers.bind {action : Action α} {go : α → Action β} (h : effect.Covers frame action)
    (hgo : ∀ value, effect.Covers frame (go value)) : effect.Covers frame (action >>= go) := by
  intro machine
  rcases @Action.leaves_bind α β action go machine with ⟨value, heq⟩ | heq
  · rw [heq]
    exact effect.trans (h machine) (hgo value _)
  · rw [heq]
    exact h machine

theorem covers_ofExcept (result : Except Fault α) :
    effect.Covers frame (Action.ofExcept result) := by
  cases result with
  | ok value => exact covers_pure value
  | error fault => exact covers_throw fault

theorem covers_newIdentity : effect.Covers frame Action.newIdentity :=
  fun _ => effect.newIdentity

theorem covers_newArray (elements : List Value) :
    effect.Covers frame (Action.newArray elements) :=
  covers_newIdentity.bind fun _ => covers_pure _

theorem covers_lookup (inside : FrameId) (name : Label) :
    effect.Covers frame (Action.lookup inside name) :=
  fun _ => effect.refl

theorem covers_emit (event : Event) : effect.Covers frame (Action.emit event) :=
  fun _ => effect.emit

theorem covers_bindName (name : Label) (value : Value) :
    effect.Covers frame (Action.bindName frame name value) :=
  fun _ => effect.bindName

/-! ### Lists of nodes -/

theorem covers_unlessError {value : Value} {go : Value → Action Value}
    (h : ∀ value, effect.Covers frame (go value)) :
    effect.Covers frame (unlessError value go) := by
  unfold unlessError
  split
  · exact covers_pure value
  · exact h value

theorem covers_evalAll {eval : Node → Action Value} (h : ∀ node, effect.Covers frame (eval node))
    (nodes : List Node) : effect.Covers frame (evalAll eval nodes) := by
  induction nodes with
  | nil => exact covers_pure _
  | cons node rest ih =>
      apply (h node).bind
      intro value
      split
      · exact covers_pure _
      · exact ih.bind fun _ => covers_pure _

theorem covers_runBlock {eval : Node → Action Value} (h : ∀ node, effect.Covers frame (eval node))
    (last : Value) (nodes : List Node) : effect.Covers frame (runBlock eval last nodes) := by
  induction nodes generalizing last with
  | nil => exact covers_pure last
  | cons node rest ih =>
      apply (h node).bind
      intro value
      split
      · exact covers_pure value
      · exact ih value

theorem covers_evalPairs {eval : Node → Action Value}
    (h : ∀ node, effect.Covers frame (eval node)) (entries : List (Key × Value))
    (pairs : List (Node × Node)) : effect.Covers frame (evalPairs eval entries pairs) := by
  induction pairs generalizing entries with
  | nil => exact covers_pure _
  | cons pair rest ih =>
      apply (h pair.1).bind
      intro keyValue
      split
      · exact covers_pure _
      · cases keyValue.key? with
        | none => exact covers_pure _
        | some key =>
            apply (h pair.2).bind
            intro value
            split
            · exact covers_pure _
            · exact ih _

/-! ### Calls and names -/

theorem covers_run (builtin : Builtin) (arguments : List Value) :
    effect.Covers frame (builtin.run arguments) := by
  cases builtin with
  | puts => exact (covers_emit _).bind fun _ => covers_pure _
  | first | last => exact covers_pure _
  | toStr | len =>
      simp only [Builtin.run]
      split <;> exact covers_pure _
  | rest =>
      simp only [Builtin.run]
      split
      · exact covers_pure _
      · split
        · exact covers_pure _
        · exact (covers_newArray _).bind fun _ => covers_pure _
  | push =>
      simp only [Builtin.run]
      split
      · exact (covers_newArray _).bind fun _ => covers_pure _
      · exact covers_pure _
      · exact covers_pure _

theorem covers_locateError (token : Option Token) (value : Value) :
    effect.Covers frame (locateError token value) := by
  unfold locateError
  split
  · next identity token =>
      cases identity with
      | none => exact (covers_pure ()).bind fun _ => covers_pure _
      | some identity =>
          have hlocate : effect.Covers frame (Action.locate identity token) :=
            fun _ => effect.locate
          exact hlocate.bind fun _ => covers_pure _
  · exact covers_pure _

theorem covers_bindParameters (pairs : List (Node × Value)) :
    effect.Covers frame (bindParameters frame pairs) := by
  induction pairs with
  | nil => exact covers_pure ()
  | cons pair rest ih =>
      apply (covers_ofExcept _).bind
      intro label
      exact (covers_bindName label pair.2).bind fun _ => ih

/-- A call does what is allowed in any frame, because it runs in a new one. -/
theorem covers_applyValue {eval : Node → FrameId → Action Value}
    (h : ∀ node inside, effect.Covers inside (eval node inside)) (token : Option Token)
    (callee : Value) (arguments : List Value) :
    effect.Covers frame (applyValue eval token callee arguments) := by
  cases callee with
  | builtin builtin =>
      apply Covers.bind
      · exact (covers_run builtin arguments).bind fun _ => covers_pure _
      · exact covers_locateError token
  | function identity parameters body outer =>
      simp only [applyValue]
      split
      · exact covers_pure _
      · intro machine
        apply effect.call
        have hbody : effect.Covers machine.store.frames.size (do
            bindParameters machine.store.frames.size (parameters.zip arguments)
            return (← eval body machine.store.frames.size).unwrap) :=
          (covers_bindParameters _).bind fun _ => (h body _).bind fun _ => covers_pure _
        exact hbody ((Action.openFrame (some outer)).leaves machine)
  | _ => exact covers_pure _

theorem covers_bindLet (name : Node) (value : Value) :
    effect.Covers frame (bindLet frame name value) := by
  apply (covers_ofExcept _).bind
  intro label
  have hbind : effect.Covers frame
      (Action.bindName frame label value >>= fun _ => pure Value.nil) :=
    (covers_bindName label value).bind fun _ => covers_pure _
  cases label with
  | name text =>
      simp only
      split
      · exact (covers_emit _).bind fun _ => hbind
      · exact hbind
  | _ => exact hbind

theorem covers_evalName (token : Option Token) (name : String) :
    effect.Covers frame (evalName frame token name) := by
  unfold evalName
  cases Builtin.ofName? name with
  | some builtin => exact covers_pure _
  | none =>
      apply (covers_lookup frame _).bind
      intro found
      cases found <;> exact covers_pure _

/-- Whatever a node does in a frame is allowed there. -/
theorem covers_eval (depth : Nat) (node : Node) (frame : FrameId) :
    effect.Covers frame (node.eval depth frame) := by
  induction depth generalizing node frame with
  | zero => exact covers_throw .tooDeep
  | succ depth ih =>
      have heval (node : Node) : effect.Covers frame (node.eval depth frame) := ih node frame
      cases node with
      | missing | int | string | bool => exact covers_pure _
      | text | flag => exact covers_throw _
      | program statements =>
          exact (covers_runBlock heval .nil statements).bind fun _ => covers_pure _
      | exprStmt token expression => exact heval expression
      | letStmt token name value =>
          apply (heval value).bind
          intro value
          exact covers_unlessError fun value => covers_bindLet name value
      | returnStmt token value =>
          apply (heval value).bind
          intro value
          exact covers_unlessError fun _ => covers_newIdentity.bind fun _ => covers_pure _
      | block token statements => exact covers_runBlock heval .nil statements
      | ident token name => exact covers_evalName token name
      | prefixOp token operator right =>
          exact (heval right).bind fun _ => covers_unlessError fun _ => covers_pure _
      | infixOp token left operator right | index token left right =>
          apply (heval left).bind
          intro value
          apply covers_unlessError
          intro left
          exact (heval right).bind fun _ => covers_unlessError fun _ => covers_pure _
      | ifElse token condition consequence alternative =>
          apply (heval condition).bind
          intro value
          apply covers_unlessError
          intro condition
          split
          · exact heval consequence
          · exact heval alternative
      | function token parameters body => exact covers_newIdentity.bind fun _ => covers_pure _
      | call token callee arguments =>
          apply (heval callee).bind
          intro value
          apply covers_unlessError
          intro callee
          apply (covers_evalAll heval arguments).bind
          intro result
          cases result with
          | error error => exact covers_pure error
          | ok arguments => exact covers_applyValue ih token callee arguments
      | array token elements =>
          apply (covers_evalAll heval elements).bind
          intro result
          cases result with
          | error error => exact covers_pure error
          | ok elements => exact covers_newArray elements
      | hash token pairs =>
          apply (covers_evalPairs heval [] pairs).bind
          intro result
          cases result with
          | error error => exact covers_pure error
          | ok entries => exact covers_newIdentity.bind fun _ => covers_pure _

end Effect

end Monkey
