/-
What happens while a program runs, in order: nodes that are entered, errors that are made, values
that are kept or bound, returns, and what is shown to the outside.  The traced evaluator does what
the evaluator does and writes this down; leaving out what it writes down gives the evaluator.
-/
import Monkey.Eval

namespace Monkey

/-- What the value of a node is wanted for. -/
inductive Use where
  /-- It is handed on to the block, the call or the program around the node. -/
  | passed
  /-- It is bound, returned or operated on, or becomes an element, an entry or an argument. -/
  | kept
  /-- It is called, decided on, or made the key of an entry. -/
  | tested
deriving DecidableEq

inductive Occurrence where
  | enters (node : Node) (frame : FrameId) (machine : Machine)
  /-- A node makes an error value of its own. -/
  | makes (node : Node) (problem : Problem) (machine : Machine)
  /-- A built-in function refuses what a call gives it. -/
  | refuses (builtin : Builtin) (call : Node) (problem : Problem) (machine : Machine)
  | binds (frame : FrameId) (name : Label) (value : Value)
  | keeps (value : Value)
  /-- A return statement has its value, and hands it on wrapped. -/
  | returns (use : Use)
  /-- The value of a call. -/
  | gives (value : Value)
  | shows (event : Event)

/-- The error that is made, and the machine it is made on. -/
def Occurrence.made? : Occurrence → Option (Value × Machine)
  | .makes node problem machine | .refuses _ node problem machine =>
      some (problem.error node.token?, machine)
  | _ => none

def Occurrence.isEntry : Occurrence → Bool
  | .enters .. => true
  | _ => false

/-- What occurs in a run, and how the run ends. -/
abbrev Outcome (α : Type) : Type :=
  List Occurrence × EStateM.Result Fault Machine α

/-- An action that also gives what occurs. -/
def Traced (α : Type) : Type :=
  Machine → Outcome α

namespace Traced

variable {α β : Type}

instance : Monad Traced where
  pure value := fun machine => ([], .ok value machine)
  bind traced go := fun machine =>
    match traced machine with
    | (trace, .ok value after) => (trace ++ (go value after).1, (go value after).2)
    | (trace, .error fault after) => (trace, .error fault after)

def act (action : Action α) : Traced α :=
  fun machine => ([], action machine)

def note (occurrence : Occurrence) : Traced Unit :=
  fun machine => ([occurrence], .ok () machine)

def enter (node : Node) (frame : FrameId) : Traced Unit :=
  fun machine => ([.enters node frame machine], .ok () machine)

/-- Goes on with a value, or makes an error at a node. -/
def raise (node : Node) : Except Problem Value → Traced Value
  | .ok value => pure value
  | .error problem => fun machine =>
      ([.makes node problem machine], .ok (problem.error node.token?) machine)

/-- Writes down what a value is used for; an error is not used. -/
def record (occurrence : Value → Occurrence) (value : Value) : Traced Value :=
  if value.isError then pure value
  else do
    note (occurrence value)
    return value

def keep (eval : Node → Traced Value) (node : Node) : Traced Value := do
  record .keeps (← eval node)

def emit (event : Event) : Traced Unit := do
  note (.shows event)
  act (Action.emit event)

def bindName (frame : FrameId) (name : Label) (value : Value) : Traced Unit := do
  note (.binds frame name value)
  act (Action.bindName frame name value)

/-- The action alone. -/
def erase (traced : Traced α) : Action α :=
  fun machine => (traced machine).2

end Traced

open Traced

def tracePairs (eval : Use → Node → Traced Value) (entries : List (Key × Value)) :
    List (Node × Node) → Traced (Except Value (List (Key × Value)))
  | [] => pure (.ok entries)
  | (keyNode, valueNode) :: rest => do
      let keyValue ← eval .tested keyNode
      if keyValue.isError then pure (.error keyValue)
      else match keyValue.key? with
        | none => return .error (← raise keyNode (.error (.unusableKey keyValue.typeName)))
        | some key =>
            note (.keeps key.value)
            let value ← keep (eval .kept) valueNode
            if value.isError then pure (.error value)
            else tracePairs eval (insertEntry key value entries) rest

def traceParameters (frame : FrameId) : List (Node × Value) → Traced Unit
  | [] => pure ()
  | (parameter, value) :: rest => do
      Traced.bindName frame (← act (Action.ofExcept parameter.label)) value
      traceParameters frame rest

def Builtin.trace (builtin : Builtin) (arguments : List Value) :
    Traced (Except Problem Value) := do
  match builtin with
  | .puts => note (.shows (.wrote (String.join (arguments.map Value.display))))
  | _ => pure ()
  act (builtin.run arguments)

/-- Calls a value for the node `.call token callee arguments`. -/
def traceApply (eval : Node → FrameId → Traced Value) (token : Option Token) (callee : Node)
    (arguments : List Node) (function : Value) (values : List Value) : Traced Value :=
  match function with
  | .builtin builtin => do
      match ← builtin.trace values with
      | .ok value => act (locateError token value)
      | .error problem => fun machine =>
          ([.refuses builtin (.call token callee arguments) problem machine],
            .ok (problem.error token) machine)
  | .function _ parameters body outer =>
      if values.length ≠ parameters.length then
        raise (.call token callee arguments)
          (.error (.argumentCount parameters.length values.length))
      else do
        let frame ← act (Action.openFrame (some outer))
        traceParameters frame (parameters.zip values)
        return (← eval body frame).unwrap
  | _ => raise (.call token callee arguments) (.error (.notFunction function.typeName))

def traceLet (frame : FrameId) (name : Node) (value : Value) : Traced Value := do
  let label ← act (Action.ofExcept name.label)
  match label with
  | .name text =>
      if (Builtin.ofName? text).isSome then
        Traced.emit (.warned
          ("'" ++ text ++ "' is a built-in function, so this binding will never be looked up")
          name.token?)
  | _ => pure ()
  Traced.bindName frame label value
  pure .nil

def traceName (frame : FrameId) (token : Option Token) (name : String) : Traced Value :=
  match Builtin.ofName? name with
  | some builtin => pure (.builtin builtin)
  | none => do
      match ← act (Action.lookup frame (.name name)) with
      | some value => pure value
      | none => raise (.ident token name) (.error (.notFound name))

/-- Evaluates a node, whose value is wanted for a use, and writes down what occurs.  A block and
the branches of an if hand on for the same use; so does the expression of a statement. -/
def Node.trace : Nat → Use → Node → FrameId → Traced Value
  | 0, _, _, _ => act (throw .tooDeep)
  | depth + 1, use, node, frame => do
      let eval (use : Use) (node : Node) : Traced Value := node.trace depth use frame
      enter node frame
      match node with
      | .missing => pure .nil
      | .text _ | .flag _ => act (throw (.notEvaluable node.className))
      | .program statements => do
          return (← runBlock (eval .passed) .nil statements).unwrap.shown
      | .exprStmt _ expression => eval use expression
      | .letStmt _ name value => do
          unlessError (← keep (eval .kept) value) (traceLet frame name)
      | .returnStmt _ value => do
          unlessError (← keep (eval .kept) value) fun value => do
            note (.returns use)
            return .returned (← act Action.newIdentity) value
      | .block _ statements => runBlock (eval use) .nil statements
      | .ident token name => traceName frame token name
      | .int _ value => pure (.int value)
      | .string _ value => pure (.string value)
      | .bool _ value => pure (.bool value)
      | .prefixOp _ operator right => do
          unlessError (← keep (eval .kept) right) fun right =>
            raise node (applyPrefix operator right)
      | .infixOp _ left operator right => do
          unlessError (← keep (eval .kept) left) fun left => do
            unlessError (← keep (eval .kept) right) fun right =>
              raise node (applyInfix operator left right)
      | .ifElse _ condition consequence alternative => do
          unlessError (← eval .tested condition) fun condition =>
            if condition.isTruthy then eval use consequence else eval use alternative
      | .function _ parameters body => do
          return .function (← act Action.newIdentity) parameters body frame
      | .call token callee arguments => do
          unlessError (← eval .tested callee) fun function => do
            match ← evalAll (keep (eval .kept)) arguments with
            | .error error => pure error
            | .ok values => do
                let value ← traceApply (fun body frame => body.trace depth .passed frame)
                  token callee arguments function values
                record .gives value
      | .array _ elements => do
          match ← evalAll (keep (eval .kept)) elements with
          | .error error => pure error
          | .ok elements => act (Action.newArray elements)
      | .index _ left position => do
          unlessError (← keep (eval .kept) left) fun left => do
            unlessError (← keep (eval .kept) position) fun position =>
              raise node (applyIndex left position)
      | .hash _ pairs => do
          match ← tracePairs eval [] pairs with
          | .error error => pure error
          | .ok entries => return .hash (← act Action.newIdentity) entries

/-! ### Leaving the trace out -/

namespace Traced

variable {α β : Type}

@[simp] theorem erase_pure (value : α) : (pure value : Traced α).erase = pure value :=
  rfl

@[simp] theorem erase_bind (traced : Traced α) (go : α → Traced β) :
    (traced >>= go).erase = traced.erase >>= fun value => (go value).erase := by
  funext machine
  simp only [erase, bind, EStateM.bind]
  cases traced machine with
  | mk trace result => cases result <;> rfl

@[simp] theorem erase_act (action : Action α) : (act action).erase = action :=
  rfl

@[simp] theorem erase_note (occurrence : Occurrence) : (note occurrence).erase = pure () :=
  rfl

@[simp] theorem erase_enter (node : Node) (frame : FrameId) :
    (enter node frame).erase = pure () :=
  rfl

@[simp] theorem erase_raise (node : Node) (result : Except Problem Value) :
    (raise node result).erase = pure (settle node.token? result) := by
  cases result <;> rfl

@[simp] theorem erase_record (occurrence : Value → Occurrence) (value : Value) :
    (record occurrence value).erase = pure value := by
  unfold record
  split <;> simp

@[simp] theorem erase_keep (eval : Node → Traced Value) (node : Node) :
    (keep eval node).erase = (eval node).erase := by
  simp [keep]

@[simp] theorem erase_emit (event : Event) : (emit event).erase = Action.emit event := by
  simp [emit]

@[simp] theorem erase_bindName (frame : FrameId) (name : Label) (value : Value) :
    (bindName frame name value).erase = Action.bindName frame name value := by
  simp [bindName]

theorem erase_unlessError (value : Value) (go : Value → Traced Value) :
    (unlessError value go).erase = unlessError value fun value => (go value).erase := by
  unfold unlessError
  split <;> rfl

theorem erase_evalAll (eval : Node → Traced Value) (nodes : List Node) :
    (evalAll eval nodes).erase = evalAll (fun node => (eval node).erase) nodes := by
  induction nodes with
  | nil => rfl
  | cons node rest ih =>
      simp only [evalAll, erase_bind]
      congr 1
      funext value
      split
      · rfl
      · simp [ih]

theorem erase_runBlock (eval : Node → Traced Value) (last : Value) (nodes : List Node) :
    (runBlock eval last nodes).erase = runBlock (fun node => (eval node).erase) last nodes := by
  induction nodes generalizing last with
  | nil => rfl
  | cons node rest ih =>
      simp only [runBlock, erase_bind]
      congr 1
      funext value
      split
      · rfl
      · exact ih value

end Traced

theorem erase_tracePairs (eval : Use → Node → Traced Value) (eval' : Node → Action Value)
    (h : ∀ use node, (eval use node).erase = eval' node) (entries : List (Key × Value))
    (pairs : List (Node × Node)) :
    (tracePairs eval entries pairs).erase = evalPairs eval' entries pairs := by
  induction pairs generalizing entries with
  | nil => rfl
  | cons pair rest ih =>
      obtain ⟨keyNode, valueNode⟩ := pair
      simp only [tracePairs, evalPairs, erase_bind, h]
      congr 1
      funext keyValue
      split
      · rfl
      · cases keyValue.key? with
        | none => rfl
        | some key =>
            simp only [erase_bind, erase_note, erase_keep, h, pure_bind]
            congr 1
            funext value
            split
            · rfl
            · exact ih _

theorem erase_traceParameters (frame : FrameId) (pairs : List (Node × Value)) :
    (traceParameters frame pairs).erase = bindParameters frame pairs := by
  induction pairs with
  | nil => rfl
  | cons pair rest ih => simp [traceParameters, bindParameters, ih]

@[simp] theorem erase_builtinTrace (builtin : Builtin) (arguments : List Value) :
    (builtin.trace arguments).erase = builtin.run arguments := by
  unfold Builtin.trace
  cases builtin <;> simp

/-- An error that a built-in function makes is given the token of the call. -/
theorem locateError_settle (token : Option Token) (result : Except Problem Value) :
    locateError token (settle none result) =
      match result with
      | .ok value => locateError token value
      | .error problem => pure (problem.error token) := by
  cases result with
  | ok value => rfl
  | error problem => cases token <;> rfl

theorem erase_traceApply (eval : Node → FrameId → Traced Value)
    (eval' : Node → FrameId → Action Value)
    (h : ∀ node frame, (eval node frame).erase = eval' node frame) (token : Option Token)
    (callee : Node) (arguments : List Node) (function : Value) (values : List Value) :
    (traceApply eval token callee arguments function values).erase =
      applyValue eval' token function values := by
  cases function with
  | builtin builtin =>
      simp only [traceApply, applyValue, Builtin.apply, erase_bind, erase_builtinTrace,
        bind_assoc, pure_bind]
      congr 1
      funext result
      rw [locateError_settle]
      cases result <;> rfl
  | function identity parameters body outer =>
      simp only [traceApply, applyValue]
      split
      · rfl
      · simp [erase_traceParameters, h]
  | _ => rfl

theorem erase_traceLet (frame : FrameId) (name : Node) (value : Value) :
    (traceLet frame name value).erase = bindLet frame name value := by
  simp only [traceLet, bindLet, erase_bind, erase_act]
  congr 1
  funext label
  cases label with
  | name text =>
      simp only
      split <;> simp
  | _ => simp

theorem erase_traceName (frame : FrameId) (token : Option Token) (name : String) :
    (traceName frame token name).erase = evalName frame token name := by
  unfold traceName evalName
  cases Builtin.ofName? name with
  | some builtin => rfl
  | none =>
      simp only [erase_bind, erase_act]
      congr 1
      funext found
      cases found <;> rfl

/-- Without its trace, the traced evaluator is the evaluator. -/
theorem Node.erase_trace (depth : Nat) (use : Use) (node : Node) (frame : FrameId) :
    (node.trace depth use frame).erase = node.eval depth frame := by
  induction depth generalizing use node frame with
  | zero => rfl
  | succ depth ih =>
      unfold Node.trace Node.eval
      rw [erase_bind, erase_enter, pure_bind]
      cases node with
      | missing | text | flag | int | string | bool => rfl
      | program statements => simp [erase_runBlock, ih]
      | exprStmt token expression => exact ih use expression frame
      | letStmt token name value =>
          simp only [erase_bind, erase_keep, erase_unlessError, erase_traceLet, ih]
      | returnStmt token value => simp [erase_unlessError, ih]
      | block token statements => simp [erase_runBlock, ih]
      | ident token name => exact erase_traceName frame token name
      | prefixOp token operator right =>
          simp only [erase_bind, erase_keep, erase_unlessError, erase_raise, ih]
          rfl
      | infixOp token left operator right =>
          simp only [erase_bind, erase_keep, erase_unlessError, erase_raise, ih]
          rfl
      | ifElse token condition consequence alternative =>
          simp only [erase_bind, erase_unlessError, ih]
          congr 1
          funext condition
          congr 1
          funext condition
          split
          · exact ih use consequence frame
          · exact ih use alternative frame
      | function token parameters body => simp
      | call token callee arguments =>
          simp only [erase_bind, erase_unlessError, erase_evalAll, erase_keep, ih]
          congr 1
          funext value
          congr 1
          funext function
          congr 1
          funext result
          cases result with
          | error error => rfl
          | ok values =>
              simp [erase_traceApply _ _ fun body frame => ih .passed body frame]
      | array token elements =>
          simp only [erase_bind, erase_evalAll, erase_keep, ih]
          congr 1
          funext result
          cases result <;> rfl
      | index token left position =>
          simp only [erase_bind, erase_keep, erase_unlessError, erase_raise, ih]
          rfl
      | hash token pairs =>
          simp only [erase_bind, erase_tracePairs _ _ fun use node => ih use node frame]
          congr 1
          funext result
          cases result with
          | error error => rfl
          | ok entries => simp

theorem Node.trace_result (depth : Nat) (use : Use) (node : Node) (frame : FrameId)
    (machine : Machine) :
    (node.trace depth use frame machine).2 = node.eval depth frame machine :=
  congrFun (node.erase_trace depth use frame) machine

/-! ### Runs one after the other -/

section

variable {α β : Type} {machine after : Machine} {trace : List Occurrence}

theorem traced_bind_of_ok {traced : Traced α} {go : α → Traced β} {value : α}
    (h : traced machine = (trace, .ok value after)) :
    (traced >>= go) machine = (trace ++ (go value after).1, (go value after).2) := by
  simp only [Bind.bind, h]

theorem traced_bind_pure {traced : Traced α} {go : α → Traced β} {value : α} {result : β}
    (h : traced machine = (trace, .ok value after))
    (hgo : go value = pure result) : (traced >>= go) machine = (trace, .ok result after) := by
  rw [traced_bind_of_ok h, hgo]
  exact Prod.ext (List.append_nil trace) rfl

theorem traced_bind_of_fault {traced : Traced α} {go : α → Traced β} {fault : Fault}
    (h : traced machine = (trace, .error fault after)) :
    (traced >>= go) machine = (trace, .error fault after) := by
  simp only [Bind.bind, h]

theorem keep_of_ok {evalKept : Node → Traced Value} {node : Node} {value : Value}
    (herror : value.isError = false)
    (h : evalKept node machine = (trace, .ok value after)) :
    keep evalKept node machine = (trace ++ [.keeps value], .ok value after) := by
  rw [keep, traced_bind_of_ok h, record, if_neg (Bool.eq_false_iff.mp herror)]
  rfl

theorem keep_of_error {evalKept : Node → Traced Value} {node : Node} {error : Value}
    (herror : error.isError = true)
    (h : evalKept node machine = (trace, .ok error after)) :
    keep evalKept node machine = (trace, .ok error after) :=
  traced_bind_pure h (by rw [record, if_pos herror])

end

end Monkey
