/-
Returns as control flow.  Here a return leaves the body of the function around it, or the program,
with its value, whatever is still to be done there; no wrapped value is handed on.  Where every
return can be reached from the body around it, and no function at hand is made otherwise, the
evaluator does just that.
-/
import Monkey.Proofs.Running.Effect
import Monkey.Proofs.Running.Placement
import Monkey.Proofs.Running.Watch

namespace Monkey

/-! ### Leaving a body -/

/-- An action that a return can leave with a value. -/
abbrev Leaving (α : Type) := ExceptT Value Action α

/-- An action that no return leaves. -/
def stay {α : Type} (action : Action α) : Leaving α :=
  ExceptT.lift action

/-- What a body comes to: the value that it was left with, or else its own. -/
def deliver (body : Leaving Value) : Action Value := do
  match ← body.run with
  | .ok value | .error value => pure value

/-- Runs statements up to the first error.  The value is the last one. -/
def runStatements (run : Node → Leaving Value) (last : Value) : List Node → Leaving Value
  | [] => pure last
  | node :: rest => do unlessError (← run node) fun value => runStatements run value rest

/-- Runs the pairs of a hash, each key before its value, behind the entries so far. -/
def runPairs (run : Node → Leaving Value) (entries : List (Key × Value)) :
    List (Node × Node) → Leaving (Except Value (List (Key × Value)))
  | [] => pure (.ok entries)
  | (keyNode, valueNode) :: rest => do
      let keyValue ← run keyNode
      if keyValue.isError then pure (.error keyValue)
      else match keyValue.key? with
        | none =>
            pure (.error (Problem.error (.unusableKey keyValue.typeName) keyNode.token?))
        | some key =>
            let value ← run valueNode
            if value.isError then pure (.error value)
            else runPairs run (insertEntry key value entries) rest

/-- Calls a value.  A function delivers what its body comes to in a new frame. -/
def callValue (run : Node → FrameId → Leaving Value) (token : Option Token) (callee : Value)
    (arguments : List Value) : Action Value :=
  match callee with
  | .builtin builtin => do locateError token (← builtin.apply arguments)
  | .function _ parameters body outer =>
      if arguments.length ≠ parameters.length then
        pure (Problem.error (.argumentCount parameters.length arguments.length) token)
      else do
        let frame ← Action.openFrame (some outer)
        bindParameters frame (parameters.zip arguments)
        deliver (run body frame)
  | _ => pure (Problem.error (.notFunction callee.typeName) token)

/-- Runs a node in a frame, nested no deeper than a limit.  A return takes an identity, as all that
is made does, so that the machine is the same as after handing on a wrapped value. -/
def Node.run : Nat → Node → FrameId → Leaving Value
  | 0, _, _ => stay (throw .tooDeep)
  | depth + 1, node, frame =>
      let run (node : Node) : Leaving Value := node.run depth frame
      match node with
      | .missing => pure .nil
      | .text _ | .flag _ => stay (throw (.notEvaluable node.className))
      | .program statements =>
          stay (do return (← deliver (runStatements run .nil statements)).shown)
      | .exprStmt _ expression => run expression
      | .letStmt _ name value => do
          unlessError (← run value) fun value => stay (bindLet frame name value)
      | .returnStmt _ value => do
          unlessError (← run value) fun value => do
            let _ ← stay Action.newIdentity
            throw value
      | .block _ statements => runStatements run .nil statements
      | .ident token name => stay (evalName frame token name)
      | .int _ value => pure (.int value)
      | .string _ value => pure (.string value)
      | .bool _ value => pure (.bool value)
      | .prefixOp token operator right => do
          unlessError (← run right) fun right => pure (evalPrefix token operator right)
      | .infixOp token left operator right => do
          unlessError (← run left) fun left => do
            unlessError (← run right) fun right => pure (evalInfix token operator left right)
      | .ifElse _ condition consequence alternative => do
          unlessError (← run condition) fun condition =>
            if condition.isTruthy then run consequence else run alternative
      | .function _ parameters body => do
          return .function (← stay Action.newIdentity) parameters body frame
      | .call token callee arguments => do
          unlessError (← run callee) fun callee => do
            match ← evalAll run arguments with
            | .error error => pure error
            | .ok arguments =>
                stay (callValue (fun body frame => body.run depth frame) token callee arguments)
      | .array _ elements => do
          match ← evalAll run elements with
          | .error error => pure error
          | .ok elements => stay (Action.newArray elements)
      | .index token left position => do
          unlessError (← run left) fun left => do
            unlessError (← run position) fun position => pure (evalIndex token left position)
      | .hash _ pairs => do
          match ← runPairs run [] pairs with
          | .error error => pure error
          | .ok entries => return .hash (← stay Action.newIdentity) entries

/-! ### Side by side -/

/-- A returned value, or a function with a return that cannot be reached from its body. -/
def Value.isStraying : Value → Bool
  | .returned .. => true
  | .function _ _ body _ => !body.straight true
  | _ => false

theorem foreign_isStraying : Foreign Value.isStraying where
  data value hdata := by cases value <;> first | rfl | cases hdata
  error _ _ _ _ := rfl
  returned _ _ _ := rfl

/-- How a run ends by returns as values, and how it ends by returns as control flow. -/
inductive Meets {α : Type} (good : α → Prop) (left : α → Value → Prop) :
    EStateM.Result Fault Machine α → EStateM.Result Fault Machine (Except Value α) → Prop where
  | done {value : α} {after : Machine} (hgood : good value)
      (hclear : after.Clear Value.isStraying) :
      Meets good left (.ok value after) (.ok (.ok value) after)
  | left {result : α} {value : Value} {after : Machine} (hleft : left result value)
      (hclear : after.Clear Value.isStraying) :
      Meets good left (.ok result after) (.ok (.error value) after)
  | stopped {fault : Fault} {after : Machine} (hclear : after.Clear Value.isStraying) :
      Meets good left (.error fault after) (.error fault after)

/-- On a machine without strays the two end alike. -/
def Mirrors {α : Type} (good : α → Prop) (left : α → Value → Prop) (action : Action α)
    (leaving : Leaving α) : Prop :=
  ∀ machine : Machine, machine.Clear Value.isStraying →
    Meets good left (action machine) (leaving.run machine)

/-- Nothing leaves the action. -/
abbrev Stays {α : Type} (good : α → Prop) (action : Action α) (leaving : Leaving α) : Prop :=
  Mirrors good (fun _ _ => False) action leaving

/-- What leaves the action stands for a returned value, if anything may leave it. -/
def Wraps (may : Bool) (result value : Value) : Prop :=
  may = true ∧ value.Clear Value.isStraying ∧ ∃ identity, result = .returned identity value

abbrev Follows (may : Bool) (action : Action Value) (leaving : Leaving Value) : Prop :=
  Mirrors (Value.Clear Value.isStraying) (Wraps may) action leaving

section

variable {α β : Type} {good : α → Prop} {good' : β → Prop} {left : α → Value → Prop}
  {left' : β → Value → Prop} {may : Bool}

theorem mirrors_pure {value : α} (h : good value) : Mirrors good left (pure value) (pure value) :=
  fun _ hclear => .done h hclear

theorem mirrors_stay {action : Action α} (h : Preserves Value.isStraying good action) :
    Mirrors good left action (stay action) := by
  intro machine hclear
  have hends := h machine hclear
  simp only [stay, ExceptT.lift, ExceptT.run, ExceptT.mk, Functor.map, EStateM.map]
  cases hrun : action machine with
  | ok value after =>
      rw [hrun] at hends
      exact .done hends.1 hends.2
  | error fault after =>
      rw [hrun] at hends
      exact .stopped hends

theorem run_bind (leaving : Leaving α) (go : α → Leaving β) (machine : Machine) :
    (leaving >>= go).run machine =
      match leaving.run machine with
      | .ok (.ok value) after => (go value).run after
      | .ok (.error value) after => .ok (.error value) after
      | .error fault after => .error fault after := by
  simp only [ExceptT.run, Bind.bind, ExceptT.bind, ExceptT.mk, EStateM.bind]
  cases leaving machine with
  | ok result after => cases result <;> rfl
  | error fault after => rfl

/-- What stays is followed by what goes on with its value. -/
theorem Mirrors.bind {action : Action α} {leaving : Leaving α} {go : α → Action β}
    {go' : α → Leaving β} (h : Stays good action leaving)
    (hgo : ∀ value, good value → Mirrors good' left' (go value) (go' value)) :
    Mirrors good' left' (action >>= go) (leaving >>= go') := by
  intro machine hclear
  have hmeets := h machine hclear
  rw [run_bind]
  simp only [Bind.bind, EStateM.bind]
  generalize action machine = result at hmeets
  generalize leaving.run machine = result' at hmeets
  cases hmeets with
  | done hgood hclear => exact hgo _ hgood _ hclear
  | left hleft _ => exact hleft.elim
  | stopped hclear => exact .stopped hclear

theorem Mirrors.mono {action : Action α} {leaving : Leaving α} {left' : α → Value → Prop}
    (h : Mirrors good left action leaving) (hleft : ∀ result value, left result value →
      left' result value) : Mirrors good left' action leaving := by
  intro machine hclear
  have hmeets := h machine hclear
  generalize action machine = result at hmeets ⊢
  generalize leaving.run machine = result' at hmeets ⊢
  cases hmeets with
  | done hgood hclear => exact .done hgood hclear
  | left hwraps hclear => exact .left (hleft _ _ hwraps) hclear
  | stopped hclear => exact .stopped hclear

theorem Follows.stays {action : Action Value} {leaving : Leaving Value}
    (h : Follows false action leaving) :
    Stays (Value.Clear Value.isStraying) action leaving :=
  h.mono fun _ _ hwraps => Bool.false_ne_true hwraps.1

theorem follows_unlessError {action : Action Value} {leaving : Leaving Value}
    {go : Value → Action Value} {go' : Value → Leaving Value} (h : Follows false action leaving)
    (hgo : ∀ value, value.Clear Value.isStraying → Follows may (go value) (go' value)) :
    Follows may (action >>= fun value => unlessError value go)
      (leaving >>= fun value => unlessError value go') := by
  apply h.stays.bind
  intro value hvalue
  unfold unlessError
  split
  · exact mirrors_pure hvalue
  · exact hgo value hvalue

end

theorem Value.Clear.isSignal {value : Value} (h : value.Clear Value.isStraying) :
    value.isSignal = value.isError := by
  cases value with
  | returned => exact absurd h.self nofun
  | _ => rfl

theorem Value.Clear.unwrap_eq {value : Value} (h : value.Clear Value.isStraying) :
    value.unwrap = value := by
  cases value with
  | returned => exact absurd h.self nofun
  | _ => rfl

section

variable {may : Bool} {eval : Node → Action Value} {run : Node → Leaving Value}

theorem follows_runBlock {nodes : List Node}
    (h : ∀ node ∈ nodes, Follows may (eval node) (run node)) {last : Value}
    (hlast : last.Clear Value.isStraying) :
    Follows may (runBlock eval last nodes) (runStatements run last nodes) := by
  induction nodes generalizing last with
  | nil => exact mirrors_pure hlast
  | cons node rest ih =>
      obtain ⟨hnode, hrest⟩ := List.forall_mem_cons.mp h
      intro machine hclear
      have hmeets := hnode machine hclear
      rw [runStatements, run_bind]
      simp only [runBlock, Bind.bind, EStateM.bind]
      generalize eval node machine = result at hmeets
      generalize (run node).run machine = result' at hmeets
      cases hmeets with
      | @done value after hvalue hafter =>
          simp only [unlessError, hvalue.isSignal]
          split
          · exact .done hvalue hafter
          · exact ih hrest hvalue after hafter
      | @left _ value after hwraps hafter =>
          -- the returned value ends the block as well, and is handed on
          obtain ⟨_, _, identity, rfl⟩ := id hwraps
          exact .left hwraps hafter
      | stopped hafter => exact .stopped hafter

/-- An error, or what is gathered from a list of nodes. -/
abbrev Collects {α : Type} (good : α → Prop) (action : Action (Except Value α))
    (leaving : Leaving (Except Value α)) : Prop :=
  Stays (Watch.Either Value.isStraying good) action leaving

theorem collects_evalAll {nodes : List Node}
    (h : ∀ node ∈ nodes, Follows false (eval node) (run node)) :
    Collects (fun values : List Value => ∀ value ∈ values, value.Clear Value.isStraying)
      (evalAll eval nodes) (evalAll run nodes) := by
  induction nodes with
  | nil => exact mirrors_pure (List.forall_mem_nil _)
  | cons node rest ih =>
      obtain ⟨hnode, hrest⟩ := List.forall_mem_cons.mp h
      apply hnode.stays.bind
      intro value hvalue
      split
      · exact mirrors_pure hvalue
      · apply (ih hrest).bind
        intro result hresult
        apply mirrors_pure
        cases result with
        | error error => exact hresult
        | ok values => exact List.forall_mem_cons.mpr ⟨hvalue, hresult⟩

theorem collects_evalPairs {pairs : List (Node × Node)}
    (h : ∀ pair ∈ pairs, Follows false (eval pair.1) (run pair.1) ∧
      Follows false (eval pair.2) (run pair.2))
    {entries : List (Key × Value)}
    (hentries : ∀ entry ∈ entries, entry.2.Clear Value.isStraying) :
    Collects
      (fun entries : List (Key × Value) => ∀ entry ∈ entries, entry.2.Clear Value.isStraying)
      (evalPairs eval entries pairs) (runPairs run entries pairs) := by
  induction pairs generalizing entries with
  | nil => exact mirrors_pure hentries
  | cons pair rest ih =>
      obtain ⟨⟨hkey, hvalue⟩, hrest⟩ := List.forall_mem_cons.mp h
      apply hkey.stays.bind
      intro keyValue hkeyValue
      split
      · exact mirrors_pure hkeyValue
      · cases keyValue.key? with
        | none => exact mirrors_pure (clear_of_parts rfl rfl)
        | some key =>
            apply hvalue.stays.bind
            intro value hvalue
            split
            · exact mirrors_pure hvalue
            · exact ih hrest (clear_insertEntry hvalue hentries)

end

/-! ### Calls, names and bindings -/

section

theorem stay_bind {α β : Type} (action : Action α) (go : α → Action β) :
    stay (action >>= go) = (stay action >>= fun value => stay (go value)) := by
  funext machine
  refine Eq.trans ?_ (run_bind (stay action) (fun value => stay (go value)) machine).symm
  simp only [stay, ExceptT.lift, ExceptT.run, ExceptT.mk, Functor.map, EStateM.map, Bind.bind,
    EStateM.bind]
  cases action machine with
  | ok value after => rfl
  | error fault after => rfl

/-- What leaves a body is delivered as the returned value is unwrapped. -/
theorem stays_deliver {may : Bool} {action : Action Value} {leaving : Leaving Value}
    (h : Follows may action leaving) :
    Stays (Value.Clear Value.isStraying) (action >>= fun value => pure value.unwrap)
      (stay (deliver leaving)) := by
  intro machine hclear
  have hmeets := h machine hclear
  simp only [stay, deliver, ExceptT.lift, ExceptT.run, ExceptT.mk, Functor.map, EStateM.map,
    Bind.bind, EStateM.bind] at hmeets ⊢
  generalize action machine = result at hmeets ⊢
  generalize leaving machine = result' at hmeets ⊢
  cases hmeets with
  | @done value after hvalue hafter =>
      simp only [Pure.pure, EStateM.pure, hvalue.unwrap_eq]
      exact .done hvalue hafter
  | left hwraps hafter =>
      obtain ⟨_, hvalue, identity, rfl⟩ := hwraps
      exact .done hvalue hafter
  | stopped hafter => exact .stopped hafter

theorem mirrors_shown {may : Bool} {left : Value → Value → Prop} {action : Action Value}
    {leaving : Leaving Value} (h : Follows may action leaving) :
    Mirrors (Value.Clear Value.isStraying) left
      (action >>= fun value => pure value.unwrap.shown)
      (stay (deliver leaving >>= fun value => pure value.shown)) := by
  have hsplit : (action >>= fun value => pure value.unwrap.shown) =
      ((action >>= fun value => pure value.unwrap) >>= fun value => pure value.shown) := by
    simp only [bind_assoc, pure_bind]
  rw [stay_bind, hsplit]
  exact (stays_deliver h).bind fun value hvalue =>
    mirrors_pure (hvalue.shown foreign_isStraying.shallow)

theorem clear_settle {token : Option Token} {result : Except Problem Value}
    (h : ∀ value, result = .ok value → value.Clear Value.isStraying) :
    (settle token result).Clear Value.isStraying := by
  cases result with
  | ok value => exact h value rfl
  | error problem => exact clear_of_parts rfl rfl

theorem preserves_apply (builtin : Builtin) {arguments : List Value}
    (h : ∀ value ∈ arguments, value.Clear Value.isStraying) :
    Preserves Value.isStraying (Value.Clear Value.isStraying) (builtin.apply arguments) :=
  (preserves_run foreign_isStraying builtin h).bind fun _ hresult =>
    preserves_pure (clear_settle hresult)

theorem preserves_bindParameters (frame : FrameId) {pairs : List (Node × Value)}
    (h : ∀ pair ∈ pairs, pair.2.Clear Value.isStraying) :
    Preserves Value.isStraying (fun _ => True) (bindParameters frame pairs) := by
  induction pairs with
  | nil => exact preserves_pure trivial
  | cons pair rest ih =>
      obtain ⟨hvalue, hrest⟩ := List.forall_mem_cons.mp h
      apply (preserves_ofExcept pair.1.label).bind
      intro label _
      exact (preserves_bindName frame label hvalue).bind fun _ _ => ih hrest

theorem preserves_bindLet (frame : FrameId) (name : Node) {value : Value}
    (h : value.Clear Value.isStraying) :
    Preserves Value.isStraying (Value.Clear Value.isStraying) (bindLet frame name value) := by
  apply (preserves_ofExcept name.label).bind
  intro label _
  have hbind : Preserves Value.isStraying (Value.Clear Value.isStraying)
      (Action.bindName frame label value >>= fun _ => pure .nil) :=
    (preserves_bindName frame label h).bind fun _ _ => preserves_pure (clear_of_parts rfl rfl)
  cases label with
  | name text =>
      simp only
      split
      · exact (preserves_emit _).bind fun _ _ => hbind
      · exact hbind
  | _ => exact hbind

theorem preserves_evalName (frame : FrameId) (token : Option Token) (name : String) :
    Preserves Value.isStraying (Value.Clear Value.isStraying) (evalName frame token name) := by
  unfold evalName
  split
  · exact preserves_pure (clear_of_parts rfl rfl)
  · apply (preserves_lookup frame _).bind
    intro found hfound
    cases found with
    | some value => exact preserves_pure (hfound value rfl)
    | none => exact preserves_pure (clear_of_parts rfl rfl)

theorem stays_applyValue {eval : Node → FrameId → Action Value}
    {run : Node → FrameId → Leaving Value}
    (h : ∀ body inside, body.straight true = true →
      Follows true (eval body inside) (run body inside)) (token : Option Token) {callee : Value}
    {arguments : List Value} (hcallee : callee.Clear Value.isStraying)
    (harguments : ∀ value ∈ arguments, value.Clear Value.isStraying) :
    Stays (Value.Clear Value.isStraying) (applyValue eval token callee arguments)
      (stay (callValue run token callee arguments)) := by
  cases callee with
  | builtin builtin =>
      exact mirrors_stay ((preserves_apply builtin harguments).bind fun _ hvalue =>
        preserves_locateError foreign_isStraying.shallow token hvalue)
  | function identity parameters body outer =>
      have hbody : body.straight true = true := by simpa [Value.isStraying] using hcallee.self
      simp only [applyValue, callValue]
      split
      · exact mirrors_stay (preserves_pure (clear_of_parts rfl rfl))
      · rw [stay_bind]
        apply (mirrors_stay (preserves_openFrame (some outer))).bind
        intro frame _
        rw [stay_bind]
        have hpairs : ∀ pair ∈ parameters.zip arguments, pair.2.Clear Value.isStraying :=
          fun pair hpair => harguments _ (List.of_mem_zip hpair).2
        apply (mirrors_stay (preserves_bindParameters frame hpairs)).bind
        intro _ _
        exact stays_deliver (h body frame hbody)
  | _ => exact mirrors_stay (preserves_pure (clear_of_parts rfl rfl))

end

/-! ### Programs -/

/-- A node with its returns in place runs alike by returns as values and by returns as control
flow. -/
theorem Node.follows_run {node : Node} {may : Bool} (h : node.straight may = true) (depth : Nat)
    (frame : FrameId) : Follows may (node.eval depth frame) (node.run depth frame) := by
  induction depth generalizing node may frame with
  | zero => exact mirrors_stay (preserves_throw _)
  | succ depth ih =>
      unfold Node.eval Node.run
      have hnil : Value.nil.Clear Value.isStraying := clear_of_parts rfl rfl
      cases node with
      | missing | int | string | bool => exact mirrors_pure (clear_of_parts rfl rfl)
      | text | flag => exact mirrors_stay (preserves_throw _)
      | program statements =>
          have hstatements := follows_runBlock
            (fun statement hmem => ih (straightAll_iff.mp h statement hmem) frame) hnil
          exact mirrors_shown hstatements
      | exprStmt token expression =>
          have hexpression : expression.straight may = true := h
          exact ih hexpression frame
      | letStmt token name value =>
          have hvalue : value.straight false = true := h
          exact follows_unlessError (ih hvalue frame) fun value hvalue =>
            mirrors_stay (preserves_bindLet frame name hvalue)
      | returnStmt token value =>
          obtain ⟨rfl, hvalue⟩ := Bool.and_eq_true_iff.mp h
          apply follows_unlessError (ih hvalue frame)
          intro value hvalue machine hclear
          exact .left ⟨rfl, hvalue, _, rfl⟩ hclear
      | block token statements =>
          exact follows_runBlock
            (fun statement hmem => ih (straightAll_iff.mp h statement hmem) frame) hnil
      | ident token name => exact mirrors_stay (preserves_evalName frame token name)
      | prefixOp token operator right =>
          have hright : right.straight false = true := h
          apply follows_unlessError (ih hright frame)
          intro right _
          exact mirrors_pure (clear_settle fun value hvalue =>
            foreign_isStraying.clear_prefix hvalue)
      | infixOp token left operator right =>
          obtain ⟨hleft, hright⟩ := Bool.and_eq_true_iff.mp h
          apply follows_unlessError (ih hleft frame)
          intro left _
          apply follows_unlessError (ih hright frame)
          intro right _
          exact mirrors_pure (clear_settle fun value hvalue =>
            foreign_isStraying.clear_infix hvalue)
      | ifElse token condition consequence alternative =>
          obtain ⟨hcondition, hbranches⟩ := Bool.and_eq_true_iff.mp h
          obtain ⟨hconsequence, halternative⟩ := Bool.and_eq_true_iff.mp hbranches
          apply follows_unlessError (ih hcondition frame)
          intro value _
          split
          · exact ih hconsequence frame
          · exact ih halternative frame
      | function token parameters body =>
          have hbody : body.straight true = true := h
          apply (mirrors_stay preserves_newIdentity).bind
          intro identity _
          exact mirrors_pure (clear_of_parts rfl (by simp [Value.isStraying, hbody]))
      | call token callee arguments =>
          obtain ⟨hcallee, harguments⟩ := Bool.and_eq_true_iff.mp h
          apply follows_unlessError (ih hcallee frame)
          intro function hfunction
          apply (collects_evalAll fun argument hmem =>
            ih (straightAll_iff.mp harguments argument hmem) frame).bind
          intro result hresult
          cases result with
          | error error => exact mirrors_pure hresult
          | ok values =>
              have happly := stays_applyValue (fun body inside hbody => ih hbody inside) token
                hfunction hresult
              exact happly.mono fun _ _ => False.elim
      | array token elements =>
          apply (collects_evalAll fun element hmem =>
            ih (straightAll_iff.mp h element hmem) frame).bind
          intro result hresult
          cases result with
          | error error => exact mirrors_pure hresult
          | ok values => exact mirrors_stay (preserves_newArray foreign_isStraying.shallow hresult)
      | index token left position =>
          obtain ⟨hleft, hposition⟩ := Bool.and_eq_true_iff.mp h
          apply follows_unlessError (ih hleft frame)
          intro left hleft
          apply follows_unlessError (ih hposition frame)
          intro position _
          exact mirrors_pure (clear_settle fun value hvalue =>
            foreign_isStraying.shallow.clear_index hleft hvalue)
      | hash token pairs =>
          have hpairs : ∀ pair ∈ pairs,
              Follows false (pair.1.eval depth frame) (pair.1.run depth frame) ∧
                Follows false (pair.2.eval depth frame) (pair.2.run depth frame) := by
            intro pair hpair
            obtain ⟨hkey, hvalue⟩ := straightPairs_iff.mp h pair hpair
            exact ⟨ih hkey frame, ih hvalue frame⟩
          apply (collects_evalPairs hpairs (List.forall_mem_nil _)).bind
          intro result hresult
          cases result with
          | error error => exact mirrors_pure hresult
          | ok entries =>
              apply (mirrors_stay preserves_newIdentity).bind
              intro identity _
              exact mirrors_pure (foreign_isStraying.clear_hash hresult)

/-- A program with its returns in place, on a machine that holds no returned value and no function
with a return out of place: what it gives, shows and leaves behind, and whether it ends, is the same
when a return hands on a wrapped value as when it leaves the body around it at once.  The machine
that is left is again such a one. -/
theorem Parses.eval_eq_run {source : String} {program : Node} (h : Parses source program)
    (hplace : program.returnsInPlace = true) {machine : Machine}
    (hclear : machine.Clear Value.isStraying) (depth : Nat) (frame : FrameId) :
    program.eval depth frame machine = deliver (program.run depth frame) machine ∧
      ((program.eval depth frame).leaves machine).Clear Value.isStraying := by
  -- no return leaves the program itself: it delivers what leaves its statements
  have hstraight : program.straight false = true := by
    have hstraight := h.straight hplace
    obtain ⟨statements, rfl, _⟩ := parses_iff.mp h
    exact hstraight
  have hmeets := (Node.follows_run hstraight depth frame).stays machine hclear
  simp only [deliver, Action.leaves, ExceptT.run, Bind.bind, EStateM.bind] at hmeets ⊢
  generalize program.eval depth frame machine = result at hmeets ⊢
  generalize program.run depth frame machine = result' at hmeets ⊢
  cases hmeets with
  | done _ hafter => exact ⟨rfl, hafter⟩
  | left hleft _ => exact hleft.elim
  | stopped hafter => exact ⟨rfl, hafter⟩

/-- Returns out of an else-if in a function, and out of an if in the program. -/
theorem eval_eq_run_nestedIfs : ∃ program,
    Parses ("let f = fn(n) \x7b if (n > 1) \x7b return n \x7d " ++
      "else if (n < 0) \x7b if (true) \x7b return 0 \x7d \x7d; 7 \x7d; " ++
      "if (true) \x7b return f(3) + f(1) \x7d; 5") program ∧
    program.returnsInPlace = true ∧ Machine.start.Clear Value.isStraying ∧
    program.eval depthLimit rootFrame Machine.start =
      deliver (program.run depthLimit rootFrame) Machine.start ∧
    ((program.eval depthLimit rootFrame).leaves Machine.start).Clear Value.isStraying := by
  obtain ⟨program, hparses, hplace⟩ : ∃ program,
      Parses ("let f = fn(n) \x7b if (n > 1) \x7b return n \x7d " ++
        "else if (n < 0) \x7b if (true) \x7b return 0 \x7d \x7d; 7 \x7d; " ++
        "if (true) \x7b return f(3) + f(1) \x7d; 5") program ∧ program.returnsInPlace = true :=
    exists_parses (by decide +kernel) (by decide +kernel)
  exact ⟨program, hparses, hplace, clear_start,
    hparses.eval_eq_run hplace clear_start depthLimit rootFrame⟩

/-! ### A function made otherwise -/

/-- A function with a return in the value of a let statement. -/
def strayingFunction : Value :=
  .function 0 []
    (.block none
      [.letStmt none (.ident none "x")
        (.ifElse none (.bool none true) (.block none [.returnStmt none (.int none 1)]) .missing),
       .exprStmt none (.int none 2)])
    rootFrame

/-- A machine whose only function is that one. -/
def strayingMachine : Machine :=
  { Machine.start with store := Machine.start.store.set rootFrame (.name "f") strayingFunction }

/-- The number that a run gives. -/
def givenInt : EStateM.Result Fault Machine Value → Option Int
  | .ok (.int value) _ => some value
  | _ => none

/-- It is not enough that the program has its returns in place: a function at hand can bind a
returned value and run on. -/
theorem strayingFunction_differs : ¬ ∀ source program, Parses source program →
    program.returnsInPlace = true → ∀ machine : Machine, machine.Clear Value.isReturned →
      program.eval depthLimit rootFrame machine =
        deliver (program.run depthLimit rootFrame) machine := by
  intro h
  obtain ⟨program, hparses, hcall⟩ : ∃ program, Parses "f()" program ∧
      (program.returnsInPlace &&
        (givenInt (program.eval depthLimit rootFrame strayingMachine) == some 2 &&
          givenInt (deliver (program.run depthLimit rootFrame) strayingMachine) == some 1)) =
        true := exists_parses (by decide +kernel) (by decide +kernel)
  obtain ⟨hplace, hgiven⟩ := Bool.and_eq_true_iff.mp hcall
  have hclear : strayingMachine.Clear Value.isReturned :=
    Store.Clear.set clear_start (clear_of_parts rfl rfl)
  rw [h _ _ hparses hplace strayingMachine hclear] at hgiven
  obtain ⟨hwrapped, hleft⟩ := Bool.and_eq_true_iff.mp hgiven
  rw [eq_of_beq hwrapped] at hleft
  cases hleft

end Monkey
