/-
Code that can be run: every name to be bound is one, and every part is a node.  On a machine all
of whose functions have such code a run makes functions with such code only, and nothing stops it
but the limit on its depth.
-/
import Monkey.Proofs.Parsing.WellFormed
import Monkey.Proofs.Running.Reachable

namespace Monkey

open Traced

variable {α β : Type}

/-- A value can be bound where the node stands for a name. -/
def Node.isLabelled (node : Node) : Bool :=
  node.label.isOk

/-- Entering the node does not by itself stop a run. -/
def Node.isRunnable : Node → Bool
  | .text _ | .flag _ => false
  | .letStmt _ name _ => name.isLabelled
  | .function _ parameters _ => parameters.all Node.isLabelled
  | _ => true

/-- The node can be run, and so can all that it comes to. -/
def Node.Sound (node : Node) : Prop :=
  node.Everywhere fun part => part.isRunnable = true

theorem Node.Sound.child {node child : Node} (h : node.Sound) (hchild : child ∈ node.children) :
    child.Sound :=
  (Node.everywhere_iff.mp h).2 child hchild

/-- A function whose parameters cannot be bound, or whose body cannot be run. -/
def Value.isBroken : Value → Bool
  | .function _ parameters body _ =>
      !(parameters.all Node.isLabelled && body.parts.all Node.isRunnable)
  | _ => false

theorem foreign_isBroken : Foreign Value.isBroken where
  data value hdata := by cases value <;> first | rfl | cases hdata
  error _ _ _ _ := rfl
  returned _ _ _ := rfl

theorem clear_function {identity : Nat} {parameters : List Node} {body : Node} {frame : FrameId} :
    (Value.function identity parameters body frame).Clear Value.isBroken ↔
      (∀ parameter ∈ parameters, parameter.isLabelled = true) ∧ body.Sound := by
  simp [Value.Clear, Value.parts, Value.isBroken, Node.Sound, Node.Everywhere]

theorem clear_made (problem : Problem) (token : Option Token) :
    (problem.error token).Clear Value.isBroken :=
  clear_of_parts rfl rfl

/-! ### Smooth runs -/

/-- The number of times that a node is entered. -/
def entryCount (trace : List Occurrence) : Nat :=
  trace.countP Occurrence.isEntry

/-- Nothing holds broken code at any point, and nothing but the depth stops the run, which then has
entered nodes a number of times. -/
structure Smooth (bound : Nat) (good : α → Prop) (out : Outcome α) : Prop where
  fine : Fine Value.isBroken (Occurrence.Clear Value.isBroken) good out
  stops : ∀ fault after, out.2 = .error fault after → fault = .tooDeep ∧ bound ≤ entryCount out.1

/-- On a machine without broken code the run is smooth. -/
def Safe (bound : Nat) (good : α → Prop) (traced : Traced α) : Prop :=
  ∀ machine : Machine, machine.Clear Value.isBroken → Smooth bound good (traced machine)

/-- Nothing stops the action on any machine. -/
def Unstopped (action : Action α) : Prop :=
  ∀ machine, ∃ value after, action machine = .ok value after

section Steps

variable {bound : Nat} {good : α → Prop} {good' : β → Prop}

theorem smooth_ok {trace : List Occurrence} {value : α} {machine : Machine}
    (htrace : ∀ occurrence ∈ trace, occurrence.Clear Value.isBroken) (hvalue : good value)
    (hclear : machine.Clear Value.isBroken) :
    Smooth bound good (trace, .ok value machine) where
  fine := ⟨htrace, hvalue, hclear⟩
  stops fault after hfault := by cases hfault

theorem Smooth.after {before : List Occurrence} {out : Outcome α} (h : Smooth bound good out)
    (hbefore : ∀ occurrence ∈ before, occurrence.Clear Value.isBroken) :
    Smooth (entryCount before + bound) good (out.after before) where
  fine := h.fine.after hbefore
  stops fault after hfault := by
    obtain ⟨hdeep, hle⟩ := h.stops fault after hfault
    refine ⟨hdeep, ?_⟩
    have hcount : entryCount (before ++ out.1) = entryCount before + entryCount out.1 :=
      List.countP_append
    show _ ≤ entryCount (before ++ out.1)
    omega

theorem Smooth.mono {bound' : Nat} {out : Outcome α} (h : Smooth bound good out)
    (hle : bound' ≤ bound) : Smooth bound' good out where
  fine := h.fine
  stops fault after hfault := (h.stops fault after hfault).imp id (Nat.le_trans hle)

theorem safe_pure {value : α} (h : good value) : Safe bound good (pure value) :=
  fun _ hclear => smooth_ok (List.forall_mem_nil _) h hclear

theorem safe_act {action : Action α} (h : Preserves Value.isBroken good action)
    (hunstopped : Unstopped action) : Safe bound good (act action) := by
  intro machine hclear
  refine ⟨⟨List.forall_mem_nil _, h machine hclear⟩, fun fault after hfault => ?_⟩
  obtain ⟨value, after', hvalue⟩ := hunstopped machine
  rw [act, hvalue] at hfault
  cases hfault

theorem safe_tooDeep : Safe 0 good (act (throw .tooDeep)) := by
  intro machine hclear
  refine ⟨⟨List.forall_mem_nil _, hclear⟩, fun fault after hfault => ?_⟩
  cases hfault
  exact ⟨rfl, Nat.zero_le _⟩

theorem safe_note (occurrence : Occurrence) (h : occurrence.Clear Value.isBroken) :
    Safe bound (fun _ => True) (note occurrence) :=
  fun _ hclear => smooth_ok (List.forall_mem_singleton.mpr h) trivial hclear

theorem Safe.bind {traced : Traced α} {go : α → Traced β} (h : Safe bound good traced)
    (hgo : ∀ value, good value → Safe bound good' (go value)) :
    Safe bound good' (traced >>= go) := by
  intro machine hclear
  obtain ⟨⟨hcalm, hends⟩, hstops⟩ := h machine hclear
  show Smooth bound good' ((traced >>= go) machine)
  cases hrun : traced machine with
  | mk trace result =>
      rw [hrun] at hcalm hends hstops
      cases result with
      | ok value after =>
          have hbind : (traced >>= go) machine = (go value after).after trace := by
            simp only [Bind.bind, hrun, Outcome.after]
          rw [hbind]
          exact ((hgo value hends.1 after hends.2).after hcalm).mono (Nat.le_add_left _ _)
      | error fault after =>
          have hbind : (traced >>= go) machine = (trace, .error fault after) := by
            simp only [Bind.bind, hrun]
          rw [hbind]
          refine ⟨⟨hcalm, hends⟩, fun fault' after' hfault => ?_⟩
          cases hfault
          exact hstops fault after rfl

/-- Entering a node counts. -/
theorem Safe.entering {traced : Traced α} (h : Safe bound good traced) (node : Node)
    (frame : FrameId) : Safe (bound + 1) good (enter node frame >>= fun _ => traced) := by
  intro machine hclear
  have hentered : ∀ occurrence ∈ [Occurrence.enters node frame machine],
      occurrence.Clear Value.isBroken := List.forall_mem_singleton.mpr hclear
  exact ((h machine hclear).after hentered).mono (Nat.le_of_eq (Nat.add_comm bound 1))

end Steps

/-! ### Nodes -/

/-- The run is smooth and gives a value without broken code. -/
abbrev Yields (bound : Nat) (traced : Traced Value) : Prop :=
  Safe bound (Value.Clear Value.isBroken) traced

section Nodes

variable {bound : Nat}

theorem yields_data {value : Value} (hparts : value.parts = [value])
    (hdata : value.isData = true) : Yields bound (pure value) :=
  safe_pure (foreign_isBroken.clear hparts hdata)

theorem yields_raise (node : Node) {result : Except Problem Value}
    (h : ∀ value, result = .ok value → value.Clear Value.isBroken) :
    Yields bound (raise node result) := by
  cases result with
  | ok value => exact safe_pure (h value rfl)
  | error problem =>
      intro machine hclear
      exact smooth_ok (List.forall_mem_singleton.mpr trivial) (clear_made problem _) hclear

theorem yields_problem (node : Node) (problem : Problem) :
    Yields bound (raise node (.error problem)) :=
  yields_raise node fun _ hvalue => by cases hvalue

theorem yields_record {occurrence : Value → Occurrence} {value : Value}
    (h : value.Clear Value.isBroken)
    (hoccurrence : (occurrence value).Clear Value.isBroken) :
    Yields bound (record occurrence value) := by
  unfold record
  split
  · exact safe_pure h
  · exact (safe_note _ hoccurrence).bind fun _ _ => safe_pure h

theorem yields_keep {eval : Node → Traced Value} {node : Node} (h : Yields bound (eval node)) :
    Yields bound (keep eval node) :=
  h.bind fun _ hvalue => yields_record hvalue hvalue

theorem yields_unlessError {traced : Traced Value} {go : Value → Traced Value}
    (h : Yields bound traced)
    (hgo : ∀ value, value.Clear Value.isBroken → Yields bound (go value)) :
    Yields bound (traced >>= fun value => unlessError value go) := by
  apply h.bind
  intro value hvalue
  unfold unlessError
  split
  · exact safe_pure hvalue
  · exact hgo value hvalue

/-- An error, or what a list of nodes is evaluated to. -/
abbrev Gathers (bound : Nat) (good : α → Prop) (traced : Traced (Except Value α)) : Prop :=
  Safe bound (Watch.Either Value.isBroken good) traced

theorem gathers_evalAll {eval : Node → Traced Value} {nodes : List Node}
    (h : ∀ node ∈ nodes, Yields bound (eval node)) :
    Gathers bound (fun values : List Value => ∀ value ∈ values, value.Clear Value.isBroken)
      (evalAll eval nodes) := by
  induction nodes with
  | nil => exact safe_pure (List.forall_mem_nil _)
  | cons node rest ih =>
      obtain ⟨hnode, hrest⟩ := List.forall_mem_cons.mp h
      apply hnode.bind
      intro value hvalue
      split
      · exact safe_pure hvalue
      · apply (ih hrest).bind
        intro result hresult
        apply safe_pure
        cases result with
        | error error => exact hresult
        | ok values => exact List.forall_mem_cons.mpr ⟨hvalue, hresult⟩

theorem yields_runBlock {eval : Node → Traced Value} {nodes : List Node}
    (h : ∀ node ∈ nodes, Yields bound (eval node)) {last : Value}
    (hlast : last.Clear Value.isBroken) : Yields bound (runBlock eval last nodes) := by
  induction nodes generalizing last with
  | nil => exact safe_pure hlast
  | cons node rest ih =>
      obtain ⟨hnode, hrest⟩ := List.forall_mem_cons.mp h
      apply hnode.bind
      intro value hvalue
      split
      · exact safe_pure hvalue
      · exact ih hrest hvalue

theorem gathers_tracePairs (eval : Use → Node → Traced Value) {pairs : List (Node × Node)}
    (h : ∀ pair ∈ pairs, ∀ use, Yields bound (eval use pair.1) ∧ Yields bound (eval use pair.2))
    {entries : List (Key × Value)} (hentries : ∀ entry ∈ entries, entry.2.Clear Value.isBroken) :
    Gathers bound
      (fun entries : List (Key × Value) => ∀ entry ∈ entries, entry.2.Clear Value.isBroken)
      (tracePairs eval entries pairs) := by
  induction pairs generalizing entries with
  | nil => exact safe_pure hentries
  | cons pair rest ih =>
      obtain ⟨hpair, hrest⟩ := List.forall_mem_cons.mp h
      apply (hpair .tested).1.bind
      intro keyValue hkeyValue
      split
      · exact safe_pure hkeyValue
      · cases keyValue.key? with
        | none =>
            exact (yields_problem pair.1 _).bind fun _ herror => safe_pure herror
        | some key =>
            apply (safe_note (.keeps key.value) (foreign_isBroken.clear_key key)).bind
            intro _ _
            apply (yields_keep (hpair .kept).2).bind
            intro value hvalue
            split
            · exact safe_pure hvalue
            · exact ih hrest (clear_insertEntry hvalue hentries)

/-! ### Calls and names -/

theorem safe_bindName (frame : FrameId) (name : Label) {value : Value}
    (h : value.Clear Value.isBroken) :
    Safe bound (fun _ => True) (Traced.bindName frame name value) := by
  apply (safe_note (.binds frame name value) h).bind
  intro _ _
  exact safe_act (preserves_bindName frame name h) fun machine => ⟨(), _, rfl⟩

theorem safe_emit (event : Event) : Safe bound (fun _ => True) (Traced.emit event) := by
  apply (safe_note (.shows event) trivial).bind
  intro _ _
  exact safe_act (preserves_emit event) fun machine => ⟨(), _, rfl⟩

theorem safe_label {node : Node} (h : node.isLabelled = true) :
    Safe bound (fun _ => True) (act (Action.ofExcept node.label)) := by
  unfold Node.isLabelled at h
  cases hlabel : node.label with
  | ok label => exact safe_pure trivial
  | error fault =>
      rw [hlabel] at h
      cases h

theorem safe_traceParameters (frame : FrameId) {pairs : List (Node × Value)}
    (h : ∀ pair ∈ pairs, pair.1.isLabelled = true ∧ pair.2.Clear Value.isBroken) :
    Safe bound (fun _ => True) (traceParameters frame pairs) := by
  induction pairs with
  | nil => exact safe_pure trivial
  | cons pair rest ih =>
      obtain ⟨⟨hlabel, hvalue⟩, hrest⟩ := List.forall_mem_cons.mp h
      apply (safe_label hlabel).bind
      intro label _
      exact (safe_bindName frame label hvalue).bind fun _ _ => ih hrest

theorem unstopped_run (builtin : Builtin) (arguments : List Value) :
    Unstopped (builtin.run arguments) := by
  intro machine
  cases builtin with
  | puts | first | last => exact ⟨_, _, rfl⟩
  | toStr | len | push =>
      simp only [Builtin.run]
      split <;> exact ⟨_, _, rfl⟩
  | rest =>
      simp only [Builtin.run]
      cases arrayArgument .rest arguments with
      | error problem => exact ⟨_, _, rfl⟩
      | ok elements =>
          by_cases hempty : elements.isEmpty = true
          · simp only [if_pos hempty]
            exact ⟨_, _, rfl⟩
          · simp only [if_neg hempty]
            exact ⟨_, _, rfl⟩

theorem unstopped_locateError (token : Option Token) (value : Value) :
    Unstopped (locateError token value) := by
  intro machine
  unfold locateError
  split
  · split <;> exact ⟨_, _, rfl⟩
  · exact ⟨_, _, rfl⟩

theorem safe_builtinTrace (builtin : Builtin) {arguments : List Value}
    (h : ∀ value ∈ arguments, value.Clear Value.isBroken) :
    Safe bound (Granted Value.isBroken) (builtin.trace arguments) := by
  have hrun : Safe bound (Granted Value.isBroken) (act (builtin.run arguments)) :=
    safe_act (preserves_run foreign_isBroken builtin h) (unstopped_run builtin arguments)
  cases builtin with
  | puts => exact (safe_note (.shows _) trivial).bind fun _ _ => hrun
  | _ => exact hrun

theorem yields_traceApply {eval : Node → FrameId → Traced Value}
    (heval : ∀ body inside, body.Sound → Yields bound (eval body inside)) (token : Option Token)
    (callee : Node) (arguments : List Node) {function : Value} {values : List Value}
    (hfunction : function.Clear Value.isBroken)
    (hvalues : ∀ value ∈ values, value.Clear Value.isBroken) :
    Yields bound (traceApply eval token callee arguments function values) := by
  cases function with
  | builtin builtin =>
      apply (safe_builtinTrace builtin hvalues).bind
      intro result hresult
      cases result with
      | ok value =>
          exact safe_act (preserves_locateError foreign_isBroken.shallow token (hresult value rfl))
            (unstopped_locateError token value)
      | error problem =>
          intro machine hclear
          exact smooth_ok (List.forall_mem_singleton.mpr trivial) (clear_made problem _) hclear
  | function identity parameters body outer =>
      obtain ⟨hparameters, hbody⟩ := clear_function.mp hfunction
      simp only [traceApply]
      split
      · exact yields_problem _ _
      · apply (safe_act (preserves_openFrame (some outer)) fun machine => ⟨_, _, rfl⟩).bind
        intro frame _
        have hpairs : ∀ pair ∈ parameters.zip values,
            pair.1.isLabelled = true ∧ pair.2.Clear Value.isBroken := by
          intro pair hpair
          obtain ⟨hparameter, hvalue⟩ := List.of_mem_zip hpair
          exact ⟨hparameters _ hparameter, hvalues _ hvalue⟩
        apply (safe_traceParameters frame hpairs).bind
        intro _ _
        exact (heval body frame hbody).bind fun _ hvalue => safe_pure hvalue.unwrap
  | _ => exact yields_problem _ _

theorem yields_traceLet (frame : FrameId) {name : Node} {value : Value}
    (hname : name.isLabelled = true) (hvalue : value.Clear Value.isBroken) :
    Yields bound (traceLet frame name value) := by
  apply (safe_label hname).bind
  intro label _
  have hbind : Yields bound (Traced.bindName frame label value >>= fun _ => pure .nil) :=
    (safe_bindName frame label hvalue).bind fun _ _ => yields_data rfl rfl
  cases label with
  | name text =>
      simp only
      split
      · exact (safe_emit _).bind fun _ _ => hbind
      · exact hbind
  | _ => exact hbind

theorem yields_traceName (frame : FrameId) (token : Option Token) (name : String) :
    Yields bound (traceName frame token name) := by
  unfold traceName
  cases Builtin.ofName? name with
  | some builtin => exact yields_data rfl rfl
  | none =>
      apply (safe_act (preserves_lookup frame _) fun machine => ⟨_, _, rfl⟩).bind
      intro found hfound
      cases found with
      | some value => exact safe_pure (hfound value rfl)
      | none => exact yields_problem _ _

end Nodes

/-- A node that can be run is run smoothly. -/
theorem Node.Sound.yields {node : Node} (h : node.Sound) (depth : Nat) (use : Use)
    (frame : FrameId) : Yields depth (node.trace depth use frame) := by
  induction depth generalizing use node frame with
  | zero => exact safe_tooDeep
  | succ depth ih =>
      unfold Node.trace
      apply Safe.entering
      have heval (use : Use) (child : Node) (hchild : child ∈ node.children) :
          Yields depth (child.trace depth use frame) := ih (h.child hchild) use frame
      have hkeep (child : Node) (hchild : child ∈ node.children) :
          Yields depth (keep (fun child => child.trace depth .kept frame) child) :=
        yields_keep (heval .kept child hchild)
      have hrunnable : node.isRunnable = true := (Node.everywhere_iff.mp h).1
      cases node with
      | missing | int | string | bool => exact yields_data rfl rfl
      | text | flag => cases hrunnable
      | program statements =>
          apply (yields_runBlock (heval .passed) (foreign_isBroken.clear rfl rfl)).bind
          intro value hvalue
          exact safe_pure (hvalue.unwrap.shown foreign_isBroken.shallow)
      | exprStmt token expression => exact heval use expression List.mem_cons_self
      | letStmt token name value =>
          apply yields_unlessError (hkeep value (by simp [Node.children]))
          intro value hvalue
          exact yields_traceLet frame hrunnable hvalue
      | returnStmt token value =>
          apply yields_unlessError (hkeep value List.mem_cons_self)
          intro value hvalue
          apply (safe_note (.returns use) trivial).bind
          intro _ _
          apply (safe_act preserves_newIdentity fun machine => ⟨_, _, rfl⟩).bind
          intro identity _
          exact safe_pure (hvalue.returned rfl)
      | block token statements =>
          exact yields_runBlock (heval use) (foreign_isBroken.clear rfl rfl)
      | ident token name => exact yields_traceName frame token name
      | prefixOp token operator right =>
          apply yields_unlessError (hkeep right List.mem_cons_self)
          intro right _
          exact yields_raise _ fun value hvalue => foreign_isBroken.clear_prefix hvalue
      | infixOp token left operator right =>
          apply yields_unlessError (hkeep left List.mem_cons_self)
          intro left _
          apply yields_unlessError (hkeep right (by simp [Node.children]))
          intro right _
          exact yields_raise _ fun value hvalue => foreign_isBroken.clear_infix hvalue
      | ifElse token condition consequence alternative =>
          apply yields_unlessError (heval .tested condition List.mem_cons_self)
          intro value _
          split
          · exact heval use consequence (by simp [Node.children])
          · exact heval use alternative (by simp [Node.children])
      | function token parameters body =>
          apply (safe_act preserves_newIdentity fun machine => ⟨_, _, rfl⟩).bind
          intro identity _
          apply safe_pure
          refine clear_function.mpr ⟨List.all_eq_true.mp hrunnable, ?_⟩
          exact h.child (by simp [Node.children])
      | call token callee arguments =>
          apply yields_unlessError (heval .tested callee List.mem_cons_self)
          intro function hfunction
          have harguments := gathers_evalAll fun argument hargument =>
            hkeep argument (List.mem_cons_of_mem callee hargument)
          apply harguments.bind
          intro result hresult
          cases result with
          | error error => exact safe_pure hresult
          | ok values =>
              have happly := yields_traceApply (fun body inside hbody => ih hbody .passed inside)
                token callee arguments hfunction hresult
              exact happly.bind fun _ hvalue => yields_record hvalue hvalue
      | array token elements =>
          apply (gathers_evalAll hkeep).bind
          intro result hresult
          cases result with
          | error error => exact safe_pure hresult
          | ok values =>
              exact safe_act (preserves_newArray foreign_isBroken.shallow hresult)
                fun machine => ⟨_, _, rfl⟩
      | index token left position =>
          apply yields_unlessError (hkeep left List.mem_cons_self)
          intro left hleft
          apply yields_unlessError (hkeep position (by simp [Node.children]))
          intro position _
          exact yields_raise _ fun value hvalue => foreign_isBroken.shallow.clear_index hleft hvalue
      | hash token pairs =>
          have hpairs : ∀ pair ∈ pairs, ∀ use, Yields depth (pair.1.trace depth use frame) ∧
              Yields depth (pair.2.trace depth use frame) := by
            intro pair hpair use
            constructor
            · exact heval use pair.1 (List.mem_flatMap.mpr ⟨pair, hpair, by simp⟩)
            · exact heval use pair.2 (List.mem_flatMap.mpr ⟨pair, hpair, by simp⟩)
          have hgathers := gathers_tracePairs (fun use node => node.trace depth use frame) hpairs
            (List.forall_mem_nil _)
          apply hgathers.bind
          intro result hresult
          cases result with
          | error error => exact safe_pure hresult
          | ok entries =>
              apply (safe_act preserves_newIdentity fun machine => ⟨_, _, rfl⟩).bind
              intro identity _
              exact safe_pure (foreign_isBroken.clear_hash hresult)

/-! ### Parsed programs -/

theorem isLabelled_of_isName {node : Node} (h : node.isName = true) : node.isLabelled = true := by
  cases node <;> first | rfl | cases h

theorem Node.WellFormed.isRunnable {tokens : List Token} {node : Node}
    (h : node.WellFormed tokens) : node.isRunnable = true := by
  cases node with
  | text | flag => cases h
  | letStmt token name value => exact isLabelled_of_isName h.2.1
  | function token parameters body =>
      exact List.all_eq_true.mpr fun parameter hparameter =>
        isLabelled_of_isName (h.2.1 parameter hparameter)
  | _ => rfl

theorem Parses.sound {source : String} {program : Node} (h : Parses source program) :
    program.Sound := by
  obtain ⟨_, _, hwhole⟩ := h.complete
  exact hwhole.mono fun _ => Node.WellFormed.isRunnable

theorem Node.Parsed.sound {node : Node} (h : node.Parsed) : node.Sound := by
  obtain ⟨source, program, hparses, hmem⟩ := h
  exact hparses.sound.part hmem

theorem Node.Sound.eval {node : Node} (h : node.Sound) (depth : Nat) (frame : FrameId)
    {machine : Machine} (hclear : machine.Clear Value.isBroken) :
    Ends Value.isBroken (Value.Clear Value.isBroken) (node.eval depth frame machine) ∧
      ∀ fault after, node.eval depth frame machine = .error fault after →
        fault = .tooDeep ∧ depth ≤ entryCount (node.trace depth .passed frame machine).1 := by
  obtain ⟨hfine, hstops⟩ := h.yields depth .passed frame machine hclear
  have hends := hfine.ends
  rw [Node.trace_result] at hends hstops
  exact ⟨hends, hstops⟩

/-- No reachable machine holds a function that cannot be run. -/
theorem Machine.Reachable.unbroken {machine : Machine} (h : machine.Reachable) :
    machine.Clear Value.isBroken := by
  induction h with
  | start => exact clear_start
  | opens _ ih => exact Store.Clear.open ih none
  | drains _ ih => exact ih
  | enters _ hnode hmid ih =>
      exact (hnode.sound.yields _ _ _ _ ih).fine.calm _ hmid
  | leaves _ hnode ih => exact (hnode.sound.eval _ _ ih).1.leaves

end Monkey
