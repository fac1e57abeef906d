/-
Warnings about bindings that will never be looked up.  One is due for every let statement that is
entered with the name of a built-in function and a value that is no error; what a run warns about
is just what is due in it.  Since the bindings are dead, the warnings are true.
-/
import Mathlib.Data.List.Basic
import Monkey.Proofs.Running.Depth
import Monkey.Proofs.Running.Reserved

namespace Monkey

open Traced

variable {α β : Type}

/-! ### What is due -/

def Event.isWarning : Event → Bool
  | .warned .. => true
  | .wrote _ => false

/-- The warnings among what is shown. -/
def warnings (shown : Array Event) : List Event :=
  shown.toList.filter Event.isWarning

/-- The warning about a binding, if it is under the name of a built-in function. -/
def bindingWarning? (name : Node) : Option Event :=
  match name.label with
  | .ok (.name text) =>
      if (Builtin.ofName? text).isSome then
        some (.warned
          ("'" ++ text ++ "' is a built-in function, so this binding will never be looked up")
          name.token?)
      else none
  | _ => none

/-- The warning that is due where a let statement is entered: its value, evaluated from there, is no
error, and its name is that of a built-in function. -/
def Occurrence.due? (limit : Nat) : Occurrence → Option Event
  | .enters (.letStmt _ name value) frame machine =>
      match value.eval limit frame machine with
      | .ok value _ => if value.isError then none else bindingWarning? name
      | .error .. => none
  | _ => none

/-- A run that ends has given the warnings that are due, each one once and no others.  So has one
that is stopped, unless it is nested too deep: then let statements may be cut short that would have
had their value below a deeper limit. -/
inductive Warns (due : List Event) (machine : Machine) : EStateM.Result Fault Machine α → Prop
  | ok {value : α} {after : Machine} (shown : Array Event)
      (hevents : after.events = machine.events ++ shown) (hdue : (warnings shown).Perm due) :
      Warns due machine (.ok value after)
  | error {fault : Fault} {after : Machine} (shown : Array Event) (unfinished : List Event)
      (hevents : after.events = machine.events ++ shown)
      (hdue : (warnings shown ++ unfinished).Perm due)
      (hdepth : fault ≠ .tooDeep → unfinished = []) : Warns due machine (.error fault after)

section

variable {due due' : List Event} {machine mid after : Machine}
  {result : EStateM.Result Fault Machine α} {result' : EStateM.Result Fault Machine β}

theorem warnings_append (shown later : Array Event) :
    warnings (shown ++ later) = warnings shown ++ warnings later := by
  rw [warnings, Array.toList_append, List.filter_append, warnings, warnings]

theorem Warns.perm (h : Warns due machine result) (hperm : due.Perm due') :
    Warns due' machine result := by
  cases h with
  | ok shown hevents hdue => exact .ok shown hevents (hdue.trans hperm)
  | error shown unfinished hevents hdue hdepth =>
      exact .error shown unfinished hevents (hdue.trans hperm) hdepth

/-- One run after another one. -/
theorem Warns.append {value : α} (h : Warns due machine (.ok value mid))
    (h' : Warns due' mid result') : Warns (due ++ due') machine result' := by
  cases h with
  | ok shown hevents hdue =>
  cases h' with
  | ok later hlater hdue' =>
      refine .ok (shown ++ later) ?_ ?_
      · rw [hlater, hevents, Array.append_assoc]
      · rw [warnings_append]
        exact hdue.append hdue'
  | error later unfinished hlater hdue' hdepth =>
      refine .error (shown ++ later) unfinished ?_ ?_ hdepth
      · rw [hlater, hevents, Array.append_assoc]
      · rw [warnings_append, List.append_assoc]
        exact hdue.append hdue'

/-- A run that is stopped leaves what follows out. -/
theorem Warns.stops {fault : Fault} {stopped : EStateM.Result Fault Machine α}
    (h : Warns due machine stopped) (hstopped : stopped = .error fault after) :
    Warns due machine (.error fault after : EStateM.Result Fault Machine β) := by
  subst hstopped
  cases h with
  | error shown unfinished hevents hdue hdepth =>
      exact .error shown unfinished hevents hdue hdepth

/-- What else is due where a run gets too deep stays unfinished. -/
theorem Warns.tooDeep {stopped : EStateM.Result Fault Machine α} (h : Warns due machine stopped)
    (hstopped : stopped = .error .tooDeep after) (more : List Event) :
    Warns (more ++ due) machine (.error .tooDeep after : EStateM.Result Fault Machine β) := by
  subst hstopped
  cases h with
  | error shown unfinished hevents hdue hdepth =>
      refine .error shown (more ++ unfinished) hevents ?_ fun hne => absurd rfl hne
      exact (List.perm_append_comm_assoc _ _ _).trans (hdue.append_left more)

end

/-! ### Runs that settle what is due -/

/-- Runs settle what is due in them, and what is owed besides. -/
def Tallies (limit : Nat) (owed : List Event) (traced : Traced α) : Prop :=
  ∀ machine, Warns (owed ++ (traced machine).1.filterMap (Occurrence.due? limit)) machine
    (traced machine).2

section

variable {limit : Nat} {owed : List Event}

theorem tallies_silent {action : Action α}
    (h : ∀ machine, (action.leaves machine).events = machine.events) :
    Tallies limit [] (act action) := by
  intro machine
  have hevents := h machine
  unfold Action.leaves at hevents
  show Warns [] machine (action machine)
  cases hrun : action machine with
  | ok value after =>
      rw [hrun] at hevents
      exact .ok #[] (hevents.trans Array.append_empty.symm) .nil
  | error fault after =>
      rw [hrun] at hevents
      exact .error #[] [] (hevents.trans Array.append_empty.symm) .nil fun _ => rfl

theorem tallies_pure (value : α) : Tallies limit [] (pure value) :=
  fun _ => .ok #[] Array.append_empty.symm .nil

theorem tallies_throw (fault : Fault) : Tallies limit [] (act (throw fault : Action α)) :=
  tallies_silent fun _ => rfl

theorem tallies_note {occurrence : Occurrence} (h : occurrence.due? limit = none) :
    Tallies limit [] (note occurrence) := by
  intro machine
  show Warns ([] ++ [occurrence].filterMap (Occurrence.due? limit)) machine _
  rw [List.filterMap_cons_none h]
  exact .ok #[] Array.append_empty.symm .nil

theorem Tallies.bind {traced : Traced α} {go : α → Traced β} (h : Tallies limit owed traced)
    (hgo : ∀ value, Tallies limit [] (go value)) : Tallies limit owed (traced >>= go) := by
  intro machine
  have hwarns := h machine
  cases hrun : traced machine with
  | mk trace result =>
      rw [hrun] at hwarns
      cases result with
      | ok value after =>
          rw [traced_bind_of_ok hrun, List.filterMap_append, ← List.append_assoc]
          exact hwarns.append (hgo value after)
      | error fault after =>
          rw [traced_bind_of_fault hrun]
          exact hwarns.stops rfl

theorem tallies_raise (node : Node) (result : Except Problem Value) :
    Tallies limit [] (raise node result) := by
  cases result with
  | ok value => exact tallies_pure value
  | error problem => exact fun _ => .ok #[] Array.append_empty.symm .nil

theorem tallies_record {occurrence : Value → Occurrence} (value : Value)
    (h : (occurrence value).due? limit = none) : Tallies limit [] (record occurrence value) := by
  unfold record
  split
  · exact tallies_pure value
  · exact (tallies_note h).bind fun _ => tallies_pure value

theorem tallies_bindName (frame : FrameId) (name : Label) (value : Value) :
    Tallies limit [] (Traced.bindName frame name value) :=
  (tallies_note rfl).bind fun _ => tallies_silent fun _ => rfl

theorem tallies_ofExcept (result : Except Fault α) :
    Tallies limit [] (act (Action.ofExcept result)) := by
  cases result with
  | ok value => exact tallies_pure value
  | error fault => exact tallies_throw fault

theorem tallies_of_ok {value : α} {go : α → Traced β} (h : Tallies limit owed (go value)) :
    Tallies limit owed (act (Action.ofExcept (.ok value)) >>= go) :=
  h

/-- What a warning is owed for is settled by giving it. -/
theorem tallies_emit {event : Event} (h : event.isWarning = true) :
    Tallies limit [event] (Traced.emit event) := by
  intro machine
  refine .ok #[event] Array.push_eq_append ?_
  rw [warnings, List.filter_cons_of_pos h]
  exact .refl [event]

/-! ### Lists of nodes -/

theorem tallies_unlessError (value : Value) {go : Value → Traced Value}
    (h : ∀ value, Tallies limit [] (go value)) : Tallies limit [] (unlessError value go) := by
  unfold unlessError
  split
  · exact tallies_pure value
  · exact h value

theorem tallies_keep {eval : Node → Traced Value} {node : Node}
    (h : Tallies limit [] (eval node)) : Tallies limit [] (keep eval node) :=
  h.bind fun value => tallies_record value rfl

theorem tallies_evalAll {eval : Node → Traced Value} (h : ∀ node, Tallies limit [] (eval node))
    (nodes : List Node) : Tallies limit [] (evalAll eval nodes) := by
  induction nodes with
  | nil => exact tallies_pure _
  | cons node rest ih =>
      apply (h node).bind
      intro value
      split
      · exact tallies_pure _
      · exact ih.bind fun _ => tallies_pure _

theorem tallies_runBlock {eval : Node → Traced Value} (h : ∀ node, Tallies limit [] (eval node))
    (last : Value) (nodes : List Node) : Tallies limit [] (runBlock eval last nodes) := by
  induction nodes generalizing last with
  | nil => exact tallies_pure last
  | cons node rest ih =>
      apply (h node).bind
      intro value
      split
      · exact tallies_pure value
      · exact ih value

theorem tallies_tracePairs {eval : Use → Node → Traced Value}
    (h : ∀ use node, Tallies limit [] (eval use node)) (entries : List (Key × Value))
    (pairs : List (Node × Node)) : Tallies limit [] (tracePairs eval entries pairs) := by
  induction pairs generalizing entries with
  | nil => exact tallies_pure _
  | cons pair rest ih =>
      obtain ⟨keyNode, valueNode⟩ := pair
      apply (h .tested keyNode).bind
      intro keyValue
      split
      · exact tallies_pure _
      · cases keyValue.key? with
        | none => exact (tallies_raise keyNode _).bind fun _ => tallies_pure _
        | some key =>
            apply (tallies_note rfl).bind
            intro _
            apply (tallies_keep (h .kept valueNode)).bind
            intro value
            split
            · exact tallies_pure _
            · exact ih _

/-! ### Calls and names -/

theorem tallies_traceParameters (frame : FrameId) (pairs : List (Node × Value)) :
    Tallies limit [] (traceParameters frame pairs) := by
  induction pairs with
  | nil => exact tallies_pure ()
  | cons pair rest ih =>
      apply (tallies_ofExcept pair.1.label).bind
      intro label
      exact (tallies_bindName frame label pair.2).bind fun _ => ih

/-- Built-in functions show lines, but no warnings. -/
theorem tallies_builtinTrace (builtin : Builtin) (arguments : List Value) :
    Tallies limit [] (builtin.trace arguments) := by
  cases builtin with
  | puts =>
      apply (tallies_note rfl).bind
      intro _ machine
      exact .ok #[.wrote (String.join (arguments.map Value.display))] Array.push_eq_append .nil
  | first | last => exact tallies_pure _
  | toStr | len | push =>
      apply tallies_silent
      intro machine
      simp only [Builtin.run]
      split <;> rfl
  | rest =>
      apply tallies_silent
      intro machine
      simp only [Builtin.run]
      split
      · rfl
      · split <;> rfl

theorem tallies_locateError (token : Option Token) (value : Value) :
    Tallies limit [] (act (locateError token value)) := by
  apply tallies_silent
  intro machine
  unfold locateError
  split
  · next identity _ => cases identity <;> rfl
  · rfl

theorem tallies_traceApply {eval : Node → FrameId → Traced Value}
    (h : ∀ node frame, Tallies limit [] (eval node frame)) (token : Option Token) (callee : Node)
    (arguments : List Node) (function : Value) (values : List Value) :
    Tallies limit [] (traceApply eval token callee arguments function values) := by
  cases function with
  | builtin builtin =>
      apply (tallies_builtinTrace builtin values).bind
      intro result
      cases result with
      | ok value => exact tallies_locateError token value
      | error problem => exact fun _ => .ok #[] Array.append_empty.symm .nil
  | function identity parameters body outer =>
      simp only [traceApply]
      split
      · exact tallies_raise _ _
      · apply (tallies_silent fun _ => rfl).bind
        intro frame
        apply (tallies_traceParameters frame _).bind
        intro _
        exact (h body frame).bind fun _ => tallies_pure _
  | _ => exact tallies_raise _ _

theorem tallies_traceName (frame : FrameId) (token : Option Token) (name : String) :
    Tallies limit [] (traceName frame token name) := by
  unfold traceName
  cases Builtin.ofName? name with
  | some builtin => exact tallies_pure _
  | none =>
      apply (tallies_silent fun _ => rfl).bind
      intro found
      cases found with
      | some value => exact tallies_pure value
      | none => exact tallies_raise _ _

/-- Binding a value gives the warning that is owed for its name. -/
theorem tallies_traceLet (frame : FrameId) (name : Node) (value : Value) :
    Tallies limit (bindingWarning? name).toList (traceLet frame name value) := by
  have hbind (label : Label) :
      Tallies limit [] (Traced.bindName frame label value >>= fun _ => pure Value.nil) :=
    (tallies_bindName frame label value).bind fun _ => tallies_pure _
  unfold traceLet bindingWarning?
  cases name.label with
  | error fault => exact fun _ => .error #[] [] Array.append_empty.symm .nil fun _ => rfl
  | ok label =>
      apply tallies_of_ok
      cases label with
      | name text =>
          by_cases hreserved : (Builtin.ofName? text).isSome = true
          · simp only [if_pos hreserved]
            exact (tallies_emit rfl).bind fun _ => hbind (.name text)
          · simp only [if_neg hreserved]
            exact hbind (.name text)
      | _ => exact hbind _

/-! ### Runs of nodes -/

theorem tallies_enter {node : Node} (frame : FrameId)
    (h : ∀ token name value, node ≠ .letStmt token name value) :
    Tallies limit [] (enter node frame) := by
  intro machine
  have hdue : (Occurrence.enters node frame machine).due? limit = none := by
    cases node with
    | letStmt token name value => exact absurd rfl (h token name value)
    | _ => rfl
  show Warns ([] ++ [Occurrence.enters node frame machine].filterMap _) machine _
  rw [List.filterMap_cons_none hdue]
  exact .ok #[] Array.append_empty.symm .nil

/-- A let statement gives its own warning behind those that its value gives. -/
theorem tallies_letStmt {depth : Nat} (hdepth : depth ≤ limit) (token : Option Token) (name : Node)
    {value : Node} {frame : FrameId} (h : Tallies limit [] (value.trace depth .kept frame)) :
    Tallies limit [] (enter (.letStmt token name value) frame >>= fun _ =>
      keep (fun node => node.trace depth .kept frame) value >>= fun value =>
        unlessError value (traceLet frame name)) := by
  intro machine
  let entry : Occurrence := .enters (.letStmt token name value) frame machine
  have hentry (go : Traced Value) :
      (enter (.letStmt token name value) frame >>= fun _ => go) machine =
        (entry :: (go machine).1, (go machine).2) := rfl
  rw [hentry, List.filterMap_eq_flatMap_toList, List.flatMap_cons,
    ← List.filterMap_eq_flatMap_toList, List.nil_append]
  have hvalue : Warns _ machine _ := h machine
  -- What is due is decided under the limit, though the value is evaluated at a lower depth.
  have hwithin := Node.eval_within hdepth value frame machine
  rw [← Node.trace_result depth .kept value frame machine] at hwithin
  cases hrun : value.trace depth .kept frame machine with
  | mk trace result =>
  rw [hrun] at hvalue hwithin
  cases result with
  | error fault after =>
      have hkeep : keep (fun node => node.trace depth .kept frame) value machine =
          (trace, .error fault after) := traced_bind_of_fault hrun
      rw [traced_bind_of_fault hkeep]
      rcases hwithin with ⟨_, hdeep⟩ | hsame
      · cases hdeep
        exact hvalue.tooDeep rfl _
      · have hdue : entry.due? limit = none := by
          simp only [entry, Occurrence.due?, hsame]
        rw [hdue]
        exact hvalue.stops rfl
  | ok found after =>
      rcases hwithin with ⟨_, hdeep⟩ | hsame
      · cases hdeep
      · cases herror : found.isError with
        | true =>
            have hdue : entry.due? limit = none := by
              simp only [entry, Occurrence.due?, hsame, herror, if_true]
            have hgo : unlessError found (traceLet frame name) = pure found := by
              rw [unlessError, if_pos herror]
            rw [hdue, traced_bind_pure (keep_of_error herror hrun) hgo]
            exact hvalue
        | false =>
            have hdue : entry.due? limit = bindingWarning? name := by
              simp only [entry, Occurrence.due?, hsame, herror, Bool.false_eq_true, if_false]
            rw [hdue, traced_bind_of_ok (keep_of_ok herror hrun), unlessError,
              if_neg (Bool.eq_false_iff.mp herror), List.filterMap_append, List.filterMap_append,
              List.append_assoc]
            have hbound : Tallies limit _ (traceLet frame name found) :=
              tallies_traceLet frame name found
            exact (hvalue.append (hbound after)).perm (List.perm_append_comm_assoc _ _ _)

/-- Every run settles what is due in it, by induction on the depth. -/
theorem tallies_trace {depth : Nat} (hdepth : depth ≤ limit) (use : Use) (node : Node)
    (frame : FrameId) : Tallies limit [] (node.trace depth use frame) := by
  induction depth generalizing use node frame with
  | zero => exact tallies_throw .tooDeep
  | succ depth ih =>
      have hlower : depth ≤ limit := Nat.le_of_succ_le hdepth
      have heval (use : Use) (node : Node) : Tallies limit [] (node.trace depth use frame) :=
        ih hlower use node frame
      have hkeep (node : Node) :
          Tallies limit [] (keep (fun node => node.trace depth .kept frame) node) :=
        tallies_keep (heval .kept node)
      unfold Node.trace
      by_cases hlet : ∃ token name value, node = .letStmt token name value
      · obtain ⟨token, name, value, rfl⟩ := hlet
        exact tallies_letStmt hlower token name (heval .kept value)
      · apply (tallies_enter frame fun token name value heq => hlet ⟨token, name, value, heq⟩).bind
        intro _
        cases node with
        | letStmt token name value => exact absurd ⟨token, name, value, rfl⟩ hlet
        | missing | int | string | bool => exact tallies_pure _
        | text | flag => exact tallies_throw _
        | program statements =>
            exact (tallies_runBlock (heval .passed) .nil statements).bind fun _ => tallies_pure _
        | exprStmt token expression => exact heval use expression
        | returnStmt token value =>
            apply (hkeep value).bind
            intro value
            apply tallies_unlessError
            intro value
            apply (tallies_note rfl).bind
            intro _
            exact (tallies_silent fun _ => rfl).bind fun _ => tallies_pure _
        | block token statements => exact tallies_runBlock (heval use) .nil statements
        | ident token name => exact tallies_traceName frame token name
        | prefixOp token operator right =>
            apply (hkeep right).bind
            intro value
            exact tallies_unlessError value fun right => tallies_raise _ _
        | infixOp token left operator right =>
            apply (hkeep left).bind
            intro value
            apply tallies_unlessError
            intro left
            apply (hkeep right).bind
            intro value
            exact tallies_unlessError value fun right => tallies_raise _ _
        | ifElse token condition consequence alternative =>
            apply (heval .tested condition).bind
            intro value
            apply tallies_unlessError
            intro condition
            split
            · exact heval use consequence
            · exact heval use alternative
        | function token parameters body =>
            exact (tallies_silent fun _ => rfl).bind fun _ => tallies_pure _
        | call token callee arguments =>
            apply (heval .tested callee).bind
            intro value
            apply tallies_unlessError
            intro function
            apply (tallies_evalAll hkeep arguments).bind
            intro result
            cases result with
            | error error => exact tallies_pure error
            | ok values =>
                apply (tallies_traceApply (fun body frame => ih hlower .passed body frame) token
                  callee arguments function values).bind
                exact fun value => tallies_record value rfl
        | array token elements =>
            apply (tallies_evalAll hkeep elements).bind
            intro result
            cases result with
            | error error => exact tallies_pure error
            | ok values => exact tallies_silent fun _ => rfl
        | index token left position =>
            apply (hkeep left).bind
            intro value
            apply tallies_unlessError
            intro left
            apply (hkeep position).bind
            intro value
            exact tallies_unlessError value fun position => tallies_raise _ _
        | hash token pairs =>
            apply (tallies_tracePairs heval [] pairs).bind
            intro result
            cases result with
            | error error => exact tallies_pure error
            | ok entries => exact (tallies_silent fun _ => rfl).bind fun _ => tallies_pure _

end

/-- Bindings of reserved names are dead, and warned about.  On machines that agree but for such
bindings every node is run alike: what it gives, shows and leaves is the same, frames and identities
under their other names, and what it leaves agrees again.  A run warns once for each let statement
that binds a reserved name to a value that is no error, and of nothing else. -/
theorem Node.reserved_bindings_dead (depth : Nat) (node : Node) (frame : FrameId) :
    (∀ {names : Renaming} {machine machine' : Machine}, names.Lawful →
      machine.Agrees names machine' →
        EndsInStep names (Value.rename names) machine.events machine'.events
          (node.eval depth frame machine) (node.eval depth (names.frame frame) machine')) ∧
      ∀ (use : Use) (machine : Machine),
        Warns ((node.trace depth use frame machine).1.filterMap (Occurrence.due? depth)) machine
          (node.eval depth frame machine) := by
  constructor
  · intro names machine machine' hnames hagrees
    exact node.tracks_eval hnames depth frame _ _ machine machine' hagrees.inStep
  · intro use machine
    rw [← node.trace_result depth use frame machine]
    exact tallies_trace (Nat.le_refl depth) use node frame machine

/-- A list of a call of `len`, behind a binding of that name which is absent from the first machine
and takes up an identity in the second one. -/
theorem shadowed_len_unseen :
    let names : Renaming := ⟨id, (· + 1)⟩
    let shadowed : Machine := ⟨⟨#[⟨[(.name "len", .array 0 [])], none⟩]⟩, 1, #[]⟩
    let node : Node := .array none [.call none (.ident none "len") [.string none "ab"]]
    names.Lawful ∧ Machine.start.Agrees names shadowed ∧
      EndsInStep names (Value.rename names) #[] #[] (node.eval 4 rootFrame Machine.start)
        (node.eval 4 rootFrame shadowed) := by
  intro names shadowed node
  have hnames : names.Lawful := ⟨strictMono_id, fun _ _ heq => Nat.succ.inj heq⟩
  have hagrees : Machine.start.Agrees names shadowed := by
    refine ⟨fun id => ?_, fun _ => rfl, fun more => ?_⟩
    · match id with
      | 0 =>
          refine .some ⟨rfl, fun label hlabel => ?_⟩
          have hne : label ≠ .name "len" := by
            rintro rfl
            exact absurd hlabel (by decide)
          show [(Label.name "len", Value.array 0 [])].lookup label = none
          rw [List.lookup_cons, beq_false_of_ne hne]
          rfl
      | _ + 1 => exact .none
    · show 0 + more + 1 = 1 + more
      omega
  exact ⟨hnames, hagrees, (node.reserved_bindings_dead 4 rootFrame).1 hnames hagrees⟩

end Monkey
