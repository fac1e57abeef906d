/-
Names of built-in functions are looked up before any frame, so what frames bind under them is never
read.  Two machines agree if they hold the same, frames and identities perhaps under other names,
but for bindings of that kind: present, absent or different, in whatever frames.  Code is run alike
on them and leaves them in agreement.
-/
import Mathlib.Order.Monotone.Basic
import Monkey.Proofs.Running.Renaming

namespace Monkey

/-- Frames stay in their order, and identities stay different. -/
structure Renaming.Lawful (names : Renaming) : Prop where
  frame : StrictMono names.frame
  identity : Function.Injective names.identity

/-! ### Operations on values under other names -/

section

variable {names : Renaming}

@[simp] theorem isError_rename (value : Value) :
    (value.rename names).isError = value.isError := by
  cases value <;> rfl

@[simp] theorem isSignal_rename (value : Value) :
    (value.rename names).isSignal = value.isSignal := by
  cases value <;> rfl

@[simp] theorem isTruthy_rename (value : Value) :
    (value.rename names).isTruthy = value.isTruthy := by
  cases value <;> rfl

@[simp] theorem typeName_rename (value : Value) :
    (value.rename names).typeName = value.typeName := by
  cases value <;> rfl

@[simp] theorem key?_rename (value : Value) : (value.rename names).key? = value.key? := by
  cases value <;> rfl

theorem unwrap_rename (value : Value) :
    (value.rename names).unwrap = value.unwrap.rename names := by
  cases value <;> rfl

theorem shown_rename (value : Value) :
    (value.rename names).shown = value.shown.rename names := by
  cases value <;> rfl

theorem rename_of_isScalar {value : Value} (h : value.isScalar = true) :
    value.rename names = value := by
  cases value <;> first | rfl | cases h

theorem rename_of_key? {value : Value} {key : Key} (h : value.key? = some key) :
    value.rename names = value := by
  rw [Value.key?_eq_some.mp h]
  cases key <;> rfl

theorem settle_rename (token : Option Token) (result : Except Problem Value) :
    settle token (result.map (Value.rename names)) = (settle token result).rename names := by
  cases result <;> rfl

/-- What has no names of frames and identities in it stays as it is. -/
theorem map_rename_of_isScalar {result : Except Problem Value}
    (h : ∀ value, result = .ok value → value.isScalar = true) :
    result.map (Value.rename names) = result := by
  cases result with
  | error problem => rfl
  | ok value => exact congrArg Except.ok (rename_of_isScalar (h value rfl))

theorem applyPrefix_rename (operator : String) (right : Value) :
    applyPrefix operator (right.rename names) =
      (applyPrefix operator right).map (Value.rename names) := by
  have hscalar : ∀ value, applyPrefix operator right = .ok value → value.isScalar = true := by
    intro value hvalue
    unfold applyPrefix at hvalue
    split at hvalue <;> cases hvalue <;> rfl
  rw [map_rename_of_isScalar hscalar]
  cases right <;> first | rfl | simp only [Value.rename, applyPrefix, Value.typeName]

theorem equal_rename (h : names.Lawful) (left right : Value) :
    (left.rename names).equal (right.rename names) = left.equal right := by
  cases left <;> cases right <;>
    first
      | rfl
      | (simp only [Value.rename, Value.equal, Bool.beq_eq_decide_eq]
         exact decide_eq_decide.mpr h.identity.eq_iff)

theorem applyInfix_rename (h : names.Lawful) (operator : String) (left right : Value) :
    applyInfix operator (left.rename names) (right.rename names) =
      (applyInfix operator left right).map (Value.rename names) := by
  rw [map_rename_of_isScalar fun _ => isScalar_applyInfix]
  have hcompare (hnone : left.key? = none ∨ right.key? = none) :
      applyInfix operator (left.rename names) (right.rename names) =
        applyInfix operator left right := by
    rw [applyInfix_of_key? operator hnone, applyInfix_of_key? operator (by simpa using hnone),
      equal_rename h, typeName_rename, typeName_rename]
  cases hleft : left.key? with
  | none => exact hcompare (Or.inl hleft)
  | some key =>
      cases hright : right.key? with
      | none => exact hcompare (Or.inr hright)
      | some key' => rw [rename_of_key? hleft, rename_of_key? hright]

theorem insertEntry_rename (key : Key) (value : Value) (entries : List (Key × Value)) :
    insertEntry key (value.rename names) (renameEntries names entries) =
      renameEntries names (insertEntry key value entries) := by
  induction entries with
  | nil => rfl
  | cons entry rest ih =>
      obtain ⟨key₀, value₀⟩ := entry
      rw [renameEntries, insertEntry, insertEntry]
      split
      · rfl
      · rw [ih, renameEntries]

/-- A value that is found, or nil. -/
theorem getD_rename (found : Option Value) :
    (found.map (Value.rename names)).getD .nil = (found.getD .nil).rename names := by
  cases found <;> rfl

theorem applyIndex_rename (left index : Value) :
    applyIndex (left.rename names) (index.rename names) =
      (applyIndex left index).map (Value.rename names) := by
  cases left with
  | array identity elements =>
      cases index with
      | int position =>
          simp only [Value.rename, applyIndex, Except.map, renameAll_eq, List.getElem?_map,
            getD_rename]
          split <;> rfl
      | _ => rfl
  | hash identity entries =>
      have hlookup (key : Key) : (renameEntries names entries).lookup key =
          (entries.lookup key).map (Value.rename names) := by
        rw [renameEntries_eq]
        exact lookup_map_values _ key entries
      simp only [Value.rename, applyIndex, key?_rename, typeName_rename, hlookup, getD_rename]
      cases index.key? <;> rfl
  | _ => rfl

theorem arrayArgument_rename (builtin : Builtin) (arguments : List Value) :
    arrayArgument builtin (arguments.map (Value.rename names)) =
      (arrayArgument builtin arguments).map (List.map (Value.rename names)) := by
  rcases arguments with _ | ⟨value, _ | ⟨second, rest⟩⟩
  · rfl
  · cases value with
    | array identity elements =>
        simp only [List.map_cons, List.map_nil, Value.rename, arrayArgument, Except.map,
          renameAll_eq]
    | _ => rfl
  · simp [arrayArgument, Except.map]

end

mutual

/-- Giving an error its token has nothing to do with other names: those of errors stay. -/
theorem Value.locate_rename (names : Renaming) (identity : Nat) (token : Token) :
    ∀ value : Value, (value.rename names).locate identity token =
      (value.locate identity token).rename names
  | .array _ elements => by
      rw [Value.rename, Value.locate, Value.locate, Value.rename,
        locateAll_rename names identity token elements]
  | .hash _ entries => by
      rw [Value.rename, Value.locate, Value.locate, Value.rename,
        locateEntries_rename names identity token entries]
  | .returned _ value => by
      rw [Value.rename, Value.locate, Value.locate, Value.rename,
        value.locate_rename names identity token]
  | .error _ _ _ => by
      rw [Value.rename, Value.locate]
      · split <;> rfl
      all_goals nofun
  | .nil | .int _ | .bool _ | .string _ | .builtin _ | .function _ _ _ _ => rfl

theorem locateAll_rename (names : Renaming) (identity : Nat) (token : Token) :
    ∀ values : List Value, locateAll identity token (renameAll names values) =
      renameAll names (locateAll identity token values)
  | [] => rfl
  | value :: rest => by
      rw [renameAll, locateAll, locateAll, renameAll, value.locate_rename names identity token,
        locateAll_rename names identity token rest]

theorem locateEntries_rename (names : Renaming) (identity : Nat) (token : Token) :
    ∀ entries : List (Key × Value), locateEntries identity token (renameEntries names entries) =
      renameEntries names (locateEntries identity token entries)
  | [] => rfl
  | (_, value) :: rest => by
      rw [renameEntries, locateEntries, locateEntries, renameEntries,
        value.locate_rename names identity token, locateEntries_rename names identity token rest]

end

/-! ### Machines that agree -/

/-- The name of a built-in function. -/
def Label.isReserved : Label → Bool
  | .name text => (Builtin.ofName? text).isSome
  | _ => false

/-- A frame that stands for another one: names that are not reserved mean the same in both. -/
structure Frame.Agrees (names : Renaming) (frame frame' : Frame) : Prop where
  outer : frame'.outer = frame.outer.map names.frame
  bound : ∀ label, label.isReserved = false →
    frame'.bindings.lookup label = (frame.bindings.lookup label).map (Value.rename names)

/-- A machine that holds what another one holds, but for reserved names.  What either one makes next
goes by names that correspond. -/
structure Machine.Agrees (names : Renaming) (machine machine' : Machine) : Prop where
  frames : ∀ id, Option.Rel (Frame.Agrees names) machine.store.frames[id]?
    machine'.store.frames[names.frame id]?
  nextFrame : ∀ more, names.frame (machine.store.frames.size + more) =
    machine'.store.frames.size + more
  nextIdentity : ∀ more, names.identity (machine.fresh + more) = machine'.fresh + more

/-- The machines agree and have shown the same since certain events. -/
structure InStep (names : Renaming) (shown shown' : Array Event) (machine machine' : Machine) :
    Prop where
  agrees : machine.Agrees names machine'
  events : ∃ more, machine.events = shown ++ more ∧ machine'.events = shown' ++ more

theorem Machine.Agrees.inStep {names : Renaming} {machine machine' : Machine}
    (h : machine.Agrees names machine') :
    InStep names machine.events machine'.events machine machine' :=
  ⟨h, #[], Array.append_empty.symm, Array.append_empty.symm⟩

/-- Both runs end in step, with results that correspond, or are stopped there by the same fault. -/
inductive EndsInStep {α β : Type} (names : Renaming) (read : α → β) (shown shown' : Array Event) :
    EStateM.Result Fault Machine α → EStateM.Result Fault Machine β → Prop
  | ok (value : α) {after after' : Machine} (h : InStep names shown shown' after after') :
      EndsInStep names read shown shown' (.ok value after) (.ok (read value) after')
  | error (fault : Fault) {after after' : Machine} (h : InStep names shown shown' after after') :
      EndsInStep names read shown shown' (.error fault after) (.error fault after')

theorem EndsInStep.of_eq {α β : Type} {names : Renaming} {read : α → β} {shown shown' : Array Event}
    {value : α} {value' : β} {after after' : Machine} (hvalue : read value = value')
    (h : InStep names shown shown' after after') :
    EndsInStep names read shown shown' (.ok value after) (.ok value' after') :=
  hvalue ▸ .ok value h

/-- From machines in step, the second action does what the first one does. -/
def Tracks {α β : Type} (names : Renaming) (read : α → β) (action : Action α)
    (action' : Action β) : Prop :=
  ∀ shown shown' machine machine', InStep names shown shown' machine machine' →
    EndsInStep names read shown shown' (action machine) (action' machine')

section

variable {names : Renaming} {shown shown' : Array Event} {machine machine' : Machine}

/-- Frames are found in agreement from a frame outward, by induction on how old it is. -/
theorem Machine.Agrees.lookup (hnames : names.Lawful) (h : machine.Agrees names machine')
    {label : Label} (hlabel : label.isReserved = false) (id : FrameId) :
    machine'.store.lookup (names.frame id) label =
      (machine.store.lookup id label).map (Value.rename names) := by
  induction id using Nat.strongRecOn with
  | _ id ih =>
  rw [machine'.store.lookup_eq, machine.store.lookup_eq]
  have hframe := h.frames id
  generalize machine.store.frames[id]? = found at hframe ⊢
  generalize machine'.store.frames[names.frame id]? = found' at hframe ⊢
  cases hframe with
  | none => rfl
  | @some frame frame' hagrees =>
      simp only [Option.bind_some, hagrees.bound label hlabel, hagrees.outer]
      cases frame.bindings.lookup label with
      | some value => rfl
      | none =>
          cases frame.outer with
          | none => rfl
          | some outer =>
              simp only [Option.map_some, Option.map_none, hnames.frame.lt_iff_lt]
              split
              · next hlt => exact ih outer hlt
              · rfl

theorem Frame.Agrees.set {frame frame' : Frame} (h : frame.Agrees names frame') (name : Label)
    (value : Value) : Frame.Agrees names
      { frame with bindings := setBinding name value frame.bindings }
      { frame' with bindings := setBinding name (value.rename names) frame'.bindings } where
  outer := h.outer
  bound label hlabel := by
    rw [lookup_setBinding, lookup_setBinding, h.bound label hlabel]
    split <;> rfl

theorem Frame.Agrees.locate {frame frame' : Frame} (h : frame.Agrees names frame')
    (identity : Nat) (token : Token) : Frame.Agrees names
      { frame with bindings := frame.bindings.map fun (label, value) =>
          (label, value.locate identity token) }
      { frame' with bindings := frame'.bindings.map fun (label, value) =>
          (label, value.locate identity token) } where
  outer := h.outer
  bound label hlabel := by
    rw [lookup_map_values, lookup_map_values, h.bound label hlabel, Option.map_map, Option.map_map]
    congr 1
    funext value
    exact value.locate_rename names identity token

/-- A frame and the one that stands for it are opened at names that correspond. -/
theorem Machine.Agrees.openFrame (hnames : names.Lawful) (h : machine.Agrees names machine')
    (outer : FrameId) :
    ((Action.openFrame (some outer)).leaves machine).Agrees names
      ((Action.openFrame (some (names.frame outer))).leaves machine') where
  frames id := by
    show Option.Rel _ (machine.store.frames.push _)[id]?
      (machine'.store.frames.push _)[names.frame id]?
    have hnext : names.frame machine.store.frames.size = machine'.store.frames.size :=
      h.nextFrame 0
    rw [Array.getElem?_push, Array.getElem?_push]
    by_cases hid : id = machine.store.frames.size
    · rw [if_pos hid, if_pos (hid ▸ hnext)]
      exact .some ⟨rfl, fun _ _ => rfl⟩
    · have hid' : names.frame id ≠ machine'.store.frames.size := fun heq =>
        hid (hnames.frame.injective (heq.trans hnext.symm))
      rw [if_neg hid, if_neg hid']
      exact h.frames id
  nextFrame more := by
    show names.frame ((machine.store.frames.push _).size + more) =
      (machine'.store.frames.push _).size + more
    rw [Array.size_push, Array.size_push, Nat.add_assoc, Nat.add_assoc, h.nextFrame]
  nextIdentity := h.nextIdentity

theorem Machine.Agrees.newIdentity (h : machine.Agrees names machine') :
    (Action.newIdentity.leaves machine).Agrees names (Action.newIdentity.leaves machine') where
  frames := h.frames
  nextFrame := h.nextFrame
  nextIdentity more := by
    show names.identity (machine.fresh + 1 + more) = machine'.fresh + 1 + more
    rw [Nat.add_assoc, Nat.add_assoc, h.nextIdentity]

theorem Machine.Agrees.bindName (hnames : names.Lawful) (h : machine.Agrees names machine')
    (frame : FrameId) (name : Label) (value : Value) :
    ((Action.bindName frame name value).leaves machine).Agrees names
      ((Action.bindName (names.frame frame) name (value.rename names)).leaves machine') where
  frames id := by
    show Option.Rel _ (machine.store.frames.modify _ _)[id]?
      (machine'.store.frames.modify _ _)[names.frame id]?
    simp only [Array.getElem?_modify, hnames.frame.injective.eq_iff]
    have hframe := h.frames id
    generalize machine.store.frames[id]? = found at hframe ⊢
    generalize machine'.store.frames[names.frame id]? = found' at hframe ⊢
    split
    · cases hframe with
      | none => exact .none
      | some hagrees => exact .some (hagrees.set name value)
    · exact hframe
  nextFrame more := by
    show names.frame ((machine.store.frames.modify _ _).size + more) =
      (machine'.store.frames.modify _ _).size + more
    rw [Array.size_modify, Array.size_modify, h.nextFrame]
  nextIdentity := h.nextIdentity

theorem Machine.Agrees.locate (h : machine.Agrees names machine') (identity : Nat)
    (token : Token) : ((Action.locate identity token).leaves machine).Agrees names
      ((Action.locate identity token).leaves machine') where
  frames id := by
    show Option.Rel _ (machine.store.frames.map _)[id]?
      (machine'.store.frames.map _)[names.frame id]?
    rw [Array.getElem?_map, Array.getElem?_map]
    have hframe := h.frames id
    generalize machine.store.frames[id]? = found at hframe ⊢
    generalize machine'.store.frames[names.frame id]? = found' at hframe ⊢
    cases hframe with
    | none => exact .none
    | some hagrees => exact .some (hagrees.locate identity token)
  nextFrame more := by
    show names.frame ((machine.store.frames.map _).size + more) =
      (machine'.store.frames.map _).size + more
    rw [Array.size_map, Array.size_map, h.nextFrame]
  nextIdentity := h.nextIdentity

end

/-! ### Single steps -/

section

variable {α β γ δ : Type} {names : Renaming} {read : α → β} {read' : γ → δ}

theorem tracks_pure {value : α} {value' : β} (h : read value = value') :
    Tracks names read (pure value) (pure value') :=
  fun _ _ _ _ hmachines => .of_eq h hmachines

theorem tracks_throw (fault : Fault) :
    Tracks names read (throw fault : Action α) (throw fault : Action β) :=
  fun _ _ _ _ h => .error fault h

theorem Tracks.bind {action : Action α} {action' : Action β} {go : α → Action γ}
    {go' : β → Action δ} (h : Tracks names read action action')
    (hgo : ∀ value, Tracks names read' (go value) (go' (read value))) :
    Tracks names read' (action >>= go) (action' >>= go') := by
  intro shown shown' machine machine' hmachines
  simp only [Bind.bind, EStateM.bind]
  have hends := h shown shown' machine machine' hmachines
  generalize action machine = result at hends ⊢
  generalize action' machine' = result' at hends ⊢
  cases hends with
  | ok value hafter => exact hgo value shown shown' _ _ hafter
  | error fault hafter => exact .error fault hafter

theorem tracks_ofExcept (result : Except Fault α) :
    Tracks names id (Action.ofExcept result) (Action.ofExcept result) := by
  cases result with
  | ok value => exact tracks_pure rfl
  | error fault => exact tracks_throw fault

theorem tracks_newIdentity :
    Tracks names names.identity Action.newIdentity Action.newIdentity :=
  fun _ _ _ _ h => .of_eq (h.agrees.nextIdentity 0) ⟨h.agrees.newIdentity, h.events⟩

theorem tracks_openFrame (hnames : names.Lawful) (outer : FrameId) :
    Tracks names names.frame (Action.openFrame (some outer))
      (Action.openFrame (some (names.frame outer))) :=
  fun _ _ _ _ h => .of_eq (h.agrees.nextFrame 0) ⟨h.agrees.openFrame hnames outer, h.events⟩

theorem tracks_bindName (hnames : names.Lawful) (frame : FrameId) (name : Label)
    (value : Value) : Tracks names id (Action.bindName frame name value)
      (Action.bindName (names.frame frame) name (value.rename names)) :=
  fun _ _ _ _ h => .ok () ⟨h.agrees.bindName hnames frame name value, h.events⟩

/-- The only place where bindings are read. -/
theorem tracks_lookup (hnames : names.Lawful) (frame : FrameId) {label : Label}
    (hlabel : label.isReserved = false) :
    Tracks names (Option.map (Value.rename names)) (Action.lookup frame label)
      (Action.lookup (names.frame frame) label) :=
  fun _ _ _ _ h => .of_eq (h.agrees.lookup hnames hlabel frame).symm h

theorem tracks_locate (identity : Nat) (token : Token) :
    Tracks names id (Action.locate identity token) (Action.locate identity token) :=
  fun _ _ _ _ h => .ok () ⟨h.agrees.locate identity token, h.events⟩

theorem tracks_emit (event : Event) :
    Tracks names id (Action.emit event) (Action.emit event) := by
  intro shown shown' machine machine' h
  obtain ⟨more, heq, heq'⟩ := h.events
  have hagrees := h.agrees
  refine .ok () ⟨⟨hagrees.frames, hagrees.nextFrame, hagrees.nextIdentity⟩, more.push event, ?_, ?_⟩
  · show machine.events.push event = _
    rw [heq, Array.push_append]
  · show machine'.events.push event = _
    rw [heq', Array.push_append]

theorem tracks_newArray (elements : List Value) :
    Tracks names (Value.rename names) (Action.newArray elements)
      (Action.newArray (elements.map (Value.rename names))) := by
  apply tracks_newIdentity.bind
  intro identity
  rw [← renameAll_eq]
  exact tracks_pure rfl

end

/-! ### Lists of nodes -/

/-- An error under other names, or something read in another way. -/
def renameEither {α β : Type} (names : Renaming) (read : α → β) : Except Value α → Except Value β
  | .error error => .error (error.rename names)
  | .ok found => .ok (read found)

section

variable {names : Renaming} {eval eval' : Node → Action Value}

theorem tracks_unlessError (value : Value) {go go' : Value → Action Value}
    (h : ∀ value, Tracks names (Value.rename names) (go value) (go' (value.rename names))) :
    Tracks names (Value.rename names) (unlessError value go)
      (unlessError (value.rename names) go') := by
  unfold unlessError
  rw [isError_rename]
  split
  · exact tracks_pure rfl
  · exact h value

variable (h : ∀ node, Tracks names (Value.rename names) (eval node) (eval' node))

include h

theorem tracks_evalAll (nodes : List Node) :
    Tracks names (renameEither names (List.map (Value.rename names))) (evalAll eval nodes)
      (evalAll eval' nodes) := by
  induction nodes with
  | nil => exact tracks_pure rfl
  | cons node rest ih =>
      apply (h node).bind
      intro value
      rw [isError_rename]
      split
      · exact tracks_pure rfl
      · apply ih.bind
        intro result
        cases result with
        | error error => exact tracks_pure rfl
        | ok values => exact tracks_pure rfl

theorem tracks_runBlock (last : Value) (nodes : List Node) :
    Tracks names (Value.rename names) (runBlock eval last nodes)
      (runBlock eval' (last.rename names) nodes) := by
  induction nodes generalizing last with
  | nil => exact tracks_pure rfl
  | cons node rest ih =>
      apply (h node).bind
      intro value
      rw [isSignal_rename]
      split
      · exact tracks_pure rfl
      · exact ih value

theorem tracks_evalPairs (entries : List (Key × Value)) (pairs : List (Node × Node)) :
    Tracks names (renameEither names (renameEntries names)) (evalPairs eval entries pairs)
      (evalPairs eval' (renameEntries names entries) pairs) := by
  induction pairs generalizing entries with
  | nil => exact tracks_pure rfl
  | cons pair rest ih =>
      apply (h pair.1).bind
      intro keyValue
      rw [isError_rename, key?_rename, typeName_rename]
      split
      · exact tracks_pure rfl
      · cases keyValue.key? with
        | none =>
            exact tracks_pure rfl
        | some key =>
            apply (h pair.2).bind
            intro value
            rw [isError_rename, insertEntry_rename]
            split
            · exact tracks_pure rfl
            · exact ih (insertEntry key value entries)

end

/-! ### Calls and names -/

section

variable {names : Renaming}

/-- An element of an array argument is picked. -/
theorem tracks_picked (builtin : Builtin) {pick : List Value → Option Value}
    (hpick : ∀ elements, pick (elements.map (Value.rename names)) =
      (pick elements).map (Value.rename names)) (arguments : List Value) :
    Tracks names (Except.map (Value.rename names))
      (pure ((arrayArgument builtin arguments).map fun elements => (pick elements).getD .nil))
      (pure ((arrayArgument builtin (arguments.map (Value.rename names))).map
        fun elements => (pick elements).getD .nil)) := by
  rw [arrayArgument_rename]
  cases arrayArgument builtin arguments with
  | error problem => exact tracks_pure rfl
  | ok elements =>
      simp only [Except.map, hpick, getD_rename]
      exact tracks_pure rfl

theorem tracks_len (arguments : List Value) :
    Tracks names (Except.map (Value.rename names)) (Builtin.len.run arguments)
      (Builtin.len.run (arguments.map (Value.rename names))) := by
  rcases arguments with _ | ⟨value, _ | ⟨second, rest⟩⟩
  · exact tracks_pure rfl
  · cases value with
    | array identity elements =>
        simp only [Builtin.run, List.map_cons, List.map_nil, Value.rename, renameAll_eq,
          List.length_map]
        exact tracks_pure rfl
    | _ => exact tracks_pure rfl
  · simp only [Builtin.run, List.map_cons, List.length_cons, List.length_map]
    cases value <;> exact tracks_pure rfl

theorem tracks_rest (arguments : List Value) :
    Tracks names (Except.map (Value.rename names)) (Builtin.rest.run arguments)
      (Builtin.rest.run (arguments.map (Value.rename names))) := by
  simp only [Builtin.run, arrayArgument_rename]
  cases arrayArgument .rest arguments with
  | error problem => exact tracks_pure rfl
  | ok elements =>
      simp only [Except.map, List.isEmpty_map, ← List.map_tail]
      split
      · exact tracks_pure rfl
      · exact (tracks_newArray elements.tail).bind fun _ => tracks_pure rfl

theorem tracks_push (arguments : List Value) :
    Tracks names (Except.map (Value.rename names)) (Builtin.push.run arguments)
      (Builtin.push.run (arguments.map (Value.rename names))) := by
  rcases arguments with _ | ⟨value, _ | ⟨element, _ | ⟨third, rest⟩⟩⟩
  · exact tracks_pure rfl
  · cases value <;> exact tracks_pure rfl
  · cases value with
    | array identity elements =>
        have happend : renameAll names elements ++ [element.rename names] =
            (elements ++ [element]).map (Value.rename names) := by
          rw [renameAll_eq, List.map_append, List.map_singleton]
        simp only [Builtin.run, List.map_cons, List.map_nil, Value.rename, happend]
        exact (tracks_newArray _).bind fun _ => tracks_pure rfl
    | _ => exact tracks_pure rfl
  · simp only [Builtin.run, List.map_cons, List.length_cons, List.length_map]
    cases value <;> exact tracks_pure rfl

theorem tracks_run (builtin : Builtin) (arguments : List Value) :
    Tracks names (Except.map (Value.rename names)) (builtin.run arguments)
      (builtin.run (arguments.map (Value.rename names))) := by
  cases builtin with
  | puts =>
      have hdisplay : Value.display ∘ Value.rename names = Value.display :=
        funext Value.display_rename
      simp only [Builtin.run, List.map_map, hdisplay]
      exact (tracks_emit _).bind fun _ => tracks_pure rfl
  | toStr =>
      rcases arguments with _ | ⟨value, _ | ⟨second, rest⟩⟩
      · exact tracks_pure rfl
      · simp only [Builtin.run, List.map_cons, List.map_nil, Value.display_rename]
        exact tracks_pure rfl
      · simp only [Builtin.run, List.map_cons, List.length_cons, List.length_map]
        exact tracks_pure rfl
  | len => exact tracks_len arguments
  | first => exact tracks_picked .first (fun _ => List.head?_map) arguments
  | last => exact tracks_picked .last (fun _ => List.getLast?_map) arguments
  | rest => exact tracks_rest arguments
  | push => exact tracks_push arguments

theorem tracks_locateError (token : Option Token) (value : Value) :
    Tracks names (Value.rename names) (locateError token value)
      (locateError token (value.rename names)) := by
  cases value with
  | error message found identity =>
      cases found with
      | some found => exact tracks_pure rfl
      | none =>
          cases token with
          | none => exact tracks_pure rfl
          | some token =>
              cases identity with
              | none => exact tracks_pure rfl
              | some identity =>
                  apply (tracks_locate identity token).bind
                  intro _
                  exact tracks_pure rfl
  | _ => exact tracks_pure rfl

variable (hnames : names.Lawful)

include hnames

theorem tracks_bindParameters (frame : FrameId) (parameters : List Node)
    (arguments : List Value) :
    Tracks names id (bindParameters frame (parameters.zip arguments))
      (bindParameters (names.frame frame)
        (parameters.zip (arguments.map (Value.rename names)))) := by
  induction parameters generalizing arguments with
  | nil => exact tracks_pure rfl
  | cons parameter rest ih =>
      cases arguments with
      | nil => exact tracks_pure rfl
      | cons value values =>
          simp only [List.map_cons, List.zip_cons_cons, bindParameters]
          apply (tracks_ofExcept parameter.label).bind
          intro label
          apply (tracks_bindName hnames frame label value).bind
          intro _
          exact ih values

theorem tracks_applyValue {eval eval' : Node → FrameId → Action Value}
    (h : ∀ node frame,
      Tracks names (Value.rename names) (eval node frame) (eval' node (names.frame frame)))
    (token : Option Token) (callee : Value) (arguments : List Value) :
    Tracks names (Value.rename names) (applyValue eval token callee arguments)
      (applyValue eval' token (callee.rename names) (arguments.map (Value.rename names))) := by
  cases callee with
  | builtin builtin =>
      simp only [Value.rename, applyValue, Builtin.apply, bind_assoc, pure_bind]
      apply (tracks_run builtin arguments).bind
      intro result
      rw [settle_rename]
      exact tracks_locateError token (settle none result)
  | function identity parameters body outer =>
      simp only [Value.rename, applyValue, List.length_map]
      split
      · exact tracks_pure rfl
      · apply (tracks_openFrame hnames outer).bind
        intro frame
        apply (tracks_bindParameters hnames frame parameters arguments).bind
        intro _
        apply (h body frame).bind
        intro value
        rw [unwrap_rename]
        exact tracks_pure rfl
  | _ => exact tracks_pure rfl

/-- Binding goes on without reading, whatever the name. -/
theorem tracks_bindLet (frame : FrameId) (name : Node) (value : Value) :
    Tracks names (Value.rename names) (bindLet frame name value)
      (bindLet (names.frame frame) name (value.rename names)) := by
  have hbind (label : Label) : Tracks names (Value.rename names)
      (Action.bindName frame label value >>= fun _ => pure .nil)
      (Action.bindName (names.frame frame) label (value.rename names) >>= fun _ => pure .nil) :=
    (tracks_bindName hnames frame label value).bind fun _ => tracks_pure rfl
  apply (tracks_ofExcept name.label).bind
  intro label
  cases label with
  | name text =>
      simp only [id_eq]
      split
      · exact (tracks_emit _).bind fun _ => hbind (.name text)
      · exact hbind (.name text)
  | _ => exact hbind _

/-- A reserved name never gets as far as the frames. -/
theorem tracks_evalName (frame : FrameId) (token : Option Token) (name : String) :
    Tracks names (Value.rename names) (evalName frame token name)
      (evalName (names.frame frame) token name) := by
  unfold evalName
  cases hbuiltin : Builtin.ofName? name with
  | some builtin => exact tracks_pure rfl
  | none =>
      have hname : (Label.name name).isReserved = false := by
        simp only [Label.isReserved, hbuiltin, Option.isSome_none]
      apply (tracks_lookup hnames frame hname).bind
      intro found
      cases found with
      | some value => exact tracks_pure rfl
      | none => exact tracks_pure rfl

/-- Every node is run alike on machines in step, by induction on the depth. -/
theorem Node.tracks_eval (depth : Nat) (node : Node) (frame : FrameId) :
    Tracks names (Value.rename names) (node.eval depth frame)
      (node.eval depth (names.frame frame)) := by
  induction depth generalizing node frame with
  | zero => exact tracks_throw .tooDeep
  | succ depth ih =>
      have heval (node : Node) : Tracks names (Value.rename names) (node.eval depth frame)
          (node.eval depth (names.frame frame)) := ih node frame
      unfold Node.eval
      cases node with
      | missing => exact tracks_pure rfl
      | int token value => exact tracks_pure rfl
      | string token value => exact tracks_pure rfl
      | bool token value => exact tracks_pure rfl
      | text | flag => exact tracks_throw _
      | program statements =>
          apply (tracks_runBlock heval .nil statements).bind
          intro value
          rw [unwrap_rename, shown_rename]
          exact tracks_pure rfl
      | exprStmt token expression => exact heval expression
      | letStmt token name value =>
          apply (heval value).bind
          intro value
          exact tracks_unlessError value (tracks_bindLet hnames frame name)
      | returnStmt token value =>
          apply (heval value).bind
          intro value
          apply tracks_unlessError
          intro value
          apply tracks_newIdentity.bind
          intro identity
          exact tracks_pure rfl
      | block token statements => exact tracks_runBlock heval .nil statements
      | ident token name => exact tracks_evalName hnames frame token name
      | prefixOp token operator right =>
          apply (heval right).bind
          intro value
          apply tracks_unlessError
          intro right
          rw [evalPrefix, evalPrefix, applyPrefix_rename, settle_rename]
          exact tracks_pure rfl
      | infixOp token left operator right =>
          apply (heval left).bind
          intro value
          apply tracks_unlessError
          intro left
          apply (heval right).bind
          intro value
          apply tracks_unlessError
          intro right
          rw [evalInfix, evalInfix, applyInfix_rename hnames, settle_rename]
          exact tracks_pure rfl
      | ifElse token condition consequence alternative =>
          apply (heval condition).bind
          intro value
          apply tracks_unlessError
          intro condition
          rw [isTruthy_rename]
          split
          · exact heval consequence
          · exact heval alternative
      | function token parameters body =>
          apply tracks_newIdentity.bind
          intro identity
          exact tracks_pure rfl
      | call token callee arguments =>
          apply (heval callee).bind
          intro value
          apply tracks_unlessError
          intro callee
          apply (tracks_evalAll heval arguments).bind
          intro result
          cases result with
          | error error => exact tracks_pure rfl
          | ok values => exact tracks_applyValue hnames ih token callee values
      | array token elements =>
          apply (tracks_evalAll heval elements).bind
          intro result
          cases result with
          | error error => exact tracks_pure rfl
          | ok values => exact tracks_newArray values
      | index token left position =>
          apply (heval left).bind
          intro value
          apply tracks_unlessError
          intro left
          apply (heval position).bind
          intro value
          apply tracks_unlessError
          intro position
          rw [evalIndex, evalIndex, applyIndex_rename, settle_rename]
          exact tracks_pure rfl
      | hash token pairs =>
          apply (tracks_evalPairs heval [] pairs).bind
          intro result
          cases result with
          | error error => exact tracks_pure rfl
          | ok entries =>
              apply tracks_newIdentity.bind
              intro identity
              exact tracks_pure rfl

end

/-! ### Under the same names -/

def Renaming.same : Renaming :=
  ⟨id, id⟩

mutual

theorem Value.rename_same : ∀ value : Value, value.rename .same = value
  | .array _ elements => by
      rw [Value.rename, renameAll_same elements]
      rfl
  | .hash _ entries => by
      rw [Value.rename, renameEntries_same entries]
      rfl
  | .returned _ value => by
      rw [Value.rename, value.rename_same]
      rfl
  | .function _ _ _ _ => rfl
  | .nil | .int _ | .bool _ | .string _ | .builtin _ | .error _ _ _ => rfl

theorem renameAll_same : ∀ values : List Value, renameAll .same values = values
  | [] => rfl
  | value :: rest => by rw [renameAll, value.rename_same, renameAll_same rest]

theorem renameEntries_same : ∀ entries : List (Key × Value), renameEntries .same entries = entries
  | [] => rfl
  | (_, value) :: rest => by rw [renameEntries, value.rename_same, renameEntries_same rest]

end

/-- A machine agrees with itself after a reserved name is bound in whatever frame. -/
theorem Machine.agrees_bindName (machine : Machine) {label : Label}
    (hlabel : label.isReserved = true) (inside : FrameId) (value : Value) :
    machine.Agrees .same ((Action.bindName inside label value).leaves machine) where
  frames frame := by
    show Option.Rel _ machine.store.frames[frame]? (machine.store.frames.modify _ _)[frame]?
    rw [Array.getElem?_modify]
    have hrename : Value.rename .same = id := funext Value.rename_same
    cases machine.store.frames[frame]? with
    | none => split <;> exact .none
    | some frame =>
        have houter : frame.outer = frame.outer.map Renaming.same.frame :=
          (Option.map_id_apply).symm
        split
        · refine .some ⟨houter, fun label' hlabel' => ?_⟩
          have hne : label' ≠ label := by
            rintro rfl
            rw [hlabel] at hlabel'
            cases hlabel'
          rw [lookup_setBinding, if_neg hne, hrename, Option.map_id]
          rfl
        · refine .some ⟨houter, fun label' _ => ?_⟩
          rw [hrename, Option.map_id]
          rfl
  nextFrame more := by
    show machine.store.frames.size + more = (machine.store.frames.modify _ _).size + more
    rw [Array.size_modify]
  nextIdentity _ := rfl

/-- Binding a reserved name beforehand, in whatever frame, changes neither what a run gives nor what
it shows. -/
theorem Node.eval_behind_reserved (depth : Nat) (node : Node) (frame : FrameId)
    (machine : Machine) {label : Label} (hlabel : label.isReserved = true) (inside : FrameId)
    (value : Value) :
    EndsInStep .same id machine.events machine.events (node.eval depth frame machine)
      (node.eval depth frame ((Action.bindName inside label value).leaves machine)) := by
  have hlawful : Renaming.same.Lawful := ⟨strictMono_id, Function.injective_id⟩
  have hread : Value.rename .same = id := funext Value.rename_same
  have hagrees := machine.agrees_bindName hlabel inside value
  rw [← hread]
  exact node.tracks_eval hlawful depth frame _ _ _ _ hagrees.inStep

end Monkey
