/-
Renaming frames and identities.  Two machines stand beside each other if the second one holds all
that the first one holds, with the frames and identities past some bounds moved further up.  Code
is run alike on them: nothing that can be observed depends on which numbers are used.
-/
import Monkey.Proofs.Running.Realms

namespace Monkey

/-! ### Values under other names -/

structure Renaming where
  frame : FrameId → FrameId
  identity : Nat → Nat

mutual

def Value.rename (names : Renaming) : Value → Value
  | .array identity elements =>
      .array (names.identity identity) (renameAll names elements)
  | .hash identity entries =>
      .hash (names.identity identity) (renameEntries names entries)
  | .function identity parameters body frame =>
      .function (names.identity identity) parameters body (names.frame frame)
  | .returned identity value => .returned (names.identity identity) (value.rename names)
  | value => value

def renameAll (names : Renaming) : List Value → List Value
  | [] => []
  | value :: rest => value.rename names :: renameAll names rest

def renameEntries (names : Renaming) : List (Key × Value) → List (Key × Value)
  | [] => []
  | (key, value) :: rest => (key, value.rename names) :: renameEntries names rest

end

def Frame.rename (names : Renaming) (frame : Frame) : Frame where
  bindings := frame.bindings.map fun (label, value) => (label, value.rename names)
  outer := frame.outer.map names.frame

section

variable {names : Renaming}

theorem renameAll_eq (values : List Value) :
    renameAll names values = values.map (Value.rename names) := by
  induction values with
  | nil => rfl
  | cons value rest ih => rw [renameAll, ih, List.map_cons]

theorem renameEntries_eq (entries : List (Key × Value)) : renameEntries names entries =
    entries.map fun entry => (entry.1, entry.2.rename names) := by
  induction entries with
  | nil => rfl
  | cons entry rest ih => rw [renameEntries, ih, List.map_cons]

mutual

/-- What is shown of a value has no names of frames and identities in it. -/
theorem Value.display_rename : ∀ value : Value, (value.rename names).display = value.display
  | .array _ elements => by
      rw [Value.rename, Value.display, Value.display, displayList_rename elements]
  | .hash _ entries => by
      rw [Value.rename, Value.display, Value.display, displayEntries_rename entries]
  | .returned _ value => by
      rw [Value.rename, Value.display, Value.display, value.display_rename]
  | .function _ _ _ _ => rfl
  | .nil | .int _ | .bool _ | .string _ | .builtin _ | .error _ _ _ => rfl

theorem displayList_rename : ∀ values : List Value,
    displayList (renameAll names values) = displayList values
  | [] => rfl
  | [value] => value.display_rename
  | value :: second :: rest =>
      congrArg₂ (fun first rest => first ++ ", " ++ rest) value.display_rename
        (displayList_rename (second :: rest))

theorem displayEntries_rename : ∀ entries : List (Key × Value),
    displayEntries (renameEntries names entries) = displayEntries entries
  | [] => rfl
  | [(key, value)] => by
      rw [renameEntries, renameEntries, displayEntries, displayEntries, value.display_rename]
  | (key, value) :: second :: rest =>
      congrArg₂ (fun first rest => key.display ++ ": " ++ first ++ ", " ++ rest)
        value.display_rename (displayEntries_rename (second :: rest))

end

end

/-! ### Moving up what is past some bounds -/

/-- Numbers from a bound on are moved up, to go on from a later one. -/
def moveUp (bound later number : Nat) : Nat :=
  if number < bound then number else number + (later - bound)

section

variable {bound later number number' : Nat}

theorem moveUp_of_lt (h : number < bound) : moveUp bound later number = number :=
  if_pos h

theorem moveUp_of_le (h : bound ≤ number) : moveUp bound later number = number + (later - bound) :=
  if_neg (Nat.not_lt.mpr h)

/-- The order of numbers stays the same. -/
theorem moveUp_lt_iff : moveUp bound later number < moveUp bound later number' ↔
    number < number' := by
  unfold moveUp
  split <;> split <;> omega

theorem moveUp_inj : moveUp bound later number = moveUp bound later number' ↔
    number = number' := by
  unfold moveUp
  split <;> split <;> omega

end

/-- What is past the bounds goes on from later ones. -/
def Renaming.past (bounds later : Bounds) : Renaming where
  frame := moveUp bounds.frames later.frames
  identity := moveUp bounds.fresh later.fresh

section

variable {bounds later : Bounds}

theorem Renaming.frame_past {frame : FrameId} (h : frame < bounds.frames) :
    (past bounds later).frame frame = frame :=
  moveUp_of_lt h

theorem Renaming.identity_past {identity : Nat} (h : identity < bounds.fresh) :
    (past bounds later).identity identity = identity :=
  moveUp_of_lt h

mutual

/-- What refers to nothing past the bounds stays as it is. -/
theorem Value.rename_past : ∀ value : Value, value.Clear (Realm.free.refuses bounds) →
    value.rename (.past bounds later) = value
  | .array identity elements, h => by
      obtain ⟨hself, helements⟩ := clear_array_iff.mp h
      have hidentity : identity < bounds.fresh := Realm.refuses_eq_false.mp hself
      rw [Value.rename, renameAll_past elements helements, Renaming.identity_past hidentity]
  | .hash identity entries, h => by
      obtain ⟨hself, hentries⟩ := clear_hash_iff.mp h
      have hidentity : identity < bounds.fresh := Realm.refuses_eq_false.mp hself
      rw [Value.rename, renameEntries_past entries hentries, Renaming.identity_past hidentity]
  | .returned identity value, h => by
      obtain ⟨hself, hvalue⟩ := clear_returned_iff.mp h
      have hidentity : identity < bounds.fresh := Realm.refuses_eq_false.mp hself
      rw [Value.rename, value.rename_past hvalue, Renaming.identity_past hidentity]
  | .function identity parameters body frame, h => by
      have hself : identity < bounds.fresh ∧ frame < bounds.frames ∧ True :=
        Realm.refuses_eq_false.mp h.self
      rw [Value.rename, Renaming.identity_past hself.1, Renaming.frame_past hself.2.1]
  | .nil, _ | .int _, _ | .bool _, _ | .string _, _ | .builtin _, _ | .error _ _ _, _ => rfl

theorem renameAll_past : ∀ values : List Value,
    (∀ value ∈ values, value.Clear (Realm.free.refuses bounds)) →
      renameAll (.past bounds later) values = values
  | [], _ => rfl
  | value :: rest, h => by
      obtain ⟨hvalue, hrest⟩ := List.forall_mem_cons.mp h
      rw [renameAll, value.rename_past hvalue, renameAll_past rest hrest]

theorem renameEntries_past : ∀ entries : List (Key × Value),
    (∀ entry ∈ entries, entry.2.Clear (Realm.free.refuses bounds)) →
      renameEntries (.past bounds later) entries = entries
  | [], _ => rfl
  | (key, value) :: rest, h => by
      obtain ⟨hvalue, hrest⟩ := List.forall_mem_cons.mp h
      rw [renameEntries, value.rename_past hvalue, renameEntries_past rest hrest]

end

end

/-! ### Values beside each other -/

/-- The value holds no error, unless it is one, which then nothing else holds. -/
def Value.Unshared (value : Value) : Prop :=
  value.Clear Value.isError ∨ ∃ message token, value = .error message token none

section

variable {names : Renaming}

theorem Value.Unshared.clear {value : Value} (h : value.Unshared)
    (herror : value.isError = false) : value.Clear Value.isError := by
  rcases h with h | ⟨message, token, rfl⟩
  · exact h
  · cases herror

/-- Lists whose members are of some kind, and the images of those. -/
theorem forall₂_map_iff {α β : Type} {p : α → Prop} {f : α → β} {items : List α}
    {images : List β} :
    List.Forall₂ (fun item image => p item ∧ image = f item) items images ↔
      (∀ item ∈ items, p item) ∧ images = items.map f := by
  rw [List.forall₂_and_left]
  refine and_congr Iff.rfl ?_
  constructor
  · intro h
    induction h with
    | nil => rfl
    | cons hfirst _ ih => rw [List.map_cons, hfirst, ih]
  · rintro rfl
    exact List.forall₂_map_right_iff.mpr (List.forall₂_same.mpr fun _ _ => rfl)

/-- A value and the same one under other names have the same form. -/
theorem unshared_iff_matches {value value' : Value} :
    value.Unshared ∧ value' = value.rename names ↔ value.Matches Eq
      (fun names body names' body' => names = names' ∧ body = body')
      (fun frame frame' => frame' = names.frame frame)
      (fun identity identity' => identity' = names.identity identity)
      (fun value value' => value.Unshared ∧ value' = value.rename names) value' := by
  constructor
  · rintro ⟨h, rfl⟩
    cases value with
    | nil => exact .nil
    | int value => exact .int value
    | bool value => exact .bool value
    | string value => exact .string value
    | builtin builtin => exact .builtin builtin
    | array identity elements =>
        obtain ⟨_, helements⟩ := clear_array_iff.mp (h.clear rfl)
        refine .array rfl ?_ fun element helement => (helements element helement).self
        rw [renameAll_eq]
        exact forall₂_map_iff.mpr ⟨fun element helement => Or.inl (helements element helement), rfl⟩
    | hash identity entries =>
        obtain ⟨_, hentries⟩ := clear_hash_iff.mp (h.clear rfl)
        refine .hash rfl ?_ fun entry hentry => (hentries entry hentry).self
        rw [renameEntries_eq]
        exact List.forall₂_map_right_iff.mpr (List.forall₂_same.mpr fun entry hentry =>
          ⟨rfl, Or.inl (hentries entry hentry), rfl⟩)
    | function identity parameters body frame => exact .function rfl ⟨rfl, rfl⟩ rfl
    | returned identity value =>
        obtain ⟨_, hvalue⟩ := clear_returned_iff.mp (h.clear rfl)
        exact .returned rfl ⟨Or.inl hvalue, rfl⟩ hvalue.self
    | error message token identity =>
        rcases h with h | ⟨_, _, heq⟩
        · cases h.self
        · cases heq
          exact .error message rfl
  · intro h
    cases h with
    | nil | int | bool | string | builtin => exact ⟨Or.inl (clear_of_parts rfl rfl), rfl⟩
    | array hidentity helements herrors =>
        obtain ⟨hvalues, rfl⟩ := forall₂_map_iff.mp helements
        refine ⟨Or.inl (clear_array_iff.mpr ⟨rfl, fun element helement => ?_⟩), ?_⟩
        · exact (hvalues element helement).clear (herrors element helement)
        · rw [Value.rename, renameAll_eq, hidentity]
    | @hash _ _ entries entries' hidentity hentries herrors =>
        have himages : List.Forall₂ (fun entry entry' => entry.2.Unshared ∧
            entry' = (entry.1, entry.2.rename names)) entries entries' :=
          hentries.imp fun _ _ hentry => ⟨hentry.2.1, Prod.ext hentry.1.symm hentry.2.2⟩
        obtain ⟨hvalues, rfl⟩ := forall₂_map_iff.mp himages
        refine ⟨Or.inl (clear_hash_iff.mpr ⟨rfl, fun entry hentry => ?_⟩), ?_⟩
        · exact (hvalues entry hentry).clear (herrors entry hentry)
        · rw [Value.rename, renameEntries_eq, hidentity]
    | function hidentity hfunction hframe =>
        refine ⟨Or.inl (clear_of_parts rfl rfl), ?_⟩
        rw [Value.rename, hidentity, hfunction.1, hfunction.2, hframe]
    | returned hidentity hvalue herror =>
        obtain ⟨hunshared, rfl⟩ := hvalue
        refine ⟨Or.inl (clear_returned_iff.mpr ⟨rfl, hunshared.clear herror⟩), ?_⟩
        rw [Value.rename, hidentity]
    | error message htoken =>
        rw [htoken]
        exact ⟨Or.inr ⟨_, _, rfl⟩, rfl⟩

end

/-! ### Machines beside each other -/

theorem setBinding_rename (names : Renaming) (name : Label) (value : Value)
    (bindings : List (Label × Value)) :
    setBinding name (value.rename names)
        (bindings.map fun (label, value) => (label, value.rename names)) =
      (setBinding name value bindings).map fun (label, value) => (label, value.rename names) := by
  induction bindings with
  | nil => rfl
  | cons binding rest ih =>
      obtain ⟨name₀, value₀⟩ := binding
      simp only [List.map_cons, setBinding]
      split
      · rfl
      · rw [List.map_cons, ih]

theorem lookup_map_values {κ α β : Type} [BEq κ] (f : α → β) (key : κ)
    (entries : List (κ × α)) :
    (entries.map fun (key, value) => (key, f value)).lookup key = (entries.lookup key).map f := by
  induction entries with
  | nil => rfl
  | cons entry rest ih =>
      obtain ⟨key₀, value₀⟩ := entry
      rw [List.map_cons, List.lookup_cons, List.lookup_cons]
      cases key == key₀ with
      | true => rfl
      | false => exact ih

/-- The frames of a store are found under other names in a second one. -/
def Store.Found (names : Renaming) (store store' : Store) : Prop :=
  ∀ id, store'.frames[names.frame id]? = (store.frames[id]?).map (Frame.rename names)

/-- Names go on outward while the frames are older ones. -/
theorem Store.lookup_eq (store : Store) (id : FrameId) (name : Label) :
    store.lookup id name =
      match (store.frames[id]?).bind (·.bindings.lookup name) with
      | some value => some value
      | none =>
          match (store.frames[id]?).bind Frame.outer with
          | some outer => if outer < id then store.lookup outer name else none
          | none => none := by
  cases hfound : (store.frames[id]?).bind (·.bindings.lookup name) with
  | some value => exact store.lookup_of_bound hfound
  | none =>
      rw [store.lookup_of_unbound hfound, Store.outer?]
      cases (store.frames[id]?).bind Frame.outer with
      | none => rfl
      | some outer =>
          by_cases hlt : outer < id
          · simp only [dif_pos hlt, if_pos hlt, Option.bind_some]
          · simp only [dif_neg hlt, if_neg hlt, Option.bind_none]

section

variable {bounds later : Bounds} {store store' : Store}

/-- The same is found from a frame, by induction on how old the frame is. -/
theorem Store.Found.lookup (h : store.Found (.past bounds later) store') (id : FrameId)
    (name : Label) :
    store'.lookup ((Renaming.past bounds later).frame id) name =
      (store.lookup id name).map (Value.rename (.past bounds later)) := by
  induction id using Nat.strongRecOn with
  | _ id ih =>
  have hbound : (store'.frames[(Renaming.past bounds later).frame id]?).bind
      (·.bindings.lookup name) = ((store.frames[id]?).bind (·.bindings.lookup name)).map
        (Value.rename (.past bounds later)) := by
    rw [h id]
    cases store.frames[id]? with
    | none => rfl
    | some frame => exact lookup_map_values _ name frame.bindings
  have houter : (store'.frames[(Renaming.past bounds later).frame id]?).bind Frame.outer =
      ((store.frames[id]?).bind Frame.outer).map (Renaming.past bounds later).frame := by
    rw [h id]
    cases store.frames[id]? <;> rfl
  rw [store'.lookup_eq, store.lookup_eq, hbound, houter]
  cases (store.frames[id]?).bind (·.bindings.lookup name) with
  | some value => rfl
  | none =>
      cases (store.frames[id]?).bind Frame.outer with
      | none => rfl
      | some outer =>
          simp only [Option.map_some, Option.map_none]
          by_cases hlt : outer < id
          · have hlt' : (Renaming.past bounds later).frame outer <
                (Renaming.past bounds later).frame id := moveUp_lt_iff.mpr hlt
            rw [if_pos hlt, if_pos hlt', ih outer hlt]
          · have hlt' : ¬ (Renaming.past bounds later).frame outer <
                (Renaming.past bounds later).frame id := fun h => hlt (moveUp_lt_iff.mp h)
            rw [if_neg hlt, if_neg hlt']
            rfl

theorem Store.Found.set (h : store.Found (.past bounds later) store') (frame : FrameId)
    (name : Label) (value : Value) :
    (store.set frame name value).Found (.past bounds later)
      (store'.set ((Renaming.past bounds later).frame frame) name
        (value.rename (.past bounds later))) := by
  intro id
  simp only [Store.set, Array.getElem?_modify]
  by_cases hid : frame = id
  · subst hid
    rw [if_pos rfl, if_pos rfl, h frame, Option.map_map, Option.map_map]
    congr 1
    funext found
    exact congrArg (Frame.mk · _) (setBinding_rename _ name value found.bindings)
  · have hid' : (Renaming.past bounds later).frame frame ≠
        (Renaming.past bounds later).frame id := fun h => hid (moveUp_inj.mp h)
    rw [if_neg hid, if_neg hid', h id]

theorem Store.Found.open (h : store.Found (.past bounds later) store') (outer : FrameId)
    (hsize : store'.frames.size = (Renaming.past bounds later).frame store.frames.size) :
    (store.open (some outer)).2.Found (.past bounds later)
      (store'.open (some ((Renaming.past bounds later).frame outer))).2 := by
  intro id
  simp only [Store.open, Array.getElem?_push, hsize]
  by_cases hid : id = store.frames.size
  · subst hid
    rw [if_pos rfl, if_pos rfl]
    rfl
  · have hid' : (Renaming.past bounds later).frame id ≠
        (Renaming.past bounds later).frame store.frames.size := fun h => hid (moveUp_inj.mp h)
    rw [if_neg hid, if_neg hid', h id]

end

/-- The second machine holds what the first one holds, past the bounds under other names, and has
shown the same since certain events. -/
structure Beside (bounds later : Bounds) (shown shown' : Array Event) (machine machine' : Machine) :
    Prop where
  clear : machine.Clear Value.isError
  found : machine.store.Found (.past bounds later) machine'.store
  frames : bounds.frames ≤ machine.store.frames.size
  size : machine'.store.frames.size =
    machine.store.frames.size + (later.frames - bounds.frames)
  fresh_le : bounds.fresh ≤ machine.fresh
  fresh : machine'.fresh = machine.fresh + (later.fresh - bounds.fresh)
  events : ∃ more, machine.events = shown ++ more ∧ machine'.events = shown' ++ more

namespace Beside

variable {bounds later : Bounds} {shown shown' : Array Event} {machine machine' : Machine}

theorem newIdentity (h : Beside bounds later shown shown' machine machine') :
    Beside bounds later shown shown' (Action.newIdentity.leaves machine)
      (Action.newIdentity.leaves machine') where
  clear := h.clear
  found := h.found
  frames := h.frames
  size := h.size
  fresh_le := Nat.le_succ_of_le h.fresh_le
  fresh := by
    show machine'.fresh + 1 = machine.fresh + 1 + (later.fresh - bounds.fresh)
    rw [h.fresh, Nat.add_right_comm]
  events := h.events

theorem openFrame (h : Beside bounds later shown shown' machine machine') (outer : FrameId) :
    Beside bounds later shown shown' ((Action.openFrame (some outer)).leaves machine)
      ((Action.openFrame (some ((Renaming.past bounds later).frame outer))).leaves machine') where
  clear := Store.Clear.open h.clear (some outer)
  found := h.found.open outer (h.size.trans (moveUp_of_le h.frames).symm)
  frames := by
    show bounds.frames ≤ (machine.store.frames.push _).size
    rw [Array.size_push]
    exact Nat.le_succ_of_le h.frames
  size := by
    show (machine'.store.frames.push _).size = (machine.store.frames.push _).size + _
    rw [Array.size_push, Array.size_push, h.size, Nat.add_right_comm]
  fresh_le := h.fresh_le
  fresh := h.fresh
  events := h.events

theorem bindName (h : Beside bounds later shown shown' machine machine') (frame : FrameId)
    (name : Label) {value : Value} (hvalue : value.Clear Value.isError) :
    Beside bounds later shown shown' ((Action.bindName frame name value).leaves machine)
      ((Action.bindName ((Renaming.past bounds later).frame frame) name
        (value.rename (.past bounds later))).leaves machine') where
  clear := Store.Clear.set h.clear hvalue
  found := h.found.set frame name value
  frames := by
    show bounds.frames ≤ (machine.store.frames.modify _ _).size
    rw [Array.size_modify]
    exact h.frames
  size := by
    show (machine'.store.frames.modify _ _).size = (machine.store.frames.modify _ _).size + _
    rw [Array.size_modify, Array.size_modify, h.size]
  fresh_le := h.fresh_le
  fresh := h.fresh
  events := h.events

theorem lookup (h : Beside bounds later shown shown' machine machine') (frame : FrameId)
    (name : String) : Option.Rel
      (fun value value' => value.Unshared ∧ value' = value.rename (.past bounds later))
      (machine.store.lookup frame (.name name))
      (machine'.store.lookup ((Renaming.past bounds later).frame frame) (.name name)) := by
  rw [h.found.lookup frame (.name name)]
  cases hfound : machine.store.lookup frame (.name name) with
  | none => exact .none
  | some value => exact .some ⟨Or.inl (Store.Clear.lookup h.clear hfound), rfl⟩

theorem emit (h : Beside bounds later shown shown' machine machine') (event : Event) :
    Beside bounds later shown shown' ((Action.emit event).leaves machine)
      ((Action.emit event).leaves machine') where
  clear := h.clear
  found := h.found
  frames := h.frames
  size := h.size
  fresh_le := h.fresh_le
  fresh := h.fresh
  events := by
    obtain ⟨more, heq, heq'⟩ := h.events
    refine ⟨more.push event, ?_, ?_⟩
    · show machine.events.push event = _
      rw [heq, Array.push_append]
    · show machine'.events.push event = _
      rw [heq', Array.push_append]

end Beside

theorem eq_of_matches {event event' : Event} (h : event.Matches Eq event') : event = event' := by
  cases h with
  | wrote line => rfl
  | warned message htoken => rw [htoken]

/-- Two runs beside each other. -/
def Pairing.past (bounds later : Bounds) (shown shown' : Array Event) : Pairing where
  World := Unit
  Grows _ _ := True
  tokens := Eq
  parameters := Eq
  nodes := Eq
  functions names body names' body' := names = names' ∧ body = body'
  frames _ frame frame' := frame' = (Renaming.past bounds later).frame frame
  identities _ identity identity' := identity' = (Renaming.past bounds later).identity identity
  values _ value value' := value.Unshared ∧ value' = value.rename (.past bounds later)
  machines _ := Beside bounds later shown shown'
  refl _ := trivial
  trans _ _ := trivial
  frames_grow _ h := h
  values_grow _ h := h
  labels h := labels_congr h.1
  bodies h := h.2
  literals h := (Node.function.inj h).2
  nodes_match {node _} h := h ▸ node.matches_rfl
  values_match := unshared_iff_matches
  identities_eq_iff h h' := h ▸ h' ▸ moveUp_inj.symm
  display h := by rw [h.2, Value.display_rename]
  newIdentity h := ⟨(), trivial, h.fresh.trans (moveUp_of_le h.fresh_le).symm, h.newIdentity⟩
  openFrame {_ _ _ outer _} h houter := by
    subst houter
    exact ⟨(), trivial, h.size.trans (moveUp_of_le h.frames).symm, h.openFrame outer⟩
  bindName {_ _ _ frame _ name _ _} h hframe hvalue herror := by
    obtain ⟨hunshared, rfl⟩ := hvalue
    subst hframe
    exact h.bindName frame name (hunshared.clear herror)
  lookup {_ _ _ frame _ name} h hframe _ := by
    subst hframe
    exact h.lookup frame name
  emit {_ _ _ event _} h hevent := eq_of_matches hevent ▸ h.emit event

end Monkey
