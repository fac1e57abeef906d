/-
Machines that are closed.  What a closed machine holds refers only to frames that are there and to
identities that are used up, every frame lies inside an older one, and functions have code of a
realm only.  Running code of the realm in a frame that is there leaves a closed machine.
-/
import Monkey.Proofs.Running.Actions
import Monkey.Proofs.Running.SideBySide

namespace Monkey

/-! ### Values and their parts -/

section Parts

variable {bad : Value → Bool}

theorem clear_array_iff {identity : Nat} {elements : List Value} :
    (Value.array identity elements).Clear bad ↔
      bad (.array identity elements) = false ∧ ∀ element ∈ elements, element.Clear bad := by
  constructor
  · exact fun h => ⟨h.self, fun _ => h.element⟩
  · rintro ⟨hself, helements⟩ part hpart
    rcases List.mem_cons.mp hpart with rfl | hpart
    · exact hself
    · obtain ⟨element, helement, hpart⟩ := mem_valueParts.mp hpart
      exact helements element helement part hpart

theorem clear_hash_iff {identity : Nat} {entries : List (Key × Value)} :
    (Value.hash identity entries).Clear bad ↔
      bad (.hash identity entries) = false ∧ ∀ entry ∈ entries, entry.2.Clear bad := by
  constructor
  · exact fun h => ⟨h.self, fun _ => h.entry⟩
  · rintro ⟨hself, hentries⟩ part hpart
    rcases List.mem_cons.mp hpart with rfl | hpart
    · exact hself
    · obtain ⟨entry, hentry, hpart⟩ := mem_entryParts.mp hpart
      exact hentries entry hentry part hpart

theorem clear_returned_iff {identity : Nat} {value : Value} :
    (Value.returned identity value).Clear bad ↔
      bad (.returned identity value) = false ∧ value.Clear bad :=
  ⟨fun h => ⟨h.self, h.wrapped⟩, fun h => h.2.returned h.1⟩

end Parts

/-- Lists that agree, all of whose members are of some kind. -/
theorem forall₂_eq_iff {α : Type} {p : α → Prop} {items items' : List α} :
    List.Forall₂ (fun item item' => p item ∧ item = item') items items' ↔
      (∀ item ∈ items, p item) ∧ items = items' := by
  rw [List.forall₂_and_left, List.forall₂_eq_eq_eq]

theorem labels_congr {names names' : List Node} (h : names = names') :
    names.map Node.label = names'.map Node.label :=
  congrArg (List.map Node.label) h

/-! ### Realms -/

/-- The code that is run, and the tokens it can report. -/
structure Realm where
  token : Option Token → Prop
  code : Node → Prop
  closed : ∀ {node}, code node → node.Matches (fun first second => token first ∧ first = second)
    Eq (fun first second => code first ∧ first = second) node

/-- How many frames there are, and the next identity. -/
structure Bounds where
  frames : Nat
  fresh : Nat

def Machine.bounds (machine : Machine) : Bounds :=
  ⟨machine.store.frames.size, machine.fresh⟩

structure Bounds.Le (bounds later : Bounds) : Prop where
  frames : bounds.frames ≤ later.frames
  fresh : bounds.fresh ≤ later.fresh

theorem Bounds.Le.refl (bounds : Bounds) : bounds.Le bounds :=
  ⟨Nat.le_refl _, Nat.le_refl _⟩

theorem Bounds.Le.trans {bounds mid later : Bounds} (h : bounds.Le mid) (h' : mid.Le later) :
    bounds.Le later :=
  ⟨Nat.le_trans h.frames h'.frames, Nat.le_trans h.fresh h'.fresh⟩

namespace Realm

variable {realm : Realm} {bounds later : Bounds} {value : Value} {machine : Machine}

/-- What a part of a value refers to is there. -/
def Admits (realm : Realm) (bounds : Bounds) : Value → Prop
  | .array identity _ | .hash identity _ | .returned identity _ => identity < bounds.fresh
  | .function identity _ body frame =>
      identity < bounds.fresh ∧ frame < bounds.frames ∧ realm.code body
  | .error _ token identity => realm.token token ∧ identity = none
  | .nil | .int _ | .bool _ | .string _ | .builtin _ => True

open Classical in
noncomputable def refuses (realm : Realm) (bounds : Bounds) (value : Value) : Bool :=
  !decide (realm.Admits bounds value)

theorem refuses_eq_false : realm.refuses bounds value = false ↔ realm.Admits bounds value := by
  simp [refuses]

theorem Admits.mono (h : realm.Admits bounds value) (hle : bounds.Le later) :
    realm.Admits later value := by
  cases value with
  | array | hash | returned => exact Nat.lt_of_lt_of_le h hle.fresh
  | function =>
      exact ⟨Nat.lt_of_lt_of_le h.1 hle.fresh, Nat.lt_of_lt_of_le h.2.1 hle.frames, h.2.2⟩
  | _ => exact h

/-- All that a value refers to is there, and it holds no error, unless it is one. -/
structure Holds (realm : Realm) (bounds : Bounds) (value : Value) : Prop where
  clear : value.Clear (realm.refuses bounds)
  errorless : value.isError = false → value.Clear Value.isError

theorem Holds.mono (h : realm.Holds bounds value) (hle : bounds.Le later) :
    realm.Holds later value where
  clear part hpart :=
    refuses_eq_false.mpr ((refuses_eq_false.mp (h.clear part hpart)).mono hle)
  errorless := h.errorless

/-- A value that something holds: it is no error. -/
def Keeps (realm : Realm) (bounds : Bounds) (value : Value) : Prop :=
  realm.Holds bounds value ∧ value.isError = false

theorem keeps_iff : realm.Keeps bounds value ↔
    value.Clear (realm.refuses bounds) ∧ value.Clear Value.isError := by
  constructor
  · exact fun h => ⟨h.1.clear, h.1.errorless h.2⟩
  · exact fun h => ⟨⟨h.1, fun _ => h.2⟩, h.2.self⟩

theorem holds_of_parts (hparts : value.parts = [value]) (h : realm.Admits bounds value) :
    realm.Holds bounds value :=
  ⟨clear_of_parts hparts (refuses_eq_false.mpr h), clear_of_parts hparts⟩

theorem holds_array {identity : Nat} {elements : List Value} :
    realm.Holds bounds (.array identity elements) ↔
      identity < bounds.fresh ∧ ∀ element ∈ elements, realm.Keeps bounds element := by
  constructor
  · rintro ⟨hclear, herrorless⟩
    obtain ⟨hself, helements⟩ := clear_array_iff.mp hclear
    obtain ⟨_, herrors⟩ := clear_array_iff.mp (herrorless rfl)
    exact ⟨refuses_eq_false.mp hself, fun element helement =>
      keeps_iff.mpr ⟨helements element helement, herrors element helement⟩⟩
  · rintro ⟨hidentity, helements⟩
    refine ⟨clear_array_iff.mpr ⟨refuses_eq_false.mpr hidentity, ?_⟩,
      fun _ => clear_array_iff.mpr ⟨rfl, ?_⟩⟩
    · exact fun element helement => (keeps_iff.mp (helements element helement)).1
    · exact fun element helement => (keeps_iff.mp (helements element helement)).2

theorem holds_hash {identity : Nat} {entries : List (Key × Value)} :
    realm.Holds bounds (.hash identity entries) ↔
      identity < bounds.fresh ∧ ∀ entry ∈ entries, realm.Keeps bounds entry.2 := by
  constructor
  · rintro ⟨hclear, herrorless⟩
    obtain ⟨hself, hentries⟩ := clear_hash_iff.mp hclear
    obtain ⟨_, herrors⟩ := clear_hash_iff.mp (herrorless rfl)
    exact ⟨refuses_eq_false.mp hself, fun entry hentry =>
      keeps_iff.mpr ⟨hentries entry hentry, herrors entry hentry⟩⟩
  · rintro ⟨hidentity, hentries⟩
    refine ⟨clear_hash_iff.mpr ⟨refuses_eq_false.mpr hidentity, ?_⟩,
      fun _ => clear_hash_iff.mpr ⟨rfl, ?_⟩⟩
    · exact fun entry hentry => (keeps_iff.mp (hentries entry hentry)).1
    · exact fun entry hentry => (keeps_iff.mp (hentries entry hentry)).2

theorem holds_returned {identity : Nat} :
    realm.Holds bounds (.returned identity value) ↔
      identity < bounds.fresh ∧ realm.Keeps bounds value := by
  constructor
  · rintro ⟨hclear, herrorless⟩
    obtain ⟨hself, hvalue⟩ := clear_returned_iff.mp hclear
    exact ⟨refuses_eq_false.mp hself,
      keeps_iff.mpr ⟨hvalue, (clear_returned_iff.mp (herrorless rfl)).2⟩⟩
  · rintro ⟨hidentity, hvalue⟩
    obtain ⟨hclear, herror⟩ := keeps_iff.mp hvalue
    exact ⟨clear_returned_iff.mpr ⟨refuses_eq_false.mpr hidentity, hclear⟩,
      fun _ => clear_returned_iff.mpr ⟨rfl, herror⟩⟩

/-- A value with itself. -/
theorem holds_iff_matches {value' : Value} : realm.Holds bounds value ∧ value = value' ↔
    value.Matches (fun token token' => realm.token token ∧ token = token')
      (fun names body names' body' => names = names' ∧ realm.code body ∧ body = body')
      (fun frame frame' => frame < bounds.frames ∧ frame = frame')
      (fun identity identity' => identity < bounds.fresh ∧ identity = identity')
      (fun value value' => realm.Holds bounds value ∧ value = value') value' := by
  constructor
  · rintro ⟨h, rfl⟩
    have hself : realm.Admits bounds value := refuses_eq_false.mp h.clear.self
    cases value with
    | nil => exact .nil
    | int value => exact .int value
    | bool value => exact .bool value
    | string value => exact .string value
    | builtin builtin => exact .builtin builtin
    | array identity elements =>
        obtain ⟨hidentity, helements⟩ := holds_array.mp h
        exact .array ⟨hidentity, rfl⟩
          (forall₂_eq_iff.mpr ⟨fun element helement => (helements element helement).1, rfl⟩)
          fun element helement => (helements element helement).2
    | hash identity entries =>
        obtain ⟨hidentity, hentries⟩ := holds_hash.mp h
        exact .hash ⟨hidentity, rfl⟩
          (List.forall₂_same.mpr fun entry hentry => ⟨rfl, (hentries entry hentry).1, rfl⟩)
          fun entry hentry => (hentries entry hentry).2
    | function identity names body frame =>
        exact .function ⟨hself.1, rfl⟩ ⟨rfl, hself.2.2, rfl⟩ ⟨hself.2.1, rfl⟩
    | returned identity value =>
        obtain ⟨hidentity, hvalue⟩ := holds_returned.mp h
        exact .returned ⟨hidentity, rfl⟩ ⟨hvalue.1, rfl⟩ hvalue.2
    | error message token identity =>
        obtain ⟨htoken, rfl⟩ := hself
        exact .error message ⟨htoken, rfl⟩
  · intro h
    cases h with
    | nil | int | bool | string | builtin => exact ⟨holds_of_parts rfl trivial, rfl⟩
    | array hidentity helements herrors =>
        obtain ⟨hvalues, rfl⟩ := forall₂_eq_iff.mp helements
        obtain ⟨hidentity, rfl⟩ := hidentity
        exact ⟨holds_array.mpr ⟨hidentity, fun element helement =>
          ⟨hvalues element helement, herrors element helement⟩⟩, rfl⟩
    | @hash _ _ entries entries' hidentity hentries herrors =>
        have heq : List.Forall₂ (fun entry entry' => realm.Holds bounds entry.2 ∧ entry = entry')
            entries entries' :=
          hentries.imp fun _ _ hentry => ⟨hentry.2.1, Prod.ext hentry.1 hentry.2.2⟩
        obtain ⟨hvalues, rfl⟩ := forall₂_eq_iff.mp heq
        obtain ⟨hidentity, rfl⟩ := hidentity
        exact ⟨holds_hash.mpr ⟨hidentity, fun entry hentry =>
          ⟨hvalues entry hentry, herrors entry hentry⟩⟩, rfl⟩
    | function hidentity hfunction hframe =>
        obtain ⟨hidentity, rfl⟩ := hidentity
        obtain ⟨rfl, hbody, rfl⟩ := hfunction
        obtain ⟨hframe, rfl⟩ := hframe
        exact ⟨holds_of_parts rfl ⟨hidentity, hframe, hbody⟩, rfl⟩
    | returned hidentity hvalue herror =>
        obtain ⟨hidentity, rfl⟩ := hidentity
        obtain ⟨hvalue, rfl⟩ := hvalue
        exact ⟨holds_returned.mpr ⟨hidentity, hvalue, herror⟩, rfl⟩
    | error message htoken =>
        obtain ⟨htoken, rfl⟩ := htoken
        exact ⟨⟨clear_of_parts rfl (refuses_eq_false.mpr ⟨htoken, rfl⟩), nofun⟩, rfl⟩

/-- A closed machine. -/
structure Contains (realm : Realm) (machine : Machine) : Prop where
  clear : machine.Clear (realm.refuses machine.bounds)
  errorless : machine.Clear Value.isError
  outer_lt : ∀ {id : FrameId} {frame : Frame} {outer : FrameId},
    machine.store.frames[id]? = some frame → frame.outer = some outer → outer < id
  warned : ∀ {message token}, .warned message token ∈ machine.events → realm.token token

/-! ### Single steps -/

theorem clear_refuses_mono {store : Store} (h : store.Clear (realm.refuses bounds))
    (hle : bounds.Le later) : store.Clear (realm.refuses later) :=
  fun frame hframe binding hbinding part hpart =>
    refuses_eq_false.mpr
      ((refuses_eq_false.mp (h frame hframe binding hbinding part hpart)).mono hle)

theorem Contains.newIdentity (h : realm.Contains machine) :
    realm.Contains (Action.newIdentity.leaves machine) where
  clear := clear_refuses_mono h.clear ⟨Nat.le_refl _, Nat.le_succ _⟩
  errorless := h.errorless
  outer_lt := h.outer_lt
  warned := h.warned

theorem bounds_openFrame (machine : Machine) (outer : Option FrameId) :
    ((Action.openFrame outer).leaves machine).bounds =
      ⟨machine.store.frames.size + 1, machine.fresh⟩ :=
  congrArg (Bounds.mk · machine.fresh) (Array.size_push _)

theorem Contains.openFrame (h : realm.Contains machine) {outer : Option FrameId}
    (houter : ∀ id, outer = some id → id < machine.store.frames.size) :
    realm.Contains ((Action.openFrame outer).leaves machine) where
  clear := by
    refine clear_refuses_mono (Store.Clear.open h.clear outer) ?_
    rw [bounds_openFrame]
    exact ⟨Nat.le_succ _, Nat.le_refl _⟩
  errorless := Store.Clear.open h.errorless outer
  outer_lt {id frame outer'} hframe houter' := by
    have hpush : (machine.store.frames.push ⟨[], outer⟩)[id]? = some frame := hframe
    rw [Array.getElem?_push] at hpush
    split at hpush
    · next hid =>
        cases hpush
        rw [hid]
        exact houter outer' houter'
    · exact h.outer_lt hpush houter'
  warned := h.warned

theorem bounds_bindName (machine : Machine) (frame : FrameId) (name : Label) (value : Value) :
    ((Action.bindName frame name value).leaves machine).bounds = machine.bounds :=
  congrArg (Bounds.mk · machine.fresh) (Array.size_modify ..)

theorem Contains.bindName (h : realm.Contains machine) (frame : FrameId) (name : Label)
    (hvalue : realm.Keeps machine.bounds value) :
    realm.Contains ((Action.bindName frame name value).leaves machine) where
  clear := by
    rw [bounds_bindName]
    exact Store.Clear.set h.clear (keeps_iff.mp hvalue).1
  errorless := Store.Clear.set h.errorless (keeps_iff.mp hvalue).2
  outer_lt {id found outer} hfound houter := by
    have hset : (machine.store.set frame name value).frames[id]? = some found := hfound
    have hsame := machine.store.outer_set frame id name value
    rw [hset, Option.map_some, houter] at hsame
    obtain ⟨old, hold, houter'⟩ := Option.map_eq_some_iff.mp hsame.symm
    exact h.outer_lt hold houter'
  warned := h.warned

theorem Contains.emit (h : realm.Contains machine) {event : Event}
    (hevent : ∀ message token, event = .warned message token → realm.token token) :
    realm.Contains ((Action.emit event).leaves machine) where
  clear := h.clear
  errorless := h.errorless
  outer_lt := h.outer_lt
  warned hmem := by
    rcases Array.mem_push.mp hmem with hmem | heq
    · exact h.warned hmem
    · exact hevent _ _ heq.symm

theorem Contains.lookup (h : realm.Contains machine) {frame : FrameId} {name : Label}
    (hvalue : machine.store.lookup frame name = some value) :
    realm.Holds machine.bounds value :=
  ⟨Store.Clear.lookup h.clear hvalue, fun _ => Store.Clear.lookup h.errorless hvalue⟩

theorem contains_start : realm.Contains Machine.start := by
  have hempty : realm.Contains ⟨Store.empty, 0, #[]⟩ := by
    refine ⟨?_, ?_, fun hframe _ => ?_, fun hmem => absurd hmem (Array.not_mem_empty _)⟩
    · exact fun _ hframe => absurd hframe (Array.not_mem_empty _)
    · exact fun _ hframe => absurd hframe (Array.not_mem_empty _)
    · cases hframe
  exact hempty.openFrame nofun

/-- What is shown can be taken away. -/
theorem Contains.drain (h : realm.Contains machine) :
    realm.Contains { machine with events := #[] } where
  clear := h.clear
  errorless := h.errorless
  outer_lt := h.outer_lt
  warned hmem := absurd hmem (Array.not_mem_empty _)

end Realm

/-! ### Runs -/

/-- A run beside itself, on closed machines. -/
def Pairing.alone (realm : Realm) : Pairing where
  World := Bounds
  Grows := Bounds.Le
  tokens token token' := realm.token token ∧ token = token'
  parameters := Eq
  nodes node node' := realm.code node ∧ node = node'
  functions names body names' body' := names = names' ∧ realm.code body ∧ body = body'
  frames bounds frame frame' := frame < bounds.frames ∧ frame = frame'
  identities bounds identity identity' := identity < bounds.fresh ∧ identity = identity'
  values bounds value value' := realm.Holds bounds value ∧ value = value'
  machines bounds machine machine' :=
    (realm.Contains machine ∧ machine.bounds = bounds) ∧ machine = machine'
  refl := Bounds.Le.refl
  trans := Bounds.Le.trans
  frames_grow hle hframe := ⟨Nat.lt_of_lt_of_le hframe.1 hle.frames, hframe.2⟩
  values_grow hle hvalue := ⟨hvalue.1.mono hle, hvalue.2⟩
  labels h := labels_congr h.1
  bodies h := h.2
  literals h := by
    obtain ⟨hcode, heq⟩ := h
    obtain ⟨-, rfl, rfl⟩ := Node.function.inj heq
    cases realm.closed hcode with
    | function _ hbody => exact ⟨rfl, hbody⟩
  nodes_match h := by
    obtain ⟨hcode, rfl⟩ := h
    exact realm.closed hcode
  values_match := Realm.holds_iff_matches
  identities_eq_iff h h' := by rw [h.2, h'.2]
  display h := by rw [h.2]
  newIdentity h := by
    obtain ⟨⟨hcontains, rfl⟩, rfl⟩ := h
    exact ⟨⟨_, _ + 1⟩, ⟨Nat.le_refl _, Nat.le_succ _⟩, ⟨Nat.lt_succ_self _, rfl⟩,
      ⟨hcontains.newIdentity, rfl⟩, rfl⟩
  openFrame h houter := by
    obtain ⟨⟨hcontains, rfl⟩, rfl⟩ := h
    obtain ⟨hlt, rfl⟩ := houter
    refine ⟨⟨_, _⟩, ⟨Nat.le_succ _, Nat.le_refl _⟩, ⟨Nat.lt_succ_self _, rfl⟩,
      ⟨hcontains.openFrame fun id hid => ?_, Realm.bounds_openFrame ..⟩, rfl⟩
    cases hid
    exact hlt
  bindName h hframe hvalue herror := by
    obtain ⟨⟨hcontains, rfl⟩, rfl⟩ := h
    obtain ⟨hvalue, rfl⟩ := hvalue
    obtain ⟨_, rfl⟩ := hframe
    exact ⟨⟨hcontains.bindName _ _ ⟨hvalue, herror⟩, Realm.bounds_bindName ..⟩, rfl⟩
  lookup {_ machine _ frame _ name} h hframe _ := by
    obtain ⟨⟨hcontains, rfl⟩, rfl⟩ := h
    obtain ⟨_, rfl⟩ := hframe
    cases hfound : machine.store.lookup frame (.name name) with
    | none => exact .none
    | some value => exact .some ⟨hcontains.lookup hfound, rfl⟩
  emit h hevent := by
    obtain ⟨⟨hcontains, rfl⟩, rfl⟩ := h
    cases hevent with
    | wrote line => exact ⟨⟨hcontains.emit nofun, rfl⟩, rfl⟩
    | warned message htoken =>
        obtain ⟨htoken, rfl⟩ := htoken
        refine ⟨⟨hcontains.emit fun _ _ heq => ?_, rfl⟩, rfl⟩
        cases heq
        exact htoken

namespace Realm

variable {realm : Realm} {bounds : Bounds} {machine : Machine}

/-- A run ends on a closed machine, and what it gives refers to that. -/
inductive Closes (realm : Realm) (bounds : Bounds) : EStateM.Result Fault Machine Value → Prop
  | ok {value : Value} {after : Machine} (hle : bounds.Le after.bounds)
      (hvalue : realm.Holds after.bounds value) (hafter : realm.Contains after) :
      Closes realm bounds (.ok value after)
  | error {fault : Fault} {after : Machine} (hle : bounds.Le after.bounds)
      (hafter : realm.Contains after) : Closes realm bounds (.error fault after)

theorem closes_of_ends {result : EStateM.Result Fault Machine Value}
    (h : (Pairing.alone realm).Ends bounds (Pairing.alone realm).values result result) :
    realm.Closes bounds result := by
  cases h with
  | ok hgrows hvalue hmachines =>
      obtain ⟨⟨hafter, rfl⟩, _⟩ := hmachines
      exact .ok hgrows hvalue.1 hafter
  | error hgrows hmachines =>
      obtain ⟨⟨hafter, rfl⟩, _⟩ := hmachines
      exact .error hgrows hafter

theorem Contains.agrees (h : realm.Contains machine) {node : Node} {frame : FrameId}
    (hnode : realm.code node) (hframe : frame < machine.store.frames.size) (depth : Nat)
    (use : Use) :
    (Pairing.alone realm).Agrees machine.bounds (Pairing.alone realm).values
      (node.trace depth use frame machine) (node.trace depth use frame machine) := by
  have hnodes : (Pairing.alone realm).nodes node node := ⟨hnode, rfl⟩
  have hframes : (Pairing.alone realm).frames machine.bounds frame frame := ⟨hframe, rfl⟩
  have hmachines : (Pairing.alone realm).machines machine.bounds machine machine :=
    ⟨⟨h, rfl⟩, rfl⟩
  exact Pairing.alike_trace depth use hnodes hframes machine.bounds (Bounds.Le.refl _) machine
    machine hmachines

theorem Contains.closes_eval (h : realm.Contains machine) {node : Node} {frame : FrameId}
    (hnode : realm.code node) (hframe : frame < machine.store.frames.size) (depth : Nat) :
    realm.Closes machine.bounds (node.eval depth frame machine) := by
  have hends := (h.agrees hnode hframe depth .passed).ends
  rw [Node.trace_result] at hends
  exact closes_of_ends hends

/-- So does a call of what is there, with arguments that are. -/
theorem Contains.closes_applyValue (h : realm.Contains machine) {token : Option Token}
    {function : Value} {arguments : List Value} (htoken : realm.token token)
    (hfunction : realm.Holds machine.bounds function)
    (harguments : ∀ argument ∈ arguments, realm.Keeps machine.bounds argument) (depth : Nat) :
    realm.Closes machine.bounds
      (applyValue (fun body frame => body.eval depth frame) token function arguments machine) := by
  have hmachines : (Pairing.alone realm).machines machine.bounds machine machine :=
    ⟨⟨h, rfl⟩, rfl⟩
  have helements : (Pairing.alone realm).Elements machine.bounds arguments arguments :=
    ⟨forall₂_eq_iff.mpr ⟨fun argument hmem => (harguments argument hmem).1, rfl⟩,
      fun argument hmem => (harguments argument hmem).2⟩
  have hvalues : (Pairing.alone realm).values machine.bounds function function :=
    ⟨hfunction, rfl⟩
  have htokens : (Pairing.alone realm).tokens token token := ⟨htoken, rfl⟩
  exact closes_of_ends (Pairing.ends_applyValue depth htokens hvalues helements hmachines)

/-- Wherever a run enters a node, its machine is closed. -/
theorem Contains.visits (h : realm.Contains machine) {node entered : Node}
    {frame inside : FrameId} (hnode : realm.code node)
    (hframe : frame < machine.store.frames.size) {depth : Nat} {use : Use} {mid : Machine}
    (hmid : .enters entered inside mid ∈ (node.trace depth use frame machine).1) :
    realm.Contains mid := by
  obtain ⟨_, _, _, _, ⟨hcontains, _⟩, _⟩ := (h.agrees hnode hframe depth use).visits _ _ _ hmid
  exact hcontains

end Realm

end Monkey
