/-
Chains of frames.  The links of the frames lead outward to the root, each to an older frame, and
functions refer to frames that are there, although a frame may hold functions made in it.  So a
name is looked up along a list of frames that comes to an end.
-/
import Monkey.Proofs.Running.Repeating

namespace Monkey

/-! ### Chains -/

/-- What a frame itself binds a name to. -/
def Store.binding? (store : Store) (id : FrameId) (name : Label) : Option Value :=
  (store.frames[id]?).bind (·.bindings.lookup name)

/-- The frames from one outward, wherever the links lead, up to one that has no frame around it.
Lookup follows links to older frames only; a chain follows all of them. -/
inductive Store.Chain (store : Store) : FrameId → List FrameId → Prop
  | last {id : FrameId} {frame : Frame} (hframe : store.frames[id]? = some frame)
      (houter : frame.outer = none) : Store.Chain store id [id]
  | next {id outer : FrameId} {frame : Frame} {rest : List FrameId}
      (hframe : store.frames[id]? = some frame) (houter : frame.outer = some outer)
      (hrest : Store.Chain store outer rest) : Store.Chain store id (id :: rest)

/-- Every link leads to an older frame. -/
def Store.Descends (store : Store) : Prop :=
  ∀ (id : FrameId) (frame : Frame) (outer : FrameId), store.frames[id]? = some frame →
    frame.outer = some outer → outer < id

/-- Only the root frame has no frame around it. -/
def Store.Rooted (store : Store) : Prop :=
  ∀ (id : FrameId) (frame : Frame), store.frames[id]? = some frame → frame.outer = none →
    id = rootFrame

section Chains

variable {store : Store} {id : FrameId}

/-- Where the links lead to older frames, each of them has a chain, by induction on its age. -/
theorem Store.Rooted.exists_chain (h : store.Rooted) (hdescends : store.Descends)
    (hid : id < store.frames.size) :
    ∃ chain, store.Chain id chain ∧ chain.getLast? = some rootFrame := by
  induction id using Nat.strongRecOn with
  | _ id ih =>
      have hframe : store.frames[id]? = some store.frames[id] := Array.getElem?_eq_getElem hid
      cases houter : store.frames[id].outer with
      | none =>
          obtain rfl := h id _ hframe houter
          exact ⟨[rootFrame], .last hframe houter, rfl⟩
      | some outer =>
          have hlt : outer < id := hdescends id _ outer hframe houter
          obtain ⟨rest, hrest, hlast⟩ := ih outer hlt (Nat.lt_trans hlt hid)
          refine ⟨id :: rest, .next hframe houter hrest, ?_⟩
          rw [List.getLast?_cons, hlast]
          rfl

/-- A name is looked up in a frame, and then in the frame that its link leads to. -/
theorem Store.lookup_of_frame (hdescends : store.Descends) {frame : Frame}
    (hframe : store.frames[id]? = some frame) (name : Label) :
    store.lookup id name =
      (store.binding? id name).or (frame.outer.bind fun outer => store.lookup outer name) := by
  cases hbound : store.binding? id name with
  | some value => rw [store.lookup_of_bound hbound, Option.some_or]
  | none =>
      rw [store.lookup_of_unbound hbound, Option.none_or]
      cases houter : frame.outer with
      | none => simp [Store.outer?, hframe, houter]
      | some outer =>
          have hlt : outer < id := hdescends id frame outer hframe houter
          simp [Store.outer?, hframe, houter, hlt]

/-- Looking a name up goes along the chain, to the first frame that binds the name. -/
theorem Store.Chain.lookup_eq {chain : List FrameId} (h : store.Chain id chain)
    (hdescends : store.Descends) (name : Label) :
    store.lookup id name = chain.findSome? (store.binding? · name) := by
  induction h with
  | @last id frame hframe houter =>
      rw [store.lookup_of_frame hdescends hframe, houter, List.findSome?_cons]
      cases store.binding? id name <;> rfl
  | @next id outer frame rest hframe houter _ ih =>
      rw [store.lookup_of_frame hdescends hframe, houter, Option.bind_some, ih,
        List.findSome?_cons]
      cases store.binding? id name <;> rfl

end Chains

/-! ### Founded stores -/

/-- The frame that a function was made in. -/
def Value.frame? : Value → Option FrameId
  | .function _ _ _ frame => some frame
  | _ => none

/-- All functions in a value were made in frames that are there. -/
def Value.Anchored (store : Store) (value : Value) : Prop :=
  ∀ part ∈ value.parts, ∀ frame ∈ part.frame?, frame < store.frames.size

/-- Looking a name up gives the binding of the first frame of a chain that binds it, and nothing
just if none of them does. -/
structure Store.LooksUp (store : Store) (id : FrameId) (chain : List FrameId) (name : Label) :
    Prop where
  found : ∀ value, store.lookup id name = some value ↔
    ∃ inner holder outer, chain = inner ++ holder :: outer ∧
      store.binding? holder name = some value ∧
      ∀ skipped ∈ inner, store.binding? skipped name = none
  missing : store.lookup id name = none ↔ ∀ holder ∈ chain, store.binding? holder name = none

/-- Links lead to older frames and functions to frames that are there; every frame has a chain,
which ends at the root, and along which names are looked up. -/
structure Store.Founded (store : Store) : Prop where
  outer : ∀ (id : FrameId) (frame : Frame), store.frames[id]? = some frame →
    frame.outer = none ∨ ∃ outer, frame.outer = some outer ∧ outer < id
  anchored : ∀ frame ∈ store.frames, ∀ binding ∈ frame.bindings, binding.2.Anchored store
  chains : ∀ id < store.frames.size, ∃ chain, store.Chain id chain ∧
    chain.getLast? = some rootFrame ∧ ∀ name, store.LooksUp id chain name

theorem Store.Chain.looksUp {store : Store} {id : FrameId} {chain : List FrameId}
    (h : store.Chain id chain) (hdescends : store.Descends) (name : Label) :
    store.LooksUp id chain name where
  found value := by rw [h.lookup_eq hdescends, List.findSome?_eq_some_iff]
  missing := by rw [h.lookup_eq hdescends, List.findSome?_eq_none_iff]

theorem anchored_of_clear {realm : Realm} {machine : Machine} {value : Value}
    (h : value.Clear (realm.refuses machine.bounds)) : value.Anchored machine.store := by
  intro part hpart frame hframe
  have hadmits : realm.Admits machine.bounds part := Realm.refuses_eq_false.mp (h part hpart)
  cases part with
  | function =>
      obtain rfl := Option.some.inj hframe
      exact hadmits.2.1
  | _ => cases hframe

theorem Realm.Contains.founded {realm : Realm} {machine : Machine} (h : realm.Contains machine)
    (hrooted : machine.store.Rooted) : machine.store.Founded := by
  have hdescends : machine.store.Descends := fun _ _ _ => h.outer_lt
  refine ⟨fun id frame hframe => ?_, fun frame hframe binding hbinding => ?_, fun id hid => ?_⟩
  · cases houter : frame.outer with
    | none => exact .inl rfl
    | some outer => exact .inr ⟨outer, rfl, hdescends id frame outer hframe houter⟩
  · exact anchored_of_clear (h.clear frame hframe binding hbinding)
  · obtain ⟨chain, hchain, hlast⟩ := hrooted.exists_chain hdescends hid
    exact ⟨chain, hchain, hlast, hchain.looksUp hdescends⟩

/-! ### What is kept while programs run -/

theorem Store.Rooted.open {store : Store} (h : store.Rooted) (outer : FrameId) :
    (store.open (some outer)).2.Rooted := by
  intro id frame hframe houter
  have hpush : (store.frames.push ⟨[], some outer⟩)[id]? = some frame := hframe
  rw [Array.getElem?_push] at hpush
  split at hpush
  · cases hpush
    cases houter
  · exact h id frame hpush houter

theorem Store.Rooted.set {store : Store} (h : store.Rooted) (id : FrameId) (name : Label)
    (value : Value) : (store.set id name value).Rooted := by
  intro other frame hframe houter
  have hsame := store.outer_set id other name value
  rw [hframe, Option.map_some, houter] at hsame
  obtain ⟨old, hold, houter'⟩ := Option.map_eq_some_iff.mp hsame.symm
  exact h other old hold houter'

theorem rooted_start : Machine.start.store.Rooted := by
  intro id frame hframe _
  obtain ⟨hlt, _⟩ := Array.getElem?_eq_some_iff.mp hframe
  exact Nat.lt_one_iff.mp hlt

/-- A run beside itself, on closed machines with one root. -/
def Pairing.rooted : Pairing :=
  { Pairing.alone .free with
    machines := fun bounds machine machine' =>
      (Pairing.alone .free).machines bounds machine machine' ∧ machine.store.Rooted
    newIdentity := fun h => by
      obtain ⟨after, hgrows, hidentity, hafter⟩ := (Pairing.alone .free).newIdentity h.1
      exact ⟨after, hgrows, hidentity, hafter, h.2⟩
    openFrame := fun h houter => by
      obtain ⟨after, hgrows, hframe, hafter⟩ := (Pairing.alone .free).openFrame h.1 houter
      exact ⟨after, hgrows, hframe, hafter, h.2.open _⟩
    bindName := fun h hframe hvalue herror =>
      ⟨(Pairing.alone .free).bindName h.1 hframe hvalue herror, h.2.set _ _ _⟩
    lookup := fun h => (Pairing.alone .free).lookup h.1
    emit := fun h hevent => ⟨(Pairing.alone .free).emit h.1 hevent, h.2⟩ }

/-! ### Programs one after another -/

/-- A node comes to be run in a frame of a machine, while programs without parse errors are run one
after another in the root frame. -/
inductive Node.Runs : Node → FrameId → Machine → Prop
  | first {source : String} {program : Node} (hparses : Parses source program) :
      Runs program rootFrame .start
  /-- The program before it has ended, or was stopped. -/
  | next {source source' : String} {program program' : Node} {machine : Machine} {depth : Nat}
      (h : Runs program rootFrame machine) (hparses : Parses source program)
      (hnext : Parses source' program') :
      Runs program' rootFrame ((program.eval depth rootFrame).leaves machine)
  /-- What a program has shown is taken away. -/
  | drains {node : Node} {frame : FrameId} {machine : Machine} (h : Runs node frame machine) :
      Runs node frame { machine with events := #[] }
  /-- The run of a node comes to another one. -/
  | part {node entered : Node} {frame inside : FrameId} {machine mid : Machine} {depth : Nat}
      {use : Use} (h : Runs node frame machine)
      (hmid : .enters entered inside mid ∈ (node.trace depth use frame machine).1) :
      Runs entered inside mid

/-- A closed machine with one root, and a frame of it. -/
structure Machine.Hosts (machine : Machine) (frame : FrameId) : Prop where
  contains : Realm.free.Contains machine
  rooted : machine.store.Rooted
  there : frame < machine.store.frames.size

theorem Machine.Hosts.agrees {machine : Machine} {frame : FrameId} (h : machine.Hosts frame)
    (node : Node) (depth : Nat) (use : Use) :
    Pairing.rooted.Agrees machine.bounds Pairing.rooted.values
      (node.trace depth use frame machine) (node.trace depth use frame machine) := by
  have hnodes : Pairing.rooted.nodes node node := ⟨trivial, rfl⟩
  have hframes : Pairing.rooted.frames machine.bounds frame frame := ⟨h.there, rfl⟩
  have hmachines : Pairing.rooted.machines machine.bounds machine machine :=
    ⟨⟨⟨h.contains, rfl⟩, rfl⟩, h.rooted⟩
  exact Pairing.alike_trace depth use hnodes hframes machine.bounds (Bounds.Le.refl _) machine
    machine hmachines

/-- However a run ends, the frame is still there. -/
theorem Machine.Hosts.leaves {machine : Machine} {frame : FrameId} (h : machine.Hosts frame)
    (node : Node) (depth : Nat) : ((node.eval depth frame).leaves machine).Hosts frame := by
  have hends := (h.agrees node depth .passed).ends
  rw [Node.trace_result] at hends
  unfold Action.leaves
  generalize node.eval depth frame machine = result at hends
  cases hends with
  | ok hgrows _ hmachines | error hgrows hmachines =>
      obtain ⟨⟨⟨hcontains, rfl⟩, _⟩, hrooted⟩ := hmachines
      exact ⟨hcontains, hrooted, Nat.lt_of_lt_of_le h.there hgrows.frames⟩

theorem Machine.Hosts.visits {machine mid : Machine} {node entered : Node}
    {frame inside : FrameId} {depth : Nat} {use : Use} (h : machine.Hosts frame)
    (hmid : .enters entered inside mid ∈ (node.trace depth use frame machine).1) :
    mid.Hosts inside := by
  obtain ⟨_, _, _, hframe, ⟨⟨hcontains, rfl⟩, _⟩, hrooted⟩ :=
    (h.agrees node depth use).visits _ _ _ hmid
  exact ⟨hcontains, hrooted, hframe.1⟩

theorem Node.Runs.hosts {node : Node} {frame : FrameId} {machine : Machine}
    (h : node.Runs frame machine) : machine.Hosts frame := by
  induction h with
  | first => exact ⟨Realm.contains_start, rooted_start, Nat.one_pos⟩
  | next _ _ _ ih => exact ih.leaves _ _
  | drains _ ih => exact ⟨ih.contains.drain, ih.rooted, ih.there⟩
  | part _ hmid ih => exact ih.visits hmid

/-- A name that is none of a built-in function has the value that is looked up, and otherwise is an
error. -/
theorem evalName_eq {name : String} (h : Builtin.ofName? name = none) (frame : FrameId)
    (token : Option Token) (machine : Machine) :
    evalName frame token name machine =
      .ok ((machine.store.lookup frame (.name name)).getD (Problem.error (.notFound name) token))
        machine := by
  have hlookup : Action.lookup frame (.name name) machine =
      .ok (machine.store.lookup frame (.name name)) machine := rfl
  simp only [evalName, h, Bind.bind, EStateM.bind, hlookup]
  cases machine.store.lookup frame (.name name) <;> rfl

/-- Wherever a node comes to be run, and wherever it is done, links lead to older frames and
functions to frames that are there, and so do the functions in the value it has; names are looked
up along chains, all of which end at the root. -/
theorem Node.Runs.frames_founded {node : Node} {frame : FrameId} {machine : Machine}
    (h : node.Runs frame machine) (depth : Nat) :
    frame < machine.store.frames.size ∧ machine.store.Founded ∧
      ((node.eval depth frame).leaves machine).store.Founded ∧
      (∀ value after, node.eval depth frame machine = .ok value after →
        value.Anchored after.store) ∧
      ∀ token name, Builtin.ofName? name = none → evalName frame token name machine =
        .ok ((machine.store.lookup frame (.name name)).getD (Problem.error (.notFound name) token))
          machine := by
  have hhosts := h.hosts
  have hleaves := hhosts.leaves node depth
  refine ⟨hhosts.there, hhosts.contains.founded hhosts.rooted,
    hleaves.contains.founded hleaves.rooted, fun value after hrun => ?_,
    fun token name hname => evalName_eq hname frame token machine⟩
  have hcloses : Realm.free.Closes machine.bounds (node.eval depth frame machine) :=
    hhosts.contains.closes_eval trivial hhosts.there depth
  rw [hrun] at hcloses
  cases hcloses with
  | ok _ hvalue _ => exact anchored_of_clear hvalue.clear

/-- In the first frame that the program opens, a name is bound to a function made there. -/
def capturesItself (program : Node) : Bool :=
  let store := ((program.eval 20 rootFrame).leaves .start).store
  decide ((store.binding? 1 (.name "again")).bind Value.frame? = some 1 ∧ 1 < store.frames.size)

/-- A function that is bound in the frame of the call that makes it: the frame holds what refers to
the frame itself, and yet its chain ends at the root. -/
theorem selfCapture_founded : ∃ program program',
    Parses "let make = fn(x) \x7b let again = fn() \x7b again \x7d; again \x7d; let inner = make(1)"
        program ∧ Parses "inner()" program' ∧
      let machine := (program.eval 20 rootFrame).leaves .start
      program'.Runs rootFrame machine ∧
        (machine.store.binding? 1 (.name "again")).bind Value.frame? = some 1 ∧
        (∃ chain, machine.store.Chain 1 chain ∧ chain.getLast? = some rootFrame ∧
          machine.store.LooksUp 1 chain (.name "make")) ∧
        ((program'.eval 20 rootFrame).leaves machine).store.Founded := by
  obtain ⟨program, program', hparses, hparses', hbound⟩ : ∃ program program',
      Parses
          "let make = fn(x) \x7b let again = fn() \x7b again \x7d; again \x7d; let inner = make(1)"
        program ∧ Parses "inner()" program' ∧ capturesItself program = true :=
    exists_parses_two (p := fun program _ => capturesItself program) (by decide +kernel)
      (by decide +kernel) (by decide +kernel)
  obtain ⟨hcaptures, hthere⟩ := of_decide_eq_true hbound
  have hruns : program'.Runs rootFrame ((program.eval 20 rootFrame).leaves .start) :=
    .next (.first hparses) hparses hparses'
  obtain ⟨_, hfounded, hleaves, _⟩ := hruns.frames_founded 20
  obtain ⟨chain, hchain, hlast, hlooksUp⟩ := hfounded.chains 1 hthere
  exact ⟨program, program', hparses, hparses', hruns, hcaptures,
    ⟨chain, hchain, hlast, hlooksUp _⟩, hleaves⟩

end Monkey
