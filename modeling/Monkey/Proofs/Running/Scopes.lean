/-
Scoping.  Code that runs in a frame binds names in that frame and in frames that are opened for
it; no other frame changes, and no frame ever moves.
-/
import Monkey.Proofs.Running.Reachable

namespace Monkey

/-! ### Values without errors -/

mutual

/-- Only errors are ever given a token. -/
theorem Value.locate_of_clear (identity : Nat) (token : Token) :
    ∀ value : Value, value.Clear Value.isError → value.locate identity token = value
  | .array identity' elements, h => by
      rw [Value.locate, locateAll_of_clear identity token elements fun _ => h.element]
  | .hash identity' entries, h => by
      rw [Value.locate, locateEntries_of_clear identity token entries fun _ => h.entry]
  | .returned identity' value, h => by
      rw [Value.locate, value.locate_of_clear identity token h.wrapped]
  | .error .., h => by cases h.self
  | .nil, _ | .int _, _ | .bool _, _ | .string _, _ | .function _ _ _ _, _ | .builtin _, _ => rfl

theorem locateAll_of_clear (identity : Nat) (token : Token) :
    ∀ values : List Value, (∀ value ∈ values, value.Clear Value.isError) →
      locateAll identity token values = values
  | [], _ => rfl
  | value :: rest, h => by
      obtain ⟨hvalue, hrest⟩ := List.forall_mem_cons.mp h
      rw [locateAll, value.locate_of_clear identity token hvalue,
        locateAll_of_clear identity token rest hrest]

theorem locateEntries_of_clear (identity : Nat) (token : Token) :
    ∀ entries : List (Key × Value), (∀ entry ∈ entries, entry.2.Clear Value.isError) →
      locateEntries identity token entries = entries
  | [], _ => rfl
  | (key, value) :: rest, h => by
      obtain ⟨hvalue, hrest⟩ := List.forall_mem_cons.mp h
      rw [locateEntries, value.locate_of_clear identity token hvalue,
        locateEntries_of_clear identity token rest hrest]

end

def Frame.locate (identity : Nat) (token : Token) (frame : Frame) : Frame :=
  { frame with
    bindings := frame.bindings.map fun (label, value) => (label, value.locate identity token) }

theorem Store.frames_locate (store : Store) (identity : Nat) (token : Token) :
    (store.locate identity token).frames = store.frames.map (Frame.locate identity token) :=
  rfl

/-- A frame without errors: giving errors a token leaves it as it is. -/
def Frame.Fixed (frame : Frame) : Prop :=
  ∀ identity token, frame.locate identity token = frame

theorem Machine.Clear.fixed {machine : Machine} (h : machine.Clear Value.isError) {id : FrameId}
    {frame : Frame} (hframe : machine.store.frames[id]? = some frame) : frame.Fixed := by
  intro identity token
  have hbindings : ∀ binding ∈ frame.bindings,
      (binding.1, binding.2.locate identity token) = binding := by
    intro binding hbinding
    have hclear := h frame (Array.mem_of_getElem? hframe) binding hbinding
    rw [Value.locate_of_clear identity token _ hclear]
  exact congrArg (Frame.mk · frame.outer)
    ((List.map_congr_left hbindings).trans (List.map_id' _))

/-! ### Confined runs -/

/-- Frames that were there keep their place and the frame around them, and all but one keep their
bindings; those that hold errors apart, which can receive tokens. -/
def Confined (frame : FrameId) (machine after : Machine) : Prop :=
  ∀ id found, machine.store.frames[id]? = some found →
    ∃ found', after.store.frames[id]? = some found' ∧ found'.outer = found.outer ∧
      (id ≠ frame → found.Fixed → found' = found)

theorem Confined.refl (frame : FrameId) (machine : Machine) : Confined frame machine machine :=
  fun _ found hfound => ⟨found, hfound, rfl, fun _ _ => rfl⟩

theorem Confined.trans {frame : FrameId} {machine mid after : Machine}
    (h : Confined frame machine mid) (h' : Confined frame mid after) :
    Confined frame machine after := by
  intro id found hfound
  obtain ⟨found', hfound', houter, hsame⟩ := h id found hfound
  obtain ⟨found'', hfound'', houter', hsame'⟩ := h' id found' hfound'
  refine ⟨found'', hfound'', houter'.trans houter, fun hne hfixed => ?_⟩
  obtain rfl := hsame hne hfixed
  exact hsame' hne hfixed

/-- Locating an error. -/
theorem confined_locate {frame : FrameId} {machine : Machine} {identity : Nat} {token : Token} :
    Confined frame machine ((Action.locate identity token).leaves machine) := by
  intro id found hfound
  refine ⟨found.locate identity token, ?_, rfl, fun _ hfixed => hfixed identity token⟩
  show (machine.store.locate identity token).frames[id]? = _
  rw [Store.frames_locate, Array.getElem?_map, hfound]
  rfl

theorem confined_bindName {frame : FrameId} {machine : Machine} {name : Label} {value : Value} :
    Confined frame machine ((Action.bindName frame name value).leaves machine) := by
  intro id found hfound
  show ∃ found', (machine.store.set frame name value).frames[id]? = some found' ∧ _
  have houter := machine.store.outer_set frame id name value
  rw [hfound, Option.map_some] at houter
  obtain ⟨found', hfound', hsame⟩ := Option.map_eq_some_iff.mp houter
  refine ⟨found', hfound', hsame, fun hne _ => ?_⟩
  rw [machine.store.getElem?_set_of_ne hne.symm, hfound] at hfound'
  exact (Option.some.inj hfound').symm

/-- What a call does in its own frame leaves the frames before it alone. -/
theorem confined_call {frame : FrameId} {machine after : Machine} {outer : Option FrameId}
    (h : Confined machine.store.frames.size ((Action.openFrame outer).leaves machine) after) :
    Confined frame machine after := by
  intro id found hfound
  obtain ⟨hlt, _⟩ := Array.getElem?_eq_some_iff.mp hfound
  have hopened : ((Action.openFrame outer).leaves machine).store.frames[id]? = some found :=
    (machine.store.getElem?_open_of_lt hlt outer).trans hfound
  obtain ⟨found', hfound', houter, hsame⟩ := h id found hopened
  exact ⟨found', hfound', houter, fun _ => hsame (Nat.ne_of_lt hlt)⟩

/-- Names are bound in the frame that code runs in. -/
def Effect.scoped : Effect where
  allows := Confined
  refl := Confined.refl _ _
  trans := Confined.trans
  newIdentity := Confined.refl _ _
  emit := Confined.refl _ _
  locate := confined_locate
  bindName := confined_bindName
  call := confined_call

/-- Code that runs in a frame changes the bindings of no other frame that was there, and a call
of a function those of no frame at all; no frame gets another frame around it. -/
theorem Machine.Reachable.keeps_frames {machine : Machine} (h : machine.Reachable) :
    (∀ (depth : Nat) (node : Node) (frame id : FrameId) (found : Frame),
      machine.store.frames[id]? = some found →
        ∃ found', ((node.eval depth frame).leaves machine).store.frames[id]? = some found' ∧
          found'.outer = found.outer ∧ (id ≠ frame → found' = found)) ∧
      ∀ (depth : Nat) (token : Option Token) (identity : Nat) (parameters : List Node)
        (body : Node) (outer : FrameId) (arguments : List Value) (id : FrameId) (found : Frame),
        machine.store.frames[id]? = some found →
          ((applyValue (fun node inside => node.eval depth inside) token
            (.function identity parameters body outer) arguments).leaves
              machine).store.frames[id]? = some found := by
  constructor
  · intro depth node frame id found hfound
    have hcovers : Effect.scoped.Covers frame (node.eval depth frame) :=
      Effect.covers_eval depth node frame
    obtain ⟨found', hfound', houter, hsame⟩ := hcovers machine id found hfound
    exact ⟨found', hfound', houter, fun hne => hsame hne (h.clear.fixed hfound)⟩
  · intro depth token identity parameters body outer arguments id found hfound
    -- A call is allowed what every frame allows, so also what one allows that is not there yet.
    have hcovers : Effect.scoped.Covers machine.store.frames.size
        (applyValue (fun node inside => node.eval depth inside) token
          (.function identity parameters body outer) arguments) :=
      Effect.covers_applyValue (fun node inside => Effect.covers_eval depth node inside) _ _ _
    obtain ⟨found', hfound', _, hsame⟩ := hcovers machine id found hfound
    obtain ⟨hlt, _⟩ := Array.getElem?_eq_some_iff.mp hfound
    rw [hfound', hsame (Nat.ne_of_lt hlt) (h.clear.fixed hfound)]

/-- The frame of a call stays as it is when its name is bound in the root frame, and when it is
bound in a function that was made in the call. -/
theorem callFrame_kept : ∃ (program : Node) (found : Frame),
    let machine := (program.eval 20 rootFrame).leaves .start
    let rebind := Node.letStmt none (.ident none "x") (.int none 5)
    Parses "let make = fn(x) { fn() { x } }; let inner = make(1)" program ∧
      machine.store.frames[1]? = some found ∧
      ((rebind.eval 20 rootFrame).leaves machine).store.frames[1]? = some found ∧
      ((applyValue (fun node inside => node.eval 20 inside) none
        (.function 0 [] rebind 1) []).leaves machine).store.frames[1]? = some found := by
  obtain ⟨program, hparses, hframe⟩ : ∃ program,
      Parses "let make = fn(x) { fn() { x } }; let inner = make(1)" program ∧
        (((program.eval 20 rootFrame).leaves .start).store.frames[1]?).isSome = true :=
    exists_parses (by decide +kernel) (by decide +kernel)
  obtain ⟨found, hfound⟩ := Option.isSome_iff_exists.mp hframe
  have hreachable : ((program.eval 20 rootFrame).leaves .start).Reachable :=
    .leaves .start hparses.parsed
  obtain ⟨heval, happly⟩ := hreachable.keeps_frames
  obtain ⟨found', hfound', _, hsame⟩ :=
    heval 20 (.letStmt none (.ident none "x") (.int none 5)) rootFrame 1 found hfound
  refine ⟨program, found, hparses, hfound, ?_, ?_⟩
  · rw [hfound', hsame (by decide)]
  · exact happly 20 none 0 [] _ 1 [] 1 found hfound

end Monkey
