/-
Runs of trees that differ in tokens only.  They give the same values, leave the same bindings and
show the same, as long as what is shown of functions does not differ: an integer literal inside of a
function literal is shown as it was written.
-/
import Monkey.Proofs.Rendering.Ink
import Monkey.Proofs.Running.Renaming

namespace Monkey

/-! ### Twins -/

/-- The trees are the same, and the integer literals inside of their function literals are written
alike. -/
structure Node.Twin (node node' : Node) : Prop where
  bare : node.bare = node'.bare
  numerals : node.functionNumerals = node'.functionNumerals
  worded : node.Everywhere Node.Worded
  worded' : node'.Everywhere Node.Worded

/-- The functions have the same names and the same body, and are shown alike. -/
structure TwinFunctions (names : List Node) (body : Node) (names' : List Node) (body' : Node) :
    Prop where
  sameNames : bareAll names = bareAll names'
  namesText : renderList names = renderList names'
  sameBody : body.Twin body'
  bodyText : body.render = body'.render

mutual

/-- The values are the same, apart from tokens in errors and in the bodies of functions.  Nothing
holds an error. -/
def Value.Twin : Value → Value → Prop
  | .nil, .nil => True
  | .int value, .int value' => value = value'
  | .bool value, .bool value' => value = value'
  | .string value, .string value' => value = value'
  | .array identity elements, .array identity' elements' =>
      identity = identity' ∧ twinAll elements elements'
  | .hash identity entries, .hash identity' entries' =>
      identity = identity' ∧ twinEntries entries entries'
  | .function identity names body frame, .function identity' names' body' frame' =>
      identity = identity' ∧ TwinFunctions names body names' body' ∧ frame = frame'
  | .builtin builtin, .builtin builtin' => builtin = builtin'
  | .returned identity value, .returned identity' value' =>
      identity = identity' ∧ value.isError = false ∧ value.Twin value'
  | .error message _ identity, .error message' _ identity' =>
      message = message' ∧ identity = none ∧ identity' = none
  | _, _ => False

def twinAll : List Value → List Value → Prop
  | [], [] => True
  | value :: rest, value' :: rest' =>
      (value.isError = false ∧ value.Twin value') ∧ twinAll rest rest'
  | _, _ => False

def twinEntries : List (Key × Value) → List (Key × Value) → Prop
  | [], [] => True
  | (key, value) :: rest, (key', value') :: rest' =>
      (key = key' ∧ value.isError = false ∧ value.Twin value') ∧ twinEntries rest rest'
  | _, _ => False

end

theorem twinAll_iff {values values' : List Value} : twinAll values values' ↔
    (∀ value ∈ values, value.isError = false) ∧ List.Forall₂ Value.Twin values values' := by
  rw [← List.forall₂_and_left]
  induction values generalizing values' with
  | nil => cases values' <;> simp [twinAll]
  | cons value rest ih => cases values' <;> simp [twinAll, ih]

theorem twinEntries_iff {entries entries' : List (Key × Value)} : twinEntries entries entries' ↔
    (∀ entry ∈ entries, entry.2.isError = false) ∧
      List.Forall₂ (fun entry entry' => entry.1 = entry'.1 ∧ entry.2.Twin entry'.2)
        entries entries' := by
  rw [← List.forall₂_and_left]
  induction entries generalizing entries' with
  | nil => cases entries' <;> simp [twinEntries]
  | cons entry rest ih => cases entries' <;> simp [twinEntries, ih, and_left_comm]

theorem twin_iff_matches {value value' : Value} : value.Twin value' ↔
    value.Matches (fun _ _ => True) TwinFunctions Eq Eq Value.Twin value' := by
  constructor
  · intro h
    cases value <;> cases value' <;> first | exact False.elim h | skip
    case nil.nil => exact .nil
    case int.int => exact h ▸ .int _
    case bool.bool => exact h ▸ .bool _
    case string.string => exact h ▸ .string _
    case builtin.builtin => exact h ▸ .builtin _
    case array.array =>
        obtain ⟨hidentity, helements⟩ := h
        obtain ⟨herrors, helements⟩ := twinAll_iff.mp helements
        exact .array hidentity helements herrors
    case hash.hash =>
        obtain ⟨hidentity, hentries⟩ := h
        obtain ⟨herrors, hentries⟩ := twinEntries_iff.mp hentries
        exact .hash hidentity hentries herrors
    case function.function => exact .function h.1 h.2.1 h.2.2
    case returned.returned => exact .returned h.1 h.2.2 h.2.1
    case error.error =>
        obtain ⟨rfl, rfl, rfl⟩ := h
        exact .error _ trivial
  · intro h
    cases h with
    | nil => trivial
    | int | bool | string | builtin => rfl
    | array hidentity helements herrors => exact ⟨hidentity, twinAll_iff.mpr ⟨herrors, helements⟩⟩
    | hash hidentity hentries herrors =>
        exact ⟨hidentity, twinEntries_iff.mpr ⟨herrors, hentries⟩⟩
    | function hidentity hfunction hframe => exact ⟨hidentity, hfunction, hframe⟩
    | returned hidentity hvalue herror => exact ⟨hidentity, herror, hvalue⟩
    | error => exact ⟨rfl, rfl, rfl⟩

theorem displayList_congr {values values' : List Value}
    (h : List.Forall₂ (fun value value' => value.display = value'.display) values values') :
    displayList values = displayList values' := by
  induction h with
  | nil => rfl
  | cons hfirst hrest ih =>
      cases hrest with
      | nil => exact hfirst
      | cons => exact congrArg₂ (fun first rest => first ++ ", " ++ rest) hfirst ih

theorem displayEntries_congr {entries entries' : List (Key × Value)}
    (h : List.Forall₂ (fun entry entry' => entry.1 = entry'.1 ∧
      entry.2.display = entry'.2.display) entries entries') :
    displayEntries entries = displayEntries entries' := by
  induction h with
  | nil => rfl
  | @cons entry entry' _ _ hfirst hrest ih =>
      have heq : entry.1.display ++ ": " ++ entry.2.display =
          entry'.1.display ++ ": " ++ entry'.2.display := by rw [hfirst.1, hfirst.2]
      cases hrest with
      | nil => exact heq
      | cons => exact congrArg₂ (fun first rest => first ++ ", " ++ rest) heq ih

/-- Twins are shown alike, by induction on how much a value holds. -/
theorem Value.Twin.display {value value' : Value} (h : value.Twin value') :
    value.display = value'.display := by
  induction hsize : sizeOf value using Nat.strongRecOn generalizing value value' with
  | _ size ih =>
  cases twin_iff_matches.mp h with
  | nil | int | bool | string | builtin | error => rfl
  | @array _ _ elements _ _ helements _ =>
      rw [Value.display, Value.display]
      refine congrArg ("[" ++ · ++ "]") (displayList_congr ((forall₂_mem helements).imp ?_))
      intro element element' ⟨hmem, _, htwin⟩
      have hlt := List.sizeOf_lt_of_mem hmem
      exact ih (sizeOf element) (by simp only [← hsize, Value.array.sizeOf_spec]; omega) htwin rfl
  | @hash _ _ entries _ _ hentries _ =>
      rw [Value.display, Value.display]
      refine congrArg ("\x7b" ++ · ++ "\x7d") (displayEntries_congr ((forall₂_mem hentries).imp ?_))
      intro ⟨key, element⟩ entry' ⟨hmem, _, hkey, htwin⟩
      have hlt := List.sizeOf_lt_of_mem hmem
      refine ⟨hkey, ih (sizeOf element) ?_ htwin rfl⟩
      simp only [← hsize, Value.hash.sizeOf_spec, Prod.mk.sizeOf_spec] at hlt ⊢
      omega
  | function _ hfunction _ =>
      rw [Value.display, Value.display, hfunction.namesText, hfunction.bodyText]
  | @returned _ _ inner _ _ hinner _ =>
      rw [Value.display, Value.display]
      exact ih (sizeOf inner) (by simp only [← hsize, Value.returned.sizeOf_spec]; omega) hinner rfl

/-! ### Machines -/

/-- What is seen of an event, without the place in the text that it is about. -/
def Event.bare : Event → Event
  | .wrote line => .wrote line
  | .warned message _ => .warned message none

/-- The same labels, bound to twins. -/
abbrev TwinBindings : List (Label × Value) → List (Label × Value) → Prop :=
  List.Forall₂ fun binding binding' => binding.1 = binding'.1 ∧ binding.2.Twin binding'.2

structure Frame.Twin (frame frame' : Frame) : Prop where
  bindings : TwinBindings frame.bindings frame'.bindings
  outer : frame.outer = frame'.outer

/-- The same frames, with twins bound in them. -/
def Store.Twin (store store' : Store) : Prop :=
  ∀ id : FrameId, Option.Rel Frame.Twin store.frames[id]? store'.frames[id]?

/-- The same has been bound, made and seen. -/
structure Machine.Twin (machine machine' : Machine) : Prop where
  store : machine.store.Twin machine'.store
  fresh : machine.fresh = machine'.fresh
  events : machine.events.map Event.bare = machine'.events.map Event.bare

section

variable {store store' : Store} {bindings bindings' : List (Label × Value)}

theorem setBinding_twin (name : Label) {value value' : Value} (hvalue : value.Twin value')
    (h : TwinBindings bindings bindings') :
    TwinBindings (setBinding name value bindings) (setBinding name value' bindings') := by
  induction h with
  | nil => exact .cons ⟨rfl, hvalue⟩ .nil
  | @cons binding binding' _ _ hfirst hrest ih =>
      obtain ⟨name₀, value₀⟩ := binding
      obtain ⟨name₀', value₀'⟩ := binding'
      obtain ⟨rfl, hvalue₀⟩ : name₀ = name₀' ∧ value₀.Twin value₀' := hfirst
      rw [setBinding, setBinding]
      split
      · exact .cons ⟨rfl, hvalue⟩ hrest
      · exact .cons ⟨rfl, hvalue₀⟩ ih

theorem lookup_bindings_twin (name : Label) (h : TwinBindings bindings bindings') :
    Option.Rel Value.Twin (bindings.lookup name) (bindings'.lookup name) := by
  induction h with
  | nil => exact .none
  | @cons binding binding' _ _ hfirst _ ih =>
      obtain ⟨name₀, value₀⟩ := binding
      obtain ⟨name₀', value₀'⟩ := binding'
      obtain ⟨rfl, hvalue₀⟩ : name₀ = name₀' ∧ value₀.Twin value₀' := hfirst
      rw [List.lookup_cons, List.lookup_cons]
      cases name == name₀ with
      | true => exact .some hvalue₀
      | false => exact ih

/-- Names are found alike, by induction on how old the frame is. -/
theorem Store.Twin.lookup (h : store.Twin store') (id : FrameId) (name : Label) :
    Option.Rel Value.Twin (store.lookup id name) (store'.lookup id name) := by
  induction id using Nat.strongRecOn with
  | _ id ih =>
  rw [store.lookup_eq, store'.lookup_eq]
  have hid := h id
  generalize store.frames[id]? = found, store'.frames[id]? = found' at hid ⊢
  cases hid with
  | none => exact .none
  | @some frame frame' hframe =>
      have hbound := lookup_bindings_twin name hframe.bindings
      simp only [Option.bind_some, ← hframe.outer]
      generalize frame.bindings.lookup name = bound, frame'.bindings.lookup name = bound'
        at hbound ⊢
      cases hbound with
      | some hvalue => exact .some hvalue
      | none =>
          simp only
          cases frame.outer with
          | none => exact .none
          | some outer =>
              simp only
              split
              · exact ih outer ‹_›
              · exact .none

theorem Store.Twin.size_eq (h : store.Twin store') : store.frames.size = store'.frames.size := by
  refine eq_of_forall_ge_iff fun id => ?_
  rw [← Array.getElem?_eq_none_iff, ← Array.getElem?_eq_none_iff]
  have hid := h id
  generalize store.frames[id]? = found, store'.frames[id]? = found' at hid ⊢
  cases hid <;> simp

theorem Store.Twin.set (h : store.Twin store') (frame : FrameId) (name : Label)
    {value value' : Value} (hvalue : value.Twin value') :
    (store.set frame name value).Twin (store'.set frame name value') := by
  intro id
  simp only [Store.set, Array.getElem?_modify]
  by_cases hid : frame = id
  · rw [if_pos hid, if_pos hid]
    have hfound := h id
    generalize store.frames[id]? = found, store'.frames[id]? = found' at hfound ⊢
    cases hfound with
    | none => exact .none
    | some hframe => exact .some ⟨setBinding_twin name hvalue hframe.bindings, hframe.outer⟩
  · rw [if_neg hid, if_neg hid]
    exact h id

theorem Store.Twin.open (h : store.Twin store') (outer : Option FrameId) :
    (store.open outer).2.Twin (store'.open outer).2 := by
  intro id
  simp only [Store.open, Array.getElem?_push, h.size_eq]
  by_cases hid : id = store'.frames.size
  · rw [if_pos hid, if_pos hid]
    exact .some ⟨.nil, rfl⟩
  · rw [if_neg hid, if_neg hid]
    exact h id

end

/-! ### Trees -/

namespace Node.Twin

variable {node node' : Node}

theorem children (h : node.Twin node') :
    List.Forall₂ Node.Twin node.children node'.children := by
  have hworded := (Node.everywhere_iff.mp h.worded).2
  have hworded' := (Node.everywhere_iff.mp h.worded').2
  have hchildren := (gather_inj length_shownNumerals h.bare h.numerals).2
  refine (forall₂_mem hchildren).imp fun child child' ⟨hmem, hmem', hbare, hnumerals⟩ => ?_
  exact ⟨hbare, hnumerals, hworded child hmem, hworded' child' hmem'⟩

/-- Function literals that are twins make functions that are. -/
theorem functions {token token' : Option Token} {names names' : List Node} {body body' : Node}
    (h : (Node.function token names body).Twin (.function token' names' body')) :
    TwinFunctions names body names' body' := by
  have hworded := (Node.everywhere_iff.mp h.worded).2
  have hworded' := (Node.everywhere_iff.mp h.worded').2
  have hshown := (gather_inj length_shownNumerals h.bare h.numerals).1
  have hrender : List.Forall₂ (fun child child' => child.render = child'.render) (names ++ [body])
      (names' ++ [body']) := by
    refine (forall₂_mem (gather_inj length_numeral h.bare hshown).2).imp ?_
    exact fun child child' ⟨hmem, hmem', hbare, hnumerals⟩ =>
      render_eq hbare (hworded child hmem) (hworded' child' hmem') hnumerals
  obtain ⟨-, hbody⟩ := forall₂_of_concat h.children
  obtain ⟨hnamesText, hbodyText⟩ := forall₂_of_concat hrender
  exact ⟨(Node.function.inj h.bare).2.1, renderList_congr hnamesText, hbody, hbodyText⟩

theorem form (h : node.Twin node') :
    node.Matches (fun _ _ => True) (fun _ _ => True) Node.Twin node' := by
  have hbare := h.bare
  have hchildren := h.children
  cases node <;> cases node' <;> try cases hbare
  case missing.missing => exact .missing
  case text.text => exact .text _
  case flag.flag => exact .flag _
  case ident.ident => exact .ident _ trivial
  case int.int => exact .int _
  case string.string => exact .string _
  case bool.bool => exact .bool _
  case program.program => exact .program hchildren
  case block.block => exact .block hchildren
  case array.array => exact .array hchildren
  case exprStmt.exprStmt => exact .exprStmt (List.forall₂_cons.mp hchildren).1
  case returnStmt.returnStmt => exact .returnStmt (List.forall₂_cons.mp hchildren).1
  case letStmt.letStmt =>
      simp only [Node.children, List.forall₂_cons] at hchildren
      exact .letStmt (label_eq_of_bare hchildren.1.bare) trivial hchildren.2.1
  case prefixOp.prefixOp =>
      obtain ⟨-, rfl, -⟩ := Node.prefixOp.inj hbare
      exact .prefixOp _ trivial (List.forall₂_cons.mp hchildren).1
  case infixOp.infixOp =>
      obtain ⟨-, -, rfl, -⟩ := Node.infixOp.inj hbare
      simp only [Node.children, List.forall₂_cons] at hchildren
      exact .infixOp _ trivial hchildren.1 hchildren.2.1
  case ifElse.ifElse =>
      simp only [Node.children, List.forall₂_cons] at hchildren
      exact .ifElse hchildren.1 hchildren.2.1 hchildren.2.2.1
  case function.function => exact .function trivial (forall₂_of_concat hchildren).2
  case call.call =>
      obtain ⟨hcallee, harguments⟩ := List.forall₂_cons.mp hchildren
      exact .call trivial hcallee harguments
  case index.index =>
      simp only [Node.children, List.forall₂_cons] at hchildren
      exact .index trivial hchildren.1 hchildren.2.1
  case hash.hash =>
      exact .hash ((forall₂_of_flatMap hchildren).imp fun _ _ hpair => ⟨trivial, hpair⟩)

end Node.Twin

/-- Two runs of twins. -/
def Pairing.twins : Pairing where
  World := Unit
  Grows _ _ := True
  tokens _ _ := True
  parameters _ _ := True
  nodes := Node.Twin
  functions := TwinFunctions
  frames _ := Eq
  identities _ := Eq
  values _ := Value.Twin
  machines _ := Machine.Twin
  refl _ := trivial
  trans _ _ := trivial
  frames_grow _ h := h
  values_grow _ h := h
  labels h := labels_eq_of_bare h.sameNames
  bodies h := h.sameBody
  literals := Node.Twin.functions
  nodes_match := Node.Twin.form
  values_match := twin_iff_matches
  identities_eq_iff h h' := by rw [h, h']
  display := Value.Twin.display
  newIdentity h := ⟨(), trivial, h.fresh, h.store, congrArg (· + 1) h.fresh, h.events⟩
  openFrame {_ _ _ outer _} h houter := by
    subst houter
    exact ⟨(), trivial, h.store.size_eq, h.store.open (some outer), h.fresh, h.events⟩
  bindName {_ _ _ frame _ name _ _} h hframe hvalue _ := by
    subst hframe
    exact ⟨h.store.set frame name hvalue, h.fresh, h.events⟩
  lookup {_ _ _ frame _ name} h hframe _ := by
    subst hframe
    exact h.store.lookup frame (.name name)
  emit {_ machine machine' event event'} h hevent := by
    refine ⟨h.store, h.fresh, ?_⟩
    have heq : event.bare = event'.bare := by cases hevent <;> rfl
    show (machine.events.push event).map Event.bare = (machine'.events.push event').map Event.bare
    rw [Array.map_push, Array.map_push, h.events, heq]

/-! ### Runs -/

/-- The values that are bound in a frame, as they are shown. -/
def Frame.shown (frame : Frame) : List (Label × String) :=
  frame.bindings.map fun (label, value) => (label, value.display)

/-- The values that are bound in each frame, as they are shown. -/
def Machine.shown (machine : Machine) : List (List (Label × String)) :=
  machine.store.frames.toList.map Frame.shown

/-- Both runs give twins or are stopped by the same fault.  The machines that are left are twins,
and all values are shown alike. -/
def TwinRuns : EStateM.Result Fault Machine Value → EStateM.Result Fault Machine Value → Prop
  | .ok value machine, .ok value' machine' =>
      (value.Twin value' ∧ value.display = value'.display) ∧
        machine.Twin machine' ∧ machine.shown = machine'.shown
  | .error fault machine, .error fault' machine' =>
      fault = fault' ∧ machine.Twin machine' ∧ machine.shown = machine'.shown
  | _, _ => False

theorem Frame.Twin.shown {frame frame' : Frame} (h : frame.Twin frame') :
    frame.shown = frame'.shown := by
  rw [Frame.shown, Frame.shown, ← List.forall₂_eq_eq_eq, List.forall₂_map_left_iff,
    List.forall₂_map_right_iff]
  exact h.bindings.imp fun _ _ hbinding => Prod.ext hbinding.1 hbinding.2.display

theorem Machine.Twin.shown {machine machine' : Machine} (h : machine.Twin machine') :
    machine.shown = machine'.shown := by
  refine List.ext_getElem? fun id => ?_
  rw [Machine.shown, Machine.shown, List.getElem?_map, List.getElem?_map, Array.getElem?_toList,
    Array.getElem?_toList]
  have hid := h.store id
  generalize machine.store.frames[id]? = found, machine'.store.frames[id]? = found' at hid ⊢
  cases hid with
  | none => rfl
  | some hframe => exact congrArg some hframe.shown

theorem twin_start : Machine.start.Twin Machine.start where
  store := Store.Twin.open (fun _ => .none) none
  fresh := rfl
  events := rfl

/-- On machines that are twins, trees that are twins run alike. -/
theorem Node.Twin.eval {node node' : Node} (h : node.Twin node') {machine machine' : Machine}
    (hmachine : machine.Twin machine') (depth : Nat) (frame : FrameId) :
    TwinRuns (node.eval depth frame machine) (node'.eval depth frame machine') := by
  have halike : Pairing.twins.Alike () Pairing.twins.values (node.trace depth .passed frame)
      (node'.trace depth .passed frame) := Pairing.alike_trace depth .passed h rfl
  have hends := (halike () trivial machine machine' hmachine).ends
  rw [Node.trace_result, Node.trace_result] at hends
  generalize node.eval depth frame machine = result at hends ⊢
  generalize node'.eval depth frame machine' = result' at hends ⊢
  cases hends with
  | ok _ hvalue hafter =>
      have hvalue : Value.Twin _ _ := hvalue
      have hafter : Machine.Twin _ _ := hafter
      exact ⟨⟨hvalue, hvalue.display⟩, hafter, hafter.shown⟩
  | error _ hafter =>
      have hafter : Machine.Twin _ _ := hafter
      exact ⟨rfl, hafter, hafter.shown⟩

section

variable {source source' : String} {program program' : Node}

theorem Parses.twin (h : Parses source program) (h' : Parses source' program')
    (hsame : program.same program' = true)
    (hnumerals : program.functionNumerals = program'.functionNumerals) : program.Twin program' :=
  ⟨(Node.same_iff_bare _ _).mp hsame, hnumerals, h.worded, h'.worded⟩

/-- Programs that differ in tokens only run alike from the start, nested no deeper than any limit,
if the integer literals inside of their function literals are written alike: they give the same
value or are stopped by the same fault, write and warn the same, and bind the same. -/
theorem Parses.run_alike (h : Parses source program) (h' : Parses source' program')
    (hsame : program.same program' = true)
    (hnumerals : program.functionNumerals = program'.functionNumerals) (depth : Nat) :
    TwinRuns (program.eval depth rootFrame .start) (program'.eval depth rootFrame .start) :=
  (h.twin h' hsame hnumerals).eval twin_start depth rootFrame

end

/-- Line breaks, groups, and zeros of an integer literal outside of functions. -/
theorem run_alike_grouped : ∃ program program',
    Parses "let f = fn(x) { puts(x + 07) }; f([007]); f(02); f" program ∧
    Parses "let f = (fn(x) \x7b\n puts((x + 07)) \x7d)\nf([7])\nf((2)) f" program' ∧
    program.same program' = true ∧ program.functionNumerals = program'.functionNumerals ∧
    TwinRuns (program.eval depthLimit rootFrame .start)
      (program'.eval depthLimit rootFrame .start) := by
  obtain ⟨program, program', hparses, hparses', hboth⟩ : ∃ program program',
      Parses "let f = fn(x) { puts(x + 07) }; f([007]); f(02); f" program ∧
      Parses "let f = (fn(x) \x7b\n puts((x + 07)) \x7d)\nf([7])\nf((2)) f" program' ∧
      (program.same program' && program.functionNumerals == program'.functionNumerals) = true :=
    exists_parses_two (by decide +kernel) (by decide +kernel) (by decide +kernel)
  obtain ⟨hsame, hnumerals⟩ := Bool.and_eq_true_iff.mp hboth
  have hnumerals := eq_of_beq hnumerals
  exact ⟨program, program', hparses, hparses', hsame, hnumerals,
    hparses.run_alike hparses' hsame hnumerals depthLimit⟩

/-- How the value is shown that a run gives. -/
def givenText : EStateM.Result Fault Machine Value → Option String
  | .ok value _ => some value.display
  | .error _ _ => none

/-- A function shows its integer literals as they were written, and so programs that are the same
can give different strings. -/
theorem run_differs_in_zeros : ∃ program program',
    Parses "toStr(fn() { 7 })" program ∧ Parses "toStr(fn() { 007 })" program' ∧
    program.same program' = true ∧
    givenText (program.eval depthLimit rootFrame .start) = some "fn() \x7b\n7\n\x7d" ∧
    givenText (program'.eval depthLimit rootFrame .start) = some "fn() \x7b\n007\n\x7d" := by
  obtain ⟨program, program', hparses, hparses', hboth⟩ : ∃ program program',
      Parses "toStr(fn() { 7 })" program ∧ Parses "toStr(fn() { 007 })" program' ∧
      (program.same program' &&
        (givenText (program.eval depthLimit rootFrame .start) == some "fn() \x7b\n7\n\x7d" &&
          givenText (program'.eval depthLimit rootFrame .start) ==
            some "fn() \x7b\n007\n\x7d")) = true :=
    exists_parses_two (by decide +kernel) (by decide +kernel) (by decide +kernel)
  obtain ⟨hsame, hgiven⟩ := Bool.and_eq_true_iff.mp hboth
  obtain ⟨hgiven, hgiven'⟩ := Bool.and_eq_true_iff.mp hgiven
  exact ⟨program, program', hparses, hparses', hsame, eq_of_beq hgiven, eq_of_beq hgiven'⟩

end Monkey
