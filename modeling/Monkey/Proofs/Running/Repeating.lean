/-
Calls are repeatable.  A call changes nothing that was there before it, so the same call right after
it runs beside it: it shows the same and gives the same, with frames and identities of its own.
-/
import Monkey.Proofs.Running.Renaming
import Monkey.Proofs.Running.Scopes

namespace Monkey

/-- The machines that programs without parse errors lead to, each of them run in a frame that is
there. -/
inductive Machine.Arises : Machine → Prop where
  | start : Arises .start
  | opens {machine : Machine} (h : Arises machine) :
      Arises ((Action.openFrame none).leaves machine)
  | drains {machine : Machine} (h : Arises machine) : Arises { machine with events := #[] }
  | enters {machine mid : Machine} {node entered : Node} {depth : Nat} {use : Use}
      {frame inside : FrameId} (h : Arises machine) (hnode : node.Parsed)
      (hframe : frame < machine.store.frames.size)
      (hmid : .enters entered inside mid ∈ (node.trace depth use frame machine).1) : Arises mid
  | leaves {machine : Machine} {node : Node} {depth : Nat} {frame : FrameId} (h : Arises machine)
      (hnode : node.Parsed) (hframe : frame < machine.store.frames.size) :
      Arises ((node.eval depth frame).leaves machine)

namespace Realm

variable {realm : Realm} {bounds : Bounds} {machine : Machine}

theorem Closes.leaves {action : Action Value} (h : realm.Closes bounds (action machine)) :
    realm.Contains (action.leaves machine) := by
  unfold Action.leaves
  cases hrun : action machine with
  | ok value after =>
      rw [hrun] at h
      cases h with
      | ok _ _ hafter => exact hafter
  | error fault after =>
      rw [hrun] at h
      cases h with
      | error _ hafter => exact hafter

/-- No machine that arises refers to anything that is not there. -/
theorem contains_of_arises (h : machine.Arises) : free.Contains machine := by
  induction h with
  | start => exact contains_start
  | opens _ ih => exact ih.openFrame nofun
  | drains _ ih => exact ih.drain
  | enters _ _ hframe hmid ih => exact ih.visits trivial hframe hmid
  | leaves _ _ hframe ih => exact (ih.closes_eval trivial hframe _).leaves

/-- A frame of a closed machine has nothing to rename. -/
theorem Contains.rename_frame (h : free.Contains machine) (later : Bounds) {id : FrameId}
    {frame : Frame} (hframe : machine.store.frames[id]? = some frame) :
    frame.rename (.past machine.bounds later) = frame := by
  obtain ⟨hlt, _⟩ := Array.getElem?_eq_some_iff.mp hframe
  have hbindings : ∀ binding ∈ frame.bindings,
      (binding.1, binding.2.rename (.past machine.bounds later)) = binding := by
    intro binding hbinding
    rw [binding.2.rename_past (h.clear frame (Array.mem_of_getElem? hframe) binding hbinding)]
  have houter : frame.outer.map (Renaming.past machine.bounds later).frame = frame.outer := by
    cases houter : frame.outer with
    | none => rfl
    | some outer =>
        have hout : outer < machine.bounds.frames := Nat.lt_trans (h.outer_lt hframe houter) hlt
        rw [Option.map_some, Renaming.frame_past hout]
  rw [Frame.rename, houter, List.map_congr_left hbindings, List.map_id']

/-- After a call stands what was there before, beside itself. -/
theorem Contains.beside_of_call (h : free.Contains machine) {token : Option Token}
    {function value : Value} {arguments : List Value} {after : Machine} {depth : Nat}
    (hle : machine.bounds.Le after.bounds)
    (hcall : applyValue (fun body frame => body.eval depth frame) token function arguments machine =
      .ok value after) :
    Beside machine.bounds after.bounds machine.events after.events machine after where
  clear := h.errorless
  found id := by
    cases hframe : machine.store.frames[id]? with
    | some frame =>
        -- A call is allowed what every frame allows, so also what one allows that is not there yet.
        have hcovers : Effect.scoped.Covers machine.store.frames.size
            (applyValue (fun body frame => body.eval depth frame) token function arguments) :=
          Effect.covers_applyValue (fun body frame => Effect.covers_eval depth body frame) _ _ _
        obtain ⟨frame', hframe', _, hsame⟩ := hcovers machine id frame hframe
        obtain ⟨hlt, _⟩ := Array.getElem?_eq_some_iff.mp hframe
        have hkept : frame' = frame :=
          hsame (Nat.ne_of_lt hlt) (Machine.Clear.fixed h.errorless hframe)
        rw [Action.leaves, hcall, hkept] at hframe'
        rw [Renaming.frame_past hlt, Option.map_some, h.rename_frame _ hframe]
        exact hframe'
    | none =>
        have hframes : machine.store.frames.size ≤ after.store.frames.size := hle.frames
        have hid : machine.store.frames.size ≤ id := Array.getElem?_eq_none_iff.mp hframe
        have hmoved : (Renaming.past machine.bounds after.bounds).frame id =
            id + (after.store.frames.size - machine.store.frames.size) := moveUp_of_le hid
        rw [hmoved, Option.map_none]
        exact Array.getElem?_eq_none (by omega)
  frames := Nat.le_refl _
  size := (Nat.add_sub_cancel' hle.frames).symm
  fresh_le := Nat.le_refl _
  fresh := (Nat.add_sub_cancel' hle.fresh).symm
  events := ⟨#[], Array.append_empty.symm, Array.append_empty.symm⟩

theorem Keeps.unshared {value : Value} (h : free.Keeps bounds value) (later : Bounds) :
    value.Unshared ∧ value = value.rename (.past bounds later) := by
  obtain ⟨hclear, herror⟩ := keeps_iff.mp h
  exact ⟨Or.inl herror, (value.rename_past hclear).symm⟩

end Realm

/-- A call that ends can be made again right after it: that ends, and shows the same.  It gives the
same but for the frames and identities that the calls have made, which go on from where the first
call has left off; and what is in the frames of the one is in those of the other.  An error is the
same altogether.  What is called and the arguments refer to what is there and hold no errors, as
all do that code can come by: a call whose argument is an error is never made. -/
theorem Machine.Arises.call_repeats {machine : Machine} (h : machine.Arises) {function : Value}
    {arguments : List Value} (hfunction : Realm.free.Keeps machine.bounds function)
    (harguments : ∀ argument ∈ arguments, Realm.free.Keeps machine.bounds argument) (depth : Nat)
    (token : Option Token) {value : Value} {after : Machine}
    (hcall : applyValue (fun body frame => body.eval depth frame) token function arguments machine =
      .ok value after) :
    ∃ after', applyValue (fun body frame => body.eval depth frame) token function arguments after =
        .ok (value.rename (.past machine.bounds after.bounds)) after' ∧
      (∃ shown, after.events = machine.events ++ shown ∧ after'.events = after.events ++ shown) ∧
      after.store.Found (.past machine.bounds after.bounds) after'.store ∧
      (value.isError = true → value.rename (.past machine.bounds after.bounds) = value) := by
  have hcontains := Realm.contains_of_arises h
  have hcloses : Realm.free.Closes machine.bounds
      (applyValue (fun body frame => body.eval depth frame) token function arguments machine) :=
    hcontains.closes_applyValue trivial hfunction.1 harguments depth
  rw [hcall] at hcloses
  cases hcloses with
  | ok hle _ _ =>
      have hbeside := hcontains.beside_of_call hle hcall
      let pairing := Pairing.past machine.bounds after.bounds machine.events after.events
      have helements : pairing.Elements () arguments arguments := by
        refine ⟨List.forall₂_same.mpr fun argument hmem => ?_, fun argument hmem => ?_⟩
        · exact (harguments argument hmem).unshared after.bounds
        · exact (harguments argument hmem).2
      have hends : pairing.Ends () pairing.values
          (applyValue (fun body frame => body.eval depth frame) token function arguments machine)
          (applyValue (fun body frame => body.eval depth frame) token function arguments after) :=
        Pairing.ends_applyValue depth rfl (hfunction.unshared after.bounds) helements hbeside
      rw [hcall] at hends
      generalize hagain : applyValue (fun body frame => body.eval depth frame) token function
        arguments after = again at hends
      cases hends with
      | @ok _ _ value' _ after' _ hvalue hafter =>
          obtain ⟨_, rfl⟩ : value.Unshared ∧
              value' = value.rename (.past machine.bounds after.bounds) := hvalue
          refine ⟨after', rfl, hafter.events, hafter.found, fun herror => ?_⟩
          cases value with
          | error => rfl
          | _ => cases herror

/-- The function that a program binds to f writes one line and gives a new array. -/
def makesArray (program : Node) : Bool :=
  let machine := (program.eval 20 rootFrame).leaves .start
  (machine.store.lookup rootFrame (.name "f")).any fun function =>
    match applyValue (fun body frame => body.eval 20 frame) none function [.int 2] machine with
    | .ok (.array identity _) after =>
        decide (function.isError = false ∧ machine.fresh ≤ identity ∧ machine.fresh < after.fresh ∧
          machine.events = #[] ∧ after.events = #[.wrote "2"])
    | _ => false

/-- A call that writes, makes an array and a function that captures its frame gives others of them
when it is made again. -/
theorem captureCall_repeats : ∃ program function value after after',
    let machine := (program.eval 20 rootFrame).leaves .start
    let call := applyValue (fun body frame => body.eval 20 frame) none function [.int 2]
    Parses "let f = fn(m) \x7b puts(m); [m, fn() \x7b m \x7d, f == f] \x7d" program ∧
      machine.Arises ∧ machine.store.lookup rootFrame (.name "f") = some function ∧
      call machine = .ok value after ∧
      call after = .ok (value.rename (.past machine.bounds after.bounds)) after' ∧
      after'.events = #[.wrote "2", .wrote "2"] ∧
      (value.rename (.past machine.bounds after.bounds)).equal value = false := by
  obtain ⟨program, hparses, hmakes⟩ : ∃ program,
      Parses "let f = fn(m) \x7b puts(m); [m, fn() \x7b m \x7d, f == f] \x7d" program ∧
        makesArray program = true :=
    exists_parses (by decide +kernel) (by decide +kernel)
  let machine := (program.eval 20 rootFrame).leaves .start
  have harises : machine.Arises := .leaves .start hparses.parsed Nat.one_pos
  obtain ⟨function, hfound, hmakes⟩ := (Option.any_eq_true _ _).mp hmakes
  split at hmakes
  · next identity elements after hcall =>
      obtain ⟨herror, hidentity, hfresh, hnone, hevents⟩ := of_decide_eq_true hmakes
      have hfunction : Realm.free.Keeps machine.bounds function :=
        ⟨(Realm.contains_of_arises harises).lookup hfound, herror⟩
      have harguments : ∀ argument ∈ [Value.int 2], Realm.free.Keeps machine.bounds argument :=
        List.forall_mem_singleton.mpr ⟨Realm.holds_of_parts rfl trivial, rfl⟩
      obtain ⟨after', hagain, ⟨shown, hfirst, hsecond⟩, _⟩ :=
        harises.call_repeats hfunction harguments 20 none hcall
      have hshown : shown = #[.wrote "2"] := by
        rw [hevents, hnone, Array.empty_append] at hfirst
        exact hfirst.symm
      have hmoved : (Renaming.past machine.bounds after.bounds).identity identity =
          identity + (after.fresh - machine.fresh) := moveUp_of_le hidentity
      have hpos : 0 < after.fresh - machine.fresh := Nat.sub_pos_of_lt hfresh
      have hne : (Renaming.past machine.bounds after.bounds).identity identity ≠ identity := by
        rw [hmoved]
        omega
      refine ⟨program, function, _, after, after', hparses, harises, hfound, hcall, hagain, ?_,
        beq_eq_false_iff_ne.mpr hne⟩
      rw [hsecond, hshown, hevents]
      rfl
  · cases hmakes

end Monkey
