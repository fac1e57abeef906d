/-
Actions on a machine without values of some kind leave a machine without them, and values made
by built-in functions hold nothing that was not in the arguments.
-/
import Monkey.Proofs.Running.Clear

namespace Monkey

section

variable {α β : Type} {bad : Value → Bool}

/-- How a run ends. -/
def Ends (bad : Value → Bool) (good : α → Prop) : EStateM.Result Fault Machine α → Prop
  | .ok value after => good value ∧ after.Clear bad
  | .error _ after => after.Clear bad

theorem Ends.mono {good good' : α → Prop} {result : EStateM.Result Fault Machine α}
    (h : Ends bad good result) (hgood : ∀ value, good value → good' value) :
    Ends bad good' result := by
  cases result with
  | ok value after => exact ⟨hgood value h.1, h.2⟩
  | error fault after => exact h

/-- On a clear machine the action gives something good and leaves a clear machine. -/
def Preserves (bad : Value → Bool) (good : α → Prop) (action : Action α) : Prop :=
  ∀ machine : Machine, machine.Clear bad → Ends bad good (action machine)

theorem preserves_pure {good : α → Prop} {value : α} (h : good value) :
    Preserves bad good (pure value) :=
  fun _ hclear => ⟨h, hclear⟩

theorem preserves_throw {good : α → Prop} (fault : Fault) :
    Preserves bad good (throw fault : Action α) :=
  fun _ hclear => hclear

theorem Preserves.bind {good : α → Prop} {good' : β → Prop} {action : Action α}
    {go : α → Action β} (h : Preserves bad good action)
    (hgo : ∀ value, good value → Preserves bad good' (go value)) :
    Preserves bad good' (action >>= go) := by
  intro machine hclear
  have hends := h machine hclear
  simp only [Bind.bind, EStateM.bind]
  split
  · next value after heq =>
      rw [heq] at hends
      exact hgo value hends.1 after hends.2
  · next fault after heq =>
      rw [heq] at hends
      exact hends

theorem preserves_ofExcept (result : Except Fault α) :
    Preserves bad (fun _ => True) (Action.ofExcept result) := by
  cases result with
  | ok value => exact preserves_pure trivial
  | error fault => exact preserves_throw fault

theorem preserves_newIdentity : Preserves bad (fun _ => True) Action.newIdentity :=
  fun _ hclear => ⟨trivial, hclear⟩

theorem preserves_emit (event : Event) : Preserves bad (fun _ => True) (Action.emit event) :=
  fun _ hclear => ⟨trivial, hclear⟩

theorem preserves_openFrame (outer : Option FrameId) :
    Preserves bad (fun _ => True) (Action.openFrame outer) :=
  fun _ hclear => ⟨trivial, Store.Clear.open hclear outer⟩

theorem preserves_bindName (frame : FrameId) (name : Label) {value : Value}
    (h : value.Clear bad) : Preserves bad (fun _ => True) (Action.bindName frame name value) :=
  fun _ hclear => ⟨trivial, Store.Clear.set hclear h⟩

theorem preserves_lookup (frame : FrameId) (name : Label) :
    Preserves bad (fun found => ∀ value ∈ found, value.Clear bad) (Action.lookup frame name) :=
  fun _ hclear => ⟨fun _ hvalue => Store.Clear.lookup hclear hvalue, hclear⟩

theorem preserves_newArray (hkind : Shallow bad) {elements : List Value}
    (h : ∀ value ∈ elements, value.Clear bad) :
    Preserves bad (Value.Clear bad) (Action.newArray elements) :=
  preserves_newIdentity.bind fun _ _ => preserves_pure (hkind.clear_array h)

/-! ### Built-in functions -/

theorem arrayArgument_clear {builtin : Builtin} {arguments elements : List Value}
    (harguments : ∀ value ∈ arguments, value.Clear bad)
    (h : arrayArgument builtin arguments = .ok elements) :
    ∀ value ∈ elements, value.Clear bad := by
  unfold arrayArgument at h
  split at h <;> cases h
  exact fun value hvalue => (harguments _ List.mem_cons_self).element hvalue

/-- What a built-in function gives, if it does not refuse, is clear. -/
def Granted (bad : Value → Bool) (result : Except Problem Value) : Prop :=
  ∀ value, result = .ok value → value.Clear bad

theorem preserves_granted {value : Value} (h : value.Clear bad) :
    Preserves bad (Granted bad) (pure (.ok value)) := by
  apply preserves_pure
  rintro _ ⟨⟩
  exact h

theorem preserves_refused (problem : Problem) :
    Preserves bad (Granted bad) (pure (.error problem)) := by
  apply preserves_pure
  intro value hvalue
  cases hvalue

theorem preserves_grantedArray (hkind : Shallow bad) {elements : List Value}
    (h : ∀ value ∈ elements, value.Clear bad) :
    Preserves bad (Granted bad) (do return .ok (← Action.newArray elements)) :=
  (preserves_newArray hkind h).bind fun _ harray => preserves_granted harray

/-- An element of an array argument is picked. -/
theorem preserves_picked (hkind : Shallow bad) {builtin : Builtin} {arguments : List Value}
    {pick : List Value → Option Value}
    (hpick : ∀ elements, ∀ value ∈ pick elements, value ∈ elements)
    (h : ∀ value ∈ arguments, value.Clear bad) :
    Preserves bad (Granted bad)
      (pure ((arrayArgument builtin arguments).map fun elements => (pick elements).getD .nil)) := by
  cases hargument : arrayArgument builtin arguments with
  | error problem => exact preserves_refused problem
  | ok elements =>
      apply preserves_granted
      apply clear_getD hkind
      intro value hvalue
      exact arrayArgument_clear h hargument value (hpick elements value hvalue)

theorem preserves_rest (hkind : Shallow bad) {arguments : List Value}
    (h : ∀ value ∈ arguments, value.Clear bad) :
    Preserves bad (Granted bad) (Builtin.rest.run arguments) := by
  simp only [Builtin.run]
  cases hargument : arrayArgument .rest arguments with
  | error problem => exact preserves_refused problem
  | ok elements =>
      by_cases hempty : elements.isEmpty = true
      · simp only [if_pos hempty]
        exact preserves_granted (hkind.clear rfl rfl)
      · simp only [if_neg hempty]
        apply preserves_grantedArray hkind
        intro value hvalue
        exact arrayArgument_clear h hargument value (List.mem_of_mem_tail hvalue)

theorem preserves_push (hkind : Shallow bad) {arguments : List Value}
    (h : ∀ value ∈ arguments, value.Clear bad) :
    Preserves bad (Granted bad) (Builtin.push.run arguments) := by
  simp only [Builtin.run]
  split
  · next identity elements element =>
      apply preserves_grantedArray hkind
      intro value hvalue
      rcases List.mem_append.mp hvalue with hvalue | hvalue
      · exact (h _ List.mem_cons_self).element hvalue
      · exact h value (by simp [List.mem_singleton.mp hvalue])
  · exact preserves_refused _
  · exact preserves_refused _

/-- The number of characters of a string, or of elements of an array. -/
def Value.size : Value → Nat
  | .string text => text.length
  | .array _ elements => elements.length
  | _ => 0

/-- A built-in function gives nothing but what it makes or finds in its arguments; it makes no
integers but their sizes. -/
theorem preserves_run_of_sizes (hkind : Shallow bad) (builtin : Builtin) {arguments : List Value}
    (hsizes : ∀ value ∈ arguments, bad (.int value.size) = false)
    (h : ∀ value ∈ arguments, value.Clear bad) :
    Preserves bad (Granted bad) (builtin.run arguments) := by
  cases builtin with
  | puts =>
      apply (preserves_emit _).bind
      intro _ _
      exact preserves_granted (hkind.clear rfl rfl)
  | toStr =>
      simp only [Builtin.run]
      split
      · exact preserves_granted (hkind.clear rfl rfl)
      · exact preserves_refused _
  | len =>
      simp only [Builtin.run]
      split
      · exact preserves_granted (clear_of_parts rfl (hsizes _ List.mem_cons_self))
      · exact preserves_granted (clear_of_parts rfl (hsizes _ List.mem_cons_self))
      · exact preserves_refused _
      · exact preserves_refused _
  | first => exact preserves_picked hkind (fun _ _ hvalue => List.mem_of_mem_head? hvalue) h
  | last => exact preserves_picked hkind (fun _ _ hvalue => List.mem_of_getLast? hvalue) h
  | rest => exact preserves_rest hkind h
  | push => exact preserves_push hkind h

theorem preserves_run (hkind : Foreign bad) (builtin : Builtin) {arguments : List Value}
    (h : ∀ value ∈ arguments, value.Clear bad) :
    Preserves bad (Granted bad) (builtin.run arguments) :=
  preserves_run_of_sizes hkind.shallow builtin (fun _ _ => hkind.data _ rfl) h

theorem preserves_locateError (hkind : Shallow bad) (token : Option Token) {value : Value}
    (h : value.Clear bad) : Preserves bad (Value.Clear bad) (locateError token value) := by
  unfold locateError
  split
  · next message identity token =>
      have hvalue : (Value.error message (some token) identity).Clear bad := hkind.clear_error h
      split
      · next identity =>
          have hlocate : Preserves bad (fun _ => True) (Action.locate identity token) :=
            fun _ hclear => ⟨trivial, Store.Clear.locate hkind hclear identity token⟩
          exact hlocate.bind fun _ _ => preserves_pure hvalue
      · exact preserves_pure hvalue
  · exact preserves_pure h

end

end Monkey
