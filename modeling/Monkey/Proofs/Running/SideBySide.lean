/-
Two runs side by side.  On machines that belong together, nodes that do are run alike: what they
give and what they leave belongs together, whatever the pairing.
-/
import Monkey.Proofs.Running.Pairing
import Monkey.Proofs.Running.Watch

namespace Monkey

open Traced

namespace Pairing

variable {α β : Type} {pairing : Pairing} {world mid after : pairing.World}

/-- Both runs end with what is good, or are stopped by the same fault. -/
inductive Ends (pairing : Pairing) (world : pairing.World) (good : pairing.World → α → α → Prop) :
    EStateM.Result Fault Machine α → EStateM.Result Fault Machine α → Prop
  | ok {after : pairing.World} {value value' : α} {machine machine' : Machine}
      (hgrows : pairing.Grows world after) (hgood : good after value value')
      (hmachines : pairing.machines after machine machine') :
      Ends pairing world good (.ok value machine) (.ok value' machine')
  | error {after : pairing.World} {fault : Fault} {machine machine' : Machine}
      (hgrows : pairing.Grows world after) (hmachines : pairing.machines after machine machine') :
      Ends pairing world good (.error fault machine) (.error fault machine')

/-- Both runs end alike, and wherever the first one enters a node, its frame and its machine have
partners. -/
structure Agrees (pairing : Pairing) (world : pairing.World)
    (good : pairing.World → α → α → Prop) (out out' : Outcome α) : Prop where
  ends : pairing.Ends world good out.2 out'.2
  visits : ∀ node frame machine, .enters node frame machine ∈ out.1 →
    ∃ mid frame' machine', pairing.frames mid frame frame' ∧ pairing.machines mid machine machine'

/-- On machines that belong together, now or later, the runs agree. -/
def Alike (pairing : Pairing) (world : pairing.World) (good : pairing.World → α → α → Prop)
    (traced traced' : Traced α) : Prop :=
  ∀ after, pairing.Grows world after → ∀ machine machine',
    pairing.machines after machine machine' →
      pairing.Agrees after good (traced machine) (traced' machine')

section Steps

variable {good : pairing.World → α → α → Prop} {good' : pairing.World → β → β → Prop}
  {traced traced' : Traced α} {go go' : α → Traced β}

theorem Ends.weaken {result result' : EStateM.Result Fault Machine α}
    (hgrows : pairing.Grows world mid) (h : pairing.Ends mid good result result') :
    pairing.Ends world good result result' := by
  cases h with
  | ok hmid hgood hmachines => exact .ok (pairing.trans hgrows hmid) hgood hmachines
  | error hmid hmachines => exact .error (pairing.trans hgrows hmid) hmachines

theorem Alike.later (h : pairing.Alike world good traced traced')
    (hgrows : pairing.Grows world after) : pairing.Alike after good traced traced' :=
  fun later hlater => h later (pairing.trans hgrows hlater)

theorem Ends.mono {good' : pairing.World → α → α → Prop}
    {result result' : EStateM.Result Fault Machine α} (h : pairing.Ends world good result result')
    (hgood : ∀ after value value', good after value value' → good' after value value') :
    pairing.Ends world good' result result' := by
  cases h with
  | ok hgrows hvalue hmachines => exact .ok hgrows (hgood _ _ _ hvalue) hmachines
  | error hgrows hmachines => exact .error hgrows hmachines

theorem Alike.mono {good' : pairing.World → α → α → Prop}
    (h : pairing.Alike world good traced traced')
    (hgood : ∀ after value value', good after value value' → good' after value value') :
    pairing.Alike world good' traced traced' := by
  intro after hgrows machine machine' hmachines
  obtain ⟨hends, hvisits⟩ := h after hgrows machine machine' hmachines
  exact ⟨hends.mono hgood, hvisits⟩

theorem alike_pure {value value' : α}
    (h : ∀ after, pairing.Grows world after → good after value value') :
    pairing.Alike world good (pure value) (pure value') :=
  fun after hgrows _ _ hmachines =>
    ⟨.ok (pairing.refl after) (h after hgrows) hmachines, fun _ _ _ hmem => by cases hmem⟩

theorem alike_throw (fault : Fault) :
    pairing.Alike world good (act (throw fault)) (act (throw fault)) :=
  fun after _ _ _ hmachines =>
    ⟨.error (pairing.refl after) hmachines, fun _ _ _ hmem => by cases hmem⟩

theorem Alike.bind (h : pairing.Alike world good traced traced')
    (hgo : ∀ after value value', pairing.Grows world after → good after value value' →
      pairing.Alike after good' (go value) (go' value')) :
    pairing.Alike world good' (traced >>= go) (traced' >>= go') := by
  intro now hnow machine machine' hmachines
  obtain ⟨hends, hvisits⟩ := h now hnow machine machine' hmachines
  show pairing.Agrees now good' ((traced >>= go) machine) ((traced' >>= go') machine')
  simp only [Bind.bind]
  generalize traced machine = out at hends hvisits
  generalize traced' machine' = out' at hends
  obtain ⟨trace, result⟩ := out
  obtain ⟨trace', result'⟩ := out'
  cases hends with
  | error hgrows hafter => exact ⟨.error hgrows hafter, hvisits⟩
  | @ok later value value' after after' hgrows hgood hafter =>
      obtain ⟨hends', hvisits'⟩ := hgo later value value' (pairing.trans hnow hgrows) hgood later
        (pairing.refl later) after after' hafter
      refine ⟨hends'.weaken hgrows, fun node frame mid hmem => ?_⟩
      rcases List.mem_append.mp hmem with hbefore | hlater
      · exact hvisits node frame mid hbefore
      · exact hvisits' node frame mid hlater

/-- What occurs does not matter here, unless a node is entered. -/
theorem alike_note {occurrence occurrence' : Occurrence}
    (h : ∀ node frame machine, occurrence ≠ .enters node frame machine) :
    pairing.Alike world (fun _ _ _ => True) (note occurrence) (note occurrence') := by
  refine fun after _ _ _ hmachines => ⟨.ok (pairing.refl after) trivial hmachines, ?_⟩
  intro node frame machine hmem
  exact absurd (List.mem_singleton.mp hmem).symm (h node frame machine)

theorem alike_enter (node node' : Node) {frame frame' : FrameId}
    (hframe : pairing.frames world frame frame') :
    pairing.Alike world (fun _ _ _ => True) (enter node frame) (enter node' frame') := by
  refine fun after hgrows machine machine' hmachines =>
    ⟨.ok (pairing.refl after) trivial hmachines, ?_⟩
  intro node₀ frame₀ machine₀ hmem
  cases List.mem_singleton.mp hmem
  exact ⟨after, frame', machine', pairing.frames_grow hgrows hframe, hmachines⟩

theorem alike_newIdentity :
    pairing.Alike world pairing.identities (act Action.newIdentity) (act Action.newIdentity) := by
  intro now _ machine machine' hmachines
  obtain ⟨after, hgrows, hidentity, hafter⟩ := pairing.newIdentity hmachines
  exact ⟨.ok hgrows hidentity hafter, fun _ _ _ hmem => by cases hmem⟩

theorem alike_openFrame {outer outer' : FrameId} (h : pairing.frames world outer outer') :
    pairing.Alike world pairing.frames (act (Action.openFrame (some outer)))
      (act (Action.openFrame (some outer'))) := by
  intro now hnow machine machine' hmachines
  obtain ⟨after, hgrows, hframe, hafter⟩ :=
    pairing.openFrame hmachines (pairing.frames_grow hnow h)
  exact ⟨.ok hgrows hframe hafter, fun _ _ _ hmem => by cases hmem⟩

theorem alike_bindName {frame frame' : FrameId} {value value' : Value} (name : Label)
    (hframe : pairing.frames world frame frame') (hvalue : pairing.values world value value')
    (herror : value.isError = false) :
    pairing.Alike world (fun _ _ _ => True) (Traced.bindName frame name value)
      (Traced.bindName frame' name value') := by
  refine (alike_note (by nofun)).bind fun after _ _ hafter _ => ?_
  intro now hnow machine machine' hmachines
  have hgrows := pairing.trans hafter hnow
  have hbound : pairing.machines now ((Action.bindName frame name value).leaves machine)
      ((Action.bindName frame' name value').leaves machine') :=
    pairing.bindName hmachines (pairing.frames_grow hgrows hframe)
      (pairing.values_grow hgrows hvalue) herror
  exact ⟨.ok (pairing.refl now) trivial hbound, fun _ _ _ hmem => by cases hmem⟩

theorem alike_show {event event' : Event} (h : event.Matches pairing.tokens event') :
    pairing.Alike world (fun _ _ _ => True) (act (Action.emit event)) (act (Action.emit event')) :=
  fun now _ _ _ hmachines =>
    ⟨.ok (pairing.refl now) trivial (pairing.emit hmachines h), fun _ _ _ hmem => by cases hmem⟩

theorem alike_emit {event event' : Event} (h : event.Matches pairing.tokens event') :
    pairing.Alike world (fun _ _ _ => True) (Traced.emit event) (Traced.emit event') :=
  (alike_note (by nofun)).bind fun _ _ _ _ _ => alike_show h

theorem alike_lookup {frame frame' : FrameId} {name : String}
    (hframe : pairing.frames world frame frame') (hname : Builtin.ofName? name = none) :
    pairing.Alike world (fun after => Option.Rel (pairing.values after))
      (act (Action.lookup frame (.name name))) (act (Action.lookup frame' (.name name))) :=
  fun now hnow _ _ hmachines =>
    ⟨.ok (pairing.refl now)
      (pairing.lookup hmachines (pairing.frames_grow hnow hframe) hname) hmachines,
      fun _ _ _ hmem => by cases hmem⟩

end Steps

/-! ### Values of nodes -/

section Nodes

variable {traced traced' : Traced Value} {value value' : Value}

theorem alike_value (h : pairing.values world value value') :
    pairing.Alike world pairing.values (pure value) (pure value') :=
  alike_pure fun _ hgrows => pairing.values_grow hgrows h

theorem alike_scalar (h : value.isScalar = true) :
    pairing.Alike world pairing.values (pure value) (pure value) :=
  alike_value (values_scalar h)

theorem alike_raise {node node' : Node} {result result' : Except Problem Value}
    (htoken : pairing.tokens node.token? node'.token?)
    (h : pairing.Settles world result result') :
    pairing.Alike world pairing.values (raise node result) (raise node' result') := by
  cases result with
  | ok value =>
      cases result' with
      | ok value' => exact alike_value h.1
      | error problem' => exact h.elim
  | error problem =>
      cases result' with
      | ok value' => exact h.elim
      | error problem' =>
          obtain rfl : problem = problem' := h
          refine fun after _ _ _ hmachines =>
            ⟨.ok (pairing.refl after) (values_problem problem htoken) hmachines, ?_⟩
          exact fun _ _ _ hmem => by cases List.mem_singleton.mp hmem

theorem alike_record {occurrence occurrence' : Value → Occurrence}
    (h : pairing.values world value value')
    (hoccurrence : ∀ node frame machine, occurrence value ≠ .enters node frame machine) :
    pairing.Alike world pairing.values (record occurrence value) (record occurrence' value') := by
  unfold record
  rw [isError_eq h]
  split
  · exact alike_value h
  · exact (alike_note hoccurrence).bind fun _ _ _ hgrows _ =>
      alike_value (pairing.values_grow hgrows h)

theorem alike_keep {eval eval' : Node → Traced Value} {node node' : Node}
    (h : pairing.Alike world pairing.values (eval node) (eval' node')) :
    pairing.Alike world pairing.values (keep eval node) (keep eval' node') :=
  h.bind fun _ _ _ _ hvalue => alike_record hvalue (by nofun)

/-- Goes on with values that are no errors. -/
theorem Alike.unlessError {go go' : Value → Traced Value}
    (h : pairing.Alike world pairing.values traced traced')
    (hgo : ∀ after value value', pairing.Grows world after → pairing.values after value value' →
      value.isError = false → pairing.Alike after pairing.values (go value) (go' value')) :
    pairing.Alike world pairing.values (traced >>= fun value => Monkey.unlessError value go)
      (traced' >>= fun value => Monkey.unlessError value go') := by
  apply h.bind
  intro after value value' hgrows hvalue
  unfold Monkey.unlessError
  rw [← isError_eq hvalue]
  cases herror : value.isError with
  | true => exact alike_value hvalue
  | false => exact hgo after value value' hgrows hvalue herror

/-- An error, or what goes on without one. -/
def Gathers (good : pairing.World → α → α → Prop) (world : pairing.World) :
    Except Value α → Except Value α → Prop
  | .error error, .error error' => pairing.values world error error'
  | .ok found, .ok found' => good world found found'
  | _, _ => False

/-- Values that are no errors. -/
structure Elements (pairing : Pairing) (world : pairing.World) (values values' : List Value) :
    Prop where
  paired : List.Forall₂ (pairing.values world) values values'
  errorless : ∀ value ∈ values, value.isError = false

/-- Nodes that are run alike. -/
abbrev Evals (pairing : Pairing) (world : pairing.World) (eval eval' : Node → Traced Value) :
    List Node → List Node → Prop :=
  List.Forall₂ fun node node' => pairing.Alike world pairing.values (eval node) (eval' node')

variable {eval eval' : Node → Traced Value} {nodes nodes' : List Node}

theorem alike_evalAll (h : pairing.Evals world eval eval' nodes nodes') :
    pairing.Alike world (Gathers pairing.Elements) (evalAll eval nodes) (evalAll eval' nodes') := by
  induction h with
  | nil => exact alike_pure fun _ _ => ⟨.nil, nofun⟩
  | cons hnode _ ih =>
      apply hnode.bind
      intro after value value' hgrows hvalue
      rw [← isError_eq hvalue]
      cases herror : value.isError with
      | true => exact alike_pure fun _ hlater => pairing.values_grow hlater hvalue
      | false =>
          apply (ih.later hgrows).bind
          intro later result result' hlater hresult
          refine alike_pure fun now hnow => ?_
          cases result <;> cases result'
          · exact pairing.values_grow hnow hresult
          · exact hresult.elim
          · exact hresult.elim
          · obtain ⟨hvalues, herrors⟩ := hresult
            refine ⟨.cons ?_ ?_, List.forall_mem_cons.mpr ⟨herror, herrors⟩⟩
            · exact pairing.values_grow (pairing.trans hlater hnow) hvalue
            · exact hvalues.imp fun _ _ => pairing.values_grow hnow

theorem alike_runBlock (h : pairing.Evals world eval eval' nodes nodes') :
    ∀ {after : pairing.World} {last last' : Value}, pairing.Grows world after →
      pairing.values after last last' →
        pairing.Alike after pairing.values (runBlock eval last nodes)
          (runBlock eval' last' nodes') := by
  induction h with
  | nil => exact fun _ hlast => alike_value hlast
  | cons hnode _ ih =>
      intro after last last' hgrows _
      apply (hnode.later hgrows).bind
      intro later value value' hlater hvalue
      rw [← isSignal_eq hvalue]
      split
      · exact alike_value hvalue
      · exact ih (pairing.trans hgrows hlater) hvalue

/-- Entries without errors. -/
structure Holds (pairing : Pairing) (world : pairing.World)
    (entries entries' : List (Key × Value)) : Prop where
  paired : pairing.Entries world entries entries'
  errorless : ∀ entry ∈ entries, entry.2.isError = false

theorem Holds.grow {entries entries' : List (Key × Value)}
    (h : pairing.Holds world entries entries') (hgrows : pairing.Grows world after) :
    pairing.Holds after entries entries' :=
  ⟨h.paired.imp fun _ _ hentry => ⟨hentry.1, pairing.values_grow hgrows hentry.2⟩, h.errorless⟩

/-- Pairs of nodes that are run alike, for whatever use. -/
abbrev EvalsPairs (pairing : Pairing) (world : pairing.World)
    (eval eval' : Use → Node → Traced Value) :
    List (Node × Node) → List (Node × Node) → Prop :=
  List.Forall₂ fun pair pair' => pairing.tokens pair.1.token? pair'.1.token? ∧ ∀ use,
    pairing.Alike world pairing.values (eval use pair.1) (eval' use pair'.1) ∧
      pairing.Alike world pairing.values (eval use pair.2) (eval' use pair'.2)

theorem alike_tracePairs {eval eval' : Use → Node → Traced Value}
    {pairs pairs' : List (Node × Node)}
    (h : pairing.EvalsPairs world eval eval' pairs pairs') :
    ∀ {after : pairing.World} {entries entries' : List (Key × Value)},
      pairing.Grows world after → pairing.Holds after entries entries' →
        pairing.Alike after (Gathers pairing.Holds) (tracePairs eval entries pairs)
          (tracePairs eval' entries' pairs') := by
  induction h with
  | nil => exact fun _ hentries => alike_pure fun _ hlater => hentries.grow hlater
  | @cons pair pair' _ _ hpair _ ih =>
      intro after entries entries' hgrows hentries
      obtain ⟨htoken, heval⟩ := hpair
      apply ((heval .tested).1.later hgrows).bind
      intro later keyValue keyValue' hlater hkeyValue
      rw [← isError_eq hkeyValue]
      split
      · exact alike_pure fun _ hnow => pairing.values_grow hnow hkeyValue
      · rw [← key?_eq hkeyValue]
        cases keyValue.key? with
        | none =>
            rw [← typeName_eq hkeyValue]
            have hproblem : pairing.Settles later (.error (.unusableKey keyValue.typeName))
                (.error (.unusableKey keyValue.typeName)) := rfl
            apply (alike_raise htoken hproblem).bind
            exact fun _ _ _ _ herror => alike_pure fun _ hnow => pairing.values_grow hnow herror
        | some key =>
            apply (alike_note (by nofun)).bind
            intro later' _ _ hlater' _
            have hnow := pairing.trans hlater hlater'
            apply (alike_keep ((heval .kept).2.later (pairing.trans hgrows hnow))).bind
            intro last value value' hlast hvalue
            rw [← isError_eq hvalue]
            cases herror : value.isError with
            | true => exact alike_pure fun _ hnow => pairing.values_grow hnow hvalue
            | false =>
                have hall := pairing.trans hnow hlast
                apply ih (pairing.trans hgrows hall)
                have hheld := hentries.grow hall
                exact ⟨entries_insert hheld.paired key hvalue,
                  errorless_insert key hheld.errorless herror⟩

end Nodes

/-! ### Calls and names -/

section Calls

variable {value value' : Value} {values values' : List Value}

theorem act_bind (action : Action α) (go : α → Action β) :
    act (action >>= go) = act action >>= fun value => act (go value) := by
  funext machine
  simp only [act, Bind.bind, EStateM.bind]
  cases action machine <;> rfl

theorem Elements.grow (h : pairing.Elements world values values')
    (hgrows : pairing.Grows world after) : pairing.Elements after values values' :=
  ⟨h.paired.imp fun _ _ => pairing.values_grow hgrows, h.errorless⟩

theorem Elements.display_eq (h : pairing.Elements world values values') :
    values.map Value.display = values'.map Value.display := by
  have hpaired := h.paired
  clear h
  induction hpaired with
  | nil => rfl
  | cons hfirst _ ih => rw [List.map_cons, List.map_cons, pairing.display hfirst, ih]

theorem Elements.getElem (h : pairing.Elements world values values') (position : Nat) :
    pairing.Settles world (.ok ((values[position]?).getD .nil))
      (.ok ((values'[position]?).getD .nil)) :=
  values_getElem h.paired h.errorless position

theorem Elements.tail (h : pairing.Elements world values values') :
    pairing.Elements world values.tail values'.tail := by
  refine ⟨?_, fun value hvalue => h.errorless value (List.mem_of_mem_tail hvalue)⟩
  cases h.paired with
  | nil => exact .nil
  | cons _ hrest => exact hrest

theorem alike_settled {result result' : Except Problem Value}
    (h : pairing.Settles world result result') :
    pairing.Alike world pairing.Settles (act (pure result)) (act (pure result')) := by
  apply alike_pure
  intro after hgrows
  cases result <;> cases result'
  · exact h
  · exact h.elim
  · exact h.elim
  · exact ⟨pairing.values_grow hgrows h.1, h.2⟩

theorem alike_refused (problem : Problem) :
    pairing.Alike world pairing.Settles (act (pure (.error problem)))
      (act (pure (.error problem))) :=
  alike_settled rfl

theorem alike_newArray (h : pairing.Elements world values values') :
    pairing.Alike world (fun after value value' => pairing.Settles after (.ok value) (.ok value'))
      (act (Action.newArray values)) (act (Action.newArray values')) := by
  simp only [Action.newArray, act_bind]
  apply alike_newIdentity.bind
  intro after identity identity' hgrows hidentity
  refine alike_pure fun later hlater => ⟨?_, rfl⟩
  apply pairing.values_grow hlater
  exact pairing.values_match.mpr (.array hidentity (h.grow hgrows).paired h.errorless)

theorem arrayArgument_of_two (builtin : Builtin) (first second : Value) (rest : List Value) :
    arrayArgument builtin (first :: second :: rest) =
      .error (.arity builtin.name (rest.length + 2) 1) := by
  cases first <;> rfl

/-- What a built-in function finds where it expects one array. -/
theorem arrayArgument_cases (builtin : Builtin) (h : pairing.Elements world values values') :
    (∃ problem, arrayArgument builtin values = .error problem ∧
        arrayArgument builtin values' = .error problem) ∨
      ∃ elements elements', arrayArgument builtin values = .ok elements ∧
        arrayArgument builtin values' = .ok elements' ∧
        pairing.Elements world elements elements' := by
  cases h.paired with
  | nil => exact Or.inl ⟨_, rfl, rfl⟩
  | cons hfirst hrest =>
      cases hrest with
      | nil =>
          cases pairing.values_match.mp hfirst with
          | array _ helements herrors => exact Or.inr ⟨_, _, rfl, rfl, helements, herrors⟩
          | _ => exact Or.inl ⟨_, rfl, rfl⟩
      | cons _ hothers =>
          refine Or.inl ⟨_, arrayArgument_of_two builtin .., ?_⟩
          rw [hothers.length_eq]
          exact arrayArgument_of_two builtin ..

theorem run_len_of_two (first second : Value) (rest : List Value) :
    Builtin.run .len (first :: second :: rest) =
      pure (.error (.arity "len" (rest.length + 2) 1)) := by
  cases first <;> rfl

theorem run_push_of_three (first second third : Value) (rest : List Value) :
    Builtin.run .push (first :: second :: third :: rest) =
      pure (.error (.arity "push" (rest.length + 3) 2)) := by
  cases first <;> rfl

theorem alike_push {first first' second second' : Value}
    (h : pairing.Elements world [first, second] [first', second'])
    (hfirst : pairing.values world first first') (hsecond : pairing.values world second second') :
    pairing.Alike world pairing.Settles (act (Builtin.run .push [first, second]))
      (act (Builtin.run .push [first', second'])) := by
  cases pairing.values_match.mp hfirst with
  | @array _ _ elements elements' _ helements herrors =>
      have hboth : pairing.Elements world (elements ++ [second]) (elements' ++ [second']) := by
        refine ⟨List.rel_append helements (.cons hsecond .nil), fun value hvalue => ?_⟩
        rcases List.mem_append.mp hvalue with hvalue | hvalue
        · exact herrors value hvalue
        · exact h.errorless value (List.mem_cons_of_mem _ hvalue)
      simp only [Builtin.run, act_bind]
      exact (alike_newArray hboth).bind fun _ _ _ _ hvalue => alike_settled hvalue
  | _ => exact alike_refused _

theorem alike_run (builtin : Builtin) (h : pairing.Elements world values values') :
    pairing.Alike world pairing.Settles (act (builtin.run values)) (act (builtin.run values')) := by
  have hnil : pairing.Settles world (.ok .nil) (.ok .nil) := ⟨values_scalar rfl, rfl⟩
  cases builtin with
  | puts =>
      simp only [Builtin.run, act_bind, h.display_eq]
      refine (alike_show (.wrote _)).bind fun _ _ _ _ _ => alike_settled ?_
      exact ⟨values_scalar rfl, rfl⟩
  | toStr =>
      cases h.paired with
      | nil => exact alike_refused _
      | cons hfirst hrest =>
          cases hrest with
          | nil =>
              simp only [Builtin.run, pairing.display hfirst]
              exact alike_settled ⟨values_scalar rfl, rfl⟩
          | cons _ hothers =>
              simp only [Builtin.run, List.length_cons, hothers.length_eq]
              exact alike_refused _
  | len =>
      cases h.paired with
      | nil => exact alike_refused _
      | cons hfirst hrest =>
          cases hrest with
          | nil =>
              cases pairing.values_match.mp hfirst with
              | string => exact alike_settled ⟨values_scalar rfl, rfl⟩
              | array _ helements _ =>
                  simp only [Builtin.run, helements.length_eq]
                  exact alike_settled ⟨values_scalar rfl, rfl⟩
              | _ => exact alike_refused _
          | cons _ hothers =>
              rw [run_len_of_two, run_len_of_two, hothers.length_eq]
              exact alike_refused _
  | first =>
      rcases arrayArgument_cases .first h with ⟨problem, heq, heq'⟩ | ⟨_, _, heq, heq', helements⟩
      · simp only [Builtin.run, heq, heq']
        exact alike_refused problem
      · simp only [Builtin.run, heq, heq', Except.map, List.head?_eq_getElem?]
        exact alike_settled (helements.getElem 0)
  | last =>
      rcases arrayArgument_cases .last h with ⟨problem, heq, heq'⟩ | ⟨_, _, heq, heq', helements⟩
      · simp only [Builtin.run, heq, heq']
        exact alike_refused problem
      · simp only [Builtin.run, heq, heq', Except.map, List.getLast?_eq_getElem?,
          helements.paired.length_eq]
        exact alike_settled (helements.getElem _)
  | rest =>
      rcases arrayArgument_cases .rest h with ⟨problem, heq, heq'⟩ | ⟨_, _, heq, heq', helements⟩
      · simp only [Builtin.run, heq, heq']
        exact alike_refused problem
      · simp only [Builtin.run, heq, heq']
        cases helements.paired with
        | nil => exact alike_settled hnil
        | cons hfirst hrest =>
            simp only [List.isEmpty_cons, Bool.false_eq_true, if_false, act_bind]
            exact (alike_newArray helements.tail).bind fun _ _ _ _ hvalue => alike_settled hvalue
  | push =>
      cases h.paired with
      | nil => exact alike_refused _
      | cons hfirst hrest =>
          cases hrest with
          | nil =>
              cases pairing.values_match.mp hfirst <;> exact alike_refused _
          | cons hsecond hothers =>
              cases hothers with
              | nil => exact alike_push h hfirst hsecond
              | cons _ hothers =>
                  rw [run_push_of_three, run_push_of_three, hothers.length_eq]
                  exact alike_refused _

theorem alike_builtinTrace (builtin : Builtin) (h : pairing.Elements world values values') :
    pairing.Alike world pairing.Settles (builtin.trace values) (builtin.trace values') := by
  cases builtin with
  | puts =>
      exact (alike_note (by nofun)).bind fun _ _ _ hgrows _ => alike_run .puts (h.grow hgrows)
  | _ => exact alike_run _ h

theorem alike_ofExcept (result : Except Fault α) :
    pairing.Alike world (fun _ found found' => found = found') (act (Action.ofExcept result))
      (act (Action.ofExcept result)) := by
  cases result with
  | ok value => exact alike_pure fun _ _ => rfl
  | error fault => exact alike_throw fault

/-- Parameters with the same labels are bound alike. -/
theorem alike_traceParameters {names names' : List Node} {frame frame' : FrameId}
    (hlabels : names.map Node.label = names'.map Node.label)
    (hframe : pairing.frames world frame frame') (h : pairing.Elements world values values') :
    pairing.Alike world (fun _ _ _ => True) (traceParameters frame (names.zip values))
      (traceParameters frame' (names'.zip values')) := by
  induction names generalizing world names' values values' with
  | nil =>
      obtain rfl : names' = [] := List.map_eq_nil_iff.mp hlabels.symm
      exact alike_pure fun _ _ => trivial
  | cons name rest ih =>
      obtain ⟨name', rest', rfl, hlabel, hrest⟩ := List.map_eq_cons_iff.mp hlabels.symm
      obtain ⟨hpaired, herrors⟩ := h
      cases hpaired with
      | nil => exact alike_pure fun _ _ => trivial
      | cons hvalue hvalues =>
          obtain ⟨herror, herrors⟩ := List.forall_mem_cons.mp herrors
          simp only [List.zip_cons_cons, traceParameters, hlabel]
          apply (alike_ofExcept name.label).bind
          rintro after label _ hgrows rfl
          apply (alike_bindName label (pairing.frames_grow hgrows hframe)
            (pairing.values_grow hgrows hvalue) herror).bind
          intro later _ _ hlater _
          have hall := pairing.trans hgrows hlater
          exact ih hrest.symm (pairing.frames_grow hall hframe)
            (Elements.grow ⟨hvalues, herrors⟩ hall)

/-- Bodies are run alike in frames that belong together. -/
abbrev Bodies (pairing : Pairing) (world : pairing.World)
    (eval eval' : Node → FrameId → Traced Value) : Prop :=
  ∀ after body body' frame frame', pairing.Grows world after → pairing.nodes body body' →
    pairing.frames after frame frame' →
      pairing.Alike after pairing.values (eval body frame) (eval' body' frame')

variable {token token' : Option Token} {callee callee' : Node} {arguments arguments' : List Node}

theorem locateError_of_errorless (token : Option Token) (h : value.isError = false) :
    locateError token value = pure value := by
  cases value with
  | error => cases h
  | _ => rfl

theorem alike_refuses (builtin builtin' : Builtin) (call call' : Node) (problem : Problem)
    (htoken : pairing.tokens token token') :
    pairing.Alike world pairing.values
      (fun machine =>
        ([.refuses builtin call problem machine], .ok (problem.error token) machine))
      (fun machine =>
        ([.refuses builtin' call' problem machine], .ok (problem.error token') machine)) :=
  fun after _ _ _ hmachines =>
    ⟨.ok (pairing.refl after) (values_problem problem htoken) hmachines,
      fun _ _ _ hmem => by cases List.mem_singleton.mp hmem⟩

theorem alike_traceApply {eval eval' : Node → FrameId → Traced Value}
    (heval : pairing.Bodies world eval eval') (htoken : pairing.tokens token token')
    (hfunction : pairing.values world value value') (h : pairing.Elements world values values') :
    pairing.Alike world pairing.values (traceApply eval token callee arguments value values)
      (traceApply eval' token' callee' arguments' value' values') := by
  have hmatch := pairing.values_match.mp hfunction
  have hproblem (problem : Problem) : pairing.Alike world pairing.values
      (raise (.call token callee arguments) (.error problem))
      (raise (.call token' callee' arguments') (.error problem)) :=
    alike_raise htoken rfl
  cases hmatch with
  | builtin builtin =>
      apply (alike_builtinTrace builtin h).bind
      intro after result result' _ hresult
      cases result <;> cases result'
      · obtain rfl : _ = _ := hresult
        exact alike_refuses _ _ _ _ _ htoken
      · exact hresult.elim
      · exact hresult.elim
      · have herror := hresult.2
        simp only [locateError_of_errorless _ herror,
          locateError_of_errorless _ ((isError_eq hresult.1).symm.trans herror)]
        exact alike_value hresult.1
  | @function _ _ names names' body body' outer outer' _ hpair houter =>
      have hlabels := pairing.labels hpair
      have hlength : names.length = names'.length := by
        simpa using congrArg List.length hlabels
      simp only [traceApply, h.paired.length_eq, hlength]
      split
      · exact hproblem _
      · apply (alike_openFrame houter).bind
        intro after frame frame' hgrows hframe
        apply (alike_traceParameters hlabels hframe (h.grow hgrows)).bind
        intro later _ _ hlater _
        have hall := pairing.trans hgrows hlater
        apply (heval later body body' frame frame' hall (pairing.bodies hpair)
          (pairing.frames_grow hlater hframe)).bind
        exact fun _ _ _ _ hvalue => alike_value (values_unwrap hvalue)
  | _ => exact hproblem _

theorem alike_traceLet {name name' : Node} {frame frame' : FrameId}
    (hlabel : name.label = name'.label) (htoken : pairing.tokens name.token? name'.token?)
    (hframe : pairing.frames world frame frame') (hvalue : pairing.values world value value')
    (herror : value.isError = false) :
    pairing.Alike world pairing.values (traceLet frame name value)
      (traceLet frame' name' value') := by
  simp only [traceLet, ← hlabel]
  apply (alike_ofExcept name.label).bind
  rintro after label _ hgrows rfl
  have hbind (later : pairing.World) (hlater : pairing.Grows after later) :
      pairing.Alike later pairing.values
        (Traced.bindName frame label value >>= fun _ => pure .nil)
        (Traced.bindName frame' label value' >>= fun _ => pure .nil) := by
    have hall := pairing.trans hgrows hlater
    apply (alike_bindName label (pairing.frames_grow hall hframe)
      (pairing.values_grow hall hvalue) herror).bind
    exact fun _ _ _ _ _ => alike_scalar rfl
  cases label with
  | name text =>
      simp only
      split
      · exact (alike_emit (.warned _ htoken)).bind fun later _ _ hlater _ => hbind later hlater
      · exact hbind after (pairing.refl after)
  | _ => exact hbind after (pairing.refl after)

theorem alike_traceName {frame frame' : FrameId} (htoken : pairing.tokens token token')
    (hframe : pairing.frames world frame frame') (name : String) :
    pairing.Alike world pairing.values (traceName frame token name)
      (traceName frame' token' name) := by
  unfold traceName
  cases hbuiltin : Builtin.ofName? name with
  | some builtin => exact alike_scalar rfl
  | none =>
      apply (alike_lookup hframe hbuiltin).bind
      intro after found found' _ hfound
      cases hfound with
      | some hvalue => exact alike_value hvalue
      | none => exact alike_raise htoken rfl

end Calls

/-- On machines that belong together, nodes that do are run alike. -/
theorem alike_trace {node node' : Node} {frame frame' : FrameId} (depth : Nat) (use : Use)
    (hnode : pairing.nodes node node') (hframe : pairing.frames world frame frame') :
    pairing.Alike world pairing.values (node.trace depth use frame)
      (node'.trace depth use frame') := by
  induction depth generalizing world use node node' frame frame' with
  | zero => exact alike_throw .tooDeep
  | succ depth ih =>
      unfold Node.trace
      apply (alike_enter node node' hframe).bind
      intro after _ _ hgrows _
      have hframe := pairing.frames_grow hgrows hframe
      have heval (use : Use) {child child' : Node} (hchild : pairing.nodes child child') :
          pairing.Alike after pairing.values (child.trace depth use frame)
            (child'.trace depth use frame') := ih use hchild hframe
      have hkeep {child child' : Node} (hchild : pairing.nodes child child') :
          pairing.Alike after pairing.values
            (keep (fun child => child.trace depth .kept frame) child)
            (keep (fun child => child.trace depth .kept frame') child') :=
        alike_keep (heval .kept hchild)
      cases pairing.nodes_match hnode with
      | missing | int | string | bool => exact alike_scalar rfl
      | text | flag => exact alike_throw _
      | program hstatements =>
          have hnil : pairing.values after .nil .nil := values_scalar rfl
          apply (alike_runBlock (hstatements.imp fun _ _ => heval .passed) (pairing.refl after)
            hnil).bind
          exact fun _ _ _ _ hvalue => alike_value (values_shown (values_unwrap hvalue))
      | exprStmt hexpression => exact heval use hexpression
      | letStmt hlabel htoken hvalue =>
          apply (hkeep hvalue).unlessError
          intro later value value' hlater hvalue herror
          exact alike_traceLet hlabel htoken (pairing.frames_grow hlater hframe) hvalue herror
      | returnStmt hvalue =>
          apply (hkeep hvalue).unlessError
          intro later value value' hlater hvalue herror
          apply (alike_note fun _ _ _ heq => by cases heq).bind
          intro now _ _ hnow _
          apply alike_newIdentity.bind
          intro last identity identity' hlast hidentity
          refine alike_value (pairing.values_match.mpr (.returned hidentity ?_ herror))
          exact pairing.values_grow (pairing.trans hnow hlast) hvalue
      | block hstatements =>
          exact alike_runBlock (hstatements.imp fun _ _ => heval use) (pairing.refl after)
            (values_scalar rfl)
      | ident name htoken => exact alike_traceName htoken hframe name
      | prefixOp operator htoken hright =>
          apply (hkeep hright).unlessError
          intro later right right' _ hright _
          exact alike_raise htoken (settles_applyPrefix operator hright)
      | infixOp operator htoken hleft hright =>
          apply (hkeep hleft).unlessError
          intro later left left' hlater hleft _
          apply ((hkeep hright).later hlater).unlessError
          intro now right right' hnow hright _
          exact alike_raise htoken
            (settles_applyInfix operator (pairing.values_grow hnow hleft) hright)
      | ifElse hcondition hconsequence halternative =>
          apply (heval .tested hcondition).unlessError
          intro later condition condition' hlater hcondition _
          rw [← isTruthy_eq hcondition]
          split
          · exact (heval use hconsequence).later hlater
          · exact (heval use halternative).later hlater
      | function =>
          apply alike_newIdentity.bind
          intro later identity identity' hlater hidentity
          exact alike_value (pairing.values_match.mpr
            (.function hidentity (pairing.literals hnode) (pairing.frames_grow hlater hframe)))
      | call htoken hcallee harguments =>
          apply (heval .tested hcallee).unlessError
          intro later function function' hlater hfunction _
          apply (alike_evalAll (harguments.imp fun _ _ hnode => (hkeep hnode).later hlater)).bind
          intro now result result' hnow hresult
          cases result <;> cases result'
          · exact alike_value hresult
          · exact hresult.elim
          · exact hresult.elim
          · have hbodies : pairing.Bodies now (fun body frame => body.trace depth .passed frame)
                (fun body frame => body.trace depth .passed frame) :=
              fun _ _ _ _ _ _ hbody hinside => ih .passed hbody hinside
            apply (alike_traceApply hbodies htoken (pairing.values_grow hnow hfunction)
              hresult).bind
            exact fun _ _ _ _ hvalue => alike_record hvalue fun _ _ _ heq => by cases heq
      | array helements =>
          apply (alike_evalAll (helements.imp fun _ _ => hkeep)).bind
          intro later result result' _ hresult
          cases result <;> cases result'
          · exact alike_value hresult
          · exact hresult.elim
          · exact hresult.elim
          · exact (alike_newArray hresult).mono fun _ _ _ hvalue => hvalue.1
      | index htoken hleft hposition =>
          apply (hkeep hleft).unlessError
          intro later left left' hlater hleft _
          apply ((hkeep hposition).later hlater).unlessError
          intro now position position' hnow hposition _
          exact alike_raise htoken (settles_applyIndex (pairing.values_grow hnow hleft) hposition)
      | hash hpairs =>
          have hevals := hpairs.imp fun _ _ hpair =>
            And.intro hpair.1 fun use => And.intro (heval use hpair.2.1) (heval use hpair.2.2)
          apply (alike_tracePairs hevals (pairing.refl after) ⟨.nil, List.forall_mem_nil _⟩).bind
          intro later result result' _ hresult
          cases result <;> cases result'
          · exact alike_value hresult
          · exact hresult.elim
          · exact hresult.elim
          · apply alike_newIdentity.bind
            intro now identity identity' hnow hidentity
            have hheld := Holds.grow hresult hnow
            exact alike_value (pairing.values_match.mpr
              (.hash hidentity hheld.paired hheld.errorless))

/-- Calls of values that belong together, with arguments that do, end alike. -/
theorem ends_applyValue {token token' : Option Token} {value value' : Value}
    {values values' : List Value} {machine machine' : Machine} (depth : Nat)
    (htoken : pairing.tokens token token') (hfunction : pairing.values world value value')
    (harguments : pairing.Elements world values values')
    (hmachines : pairing.machines world machine machine') :
    pairing.Ends world pairing.values
      (applyValue (fun body frame => body.eval depth frame) token value values machine)
      (applyValue (fun body frame => body.eval depth frame) token' value' values' machine') := by
  have herase (node : Node) (frame : FrameId) :
      (node.trace depth .passed frame).erase = node.eval depth frame :=
    node.erase_trace depth .passed frame
  have hbodies : pairing.Bodies world (fun body frame => body.trace depth .passed frame)
      (fun body frame => body.trace depth .passed frame) :=
    fun _ _ _ _ _ _ hbody hinside => alike_trace depth .passed hbody hinside
  -- The nodes of a call serve the trace only, so here any will do.
  have halike : pairing.Alike world pairing.values
      (traceApply (fun body frame => body.trace depth .passed frame) token .missing [] value values)
      (traceApply (fun body frame => body.trace depth .passed frame) token' .missing [] value'
        values') := alike_traceApply hbodies htoken hfunction harguments
  have hends := (halike world (pairing.refl world) machine machine' hmachines).ends
  rwa [← erase_traceApply _ _ herase token .missing [],
    ← erase_traceApply _ _ herase token' .missing []]

end Pairing

end Monkey
