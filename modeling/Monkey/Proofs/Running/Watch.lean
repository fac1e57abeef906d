/-
A way to watch a run: which signals nothing may hold, and which runs count as upset.  From what a
watch says about making an error, keeping a value and returning one, it follows for whole runs
that they either are undisturbed or count as upset.
-/
import Monkey.Proofs.Running.Actions
import Monkey.Proofs.Running.Trace

namespace Monkey

open Traced

variable {α β : Type}

/-- No value that is put somewhere holds such a signal, and neither does the machine when a node is
entered. -/
def Occurrence.Clear (bad : Value → Bool) : Occurrence → Prop
  | .enters _ _ machine => machine.Clear bad
  | .binds _ _ value | .keeps value | .gives value => value.Clear bad
  | .makes .. | .refuses .. | .returns _ | .shows _ => True

/-- Nothing holds such a signal at any point of the run, nor when it has ended. -/
structure Outcome.Clear (bad : Value → Bool) (out : Outcome α) : Prop where
  holds : ∀ occurrence ∈ out.1, occurrence.Clear bad
  leaves : Ends bad (fun _ => True) out.2

/-- The outcome when something occurred before. -/
def Outcome.after (before : List Occurrence) (out : Outcome α) : Outcome α :=
  (before ++ out.1, out.2)

/-- An undisturbed run: only calm things occur, and it ends with something good. -/
structure Fine (bad : Value → Bool) (calm : Occurrence → Prop) (good : α → Prop)
    (out : Outcome α) : Prop where
  calm : ∀ occurrence ∈ out.1, calm occurrence
  ends : Ends bad good out.2

theorem Fine.after {bad : Value → Bool} {calm : Occurrence → Prop} {good : α → Prop}
    {before : List Occurrence} {out : Outcome α} (hbefore : ∀ occurrence ∈ before, calm occurrence)
    (h : Fine bad calm good out) : Fine bad calm good (out.after before) where
  calm occurrence hoccurrence :=
    (List.mem_append.mp hoccurrence).elim (hbefore occurrence) (h.calm occurrence)
  ends := h.ends

/-- The signals that nothing may hold, and the runs that count as upset, with what has to be known
of them for single steps. -/
structure Watch where
  bad : Value → Bool
  kind : SignalKind bad
  calm : Occurrence → Prop
  /-- The values that an undisturbed node may have. -/
  good : Use → Value → Prop
  /-- Upset runs, where a function says how their result holds an error. -/
  upset : {α : Type} → (Value → α) → Outcome α → Prop
  /-- Upset runs of nodes, and those that will be upset once their value is kept. -/
  loose : Use → Outcome Value → Prop
  calm_enters : ∀ {node frame machine}, machine.Clear bad → calm (.enters node frame machine)
  calm_shows : ∀ {event}, calm (.shows event)
  calm_binds : ∀ {frame name value}, value.Clear bad → calm (.binds frame name value)
  calm_keeps : ∀ {value}, value.Clear bad → calm (.keeps value)
  calm_gives : ∀ {value}, value.Clear bad → calm (.gives value)
  good_of_clear : ∀ {use value}, value.Clear bad → good use value
  clear_of_kept : ∀ {value}, good .kept value → value.Clear bad
  clear_unwrap : ∀ {use value}, good use value → value.unwrap.Clear bad
  upset_after : ∀ {α : Type} {failed : Value → α} {before : List Occurrence} {out : Outcome α},
    (∀ occurrence ∈ before, calm occurrence) → upset failed out →
      upset failed (out.after before)
  /-- A run stays upset if what follows hands an error on. -/
  upset_bind : ∀ {α β : Type} {failed : Value → α} {failed' : Value → β} {traced : Traced α}
    {go : α → Traced β} {machine : Machine},
    (∀ error : Value, error.isError = true → go (failed error) = pure (failed' error)) →
      upset failed (traced machine) → upset failed' ((traced >>= go) machine)
  loose_of_upset : ∀ {use out}, upset id out → loose use out
  upset_of_loose : ∀ {use out}, use ≠ .kept → loose use out → upset id out
  loose_after : ∀ {use : Use} {before : List Occurrence} {out : Outcome Value},
    (∀ occurrence ∈ before, calm occurrence) → loose use out → loose use (out.after before)
  /-- A block hands signals on. -/
  loose_block : ∀ {use : Use} {traced : Traced Value} {go : Value → Traced Value}
    {machine : Machine}, (∀ value : Value, value.isSignal = true → go value = pure value) →
      loose use (traced machine) → loose use ((traced >>= go) machine)
  upset_keep : ∀ {eval : Node → Traced Value} {node : Node} {machine : Machine},
    loose .kept (eval node machine) → upset id (keep eval node machine)
  /-- An error that is made either is nothing bad or upsets the run. -/
  makes : ∀ {occurrence : Occurrence} {error : Value} {machine : Machine},
    occurrence.made? = some (error, machine) → machine.Clear bad →
      Fine bad calm (Value.Clear bad) ([occurrence], .ok error machine) ∨
        upset id ([occurrence], .ok error machine)
  returns : ∀ {use : Use} {identity : Nat} {value : Value} {machine : Machine},
    value.Clear bad → machine.Clear bad →
      Fine bad calm (good use) ([.returns use], .ok (.returned identity value) machine) ∨
        loose use ([.returns use], .ok (.returned identity value) machine)

namespace Watch

variable {watch : Watch} {good : α → Prop} {good' : β → Prop} {up : Outcome α → Prop}
  {up' : Outcome β → Prop}

/-- On a clear machine the run is undisturbed or counts as upset. -/
def Guards (watch : Watch) (good : α → Prop) (up : Outcome α → Prop) (traced : Traced α) : Prop :=
  ∀ machine : Machine, machine.Clear watch.bad →
    Fine watch.bad watch.calm good (traced machine) ∨ up (traced machine)

/-- Calm occurrences before an upset run leave it upset. -/
def Closed (watch : Watch) (up : Outcome α → Prop) : Prop :=
  ∀ before out, (∀ occurrence ∈ before, watch.calm occurrence) → up out → up (out.after before)

theorem closed_upset (failed : Value → α) : watch.Closed (watch.upset failed) :=
  fun _ _ hbefore hup => watch.upset_after hbefore hup

theorem closed_loose (use : Use) : watch.Closed (watch.loose use) :=
  fun _ _ hbefore hup => watch.loose_after hbefore hup

def never (_ : Outcome α) : Prop :=
  False

theorem closed_never : watch.Closed (never : Outcome α → Prop) :=
  fun _ _ _ hup => hup

/-! ### Steps -/

theorem guards_pure {value : α} (h : good value) : watch.Guards good up (pure value) :=
  fun _ hclear => Or.inl ⟨fun _ hmem => absurd hmem List.not_mem_nil, h, hclear⟩

theorem guards_act {action : Action α} (h : Preserves watch.bad good action) :
    watch.Guards good up (act action) :=
  fun machine hclear => Or.inl ⟨fun _ hmem => absurd hmem List.not_mem_nil, h machine hclear⟩

theorem guards_note {up : Outcome Unit → Prop} {occurrence : Occurrence}
    (h : watch.calm occurrence) : watch.Guards (fun _ => True) up (note occurrence) := by
  intro machine hclear
  refine Or.inl ⟨?_, trivial, hclear⟩
  intro found hfound
  rw [List.mem_singleton.mp hfound]
  exact h

theorem guards_enter {up : Outcome Unit → Prop} (node : Node) (frame : FrameId) :
    watch.Guards (fun _ => True) up (enter node frame) := by
  intro machine hclear
  refine Or.inl ⟨?_, trivial, hclear⟩
  intro found hfound
  rw [List.mem_singleton.mp hfound]
  exact watch.calm_enters hclear

theorem Guards.mono {traced : Traced α} {good₁ good₂ : α → Prop} {up₁ up₂ : Outcome α → Prop}
    (h : watch.Guards good₁ up₁ traced) (hgood : ∀ value, good₁ value → good₂ value)
    (hup : ∀ out, up₁ out → up₂ out) : watch.Guards good₂ up₂ traced := by
  intro machine hclear
  rcases h machine hclear with hfine | hupset
  · exact Or.inl ⟨hfine.calm, hfine.ends.mono hgood⟩
  · exact Or.inr (hup _ hupset)

theorem Guards.bind {traced : Traced α} {go : α → Traced β} (h : watch.Guards good up traced)
    (hclosed : watch.Closed up')
    (hgo : ∀ value, good value → watch.Guards good' up' (go value))
    (hup : ∀ machine, up (traced machine) → up' ((traced >>= go) machine)) :
    watch.Guards good' up' (traced >>= go) := by
  intro machine hclear
  rcases h machine hclear with hfine | hupset
  · obtain ⟨hcalm, hends⟩ := hfine
    show Fine watch.bad watch.calm good' ((traced >>= go) machine) ∨ up' ((traced >>= go) machine)
    cases hrun : traced machine with
    | mk trace result =>
        rw [hrun] at hcalm hends
        cases result with
        | ok value after =>
            have hbind : (traced >>= go) machine = (go value after).after trace := by
              simp only [Bind.bind, hrun, Outcome.after]
            rw [hbind]
            exact (hgo value hends.1 after hends.2).imp (Fine.after hcalm) (hclosed trace _ hcalm)
        | error fault after =>
            have hbind : (traced >>= go) machine = (trace, .error fault after) := by
              simp only [Bind.bind, hrun]
            rw [hbind]
            exact Or.inl ⟨hcalm, hends⟩
  · exact Or.inr (hup machine hupset)

/-- What is never upset goes before anything. -/
theorem Guards.andThen {traced : Traced α} {go : α → Traced β}
    (h : watch.Guards good never traced) (hclosed : watch.Closed up')
    (hgo : ∀ value, good value → watch.Guards good' up' (go value)) :
    watch.Guards good' up' (traced >>= go) :=
  h.bind hclosed hgo fun _ hnever => hnever.elim

/-- An error that upset a run goes through whatever hands errors on. -/
theorem Guards.through {failed : Value → α} {failed' : Value → β} {traced : Traced α}
    {go : α → Traced β} (h : watch.Guards good (watch.upset failed) traced)
    (hgo : ∀ value, good value → watch.Guards good' (watch.upset failed') (go value))
    (hfailed : ∀ error : Value, error.isError = true → go (failed error) = pure (failed' error)) :
    watch.Guards good' (watch.upset failed') (traced >>= go) :=
  h.bind (closed_upset failed') hgo fun _ hupset => watch.upset_bind hfailed hupset

/-! ### Nodes -/

/-- A node whose value is wanted for a use. -/
def Hands (watch : Watch) (use : Use) (traced : Traced Value) : Prop :=
  watch.Guards (watch.good use) (watch.loose use) traced

/-- A step that gives a clear value or is upset. -/
def Gives (watch : Watch) (traced : Traced Value) : Prop :=
  watch.Guards (Value.Clear watch.bad) (watch.upset id) traced

theorem Gives.hands {traced : Traced Value} (h : watch.Gives traced) (use : Use) :
    watch.Hands use traced :=
  h.mono (fun _ hclear => watch.good_of_clear hclear) fun _ hupset => watch.loose_of_upset hupset

theorem hands_pure {use : Use} {value : Value} (hparts : value.parts = [value])
    (hsignal : value.isSignal = false) : watch.Hands use (pure value) :=
  guards_pure (watch.good_of_clear (watch.kind.clear hparts hsignal))

theorem Hands.guards {use : Use} {traced : Traced Value} (h : watch.Hands use traced)
    (huse : use ≠ .kept) : watch.Guards (watch.good use) (watch.upset id) traced :=
  h.mono (fun _ hgood => hgood) fun _ hloose => watch.upset_of_loose huse hloose

theorem gives_record {occurrence : Value → Occurrence} {value : Value}
    (h : value.Clear watch.bad) (hcalm : watch.calm (occurrence value)) :
    watch.Gives (record occurrence value) := by
  unfold record
  split
  · exact guards_pure h
  · exact (guards_note hcalm).andThen (closed_upset id) fun _ _ => guards_pure h

theorem Hands.keep {eval : Node → Traced Value} {node : Node}
    (h : watch.Hands .kept (eval node)) : watch.Gives (keep eval node) := by
  refine h.bind (closed_upset id) ?_ fun _ hloose => watch.upset_keep hloose
  intro value hgood
  have hclear := watch.clear_of_kept hgood
  exact gives_record hclear (watch.calm_keeps hclear)

/-- An operand, a condition or a callee: what comes behind is only run when it is no error. -/
theorem Guards.unlessError {p : Value → Prop} {use : Use} {traced : Traced Value}
    {go : Value → Traced Value} (h : watch.Guards p (watch.upset id) traced)
    (hp : ∀ value, p value → value.unwrap.Clear watch.bad)
    (hgo : ∀ value, p value → watch.Hands use (go value)) :
    watch.Hands use (traced >>= fun value => Monkey.unlessError value go) := by
  apply h.bind (closed_loose use)
  · intro value hvalue
    by_cases herror : value.isError = true
    · rw [Monkey.unlessError, if_pos herror]
      exact guards_pure (watch.good_of_clear ((hp value hvalue).of_unwrap herror))
    · rw [Monkey.unlessError, if_neg herror]
      exact hgo value hvalue
  · intro machine hupset
    apply watch.loose_of_upset
    apply watch.upset_bind _ hupset
    intro error herror
    rw [Monkey.unlessError, id_eq, if_pos herror]

theorem Gives.unlessError {use : Use} {traced : Traced Value} {go : Value → Traced Value}
    (h : watch.Gives traced) (hgo : ∀ value, value.Clear watch.bad → watch.Hands use (go value)) :
    watch.Hands use (traced >>= fun value => Monkey.unlessError value go) :=
  Guards.unlessError h (fun _ hclear => hclear.unwrap) hgo

theorem gives_raise (node : Node) {result : Except Problem Value}
    (h : ∀ value, result = .ok value → value.Clear watch.bad) :
    watch.Gives (raise node result) := by
  cases result with
  | ok value => exact guards_pure (h value rfl)
  | error problem =>
      intro machine hclear
      exact watch.makes rfl hclear

/-! ### Lists of nodes -/

/-- An error, or something of a kind. -/
def Either (bad : Value → Bool) (good : α → Prop) : Except Value α → Prop
  | .error error => error.Clear bad
  | .ok value => good value

theorem guards_evalAll {eval : Node → Traced Value} {nodes : List Node}
    (h : ∀ node, watch.Gives (eval node)) :
    watch.Guards (Either watch.bad fun values : List Value =>
        ∀ value ∈ values, value.Clear watch.bad)
      (watch.upset .error) (evalAll eval nodes) := by
  induction nodes with
  | nil => exact guards_pure fun _ hmem => absurd hmem List.not_mem_nil
  | cons node rest ih =>
      apply Guards.through (h node)
      · intro value hclear
        by_cases herror : value.isError = true
        · rw [if_pos herror]
          exact guards_pure hclear
        · rw [if_neg herror]
          refine Guards.through ih ?_ fun error _ => rfl
          intro result hresult
          apply guards_pure
          cases result with
          | error error => exact hresult
          | ok values =>
              intro found hfound
              rcases List.mem_cons.mp hfound with rfl | hfound
              · exact hclear
              · exact hresult found hfound
      · intro error herror
        rw [id_eq, if_pos herror]

theorem hands_runBlock {use : Use} {eval : Node → Traced Value}
    (h : ∀ node, watch.Hands use (eval node)) {last : Value} (hlast : watch.good use last)
    (nodes : List Node) : watch.Hands use (runBlock eval last nodes) := by
  induction nodes generalizing last with
  | nil => exact guards_pure hlast
  | cons node rest ih =>
      refine Guards.bind (h node) (closed_loose use) ?_ fun _ hloose =>
        watch.loose_block ?_ hloose
      · intro value hgood
        by_cases hsignal : value.isSignal = true
        · rw [if_pos hsignal]
          exact guards_pure hgood
        · rw [if_neg hsignal]
          exact ih hgood
      · intro value hsignal
        rw [if_pos hsignal]

theorem guards_tracePairs (eval : Use → Node → Traced Value)
    (htested : ∀ node, watch.Hands .tested (eval .tested node))
    (hkept : ∀ node, watch.Hands .kept (eval .kept node)) {entries : List (Key × Value)}
    (hentries : ∀ entry ∈ entries, entry.2.Clear watch.bad) (pairs : List (Node × Node)) :
    watch.Guards (Either watch.bad fun entries : List (Key × Value) =>
        ∀ entry ∈ entries, entry.2.Clear watch.bad)
      (watch.upset .error) (tracePairs eval entries pairs) := by
  induction pairs generalizing entries with
  | nil => exact guards_pure hentries
  | cons pair rest ih =>
      obtain ⟨keyNode, valueNode⟩ := pair
      apply Guards.through ((htested keyNode).guards (by decide))
      · intro keyValue hgood
        by_cases herror : keyValue.isError = true
        · rw [if_pos herror]
          exact guards_pure ((watch.clear_unwrap hgood).of_unwrap herror)
        · rw [if_neg herror]
          cases keyValue.key? with
          | none =>
              refine Guards.through (gives_raise keyNode ?_) ?_ fun error _ => rfl
              · intro value hvalue
                cases hvalue
              · intro error hclear
                exact guards_pure hclear
          | some key =>
              have hkey := watch.calm_keeps (watch.kind.foreign.clear_key key)
              apply (guards_note hkey).andThen (closed_upset _)
              intro _ _
              refine Guards.through (Hands.keep (hkept valueNode)) ?_ ?_
              · intro value hclear
                by_cases herror : value.isError = true
                · rw [if_pos herror]
                  exact guards_pure hclear
                · rw [if_neg herror]
                  exact ih (clear_insertEntry hclear hentries)
              · intro error herror
                rw [id_eq, if_pos herror]
      · intro error herror
        rw [id_eq, if_pos herror]

/-! ### Calls and names -/

theorem guards_bindName (frame : FrameId) (name : Label) {value : Value}
    (h : value.Clear watch.bad) :
    watch.Guards (fun _ => True) never (Traced.bindName frame name value) :=
  (guards_note (watch.calm_binds h)).andThen closed_never fun _ _ =>
    guards_act (preserves_bindName frame name h)

theorem guards_emit (event : Event) :
    watch.Guards (fun _ => True) never (Traced.emit event) :=
  (guards_note watch.calm_shows).andThen closed_never fun _ _ =>
    guards_act (preserves_emit event)

theorem guards_traceParameters (frame : FrameId) {pairs : List (Node × Value)}
    (h : ∀ pair ∈ pairs, pair.2.Clear watch.bad) :
    watch.Guards (fun _ => True) never (traceParameters frame pairs) := by
  induction pairs with
  | nil => exact guards_pure trivial
  | cons pair rest ih =>
      obtain ⟨parameter, value⟩ := pair
      apply (guards_act (preserves_ofExcept _)).andThen closed_never
      intro label _
      have hvalue : value.Clear watch.bad := h _ List.mem_cons_self
      apply (guards_bindName frame label hvalue).andThen closed_never
      intro _ _
      exact ih fun pair hpair => h pair (List.mem_cons_of_mem _ hpair)

theorem guards_builtinTrace (builtin : Builtin) {arguments : List Value}
    (h : ∀ value ∈ arguments, value.Clear watch.bad) :
    watch.Guards (Granted watch.bad) never (builtin.trace arguments) := by
  have hrun := preserves_run watch.kind.foreign builtin h
  unfold Builtin.trace
  split
  · exact (guards_note watch.calm_shows).andThen closed_never fun _ _ => guards_act hrun
  · exact guards_act hrun

theorem gives_traceApply {eval : Node → FrameId → Traced Value}
    (h : ∀ body frame, watch.Hands .passed (eval body frame)) (token : Option Token)
    (callee : Node) (arguments : List Node) (function : Value) {values : List Value}
    (hvalues : ∀ value ∈ values, value.Clear watch.bad) :
    watch.Gives (traceApply eval token callee arguments function values) := by
  have hraise (problem : Problem) :
      watch.Gives (raise (.call token callee arguments) (.error problem)) :=
    gives_raise _ fun value hvalue => by cases hvalue
  cases function with
  | builtin builtin =>
      apply (guards_builtinTrace builtin hvalues).andThen (closed_upset id)
      intro result hresult
      cases result with
      | ok value =>
          have hlocate := preserves_locateError watch.kind.foreign.shallow token (hresult value rfl)
          exact guards_act hlocate
      | error problem =>
          intro machine hclear
          exact watch.makes rfl hclear
  | function identity parameters body outer =>
      simp only [traceApply]
      split
      · exact hraise _
      · apply (guards_act (preserves_openFrame _)).andThen (closed_upset id)
        intro frame _
        have hpairs : ∀ pair ∈ parameters.zip values, pair.2.Clear watch.bad := fun pair hpair =>
          hvalues pair.2 (List.of_mem_zip hpair).2
        apply (guards_traceParameters frame hpairs).andThen (closed_upset id)
        intro _ _
        apply Guards.through ((h body frame).guards (by decide))
        · intro value hgood
          exact guards_pure (watch.clear_unwrap hgood)
        · intro error herror
          cases error with
          | error => rfl
          | _ => cases herror
  | _ => exact hraise _

theorem gives_traceLet (frame : FrameId) (name : Node) {value : Value}
    (h : value.Clear watch.bad) : watch.Gives (traceLet frame name value) := by
  apply (guards_act (preserves_ofExcept _)).andThen (closed_upset id)
  intro label _
  have hbind : watch.Gives (Traced.bindName frame label value >>= fun _ => pure .nil) :=
    (guards_bindName frame label h).andThen (closed_upset id) fun _ _ =>
      guards_pure (watch.kind.clear rfl rfl)
  cases label with
  | name text =>
      simp only
      split
      · exact (guards_emit _).andThen (closed_upset id) fun _ _ => hbind
      · exact hbind
  | _ => exact hbind

theorem gives_traceName (frame : FrameId) (token : Option Token) (name : String) :
    watch.Gives (traceName frame token name) := by
  unfold traceName
  cases Builtin.ofName? name with
  | some builtin => exact guards_pure (watch.kind.clear rfl rfl)
  | none =>
      apply (guards_act (preserves_lookup frame _)).andThen (closed_upset id)
      intro found hfound
      cases found with
      | some value => exact guards_pure (hfound value rfl)
      | none => exact gives_raise _ fun value hvalue => by cases hvalue

end Watch

/-! ### Runs -/

open Watch

/-- Every run on a clear machine is undisturbed or counts as upset. -/
theorem Watch.hands_trace (watch : Watch) (depth : Nat) (use : Use) (node : Node)
    (frame : FrameId) : watch.Hands use (node.trace depth use frame) := by
  induction depth generalizing use node frame with
  | zero => exact guards_act (preserves_throw .tooDeep)
  | succ depth ih =>
      unfold Node.trace
      apply (guards_enter node frame).andThen (closed_loose use)
      intro _ _
      have hkeep (node : Node) :
          watch.Gives (keep (fun node => node.trace depth .kept frame) node) :=
        Hands.keep (ih .kept node frame)
      cases node with
      | missing | int | string | bool => exact hands_pure rfl rfl
      | text | flag => exact guards_act (preserves_throw _)
      | program statements =>
          have hnil : watch.good .passed .nil := watch.good_of_clear (watch.kind.clear rfl rfl)
          have hblock := hands_runBlock (fun node => ih .passed node frame) hnil statements
          refine Gives.hands (Guards.through (hblock.guards (by decide)) ?_ ?_) use
          · intro value hgood
            exact guards_pure ((watch.clear_unwrap hgood).shown watch.kind.foreign.shallow)
          · intro error herror
            cases error with
            | error => rfl
            | _ => cases herror
      | exprStmt token expression => exact ih use expression frame
      | letStmt token name value =>
          apply (hkeep value).unlessError
          intro value hclear
          exact (gives_traceLet frame name hclear).hands use
      | returnStmt token value =>
          apply (hkeep value).unlessError
          intro value hclear machine hmachine
          exact watch.returns hclear hmachine
      | block token statements =>
          exact hands_runBlock (fun node => ih use node frame)
            (watch.good_of_clear (watch.kind.clear rfl rfl)) statements
      | ident token name => exact (gives_traceName frame token name).hands use
      | prefixOp token operator right =>
          apply (hkeep right).unlessError
          intro right _
          exact (gives_raise _ fun value hvalue => watch.kind.foreign.clear_prefix hvalue).hands use
      | infixOp token left operator right =>
          apply (hkeep left).unlessError
          intro left _
          apply (hkeep right).unlessError
          intro right _
          exact (gives_raise _ fun value hvalue => watch.kind.foreign.clear_infix hvalue).hands use
      | ifElse token condition consequence alternative =>
          have hcondition := (ih .tested condition frame).guards (by decide)
          apply hcondition.unlessError fun _ => watch.clear_unwrap
          intro value _
          split
          · exact ih use consequence frame
          · exact ih use alternative frame
      | function token parameters body =>
          apply (guards_act preserves_newIdentity).andThen (closed_loose use)
          intro _ _
          exact hands_pure rfl rfl
      | call token callee arguments =>
          have hcallee := (ih .tested callee frame).guards (by decide)
          apply hcallee.unlessError fun _ => watch.clear_unwrap
          intro function _
          refine Gives.hands (Guards.through (guards_evalAll hkeep) ?_ ?_) use
          · intro result hresult
            cases result with
            | error error => exact guards_pure hresult
            | ok values =>
                have happly := gives_traceApply (fun body frame => ih .passed body frame) token
                  callee arguments function hresult
                apply happly.through
                · intro value hclear
                  exact gives_record hclear (watch.calm_gives hclear)
                · intro error herror
                  rw [id_eq, record, if_pos herror]
          · intro error _
            rfl
      | array token elements =>
          refine Gives.hands (Guards.through (guards_evalAll hkeep) ?_ fun _ _ => rfl) use
          intro result hresult
          cases result with
          | error error => exact guards_pure hresult
          | ok values => exact guards_act (preserves_newArray watch.kind.foreign.shallow hresult)
      | index token left position =>
          apply (hkeep left).unlessError
          intro left hleft
          apply (hkeep position).unlessError
          intro position _
          apply Gives.hands
          exact gives_raise _ fun value hvalue =>
            watch.kind.foreign.shallow.clear_index hleft hvalue
      | hash token pairs =>
          have hpairs := guards_tracePairs (fun use node => node.trace depth use frame)
            (fun node => ih .tested node frame) (fun node => ih .kept node frame)
            (fun _ hmem => absurd hmem List.not_mem_nil) pairs
          refine Gives.hands (Guards.through hpairs ?_ fun _ _ => rfl) use
          intro result hresult
          cases result with
          | error error => exact guards_pure hresult
          | ok entries =>
              apply (guards_act preserves_newIdentity).andThen (closed_upset id)
              intro _ _
              exact guards_pure (watch.kind.foreign.clear_hash hresult)

end Monkey
