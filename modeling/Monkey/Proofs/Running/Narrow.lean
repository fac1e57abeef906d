/-
Integers of 64 bits.  Wherever integers are made they are brought into range, so none that does
not fit is ever held by anything: not by what is bound, kept or given, nor by the value of any node
that is entered.  The one integer that is not wrapped is a size, and so sizes have to stay below
2 ^ 63.
-/
import Monkey.Proofs.Parsing.WellFormed
import Monkey.Proofs.Running.Arithmetic
import Monkey.Proofs.Running.Watch

namespace Monkey

open Traced

variable {α β : Type}

/-- The integer does not fit into 64 bits with a sign. -/
def isWide (value : Int) : Bool :=
  decide (value < -2 ^ 63) || decide (2 ^ 63 ≤ value)

theorem isWide_eq_false {value : Int} :
    isWide value = false ↔ -2 ^ 63 ≤ value ∧ value < 2 ^ 63 := by
  simp only [isWide, Bool.or_eq_false_iff, decide_eq_false_iff_not]
  omega

def Key.isWide : Key → Bool
  | .int value => Monkey.isWide value
  | _ => false

/-- A literal that does not fit. -/
def Node.isWide : Node → Bool
  | .int _ value => Monkey.isWide value
  | _ => false

/-- An integer that does not fit, a hash with such a key, or a function with such a literal in its
code. -/
def Value.isWide : Value → Bool
  | .int value => Monkey.isWide value
  | .hash _ entries => (entries.map Prod.fst).any Key.isWide
  | .function _ _ body _ => body.parts.any Node.isWide
  | _ => false

/-- No literal in the node is too wide. -/
def Node.Narrow (node : Node) : Prop :=
  node.Everywhere fun part => part.isWide = false

theorem shallow_isWide : Shallow Value.isWide where
  plain value hplain := by cases value <;> first | rfl | cases hplain
  hash _ _ _ hkeys := by rw [Value.isWide, Value.isWide, hkeys]
  error _ _ _ _ := rfl
  returned _ _ _ := rfl

theorem narrow_problem (problem : Problem) (token : Option Token) :
    (problem.error token).Clear Value.isWide :=
  clear_of_parts rfl rfl

theorem narrow_hash {identity : Nat} {entries : List (Key × Value)}
    (h : ∀ entry ∈ entries, entry.1.isWide = false ∧ entry.2.Clear Value.isWide) :
    (Value.hash identity entries).Clear Value.isWide := by
  apply clear_hash
  · rw [Value.isWide, List.any_eq_false]
    intro key hkey
    obtain ⟨entry, hentry, rfl⟩ := List.mem_map.mp hkey
    simp [(h entry hentry).1]
  · exact fun entry hentry => (h entry hentry).2

theorem narrow_key {value : Value} {key : Key} (h : value.Clear Value.isWide)
    (hkey : value.key? = some key) : key.isWide = false := by
  have hself := h.self
  rw [Value.key?_eq_some.mp hkey] at hself
  cases key with
  | int value => exact hself
  | _ => rfl

theorem clear_function_isWide {identity : Nat} {parameters : List Node} {body : Node}
    {frame : FrameId} :
    (Value.function identity parameters body frame).Clear Value.isWide ↔ body.Narrow := by
  simp [Value.Clear, Value.parts, Value.isWide, Node.Narrow, Node.Everywhere]

/-! ### Operations -/

theorem narrow_int {value : Int} (h : isWide value = false) :
    (Value.int value).Clear Value.isWide :=
  clear_of_parts rfl h

theorem narrow_wrap (value : Int) : (Value.int (wrap value)).Clear Value.isWide :=
  narrow_int (isWide_eq_false.mpr (wrap_bounds value))

/-- A power is wrapped, or one of the few numbers that negative exponents give. -/
theorem narrow_power {base exponent power : Int} (h : power? base exponent = some power) :
    (Value.int power).Clear Value.isWide := by
  unfold power? at h
  split at h
  · rw [← Option.some.inj h]
    exact narrow_wrap _
  · apply narrow_int
    split at h
    · cases h
    · split at h
      · rw [← Option.some.inj h]
        decide
      · split at h
        · rw [← Option.some.inj h]
          split <;> decide
        · rw [← Option.some.inj h]
          decide

theorem narrow_intInfix {operator : String} {left right : Int} {value : Value}
    (h : applyIntInfix operator left right = .ok value) : value.Clear Value.isWide := by
  unfold applyIntInfix at h
  split at h
  case h_4 =>
    split at h <;> cases h
    exact narrow_wrap _
  case h_5 =>
    split at h <;> cases h
    next hpower => exact narrow_power hpower
  case h_10 => cases h
  all_goals
    cases h
    first
      | exact narrow_wrap _
      | exact shallow_isWide.clear rfl rfl

theorem narrow_prefix {operator : String} {right value : Value}
    (h : applyPrefix operator right = .ok value) : value.Clear Value.isWide := by
  unfold applyPrefix at h
  split at h <;> cases h
  · exact narrow_wrap _
  · exact shallow_isWide.clear rfl rfl

theorem narrow_infix {operator : String} {left right value : Value}
    (h : applyInfix operator left right = .ok value) : value.Clear Value.isWide := by
  unfold applyInfix at h
  split at h
  · exact narrow_intInfix h
  · split at h <;> cases h
    exact shallow_isWide.clear rfl rfl
  · split at h
    · cases h
      exact shallow_isWide.clear rfl rfl
    · split at h
      · cases h
        exact shallow_isWide.clear rfl rfl
      · split at h <;> cases h
        · exact shallow_isWide.clear rfl rfl
        · exact shallow_isWide.clear rfl rfl

/-! ### Runs within runs -/

/-- The run is part of a larger one: what occurs in it occurs there in one piece, and a fault that
stops it stops the larger one. -/
def Outcome.PartOf (out : Outcome α) (whole : Outcome β) : Prop :=
  ∃ before behind, whole.1 = before ++ out.1 ++ behind ∧
    ∀ fault after, out.2 = .error fault after → behind = [] ∧ whole.2 = .error fault after

theorem Outcome.PartOf.refl (out : Outcome α) : out.PartOf out :=
  ⟨[], [], by simp, fun _ _ hfault => ⟨rfl, hfault⟩⟩

theorem Outcome.PartOf.after {out : Outcome α} {whole : Outcome β} (h : out.PartOf whole)
    (earlier : List Occurrence) : out.PartOf (whole.after earlier) := by
  obtain ⟨before, behind, htrace, hfault⟩ := h
  exact ⟨earlier ++ before, behind, by simp [Outcome.after, htrace], hfault⟩

/-- A run that has come to a value can be followed by anything. -/
theorem Outcome.PartOf.followed {γ : Type} {out : Outcome α} {trace : List Occurrence} {value : β}
    {after : Machine} (h : out.PartOf ((trace, .ok value after) : Outcome β))
    (rest : Outcome γ) : out.PartOf (rest.after trace) := by
  obtain ⟨before, behind, rfl, hfault⟩ := h
  refine ⟨before, behind ++ rest.1, by simp [Outcome.after], fun fault after hstop => ?_⟩
  cases (hfault fault after hstop).2

theorem Outcome.PartOf.stopped {γ : Type} {out : Outcome α} {trace : List Occurrence}
    {fault : Fault} {after : Machine} (h : out.PartOf ((trace, .error fault after) : Outcome β)) :
    out.PartOf ((trace, .error fault after) : Outcome γ) := by
  obtain ⟨before, behind, htrace, hfault⟩ := h
  refine ⟨before, behind, htrace, fun fault' after' hstop => ?_⟩
  obtain ⟨hbehind, hsame⟩ := hfault fault' after' hstop
  cases hsame
  exact ⟨hbehind, rfl⟩

/-! ### Narrow runs -/

/-- No string or array is kept that has 2 ^ 63 parts. -/
def Occurrence.isShort : Occurrence → Bool
  | .keeps value => decide (value.size < 2 ^ 63)
  | _ => true

def Short (trace : List Occurrence) : Prop :=
  ∀ occurrence ∈ trace, occurrence.isShort = true

instance (trace : List Occurrence) : Decidable (Short trace) :=
  inferInstanceAs (Decidable (∀ occurrence ∈ trace, occurrence.isShort = true))

/-- The node is entered in the run and comes to a value that holds no wide integer, unless the run
is stopped before that. -/
def Outcome.ValuesNarrow (out : Outcome α) : Prop :=
  ∀ node frame machine, .enters node frame machine ∈ out.1 →
    ∃ depth use, (node.trace depth use frame machine).PartOf out ∧
      ∀ value after, node.eval depth frame machine = .ok value after →
        value.Clear Value.isWide

/-- Nothing holds a wide integer at any point, and no node comes to one. -/
structure NarrowRun (good : α → Prop) (out : Outcome α) : Prop where
  fine : Fine Value.isWide (Occurrence.Clear Value.isWide) good out
  values : out.ValuesNarrow

/-- On a machine without wide integers the run is narrow if all sizes are small. -/
def Bounded (good : α → Prop) (traced : Traced α) : Prop :=
  ∀ machine : Machine, machine.Clear Value.isWide → Short (traced machine).1 →
    NarrowRun good (traced machine)

section Steps

variable {good : α → Prop} {good' : β → Prop}

theorem bounded_silent {traced : Traced α} (h : ∀ machine, (traced machine).1 = [])
    (hends : ∀ machine : Machine, machine.Clear Value.isWide →
      Ends Value.isWide good (traced machine).2) : Bounded good traced := by
  intro machine hclear _
  refine ⟨⟨?_, hends machine hclear⟩, ?_⟩
  · rw [h machine]
    exact List.forall_mem_nil _
  · intro node frame entered hmem
    rw [h machine] at hmem
    cases hmem

theorem bounded_pure {value : α} (h : good value) : Bounded good (pure value) :=
  bounded_silent (fun _ => rfl) fun _ hclear => ⟨h, hclear⟩

theorem bounded_act {action : Action α} (h : Preserves Value.isWide good action) :
    Bounded good (act action) :=
  bounded_silent (fun _ => rfl) h

/-- Something occurs that is no entering of a node. -/
theorem narrowRun_single {occurrence : Occurrence} {value : α} {machine : Machine}
    (h : occurrence.Clear Value.isWide) (hentry : occurrence.isEntry = false)
    (hvalue : good value) (hclear : machine.Clear Value.isWide) :
    NarrowRun good ([occurrence], .ok value machine) := by
  refine ⟨⟨List.forall_mem_singleton.mpr h, hvalue, hclear⟩, ?_⟩
  intro node frame machine hmem
  rw [← List.mem_singleton.mp hmem] at hentry
  cases hentry

theorem bounded_note (occurrence : Occurrence) (h : occurrence.Clear Value.isWide)
    (hentry : occurrence.isEntry = false) : Bounded (fun _ => True) (note occurrence) :=
  fun _ hclear _ => narrowRun_single h hentry trivial hclear

theorem Bounded.bind {traced : Traced α} {go : α → Traced β} (h : Bounded good traced)
    (hgo : ∀ value, good value → Bounded good' (go value)) :
    Bounded good' (traced >>= go) := by
  intro machine hclear hshort
  have hfirst := h machine hclear
  cases hrun : traced machine with
  | mk trace result =>
      rw [hrun] at hfirst
      cases result with
      | ok value after =>
          have hbind : (traced >>= go) machine = (go value after).after trace := by
            simp only [Bind.bind, hrun, Outcome.after]
          rw [hbind] at hshort ⊢
          obtain ⟨⟨hcalm, hvalue, hafter⟩, hvalues⟩ := hfirst fun occurrence hmem =>
            hshort occurrence (List.mem_append_left _ hmem)
          have hrest := hgo value hvalue after hafter fun occurrence hmem =>
            hshort occurrence (List.mem_append_right _ hmem)
          refine ⟨hrest.fine.after hcalm, fun node frame entered hmem => ?_⟩
          rcases List.mem_append.mp hmem with hmem | hmem
          · obtain ⟨depth, use, hpart, hnarrow⟩ := hvalues node frame entered hmem
            exact ⟨depth, use, hpart.followed _, hnarrow⟩
          · obtain ⟨depth, use, hpart, hnarrow⟩ := hrest.values node frame entered hmem
            exact ⟨depth, use, hpart.after _, hnarrow⟩
      | error fault after =>
          have hbind : (traced >>= go) machine = (trace, .error fault after) := by
            simp only [Bind.bind, hrun]
          rw [hbind] at hshort ⊢
          obtain ⟨⟨hcalm, hafter⟩, hvalues⟩ := hfirst hshort
          refine ⟨⟨hcalm, hafter⟩, fun node frame entered hmem => ?_⟩
          obtain ⟨depth, use, hpart, hnarrow⟩ := hvalues node frame entered hmem
          exact ⟨depth, use, hpart.stopped, hnarrow⟩

end Steps

/-! ### Nodes -/

/-- The run is narrow and gives a value that holds no wide integer. -/
abbrev YieldsNarrow (traced : Traced Value) : Prop :=
  Bounded (Value.Clear Value.isWide) traced

theorem narrow_plain {value : Value} (hparts : value.parts = [value])
    (hplain : value.isPlain = true) : YieldsNarrow (pure value) :=
  bounded_pure (shallow_isWide.clear hparts hplain)

/-- The node that is entered is the whole run itself. -/
theorem YieldsNarrow.entering {depth : Nat} {use : Use} {node : Node} {frame : FrameId}
    {traced : Traced Value}
    (htrace : node.trace depth use frame = enter node frame >>= fun _ => traced)
    (h : YieldsNarrow traced) : YieldsNarrow (node.trace depth use frame) := by
  intro machine hclear hshort
  have hout : node.trace depth use frame machine =
      (traced machine).after [.enters node frame machine] := by rw [htrace]; rfl
  have hrest := h machine hclear fun occurrence hmem =>
    hshort occurrence (by rw [hout]; exact List.mem_append_right _ hmem)
  have hfine : Fine Value.isWide (·.Clear Value.isWide) _
      ((traced machine).after [.enters node frame machine]) :=
    hrest.fine.after (List.forall_mem_singleton.mpr hclear)
  rw [← hout] at hfine
  refine ⟨hfine, fun entered inside mid hmem => ?_⟩
  rw [hout] at hmem
  rcases List.mem_append.mp hmem with hmem | hmem
  · cases List.mem_singleton.mp hmem
    refine ⟨depth, use, .refl _, fun value after hvalue => ?_⟩
    have hends := hfine.ends
    rw [Node.trace_result, hvalue] at hends
    exact hends.1
  · obtain ⟨depth', use', hpart, hnarrow⟩ := hrest.values entered inside mid hmem
    rw [hout]
    exact ⟨depth', use', hpart.after _, hnarrow⟩

theorem narrow_raise (node : Node) {result : Except Problem Value}
    (h : ∀ value, result = .ok value → value.Clear Value.isWide) :
    YieldsNarrow (raise node result) := by
  cases result with
  | ok value => exact bounded_pure (h value rfl)
  | error problem =>
      exact fun _ hclear _ => narrowRun_single trivial rfl (narrow_problem problem _) hclear

theorem narrow_raise_error (node : Node) (problem : Problem) :
    YieldsNarrow (raise node (.error problem)) :=
  narrow_raise node fun _ hvalue => by cases hvalue

/-- What is kept is small. -/
def Value.Kept (value : Value) : Prop :=
  value.Clear Value.isWide ∧ value.size < 2 ^ 63

theorem Value.size_of_isError {value : Value} (h : value.isError = true) : value.size = 0 := by
  cases value <;> first | rfl | cases h

theorem bounded_keep {eval : Node → Traced Value} {node : Node} (h : YieldsNarrow (eval node)) :
    Bounded Value.Kept (keep eval node) := by
  apply h.bind
  intro value hvalue
  unfold record
  split
  · next herror =>
    exact bounded_pure ⟨hvalue, by rw [Value.size_of_isError herror]; decide⟩
  · intro machine hclear hshort
    have hsize := of_decide_eq_true (hshort (.keeps value) List.mem_cons_self)
    exact narrowRun_single hvalue rfl ⟨hvalue, hsize⟩ hclear

theorem narrow_record {occurrence : Value → Occurrence} {value : Value}
    (h : value.Clear Value.isWide) (hoccurrence : (occurrence value).Clear Value.isWide)
    (hentry : (occurrence value).isEntry = false) : YieldsNarrow (record occurrence value) := by
  unfold record
  split
  · exact bounded_pure h
  · exact (bounded_note _ hoccurrence hentry).bind fun _ _ => bounded_pure h

theorem narrow_unlessError {good : Value → Prop} {traced : Traced Value}
    {go : Value → Traced Value} (h : Bounded good traced)
    (hgood : ∀ value, good value → value.Clear Value.isWide)
    (hgo : ∀ value, value.Clear Value.isWide → YieldsNarrow (go value)) :
    YieldsNarrow (traced >>= fun value => unlessError value go) := by
  apply h.bind
  intro value hvalue
  unfold unlessError
  split
  · exact bounded_pure (hgood value hvalue)
  · exact hgo value (hgood value hvalue)

theorem bounded_evalAll {eval : Node → Traced Value} {nodes : List Node}
    (h : ∀ node ∈ nodes, Bounded Value.Kept (eval node)) :
    Bounded (Watch.Either Value.isWide fun values : List Value =>
      ∀ value ∈ values, value.Kept) (evalAll eval nodes) := by
  induction nodes with
  | nil => exact bounded_pure (List.forall_mem_nil _)
  | cons node rest ih =>
      obtain ⟨hnode, hrest⟩ := List.forall_mem_cons.mp h
      apply hnode.bind
      intro value hvalue
      split
      · exact bounded_pure hvalue.1
      · apply (ih hrest).bind
        intro result hresult
        apply bounded_pure
        cases result with
        | error error => exact hresult
        | ok values => exact List.forall_mem_cons.mpr ⟨hvalue, hresult⟩

theorem narrow_runBlock {eval : Node → Traced Value} {nodes : List Node}
    (h : ∀ node ∈ nodes, YieldsNarrow (eval node)) {last : Value}
    (hlast : last.Clear Value.isWide) : YieldsNarrow (runBlock eval last nodes) := by
  induction nodes generalizing last with
  | nil => exact bounded_pure hlast
  | cons node rest ih =>
      obtain ⟨hnode, hrest⟩ := List.forall_mem_cons.mp h
      apply hnode.bind
      intro value hvalue
      split
      · exact bounded_pure hvalue
      · exact ih hrest hvalue

theorem bounded_tracePairs (eval : Use → Node → Traced Value) {pairs : List (Node × Node)}
    (h : ∀ pair ∈ pairs, ∀ use, YieldsNarrow (eval use pair.1) ∧ YieldsNarrow (eval use pair.2))
    {entries : List (Key × Value)}
    (hentries : ∀ entry ∈ entries, entry.1.isWide = false ∧ entry.2.Clear Value.isWide) :
    Bounded (Watch.Either Value.isWide fun entries : List (Key × Value) =>
        ∀ entry ∈ entries, entry.1.isWide = false ∧ entry.2.Clear Value.isWide)
      (tracePairs eval entries pairs) := by
  induction pairs generalizing entries with
  | nil => exact bounded_pure hentries
  | cons pair rest ih =>
      obtain ⟨hpair, hrest⟩ := List.forall_mem_cons.mp h
      apply (hpair .tested).1.bind
      intro keyValue hkeyValue
      split
      · exact bounded_pure hkeyValue
      · cases hkey : keyValue.key? with
        | none =>
            exact (narrow_raise_error pair.1 _).bind fun _ herror => bounded_pure herror
        | some key =>
            have hkept : key.value.Clear Value.isWide := Value.key?_eq_some.mp hkey ▸ hkeyValue
            apply (bounded_note (.keeps key.value) hkept rfl).bind
            intro _ _
            apply (bounded_keep (hpair .kept).2).bind
            intro value hvalue
            split
            · exact bounded_pure hvalue.1
            · apply ih hrest
              intro entry hentry
              rcases mem_insertEntry hentry with rfl | hentry
              · exact ⟨narrow_key hkeyValue hkey, hvalue.1⟩
              · exact hentries entry hentry

/-! ### Calls and names -/

theorem bounded_bindName (frame : FrameId) (name : Label) {value : Value}
    (h : value.Clear Value.isWide) :
    Bounded (fun _ => True) (Traced.bindName frame name value) :=
  (bounded_note (.binds frame name value) h rfl).bind fun _ _ =>
    bounded_act (preserves_bindName frame name h)

theorem bounded_emit (event : Event) : Bounded (fun _ => True) (Traced.emit event) :=
  (bounded_note (.shows event) trivial rfl).bind fun _ _ =>
    bounded_act (preserves_emit event)

theorem bounded_traceParameters (frame : FrameId) {pairs : List (Node × Value)}
    (h : ∀ pair ∈ pairs, pair.2.Clear Value.isWide) :
    Bounded (fun _ => True) (traceParameters frame pairs) := by
  induction pairs with
  | nil => exact bounded_pure trivial
  | cons pair rest ih =>
      obtain ⟨hvalue, hrest⟩ := List.forall_mem_cons.mp h
      apply (bounded_act (preserves_ofExcept _)).bind
      intro label _
      exact (bounded_bindName frame label hvalue).bind fun _ _ => ih hrest

theorem bounded_builtinTrace (builtin : Builtin) {arguments : List Value}
    (h : ∀ value ∈ arguments, value.Kept) :
    Bounded (Granted Value.isWide) (builtin.trace arguments) := by
  have hsizes : ∀ value ∈ arguments, Value.isWide (.int value.size) = false := by
    intro value hvalue
    have hsize := (h value hvalue).2
    exact isWide_eq_false.mpr ⟨by omega, by omega⟩
  have hrun := preserves_run_of_sizes shallow_isWide builtin hsizes fun value hvalue =>
    (h value hvalue).1
  cases builtin with
  | puts =>
      exact (bounded_note (.shows _) trivial rfl).bind fun _ _ => bounded_act hrun
  | _ => exact bounded_act hrun

theorem narrow_traceApply {eval : Node → FrameId → Traced Value}
    (heval : ∀ body inside, body.Narrow → YieldsNarrow (eval body inside))
    (token : Option Token) (callee : Node) (arguments : List Node) {function : Value}
    {values : List Value} (hfunction : function.Clear Value.isWide)
    (hvalues : ∀ value ∈ values, value.Kept) :
    YieldsNarrow (traceApply eval token callee arguments function values) := by
  cases function with
  | builtin builtin =>
      apply (bounded_builtinTrace builtin hvalues).bind
      intro result hresult
      cases result with
      | ok value =>
          exact bounded_act (preserves_locateError shallow_isWide token (hresult value rfl))
      | error problem =>
          exact fun _ hclear _ => narrowRun_single trivial rfl (narrow_problem problem _) hclear
  | function identity parameters body outer =>
      simp only [traceApply]
      split
      · exact narrow_raise_error _ _
      · apply (bounded_act (preserves_openFrame (some outer))).bind
        intro frame _
        have hpairs : ∀ pair ∈ parameters.zip values, pair.2.Clear Value.isWide :=
          fun pair hpair => (hvalues pair.2 (List.of_mem_zip hpair).2).1
        apply (bounded_traceParameters frame hpairs).bind
        intro _ _
        exact (heval body frame (clear_function_isWide.mp hfunction)).bind fun _ hvalue =>
          bounded_pure hvalue.unwrap
  | _ => exact narrow_raise_error _ _

theorem narrow_traceLet (frame : FrameId) (name : Node) {value : Value}
    (hvalue : value.Clear Value.isWide) : YieldsNarrow (traceLet frame name value) := by
  apply (bounded_act (preserves_ofExcept _)).bind
  intro label _
  have hbind : YieldsNarrow (Traced.bindName frame label value >>= fun _ => pure .nil) :=
    (bounded_bindName frame label hvalue).bind fun _ _ => narrow_plain rfl rfl
  cases label with
  | name text =>
      simp only
      split
      · exact (bounded_emit _).bind fun _ _ => hbind
      · exact hbind
  | _ => exact hbind

theorem narrow_traceName (frame : FrameId) (token : Option Token) (name : String) :
    YieldsNarrow (traceName frame token name) := by
  unfold traceName
  cases Builtin.ofName? name with
  | some builtin => exact narrow_plain rfl rfl
  | none =>
      apply (bounded_act (preserves_lookup frame _)).bind
      intro found hfound
      cases found with
      | some value => exact bounded_pure (hfound value rfl)
      | none => exact narrow_raise_error _ _

/-- A node without wide literals is run narrowly. -/
theorem Node.Narrow.yields {node : Node} (h : node.Narrow) (depth : Nat) (use : Use)
    (frame : FrameId) : YieldsNarrow (node.trace depth use frame) := by
  induction depth generalizing use node frame with
  | zero => exact bounded_act (preserves_throw .tooDeep)
  | succ depth ih =>
      apply YieldsNarrow.entering rfl
      have heval (use : Use) (child : Node) (hchild : child ∈ node.children) :
          YieldsNarrow (child.trace depth use frame) :=
        ih ((Node.everywhere_iff.mp h).2 child hchild) use frame
      have hkeep (child : Node) (hchild : child ∈ node.children) :
          Bounded Value.Kept (keep (fun child => child.trace depth .kept frame) child) :=
        bounded_keep (heval .kept child hchild)
      cases node with
      | missing | string | bool => exact narrow_plain rfl rfl
      | int token value => exact bounded_pure (narrow_int (Node.everywhere_iff.mp h).1)
      | text | flag => exact bounded_act (preserves_throw _)
      | program statements =>
          apply (narrow_runBlock (heval .passed) (shallow_isWide.clear rfl rfl)).bind
          intro value hvalue
          exact bounded_pure (hvalue.unwrap.shown shallow_isWide)
      | exprStmt token expression => exact heval use expression List.mem_cons_self
      | letStmt token name value =>
          apply narrow_unlessError (hkeep value (by simp [Node.children])) fun _ h => h.1
          intro value hvalue
          exact narrow_traceLet frame name hvalue
      | returnStmt token value =>
          apply narrow_unlessError (hkeep value List.mem_cons_self) fun _ h => h.1
          intro value hvalue
          apply (bounded_note (.returns use) trivial rfl).bind
          intro _ _
          apply (bounded_act preserves_newIdentity).bind
          intro identity _
          exact bounded_pure (hvalue.returned rfl)
      | block token statements =>
          exact narrow_runBlock (heval use) (shallow_isWide.clear rfl rfl)
      | ident token name => exact narrow_traceName frame token name
      | prefixOp token operator right =>
          apply narrow_unlessError (hkeep right List.mem_cons_self) fun _ h => h.1
          intro right _
          exact narrow_raise _ fun value hvalue => narrow_prefix hvalue
      | infixOp token left operator right =>
          apply narrow_unlessError (hkeep left List.mem_cons_self) fun _ h => h.1
          intro left _
          apply narrow_unlessError (hkeep right (by simp [Node.children])) fun _ h => h.1
          intro right _
          exact narrow_raise _ fun value hvalue => narrow_infix hvalue
      | ifElse token condition consequence alternative =>
          apply narrow_unlessError (heval .tested condition List.mem_cons_self) fun _ h => h
          intro value _
          split
          · exact heval use consequence (by simp [Node.children])
          · exact heval use alternative (by simp [Node.children])
      | function token parameters body =>
          apply (bounded_act preserves_newIdentity).bind
          intro identity _
          apply bounded_pure
          exact clear_function_isWide.mpr
            ((Node.everywhere_iff.mp h).2 body (by simp [Node.children]))
      | call token callee arguments =>
          apply narrow_unlessError (heval .tested callee List.mem_cons_self) fun _ h => h
          intro function hfunction
          have harguments := bounded_evalAll fun argument hargument =>
            hkeep argument (List.mem_cons_of_mem callee hargument)
          apply harguments.bind
          intro result hresult
          cases result with
          | error error => exact bounded_pure hresult
          | ok values =>
              have happly := narrow_traceApply (fun body inside hbody => ih hbody .passed inside)
                token callee arguments hfunction hresult
              exact happly.bind fun _ hvalue => narrow_record hvalue hvalue rfl
      | array token elements =>
          apply (bounded_evalAll hkeep).bind
          intro result hresult
          cases result with
          | error error => exact bounded_pure hresult
          | ok values =>
              exact bounded_act (preserves_newArray shallow_isWide fun value hvalue =>
                (hresult value hvalue).1)
      | index token left position =>
          apply narrow_unlessError (hkeep left List.mem_cons_self) fun _ h => h.1
          intro left hleft
          apply narrow_unlessError (hkeep position (by simp [Node.children])) fun _ h => h.1
          intro position _
          exact narrow_raise _ fun value hvalue => shallow_isWide.clear_index hleft hvalue
      | hash token pairs =>
          have hpairs : ∀ pair ∈ pairs, ∀ use, YieldsNarrow (pair.1.trace depth use frame) ∧
              YieldsNarrow (pair.2.trace depth use frame) := by
            intro pair hpair use
            constructor
            · exact heval use pair.1 (List.mem_flatMap.mpr ⟨pair, hpair, by simp⟩)
            · exact heval use pair.2 (List.mem_flatMap.mpr ⟨pair, hpair, by simp⟩)
          apply (bounded_tracePairs (fun use node => node.trace depth use frame) hpairs
            (List.forall_mem_nil _)).bind
          intro result hresult
          cases result with
          | error error => exact bounded_pure hresult
          | ok entries =>
              apply (bounded_act preserves_newIdentity).bind
              intro identity _
              exact bounded_pure (narrow_hash hresult)

/-! ### Parsed programs -/

theorem Node.WellFormed.isWide {tokens : List Token} {node : Node} (h : node.WellFormed tokens) :
    node.isWide = false := by
  cases node with
  | int token value =>
      obtain ⟨_, hlow, hhigh⟩ := h
      unfold maxInteger at hhigh
      exact isWide_eq_false.mpr ⟨by omega, by omega⟩
  | _ => rfl

theorem Parses.narrow {source : String} {program : Node} (h : Parses source program) :
    program.Narrow := by
  obtain ⟨_, _, hwhole⟩ := h.complete
  exact hwhole.mono fun _ => Node.WellFormed.isWide

/-- A program that parses without errors is run on a machine all of whose integers fit into 64
bits.  As long as no string or array is kept that has 2 ^ 63 parts, every integer fits that anything
holds while the program runs, and that any node comes to. -/
theorem Parses.narrow_run {source : String} {program : Node} (h : Parses source program)
    {machine : Machine} (hmachine : machine.Clear Value.isWide) (depth : Nat) (frame : FrameId)
    (hshort : Short (program.trace depth .passed frame machine).1) :
    (program.trace depth .passed frame machine).Clear Value.isWide ∧
      (program.trace depth .passed frame machine).ValuesNarrow ∧
      ∀ value after, program.eval depth frame machine = .ok value after →
        value.Clear Value.isWide := by
  obtain ⟨⟨hcalm, hends⟩, hvalues⟩ := h.narrow.yields depth .passed frame machine hmachine hshort
  refine ⟨⟨hcalm, hends.mono fun _ _ => trivial⟩, hvalues, fun value after hvalue => ?_⟩
  rw [Node.trace_result, hvalue] at hends
  exact hends.1

/-- The least integer is its own negative and its own quotient by -1; what it is bound to, kept in
and given by fits. -/
theorem narrow_run_least : ∃ program,
    Parses "let least = 0 - 2 ^ 63; let f = fn(x) { [-x, x / -1] }; f(least)[0] ^ 3" program ∧
      Machine.start.Clear Value.isWide ∧
      Short (program.trace 20 .passed rootFrame .start).1 ∧
      (program.trace 20 .passed rootFrame .start).Clear Value.isWide ∧
      (program.trace 20 .passed rootFrame .start).ValuesNarrow ∧
      ∀ value after, program.eval 20 rootFrame .start = .ok value after →
        value.Clear Value.isWide := by
  obtain ⟨program, hparses, hshort⟩ : ∃ program,
      Parses "let least = 0 - 2 ^ 63; let f = fn(x) { [-x, x / -1] }; f(least)[0] ^ 3" program ∧
        decide (Short (program.trace 20 .passed rootFrame .start).1) = true :=
    exists_parses (by decide +kernel) (by decide +kernel)
  have hsizes := of_decide_eq_true hshort
  exact ⟨program, hparses, clear_start, hsizes,
    hparses.narrow_run clear_start 20 rootFrame hsizes⟩

end Monkey
