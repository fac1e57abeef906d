/-
What belongs together in two runs side by side: a pairing says which nodes, values, frames and
machines do.  What values of the same form are made into by an operation belongs together again.
-/
import Mathlib.Data.List.Forall2
import Monkey.Proofs.Running.Clear
import Monkey.Proofs.Running.Effect
import Monkey.Proofs.Running.Trace

namespace Monkey

open Traced

/-! ### Operators -/

/-- The values that hold no other ones and have no identity. -/
def Value.isScalar : Value → Bool
  | .nil | .int _ | .bool _ | .string _ | .builtin _ => true
  | _ => false

theorem isScalar_applyIntInfix {operator : String} {left right : Int} {value : Value}
    (h : applyIntInfix operator left right = .ok value) : value.isScalar = true := by
  unfold applyIntInfix at h
  split at h
  case h_4 | h_5 => split at h <;> cases h; rfl
  case h_10 => cases h
  all_goals cases h; rfl

theorem isScalar_applyInfix {operator : String} {left right value : Value}
    (h : applyInfix operator left right = .ok value) : value.isScalar = true := by
  unfold applyInfix at h
  split at h
  · exact isScalar_applyIntInfix h
  · split at h <;> cases h
    rfl
  · split at h
    · cases h
      rfl
    · split at h
      · cases h
        rfl
      · split at h <;> cases h <;> rfl

/-- Two values that are not both of a kind to compute with are only compared. -/
theorem applyInfix_of_key? (operator : String) {left right : Value}
    (h : left.key? = none ∨ right.key? = none) :
    applyInfix operator left right =
      if operator = "==" then .ok (.bool (left.equal right))
      else if operator = "!=" then .ok (.bool !(left.equal right))
      else .error (.infixOperands left.typeName operator right.typeName) := by
  unfold applyInfix
  split
  · simp [Value.key?] at h
  · simp [Value.key?] at h
  · dsimp only
    split
    · rfl
    · split
      · rfl
      · split
        · simp [Value.key?] at h
        · simp [Value.key?] at h
        · rfl

/-! ### What has the same form -/

section

variable (tokens : Option Token → Option Token → Prop) (parameters : List Node → List Node → Prop)
  (nodes : Node → Node → Prop) (functions : List Node → Node → List Node → Node → Prop)
  (frames : FrameId → FrameId → Prop) (identities : Nat → Nat → Prop)
  (values : Value → Value → Prop)

inductive Event.Matches : Event → Event → Prop
  | wrote (line : String) : Matches (.wrote line) (.wrote line)
  | warned (message : String) {token token' : Option Token} (htoken : tokens token token') :
      Matches (.warned message token) (.warned message token')

/-- Nodes of the same form, the parts of which correspond. -/
inductive Node.Matches : Node → Node → Prop
  | missing : Matches .missing .missing
  | text (value : String) : Matches (.text value) (.text value)
  | flag (value : Bool) : Matches (.flag value) (.flag value)
  | program {statements statements' : List Node}
      (hstatements : List.Forall₂ nodes statements statements') :
      Matches (.program statements) (.program statements')
  | exprStmt {token token' : Option Token} {expression expression' : Node}
      (hexpression : nodes expression expression') :
      Matches (.exprStmt token expression) (.exprStmt token' expression')
  | letStmt {token token' : Option Token} {name name' value value' : Node}
      (hlabel : name.label = name'.label) (htoken : tokens name.token? name'.token?)
      (hvalue : nodes value value') :
      Matches (.letStmt token name value) (.letStmt token' name' value')
  | returnStmt {token token' : Option Token} {value value' : Node} (hvalue : nodes value value') :
      Matches (.returnStmt token value) (.returnStmt token' value')
  | block {token token' : Option Token} {statements statements' : List Node}
      (hstatements : List.Forall₂ nodes statements statements') :
      Matches (.block token statements) (.block token' statements')
  | ident {token token' : Option Token} (name : String) (htoken : tokens token token') :
      Matches (.ident token name) (.ident token' name)
  | int {token token' : Option Token} (value : Int) :
      Matches (.int token value) (.int token' value)
  | string {token token' : Option Token} (value : String) :
      Matches (.string token value) (.string token' value)
  | bool {token token' : Option Token} (value : Bool) :
      Matches (.bool token value) (.bool token' value)
  | prefixOp {token token' : Option Token} (operator : String) {right right' : Node}
      (htoken : tokens token token') (hright : nodes right right') :
      Matches (.prefixOp token operator right) (.prefixOp token' operator right')
  | infixOp {token token' : Option Token} (operator : String) {left left' right right' : Node}
      (htoken : tokens token token') (hleft : nodes left left') (hright : nodes right right') :
      Matches (.infixOp token left operator right) (.infixOp token' left' operator right')
  | ifElse {token token' : Option Token}
      {condition condition' consequence consequence' alternative alternative' : Node}
      (hcondition : nodes condition condition') (hconsequence : nodes consequence consequence')
      (halternative : nodes alternative alternative') :
      Matches (.ifElse token condition consequence alternative)
        (.ifElse token' condition' consequence' alternative')
  | function {token token' : Option Token} {names names' : List Node} {body body' : Node}
      (hnames : parameters names names') (hbody : nodes body body') :
      Matches (.function token names body) (.function token' names' body')
  | call {token token' : Option Token} {callee callee' : Node} {arguments arguments' : List Node}
      (htoken : tokens token token') (hcallee : nodes callee callee')
      (harguments : List.Forall₂ nodes arguments arguments') :
      Matches (.call token callee arguments) (.call token' callee' arguments')
  | array {token token' : Option Token} {elements elements' : List Node}
      (helements : List.Forall₂ nodes elements elements') :
      Matches (.array token elements) (.array token' elements')
  | index {token token' : Option Token} {left left' position position' : Node}
      (htoken : tokens token token') (hleft : nodes left left')
      (hposition : nodes position position') :
      Matches (.index token left position) (.index token' left' position')
  | hash {token token' : Option Token} {pairs pairs' : List (Node × Node)}
      (hpairs : List.Forall₂ (fun pair pair' => tokens pair.1.token? pair'.1.token? ∧
        nodes pair.1 pair'.1 ∧ nodes pair.2 pair'.2) pairs pairs') :
      Matches (.hash token pairs) (.hash token' pairs')

/-- Values of the same form, the parts of which correspond.  Nothing holds an error. -/
inductive Value.Matches : Value → Value → Prop
  | nil : Matches .nil .nil
  | int (value : Int) : Matches (.int value) (.int value)
  | bool (value : Bool) : Matches (.bool value) (.bool value)
  | string (value : String) : Matches (.string value) (.string value)
  | builtin (builtin : Builtin) : Matches (.builtin builtin) (.builtin builtin)
  | array {identity identity' : Nat} {elements elements' : List Value}
      (hidentity : identities identity identity')
      (helements : List.Forall₂ values elements elements')
      (herrors : ∀ element ∈ elements, element.isError = false) :
      Matches (.array identity elements) (.array identity' elements')
  | hash {identity identity' : Nat} {entries entries' : List (Key × Value)}
      (hidentity : identities identity identity')
      (hentries : List.Forall₂ (fun entry entry' => entry.1 = entry'.1 ∧ values entry.2 entry'.2)
        entries entries')
      (herrors : ∀ entry ∈ entries, entry.2.isError = false) :
      Matches (.hash identity entries) (.hash identity' entries')
  | function {identity identity' : Nat} {names names' : List Node} {body body' : Node}
      {frame frame' : FrameId} (hidentity : identities identity identity')
      (hfunction : functions names body names' body') (hframe : frames frame frame') :
      Matches (.function identity names body frame) (.function identity' names' body' frame')
  | returned {identity identity' : Nat} {value value' : Value}
      (hidentity : identities identity identity') (hvalue : values value value')
      (herror : value.isError = false) :
      Matches (.returned identity value) (.returned identity' value')
  | error (message : String) {token token' : Option Token} (htoken : tokens token token') :
      Matches (.error message token none) (.error message token' none)

end

/-- What belongs together in two runs, and that single steps keep it together.  With a machine
grows the world that says which frames and identities do. -/
structure Pairing where
  World : Type
  Grows : World → World → Prop
  tokens : Option Token → Option Token → Prop
  parameters : List Node → List Node → Prop
  nodes : Node → Node → Prop
  /-- The names and bodies of functions. -/
  functions : List Node → Node → List Node → Node → Prop
  frames : World → FrameId → FrameId → Prop
  identities : World → Nat → Nat → Prop
  values : World → Value → Value → Prop
  machines : World → Machine → Machine → Prop
  refl : ∀ world, Grows world world
  trans : ∀ {world mid after}, Grows world mid → Grows mid after → Grows world after
  frames_grow : ∀ {world after frame frame'}, Grows world after → frames world frame frame' →
    frames after frame frame'
  values_grow : ∀ {world after value value'}, Grows world after → values world value value' →
    values after value value'
  labels : ∀ {names names' body body'}, functions names body names' body' →
    names.map Node.label = names'.map Node.label
  bodies : ∀ {names names' body body'}, functions names body names' body' → nodes body body'
  literals : ∀ {token token' names names' body body'},
    nodes (.function token names body) (.function token' names' body') →
      functions names body names' body'
  nodes_match : ∀ {node node'}, nodes node node' → node.Matches tokens parameters nodes node'
  values_match : ∀ {world value value'}, values world value value' ↔
    value.Matches tokens functions (frames world) (identities world) (values world) value'
  identities_eq_iff : ∀ {world identity identity' other other'},
    identities world identity identity' → identities world other other' →
      (identity = other ↔ identity' = other')
  display : ∀ {world value value'}, values world value value' → value.display = value'.display
  newIdentity : ∀ {world machine machine'}, machines world machine machine' →
    ∃ after, Grows world after ∧ identities after machine.fresh machine'.fresh ∧
      machines after (Action.newIdentity.leaves machine) (Action.newIdentity.leaves machine')
  openFrame : ∀ {world machine machine' outer outer'}, machines world machine machine' →
    frames world outer outer' →
      ∃ after, Grows world after ∧
        frames after machine.store.frames.size machine'.store.frames.size ∧
        machines after ((Action.openFrame (some outer)).leaves machine)
          ((Action.openFrame (some outer')).leaves machine')
  bindName : ∀ {world machine machine' frame frame' name value value'},
    machines world machine machine' → frames world frame frame' → values world value value' →
      value.isError = false →
        machines world ((Action.bindName frame name value).leaves machine)
          ((Action.bindName frame' name value').leaves machine')
  lookup : ∀ {world machine machine' frame frame' name}, machines world machine machine' →
    frames world frame frame' → Builtin.ofName? name = none →
      Option.Rel (values world) (machine.store.lookup frame (.name name))
        (machine'.store.lookup frame' (.name name))
  emit : ∀ {world machine machine' event event'}, machines world machine machine' →
    event.Matches tokens event' →
      machines world ((Action.emit event).leaves machine) ((Action.emit event').leaves machine')

namespace Pairing

variable {pairing : Pairing} {world : pairing.World} {left right left' right' value value' : Value}
  {values values' : List Value}

/-! ### Operations on values -/

theorem typeName_eq (h : pairing.values world value value') :
    value.typeName = value'.typeName := by
  cases pairing.values_match.mp h <;> rfl

theorem isError_eq (h : pairing.values world value value') : value.isError = value'.isError := by
  cases pairing.values_match.mp h <;> rfl

theorem isSignal_eq (h : pairing.values world value value') :
    value.isSignal = value'.isSignal := by
  cases pairing.values_match.mp h <;> rfl

theorem isTruthy_eq (h : pairing.values world value value') :
    value.isTruthy = value'.isTruthy := by
  cases pairing.values_match.mp h <;> rfl

theorem key?_eq (h : pairing.values world value value') : value.key? = value'.key? := by
  cases pairing.values_match.mp h <;> rfl

theorem equal_eq (hleft : pairing.values world left left')
    (hright : pairing.values world right right') : left.equal right = left'.equal right' := by
  cases pairing.values_match.mp hleft <;> cases pairing.values_match.mp hright <;>
    first
      | rfl
      | (simp only [Value.equal, Bool.beq_eq_decide_eq]
         exact decide_eq_decide.mpr (pairing.identities_eq_iff ‹_› ‹_›))

theorem applyInfix_eq (operator : String) (hleft : pairing.values world left left')
    (hright : pairing.values world right right') :
    applyInfix operator left right = applyInfix operator left' right' := by
  have hkeys : left.key? = none ∨ right.key? = none ∨ left = left' ∧ right = right' := by
    cases hkey : left.key? with
    | none => exact Or.inl rfl
    | some key =>
        cases hkey' : right.key? with
        | none => exact Or.inr (Or.inl rfl)
        | some key' =>
            refine Or.inr (Or.inr ⟨?_, ?_⟩)
            · rw [Value.key?_eq_some.mp hkey,
                Value.key?_eq_some.mp ((key?_eq hleft).symm.trans hkey)]
            · rw [Value.key?_eq_some.mp hkey',
                Value.key?_eq_some.mp ((key?_eq hright).symm.trans hkey')]
  rw [← or_assoc] at hkeys
  rcases hkeys with hnone | ⟨rfl, rfl⟩
  · have hnone' : left'.key? = none ∨ right'.key? = none := by
      rwa [key?_eq hleft, key?_eq hright] at hnone
    rw [applyInfix_of_key? operator hnone, applyInfix_of_key? operator hnone',
      equal_eq hleft hright, typeName_eq hleft, typeName_eq hright]
  · rfl

theorem applyPrefix_eq (operator : String) (h : pairing.values world value value') :
    applyPrefix operator value = applyPrefix operator value' := by
  cases pairing.values_match.mp h <;> first | rfl | simp only [applyPrefix, Value.typeName]

/-- A value that can be operated on, or the same problem. -/
def Settles (pairing : Pairing) (world : pairing.World) :
    Except Problem Value → Except Problem Value → Prop
  | .ok value, .ok value' => pairing.values world value value' ∧ value.isError = false
  | .error problem, .error problem' => problem = problem'
  | _, _ => False

theorem values_scalar (h : value.isScalar = true) : pairing.values world value value := by
  cases value with
  | nil => exact pairing.values_match.mpr .nil
  | int value => exact pairing.values_match.mpr (.int value)
  | bool value => exact pairing.values_match.mpr (.bool value)
  | string value => exact pairing.values_match.mpr (.string value)
  | builtin builtin => exact pairing.values_match.mpr (.builtin builtin)
  | array | hash | function | returned | error => cases h

theorem settles_scalar {result : Except Problem Value}
    (h : ∀ value, result = .ok value → value.isScalar = true) :
    pairing.Settles world result result := by
  cases result with
  | error problem => rfl
  | ok value =>
      have hscalar := h value rfl
      refine ⟨values_scalar hscalar, ?_⟩
      cases value <;> first | rfl | cases hscalar

theorem settles_applyPrefix (operator : String) (h : pairing.values world value value') :
    pairing.Settles world (applyPrefix operator value) (applyPrefix operator value') := by
  rw [← applyPrefix_eq operator h]
  apply settles_scalar
  intro result hresult
  unfold applyPrefix at hresult
  split at hresult <;> cases hresult <;> rfl

theorem settles_applyInfix (operator : String) (hleft : pairing.values world left left')
    (hright : pairing.values world right right') :
    pairing.Settles world (applyInfix operator left right) (applyInfix operator left' right') := by
  rw [← applyInfix_eq operator hleft hright]
  exact settles_scalar fun _ => isScalar_applyInfix

/-! ### What values hold -/

/-- An element of corresponding lists, or nil behind their ends. -/
theorem values_getElem (h : List.Forall₂ (pairing.values world) values values')
    (herrors : ∀ value ∈ values, value.isError = false) (position : Nat) :
    pairing.values world ((values[position]?).getD .nil) ((values'[position]?).getD .nil) ∧
      ((values[position]?).getD .nil).isError = false := by
  induction h generalizing position with
  | nil => exact ⟨values_scalar rfl, rfl⟩
  | cons hfirst _ ih =>
      obtain ⟨herror, hrest⟩ := List.forall_mem_cons.mp herrors
      cases position with
      | zero => exact ⟨hfirst, herror⟩
      | succ position => exact ih hrest position

/-- Entries with the same keys. -/
abbrev Entries (pairing : Pairing) (world : pairing.World) :
    List (Key × Value) → List (Key × Value) → Prop :=
  List.Forall₂ fun entry entry' => entry.1 = entry'.1 ∧ pairing.values world entry.2 entry'.2

variable {entries entries' : List (Key × Value)}

theorem values_lookup (h : pairing.Entries world entries entries')
    (herrors : ∀ entry ∈ entries, entry.2.isError = false) (key : Key) :
    pairing.values world ((entries.lookup key).getD .nil) ((entries'.lookup key).getD .nil) ∧
      ((entries.lookup key).getD .nil).isError = false := by
  induction h with
  | nil => exact ⟨values_scalar rfl, rfl⟩
  | @cons entry entry' _ _ hfirst _ ih =>
      obtain ⟨herror, hrest⟩ := List.forall_mem_cons.mp herrors
      obtain ⟨key₀, value₀⟩ := entry
      obtain ⟨key₀', value₀'⟩ := entry'
      obtain ⟨rfl, hvalue⟩ : key₀ = key₀' ∧ pairing.values world value₀ value₀' := hfirst
      rw [List.lookup_cons, List.lookup_cons]
      cases key == key₀ with
      | true => exact ⟨hvalue, herror⟩
      | false => exact ih hrest

theorem entries_insert (h : pairing.Entries world entries entries') (key : Key)
    (hvalue : pairing.values world value value') :
    pairing.Entries world (insertEntry key value entries) (insertEntry key value' entries') := by
  induction h with
  | nil => exact .cons ⟨rfl, hvalue⟩ .nil
  | @cons entry entry' _ _ hfirst hrest ih =>
      obtain ⟨key₀, value₀⟩ := entry
      obtain ⟨key₀', value₀'⟩ := entry'
      obtain ⟨rfl, hvalue₀⟩ : key₀ = key₀' ∧ pairing.values world value₀ value₀' := hfirst
      rw [insertEntry, insertEntry]
      split
      · exact .cons ⟨rfl, hvalue⟩ hrest
      · exact .cons ⟨rfl, hvalue₀⟩ ih

theorem errorless_insert {entries : List (Key × Value)} (key : Key)
    (h : ∀ entry ∈ entries, entry.2.isError = false) (hvalue : value.isError = false) :
    ∀ entry ∈ insertEntry key value entries, entry.2.isError = false := by
  induction entries with
  | nil => exact List.forall_mem_singleton.mpr hvalue
  | cons entry rest ih =>
      obtain ⟨hentry, hrest⟩ := List.forall_mem_cons.mp h
      rw [insertEntry]
      split
      · exact List.forall_mem_cons.mpr ⟨hvalue, hrest⟩
      · exact List.forall_mem_cons.mpr ⟨hentry, ih hrest⟩

theorem settles_applyIndex (hleft : pairing.values world left left')
    (hright : pairing.values world right right') :
    pairing.Settles world (applyIndex left right) (applyIndex left' right') := by
  cases pairing.values_match.mp hleft with
  | array _ helements herrors =>
      cases pairing.values_match.mp hright with
      | int position =>
          simp only [applyIndex]
          split
          · exact values_getElem helements herrors position.toNat
          · exact ⟨values_scalar rfl, rfl⟩
      | _ => rfl
  | hash _ hentries herrors =>
      simp only [applyIndex, ← key?_eq hright, ← typeName_eq hright]
      cases right.key? with
      | some key => exact values_lookup hentries herrors key
      | none => rfl
  | _ => rfl

theorem values_unwrap (h : pairing.values world value value') :
    pairing.values world value.unwrap value'.unwrap := by
  cases pairing.values_match.mp h with
  | returned _ hvalue _ => exact hvalue
  | _ => exact h

theorem values_shown (h : pairing.values world value value') :
    pairing.values world value.shown value'.shown := by
  cases pairing.values_match.mp h with
  | int | bool | string | error => exact h
  | _ => exact values_scalar rfl

/-- The error value of a problem at corresponding tokens. -/
theorem values_problem {token token' : Option Token} (problem : Problem)
    (htoken : pairing.tokens token token') :
    pairing.values world (problem.error token) (problem.error token') :=
  pairing.values_match.mpr (.error problem.message htoken)

end Pairing

end Monkey
