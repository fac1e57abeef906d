/-
Environments.  A frame holds the bindings of one scope and knows the frame around it; frames
live in a store and are shared by position, so a closure sees bindings that its frame receives
later.  A name is looked up from a frame outward; binding it touches one frame only.
-/
import Monkey.Value

namespace Monkey

structure Frame where
  bindings : List (Label × Value)
  outer : Option FrameId
deriving Repr

/-- The bindings after a name is bound: a known name keeps its place. -/
def setBinding (name : Label) (value : Value) : List (Label × Value) → List (Label × Value)
  | [] => [(name, value)]
  | (name', value') :: rest =>
      if name' = name then (name, value) :: rest
      else (name', value') :: setBinding name value rest

theorem lookup_setBinding (name name' : Label) (value : Value)
    (bindings : List (Label × Value)) :
    (setBinding name value bindings).lookup name' =
      if name' = name then some value else bindings.lookup name' := by
  induction bindings with
  | nil =>
      by_cases h : name' = name
      · simp [setBinding, h]
      · simp [setBinding, h, List.lookup_cons, beq_false_of_ne h]
  | cons binding rest ih =>
      obtain ⟨name₀, value₀⟩ := binding
      by_cases h₀ : name₀ = name
      · subst h₀
        by_cases h : name' = name₀
        · simp [setBinding, h]
        · simp [setBinding, h, List.lookup_cons, beq_false_of_ne h]
      · by_cases h : name' = name₀
        · subst h
          simp [setBinding, h₀]
        · simp [setBinding, h₀, List.lookup_cons, beq_false_of_ne h, ih]

/-- The bindings of a frame in the order of their labels. -/
def Frame.sorted (frame : Frame) : Except Fault (List (Label × Value)) :=
  match Label.unordered? (frame.bindings.map Prod.fst) with
  | some (first, second) => .error (.unordered second.className first.className)
  | none => .ok (frame.bindings.mergeSort fun left right => (left.1.le? right.1).getD true)

structure Store where
  frames : Array Frame
deriving Repr

def Store.empty : Store := ⟨#[]⟩

/-- Opens a frame inside another one, or a root frame. -/
def Store.open (store : Store) (outer : Option FrameId) : FrameId × Store :=
  (store.frames.size, ⟨store.frames.push ⟨[], outer⟩⟩)

/-- Binds a name in a frame, and in no other. -/
def Store.set (store : Store) (id : FrameId) (name : Label) (value : Value) : Store :=
  ⟨store.frames.modify id fun frame =>
    { frame with bindings := setBinding name value frame.bindings }⟩

theorem Store.getElem?_set_of_ne (store : Store) {id other : FrameId} (h : id ≠ other)
    (name : Label) (value : Value) :
    (store.set id name value).frames[other]? = store.frames[other]? := by
  simp [Store.set, Array.getElem?_modify, h]

theorem Store.outer_set (store : Store) (id other : FrameId) (name : Label) (value : Value) :
    ((store.set id name value).frames[other]?).map Frame.outer =
      (store.frames[other]?).map Frame.outer := by
  by_cases h : id = other
  · subst h
    cases hframe : store.frames[id]? <;> simp [Store.set, Array.getElem?_modify, hframe]
  · rw [store.getElem?_set_of_ne h]

theorem Store.getElem?_open_of_lt (store : Store) {id : FrameId} (h : id < store.frames.size)
    (outer : Option FrameId) : (store.open outer).2.frames[id]? = store.frames[id]? := by
  have hne : id ≠ store.frames.size := Nat.ne_of_lt h
  simp [Store.open, Array.getElem?_push, hne]

/-- The frame around a frame.  A frame is only ever opened inside an older one. -/
def Store.outer? (store : Store) (id : FrameId) : Option { outer : FrameId // outer < id } :=
  match (store.frames[id]?).bind Frame.outer with
  | some outer => if h : outer < id then some ⟨outer, h⟩ else none
  | none => none

/-- The value of a name in the innermost frame that binds it. -/
def Store.lookup (store : Store) (id : FrameId) (name : Label) : Option Value :=
  match (store.frames[id]?).bind (·.bindings.lookup name) with
  | some value => some value
  | none =>
      match store.outer? id with
      | some ⟨outer, _⟩ => store.lookup outer name
      | none => none
termination_by id

/-- The rule of lookup: a binding of the frame itself comes first. -/
theorem Store.lookup_of_bound (store : Store) {id : FrameId} {name : Label} {value : Value}
    (h : (store.frames[id]?).bind (·.bindings.lookup name) = some value) :
    store.lookup id name = some value := by
  rw [Store.lookup, h]

theorem Store.lookup_of_unbound (store : Store) {id : FrameId} {name : Label}
    (h : (store.frames[id]?).bind (·.bindings.lookup name) = none) :
    store.lookup id name = (store.outer? id).bind fun outer => store.lookup outer name := by
  rw [Store.lookup, h]
  cases store.outer? id <;> rfl

/-- The bindings of a frame in the order of their labels. -/
def Store.bindings (store : Store) (id : FrameId) : Except Fault (List (Label × Value)) :=
  ((store.frames[id]?).map Frame.sorted).getD (.ok [])

/-- A frame as the list of its labels, with the frames around it. -/
def Store.describe (store : Store) (id : FrameId) : Except Fault String := do
  let labels := (← store.bindings id).map Prod.fst
  let outer ←
    match store.outer? id with
    | some ⟨outer, _⟩ => store.describe outer
    | none => pure "None"
  return "Environment(" ++ Label.describeList labels ++ ", outer=" ++ outer ++ ")"
termination_by id

/-- The store once the error of an identity has a token, wherever it is held. -/
def Store.locate (store : Store) (identity : Nat) (token : Token) : Store :=
  ⟨store.frames.map fun frame =>
    { frame with
      bindings := frame.bindings.map fun (label, value) =>
        (label, value.locate identity token) }⟩

end Monkey
