/-
Values that hold nothing of some kind, such as signals, however deep, and machines all of whose
bindings are such values.  No operation puts anything of the kind into a value where there was
none: operations make data, and otherwise hand on what they find.
-/
import Monkey.Eval

namespace Monkey

mutual

/-- A value and all values in it. -/
def Value.parts : Value → List Value
  | .array identity elements => .array identity elements :: valueParts elements
  | .hash identity entries => .hash identity entries :: entryParts entries
  | .returned identity value => .returned identity value :: value.parts
  | .nil => [.nil]
  | .int value => [.int value]
  | .bool value => [.bool value]
  | .string value => [.string value]
  | .function identity parameters body frame => [.function identity parameters body frame]
  | .builtin builtin => [.builtin builtin]
  | .error message token identity => [.error message token identity]

def valueParts : List Value → List Value
  | [] => []
  | value :: rest => value.parts ++ valueParts rest

def entryParts : List (Key × Value) → List Value
  | [] => []
  | (_, value) :: rest => value.parts ++ entryParts rest

end

def Value.isReturned : Value → Bool
  | .returned .. => true
  | _ => false

theorem Value.isError_eq (value : Value) : value.isError = (value.typeName == "ERROR") := by
  cases value <;> rfl

theorem Value.isReturned_eq (value : Value) :
    value.isReturned = (value.typeName == "RETURN_VALUE") := by
  cases value <;> rfl

/-- A kind of signals, told by the name of the type. -/
structure SignalKind (bad : Value → Bool) : Prop where
  isSignal : ∀ value, bad value = true → value.isSignal = true
  byType : ∀ left right : Value, left.typeName = right.typeName → bad left = bad right

theorem signalKind_isError : SignalKind Value.isError where
  isSignal value := by cases value <;> simp [Value.isError, Value.isSignal]
  byType left right h := by rw [left.isError_eq, right.isError_eq, h]

theorem signalKind_isReturned : SignalKind Value.isReturned where
  isSignal value := by cases value <;> simp [Value.isReturned, Value.isSignal]
  byType left right h := by rw [left.isReturned_eq, right.isReturned_eq, h]

theorem SignalKind.eq_false {bad : Value → Bool} (h : SignalKind bad) {value : Value}
    (hsignal : value.isSignal = false) : bad value = false := by
  cases hbad : bad value with
  | false => rfl
  | true =>
      have htrue := h.isSignal value hbad
      rw [hsignal] at htrue
      cases htrue

/-- The values that operations make: no signals, and no functions. -/
def Value.isData : Value → Bool
  | .function .. | .returned .. | .error .. => false
  | _ => true

/-- A kind of values that no operation makes out of others.  A signal belongs to it whatever it
carries, or never. -/
structure Foreign (bad : Value → Bool) : Prop where
  data : ∀ value, value.isData = true → bad value = false
  error : ∀ message token token' identity,
    bad (.error message token identity) = bad (.error message token' identity)
  returned : ∀ identity value value',
    bad (.returned identity value) = bad (.returned identity value')

theorem SignalKind.foreign {bad : Value → Bool} (h : SignalKind bad) : Foreign bad where
  data value hdata := by
    apply h.eq_false
    cases value <;> first | rfl | cases hdata
  error _ _ _ _ := h.byType _ _ rfl
  returned _ _ _ := h.byType _ _ rfl

/-- Data that is no integer and has no keys. -/
def Value.isPlain : Value → Bool
  | .nil | .bool _ | .string _ | .array .. | .builtin _ => true
  | _ => false

/-- A kind of values that no operation makes out of others, unless it makes integers or hashes.  A
hash belongs to it for its keys, or never. -/
structure Shallow (bad : Value → Bool) : Prop where
  plain : ∀ value, value.isPlain = true → bad value = false
  hash : ∀ identity entries entries', entries.map Prod.fst = entries'.map Prod.fst →
    bad (.hash identity entries) = bad (.hash identity entries')
  error : ∀ message token token' identity,
    bad (.error message token identity) = bad (.error message token' identity)
  returned : ∀ identity value value',
    bad (.returned identity value) = bad (.returned identity value')

theorem Foreign.shallow {bad : Value → Bool} (h : Foreign bad) : Shallow bad where
  plain value hplain := by
    apply h.data
    cases value <;> first | rfl | cases hplain
  hash _ _ _ _ := by rw [h.data _ rfl, h.data _ rfl]
  error := h.error
  returned := h.returned

/-- The value is no such signal, and holds none. -/
def Value.Clear (bad : Value → Bool) (value : Value) : Prop :=
  ∀ part ∈ value.parts, bad part = false

instance (bad : Value → Bool) (value : Value) : Decidable (value.Clear bad) :=
  inferInstanceAs (Decidable (∀ part ∈ value.parts, bad part = false))

def Store.Clear (bad : Value → Bool) (store : Store) : Prop :=
  ∀ frame ∈ store.frames, ∀ binding ∈ frame.bindings, binding.2.Clear bad

/-- No binding in any frame of the machine holds such a signal. -/
def Machine.Clear (bad : Value → Bool) (machine : Machine) : Prop :=
  machine.store.Clear bad

section Values

variable {bad : Value → Bool}

theorem mem_valueParts {part : Value} {values : List Value} :
    part ∈ valueParts values ↔ ∃ value ∈ values, part ∈ value.parts := by
  induction values with
  | nil => simp [valueParts]
  | cons value rest ih => simp [valueParts, ih]

theorem mem_entryParts {part : Value} {entries : List (Key × Value)} :
    part ∈ entryParts entries ↔ ∃ entry ∈ entries, part ∈ entry.2.parts := by
  induction entries with
  | nil => simp [entryParts]
  | cons entry rest ih => simp [entryParts, ih]

theorem Value.mem_parts_self (value : Value) : value ∈ value.parts := by
  cases value <;> simp [Value.parts]

theorem Value.Clear.self {value : Value} (h : value.Clear bad) : bad value = false :=
  h value value.mem_parts_self

/-- A value without values in it. -/
theorem clear_of_parts {value : Value} (hparts : value.parts = [value])
    (h : bad value = false) : value.Clear bad := by
  intro part hpart
  rw [hparts, List.mem_singleton] at hpart
  rw [hpart, h]

theorem SignalKind.clear (h : SignalKind bad) {value : Value} (hparts : value.parts = [value])
    (hsignal : value.isSignal = false) : value.Clear bad :=
  clear_of_parts hparts (h.eq_false hsignal)

theorem Foreign.clear (h : Foreign bad) {value : Value} (hparts : value.parts = [value])
    (hdata : value.isData = true) : value.Clear bad :=
  clear_of_parts hparts (h.data value hdata)

theorem Shallow.clear (h : Shallow bad) {value : Value} (hparts : value.parts = [value])
    (hplain : value.isPlain = true) : value.Clear bad :=
  clear_of_parts hparts (h.plain value hplain)

/-- Whether an error is clear does not depend on its token. -/
theorem Shallow.clear_error (h : Shallow bad) {message : String}
    {token token' : Option Token} {identity : Option Nat}
    (hclear : (Value.error message token identity).Clear bad) :
    (Value.error message token' identity).Clear bad := by
  apply clear_of_parts rfl
  rw [h.error message token' token identity]
  exact hclear.self

theorem Shallow.clear_array (h : Shallow bad) {identity : Nat} {elements : List Value}
    (helements : ∀ value ∈ elements, value.Clear bad) :
    (Value.array identity elements).Clear bad := by
  intro part hpart
  rcases List.mem_cons.mp hpart with rfl | hpart
  · exact h.plain _ rfl
  · obtain ⟨value, hvalue, hpart⟩ := mem_valueParts.mp hpart
    exact helements value hvalue part hpart

theorem clear_hash {identity : Nat} {entries : List (Key × Value)}
    (hself : bad (.hash identity entries) = false)
    (hentries : ∀ entry ∈ entries, entry.2.Clear bad) :
    (Value.hash identity entries).Clear bad := by
  intro part hpart
  rcases List.mem_cons.mp hpart with rfl | hpart
  · exact hself
  · obtain ⟨entry, hentry, hpart⟩ := mem_entryParts.mp hpart
    exact hentries entry hentry part hpart

theorem Foreign.clear_hash (h : Foreign bad) {identity : Nat}
    {entries : List (Key × Value)} (hentries : ∀ entry ∈ entries, entry.2.Clear bad) :
    (Value.hash identity entries).Clear bad :=
  Monkey.clear_hash (h.data _ rfl) hentries

theorem Value.Clear.element {identity : Nat} {elements : List Value}
    (h : (Value.array identity elements).Clear bad) {value : Value} (hvalue : value ∈ elements) :
    value.Clear bad := by
  intro part hpart
  exact h part (List.mem_cons_of_mem _ (mem_valueParts.mpr ⟨value, hvalue, hpart⟩))

theorem Value.Clear.entry {identity : Nat} {entries : List (Key × Value)}
    (h : (Value.hash identity entries).Clear bad) {entry : Key × Value}
    (hentry : entry ∈ entries) : entry.2.Clear bad := by
  intro part hpart
  exact h part (List.mem_cons_of_mem _ (mem_entryParts.mpr ⟨entry, hentry, hpart⟩))

theorem Value.Clear.wrapped {identity : Nat} {value : Value}
    (h : (Value.returned identity value).Clear bad) : value.Clear bad := by
  intro part hpart
  exact h part (List.mem_cons_of_mem _ hpart)

theorem Value.Clear.returned {identity : Nat} {value : Value} (h : value.Clear bad)
    (hself : bad (.returned identity value) = false) :
    (Value.returned identity value).Clear bad := by
  intro part hpart
  rcases List.mem_cons.mp hpart with rfl | hpart
  · exact hself
  · exact h part hpart

theorem Value.Clear.unwrap {value : Value} (h : value.Clear bad) : value.unwrap.Clear bad := by
  cases value with
  | returned identity value => exact h.wrapped
  | _ => exact h

/-- An error is clear if what it carries to the outside is. -/
theorem Value.Clear.of_unwrap {value : Value} (h : value.unwrap.Clear bad)
    (herror : value.isError = true) : value.Clear bad := by
  cases value with
  | error => exact h
  | _ => cases herror

theorem Value.Clear.shown {value : Value} (hkind : Shallow bad) (h : value.Clear bad) :
    value.shown.Clear bad := by
  cases value with
  | int | bool | string | error => exact h
  | _ => exact hkind.clear rfl rfl

/-! ### Operations -/

theorem Foreign.clear_prefix (h : Foreign bad) {operator : String} {right value : Value}
    (hvalue : applyPrefix operator right = .ok value) : value.Clear bad := by
  unfold applyPrefix at hvalue
  split at hvalue <;> cases hvalue
  · exact h.clear rfl rfl
  · exact h.clear rfl rfl

theorem Foreign.clear_intInfix (h : Foreign bad) {operator : String} {left right : Int}
    {value : Value} (hvalue : applyIntInfix operator left right = .ok value) :
    value.Clear bad := by
  unfold applyIntInfix at hvalue
  split at hvalue
  case h_4 => split at hvalue <;> cases hvalue; exact h.clear rfl rfl
  case h_5 => split at hvalue <;> cases hvalue; exact h.clear rfl rfl
  case h_10 => cases hvalue
  all_goals cases hvalue; exact h.clear rfl rfl

theorem Foreign.clear_infix (h : Foreign bad) {operator : String} {left right value : Value}
    (hvalue : applyInfix operator left right = .ok value) : value.Clear bad := by
  unfold applyInfix at hvalue
  split at hvalue
  · exact h.clear_intInfix hvalue
  · split at hvalue <;> cases hvalue
    exact h.clear rfl rfl
  · split at hvalue
    · cases hvalue
      exact h.clear rfl rfl
    · split at hvalue
      · cases hvalue
        exact h.clear rfl rfl
      · split at hvalue <;> cases hvalue
        · exact h.clear rfl rfl
        · exact h.clear rfl rfl

theorem clear_getD (h : Shallow bad) {found : Option Value}
    (hfound : ∀ value ∈ found, value.Clear bad) : (found.getD .nil).Clear bad := by
  cases found with
  | none => exact h.clear rfl rfl
  | some value => exact hfound value rfl

theorem mem_of_lookup {α : Type} [BEq α] [LawfulBEq α] {name : α} {value : Value}
    {entries : List (α × Value)} (h : entries.lookup name = some value) :
    (name, value) ∈ entries := by
  obtain ⟨front, rest, rfl, _⟩ := List.lookup_eq_some_iff.mp h
  simp

theorem Shallow.clear_index (h : Shallow bad) {left index value : Value}
    (hleft : left.Clear bad) (hvalue : applyIndex left index = .ok value) : value.Clear bad := by
  unfold applyIndex at hvalue
  split at hvalue
  · split at hvalue
    · cases hvalue
      split
      · exact clear_getD h fun value hvalue => hleft.element (List.mem_of_getElem? hvalue)
      · exact h.clear rfl rfl
    · cases hvalue
  · split at hvalue
    · cases hvalue
      exact clear_getD h fun value hvalue => hleft.entry (mem_of_lookup hvalue)
    · cases hvalue
  · cases hvalue

theorem mem_insertEntry {key : Key} {value : Value} {entries : List (Key × Value)}
    {entry : Key × Value} (h : entry ∈ insertEntry key value entries) :
    entry = (key, value) ∨ entry ∈ entries := by
  induction entries with
  | nil => exact Or.inl (List.mem_singleton.mp h)
  | cons first rest ih =>
      rw [insertEntry] at h
      split at h
      · rcases List.mem_cons.mp h with heq | hrest
        · exact Or.inl heq
        · exact Or.inr (List.mem_cons_of_mem _ hrest)
      · rcases List.mem_cons.mp h with heq | hrest
        · exact Or.inr (heq ▸ List.mem_cons_self)
        · exact (ih hrest).imp id (List.mem_cons_of_mem _)

theorem clear_insertEntry {key : Key} {value : Value} {entries : List (Key × Value)}
    (hvalue : value.Clear bad) (hentries : ∀ entry ∈ entries, entry.2.Clear bad) :
    ∀ entry ∈ insertEntry key value entries, entry.2.Clear bad := by
  intro entry hentry
  rcases mem_insertEntry hentry with rfl | hentry
  · exact hvalue
  · exact hentries entry hentry

theorem Foreign.clear_key (h : Foreign bad) (key : Key) : key.value.Clear bad := by
  cases key <;> exact h.clear rfl rfl

/-! ### Machines -/

theorem Store.Clear.lookup {store : Store} (h : store.Clear bad) {frame : FrameId} {name : Label}
    {value : Value} (hvalue : store.lookup frame name = some value) : value.Clear bad := by
  induction frame using Nat.strongRecOn with
  | _ frame ih =>
      cases hbound : (store.frames[frame]?).bind (·.bindings.lookup name) with
      | some value' =>
          rw [store.lookup_of_bound hbound] at hvalue
          obtain ⟨found, hframe, hbinding⟩ := Option.bind_eq_some_iff.mp hbound
          obtain rfl := Option.some.inj hvalue
          exact h found (Array.mem_of_getElem? hframe) _ (mem_of_lookup hbinding)
      | none =>
          rw [store.lookup_of_unbound hbound] at hvalue
          obtain ⟨outer, _, hrest⟩ := Option.bind_eq_some_iff.mp hvalue
          exact ih outer.1 outer.2 hrest

theorem mem_setBinding {name : Label} {value : Value} {bindings : List (Label × Value)}
    {binding : Label × Value} (h : binding ∈ setBinding name value bindings) :
    binding = (name, value) ∨ binding ∈ bindings := by
  induction bindings with
  | nil => exact Or.inl (List.mem_singleton.mp h)
  | cons first rest ih =>
      rw [setBinding] at h
      split at h
      · rcases List.mem_cons.mp h with heq | hrest
        · exact Or.inl heq
        · exact Or.inr (List.mem_cons_of_mem _ hrest)
      · rcases List.mem_cons.mp h with heq | hrest
        · exact Or.inr (heq ▸ List.mem_cons_self)
        · exact (ih hrest).imp id (List.mem_cons_of_mem _)

theorem Store.Clear.set {store : Store} (h : store.Clear bad) {frame : FrameId} {name : Label}
    {value : Value} (hvalue : value.Clear bad) : (store.set frame name value).Clear bad := by
  intro found hfound binding hbinding
  obtain ⟨index, hindex⟩ := Array.getElem?_of_mem hfound
  rw [Store.set, Array.getElem?_modify] at hindex
  split at hindex
  · obtain ⟨old, hold, rfl⟩ := Option.map_eq_some_iff.mp hindex
    rcases mem_setBinding hbinding with rfl | hbinding
    · exact hvalue
    · exact h old (Array.mem_of_getElem? hold) binding hbinding
  · exact h found (Array.mem_of_getElem? hindex) binding hbinding

theorem Store.Clear.open {store : Store} (h : store.Clear bad) (outer : Option FrameId) :
    (store.open outer).2.Clear bad := by
  intro found hfound binding hbinding
  rcases Array.mem_push.mp hfound with hfound | rfl
  · exact h found hfound binding hbinding
  · cases hbinding

theorem keys_locateEntries (identity : Nat) (token : Token) (entries : List (Key × Value)) :
    (locateEntries identity token entries).map Prod.fst = entries.map Prod.fst := by
  induction entries with
  | nil => rfl
  | cons entry rest ih => rw [locateEntries, List.map_cons, List.map_cons, ih]

mutual

theorem Shallow.clear_locate (h : Shallow bad) (identity : Nat) (token : Token) :
    ∀ value : Value, value.Clear bad → (value.locate identity token).Clear bad
  | .array identity' elements, hclear => by
      rw [Value.locate]
      exact h.clear_array (h.clear_locateAll identity token elements fun value hvalue =>
        hclear.element hvalue)
  | .hash identity' entries, hclear => by
      rw [Value.locate]
      refine clear_hash ?_ (h.clear_locateEntries identity token entries fun entry hentry =>
        hclear.entry hentry)
      rw [h.hash identity' _ entries (keys_locateEntries identity token entries)]
      exact hclear.self
  | .returned identity' value, hclear => by
      rw [Value.locate]
      apply (h.clear_locate identity token value hclear.wrapped).returned
      rw [h.returned identity' _ value, hclear.self]
  | .error message token' identity', hclear => by
      rw [Value.locate]
      split
      · exact h.clear_error hclear
      · exact hclear
  | .nil, hclear | .int _, hclear | .bool _, hclear | .string _, hclear
  | .function _ _ _ _, hclear | .builtin _, hclear => hclear

theorem Shallow.clear_locateAll (h : Shallow bad) (identity : Nat) (token : Token) :
    ∀ values : List Value, (∀ value ∈ values, value.Clear bad) →
      ∀ value ∈ locateAll identity token values, value.Clear bad
  | [], _ => by simp [locateAll]
  | first :: rest, hclear => by
      intro value hvalue
      rw [locateAll] at hvalue
      rcases List.mem_cons.mp hvalue with rfl | hvalue
      · exact h.clear_locate identity token first (hclear first List.mem_cons_self)
      · exact h.clear_locateAll identity token rest
          (fun value hvalue => hclear value (List.mem_cons_of_mem _ hvalue)) value hvalue

theorem Shallow.clear_locateEntries (h : Shallow bad) (identity : Nat) (token : Token) :
    ∀ entries : List (Key × Value), (∀ entry ∈ entries, entry.2.Clear bad) →
      ∀ entry ∈ locateEntries identity token entries, entry.2.Clear bad
  | [], _ => by simp [locateEntries]
  | (key, first) :: rest, hclear => by
      intro entry hentry
      rw [locateEntries] at hentry
      rcases List.mem_cons.mp hentry with rfl | hentry
      · exact h.clear_locate identity token first (hclear (key, first) List.mem_cons_self)
      · exact h.clear_locateEntries identity token rest
          (fun entry hentry => hclear entry (List.mem_cons_of_mem _ hentry)) entry hentry

end

theorem clear_start : Machine.start.Clear bad :=
  Store.Clear.open (fun _ hframe => absurd hframe (Array.not_mem_empty _)) none

theorem Store.Clear.locate {store : Store} (hkind : Shallow bad) (h : store.Clear bad)
    (identity : Nat) (token : Token) : (store.locate identity token).Clear bad := by
  intro found hfound binding hbinding
  obtain ⟨frame, hframe, rfl⟩ := Array.mem_map.mp hfound
  obtain ⟨old, hold, rfl⟩ := List.mem_map.mp hbinding
  exact hkind.clear_locate identity token old.2 (h frame hframe old hold)

end Values

end Monkey
