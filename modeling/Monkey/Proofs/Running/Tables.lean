/-
Hash literals.  Their pairs are evaluated from left to right, each key before its value, up to the
first failure.  What is given for the same key again takes the place of what was given before, so a
hash is a finite map, the keys of which stand in the order in which they came first.
-/
import Mathlib.Data.List.Basic
import Mathlib.Data.Finset.Card
import Mathlib.Data.Finset.Dedup
import Monkey.Proofs.Running.Clear
import Monkey.Proofs.Running.Trace

namespace Monkey

open Traced

/-! ### Tables -/

/-- A pair is given at an index, and its key is not given again. -/
structure LastAt (given : List (Key × Value)) (index : Nat) (pair : Key × Value) : Prop where
  found : given[index]? = some pair
  last : ∀ {later other}, index < later → given[later]? = some other → other.1 ≠ pair.1

/-- The entries are the last pairs given for each key, in the order in which the keys came
first. -/
structure Tabulates (given entries : List (Key × Value)) : Prop where
  keys : ∀ key, key ∈ entries.map Prod.fst ↔ key ∈ given.map Prod.fst
  order : (entries.map Prod.fst).Pairwise fun first second =>
    (given.map Prod.fst).idxOf first < (given.map Prod.fst).idxOf second
  last : ∀ entry ∈ entries, ∃ index, LastAt given index entry

section

variable {given entries : List (Key × Value)} {key : Key} {value : Value}

theorem LastAt.unique {index index' : Nat} {value' : Value}
    (h : LastAt given index (key, value)) (h' : LastAt given index' (key, value')) :
    value = value' := by
  rcases Nat.lt_trichotomy index index' with hlt | rfl | hlt
  · exact (h.last hlt h'.found rfl).elim
  · have heq := h.found.symm.trans h'.found
    cases heq
    rfl
  · exact (h'.last hlt h.found rfl).elim

/-- A pair given last is the last one of its key. -/
theorem lastAt_concat (given : List (Key × Value)) (pair : Key × Value) :
    LastAt (given ++ [pair]) given.length pair where
  found := List.getElem?_concat_length
  last {later other} hlater hother := by
    obtain ⟨hlt, _⟩ := List.getElem?_eq_some_iff.mp hother
    rw [List.length_append, List.length_singleton] at hlt
    omega

/-- A pair stays the last one of its key while other keys are given. -/
theorem LastAt.concat {index : Nat} {pair other : Key × Value} (h : LastAt given index pair)
    (hother : other.1 ≠ pair.1) : LastAt (given ++ [other]) index pair where
  found := by
    obtain ⟨hlt, _⟩ := List.getElem?_eq_some_iff.mp h.found
    rw [List.getElem?_append_left hlt, h.found]
  last {later found} hlater hfound := by
    by_cases hlt : later < given.length
    · rw [List.getElem?_append_left hlt] at hfound
      exact h.last hlater hfound
    · rw [List.getElem?_append_right (Nat.not_lt.mp hlt)] at hfound
      obtain rfl : found = other := List.mem_singleton.mp (List.mem_of_getElem? hfound)
      exact hother

theorem keys_insertEntry (key : Key) (value : Value) (entries : List (Key × Value)) :
    (insertEntry key value entries).map Prod.fst =
      if key ∈ entries.map Prod.fst then entries.map Prod.fst
      else entries.map Prod.fst ++ [key] := by
  induction entries with
  | nil => rfl
  | cons entry rest ih =>
      obtain ⟨key', value'⟩ := entry
      by_cases heq : key' = key
      · simp [insertEntry, heq]
      · have hne : key ≠ key' := Ne.symm heq
        have hcons : key ∈ ((key', value') :: rest).map Prod.fst ↔ key ∈ rest.map Prod.fst := by
          rw [List.map_cons, List.mem_cons, or_iff_right hne]
        simp only [insertEntry, if_neg heq, hcons]
        rw [List.map_cons, ih]
        split <;> rfl

/-- Entries under other keys are not touched, if no key has two entries. -/
theorem mem_insertEntry_of_nodup {entry : Key × Value} (hnodup : (entries.map Prod.fst).Nodup)
    (h : entry ∈ insertEntry key value entries) :
    entry = (key, value) ∨ entry ∈ entries ∧ entry.1 ≠ key := by
  induction entries with
  | nil => exact Or.inl (List.mem_singleton.mp h)
  | cons first rest ih =>
      obtain ⟨key', value'⟩ := first
      obtain ⟨hfirst, hrest⟩ := List.nodup_cons.mp hnodup
      rw [insertEntry] at h
      split at h
      · next hsame =>
          rcases List.mem_cons.mp h with heq | hmem
          · exact Or.inl heq
          · refine Or.inr ⟨List.mem_cons_of_mem _ hmem, fun hentry => hfirst ?_⟩
            have hkey : entry.1 ∈ rest.map Prod.fst := List.mem_map_of_mem hmem
            rwa [hentry, ← hsame] at hkey
      · next hne =>
          rcases List.mem_cons.mp h with rfl | hmem
          · exact Or.inr ⟨List.mem_cons_self, hne⟩
          · exact (ih hrest hmem).imp id fun hold => ⟨List.mem_cons_of_mem _ hold.1, hold.2⟩

namespace Tabulates

theorem nodup (h : Tabulates given entries) : (entries.map Prod.fst).Nodup :=
  h.order.imp fun {first second} hlt heq => by
    rw [heq] at hlt
    exact Nat.lt_irrefl _ hlt

theorem nil : Tabulates [] [] where
  keys _ := Iff.rfl
  order := .nil
  last := List.forall_mem_nil _

/-- One more pair is given. -/
theorem concat (h : Tabulates given entries) (key : Key) (value : Value) :
    Tabulates (given ++ [(key, value)]) (insertEntry key value entries) where
  keys key' := by
    rw [keys_insertEntry, List.map_append, List.mem_append, ← h.keys key']
    split
    · next hmem =>
        refine ⟨Or.inl, fun hor => hor.elim id fun hlast => ?_⟩
        exact List.mem_singleton.mp hlast ▸ hmem
    · rw [List.mem_append]
      rfl
  order := by
    have hold : (entries.map Prod.fst).Pairwise fun first second =>
        ((given ++ [(key, value)]).map Prod.fst).idxOf first <
          ((given ++ [(key, value)]).map Prod.fst).idxOf second := by
      refine h.order.imp_of_mem fun hfirst hsecond hlt => ?_
      rw [List.map_append, List.idxOf_append_of_mem ((h.keys _).mp hfirst),
        List.idxOf_append_of_mem ((h.keys _).mp hsecond)]
      exact hlt
    rw [keys_insertEntry]
    split
    · exact hold
    · next hnew =>
        -- A new key stands behind all others, where it is given first.
        refine List.pairwise_append.mpr ⟨hold, List.pairwise_singleton _ _, ?_⟩
        intro first hfirst second hsecond
        rw [List.mem_singleton.mp hsecond, List.map_append,
          List.idxOf_append_of_mem ((h.keys _).mp hfirst),
          List.idxOf_append_of_notMem fun hmem => hnew ((h.keys _).mpr hmem)]
        exact Nat.lt_add_right _ (List.idxOf_lt_length_of_mem ((h.keys _).mp hfirst))
  last entry hentry := by
    rcases mem_insertEntry_of_nodup h.nodup hentry with rfl | ⟨hold, hne⟩
    · exact ⟨given.length, lastAt_concat given (key, value)⟩
    · obtain ⟨index, hlast⟩ := h.last entry hold
      exact ⟨index, hlast.concat (Ne.symm hne)⟩

theorem length_eq (h : Tabulates given entries) :
    entries.length = (given.map Prod.fst).toFinset.card := by
  have hsame : (entries.map Prod.fst).toFinset = (given.map Prod.fst).toFinset :=
    Finset.ext fun key => by rw [List.mem_toFinset, List.mem_toFinset, h.keys key]
  rw [← hsame, List.toFinset_card_of_nodup h.nodup, List.length_map]

theorem lookup_of_lastAt (h : Tabulates given entries) {index : Nat}
    (hlast : LastAt given index (key, value)) : entries.lookup key = some value := by
  have hkey : key ∈ entries.map Prod.fst :=
    (h.keys key).mpr (List.mem_map_of_mem (List.mem_of_getElem? hlast.found))
  cases hfound : entries.lookup key with
  | none =>
      obtain ⟨entry, hentry, rfl⟩ := List.mem_map.mp hkey
      have hnone := List.lookup_eq_none_iff.mp hfound entry hentry
      simp at hnone
  | some value' =>
      obtain ⟨index', hlast'⟩ := h.last _ (mem_of_lookup hfound)
      rw [hlast'.unique hlast]

theorem lookup_of_not_mem (h : Tabulates given entries) (hkey : ∀ pair ∈ given, pair.1 ≠ key) :
    entries.lookup key = none := by
  cases hfound : entries.lookup key with
  | none => rfl
  | some value =>
      obtain ⟨index, hlast⟩ := h.last _ (mem_of_lookup hfound)
      exact absurd rfl (hkey _ (List.mem_of_getElem? hlast.found))

end Tabulates

end

/-! ### Evaluating pairs -/

section

variable (eval : Use → Node → Traced Value)

/-- The pairs are evaluated from left to right, each key before its value, to keys and values that
are no errors.  In between occurs what occurs in these evaluations. -/
inductive Delivers : List (Node × Node) → Machine → List (Key × Value) → List Occurrence →
    Machine → Prop
  | nil {machine : Machine} : Delivers [] machine [] [] machine
  | cons {keyNode valueNode : Node} {rest : List (Node × Node)} {machine mid next after : Machine}
      {key : Key} {value : Value} {given : List (Key × Value)}
      {keyTrace valueTrace trace : List Occurrence}
      (hkey : eval .tested keyNode machine = (keyTrace, .ok key.value mid))
      (hvalue : eval .kept valueNode mid = (valueTrace, .ok value next))
      (herror : value.isError = false) (hrest : Delivers rest next given trace after) :
      Delivers ((keyNode, valueNode) :: rest) machine ((key, value) :: given)
        (keyTrace ++ .keeps key.value :: (valueTrace ++ .keeps value :: trace)) after

/-- The evaluation of a pair fails with an error: that of its key, that its key cannot be one, or
that of its value.  No more of the pair is evaluated than up to there. -/
inductive FailsAt (keyNode valueNode : Node) (machine : Machine) :
    Value → List Occurrence → Machine → Prop
  | key {error : Value} {trace : List Occurrence} {after : Machine}
      (hkey : eval .tested keyNode machine = (trace, .ok error after))
      (herror : error.isError = true) : FailsAt keyNode valueNode machine error trace after
  | unusable {found : Value} {trace : List Occurrence} {after : Machine}
      (hkey : eval .tested keyNode machine = (trace, .ok found after))
      (herror : found.isError = false) (hunusable : found.key? = none) :
      FailsAt keyNode valueNode machine
        (.error ("unusable as hash key: " ++ found.typeName) keyNode.token? none)
        (trace ++ [.makes keyNode (.unusableKey found.typeName) after]) after
  | value {key : Key} {error : Value} {keyTrace trace : List Occurrence} {mid after : Machine}
      (hkey : eval .tested keyNode machine = (keyTrace, .ok key.value mid))
      (hvalue : eval .kept valueNode mid = (trace, .ok error after))
      (herror : error.isError = true) :
      FailsAt keyNode valueNode machine error (keyTrace ++ .keeps key.value :: trace) after

/-- The evaluation of the pairs fails with the error of the first pair that fails.  What stands
behind that is not evaluated. -/
inductive Fails (machine : Machine) :
    List (Node × Node) → Value → List Occurrence → Machine → Prop
  | first {before rest : List (Node × Node)} {keyNode valueNode : Node}
      {given : List (Key × Value)} {error : Value} {front back : List Occurrence}
      {mid after : Machine} (hbefore : Delivers eval before machine given front mid)
      (hfails : FailsAt eval keyNode valueNode mid error back after) :
      Fails machine (before ++ (keyNode, valueNode) :: rest) error (front ++ back) after

end

section

variable {eval : Use → Node → Traced Value}

theorem isError_key (key : Key) : key.value.isError = false := by
  cases key <;> rfl

theorem key?_key (key : Key) : key.value.key? = some key :=
  Value.key?_eq_some.mpr rfl

/-- A pair the key of which can be one: its value is evaluated next. -/
theorem tracePairs_of_key {keyNode valueNode : Node} {rest : List (Node × Node)}
    {machine mid : Machine} {key : Key} {trace : List Occurrence} {entries : List (Key × Value)}
    (hkey : eval .tested keyNode machine = (trace, .ok key.value mid)) :
    tracePairs eval entries ((keyNode, valueNode) :: rest) machine =
      let onward := (keep (eval .kept) valueNode >>= fun value =>
        if value.isError then pure (.error value)
        else tracePairs eval (insertEntry key value entries) rest) mid
      (trace ++ .keeps key.value :: onward.1, onward.2) := by
  rw [tracePairs, traced_bind_of_ok hkey]
  simp only [isError_key, key?_key]
  rfl

/-- What pairs give is entered into the table, and the rest goes on from there. -/
theorem Delivers.tracePairs {pairs : List (Node × Node)} {machine after : Machine}
    {given : List (Key × Value)} {trace : List Occurrence}
    (h : Delivers eval pairs machine given trace after) {before entries : List (Key × Value)}
    (hentries : Tabulates before entries) : ∃ entries', Tabulates (before ++ given) entries' ∧
      ∀ rest, Monkey.tracePairs eval entries (pairs ++ rest) machine =
        (trace ++ (Monkey.tracePairs eval entries' rest after).1,
          (Monkey.tracePairs eval entries' rest after).2) := by
  induction h generalizing before entries with
  | nil => exact ⟨entries, by rwa [List.append_nil], fun rest => rfl⟩
  | @cons keyNode valueNode pairs machine mid next after key value given keyTrace valueTrace trace
      hkey hvalue herror hrest ih =>
      obtain ⟨entries', htable, hrun⟩ := ih (hentries.concat key value)
      refine ⟨entries', by rwa [List.append_assoc] at htable, fun rest => ?_⟩
      rw [List.cons_append, tracePairs_of_key hkey,
        traced_bind_of_ok (keep_of_ok herror hvalue), if_neg (Bool.eq_false_iff.mp herror),
        hrun rest]
      simp only [List.append_assoc, List.cons_append, List.nil_append]

/-- After a failure no more is evaluated. -/
theorem FailsAt.tracePairs {keyNode valueNode : Node} {machine after : Machine} {error : Value}
    {trace : List Occurrence} (h : FailsAt eval keyNode valueNode machine error trace after)
    (entries : List (Key × Value)) (rest : List (Node × Node)) :
    Monkey.tracePairs eval entries ((keyNode, valueNode) :: rest) machine =
      (trace, .ok (.error error) after) := by
  cases h with
  | key hkey herror => exact traced_bind_pure hkey (by rw [if_pos herror])
  | unusable hkey herror hunusable =>
      rw [Monkey.tracePairs, traced_bind_of_ok hkey, if_neg (Bool.eq_false_iff.mp herror)]
      simp only [hunusable]
      rfl
  | @value key error keyTrace trace mid after hkey hvalue herror =>
      rw [tracePairs_of_key hkey, traced_bind_of_ok (keep_of_error herror hvalue), if_pos herror]
      exact Prod.ext (congrArg (keyTrace ++ .keeps key.value :: ·) (List.append_nil trace)) rfl

theorem Fails.tracePairs {pairs : List (Node × Node)} {machine after : Machine} {error : Value}
    {trace : List Occurrence} (h : Fails eval machine pairs error trace after) :
    Monkey.tracePairs eval [] pairs machine = (trace, .ok (.error error) after) := by
  cases h with
  | first hbefore hfails =>
      obtain ⟨entries, _, hpairs⟩ := hbefore.tracePairs .nil
      rw [hpairs, hfails.tracePairs]

/-- Pairs that are evaluated to an end give something each, or one of them fails. -/
theorem delivers_or_fails {pairs : List (Node × Node)} {machine after : Machine}
    {entries : List (Key × Value)} {trace : List Occurrence}
    {result : Except Value (List (Key × Value))}
    (h : Monkey.tracePairs eval entries pairs machine = (trace, .ok result after)) :
    (∃ given trace after, Delivers eval pairs machine given trace after) ∨
      ∃ error trace after, Fails eval machine pairs error trace after := by
  induction pairs generalizing machine entries trace with
  | nil => exact Or.inl ⟨[], [], machine, .nil⟩
  | cons pair rest ih =>
      obtain ⟨keyNode, valueNode⟩ := pair
      have hfails {error : Value} {trace' : List Occurrence} {after : Machine}
          (hat : FailsAt eval keyNode valueNode machine error trace' after) :
          ∃ error trace after,
            Fails eval machine ((keyNode, valueNode) :: rest) error trace after :=
        ⟨error, _, after, .first .nil hat⟩
      rcases hkey : eval .tested keyNode machine with ⟨keyTrace, ⟨found, mid⟩ | ⟨fault, mid⟩⟩
      · cases herror : found.isError with
        | true => exact Or.inr (hfails (.key hkey herror))
        | false =>
        cases hfound : found.key? with
        | none => exact Or.inr (hfails (.unusable hkey herror hfound))
        | some key =>
        obtain rfl := Value.key?_eq_some.mp hfound
        rw [tracePairs_of_key hkey] at h
        rcases hvalue : eval .kept valueNode mid with ⟨valueTrace, ⟨value, next⟩ | ⟨fault, next⟩⟩
        · cases herror' : value.isError with
          | true => exact Or.inr (hfails (.value hkey hvalue herror'))
          | false =>
          rw [traced_bind_of_ok (keep_of_ok herror' hvalue), herror', if_neg (by decide)] at h
          obtain ⟨_, hresult⟩ := Prod.ext_iff.mp h
          rcases ih (Prod.ext rfl hresult) with
            ⟨given, trace, after, hrest⟩ | ⟨error, trace, after, hrest⟩
          · exact Or.inl ⟨_, _, after, .cons hkey hvalue herror' hrest⟩
          · cases hrest with
            | first hbefore hat =>
                exact Or.inr ⟨error, _, after, .first (.cons hkey hvalue herror' hbefore) hat⟩
        · rw [keep, traced_bind_of_fault (traced_bind_of_fault hvalue)] at h
          cases h
      · rw [Monkey.tracePairs, traced_bind_of_fault hkey] at h
        cases h

end

/-! ### Literals -/

theorem displayEntries_eq (entries : List (Key × Value)) : displayEntries entries =
    ", ".intercalate (entries.map fun entry => entry.1.display ++ ": " ++ entry.2.display) := by
  induction entries with
  | nil => rfl
  | cons entry rest ih =>
      obtain ⟨key, value⟩ := entry
      cases rest with
      | nil => rw [displayEntries, List.map_singleton, String.intercalate_singleton]
      | cons second rest =>
          rw [displayEntries, ih, List.map_cons, List.map_cons, List.map_cons,
            String.intercalate_cons_cons]
          · nofun

theorem evalIndex_hash (token : Option Token) (identity : Nat) (entries : List (Key × Value))
    (key : Key) :
    evalIndex token (.hash identity entries) key.value = (entries.lookup key).getD .nil := by
  simp only [evalIndex, applyIndex, key?_key, settle]

/-- What a literal makes of its pairs. -/
def traceHash : Except Value (List (Key × Value)) → Traced Value
  | .error error => pure error
  | .ok entries => do return .hash (← act Action.newIdentity) entries

theorem trace_hash (token : Option Token) (pairs : List (Node × Node)) (depth : Nat) (use : Use)
    (frame : FrameId) (machine : Machine) :
    (Node.hash token pairs).trace (depth + 1) use frame machine =
      let made := (tracePairs (fun use node => node.trace depth use frame) [] pairs >>= traceHash)
        machine
      (.enters (.hash token pairs) frame machine :: made.1, made.2) := by
  rw [Node.trace]
  rfl

/-- A hash literal whose pairs all give a key and a value gives the finite map of what is given,
in which the last value given for a key counts; it is displayed in the order in which the keys came
first.  Otherwise it gives the first failure, and nothing behind that is evaluated. -/
theorem Node.hash_tabulates (token : Option Token) (pairs : List (Node × Node)) (depth : Nat)
    (use : Use) (frame : FrameId) (machine : Machine) :
    let eval := fun use (node : Node) => node.trace depth use frame
    let literal := Node.hash token pairs
    let run := literal.trace (depth + 1) use frame machine
    literal.eval (depth + 1) frame machine = run.2 ∧
      (∀ given trace after, Delivers eval pairs machine given trace after →
        ∃ entries, Tabulates given entries ∧
          entries.length = (given.map Prod.fst).toFinset.card ∧
          run = (.enters literal frame machine :: trace,
            .ok (.hash after.fresh entries) { after with fresh := after.fresh + 1 }) ∧
          (Value.hash after.fresh entries).display = "\x7b" ++ ", ".intercalate
            (entries.map fun entry => entry.1.display ++ ": " ++ entry.2.display) ++ "\x7d" ∧
          ∀ (place : Option Token) (key : Key),
            (∀ index value, LastAt given index (key, value) →
              evalIndex place (.hash after.fresh entries) key.value = value) ∧
            ((∀ pair ∈ given, pair.1 ≠ key) →
              evalIndex place (.hash after.fresh entries) key.value = .nil)) ∧
      (∀ error trace after, Fails eval machine pairs error trace after →
        run = (.enters literal frame machine :: trace, .ok error after)) ∧
      (∀ result after, run.2 = .ok result after →
        (∃ given trace after, Delivers eval pairs machine given trace after) ∨
          ∃ error trace after, Fails eval machine pairs error trace after) := by
  intro eval literal run
  refine ⟨(literal.trace_result (depth + 1) use frame machine).symm, ?_, ?_, ?_⟩
  · intro given trace after h
    obtain ⟨entries, htable, hpairs⟩ := h.tracePairs .nil
    rw [List.nil_append] at htable
    have hpairs : tracePairs eval [] pairs machine = (trace, .ok (.ok entries) after) := by
      have hnil := hpairs []
      rw [List.append_nil] at hnil
      exact hnil.trans (Prod.ext (List.append_nil trace) rfl)
    refine ⟨entries, htable, htable.length_eq, ?_, ?_, fun place key => ⟨?_, ?_⟩⟩
    · simp only [run, literal, trace_hash]
      have hmade : traceHash (.ok entries) after =
          ([], .ok (.hash after.fresh entries) { after with fresh := after.fresh + 1 }) := rfl
      rw [traced_bind_of_ok hpairs, hmade, List.append_nil]
    · rw [Value.display, displayEntries_eq]
    · intro index value hlast
      rw [evalIndex_hash, htable.lookup_of_lastAt hlast, Option.getD_some]
    · intro hkey
      rw [evalIndex_hash, htable.lookup_of_not_mem hkey, Option.getD_none]
  · intro error trace after h
    have hmade : traceHash (.error error) = pure error := rfl
    simp only [run, literal, trace_hash]
    rw [traced_bind_pure h.tracePairs hmade]
  · intro result after h
    simp only [run, literal, trace_hash] at h
    rcases hpairs : tracePairs eval [] pairs machine with ⟨trace, ⟨result, mid⟩ | ⟨fault, mid⟩⟩
    · exact delivers_or_fails hpairs
    · rw [traced_bind_of_fault hpairs] at h
      cases h

/-- Of the values given for 1 the last one counts, and true is another key; a division by zero ends
the second literal before its last pair. -/
theorem repeatedKey_tabulates :
    let eval := fun use (node : Node) => node.trace 2 use rootFrame
    let one := (Node.int none 1, Node.int none 10)
    let again := (Node.int none 1, Node.int none 40)
    let quotient := Node.infixOp none (.int none 1) "/" (.int none 0)
    let repeated := [one, (.bool none true, .int none 20), again]
    let failing := [one, (quotient, .int none 20), again]
    let given :=
      [(Key.int 1, Value.int 10), (Key.bool true, Value.int 20), (Key.int 1, Value.int 40)]
    ∃ trace trace',
      Delivers eval repeated .start given trace .start ∧
      Fails eval .start failing (.error "division by zero" none none) trace' .start ∧
      (∃ entries, entries.length = 2 ∧
        (Node.hash none repeated).eval 3 rootFrame .start =
          .ok (.hash 0 entries) { Machine.start with fresh := 1 } ∧
        evalIndex none (.hash 0 entries) (.int 1) = .int 40) ∧
      (Node.hash none failing).eval 3 rootFrame .start =
        .ok (.error "division by zero" none none) .start := by
  intro eval one again quotient repeated failing given
  have hkey (value : Int) : ∃ trace, eval .tested (.int none value) .start =
      (trace, .ok (Key.int value).value .start) := ⟨_, rfl⟩
  have hvalue (value : Int) : ∃ trace, eval .kept (.int none value) .start =
      (trace, .ok (.int value) .start) := ⟨_, rfl⟩
  have htrue : ∃ trace, eval .tested (.bool none true) .start =
      (trace, .ok (Key.bool true).value .start) := ⟨_, rfl⟩
  have hquotient : ∃ trace, eval .tested quotient .start =
      (trace, .ok (.error "division by zero" none none) .start) := ⟨_, rfl⟩
  obtain ⟨_, hone⟩ := hkey 1
  obtain ⟨_, hten⟩ := hvalue 10
  obtain ⟨_, htwenty⟩ := hvalue 20
  obtain ⟨_, hforty⟩ := hvalue 40
  obtain ⟨_, htrue⟩ := htrue
  obtain ⟨_, hquotient⟩ := hquotient
  have hdelivers := Delivers.cons hone hten rfl
    (.cons htrue htwenty rfl (.cons hone hforty rfl .nil))
  have hfails := @Fails.first eval .start _ [again] _ (.int none 20) _ _ _ _ _ _
    (.cons hone hten rfl .nil) (.key hquotient rfl)
  have hlast : LastAt given 2 (.int 1, .int 40) := lastAt_concat (given.take 2) _
  obtain ⟨hrun, hgives, _, _⟩ := Node.hash_tabulates none repeated 2 .passed rootFrame .start
  obtain ⟨hrun', _, herror, _⟩ := Node.hash_tabulates none failing 2 .passed rootFrame .start
  obtain ⟨entries, _, hlength, hliteral, _, hindex⟩ := hgives _ _ _ hdelivers
  refine ⟨_, _, hdelivers, hfails, ⟨entries, hlength, ?_, (hindex none (.int 1)).1 2 _ hlast⟩, ?_⟩
  · rw [hrun, hliteral]
    rfl
  · rw [hrun', herror _ _ _ hfails]

end Monkey
