/-
The parts of a message template: plain characters, and slots between braces.  A doubled brace
stands for one brace.  A template that cannot be read to its end has the reason as its last part,
since the slots before it are filled first.
-/
import Monkey.Text.Layout

namespace Monkey

/-- Why a template cannot be filled. -/
inductive TemplateFault where
  | loneOpening
  | loneClosing
  | openingInName
  | unclosed
  | unclosedLayout
  | unclosedItem
  | noConversion
  | afterConversion
  | unknownConversion (mark : Char)
  /-- A slot with a number stands behind one without, or the other way round. -/
  | toNumbered
  | toAutomatic
  | noFilling (index : Nat)
  | noName (name : String)
  | noAttribute (owner name : String)
  | noCharacter
  | notAnIndex
  | noItems (kind : String)
  | noLayout
  | emptyPart
  | afterItem
  | tooNested
  | layout (fault : LayoutFault)
deriving Repr, DecidableEq

def TemplateFault.category : TemplateFault → String
  | .noFilling _ | .noCharacter => "IndexError"
  | .noName _ => "KeyError"
  | .noAttribute .. => "AttributeError"
  | .notAnIndex | .noItems _ | .noLayout => "TypeError"
  | .layout .tooWide => "MemoryError"
  | _ => "ValueError"

def TemplateFault.message : TemplateFault → String
  | .loneOpening => "Single '\x7b' encountered in format string"
  | .loneClosing => "Single '\x7d' encountered in format string"
  | .openingInName => "unexpected '\x7b' in field name"
  | .unclosed => "expected '\x7d' before end of string"
  | .unclosedLayout => "unmatched '\x7b' in format spec"
  | .unclosedItem => "Missing ']' in format string"
  | .noConversion => "end of string while looking for conversion specifier"
  | .afterConversion => "expected ':' after conversion specifier"
  | .unknownConversion mark => "Unknown conversion specifier " ++ visibleBelow 127 mark
  | .toNumbered =>
      "cannot switch from automatic field numbering to manual field specification"
  | .toAutomatic =>
      "cannot switch from manual field specification to automatic field numbering"
  | .noFilling index => s!"Replacement index {index} out of range for positional args tuple"
  | .noName name => quote name
  | .noAttribute owner name => owner ++ " has no attribute '" ++ name ++ "'"
  | .noCharacter => "string index out of range"
  | .notAnIndex => "string indices must be integers, not 'str'"
  | .noItems kind => "type '" ++ kind ++ "' is not subscriptable"
  | .noLayout => "unsupported format string passed to type.__format__"
  | .emptyPart => "Empty attribute in format string"
  | .afterItem => "Only '.' or '[' may follow ']' in format field specifier"
  | .tooNested => "Max string recursion exceeded"
  | .layout fault => fault.message

/-- What stands between a pair of braces. -/
structure Slot where
  name : List Char
  conversion : Option Char
  layout : List Char
deriving Repr, DecidableEq

inductive Piece where
  | literal (c : Char)
  | slot (slot : Slot)
  /-- The template cannot be read from here on. -/
  | broken (fault : TemplateFault)
deriving Repr, DecidableEq

/-- Reads a name up to the mark that ends it.  Between brackets no mark counts. -/
def readName (bracketed : Bool) : List Char → Except TemplateFault (List Char × Char × List Char)
  | [] => .error .unclosed
  | c :: rest =>
      if bracketed then
        (readName (c != ']') rest).map fun (name, mark, rest) => (c :: name, mark, rest)
      else if c = '\x7b' then .error .openingInName
      else if c = '\x7d' ∨ c = ':' ∨ c = '!' then .ok ([], c, rest)
      else (readName (c == '[') rest).map fun (name, mark, rest) => (c :: name, mark, rest)

/-- The number of open braces after a character. -/
def openAfter (braces : Nat) (c : Char) : Nat :=
  if c = '\x7b' then braces + 1 else if c = '\x7d' then braces - 1 else braces

/-- Reads a layout up to the brace that closes the slot, with a number of braces open inside. -/
def readLayout (inner : Nat) : List Char → Except TemplateFault (List Char × List Char)
  | [] => .error .unclosedLayout
  | c :: rest =>
      if c = '\x7d' ∧ inner = 0 then .ok ([], rest)
      else (readLayout (openAfter inner c) rest).map fun (layout, rest) => (c :: layout, rest)

/-- Reads a slot behind its opening brace. -/
def readSlot (text : List Char) : Except TemplateFault (Slot × List Char) :=
  match readName false text with
  | .error fault => .error fault
  | .ok (name, mark, rest) =>
      let withLayout (conversion : Option Char) (rest : List Char) :=
        (readLayout 0 rest).map fun (layout, rest) => (Slot.mk name conversion layout, rest)
      if mark = '\x7d' then .ok (⟨name, none, []⟩, rest)
      else if mark = ':' then withLayout none rest
      else match rest with
        | [] => .error .noConversion
        | [conversion] => withLayout (some conversion) []
        | conversion :: next :: rest =>
            if next = '\x7d' then .ok (⟨name, some conversion, []⟩, rest)
            else if next = ':' then withLayout (some conversion) rest
            else .error .afterConversion

theorem eq_ok_of_map {ε α β : Type} {f : α → β} {outcome : Except ε α} {result : β}
    (h : outcome.map f = .ok result) : ∃ value, outcome = .ok value ∧ f value = result := by
  cases outcome with
  | error fault => cases h
  | ok value => exact ⟨value, rfl, Except.ok.inj h⟩

theorem length_of_readName {bracketed : Bool} {text name rest : List Char} {mark : Char}
    (h : readName bracketed text = .ok (name, mark, rest)) : rest.length < text.length := by
  fun_induction readName bracketed text generalizing name with
  | case1 => cases h
  | case2 c text ih | case5 bracketed c text _ _ _ ih =>
      obtain ⟨⟨name', mark', rest'⟩, hread, heq⟩ := eq_ok_of_map h
      cases heq
      exact Nat.lt_succ_of_lt (ih hread)
  | case3 => cases h
  | case4 => cases h; exact Nat.lt_succ_self _

theorem length_of_readLayout {inner : Nat} {text layout rest : List Char}
    (h : readLayout inner text = .ok (layout, rest)) : rest.length < text.length := by
  fun_induction readLayout inner text generalizing layout with
  | case1 => cases h
  | case2 => cases h; exact Nat.lt_succ_self _
  | case3 _ _ _ _ ih =>
      obtain ⟨⟨layout', rest'⟩, hread, heq⟩ := eq_ok_of_map h
      cases heq
      exact Nat.lt_succ_of_lt (ih hread)

theorem length_of_readSlot {text rest : List Char} {slot : Slot}
    (h : readSlot text = .ok (slot, rest)) : rest.length < text.length := by
  unfold readSlot at h
  split at h
  · cases h
  · rename_i name mark after hname
    have hlt := length_of_readName hname
    have hlayout {conversion : Option Char} {tail : List Char} (hle : tail.length ≤ after.length)
        (h : ((readLayout 0 tail).map fun (layout, rest) =>
          (Slot.mk name conversion layout, rest)) = .ok (slot, rest)) :
        rest.length < text.length := by
      obtain ⟨⟨layout, rest'⟩, hread, heq⟩ := eq_ok_of_map h
      cases heq
      exact Nat.lt_of_lt_of_le (length_of_readLayout hread) (Nat.le_trans hle (Nat.le_of_lt hlt))
    simp only at h
    split at h
    · cases h; exact hlt
    · split at h
      · exact hlayout (Nat.le_refl _) h
      · split at h
        · cases h
        · exact hlayout (by simp) h
        · split at h
          · cases h
            simp only [List.length_cons] at hlt
            omega
          · split at h
            · exact hlayout (by simp; omega) h
            · cases h

/-- Cuts a template into its pieces. -/
def pieces : List Char → List Piece
  | [] => []
  | '\x7b' :: '\x7b' :: rest => .literal '\x7b' :: pieces rest
  | '\x7d' :: '\x7d' :: rest => .literal '\x7d' :: pieces rest
  | ['\x7b'] => [.broken .loneOpening]
  | '\x7d' :: _ => [.broken .loneClosing]
  | '\x7b' :: rest =>
      match h : readSlot rest with
      | .error fault => [.broken fault]
      | .ok (slot, after) =>
          have := length_of_readSlot h
          .slot slot :: pieces after
  | c :: rest => .literal c :: pieces rest
termination_by template => template.length
decreasing_by all_goals (simp only [List.length_cons] at *; omega)

end Monkey
