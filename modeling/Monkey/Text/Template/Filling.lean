/-
Filling message templates.  A slot names its text by a number or takes the next one, and a
template does not mix the two; the layout of a slot can hold slots in turn.  Main statement: a
text whose braces are doubled is a template for itself.
-/
import Monkey.Text.Template.Subject

namespace Monkey

/-- How the slots so far have named their texts. -/
inductive Numbering where
  | undecided
  | automatic (next : Nat)
  | numbered
deriving Repr, DecidableEq

/-- The number of the text that a slot takes.  An empty name takes the next text. -/
def Numbering.choose (numbering : Numbering) (name : List Char) :
    Except TemplateFault (Nat × Numbering) :=
  match readCount name with
  | .error fault => .error (.layout fault)
  | .ok (none, []) =>
      match numbering with
      | .undecided => .ok (0, .automatic 1)
      | .automatic next => .ok (next, .automatic (next + 1))
      | .numbered => .error .toAutomatic
  | .ok (some index, []) =>
      match numbering with
      | .undecided | .numbered => .ok (index, .numbered)
      | .automatic _ => .error .toNumbered
  | .ok (_, _ :: _) => .error (.noName (String.ofList name))

/-- What filling gives: a text, and how the slots so far have named theirs. -/
abbrev Filling := Except TemplateFault (List Char × Numbering)

/-- Fills a slot.  A layout with slots of its own is filled first. -/
def fillSlot (fillLayout : Numbering → List Char → Filling) (fillings : List (List Char))
    (numbering : Numbering) (slot : Slot) : Filling := do
  let (index, numbering) ← numbering.choose (slot.name.takeWhile (!isPartMark ·))
  match fillings[index]? with
  | none => .error (.noFilling index)
  | some filling =>
      let part ← followPath (.text filling) (slot.name.dropWhile (!isPartMark ·))
      let shown ← part.convert slot.conversion
      let (layout, numbering) ←
        if slot.layout.contains '\x7b' then fillLayout numbering slot.layout
        else pure (slot.layout, numbering)
      return (← shown.set layout, numbering)

/-- Fills pieces from left to right, up to the first fault. -/
def fillPieces (fillLayout : Numbering → List Char → Filling) (fillings : List (List Char))
    (numbering : Numbering) : List Piece → Filling
  | [] => .ok ([], numbering)
  | .broken fault :: _ => .error fault
  | .literal c :: rest =>
      (fillPieces fillLayout fillings numbering rest).map fun (text, numbering) =>
        (c :: text, numbering)
  | .slot slot :: rest => do
      let (text, numbering) ← fillSlot fillLayout fillings numbering slot
      (fillPieces fillLayout fillings numbering rest).map fun (more, numbering) =>
        (text ++ more, numbering)

/-- Fills a template with layouts in it, nested no deeper than a limit. -/
def fillNested (fillings : List (List Char)) : Nat → Numbering → List Char → Filling
  | 0, _, _ => .error .tooNested
  | depth + 1, numbering, template =>
      fillPieces (fillNested fillings depth) fillings numbering (pieces template)

/-- A layout can have slots, and their layouts cannot. -/
def nestingLimit : Nat := 2

def fillTemplate (template : String) (fillings : List String) : Except TemplateFault String :=
  (fillNested (fillings.map String.toList) nestingLimit .undecided template.toList).map
    fun (text, _) => String.ofList text

example : fillTemplate "\x7b:>\x7b\x7d\x7d|\x7b0!r\x7d" ["a", "3"] = .error .toNumbered := by cbv

example : fillTemplate "\x7b:>\x7b\x7d\x7d|\x7b\x7d" ["a", "3", "b"] = .ok "  a|b" := by cbv

/-! ### Templates of plain text -/

/-- Doubles every brace. -/
def escapeBraces : List Char → List Char
  | [] => []
  | '\x7b' :: rest => '\x7b' :: '\x7b' :: escapeBraces rest
  | '\x7d' :: rest => '\x7d' :: '\x7d' :: escapeBraces rest
  | c :: rest => c :: escapeBraces rest

/-- Doubles every brace of a text, so that it can stand in a template. -/
def escapeTemplate (text : String) : String :=
  String.ofList (escapeBraces text.toList)

/-- Doubled braces are no slots, whatever follows them. -/
theorem pieces_escapeBraces_append (text rest : List Char) :
    pieces (escapeBraces text ++ rest) = text.map .literal ++ pieces rest := by
  fun_induction escapeBraces text with
  | case1 => rfl
  | case2 text ih => simp [pieces, ih]
  | case3 text ih => simp [pieces, ih]
  | case4 c text hopen hclose ih =>
      rw [List.cons_append, pieces, ih]
      · rfl
      all_goals simp_all

/-- Plain text is kept as it is. -/
theorem fillPieces_literal_append (fillLayout : Numbering → List Char → Filling)
    (fillings : List (List Char)) (numbering : Numbering) (text : List Char) (rest : List Piece) :
    fillPieces fillLayout fillings numbering (text.map .literal ++ rest) =
      (fillPieces fillLayout fillings numbering rest).map fun (more, numbering) =>
        (text ++ more, numbering) := by
  induction text with
  | nil => cases h : fillPieces fillLayout fillings numbering rest <;> simp [h, Except.map]
  | cons c text ih =>
      rw [List.map_cons, List.cons_append, fillPieces, ih]
      cases fillPieces fillLayout fillings numbering rest <;> rfl

theorem fillTemplate_escapeTemplate (text : String) (fillings : List String) :
    fillTemplate (escapeTemplate text) fillings = .ok text := by
  have hpieces := pieces_escapeBraces_append text.toList []
  rw [List.append_nil] at hpieces
  rw [fillTemplate, escapeTemplate, String.toList_ofList, nestingLimit, fillNested, hpieces,
    fillPieces_literal_append]
  simp [pieces, fillPieces, Except.map]

end Monkey
