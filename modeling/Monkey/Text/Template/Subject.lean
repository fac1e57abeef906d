/-
Subjects: what a slot can show.  That is a text, a part of it at the end of a path, or the kind
that a text has.  A subject can be quoted and is then set by a layout.
-/
import Monkey.Text.Template.Slot

namespace Monkey

/-- The marks behind which a part of a text is named. -/
def isPartMark (c : Char) : Bool :=
  c == '.' || c == '['

/-- What a slot can show: a text, or the kind that a text has. -/
inductive Subject where
  | text (chars : List Char)
  | kind (name : String)
deriving Repr, DecidableEq

/-- A subject as the owner of its attributes. -/
def Subject.owner : Subject → String
  | .text _ => "'str' object"
  | .kind name => "type object '" ++ name ++ "'"

/-- The attributes of a subject: its kind, and the name of a kind. -/
def Subject.attribute (subject : Subject) (name : String) : Except TemplateFault Subject :=
  match subject, name with
  | .text _, "__class__" => .ok (.kind "str")
  | .kind _, "__class__" => .ok (.kind "type")
  | .kind owner, "__name__" => .ok (.text owner.toList)
  | subject, name => .error (.noAttribute subject.owner name)

/-- The items of a subject: a text has characters, by number. -/
def Subject.item (subject : Subject) (name : List Char) : Except TemplateFault Subject :=
  match readCount name, subject with
  | .error fault, _ => .error (.layout fault)
  | .ok (none, []), _ => .error .emptyPart
  | .ok _, .kind owner => .error (.noItems owner)
  | .ok (_, _ :: _), .text _ => .error .notAnIndex
  | .ok (some index, []), .text chars =>
      match chars[index]? with
      | some c => .ok (.text [c])
      | none => .error .noCharacter

/-- The part of a subject at the end of a path of attributes and items. -/
def followPath (subject : Subject) : List Char → Except TemplateFault Subject
  | [] => .ok subject
  | '.' :: rest =>
      let name := rest.takeWhile (!isPartMark ·)
      if name.isEmpty then .error .emptyPart
      else
        have : (rest.dropWhile (!isPartMark ·)).length ≤ rest.length :=
          (List.dropWhile_suffix _).length_le
        (subject.attribute (String.ofList name)).bind fun part =>
          followPath part (rest.dropWhile (!isPartMark ·))
  | '[' :: rest =>
      match h : rest.dropWhile (· != ']') with
      | [] => .error .unclosedItem
      | _ :: after =>
          have : after.length < rest.length := by
            have := (List.dropWhile_suffix (l := rest) (· != ']')).length_le
            simp only [h, List.length_cons] at this
            omega
          (subject.item (rest.takeWhile (· != ']'))).bind fun part => followPath part after
  | _ => .error .afterItem
termination_by path => path.length

/-- A subject as text. -/
def Subject.chars : Subject → List Char
  | .text chars => chars
  | .kind name => ("<class '" ++ name ++ "'>").toList

/-- A subject in quotes, where only a text needs them. -/
def Subject.quoteBy (quote : String → String) : Subject → List Char
  | .text chars => (quote (String.ofList chars)).toList
  | subject => subject.chars

/-- Makes a subject a text if a conversion asks for it. -/
def Subject.convert (subject : Subject) : Option Char → Except TemplateFault Subject
  | none | some '\x00' => .ok subject
  | some 's' => .ok (.text subject.chars)
  | some 'r' => .ok (.text (subject.quoteBy quote))
  | some 'a' => .ok (.text (subject.quoteBy quoteAscii))
  | some mark => .error (.unknownConversion mark)

/-- Sets a subject by a written layout, which a kind cannot have. -/
def Subject.set (subject : Subject) (layout : List Char) : Except TemplateFault (List Char) :=
  match subject with
  | .text chars => (setText layout chars).mapError .layout
  | .kind _ => if layout.isEmpty then .ok subject.chars else .error .noLayout

end Monkey
