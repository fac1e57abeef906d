/-
Notices: errors and warnings as they are shown to the user, with the source line they are about
and a span of it to be marked.
-/
import Monkey.Fault
import Monkey.Text.Style

namespace Monkey

/-- A position in a text of a given length: negative ones count from the end, and those outside
are moved to the nearest end. -/
def clip (length : Nat) (position : Int) : Nat :=
  if position < 0 then (position + length).toNat else min position.toNat length

theorem clip_of_le {length position : Nat} (h : position ≤ length) :
    clip length position = position := by
  unfold clip
  split <;> omega

/-- The part of a text between two positions. -/
def slice (text : String) (start stop : Int) : String :=
  let chars := text.toList
  String.ofList ((chars.take (clip chars.length stop)).drop (clip chars.length start))

/-- Between two positions inside a text, nothing is moved. -/
theorem toList_slice {text : String} {start stop : Nat} (hstart : start ≤ text.length)
    (hstop : stop ≤ text.length) :
    (slice text start stop).toList = (text.toList.take stop).drop start := by
  rw [← String.length_toList] at hstart hstop
  simp [slice, clip_of_le hstart, clip_of_le hstop]

structure Notice where
  message : String
  /-- All that is reported at once, the message itself usually. -/
  messages : List String
  excerpt : String
  /-- The marked span of the excerpt. -/
  start : Int
  stop : Int
  /-- The excerpt is shown below the messages. -/
  diagnosed : Bool
  /-- The fault lies in the interpreter and not in the program. -/
  internal : Bool
deriving Repr, DecidableEq

/-- What a notice says about its excerpt and its kind.  A stop of -1 is the end of the excerpt. -/
structure Notice.Details where
  start : Int := 0
  stop : Int := -1
  diagnosed : Bool := true
  internal : Bool := false
  /-- Without entries the message is reported. -/
  messages : List String := []

/-- A notice whose message is a text as it stands. -/
def Notice.plain (message excerpt : String) (details : Notice.Details) : Notice where
  message := message
  messages := if details.messages.isEmpty then [message] else details.messages
  excerpt := excerpt
  start := details.start
  stop := if details.stop = -1 then excerpt.length else details.stop
  diagnosed := details.diagnosed
  internal := details.internal

variable (style : Style)

/-- A notice whose message is a template filled with bold texts.  The first one is the excerpt. -/
def Notice.fill (template : String) (fillings : List String) (details : Notice.Details) :
    Except Fault Notice := do
  let message ← (fillTemplate template (fillings.map style.bold)).mapError .template
  match fillings with
  | [] => .error .noExcerpt
  | excerpt :: _ => .ok (.plain message excerpt details)

/-- The excerpt with its span in color, and carets under the span.  At least one column is
marked. -/
def Notice.diagnose (notice : Notice) (color : Color) : String :=
  let stop := max notice.stop (notice.start + 1)
  let length : Int := notice.excerpt.length
  let repeated (c : Char) (count : Int) : String := String.ofList (List.replicate count.toNat c)
  "  " ++ slice notice.excerpt 0 notice.start
    ++ style.boldIn color (slice notice.excerpt notice.start stop)
    ++ slice notice.excerpt stop length ++ "\n"
    ++ "  " ++ repeated ' ' notice.start
    ++ style.boldIn color ("^" ++ repeated '~' (stop - notice.start - 1))

/-- The excerpt is worth showing. -/
def Notice.hasDiagnosis (notice : Notice) : Bool :=
  !notice.internal && !notice.excerpt.isEmpty && notice.diagnosed

end Monkey
