/-
Scripts: what the lines typed at the command line ask for.  Blank lines ask for nothing, a help
line for the help text, and the others make up groups, each of which a sentinel line closes.
-/
import Monkey.Shell

namespace Monkey

/-- What is asked for: the help text, or to run a group of lines, the first of which has a number.
Only the lines of programs are counted. -/
inductive Request where
  | help
  | run (number : Nat) (group : List String)
deriving Repr, DecidableEq

/-- The lines of programs that were typed: how many of them, and those of the open group. -/
structure Typed where
  count : Nat
  group : List String
deriving Repr, DecidableEq

namespace Typed

def start : Typed :=
  ⟨0, []⟩

/-- Types one more line: what is asked for, and what is then typed. -/
def type (typed : Typed) (line : String) : Option Request × Typed :=
  match Command.ofLine? line with
  | some .help => (some .help, typed)
  | some _ => (none, typed)
  | none =>
      if trim line = sentinel then
        (some (.run (typed.count - typed.group.length + 1) typed.group), ⟨typed.count + 1, []⟩)
      else (none, ⟨typed.count + 1, typed.group ++ [line]⟩)

/-- What is typed after the lines. -/
def typeAll (typed : Typed) (lines : List String) : Typed :=
  lines.foldl (fun typed line => (typed.type line).2) typed

/-- What the lines ask for, in order. -/
def requests (typed : Typed) : List String → List Request
  | [] => []
  | line :: rest => (typed.type line).1.toList ++ (typed.type line).2.requests rest

end Typed

/-- The line is part of a program, and no command. -/
def isProgramLine (line : String) : Bool :=
  (Command.ofLine? line).isNone

def isSentinel (line : String) : Bool :=
  trim line = sentinel

def Request.group? : Request → Option (List String)
  | .help => none
  | .run _ group => some group

/-- The groups that are run and the open one are what the sentinel lines cut the lines of programs
into. -/
theorem groups_requests (typed : Typed) (lines : List String) :
    (typed.requests lines).filterMap Request.group? ++ [(typed.typeAll lines).group] =
      ((lines.filter isProgramLine).splitOnP isSentinel).modifyHead (typed.group ++ ·) := by
  induction lines generalizing typed with
  | nil => simp [Typed.requests, Typed.typeAll]
  | cons line rest ih =>
      rw [Typed.requests, List.filterMap_append, List.append_assoc]
      have hrest := ih (typed.type line).2
      rw [show typed.typeAll (line :: rest) = (typed.type line).2.typeAll rest from rfl, hrest]
      cases hcommand : Command.ofLine? line with
      | some command =>
          have hline : isProgramLine line = false := by simp [isProgramLine, hcommand]
          rw [List.filter_cons_of_neg (by simp [hline])]
          cases command <;> simp [Typed.type, hcommand, Request.group?]
      | none =>
          have hline : isProgramLine line = true := by simp [isProgramLine, hcommand]
          rw [List.filter_cons_of_pos hline, List.splitOnP_cons_eq_if_modifyHead]
          by_cases hsentinel : trim line = sentinel
          · have hid (pieces : List (List String)) :
                pieces.modifyHead (fun group => group) = pieces :=
              congrFun List.modifyHead_id pieces
            simp [Typed.type, hcommand, hsentinel, isSentinel, Request.group?, hid]
          · simp [Typed.type, hcommand, hsentinel, isSentinel, List.modifyHead_modifyHead,
              Function.comp_def]

end Monkey
