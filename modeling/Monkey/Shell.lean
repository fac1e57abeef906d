/-
The command line: lines are collected until one that holds only the sentinel, and then run as
one group.  A few bare words are commands.
-/
import Monkey.Session

namespace Monkey

/-- The prompt, and the one shown while a group of statements is open. -/
def mainPrompt : String := ">> "

def groupPrompt : String := ". "

structure Shell where
  session : Session
  /-- The lines of the open group. -/
  group : String
  lineCount : Nat
  /-- The number of the first line of the group. -/
  groupStart : Nat
  prompt : String
deriving Repr

inductive Command where
  | help
  | exit
  | endOfInput
  | blank
deriving Repr, DecidableEq

/-- The command that a line is; any other line is part of a program. -/
def Command.ofLine? (line : String) : Option Command :=
  match trim line with
  | "" => some .blank
  | "help" | "?" => some .help
  | "exit" => some .exit
  | "EOF" => some .endOfInput
  | _ => none

def introText : String :=
  "Monkey interpreter :: Python backend\nType '?' or 'help' for more information."

def helpText : String :=
  "Welcome to the monkey interpreter!\n\n"
    ++ "Type statements over as many lines as you like, then a line holding only ';' to run\n"
    ++ "them. Bindings made with 'let' are kept for the rest of the session.\n\n"
    ++ "Try it out by typing 'let add = fn(a, b) \x7b a + b \x7d', then 'add(2, 3)', then ';'.\n"
    ++ "Built-in functions: puts, toStr, len, first, last, rest, push.\n"

namespace Shell

def ofSession (session : Session) : Shell :=
  ⟨session, "", 0, 1, mainPrompt⟩

/-- A shell with a session of its own. -/
def start (reporter : Reporter) (showTree : Bool) : Shell :=
  ofSession
    ⟨{ reporter.clearLine promptPath with fatal := false }, promptPath, showTree, .start, [], []⟩

def print (shell : Shell) (text : String) : Shell :=
  { shell with session :=
      { shell.session with reporter := shell.session.reporter.print text } }

/-- The shell once what it printed has been shown. -/
def forgetPrinted (shell : Shell) : Shell :=
  { shell with session :=
      { shell.session with reporter := { shell.session.reporter with printed := "" } } }

variable (host : Host)

/-- Runs a group and shows its result, if it has one. -/
def runGroup (group : String) (lineNumber : Int) : SessionAction Unit := do
  Session.add group lineNumber
  Session.run host
  if !(← get).results.isEmpty then
    match ← Session.pop with
    | .nil => pure ()
    | result => Session.report (·.print (result.display ++ "\n"))

/-- Takes a line of a program. -/
def addLine (shell : Shell) (line : String) : Shell × Option Stop :=
  let lineCount := shell.lineCount + 1
  let groupStart := if shell.group.isEmpty then lineCount else shell.groupStart
  let (group, isOpen) := Monkey.addLine shell.group line
  if isOpen then
    (⟨shell.session, group, lineCount, groupStart, groupPrompt⟩, none)
  else
    let closed (session : Session) : Shell := ⟨session, "", lineCount, groupStart, mainPrompt⟩
    if isBlankText group then (closed shell.session, none)
    else match Session.guarded host.style (runGroup host group groupStart) shell.session with
      | .ok () session => (closed session, none)
      | .error stop session => (closed session, some stop)

/-- Takes a line: the shell after it, and whether it was the last one, unless something stops
the shell altogether. -/
def feed (shell : Shell) (line : String) : Shell × Except Stop Bool :=
  match Command.ofLine? line with
  | some .blank => (shell, .ok false)
  | some .help => (shell.print helpText, .ok false)
  | some .exit => (shell, .ok true)
  | some .endOfInput => (shell.print "\n", .ok true)
  | none =>
      match shell.addLine host line with
      | (shell, none) => (shell, .ok false)
      | (shell, some stop) => (shell, .error stop)

/-- Prompts for and takes lines until the last one; the end of the input counts as a line. -/
def interact (shell : Shell) : List String → Shell × Except Stop Unit
  | [] =>
      let (shell, outcome) := (shell.print shell.prompt).feed host "EOF"
      (shell, outcome.map fun _ => ())
  | line :: rest =>
      match (shell.print shell.prompt).feed host line with
      | (shell, .ok false) => shell.interact rest
      | (shell, .ok true) => (shell, .ok ())
      | (shell, .error stop) => (shell, .error stop)

end Shell

end Monkey
