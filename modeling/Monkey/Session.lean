/-
Sessions: source texts are parsed, queued, and run in order in one environment.  Parse errors
and error values become notices here, which point at the token that caused them.
-/
import Monkey.Eval
import Monkey.Parser.Tree
import Monkey.Report.Reporter

namespace Monkey

/-- What a run depends on besides its program and its input. -/
structure Host where
  style : Style
  /-- The depth to which evaluation may be nested. -/
  depth : Nat

/-- A terminal with escape codes, and the usual depth. -/
def Host.standard : Host :=
  ⟨.ansi, depthLimit⟩

/-- A parsed program that waits to be run. -/
structure Pending where
  lineNumber : Int
  source : String
  program : Node
deriving Repr

structure Session where
  reporter : Reporter
  path : String
  /-- The text of every parsed program is shown. -/
  showTree : Bool
  machine : Machine
  queue : List Pending
  /-- The results of the programs run, the oldest first. -/
  results : List Value
deriving Repr

/-- The path that stands for the command line. -/
def promptPath : String := "<in>"

/-- The line that ends a group of statements at the command line. -/
def sentinel : String := ";"

/-- Adds a line to a group of statements: the group, and whether it is still open.  The sentinel
closes the group and is not part of it. -/
def addLine (group line : String) : String × Bool :=
  if trim line = sentinel then (group, false) else (group ++ dropNewlines line ++ "\n", true)

example : addLine "a\n" " ; " = ("a\n", false) := by decide +kernel

/-- The text shown for the result of a program that was read from a file. -/
def displayResult : Value → String
  | .nil => "No output.."
  | value => "Result = " ++ value.display

/-- Where a token stands: its source line, the number of the line, and its span in the line. -/
structure Excerpt where
  line : String
  number : Int
  start : Nat
  stop : Nat
deriving Repr, DecidableEq

/-- The columns that a token takes, the quotes of a string included, and at least one. -/
def Token.width (token : Token) : Nat :=
  max (token.literal.length + if token.kind = .string then 2 else 0) 1

/-- The line of a token in a source text whose first line has a given number; it is empty if the
source has no such line. -/
def locate (source : String) (lineNumber : Int) (token : Token) : Excerpt :=
  let line :=
    if token.place.line < 1 then ""
    else ((splitLines source)[(token.place.line - 1).toNat]?).getD ""
  let start := (token.place.column - 1).toNat
  ⟨line, lineNumber + max token.place.line 1 - 1, start, start + token.width⟩

/-- A message and the excerpt it is about, as a notice. -/
def Excerpt.notice (excerpt : Excerpt) (message : String) (messages : List String) : Notice :=
  .plain message excerpt.line
    { start := excerpt.start, stop := excerpt.stop, messages := messages }

abbrev SessionAction (α : Type) := EStateM Stop Session α

namespace Session

def report (f : Reporter → Reporter) : SessionAction Unit :=
  modify fun session => { session with reporter := f session.reporter }

/-- Stops with a notice about a token of a source text, whose line is registered. -/
def fail {α : Type} (source : String) (lineNumber : Int) (token : Option Token)
    (message : String) (messages : List String) : SessionAction α := do
  match token with
  | none =>
      throw (.notice (.plain message "" { diagnosed := false, messages := messages }))
  | some token =>
      let session ← get
      let excerpt := locate source lineNumber token
      report (·.registerLine session.path excerpt.line excerpt.number)
      throw (.notice (excerpt.notice message messages))

/-- The queue after a program is queued.  One that waits under the same line number is replaced
in its place. -/
def enqueue (pending : Pending) : List Pending → List Pending
  | [] => [pending]
  | first :: rest =>
      if first.lineNumber = pending.lineNumber then pending :: rest
      else first :: enqueue pending rest

/-- Parses a source text and queues the program, unless there are parse errors. -/
def add (source : String) (lineNumber : Int) : SessionAction Unit := do
  match parse source with
  | .failed fault _ => throw (.fault fault)
  | .done program parser _ =>
      match parser.diagnostics with
      | first :: rest =>
          fail source lineNumber (some first.token) first.message
            ((first :: rest).map Diagnostic.message)
      | [] =>
          let session ← get
          if session.showTree then report (·.printLine (dropNewlines program.render))
          modify fun session =>
            { session with queue := enqueue ⟨lineNumber, source, program⟩ session.queue }

variable (style : Style)

/-- A warning about a token of the program that is being run. -/
def warnAt (pending : Pending) (message : String) (token : Option Token) :
    SessionAction Unit := do
  let session ← get
  match token with
  | none => report (·.warn style (.plain message "" { diagnosed := false }))
  | some token =>
      let excerpt := locate pending.source pending.lineNumber token
      report fun reporter =>
        ((reporter.registerLine session.path excerpt.line excerpt.number).warn style
          (excerpt.notice message [])).clearLine session.path

/-- A warning while no program is being run. -/
def warnIdle (message : String) : SessionAction Unit :=
  report (·.warn style (.plain message "" { diagnosed := false }))

/-- Shows what a program let the outside see. -/
def replay (pending : Pending) : List Event → SessionAction Unit
  | [] => pure ()
  | .wrote line :: rest => do
      report (·.printLine line)
      replay pending rest
  | .warned message token :: rest => do
      warnAt style pending message token
      replay pending rest

variable (host : Host)

/-- Runs one program in the environment of the session. -/
def runProgram (pending : Pending) : SessionAction Unit := do
  let session ← get
  let outcome := pending.program.eval host.depth rootFrame session.machine
  let machine :=
    match outcome with
    | .ok _ machine | .error _ machine => machine
  set { session with machine := { machine with events := #[] } }
  replay host.style pending machine.events.toList
  match outcome with
  | .error fault _ => throw (.fault fault)
  | .ok (.error message token _) _ => fail pending.source pending.lineNumber token message []
  | .ok result _ =>
      modify fun session =>
        { session with
          results := session.results ++ [result]
          reporter := session.reporter.clearLine session.path }

/-- Runs programs in order; each leaves the queue before it is run. -/
def runAll : List Pending → SessionAction Unit
  | [] => pure ()
  | pending :: rest => do
      modify fun session => { session with queue := rest }
      runProgram host pending
      runAll rest

/-- Runs every queued program. -/
def run : SessionAction Unit := do
  runAll host (← get).queue

/-- Takes the oldest result. -/
def pop : SessionAction Value := do
  let session ← get
  match session.results with
  | [] => throw (.fault .noResult)
  | result :: rest =>
      set { session with results := rest }
      pure result

/-- Runs an action and reports what stops it. -/
def guarded (action : SessionAction Unit) : SessionAction Unit := fun session =>
  match action session with
  | .ok () session => .ok () session
  | .error stop session =>
      let (reporter, left) := session.reporter.settle style stop
      let session := { session with reporter := reporter }
      match left with
      | some stop => .error stop session
      | none => .ok () session

end Session

/-- What is found under a path. -/
inductive FileContent where
  | unreadable
  | bytes (bytes : List UInt8)
deriving Repr

/-- Reads a source file: UTF-8 text in which every line ends with a newline. -/
def readSource (style : Style) (content : FileContent) (path : String) : Except Stop String :=
  if path.contains '\x00' then .error (.fault .nullInPath)
  else match content with
    | .unreadable =>
        .error (.notice (.plain ("'" ++ style.bold path ++ "' could not be opened") path
          { diagnosed := false }))
    | .bytes bytes =>
        match decodeUtf8 bytes with
        | .error fault => .error (.fault (.undecodable fault))
        | .ok text => .ok (String.ofList (unifyNewlines text))

/-- Starts a session on a path: a source file, which is queued, or the command line, where errors
are not fatal.  The reporter is given back also if the start fails. -/
def Session.start (style : Style) (reporter : Reporter) (files : String → FileContent)
    (path : String) (interactive showTree : Bool) : EStateM.Result Stop Session Unit :=
  let cleared := reporter.clearLine path
  let reporter := if interactive then { cleared with fatal := false } else cleared
  let session : Session := ⟨reporter, path, showTree, .start, [], []⟩
  if path = promptPath then
    if interactive then .ok () session
    else .error (.notice (.plain "'<in>' is a reserved filename" "" {})) session
  else match readSource style (files path) path with
    | .error stop => .error stop session
    | .ok source => Session.add source 1 session

end Monkey
