/-
The reporter shows notices to the user.  It knows for each path the line that a problem is about
to be reported for, and decides whether an error ends the run.
-/
import Monkey.Report.Notice
import Monkey.Text.Blank

namespace Monkey

/-- What can leave a guarded block before its end. -/
inductive Stop where
  | notice (notice : Notice)
  | exit (code : Int)
  | interrupt
  | fault (fault : Fault)
deriving Repr, DecidableEq

/-- The line registered for a path, as far as it is known. -/
structure TraceLine where
  text : Option String
  number : Option Int
deriving Repr, DecidableEq

def TraceLine.unknown : TraceLine := ⟨none, none⟩

structure Reporter where
  /-- Errors end the run. -/
  fatal : Bool
  /-- The lines of paths, in the order of registration. -/
  trace : List (String × TraceLine)
  printed : String
deriving Repr

def Reporter.start (fatal : Bool) : Reporter :=
  ⟨fatal, [], ""⟩

namespace Reporter

def print (reporter : Reporter) (text : String) : Reporter :=
  { reporter with printed := reporter.printed ++ text }

def printLine (reporter : Reporter) (line : String) : Reporter :=
  reporter.print (line ++ "\n")

/-- The trace after a line is set: a known path keeps its place. -/
def setLine (path : String) (line : TraceLine) :
    List (String × TraceLine) → List (String × TraceLine)
  | [] => [(path, line)]
  | (path', line') :: rest =>
      if path' = path then (path, line) :: rest else (path', line') :: setLine path line rest

def register (reporter : Reporter) (path : String) (line : TraceLine) : Reporter :=
  { reporter with trace := setLine path line reporter.trace }

def registerLine (reporter : Reporter) (path text : String) (number : Int) : Reporter :=
  reporter.register path ⟨some text, some number⟩

/-- Registers a path without a line, or forgets its line. -/
def clearLine (reporter : Reporter) (path : String) : Reporter :=
  reporter.register path .unknown

/-- The first path with a line, and the number of the line. -/
def location? (reporter : Reporter) : Option (String × Option Int) :=
  reporter.trace.findSome? fun (path, line) => line.text.map fun _ => (path, line.number)

/-- The number of a line as it is shown. -/
def showNumber (number : Option Int) : String :=
  (number.map toString).getD "None"

variable (style : Style)

/-- Shows a warning, which never ends the run. -/
def warn (reporter : Reporter) (notice : Notice) : Reporter :=
  let place :=
    match reporter.location? with
    | some (path, number) =>
        if path.isEmpty then ""
        else style.bold (path ++ ":" ++ showNumber number ++ ":" ++ toString (notice.start + 1)
          ++ ": ")
    | none => ""
  let shown := reporter.printLine (place ++ style.boldIn .magenta "warning: " ++ notice.message)
  if notice.hasDiagnosis then shown.printLine (notice.diagnose style .magenta) else shown

/-- The header of one registered line; an empty line has none. -/
def header : String × TraceLine → Option String
  | (path, ⟨some text, number⟩) =>
      if text.isEmpty then none
      else some ("  File '" ++ path ++ "', line " ++ showNumber number ++ ":\n    " ++ trim text
        ++ "\n")
  | _ => none

/-- The headers of all registered lines. -/
def headers (reporter : Reporter) : String :=
  let headers := reporter.trace.filterMap header
  (if 1 < headers.length then "Traceback:\n" else "") ++ String.join headers

/-- The messages of a notice, each behind the word for an error. -/
def errorLines (notice : Notice) : String :=
  let mark := if notice.internal then style.boldIn .red "[internal] " else ""
  "\n".intercalate (notice.messages.map fun message =>
    mark ++ style.boldIn .red "error: " ++ message)

/-- Shows an error below the registered lines. -/
def showError (reporter : Reporter) (notice : Notice) : Reporter :=
  let shown := reporter.printLine (reporter.headers ++ errorLines style notice)
  if notice.hasDiagnosis then shown.printLine (notice.diagnose style .red) else shown

/-- Shows an error.  A fatal one asks for the end of the run and leaves the trace as it is;
otherwise all lines are forgotten. -/
def throw (reporter : Reporter) (notice : Notice) (fatal : Bool) : Reporter × Option Stop :=
  let shown := reporter.showError style notice
  if fatal then (shown, some (.exit 1))
  else ({ shown with trace := shown.trace.map fun (path, _) => (path, .unknown) }, none)

/-- How a guarded block is left: notices and interrupts are reported, nesting beyond the limit
always ends the run, and any other fault is reported as internal and goes on outward. -/
def settle (reporter : Reporter) : Stop → Reporter × Option Stop
  | .notice notice => reporter.throw style notice reporter.fatal
  | .exit code => (reporter, some (.exit code))
  | .interrupt => reporter.throw style (.plain "keyboard interrupt" "" {}) reporter.fatal
  | .fault .tooDeep =>
      reporter.throw style (.plain Fault.tooDeep.message "" { diagnosed := false }) true
  | .fault fault =>
      let text := "unknown error: '" ++ fault.category ++ ": " ++ fault.message ++ "'"
      let notice : Notice := .plain text "" { internal := true }
      let (shown, stop) := reporter.throw style notice reporter.fatal
      (shown, some (stop.getD (.fault fault)))

end Reporter

end Monkey
