/-
The program: it runs a source file and shows its results, or prompts for lines.  What it prints
and how it ends are functions of the command line, the files, the input and the style of the
terminal.
-/
import Monkey.CommandLine.Options
import Monkey.Shell

namespace Monkey

/-- Checks a limit on the host's stack, which has to fit into 32 bits with a sign.  The run itself
takes more than one entry. -/
def checkLimit (limit : Int) : Except Stop Unit :=
  if limit < -0x80000000 ∨ 0x80000000 ≤ limit then .error (.fault .limitTooHigh)
  else if limit < 1 then .error (.fault .limitTooLow)
  else if limit = 1 then .error (.fault .tooDeep)
  else .ok ()

/-- The depth of evaluation that a limit on the host's stack leaves room for: every level takes two
entries at least. -/
def depthFor (limit : Int) : Nat :=
  (limit / 2).toNat

example : depthFor Options.default.recursionLimit = depthLimit := by decide

/-- Runs a source file and shows the result of each program. -/
def runFile (host : Host) (files : String → FileContent) (path : String) (showTree : Bool) :
    Reporter → Reporter × Except Stop Unit := fun reporter =>
  match Session.start host.style reporter files path false showTree with
  | .error stop session => (session.reporter, .error stop)
  | .ok () session =>
      match Session.run host session with
      | .error stop session => (session.reporter, .error stop)
      | .ok () session =>
          (session.results.foldl (fun reporter result => reporter.printLine (displayResult result))
            session.reporter, .ok ())

/-- Prompts for lines until the input ends or a command says so. -/
def runPrompt (host : Host) (lines : List String) (showTree : Bool) :
    Reporter → Reporter × Except Stop Unit := fun reporter =>
  let shell := (Shell.start reporter showTree).print (introText ++ "\n")
  let (shell, outcome) := shell.interact host lines
  (shell.session.reporter, outcome)

variable (style : Style)

/-- Reads the command line, and then runs a file or prompts for lines. -/
def runArguments (files : String → FileContent) (lines : List String) (arguments : List String)
    (reporter : Reporter) : Reporter × Except Stop Unit :=
  match Options.read arguments with
  | .error refusal => (reporter, .error (.exit refusal.exitCode))
  | .ok options =>
      match checkLimit options.recursionLimit with
      | .error stop => (reporter, .error stop)
      | .ok () =>
          let host : Host := ⟨style, depthFor options.recursionLimit⟩
          match options.file with
          | some path => runFile host files path options.showTree reporter
          | none => runPrompt host lines options.showTree reporter

/-- Runs the program inside the reporter: what was printed, and what leaves the run early. -/
def runProgram (files : String → FileContent) (lines : List String) (arguments : List String) :
    String × Option Stop :=
  match runArguments style files lines arguments (.start true) with
  | (reporter, .ok ()) => (reporter.printed, none)
  | (reporter, .error stop) =>
      let (reporter, left) := reporter.settle style stop
      (reporter.printed, left)

end Monkey
