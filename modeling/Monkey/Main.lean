/-
The executable: it hands the command line, the source file and the lines of the input to the
program, shows what it prints as soon as it is known, and ends with its exit code.
-/
import Monkey.CommandLine.Program

namespace Monkey

def showNow (text : String) : IO Unit := do
  let stdout ← IO.getStdout
  stdout.putStr text
  stdout.flush

def loadFile (path : String) : IO FileContent := do
  try
    return .bytes (← IO.FS.readBinFile path).toList
  catch _ =>
    return .unreadable

/-- How the process ends: a fault that leaves the program is shown on the error output. -/
def exitCode : Option Stop → IO UInt32
  | none => return 0
  | some (.exit code) => return code.toNat.toUInt32
  | some (.fault fault) => do
      IO.eprintln (fault.category ++ ": " ++ fault.message)
      return 1
  | some _ => return 1

/-- Takes lines from the input one by one. -/
partial def converse (host : Host) (input : IO.FS.Stream) (shell : Shell) : IO (Option Stop) := do
  showNow shell.prompt
  let line ← input.getLine
  let (shell, outcome) := shell.feed host (if line.isEmpty then "EOF" else dropNewlines line)
  showNow shell.session.reporter.printed
  match outcome with
  | .ok false => converse host input shell.forgetPrinted
  | .ok true => return none
  | .error stop =>
      let (reporter, left) := shell.forgetPrinted.session.reporter.settle host.style stop
      showNow reporter.printed
      return left

/-- Escape codes are for terminals only. -/
def styleOf (output : IO.FS.Stream) : IO Style := do
  return if ← output.isTty then .ansi else .plain

def runWith (arguments : List String) : IO UInt32 := do
  let style ← styleOf (← IO.getStdout)
  match Options.read arguments with
  | .error .help =>
      IO.println usageText
      return 0
  | .error refusal =>
      IO.eprintln usageText
      return refusal.exitCode.toNat.toUInt32
  | .ok options =>
      match options.file, checkLimit options.recursionLimit with
      | none, .ok () =>
          let host : Host := ⟨style, depthFor options.recursionLimit⟩
          let shell := Shell.start (.start true) options.showTree
          showNow (introText ++ "\n")
          exitCode (← converse host (← IO.getStdin) shell)
      | file, _ =>
          let content ← loadFile (file.getD "")
          let (printed, stop) := runProgram style (fun _ => content) [] arguments
          showNow printed
          exitCode stop

end Monkey

def main (arguments : List String) : IO UInt32 :=
  Monkey.runWith arguments
