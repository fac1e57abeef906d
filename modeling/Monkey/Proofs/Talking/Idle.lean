/-
Sessions that wait under one path: nothing is queued, no result is left and no line is registered.
What such a session prints of a run, and of what ends it, is put together from the texts of the
events and of the error, which name the path.
-/
import Monkey.Proofs.Parsing.Steps
import Monkey.Proofs.Talking.Sequential

namespace Monkey

/-! ### What is printed under a path -/

section

variable (style : Style) (path : String)

/-- The place that is named in front of a warning. -/
def warningPlace (excerpt : Excerpt) : String :=
  if path.isEmpty then ""
  else style.bold (path ++ ":" ++ toString excerpt.number ++ ":" ++
    toString ((excerpt.start : Int) + 1) ++ ": ")

def warningTextUnder (place : Option Excerpt) (message : String) : String :=
  match place with
  | none => style.boldIn .magenta "warning: " ++ message ++ "\n"
  | some excerpt =>
      warningPlace style path excerpt ++ style.boldIn .magenta "warning: " ++ message ++ "\n" ++
        (excerpt.notice message []).diagnosis style .magenta

variable (source : String) (number : Int)

def Event.textUnder : Event → String
  | .wrote line => line ++ "\n"
  | .warned message token => warningTextUnder style path (token.map (locate source number)) message

def outputTextUnder (events : Array Event) : String :=
  String.join (events.toList.map (Event.textUnder style path source number))

end

theorem warningTextUnder_prompt (style : Style) :
    warningTextUnder style promptPath = warningText style := by
  have hpath : promptPath.isEmpty = false := by decide
  funext place message
  cases place with
  | none => rfl
  | some excerpt =>
      simp only [warningTextUnder, warningText, warningPlace, hpath]
      rfl

theorem outputTextUnder_prompt (style : Style) :
    outputTextUnder style promptPath = outputText style := by
  funext source number events
  refine congrArg String.join (List.map_congr_left fun event _ => ?_)
  cases event with
  | wrote line => rfl
  | warned message token => rw [Event.textUnder, warningTextUnder_prompt, Event.text]

/-! ### Reporters that know one path -/

/-- A reporter that knows one path, with the line given. -/
def Reporter.alone (path : String) (fatal : Bool) (line : TraceLine) (printed : String) :
    Reporter :=
  ⟨fatal, [(path, line)], printed⟩

namespace Reporter

variable {style : Style} {path : String} {fatal : Bool} {line : TraceLine} {printed : String}

@[simp] theorem register_alone (line' : TraceLine) :
    (alone path fatal line printed).register path line' = alone path fatal line' printed := by
  simp [register, alone, setLine]

@[simp] theorem printLine_alone (text : String) :
    (alone path fatal line printed).printLine text =
      alone path fatal line (printed ++ (text ++ "\n")) := rfl

/-- One registered line is no traceback. -/
theorem headers_alone : (alone path fatal line printed).headers =
    (header (path, line)).getD "" := by
  cases hheader : header (path, line) <;> simp [headers, alone, hheader]

theorem showError_alone (notice : Notice) :
    (alone path fatal line printed).showError style notice = alone path fatal line (printed ++
      ((header (path, line)).getD "" ++ errorLines style notice ++ "\n" ++
        notice.diagnosis style .red)) := by
  unfold showError Notice.diagnosis
  rw [headers_alone]
  split <;> simp [String.append_assoc]

theorem warn_alone (excerpt : Excerpt) (message : String) :
    (alone path fatal ⟨some excerpt.line, some excerpt.number⟩ printed).warn style
        (excerpt.notice message []) =
      alone path fatal ⟨some excerpt.line, some excerpt.number⟩
        (printed ++ warningTextUnder style path (some excerpt) message) := by
  have hlocation : (alone path fatal ⟨some excerpt.line, some excerpt.number⟩ printed).location? =
      some (path, some excerpt.number) := rfl
  unfold warn warningTextUnder warningPlace Notice.diagnosis
  simp only [hlocation, showNumber, Option.map_some, Option.getD_some]
  split <;> split <;> simp [Excerpt.notice, Notice.plain, String.append_assoc]

/-- A warning without a line registered. -/
theorem warn_alone_unknown (notice : Notice) (h : notice.excerpt = "") :
    (alone path fatal .unknown printed).warn style notice = alone path fatal .unknown (printed ++
      (style.boldIn .magenta "warning: " ++ notice.message ++ "\n")) := by
  have hlocation : (alone path fatal .unknown printed).location? = none := rfl
  have hdiagnosis : notice.hasDiagnosis = false := by simp [Notice.hasDiagnosis, h]
  unfold warn
  simp [hlocation, hdiagnosis, String.append_assoc]

/-- What an error is reported with does not depend on whether it is fatal. -/
theorem printed_throw_alone (notice : Notice) (ends : Bool) :
    ((alone path fatal line printed).throw style notice ends).1.printed = printed ++
      ((header (path, line)).getD "" ++ errorLines style notice ++ "\n" ++
        notice.diagnosis style .red) := by
  rw [throw, showError_alone]
  cases ends <;> rfl

end Reporter

/-! ### Sessions -/

namespace Session

/-- A session under a path with nothing queued, no result, and no line registered. -/
def idle (path : String) (fatal showTree : Bool) (conversation : Conversation) : Session :=
  ⟨.alone path fatal .unknown conversation.printed, path, showTree, conversation.machine, [], []⟩

/-- A session on a source file starts with the text of the file, as line one. -/
theorem start_file {style : Style} {files : String → FileContent} {path source : String}
    (fatal showTree : Bool) (hpath : path ≠ promptPath)
    (hread : readSource style (files path) path = .ok source) :
    Session.start style (.start fatal) files path false showTree =
      add source 1 (idle path fatal showTree .start) := by
  unfold Session.start
  rw [if_neg hpath, hread]
  rfl

variable {host : Host} {style : Style} {session : Session} {path printed : String}
  {fatal showTree : Bool} {conversation : Conversation}

theorem warnAt_under (hpath : session.path = path)
    (hreporter : session.reporter = .alone path fatal .unknown printed) (pending : Pending)
    (message : String) (token : Option Token) :
    warnAt style pending message token session = .ok () { session with
      reporter := .alone path fatal .unknown (printed ++ warningTextUnder style path
        (token.map (locate pending.source pending.lineNumber)) message) } := by
  cases token with
  | none =>
      have hwarn : warnAt style pending message none session = .ok () { session with
          reporter := session.reporter.warn style (.plain message "" { diagnosed := false }) } :=
        rfl
      rw [hwarn, hreporter, Reporter.warn_alone_unknown _ rfl]
      rfl
  | some token =>
      let excerpt := locate pending.source pending.lineNumber token
      have hwarn : warnAt style pending message (some token) session = .ok () { session with
          reporter := ((session.reporter.registerLine session.path excerpt.line
            excerpt.number).warn style (excerpt.notice message [])).clearLine session.path } := rfl
      rw [hwarn, hreporter, hpath, Reporter.registerLine, Reporter.register_alone,
        Reporter.warn_alone, Reporter.clearLine, Reporter.register_alone]
      rfl

/-- What a run let be seen is printed in its order, by induction on the events. -/
theorem replay_under (hpath : session.path = path)
    (hreporter : session.reporter = .alone path fatal .unknown printed) (pending : Pending)
    (events : List Event) :
    replay style pending events session = .ok () { session with
      reporter := .alone path fatal .unknown (printed ++ String.join
        (events.map (Event.textUnder style path pending.source pending.lineNumber))) } := by
  induction events generalizing session printed with
  | nil =>
      rw [replay, List.map_nil, String.join_nil, String.append_empty, ← hreporter]
      rfl
  | cons event rest ih =>
      cases event with
      | wrote line =>
          have hstep : replay style pending (.wrote line :: rest) session =
              replay style pending rest { session with
                reporter := session.reporter.printLine line } := rfl
          rw [hstep, hreporter, Reporter.printLine_alone]
          refine (ih ?_ rfl).trans ?_
          · exact hpath
          · rw [List.map_cons, String.join_cons, String.append_assoc]
            rfl
      | warned message token =>
          have hstep : replay style pending (.warned message token :: rest) session =
              EStateM.bind (warnAt style pending message token) (fun _ => replay style pending rest)
                session := rfl
          rw [hstep, EStateM.bind, warnAt_under hpath hreporter]
          refine (ih ?_ rfl).trans ?_
          · exact hpath
          · rw [List.map_cons, String.join_cons, String.append_assoc]
            rfl

/-- An error at a token is a notice with its excerpt, whose line is registered. -/
theorem fail_idle (source : String) (number : Int) (token : Token) (message : String)
    (messages : List String) :
    @fail Unit source number (some token) message messages (idle path fatal showTree conversation) =
      .error (.notice ((locate source number token).notice message messages))
        { idle path fatal showTree conversation with
          reporter := .alone path fatal
            ⟨some (locate source number token).line, some (locate source number token).number⟩
            conversation.printed } := by
  have hfail : @fail Unit source number (some token) message messages
      (idle path fatal showTree conversation) =
        .error (.notice ((locate source number token).notice message messages))
          { idle path fatal showTree conversation with
            reporter := (idle path fatal showTree conversation).reporter.registerLine path
              (locate source number token).line (locate source number token).number } := rfl
  rw [hfail, idle, Reporter.registerLine, Reporter.register_alone]

/-- The conversation once a program is evaluated and what it let be seen is printed. -/
def shown (style : Style) (path : String) (conversation : Conversation) (pending : Pending)
    (machine : Machine) : Conversation :=
  ⟨{ machine with events := #[] }, conversation.printed ++
    outputTextUnder style path pending.source pending.lineNumber machine.events⟩

/-- What the run of a program comes to, once all that it let be seen is shown. -/
def finish (pending : Pending) : EStateM.Result Fault Machine Value → SessionAction Unit
  | .error fault _ => throw (.fault fault)
  | .ok (.error message token _) _ =>
      fail pending.source pending.lineNumber token message []
  | .ok result _ =>
      modify fun session =>
        { session with
          results := session.results ++ [result]
          reporter := session.reporter.clearLine session.path }

theorem runProgram_eq (host : Host) (pending : Pending) (session : Session) :
    runProgram host pending session =
      let outcome := pending.program.eval host.depth rootFrame session.machine
      let machine :=
        match outcome with
        | .ok _ machine | .error _ machine => machine
      EStateM.bind (replay host.style pending machine.events.toList)
        (fun _ => finish pending outcome)
        { session with machine := { machine with events := #[] } } := by
  rfl

variable {pending : Pending} {machine : Machine}

theorem replay_idle (pending : Pending) (machine : Machine) :
    replay style pending machine.events.toList { idle path fatal showTree conversation with
      machine := { machine with events := #[] } } =
        .ok () (idle path fatal showTree (shown style path conversation pending machine)) :=
  replay_under rfl rfl pending machine.events.toList

/-- A program is evaluated, what it let be seen is shown, and then it comes to its end. -/
theorem runProgram_idle_ok {result : Value}
    (heval : pending.program.eval host.depth rootFrame conversation.machine = .ok result machine) :
    runProgram host pending (idle path fatal showTree conversation) =
      finish pending (.ok result machine)
        (idle path fatal showTree (shown host.style path conversation pending machine)) := by
  have heval : pending.program.eval host.depth rootFrame
      (idle path fatal showTree conversation).machine = .ok result machine := heval
  simp only [runProgram_eq, heval, EStateM.bind, replay_idle]

theorem runProgram_idle_error {fault : Fault}
    (heval : pending.program.eval host.depth rootFrame conversation.machine =
      .error fault machine) :
    runProgram host pending (idle path fatal showTree conversation) =
      .error (.fault fault)
        (idle path fatal showTree (shown host.style path conversation pending machine)) := by
  have heval : pending.program.eval host.depth rootFrame
      (idle path fatal showTree conversation).machine = .error fault machine := heval
  simp only [runProgram_eq, heval, EStateM.bind, replay_idle]
  rfl

/-- The text of a program is shown when it is queued, if texts are shown at all. -/
def withTree (showTree : Bool) (conversation : Conversation) (program : Node) : Conversation :=
  conversation.print (if showTree then dropNewlines program.render ++ "\n" else "")

theorem add_idle {source : String} {number : Int} {program : Node} {parser : Parser}
    (hparse : (parse source).Gives program parser) (hclean : parser.diagnostics = []) :
    add source number (idle path fatal showTree conversation) =
      .ok () { idle path fatal showTree (withTree showTree conversation program) with
        queue := [⟨number, source, program⟩] } := by
  obtain ⟨_, hparse⟩ := hparse
  simp only [add, hparse, hclean]
  cases showTree <;> simp only [withTree]
  · rw [if_neg (by decide), Conversation.print, String.append_empty]
    rfl
  · rfl

theorem add_idle_of_diagnostics {source : String} {number : Int} {program : Node} {parser : Parser}
    {first : Diagnostic} {rest : List Diagnostic}
    (hparse : (parse source).Gives program parser) (hfirst : parser.diagnostics = first :: rest) :
    add source number (idle path fatal showTree conversation) =
      fail source number (some first.token) first.message
        ((first :: rest).map Diagnostic.message) (idle path fatal showTree conversation) := by
  obtain ⟨_, hparse⟩ := hparse
  simp only [add, hparse, hfirst]

/-- Running the only program in the queue. -/
theorem run_idle : run host { idle path fatal showTree conversation with queue := [pending] } =
    runProgram host pending (idle path fatal showTree conversation) := by
  have hstep : run host { idle path fatal showTree conversation with queue := [pending] } =
      EStateM.bind (runProgram host pending) (fun _ => runAll host [])
        (idle path fatal showTree conversation) := rfl
  rw [hstep, EStateM.bind]
  cases runProgram host pending (idle path fatal showTree conversation) <;> rfl

end Session

end Monkey
