/-
The command line and the groups it runs.  What a conversation at the command line comes to is what
its groups come to, run one after the other: between two lines nothing is queued, no result waits
and no line is registered.
-/
import Monkey.Proofs.Talking.Idle

namespace Monkey

/-! ### Sessions at rest -/

/-- A reporter of errors that are not fatal, where the command line has the line given. -/
def Reporter.atPrompt (line : TraceLine) (printed : String) : Reporter :=
  ⟨false, [(promptPath, line)], printed⟩

/-- A session on the command line with nothing queued, no result, and no line registered. -/
def Session.atRest (showTree : Bool) (conversation : Conversation) : Session :=
  ⟨.atPrompt .unknown conversation.printed, promptPath, showTree, conversation.machine, [], []⟩

namespace Reporter

variable {style : Style} {line : TraceLine} {printed : String}

@[simp] theorem register_atPrompt (line' : TraceLine) :
    (atPrompt line printed).register promptPath line' = atPrompt line' printed :=
  register_alone line'

@[simp] theorem print_atPrompt (text : String) :
    (atPrompt line printed).print text = atPrompt line (printed ++ text) := rfl

/-- An error leaves no line registered. -/
theorem settle_atPrompt (notice : Notice) :
    (atPrompt line printed).settle style (.notice notice) = (atPrompt .unknown (printed ++
      ((header (promptPath, line)).getD "" ++ errorLines style notice ++ "\n" ++
        notice.diagnosis style .red)), none) := by
  have hshown : (atPrompt line printed).showError style notice = atPrompt line (printed ++
      ((header (promptPath, line)).getD "" ++ errorLines style notice ++ "\n" ++
        notice.diagnosis style .red)) := showError_alone notice
  rw [settle, throw, hshown]
  rfl

/-- A fault always stops the session. -/
theorem settle_fault (style : Style) (reporter : Reporter) (fault : Fault) :
    ∃ stop, (reporter.settle style (.fault fault)).2 = some stop := by
  cases fault <;> exact ⟨_, rfl⟩

end Reporter

/-! ### Running a group -/

namespace Session

open EStateM (Result)

variable {session : Session}

/-- The result is a notice, which guarding reports with the text. -/
def Reports (style : Style) (showTree : Bool) (conversation : Conversation) (text : String)
    (result : Result Stop Session Unit) : Prop :=
  ∃ notice line,
    result = .error (.notice notice)
      { atRest showTree conversation with reporter := .atPrompt line conversation.printed } ∧
    (Reporter.header (promptPath, line)).getD "" ++ Reporter.errorLines style notice ++ "\n" ++
      notice.diagnosis style .red = text

variable {host : Host} {style : Style} {showTree : Bool} {conversation : Conversation}
  {text : String} {action : SessionAction Unit}

theorem reports_fail (source : String) (number : Int) (token : Option Token) (message : String)
    (messages : List String) :
    Reports style showTree conversation
      (errorText style (token.map (locate source number)) message messages)
      (fail source number token message messages (atRest showTree conversation)) := by
  cases token with
  | none =>
      refine ⟨.plain message "" { diagnosed := false, messages := messages }, .unknown, rfl, ?_⟩
      simp [errorText, Reporter.header, TraceLine.unknown, Notice.diagnosis, Notice.hasDiagnosis,
        Notice.plain]
  | some token =>
      have hfail : @fail Unit source number (some token) message messages
          (atRest showTree conversation) =
            .error (.notice ((locate source number token).notice message messages))
              { atRest showTree conversation with
                reporter := .atPrompt ⟨some (locate source number token).line,
                  some (locate source number token).number⟩ conversation.printed } :=
        fail_idle source number token message messages
      exact ⟨_, _, hfail, rfl⟩

theorem Reports.bind {go : Unit → SessionAction Unit}
    (h : Reports style showTree conversation text (action session)) :
    Reports style showTree conversation text ((action >>= go) session) := by
  obtain ⟨notice, line, hresult, htext⟩ := h
  refine ⟨notice, line, ?_, htext⟩
  simp only [Bind.bind, EStateM.bind, hresult]

theorem guarded_of_reports (h : Reports style showTree conversation text (action session)) :
    guarded style action session = .ok () (atRest showTree (conversation.print text)) := by
  obtain ⟨notice, line, hresult, htext⟩ := h
  simp only [guarded, hresult, Reporter.settle_atPrompt, htext]
  rfl

/-- The conversation once a program is evaluated and what it let be seen is printed. -/
def replayed (style : Style) (conversation : Conversation) (pending : Pending)
    (machine : Machine) : Conversation :=
  ⟨{ machine with events := #[] },
    conversation.printed ++ outputText style pending.source pending.lineNumber machine.events⟩

theorem shown_prompt (pending : Pending) (machine : Machine) :
    shown style promptPath conversation pending machine =
      replayed style conversation pending machine := by
  rw [shown, replayed, outputTextUnder_prompt]

variable {pending : Pending} {machine : Machine}

theorem runProgram_of_fault {fault : Fault}
    (h : pending.program.eval host.depth rootFrame conversation.machine = .error fault machine) :
    runProgram host pending (atRest showTree conversation) =
      .error (.fault fault)
        (atRest showTree (replayed host.style conversation pending machine)) := by
  rw [← shown_prompt]
  exact runProgram_idle_error h

theorem runProgram_of_error {message : String} {token : Option Token} {identity : Option Nat}
    (h : pending.program.eval host.depth rootFrame conversation.machine =
      .ok (.error message token identity) machine) :
    runProgram host pending (atRest showTree conversation) =
      fail pending.source pending.lineNumber token message []
        (atRest showTree (replayed host.style conversation pending machine)) := by
  rw [← shown_prompt]
  exact runProgram_idle_ok h

theorem runProgram_of_result {result : Value}
    (h : pending.program.eval host.depth rootFrame conversation.machine = .ok result machine)
    (hresult : result.isError = false) :
    runProgram host pending (atRest showTree conversation) =
      .ok () { atRest showTree (replayed host.style conversation pending machine) with
        results := [result] } := by
  rw [← shown_prompt]
  refine (runProgram_idle_ok h).trans ?_
  cases result with
  | error => cases hresult
  | _ => rfl

theorem guarded_of_fault {fault : Fault} {after : Session}
    (h : action session = .error (.fault fault) after) :
    ∃ stop after, guarded style action session = .error stop after := by
  obtain ⟨stop, hstop⟩ := after.reporter.settle_fault style fault
  exact ⟨stop, { after with reporter := (after.reporter.settle style (.fault fault)).1 }, by
    simp only [guarded, h, hstop]⟩

theorem add_of_clean {source : String} {number : Int} {program : Node} {parser : Parser}
    {left_le : parser.left ≤ (Parser.ofSource source).left}
    (hparse : parse source = .done program parser left_le) (hclean : parser.diagnostics = []) :
    add source number (atRest showTree conversation) =
      .ok () { atRest showTree (withTree showTree conversation program) with
        queue := [⟨number, source, program⟩] } :=
  add_idle ⟨left_le, hparse⟩ hclean

theorem runGroup_of_stop {source : String} {number : Int} {stop : Stop} {after : Session}
    (hadd : add source number session =
      .ok () { atRest showTree conversation with queue := [pending] })
    (hrun : runProgram host pending (atRest showTree conversation) = .error stop after) :
    Shell.runGroup host source number session = .error stop after := by
  have hall : run host { atRest showTree conversation with queue := [pending] } =
      .error stop after := run_idle.trans hrun
  simp only [Shell.runGroup, bind, EStateM.bind, hadd, hall]

theorem runGroup_of_result {source : String} {number : Int} {after : Conversation}
    {result : Value} (hresult : result.isError = false)
    (hadd : add source number session =
      .ok () { atRest showTree conversation with queue := [pending] })
    (hrun : runProgram host pending (atRest showTree conversation) =
      .ok () { atRest showTree after with results := [result] }) :
    Shell.runGroup host source number session =
      .ok () (atRest showTree (after.print (resultText host.style source number result))) := by
  have hall : run host { atRest showTree conversation with queue := [pending] } =
      .ok () { atRest showTree after with results := [result] } := run_idle.trans hrun
  simp only [Shell.runGroup, bind, EStateM.bind, hadd, hall]
  cases result with
  | error => cases hresult
  | nil =>
      rw [resultText, Conversation.print, String.append_empty]
      rfl
  | _ => rfl

/-- The result is a session at rest after the conversation; without one, something stops. -/
def Settles (showTree : Bool) (result : Result Stop Session Unit) : Option Conversation → Prop
  | some after => result = .ok () (atRest showTree after)
  | none => ∃ stop after, result = .error stop after

theorem settles_evaluate {source : String} {number : Int} {program : Node}
    (hadd : add source number session = .ok () { atRest showTree conversation with
      queue := [⟨number, source, program⟩] }) :
    Settles showTree (guarded host.style (Shell.runGroup host source number) session)
      (conversation.evaluate host source number program) := by
  let pending : Pending := ⟨number, source, program⟩
  cases heval : program.eval host.depth rootFrame conversation.machine with
  | error fault machine =>
      simp only [Conversation.evaluate, heval]
      have hrun := @runProgram_of_fault host showTree conversation pending machine fault heval
      exact guarded_of_fault (runGroup_of_stop hadd hrun)
  | ok result machine =>
      let after := replayed host.style conversation pending machine
      have hprint : conversation.evaluate host source number program =
          some (after.print (resultText host.style source number result)) := by
        simp only [Conversation.evaluate, heval, after, replayed, Conversation.print,
          String.append_assoc, pending]
      rw [hprint]
      by_cases hresult : result.isError = true
      · cases result with
        | error message token identity =>
            obtain ⟨notice, line, hfail, htext⟩ :=
              @reports_fail host.style showTree after source number token message []
            have hrun := @runProgram_of_error host showTree conversation pending machine message
              token identity heval
            exact guarded_of_reports
              ⟨notice, line, runGroup_of_stop hadd (hrun.trans hfail), htext⟩
        | _ => cases hresult
      · have hresult := Bool.eq_false_iff.mpr hresult
        have hrun :=
          @runProgram_of_result host showTree conversation pending machine result heval hresult
        simp only [Settles, guarded, runGroup_of_result hresult hadd hrun, after]

/-- Running a group at rest adds what it comes to, and ends at rest; a fault stops the session. -/
theorem settles_runGroup (source : String) (number : Int) :
    Settles showTree
      (guarded host.style (Shell.runGroup host source number) (atRest showTree conversation))
      (conversation.run host showTree source number) := by
  cases hparse : parse source with
  | failed fault parser =>
      simp only [Conversation.run, hparse]
      refine @guarded_of_fault _ _ _ fault (atRest showTree conversation) ?_
      simp only [Shell.runGroup, bind, EStateM.bind, add, hparse]
      rfl
  | done program parser left_le =>
      cases hdiagnostics : parser.diagnostics with
      | cons first rest =>
          simp only [Conversation.run, hparse, hdiagnostics]
          apply guarded_of_reports
          apply Reports.bind
          simp only [add, hparse, hdiagnostics]
          exact reports_fail source number (some first.token) first.message _
      | nil =>
          simp only [Conversation.run, hparse, hdiagnostics]
          exact settles_evaluate (add_of_clean hparse hdiagnostics)

end Session

/-! ### Typing lines -/

namespace Shell

/-- The shell after all the lines, if none of them ends or stops it. -/
def feedAll (host : Host) (shell : Shell) : List String → Option Shell
  | [] => some shell
  | line :: rest =>
      match (shell.feed host line).2 with
      | .ok false => (shell.feed host line).1.feedAll host rest
      | _ => none

/-- Between two lines nothing is left over from earlier groups: the session is at rest, and the
shell holds the lines of the open group. -/
structure Follows (showTree : Bool) (typed : Typed) (conversation : Conversation)
    (shell : Shell) : Prop where
  session : shell.session = .atRest showTree conversation
  group : shell.group = groupText typed.group
  lineCount : shell.lineCount = typed.count
  groupStart : typed.group ≠ [] → shell.groupStart = typed.count - typed.group.length + 1
  prompt : shell.prompt = if typed.group.isEmpty then mainPrompt else groupPrompt

theorem follows_start (fatal showTree : Bool) :
    Follows showTree .start .start (start (.start fatal) showTree) where
  session := by
    simp only [start, ofSession, Reporter.start, Session.atRest]
    rfl
  group := rfl
  lineCount := rfl
  groupStart h := absurd rfl h
  prompt := rfl

variable (host : Host) {showTree : Bool} {typed : Typed} {conversation : Conversation}
  {shell : Shell} {line : String}

/-- What a line does: it is answered, or a fault stops the shell. -/
inductive Answers (showTree : Bool) (typed : Typed) (fed : Shell × Except Stop Bool) :
    Option Conversation → Prop
  | answered {after : Conversation} (hfed : fed.2 = .ok false)
      (hfollows : Follows showTree typed after fed.1) : Answers showTree typed fed (some after)
  | stopped {stop : Stop} (hfed : fed.2 = .error stop) : Answers showTree typed fed none

theorem Follows.opens (h : Follows showTree typed conversation shell)
    (hcommand : Command.ofLine? line = none) (hline : trim line ≠ sentinel) :
    Answers showTree ⟨typed.count + 1, typed.group ++ [line]⟩ (shell.feed host line)
      (some conversation) := by
  have hfeed : shell.feed host line = (⟨shell.session, shell.group ++ dropNewlines line ++ "\n",
      shell.lineCount + 1, if shell.group.isEmpty then shell.lineCount + 1 else shell.groupStart,
      groupPrompt⟩, .ok false) := by
    simp only [feed, hcommand, Shell.addLine, Monkey.addLine, if_neg hline, if_true]
  rw [hfeed]
  refine .answered rfl ⟨h.session, ?_, ?_, fun _ => ?_, ?_⟩
  · rw [groupText_concat, h.group]
  · simp only [h.lineCount]
  · simp only [h.group, h.lineCount, isEmpty_groupText, List.isEmpty_iff]
    split
    · next hempty => simp [hempty]
    · next hne =>
        rw [h.groupStart hne]
        simp
  · simp

/-- The shell once the group is closed and run. -/
theorem follows_closed (session : Session) (hsession : session = .atRest showTree conversation)
    (count groupStart : Nat) : Follows showTree ⟨count, []⟩ conversation
      ⟨session, "", count, groupStart, mainPrompt⟩ where
  session := hsession
  group := rfl
  lineCount := rfl
  groupStart h := absurd rfl h
  prompt := rfl

theorem Follows.closes (h : Follows showTree typed conversation shell)
    (hcommand : Command.ofLine? line = none) (hline : trim line = sentinel) :
    Answers showTree ⟨typed.count + 1, []⟩ (shell.feed host line)
      (conversation.answer host showTree
        (.run (typed.count - typed.group.length + 1) typed.group)) := by
  let number := if shell.group.isEmpty then shell.lineCount + 1 else shell.groupStart
  by_cases hblank : isBlankText (groupText typed.group) = true
  · have hfeed : shell.feed host line =
        (⟨shell.session, "", shell.lineCount + 1, number, mainPrompt⟩, .ok false) := by
      simp only [feed, hcommand, Shell.addLine, Monkey.addLine, if_pos hline, h.group, hblank,
        if_true, number]
      rfl
    rw [hfeed, Conversation.answer, if_pos hblank, h.lineCount]
    exact .answered rfl (follows_closed _ h.session _ _)
  · have hne : typed.group ≠ [] := by
      rintro hempty
      rw [hempty] at hblank
      exact hblank rfl
    have hnumber : number = typed.count - typed.group.length + 1 := by
      simp only [number, h.group, isEmpty_groupText, List.isEmpty_iff, if_neg hne, h.groupStart hne]
    let closed (session : Session) : Shell :=
      ⟨session, "", shell.lineCount + 1, number, mainPrompt⟩
    have hfeed : shell.feed host line =
        match Session.guarded host.style (runGroup host (groupText typed.group) number)
            (.atRest showTree conversation) with
        | .ok _ session => (closed session, .ok false)
        | .error stop session => (closed session, .error stop) := by
      simp only [feed, hcommand, Shell.addLine, Monkey.addLine, if_pos hline, h.session, ← h.group]
      rw [h.group, if_neg hblank, ← h.group]
      cases Session.guarded host.style (runGroup host shell.group number)
          (.atRest showTree conversation) <;>
        simp [closed, number]
    have hsettles :=
      @Session.settles_runGroup host showTree conversation (groupText typed.group) number
    rw [hfeed, Conversation.answer, if_neg hblank, ← hnumber]
    cases hrun : conversation.run host showTree (groupText typed.group) number with
    | some after =>
        have hok : Session.guarded host.style (runGroup host (groupText typed.group) number)
            (.atRest showTree conversation) = .ok () (.atRest showTree after) := by
          rwa [hrun] at hsettles
        rw [hok, ← h.lineCount]
        exact .answered rfl (follows_closed _ rfl _ _)
    | none =>
        rw [hrun] at hsettles
        obtain ⟨stop, after, herror⟩ := hsettles
        rw [herror]
        exact .stopped rfl

/-- One line. -/
theorem Follows.feed (h : Follows showTree typed conversation shell)
    (hexit : Command.ofLine? line ≠ some .exit) (hend : Command.ofLine? line ≠ some .endOfInput) :
    Answers showTree (typed.type line).2 (shell.feed host line)
      (conversation.answerAll host showTree (typed.type line).1.toList) := by
  cases hcommand : Command.ofLine? line with
  | some command =>
      have hfeed : shell.feed host line = (match command with
          | .blank => (shell, .ok false)
          | .help => (shell.print helpText, .ok false)
          | .exit => (shell, .ok true)
          | .endOfInput => (shell.print "\n", .ok true)) := by
        simp only [Shell.feed, hcommand]
        cases command <;> rfl
      rw [hfeed]
      cases command with
      | blank =>
          simp only [Typed.type, hcommand]
          exact .answered rfl h
      | help =>
          simp only [Typed.type, hcommand]
          refine .answered rfl ⟨?_, h.group, h.lineCount, h.groupStart, h.prompt⟩
          simp only [print, h.session, Session.atRest, Reporter.print_atPrompt]
          rfl
      | exit => exact absurd hcommand hexit
      | endOfInput => exact absurd hcommand hend
  | none =>
      by_cases hline : trim line = sentinel
      · simp only [Typed.type, hcommand, if_pos hline, Option.toList, Conversation.answerAll,
          List.foldlM_cons, List.foldlM_nil, bind_pure]
        exact h.closes host hcommand hline
      · simp only [Typed.type, hcommand, if_neg hline]
        exact h.opens host hcommand hline

/-- What lines do: all of them are answered, or a fault stops the shell. -/
inductive AnswersAll (showTree : Bool) (typed : Typed) : Option Shell → Option Conversation → Prop
  | answered {shell : Shell} {after : Conversation}
      (hfollows : Follows showTree typed after shell) :
      AnswersAll showTree typed (some shell) (some after)
  | stopped : AnswersAll showTree typed none none

/-- By induction on the lines. -/
theorem Follows.feedAll {lines : List String} (h : Follows showTree typed conversation shell)
    (hcommands : ∀ line ∈ lines,
      Command.ofLine? line ≠ some .exit ∧ Command.ofLine? line ≠ some .endOfInput) :
    AnswersAll showTree (typed.typeAll lines) (shell.feedAll host lines)
      (conversation.answerAll host showTree (typed.requests lines)) := by
  induction lines generalizing typed conversation shell with
  | nil => exact .answered h
  | cons line rest ih =>
      obtain ⟨hline, hrest⟩ := List.forall_mem_cons.mp hcommands
      have hanswers := h.feed host hline.1 hline.2
      have htyped : typed.typeAll (line :: rest) = (typed.type line).2.typeAll rest := rfl
      rw [Typed.requests, Conversation.answerAll_append, htyped, Shell.feedAll]
      cases hanswer : conversation.answerAll host showTree (typed.type line).1.toList with
      | none =>
          rw [hanswer] at hanswers
          cases hanswers with
          | stopped hfed =>
              rw [hfed]
              exact .stopped
      | some after =>
          rw [hanswer] at hanswers
          cases hanswers with
          | answered hfed hfollows =>
              rw [hfed]
              exact ih hfollows hrest

/-- A shell to which lines are typed does what their groups come to, run one after the other in
one environment, and after all of them nothing is left of the groups that were run.  Only a fault
stops it, and it stops at every fault. -/
theorem feedAll_eq_answerAll (fatal showTree : Bool) (lines : List String)
    (hcommands : ∀ line ∈ lines,
      Command.ofLine? line ≠ some .exit ∧ Command.ofLine? line ≠ some .endOfInput) :
    (Typed.start.requests lines).filterMap Request.group? ++ [(Typed.start.typeAll lines).group] =
        (lines.filter isProgramLine).splitOnP isSentinel ∧
      match Conversation.start.answerAll host showTree (Typed.start.requests lines) with
      | some after => ∃ shell, (start (.start fatal) showTree).feedAll host lines = some shell ∧
          shell.session.machine = after.machine ∧
          shell.session.reporter.printed = after.printed ∧
          shell.session.queue = [] ∧ shell.session.results = [] ∧
          (∀ entry ∈ shell.session.reporter.trace, entry.2 = .unknown) ∧
          shell.group = groupText (Typed.start.typeAll lines).group ∧
          shell.prompt =
            if (Typed.start.typeAll lines).group.isEmpty then mainPrompt else groupPrompt
      | none => (start (.start fatal) showTree).feedAll host lines = none := by
  constructor
  · rw [groups_requests]
    exact congrFun List.modifyHead_id _
  · have hfollows := (follows_start fatal showTree).feedAll host hcommands
    cases hanswer : Conversation.start.answerAll host showTree (Typed.start.requests lines) with
    | none =>
        rw [hanswer] at hfollows
        generalize (start (.start fatal) showTree).feedAll host lines = fed at hfollows ⊢
        cases hfollows
        rfl
    | some after =>
        rw [hanswer] at hfollows
        generalize (start (.start fatal) showTree).feedAll host lines = fed at hfollows ⊢
        obtain ⟨h⟩ := hfollows
        refine ⟨_, rfl, ?_⟩
        rw [h.session]
        exact ⟨rfl, rfl, rfl, rfl, by simp [Session.atRest, Reporter.atPrompt], h.group, h.prompt⟩

/-- A group that fails leaves what it had bound and written before, one that does not parse
leaves nothing, and the groups after them run. -/
theorem failingGroups_eq_answerAll :
    ∃ shell, (start (.start true) false).feedAll .standard
        ["let x = 1", "", "puts(x); y; let z = 2", " ; ", "let z = ", ";", ";", "x + 1", ";", "z"] =
        some shell ∧
      (shell.session.machine.store.frames[rootFrame]?).map (·.bindings.map Prod.fst) =
        some [.name "x"] ∧
      shell.session.results = [] ∧ shell.prompt = groupPrompt := by
  have hcommands : ∀ line ∈
      ["let x = 1", "", "puts(x); y; let z = 2", " ; ", "let z = ", ";", ";", "x + 1", ";", "z"],
      Command.ofLine? line ≠ some .exit ∧ Command.ofLine? line ≠ some .endOfInput := by
    decide +kernel
  have hanswers : (Conversation.start.answerAll .standard false (Typed.start.requests
      ["let x = 1", "", "puts(x); y; let z = 2", " ; ", "let z = ", ";", ";", "x + 1", ";",
        "z"])).any (fun after =>
          (after.machine.store.frames[rootFrame]?).map (·.bindings.map Prod.fst) ==
            some [.name "x"]) = true := by
    decide +kernel
  obtain ⟨_, hfollows⟩ := feedAll_eq_answerAll .standard true false _ hcommands
  obtain ⟨after, hafter, hbound⟩ := (Option.any_eq_true _ _).mp hanswers
  rw [hafter] at hfollows
  obtain ⟨shell, hshell, hmachine, -, -, hresults, -, -, hprompt⟩ := hfollows
  refine ⟨shell, hshell, ?_, hresults, hprompt.trans (by decide +kernel)⟩
  rw [hmachine]
  exact beq_iff_eq.mp hbound

end Shell

end Monkey
