/-
Typing a program.  Blank lines are not typed into a program, so strings over several lines are left
without them.  But for that, lines that are typed at the command line and closed with the sentinel
come to what a file of these lines comes to.
-/
import Monkey.CommandLine.Program
import Monkey.Proofs.Talking.Pruned
import Monkey.Proofs.Talking.Upshot

namespace Monkey

/-! ### What is shown -/

/-- The text of a program, if texts are shown. -/
def treeText (showTree : Bool) (program : Node) : String :=
  if showTree then dropNewlines program.render ++ "\n" else ""

/-- An error at a place in the source, if it has one. -/
def errorNotice (place : Option Excerpt) (message : String) (messages : List String) : Notice :=
  match place with
  | none => .plain message "" { diagnosed := false, messages := messages }
  | some excerpt => excerpt.notice message messages

section

variable (style : Style) (showTree : Bool) (source : String)

/-- What the command line makes of it: the machine and all that is printed, unless a fault stops the
shell. -/
def Upshot.typed : Upshot → Option Conversation
  | .stopped _ | .ran _ (.error _ _) => none
  | .rejected first rest =>
      some ⟨.start, errorText style (some (locate source 1 first.token)) first.message
        ((first :: rest).map Diagnostic.message)⟩
  | .ran program (.ok result machine) =>
      some ⟨{ machine with events := #[] }, treeText showTree program ++
        (outputText style source 1 machine.events ++ resultText style source 1 result)⟩

/-- What running a file makes of it: all that is printed, and how the run ends. -/
def Upshot.read (path : String) : Upshot → String × Except Stop Unit
  | .stopped fault => ("", .error (.fault fault))
  | .rejected first rest =>
      ("", .error (.notice (errorNotice (some (locate source 1 first.token)) first.message
        ((first :: rest).map Diagnostic.message))))
  | .ran program (.error fault machine) =>
      (treeText showTree program ++ outputTextUnder style path source 1 machine.events,
        .error (.fault fault))
  | .ran program (.ok (.error message token _) machine) =>
      (treeText showTree program ++ outputTextUnder style path source 1 machine.events,
        .error (.notice (errorNotice (token.map (locate source 1)) message [])))
  | .ran program (.ok result machine) =>
      (treeText showTree program ++ outputTextUnder style path source 1 machine.events ++
        (displayResult result ++ "\n"), .ok ())

end

/-! ### Files -/

/-- The text of a file of lines. -/
def fileText (lines : List String) : String :=
  String.join (lines.map (· ++ "\n"))

theorem fileText_eq {lines : List String} (h : ∀ line ∈ lines, '\n' ∉ line.toList) :
    fileText lines = groupText lines := by
  refine congrArg String.join (List.map_congr_left fun line hline => ?_)
  rw [dropNewlines_eq (h line hline)]

/-- A file with a byte for each character of a text. -/
def asciiFile (text : String) : FileContent :=
  .bytes (text.toList.map fun c => UInt8.ofNat c.toNat)

theorem decodeUtf8From_ascii {text : List Char} (h : ∀ c ∈ text, c.toNat < 128) (position : Nat) :
    decodeUtf8From position (text.map fun c => UInt8.ofNat c.toNat) = .ok text := by
  induction text generalizing position with
  | nil => rfl
  | cons c text ih =>
      obtain ⟨hc, htext⟩ := List.forall_mem_cons.mp h
      have htoNat : (UInt8.ofNat c.toNat).toNat = c.toNat :=
        UInt8.toNat_ofNat_of_lt (Nat.lt_trans hc (by decide))
      have hlow : UInt8.ofNat c.toNat < 0x80 := by
        rw [UInt8.lt_iff_toNat_lt, htoNat]
        exact hc
      rw [List.map_cons]
      unfold decodeUtf8From
      simp only [if_pos hlow, ih htext, htoNat, Char.ofNat_toNat]
      rfl

theorem unifyNewlines_eq {text : List Char} (h : '\r' ∉ text) : unifyNewlines text = text := by
  induction text using unifyNewlines.induct with
  | case1 => rfl
  | case2 | case3 => simp at h
  | case4 c rest _ _ ih =>
      rw [List.mem_cons, not_or] at h
      rw [unifyNewlines, ih h.2]
      all_goals assumption

/-- Every text of ASCII characters without carriage returns is read from a file. -/
theorem readSource_ascii (style : Style) {text path : String}
    (htext : (text.toList.all fun c => c.toNat < 128 && c != '\r') = true)
    (hpath : '\x00' ∉ path.toList) : readSource style (asciiFile text) path = .ok text := by
  have hascii : ∀ c ∈ text.toList, c.toNat < 128 ∧ c ≠ '\r' := by simpa using htext
  have hdecode : decodeUtf8 (text.toList.map fun c => UInt8.ofNat c.toNat) = .ok text.toList :=
    decodeUtf8From_ascii (fun c hc => (hascii c hc).1) 0
  have hunify : unifyNewlines text.toList = text.toList :=
    unifyNewlines_eq fun hmem => (hascii _ hmem).2 rfl
  have hnull : path.contains '\x00' = false := by
    rw [String.contains_char_eq]
    exact decide_eq_false hpath
  simp only [readSource, asciiFile, hnull, hdecode, hunify, String.ofList_toList]
  rfl

theorem printed_withTree (showTree : Bool) (program : Node) :
    (Session.withTree showTree .start program).printed = treeText showTree program :=
  String.empty_append

section

variable {host : Host} {files : String → FileContent} {path source : String}

/-- What is printed of the run of a source. -/
theorem printed_shown (style : Style) (showTree : Bool) (number : Int) (program : Node)
    (machine : Machine) :
    (Session.shown style path (Session.withTree showTree .start program) ⟨number, source, program⟩
      machine).printed =
        treeText showTree program ++ outputTextUnder style path source number machine.events := by
  rw [Session.shown, printed_withTree]

/-- What the run of a program comes to at the end of a file. -/
theorem runFile_of_ran (fatal showTree : Bool) {program : Node}
    {outcome : EStateM.Result Fault Machine Value} (hpath : path ≠ promptPath)
    (hread : readSource host.style (files path) path = .ok source) (hparses : Parses source program)
    (houtcome : program.eval host.depth rootFrame .start = outcome) :
    let ended := runFile host files path showTree (.start fatal)
    (ended.1.printed, ended.2) =
      (Upshot.ran program outcome).read host.style showTree source path := by
  obtain ⟨parser, hgives, hclean⟩ := hparses
  simp only [runFile, Session.start_file fatal showTree hpath hread,
    Session.add_idle hgives hclean, Session.run_idle]
  cases outcome with
  | error fault machine =>
      have hrun : Session.runProgram host ⟨1, source, program⟩
          (.idle path fatal showTree (Session.withTree showTree .start program)) = _ :=
        Session.runProgram_idle_error houtcome
      simp only [hrun, Upshot.read, ← printed_shown host.style showTree 1 program]
      rfl
  | ok result machine =>
      have hrun : Session.runProgram host ⟨1, source, program⟩
          (.idle path fatal showTree (Session.withTree showTree .start program)) = _ :=
        Session.runProgram_idle_ok houtcome
      cases result with
      | error message token identity =>
          cases token with
          | none =>
              simp only [hrun, Upshot.read, ← printed_shown host.style showTree 1 program]
              rfl
          | some token =>
              simp only [hrun, Upshot.read, ← printed_shown host.style showTree 1 program,
                Session.finish, Session.fail_idle]
              rfl
      | _ =>
          simp only [hrun, Upshot.read, ← printed_shown host.style showTree 1 program]
          rfl

/-- A file is run as its source in an environment of its own. -/
theorem runFile_eq (fatal showTree : Bool) (hpath : path ≠ promptPath)
    (hread : readSource host.style (files path) path = .ok source) :
    let ended := runFile host files path showTree (.start fatal)
    (ended.1.printed, ended.2) =
      (upshot host.depth source).read host.style showTree source path := by
  have hstart := Session.start_file fatal showTree hpath hread
  rcases upshot_cases host.depth source with ⟨fault, parser, hparse, hupshot⟩ |
    ⟨program, parser, first, rest, hgives, hdiagnostics, hupshot⟩ | ⟨program, hparses, hupshot⟩
  · rw [hupshot]
    simp only [runFile, hstart, Session.add, hparse]
    rfl
  · rw [hupshot]
    simp only [runFile, hstart, Session.add_idle_of_diagnostics hgives hdiagnostics,
      Session.fail_idle]
    rfl
  · rw [hupshot]
    exact runFile_of_ran fatal showTree hpath hread hparses rfl

end

/-! ### The command line -/

/-- How far a shell has come. -/
def Shell.conversation (shell : Shell) : Conversation :=
  ⟨shell.session.machine, shell.session.reporter.printed⟩

/-- The first group comes to what its text comes to. -/
theorem Conversation.run_start (host : Host) (showTree : Bool) (source : String) :
    Conversation.start.run host showTree source 1 =
      (upshot host.depth source).typed host.style showTree source := by
  cases hparse : parse source with
  | failed fault parser => simp only [Conversation.run, upshot, hparse, Upshot.typed]
  | done program parser left_le =>
      cases hdiagnostics : parser.diagnostics with
      | cons first rest =>
          simp only [Conversation.run, upshot, hparse, hdiagnostics, Upshot.typed]
          rfl
      | nil =>
          simp only [Conversation.run, upshot, hparse, hdiagnostics, Conversation.evaluate]
          have hmachine (text : String) : (Conversation.start.print text).machine = .start := rfl
          rw [hmachine]
          cases program.eval host.depth rootFrame .start with
          | error fault machine => rfl
          | ok result machine =>
              simp only [Upshot.typed, Conversation.print, Conversation.start,
                String.empty_append, treeText]

/-- The line has no newline, and it is no command and does not close a group. -/
def IsCode (line : String) : Prop :=
  '\n' ∉ line.toList ∧ trim line ∉ [sentinel, "help", "?", "exit", "EOF"]

instance (line : String) : Decidable (IsCode line) :=
  inferInstanceAs (Decidable (_ ∧ _))

/-- A line of code is part of a program, or it is blank. -/
theorem IsCode.command {line : String} (h : IsCode line) :
    Command.ofLine? line = if trim line = "" then some .blank else none := by
  have hword := h.2
  unfold Command.ofLine?
  split <;> simp_all

theorem IsCode.isProgramLine_eq {line : String} (h : IsCode line) :
    isProgramLine line = decide (trim line ≠ "") := by
  rw [isProgramLine, h.command]
  split <;> simp_all

theorem IsCode.not_blank {line : String} (h : IsCode line) (hprogram : isProgramLine line = true) :
    line.toList.all isBlank = false := by
  refine Bool.eq_false_iff.mpr fun hblank => ?_
  have hdrop : trimLeft line.toList = [] :=
    List.dropWhile_eq_nil_iff.mpr (List.all_eq_true.mp hblank)
  have htrim : trim line = "" := by rw [trim, hdrop]; rfl
  simp [h.isProgramLine_eq, htrim] at hprogram

/-- The lines of code ask for nothing until the sentinel runs those that are not blank, by induction
on the lines. -/
theorem requests_code {lines : List String} (h : ∀ line ∈ lines, IsCode line) (typed : Typed) :
    typed.requests (lines ++ [sentinel]) =
      [.run (typed.count - typed.group.length + 1)
        (typed.group ++ lines.filter isProgramLine)] := by
  induction lines generalizing typed with
  | nil =>
      have hcommand : Command.ofLine? sentinel = none := by decide +kernel
      have htrim : trim sentinel = sentinel := by decide +kernel
      simp [Typed.requests, Typed.type, hcommand, htrim]
  | cons line rest ih =>
      obtain ⟨hline, hrest⟩ := List.forall_mem_cons.mp h
      have hsentinel : trim line ≠ sentinel := fun heq => hline.2 (by simp [heq])
      rw [List.cons_append, Typed.requests, Typed.type, hline.command]
      by_cases hblank : trim line = ""
      · simp [ih hrest, hline.isProgramLine_eq, hblank]
      · simp [ih hrest, hline.isProgramLine_eq, hblank, hsentinel]

theorem Shell.AnswersAll.conversation_eq {showTree : Bool} {typed : Typed} {fed : Option Shell}
    {answered : Option Conversation} (h : AnswersAll showTree typed fed answered) :
    fed.map Shell.conversation = answered := by
  cases h with
  | stopped => rfl
  | @answered shell after hfollows =>
      rw [Option.map_some, Shell.conversation, hfollows.session]
      rfl

/-- Lines of code and the sentinel are run as one text, unless it is blank. -/
theorem feedAll_code (host : Host) (fatal showTree : Bool) {lines : List String}
    (h : ∀ line ∈ lines, IsCode line) :
    let source := groupText (lines.filter isProgramLine)
    ((Shell.start (.start fatal) showTree).feedAll host (lines ++ [sentinel])).map
        Shell.conversation =
      if isBlankText source then some .start
      else (upshot host.depth source).typed host.style showTree source := by
  -- no line leaves the shell or ends the input, so it follows the script
  have hcommands : ∀ line ∈ lines ++ [sentinel],
      Command.ofLine? line ≠ some .exit ∧ Command.ofLine? line ≠ some .endOfInput := by
    intro line hline
    rcases List.mem_append.mp hline with hline | hline
    · rw [(h line hline).command]
      split <;> decide
    · rw [List.mem_singleton.mp hline]
      decide +kernel
  have hfollows := (Shell.follows_start fatal showTree).feedAll host hcommands
  rw [hfollows.conversation_eq, requests_code h]
  show Conversation.start.answerAll host showTree [.run 1 (lines.filter isProgramLine)] = _
  rw [← Conversation.run_start]
  simp only [Conversation.answerAll, List.foldlM_cons, List.foldlM_nil, bind_pure]
  rfl

/-! ### Typed and read -/

/-- Without the blank lines of layout, the text of lines of code has the tokens that are left. -/
theorem respaces_programLines {lines : List String} (hcode : ∀ line ∈ lines, IsCode line)
    (hlayout : ∀ line ∈ lines, trim line = "" → ∀ c ∈ line.toList, isLayout c = true) :
    (tokenize (fileText lines)).pruned.Respaces
      (tokenize (groupText (lines.filter isProgramLine))) := by
  have hrespaces := @respaces_filter lines isProgramLine [] fun line hline hprogram => by
    have hblank : trim line = "" := by
      simpa [(hcode line hline).isProgramLine_eq] using hprogram
    exact ⟨(hcode line hline).1, hlayout line hline hblank⟩
  rw [List.nil_append, List.nil_append] at hrespaces
  have hcompact : Compact (groupText (lines.filter isProgramLine)).toList := by
    refine compact_groupText fun line hline => ?_
    obtain ⟨hline, hprogram⟩ := List.mem_filter.mp hline
    exact ⟨(hcode line hline).1, (hcode line hline).not_blank hprogram⟩
  have hpruned := TokenStream.pruned_of_compact fun token htoken =>
    compact_of_mem_tokenize hcompact htoken
  rwa [hpruned, ← fileText_eq fun line hline => (hcode line hline).1] at hrespaces

/-- Lines of code that are typed and closed come to what their text without the blank lines comes
to, and a file of them to what the whole text comes to.  If the blank lines are made of layout, then
both texts parse in the same cases, and what is typed is the program of the file without the blank
lines in its strings.  If no token of the file holds such a line, then both come to the same fault,
to the same parse errors, or to programs that differ in tokens only and run alike. -/
theorem typed_as_read (host : Host) (fatal showTree : Bool) {lines : List String}
    {files : String → FileContent} {path : String} (hcode : ∀ line ∈ lines, IsCode line)
    (hpath : path ≠ promptPath)
    (hread : readSource host.style (files path) path = .ok (fileText lines)) :
    let source := groupText (lines.filter isProgramLine)
    let fed := (Shell.start (.start fatal) showTree).feedAll host (lines ++ [sentinel])
    let ended := runFile host files path showTree (.start fatal)
    (fed.map Shell.conversation =
        if isBlankText source then some .start
        else (upshot host.depth source).typed host.style showTree source) ∧
      (ended.1.printed, ended.2) =
        (upshot host.depth (fileText lines)).read host.style showTree (fileText lines) path ∧
      ((∀ line ∈ lines, trim line = "" → ∀ c ∈ line.toList, isLayout c = true) →
        ParsesPruned (fileText lines) source ∧
          ((∀ token ∈ (tokenize (fileText lines)).tokens, Compact token.text) →
            (upshot host.depth (fileText lines)).Alike (upshot host.depth source))) := by
  refine ⟨feedAll_code host fatal showTree hcode, runFile_eq fatal showTree hpath hread,
    fun hlayout => ?_⟩
  have hrespaces := respaces_programLines hcode hlayout
  refine ⟨parsesPruned hrespaces, fun hcompact => upshot_alike host.depth ?_⟩
  rwa [TokenStream.pruned_of_compact hcompact] at hrespaces

/-- A function with blank lines in its body, and a string over two lines. -/
def spacedLines : List String :=
  ["let f = fn(x) \x7b", "", "  puts(x + 07)", " \t", "\x7d", "f(1)", "", "puts(\"a", "b\")", "(f)"]

/-- The blank lines of the program make no difference. -/
theorem spacedLines_typed_as_read :
    let text := fileText spacedLines
    let source := groupText (spacedLines.filter isProgramLine)
    (∀ line ∈ spacedLines, IsCode line) ∧ "spaced" ≠ promptPath ∧
      readSource .ansi (asciiFile text) "spaced" = .ok text ∧
      (∀ line ∈ spacedLines, trim line = "" → ∀ c ∈ line.toList, isLayout c = true) ∧
      (∀ token ∈ (tokenize text).tokens, Compact token.text) ∧
      ParsesPruned text source ∧ (upshot depthLimit text).Alike (upshot depthLimit source) := by
  have hcode : ∀ line ∈ spacedLines, IsCode line := by decide +kernel
  have hpath : "spaced" ≠ promptPath := by decide
  have hread : readSource .ansi (asciiFile (fileText spacedLines)) "spaced" =
      .ok (fileText spacedLines) :=
    readSource_ascii .ansi (by decide +kernel) (by decide)
  have hlayout : ∀ line ∈ spacedLines, trim line = "" →
      ∀ c ∈ line.toList, isLayout c = true := by decide +kernel
  have hcompact : ∀ token ∈ (tokenize (fileText spacedLines)).tokens, Compact token.text := by
    decide +kernel
  let files := fun _ : String => asciiFile (fileText spacedLines)
  have hread' : readSource Host.standard.style (files "spaced") "spaced" =
      .ok (fileText spacedLines) := hread
  obtain ⟨-, -, hsame⟩ := typed_as_read .standard true false hcode hpath hread'
  obtain ⟨hpruned, halike⟩ := hsame hlayout
  exact ⟨hcode, hpath, hread, hlayout, hcompact, hpruned, halike hcompact⟩

/-- A string with a blank line in it. -/
def spacedString : List String :=
  ["\"a", "", "b\""]

/-- The string that is typed is shorter than the one in the file. -/
theorem spacedString_typed_shorter :
    let fed := (Shell.start (.start true) false).feedAll .standard (spacedString ++ [sentinel])
    let ended :=
      runFile .standard (fun _ => asciiFile (fileText spacedString)) "spaced" false (.start true)
    (∀ line ∈ spacedString, IsCode line) ∧
      (∃ program program', Parses (fileText spacedString) program ∧
        Parses (groupText (spacedString.filter isProgramLine)) program' ∧
        program.same program' = false) ∧
      fed.map (fun shell => shell.session.reporter.printed) = some "a\nb\n" ∧
      ended.1.printed = "Result = a\n\nb\n" := by
  have hcode : ∀ line ∈ spacedString, IsCode line := by decide +kernel
  let files := fun _ : String => asciiFile (fileText spacedString)
  have hread : readSource Host.standard.style (files "spaced") "spaced" =
      .ok (fileText spacedString) :=
    readSource_ascii .ansi (by decide +kernel) (by decide)
  have hended := congrArg Prod.fst (runFile_eq true false (by decide) hread)
  have hfed := congrArg (Option.map Conversation.printed) (feedAll_code .standard true false hcode)
  rw [Option.map_map] at hfed
  obtain ⟨program, program', hparses, hparses', hsame⟩ : ∃ program program',
      Parses (fileText spacedString) program ∧
        Parses (groupText (spacedString.filter isProgramLine)) program' ∧
        (!program.same program') = true :=
    exists_parses_two (by decide +kernel) (by decide +kernel) (by decide +kernel)
  exact ⟨hcode, ⟨program, program', hparses, hparses', by simpa using hsame⟩,
    hfed.trans (by decide +kernel), hended.trans (by decide +kernel)⟩

end Monkey
