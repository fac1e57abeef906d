/-
Headers of errors.  An error at a token of a source is reported below a header that names the path
and the line of the token, unless the line that is found for the token is empty.  Where newlines
are the only characters that end a line, that leaves out just the end of a text that ends with one.
-/
import Monkey.Proofs.Lexing.Longest
import Monkey.Proofs.Talking.Excerpts
import Monkey.Proofs.Talking.Idle
import Monkey.Proofs.Parsing.Viable

namespace Monkey

/-! ### Where tokens are found -/

/-- No token starts with layout. -/
theorem head_not_layout_of_mem {passed : List Char} {marks : List Mark} {token : Token}
    (hmarks : AllLongest marks) (h : token ∈ tokensAfter passed marks) :
    ∃ c ∈ token.text.head?, isLayout c = false := by
  induction marks generalizing passed with
  | nil => cases h
  | cons mark marks ih =>
      obtain ⟨hmark, hrest⟩ := hmarks
      cases mark with
      | gap c => exact ih hrest h
      | word kind literal =>
          rcases List.mem_cons.mp h with rfl | h
          · exact hmark.head_not_layout
          · exact ih hrest h

theorem newline_not_head {source : String} {token : Token}
    (h : token ∈ (tokenize source).tokens) : token.text.head? ≠ some '\n' := by
  obtain ⟨marks, htext, htokens, hmarks⟩ := (Cursor.ofText source).exists_marks
  have hstart : (Cursor.ofText source).place = placeAfter [] := rfl
  rw [hstart, lay_placeAfter] at htokens
  rw [tokenize, htokens] at h
  obtain ⟨c, hc, hlayout⟩ := head_not_layout_of_mem hmarks h
  intro hnewline
  obtain rfl : c = '\n' := Option.some.inj (hc.symm.trans hnewline)
  cases hlayout

/-- The end token stands behind the whole text. -/
theorem finish_tokenize (source : String) :
    (tokenize source).finish = placeAfter source.toList := by
  obtain ⟨marks, htext, htokens, hmarks⟩ := (Cursor.ofText source).exists_marks
  have hstart : (Cursor.ofText source).place = placeAfter [] := rfl
  rw [tokenize, htokens, hstart, Place.after_placeAfter]
  rfl

/-- The line of a token holds its first character. -/
theorem Token.StandsOn.line_ne_empty {token : Token} {source before line : String}
    {passed : List Char} (h : token.StandsOn source before line passed)
    (hhead : token.text.head? ≠ some '\n') : line ≠ "" := by
  rintro rfl
  obtain ⟨after, _, hafter, rest, hline, back, hback⟩ := h.splits
  obtain ⟨rfl, rfl⟩ := List.append_eq_nil_iff.mp hline.symm
  rcases hafter with rfl | ⟨after, rfl⟩
  · exact h.nonempty (List.append_eq_nil_iff.mp hback).1
  · cases htext : token.text with
    | nil => exact h.nonempty htext
    | cons c text =>
        rw [htext] at hback hhead
        exact hhead (congrArg some (List.cons.inj hback).1)

/-- Where newlines are the only characters that end a line, the line of a token is found. -/
theorem Token.StandsOn.line_locate {token : Token} {source before line : String}
    {passed : List Char} (h : token.StandsOn source before line passed)
    (hnewlines : OnlyNewlines source.toList) (hline : line ≠ "") (number : Int) :
    (locate source number token).line = line := by
  obtain ⟨after, hsource, -⟩ := h.splits
  have hbreaks : ∀ c ∈ line.toList, isLineBreak c = false := by
    intro c hc
    refine Bool.eq_false_iff.mpr fun hbreak => ?_
    obtain rfl := hnewlines c (by simp [hsource, hc]) hbreak
    exact h.single hc
  have hlength : (splitLines before).length = before.toList.count '\n' :=
    h.whole.length_linesFrom fun c hc => hnewlines c (by simp [hsource, hc])
  have hlast : (splitLines before ++ [line])[before.toList.count '\n']? = some line := by
    rw [← hlength, List.getElem?_append_right (Nat.le_refl _), Nat.sub_self]
    rfl
  rw [h.locate_eq, (h.getElem?_splitLines_iff hline).mpr ⟨hbreaks, hlast⟩]
  rfl

theorem wholeLines_append_iff {before passed : List Char} (hbefore : WholeLines before)
    (hpassed : '\n' ∉ passed) : WholeLines (before ++ passed) ↔ passed = [] := by
  constructor
  · rintro (hnil | ⟨front, hfront⟩)
    · exact (List.append_eq_nil_iff.mp hnil).2
    · rcases List.eq_nil_or_concat passed with rfl | ⟨rest, c, rfl⟩
      · rfl
      · rw [List.concat_eq_append, ← List.append_assoc] at hfront
        obtain rfl := (List.append_singleton_inj.mp hfront).2
        exact absurd (by simp) hpassed
  · rintro rfl
    rwa [List.append_nil]

/-- The line of the end token is empty just when the text ends with a whole line. -/
theorem line_locate_eof {source : String} (hnewlines : OnlyNewlines source.toList) (number : Int) :
    (locate source number (tokenize source).eof).line = "" ↔ WholeLines source.toList := by
  obtain ⟨before, passed, hsource, hbefore, hpassed⟩ := exists_wholeLines source.toList
  rw [hsource] at hnewlines
  have hplace : (tokenize source).eof.place =
      ⟨1 + before.count '\n', 1 + passed.length⟩ := by
    rw [TokenStream.eof, finish_tokenize, hsource, placeAfter_line hbefore hpassed]
  have hline : (tokenize source).eof.place.line = 1 + before.count '\n' :=
    congrArg Place.line hplace
  have hindex : ((tokenize source).eof.place.line - 1).toNat = before.count '\n' := by omega
  have hlow : ¬ (tokenize source).eof.place.line < 1 := by omega
  have hlength : (linesFrom [] before).length = before.count '\n' :=
    hbefore.length_linesFrom fun c hc => hnewlines c (List.mem_append_left _ hc)
  have hfound : (splitLines source)[before.count '\n']? = (linesFrom [] passed)[0]? := by
    rw [splitLines, hsource, hbefore.linesFrom_append, ← hlength,
      List.getElem?_append_right (Nat.le_refl _), Nat.sub_self]
  simp only [locate, if_neg hlow, hindex, hfound]
  rw [hsource, wholeLines_append_iff hbefore hpassed]
  by_cases hnil : passed = []
  · subst hnil
    exact iff_of_true rfl rfl
  · have hbreaks : ∀ c ∈ passed, isLineBreak c = false := by
      intro c hc
      refine Bool.eq_false_iff.mpr fun hbreak => ?_
      obtain rfl := hnewlines c (List.mem_append_right _ hc) hbreak
      exact hpassed hc
    rw [linesFrom_last [] hbreaks hnil]
    exact iff_of_false (by simpa using hnil) hnil

/-! ### Errors of a source -/

/-- The token that the first parse error of a source is about, or the error that its run in an
empty environment ends with. -/
inductive Offends (depth : Nat) (source : String) : Token → Prop
  | unparsed {program : Node} {after : Parser} {first : Diagnostic} {others : List Diagnostic}
      (hread : (parse source).Gives program after) (hfirst : after.diagnostics = first :: others) :
      Offends depth source first.token
  | failed {program : Node} {message : String} {token : Token} {identity : Option Nat}
      {machine : Machine} (hparses : Parses source program)
      (herror : program.eval depth rootFrame Machine.start =
        .ok (.error message (some token) identity) machine) : Offends depth source token

/-- The token is read from the source, or it is the end token. -/
theorem Offends.mem {depth : Nat} {source : String} {token : Token}
    (h : Offends depth source token) :
    token ∈ (tokenize source).tokens ∨ token = (tokenize source).eof := by
  cases h with
  | @unparsed program after first others hread hfirst =>
      obtain ⟨statements, hstatements, _⟩ := Reading.gives_map.mp hread
      have hears : (Parser.ofSource source).Hears first after := by
        refine ⟨others.reverse, ?_⟩
        rw [← List.reverse_inj, ← show after.diagnostics = after.found.reverse from rfl, hfirst]
        simp [Parser.ofSource, Parser.ofStream]
      obtain ⟨passed, _, ⟨rest, hpending, htoken⟩, _⟩ :=
        Parser.blames_readStatements hstatements rfl hears
      cases rest with
      | nil => exact Or.inr htoken
      | cons next rest =>
          refine Or.inl ?_
          show first.token ∈ (Parser.ofSource source).pending
          rw [hpending, htoken]
          simp
  | @failed program message token identity machine hparses herror =>
      obtain ⟨_, _, hcomplete⟩ := hparses.complete
      have hstart : (Realm.reading (tokenize source).tokens).Contains Machine.start :=
        Realm.contains_start
      have hroot : rootFrame < Machine.start.store.frames.size := Nat.one_pos
      have hcloses := hstart.closes_eval hcomplete hroot depth
      rw [herror] at hcloses
      obtain ⟨found, hfound, htoken⟩ := hcloses.token_of_mentions (.error _ _ _ _)
      obtain rfl := Option.some.inj htoken
      exact Or.inl hfound

theorem Offends.one_le_line {depth : Nat} {source : String} {token : Token}
    (h : Offends depth source token) : 1 ≤ token.place.line := by
  rcases h.mem with hmem | rfl
  · obtain ⟨before, line, passed, hstands⟩ := exists_standsOn hmem
    rw [hstands.place_eq]
    simp only
    omega
  · rw [TokenStream.eof, finish_tokenize, placeAfter]
    simp only
    omega

/-- A problem stops the session with a notice at the token, whose line is then registered. -/
theorem Offends.stops {host : Host} {source : String} {token : Token}
    (h : Offends host.depth source token) (path : String) (fatal showTree : Bool) (number : Int) :
    ∃ message messages printed machine,
      (Session.add source number >>= fun _ => Session.run host) (.idle path fatal showTree .start) =
        .error (.notice ((locate source number token).notice message messages))
          { Session.idle path fatal showTree .start with
            machine := machine
            reporter := .alone path fatal ⟨some (locate source number token).line,
              some (locate source number token).number⟩ printed } := by
  cases h with
  | @unparsed program after first others hread hfirst =>
      refine ⟨first.message, (first :: others).map Diagnostic.message, "", Machine.start, ?_⟩
      simp only [bind, EStateM.bind, Session.add_idle_of_diagnostics hread hfirst,
        Session.fail_idle]
      rfl
  | @failed program message token identity machine hparses herror =>
      obtain ⟨after, hread, hclean⟩ := hparses
      let shown := Session.shown host.style path (Session.withTree showTree .start program)
        ⟨number, source, program⟩ machine
      have herror : program.eval host.depth rootFrame
          (Session.withTree showTree .start program).machine =
            .ok (.error message (some token) identity) machine := herror
      refine ⟨message, [], shown.printed, shown.machine, ?_⟩
      simp only [bind, EStateM.bind, Session.add_idle hread hclean, Session.run_idle]
      rw [Session.runProgram_idle_ok herror, Session.finish, Session.fail_idle]
      rfl

/-- The header of a line: its path and number, and the line without the blanks around it. -/
def headerText (path : String) (number : Int) (line : String) : String :=
  "  File '" ++ path ++ "', line " ++ toString number ++ ":\n    " ++ trim line ++ "\n"

theorem getD_header (path text : String) (number : Int) :
    (Reporter.header (path, ⟨some text, some number⟩)).getD "" =
      if text = "" then "" else headerText path number text := by
  rw [Reporter.header]
  by_cases hempty : text = ""
  · rw [if_pos (String.isEmpty_iff.mpr hempty), if_pos hempty]
    rfl
  · rw [if_neg fun hnil => hempty (String.isEmpty_iff.mp hnil), if_neg hempty]
    rfl

/-- Every problem of a source in a fresh session is reported, fatal or not, below the header with
the path and the line of the token, unless the line that is found for the token is empty.  If
newlines are the only characters of the source that end a line, it is empty just for the end of a
source that is empty or ends with a newline. -/
theorem Offends.reported_below_header {host : Host} {source : String} {token : Token}
    (h : Offends host.depth source token) (path : String) (fatal showTree : Bool) (number : Int) :
    ∃ notice session,
      (Session.add source number >>= fun _ => Session.run host) (.idle path fatal showTree .start) =
        .error (.notice notice) session ∧
      (∀ ends, (session.reporter.throw host.style notice ends).1.printed =
        session.reporter.printed ++
        (if (locate source number token).line = "" then ""
          else headerText path (number + token.place.line - 1)
            (locate source number token).line) ++
        (Reporter.errorLines host.style notice ++ "\n" ++ notice.diagnosis host.style .red)) ∧
      (OnlyNewlines source.toList → ((locate source number token).line = "" ↔
        token = (tokenize source).eof ∧ WholeLines source.toList)) := by
  obtain ⟨message, messages, printed, machine, hstops⟩ := h.stops path fatal showTree number
  refine ⟨_, _, hstops, fun ends => ?_, fun hnewlines => ?_⟩
  · have hnumber : (locate source number token).number = number + token.place.line - 1 := by
      have hline := h.one_le_line
      simp only [locate]
      omega
    rw [Reporter.printed_throw_alone, hnumber, getD_header]
    simp only [String.append_assoc]
    rfl
  · rcases h.mem with hmem | rfl
    · obtain ⟨before, line, passed, hstands⟩ := exists_standsOn hmem
      have hline := hstands.line_ne_empty (newline_not_head hmem)
      rw [hstands.line_locate hnewlines hline]
      refine iff_of_false hline ?_
      rintro ⟨heof, -⟩
      exact kind_ne_eof_of_mem_tokenize hmem (heof ▸ rfl)
    · rw [line_locate_eof hnewlines]
      exact (and_iff_right rfl).symm

/-- A sum over two lines that fails at its operator. -/
def sumOfTruth : String :=
  "1 +\n  true"

/-- The token of the error that a run ends with. -/
def failureToken? : EStateM.Result Fault Machine Value → Option Token
  | .ok (.error _ (some token) _) _ => some token
  | _ => none

theorem eq_of_failureToken? {result : EStateM.Result Fault Machine Value} {token : Token}
    (h : failureToken? result = some token) :
    ∃ message identity machine, result = .ok (.error message (some token) identity) machine := by
  unfold failureToken? at h
  split at h
  · obtain rfl := Option.some.inj h
    exact ⟨_, _, _, rfl⟩
  · cases h

/-- The operator is on the first line of the text, which is the fourth one here. -/
theorem sumOfTruth_reported_below_header :
    Offends Host.standard.depth sumOfTruth ⟨.plus, "+", ⟨1, 3⟩⟩ ∧
    ∃ notice session,
      (Session.add sumOfTruth 4 >>= fun _ => Session.run .standard)
          (.idle "sums" true false .start) = .error (.notice notice) session ∧
      ∀ ends, (session.reporter.throw .ansi notice ends).1.printed = session.reporter.printed ++
        "  File 'sums', line 4:\n    1 +\n" ++
        (Reporter.errorLines .ansi notice ++ "\n" ++ notice.diagnosis .ansi .red) := by
  have hfails : (parse sumOfTruth).toExcept.toOption.any (fun program =>
      failureToken? (program.eval Host.standard.depth rootFrame Machine.start) ==
        some ⟨.plus, "+", ⟨1, 3⟩⟩) = true := by decide +kernel
  obtain ⟨program, hparses, herror⟩ := exists_parses hfails (by decide +kernel)
  obtain ⟨message, identity, machine, heval⟩ := eq_of_failureToken? (beq_iff_eq.mp herror)
  have hoffends : Offends Host.standard.depth sumOfTruth ⟨.plus, "+", ⟨1, 3⟩⟩ :=
    .failed hparses heval
  obtain ⟨notice, session, hstops, hprinted, -⟩ :=
    hoffends.reported_below_header "sums" true false 4
  refine ⟨hoffends, notice, session, hstops, fun ends => (hprinted ends).trans ?_⟩
  have hline : (locate sumOfTruth 4 ⟨.plus, "+", ⟨1, 3⟩⟩).line = "1 +" := by decide +kernel
  have hheader : headerText "sums" (4 + 1 - 1) "1 +" =
      "  File 'sums', line 4:\n    1 +\n" := by decide +kernel
  rw [hline, if_neg (by decide), ← hheader]
  rfl

/-- A group that is not closed; its last line has a newline. -/
def openGroup : String :=
  "let x = (1 + 2\n"

/-- The notice that stops a session. -/
def stopNotice? : EStateM.Result Stop Session Unit → Option (Notice × Session)
  | .error (.notice notice) session => some (notice, session)
  | _ => none

theorem eq_of_stopNotice? {result : EStateM.Result Stop Session Unit} {notice : Notice}
    {session : Session} (h : stopNotice? result = some (notice, session)) :
    result = .error (.notice notice) session := by
  unfold stopNotice? at h
  split at h
  · obtain ⟨rfl, rfl⟩ := Prod.mk.inj (Option.some.inj h)
    rfl
  · cases h

/-- A notice without an excerpt is shown as its message alone where the line registered is empty. -/
theorem Reporter.printed_throw_blank (style : Style) (path message : String) (fatal ends : Bool)
    (number start stop : Int) :
    ((alone path fatal ⟨some "", some number⟩ "").throw style
        (.plain message "" { start := start, stop := stop }) ends).1.printed =
      style.boldIn .red "error: " ++ message ++ "\n" := by
  rw [printed_throw_alone, getD_header]
  simp [errorLines, Notice.plain, Notice.diagnosis, Notice.hasDiagnosis]

/-- What is missing is reported at the end of the text, behind the newline.  No line is found
there, and so there is no header, in whatever style the report is. -/
theorem openGroup_unheaded : ∃ notice session,
    Session.add openGroup 1 (.idle promptPath false false .start) =
      .error (.notice notice) session ∧
    session.reporter.printed = "" ∧
    ∀ style ends, (session.reporter.throw style notice ends).1.printed =
      style.boldIn .red "error: " ++
        "expected next token to be RPAREN, got EOF instead (line 2, column 1)" ++ "\n" := by
  let message := "expected next token to be RPAREN, got EOF instead (line 2, column 1)"
  have hstops : (stopNotice? (Session.add openGroup 1 (.idle promptPath false false .start))).any
      (fun (notice, session) => notice == .plain message "" { start := 0, stop := 1 } &&
        session.reporter.fatal == false && session.reporter.printed == "" &&
        session.reporter.trace == [(promptPath, ⟨some "", some 2⟩)]) = true := by
    decide +kernel
  obtain ⟨⟨notice, session⟩, hadd, hfound⟩ := (Option.any_eq_true _ _).mp hstops
  simp only [Bool.and_eq_true, beq_iff_eq] at hfound
  obtain ⟨⟨⟨rfl, hfatal⟩, hprinted⟩, htrace⟩ := hfound
  have hreporter : session.reporter = .alone promptPath false ⟨some "", some 2⟩ "" := by
    rw [Reporter.alone, ← htrace, ← hfatal, ← hprinted]
  refine ⟨_, session, eq_of_stopNotice? hadd, hprinted, fun style ends => ?_⟩
  rw [hreporter]
  exact Reporter.printed_throw_blank style promptPath message false ends 2 0 1

end Monkey
