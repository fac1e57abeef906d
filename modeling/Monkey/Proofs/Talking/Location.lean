/-
Where a conversation says that something went wrong.  A session looks for every token in the group
that is being run.  So an error or a warning is shown where its token was read just when it was
read in that group; a token of a function from an earlier group is looked for in the wrong lines.
-/
import Monkey.Proofs.Talking.Numbering
import Monkey.Proofs.Talking.Origin
import Monkey.Proofs.Talking.Refinement

namespace Monkey

/-! ### Where tokens are read -/

/-- The text that a token was read from, a string with its quotes. -/
def Token.text (token : Token) : List Char :=
  (Mark.word token.kind token.literal).text

/-- A token is as wide as its text. -/
theorem Token.width_eq {token : Token} (h : token.text ≠ []) : token.width = token.text.length := by
  have hpos := List.length_pos_iff.mpr h
  obtain ⟨kind, literal, place⟩ := token
  by_cases hkind : kind = .string
  · subst hkind
    simp [Token.width, Token.text, Mark.text, String.length_toList]
  · rw [Token.text, Mark.text_word hkind, String.length_toList] at hpos ⊢
    rw [Token.width, if_neg hkind]
    exact max_eq_left hpos

theorem exists_text_of_mem {passed : List Char} {marks : List Mark} {token : Token}
    (hmarks : AllLongest marks) (h : token ∈ tokensAfter passed marks) :
    ∃ front back, textOf marks = front ++ (token.text ++ back) ∧
      token.place = placeAfter (passed ++ front) ∧ token.text ≠ [] := by
  induction marks generalizing passed with
  | nil => cases h
  | cons mark marks ih =>
      obtain ⟨hmark, hrest⟩ := hmarks
      cases mark with
      | gap c =>
          obtain ⟨front, back, htext, hplace, hne⟩ := ih hrest h
          refine ⟨c :: front, back, congrArg (c :: ·) htext, ?_, hne⟩
          rw [hplace, List.append_assoc, List.singleton_append]
      | word kind literal =>
          rcases List.mem_cons.mp h with rfl | h
          · exact ⟨[], textOf marks, rfl, by rw [List.append_nil], hmark.nonempty⟩
          · obtain ⟨front, back, htext, hplace, hne⟩ := ih hrest h
            refine ⟨(Mark.word kind literal).text ++ front, back, ?_, ?_, hne⟩
            · rw [textOf_cons, htext, List.append_assoc]
            · rw [hplace, List.append_assoc]

/-- A token was read in a group behind some of its lines and some characters of the next one. -/
def Token.ReadAt (token : Token) (group before : List String) (line : String)
    (passed : List Char) : Prop :=
  ∃ after rest, group = before ++ line :: after ∧ (dropNewlines line).toList = passed ++ rest ∧
    token.text <+: rest ++ '\n' :: (groupText after).toList ∧
    token.place = placeAfter ((groupText before).toList ++ passed)

theorem readAt_of_mem {group : List String} {token : Token} (h : token ∈ groupTokens group) :
    token.text ≠ [] ∧ ∃ before line passed, token.ReadAt group before line passed := by
  obtain ⟨marks, htext, htokens, hmarks⟩ := (Cursor.ofText (groupText group)).exists_marks
  have hstart : (Cursor.ofText (groupText group)).place = placeAfter [] := rfl
  rw [hstart, lay_placeAfter] at htokens
  rw [groupTokens, tokenize, htokens] at h
  obtain ⟨front, back, hsplit, hplace, hne⟩ := exists_text_of_mem hmarks h
  have hgroup : (groupText group).toList = front ++ (token.text ++ back) := htext.symm.trans hsplit
  obtain ⟨before, line, after, passed, rest, hlines, rfl, hline, hback⟩ :=
    exists_line hgroup (by simp [hne])
  exact ⟨hne, before, line, passed, after, rest, hlines, hline, ⟨back, hback⟩, hplace⟩

/-- The excerpt is the line of the script on which a token was read in a group with a number: its
text, its number, and the span of the text of the token from where it starts on the line.  A script
holds the lines of programs only, so blank lines and commands that were typed have no number. -/
def Excerpt.Locates (excerpt : Excerpt) (script : List String) (number : Nat)
    (group : List String) (token : Token) : Prop :=
  ∃ before line passed, token.ReadAt group before line passed ∧
    script[number - 1 + before.length]? = some line ∧
    excerpt = ⟨dropNewlines line, number + before.length, passed.length,
      passed.length + token.text.length⟩

section

variable {script group : List String} {number : Nat} {token : Token}

theorem exists_locates (hstands : StandsIn script number group) (h : token ∈ groupTokens group) :
    ∃ excerpt : Excerpt, excerpt.Locates script number group token := by
  obtain ⟨_, before, line, passed, hread⟩ := readAt_of_mem h
  obtain ⟨after, rest, rfl, _⟩ := id hread
  exact ⟨_, before, line, passed, hread, hstands.getElem, rfl⟩

theorem number_locate (source : String) (start : Int) {before : List String} {passed : List Char}
    (hplace : token.place = placeAfter ((groupText before).toList ++ passed)) :
    (locate source start token).number =
      start + ((groupText before).toList.count '\n' + passed.count '\n' : Nat) := by
  have hline : token.place.line =
      1 + ((groupText before).toList.count '\n' + passed.count '\n' : Nat) := by
    rw [hplace, placeAfter, List.count_append]
  rw [locate, hline]
  simp only
  omega

/-- A token of an earlier group is looked for too far down. -/
theorem Excerpt.Locates.number_lt {excerpt : Excerpt}
    (h : excerpt.Locates script number group token)
    {start : Nat} (hstart : number < start) (source : String) :
    excerpt.number < (locate source start token).number := by
  obtain ⟨before, line, passed, ⟨_, _, _, _, _, hplace⟩, _, rfl⟩ := h
  have hcount := length_le_count before
  rw [number_locate source start hplace]
  simp only
  omega

/-- A token is found in the group that it was read in, if each line of that is shown as one. -/
theorem locates_locate (hstands : StandsIn script number group) (h : token ∈ groupTokens group)
    (hlines : ∀ line ∈ group, OneLine line) :
    (locate (groupText group) number token).Locates script number group token := by
  obtain ⟨hne, before, line, passed, hread⟩ := readAt_of_mem h
  obtain ⟨after, rest, rfl, hline, _, hplace⟩ := id hread
  refine ⟨before, line, passed, hread, hstands.getElem, ?_⟩
  have hbefore : ∀ line ∈ before, OneLine line :=
    fun line hmem => hlines line (List.mem_append_left _ hmem)
  have hpassed : '\n' ∉ passed := by
    have hnewline := (hlines line (by simp)).newline_not_mem
    rw [hline] at hnewline
    exact fun hmem => hnewline (List.mem_append_left _ hmem)
  rw [placeAfter_groupText hbefore hpassed] at hplace
  have hindex : (token.place.line - 1).toNat = before.length := by
    rw [hplace]
    simp only
    omega
  have hstart : (token.place.column - 1).toNat = passed.length := by
    rw [hplace]
    simp only
    omega
  have hlow : ¬ token.place.line < 1 := by
    rw [hplace]
    simp only
    omega
  have hnumber : (number : Int) + max token.place.line 1 - 1 = number + before.length := by
    rw [hplace]
    simp only
    omega
  simp only [locate, if_neg hlow, hindex, hstart, hnumber, splitLines_groupText hlines,
    Token.width_eq hne, List.map_append, List.map_cons]
  rw [← List.length_map dropNewlines, List.getElem?_append_right (Nat.le_refl _), Nat.sub_self]
  rfl

end

/-! ### What is reported -/

/-- The outcome of a run mentions a token: in a warning, or in the error that it ends with. -/
inductive Mentions : EStateM.Result Fault Machine Value → String → Option Token → Prop
  | error (message : String) (token : Option Token) (identity : Option Nat) (machine : Machine) :
      Mentions (.ok (.error message token identity) machine) message token
  | warning {result : Value} {machine : Machine} {message : String} {token : Option Token}
      (h : .warned message token ∈ machine.events) : Mentions (.ok result machine) message token
  | warningBefore {fault : Fault} {machine : Machine} {message : String} {token : Option Token}
      (h : .warned message token ∈ machine.events) :
      Mentions (.error fault machine) message token

namespace Realm

/-- Only tokens of the realm are mentioned. -/
theorem Closes.token_of_mentions {realm : Realm} {bounds : Bounds}
    {outcome : EStateM.Result Fault Machine Value} (h : realm.Closes bounds outcome)
    {message : String} {token : Option Token} (hmentions : Mentions outcome message token) :
    realm.token token := by
  cases hmentions with
  | error message token identity machine =>
      cases h with
      | ok _ hvalue _ => exact (refuses_eq_false.mp hvalue.clear.self).1
  | warning hmem =>
      cases h with
      | ok _ _ hafter => exact hafter.warned hmem
  | warningBefore hmem =>
      cases h with
      | error _ hafter => exact hafter.warned hmem

end Realm

/-- The groups that are run when the lines are typed and then the sentinel. -/
def Typed.runs (lines : List String) : List Request :=
  start.requests lines ++ [.run ((start.typeAll lines).closed + 1) (start.typeAll lines).group]

/-- Every group that is run has lines of its own, and only the last one starts so late. -/
theorem Typed.stands_of_mem_runs {lines : List String} {number : Nat} {group : List String}
    (h : .run number group ∈ runs lines) :
    StandsIn (lines.filter isProgramLine) number group ∧
      (number < (start.typeAll lines).closed + 1 ∨
        number = (start.typeAll lines).closed + 1 ∧ group = (start.typeAll lines).group) := by
  obtain ⟨hwrote, _, hearlier⟩ := wrote_start.typeAll lines
  rcases List.mem_append.mp h with h | h
  · obtain ⟨hstands, hle⟩ := hearlier number group h
    exact ⟨hstands, Or.inl (Nat.lt_succ_of_le hle)⟩
  · obtain ⟨rfl, rfl⟩ := Request.run.inj (List.mem_singleton.mp h)
    exact ⟨hwrote.stands, Or.inr ⟨rfl, rfl⟩⟩

namespace Shell

/-- Where a token is looked for while the open group is run. -/
def excerpt (shell : Shell) (token : Token) : Excerpt :=
  locate shell.group shell.groupStart token

variable {host : Host} {showTree : Bool} {lines : List String} {shell : Shell}

theorem commands_of_feedAll {after : Shell} (h : shell.feedAll host lines = some after) :
    ∀ line ∈ lines,
      Command.ofLine? line ≠ some .exit ∧ Command.ofLine? line ≠ some .endOfInput := by
  induction lines generalizing shell with
  | nil => nofun
  | cons line rest ih =>
      rw [Shell.feedAll] at h
      split at h
      · next hfed =>
          refine List.forall_mem_cons.mpr ⟨⟨fun hexit => ?_, fun hend => ?_⟩, ih h⟩
          · simp [Shell.feed, hexit] at hfed
          · simp [Shell.feed, hend] at hfed
      · cases h

theorem exists_conversation {fatal : Bool}
    (h : (start (.start fatal) showTree).feedAll host lines = some shell) : ∃ conversation,
      Conversation.start.answerAll host showTree (Typed.start.requests lines) = some conversation ∧
      Follows showTree (Typed.start.typeAll lines) conversation shell := by
  have hfollows := (follows_start fatal showTree).feedAll host (commands_of_feedAll h)
  cases hanswer : Conversation.start.answerAll host showTree (Typed.start.requests lines) with
  | none =>
      rw [hanswer, h] at hfollows
      cases hfollows
  | some conversation =>
      rw [hanswer, h] at hfollows
      obtain ⟨hfollows⟩ := hfollows
      exact ⟨conversation, rfl, hfollows⟩

/-- An error that ends the run of a group stops it, with the excerpt of the token registered. -/
theorem Follows.runGroup_of_error {typed : Typed} {conversation : Conversation}
    (h : Follows showTree typed conversation shell) {program : Node}
    (hparses : Parses shell.group program) {message : String} {token : Token}
    {identity : Option Nat} {machine : Machine}
    (herror : program.eval host.depth rootFrame shell.session.machine =
      .ok (.error message (some token) identity) machine) :
    ∃ session, runGroup host shell.group shell.groupStart shell.session =
        .error (.notice ((shell.excerpt token).notice message [])) session ∧
      session.reporter.trace =
        [(promptPath, ⟨some (shell.excerpt token).line, some (shell.excerpt token).number⟩)] := by
  obtain ⟨parser, ⟨_, hread⟩, hclean⟩ := hparses
  rw [h.session] at herror ⊢
  have hadd := @Session.add_of_clean showTree conversation shell.group shell.groupStart _ _ _
    hread hclean
  have hrun := @Session.runProgram_of_error host showTree
    (Session.withTree showTree conversation program) ⟨shell.groupStart, shell.group, program⟩
    machine message (some token) identity herror
  refine ⟨_, Session.runGroup_of_stop hadd (hrun.trans rfl), ?_⟩
  exact congrArg Reporter.trace (Reporter.register_atPrompt _)

/-- What the run of the open group mentions was read in that group or in an earlier one. -/
theorem Follows.keeps_of_mentions {conversation : Conversation}
    (h : Follows showTree (Typed.start.typeAll lines) conversation shell)
    (hanswer : Conversation.start.answerAll host showTree (Typed.start.requests lines) =
      some conversation)
    {program : Node} (hparses : Parses shell.group program) {message : String}
    {token : Option Token}
    (hmentions : Mentions (program.eval host.depth rootFrame shell.session.machine) message token) :
    Keeps ((Typed.runs lines).flatMap Request.tokens) token := by
  obtain ⟨_, _, hcomplete⟩ := hparses.complete
  have hrecalls : conversation.Recalls ((Typed.runs lines).flatMap Request.tokens) := by
    refine (Conversation.recalls_start.answerAll hanswer).widen ?_
    rw [Typed.runs, List.flatMap_append, List.nil_append]
    exact List.subset_append_left ..
  have hprogram : program.Everywhere
      (Node.WellFormed ((Typed.runs lines).flatMap Request.tokens)) := by
    refine hcomplete.mono fun _ => Realm.wellFormed_mono ?_
    rw [h.group, Typed.runs, List.flatMap_append, List.flatMap_singleton]
    exact List.subset_append_right ..
  rw [h.session] at hmentions
  exact (hrecalls.closes hprogram host.depth).token_of_mentions hmentions

/-- Whatever an error or a warning of a group is about has a token, and was read in that group or
in an earlier one.  The excerpt that is registered and shown for it is the line on which the token
was read just when that was in the group itself, if no line of the group is shown as several.  Lines
are numbered as the shell counts them, without the blank ones and the commands. -/
theorem excerpt_locates_iff_own_token (fatal : Bool)
    (hfeed : (start (.start fatal) showTree).feedAll host lines = some shell)
    (hgroup : isBlankText shell.group = false) {program : Node}
    (hparses : Parses shell.group program) :
    ∀ message token,
      Mentions (program.eval host.depth rootFrame shell.session.machine) message token →
      ∃ found, token = some found ∧ found ∈ (Typed.runs lines).flatMap Request.tokens ∧
        (∀ number group, .run number group ∈ Typed.runs lines → found ∈ groupTokens group →
          (∃ place : Excerpt, place.Locates (lines.filter isProgramLine) number group found) ∧
          ((shell.excerpt found).Locates (lines.filter isProgramLine) number group found →
            number = shell.groupStart) ∧
          (number = shell.groupStart → (∀ line ∈ group, OneLine line) →
            (shell.excerpt found).Locates (lines.filter isProgramLine) number group found)) ∧
        (∀ identity machine, program.eval host.depth rootFrame shell.session.machine =
            .ok (.error message token identity) machine →
          ∃ session, runGroup host shell.group shell.groupStart shell.session =
              .error (.notice ((shell.excerpt found).notice message [])) session ∧
            session.reporter.trace = [(promptPath,
              ⟨some (shell.excerpt found).line, some (shell.excerpt found).number⟩)]) ∧
        ∀ session, Session.warnAt host.style ⟨shell.groupStart, shell.group, program⟩ message token
            session = .ok () { session with
            reporter := ((session.reporter.registerLine session.path (shell.excerpt found).line
              (shell.excerpt found).number).warn host.style
                ((shell.excerpt found).notice message [])).clearLine session.path } := by
  intro message token hmentions
  obtain ⟨conversation, hanswer, hfollows⟩ := exists_conversation hfeed
  have hne : (Typed.start.typeAll lines).group ≠ [] := by
    intro hempty
    rw [hfollows.group, hempty] at hgroup
    cases hgroup
  have hstart : shell.groupStart = (Typed.start.typeAll lines).closed + 1 :=
    hfollows.groupStart hne
  obtain ⟨found, hfound, rfl⟩ := hfollows.keeps_of_mentions hanswer hparses hmentions
  refine ⟨found, rfl, hfound, ?_, ?_, fun _ => rfl⟩
  · intro number group hrun htoken
    obtain ⟨hstands, hnumber⟩ := Typed.stands_of_mem_runs hrun
    refine ⟨exists_locates hstands htoken, fun hlocates => ?_, ?_⟩
    -- A token of an earlier group is looked for too far down, so its place is not found.
    · rcases hnumber with hlt | ⟨heq, _⟩
      · rw [← hstart] at hlt
        exact absurd (hlocates.number_lt hlt shell.group) (Int.lt_irrefl _)
      · rw [heq, hstart]
    · rintro rfl hlines
      rcases hnumber with hlt | ⟨_, rfl⟩
      · rw [hstart] at hlt
        exact absurd hlt (Nat.lt_irrefl _)
      · rw [excerpt, hfollows.group]
        exact locates_locate hstands htoken hlines
  · exact fun identity machine herror => hfollows.runGroup_of_error hparses herror

/-- The lines are taken, and the group that is then open parses to a program whose run ends with an
error at a token. -/
def failsAt (lines : List String) (group : String) (groupStart : Nat) (message : String)
    (token : Token) : Bool :=
  ((start (.start true) false).feedAll .standard lines).any fun shell =>
    shell.group == group && shell.groupStart == groupStart &&
      (parse group).after.diagnostics.isEmpty &&
        (parse group).toExcept.toOption.any fun program =>
          match program.eval Host.standard.depth rootFrame shell.session.machine with
          | .ok (.error message' token' _) _ => message' == message && token' == some token
          | _ => false

theorem exists_of_failsAt {lines : List String} {group : String} {groupStart : Nat}
    {message : String} {token : Token} (h : failsAt lines group groupStart message token = true) :
    ∃ shell program identity machine,
      (start (.start true) false).feedAll .standard lines = some shell ∧ shell.group = group ∧
      shell.groupStart = groupStart ∧ Parses shell.group program ∧
      program.eval Host.standard.depth rootFrame shell.session.machine =
        .ok (.error message (some token) identity) machine := by
  obtain ⟨shell, hshell, hfails⟩ := (Option.any_eq_true _ _).mp h
  simp only [Bool.and_eq_true, beq_iff_eq] at hfails
  obtain ⟨⟨⟨rfl, rfl⟩, hclean⟩, hfails⟩ := hfails
  obtain ⟨program, hparses, hfails⟩ := exists_parses hfails (List.isEmpty_iff.mp hclean)
  split at hfails
  · next message' token' identity machine heval =>
      rw [Bool.and_eq_true, beq_iff_eq, beq_iff_eq] at hfails
      obtain ⟨rfl, rfl⟩ := hfails
      exact ⟨shell, program, identity, machine, hshell, rfl, rfl, hparses, heval⟩
  · cases hfails

/-- A function that fails when it is called with a number. -/
def additionOfTrue : List String :=
  ["let f = fn(x) \x7b", "x + true \x7d"]

/-- A group that fails on its last line. -/
def additionOfFunction : List String :=
  ["let g = fn(x) \x7b", "x \x7d", "  g(1) + f"]

/-- The operator of the open group is found on the last of its three lines. -/
theorem ownOperator_located : ∃ shell program found,
    (start (.start true) false).feedAll .standard (additionOfTrue ++ ";" :: additionOfFunction) =
        some shell ∧
      isBlankText shell.group = false ∧ Parses shell.group program ∧
      Mentions (program.eval Host.standard.depth rootFrame shell.session.machine)
        "unknown operator: INTEGER + FUNCTION" (some found) ∧
      (∀ line ∈ additionOfFunction, OneLine line) ∧
      shell.excerpt found = ⟨"  g(1) + f", 6, 7, 8⟩ ∧
      (shell.excerpt found).Locates (additionOfTrue ++ ";" :: additionOfFunction) 4
        additionOfFunction found := by
  obtain ⟨shell, program, identity, machine, hshell, hgroup, hstart, hparses, heval⟩ :=
    @exists_of_failsAt (additionOfTrue ++ ";" :: additionOfFunction)
      "let g = fn(x) \x7b\nx \x7d\n  g(1) + f\n" 4 "unknown operator: INTEGER + FUNCTION"
      ⟨.plus, "+", ⟨3, 8⟩⟩ (by decide +kernel)
  have hblank : isBlankText shell.group = false := by
    rw [hgroup]
    decide +kernel
  have hmentions : Mentions (program.eval Host.standard.depth rootFrame shell.session.machine)
      "unknown operator: INTEGER + FUNCTION" (some ⟨.plus, "+", ⟨3, 8⟩⟩) := by
    rw [heval]
    exact .error _ _ _ _
  have hlines : ∀ line ∈ additionOfFunction, OneLine line := by decide +kernel
  obtain ⟨found, hfound, -, hplaces, -, -⟩ :=
    excerpt_locates_iff_own_token true hshell hblank hparses _ _ hmentions
  obtain rfl := Option.some.inj hfound
  obtain ⟨_, _, hlocates⟩ := hplaces 4 additionOfFunction (by decide +kernel)
    (by decide +kernel)
  refine ⟨shell, program, _, hshell, hblank, hparses, hmentions, hlines, ?_,
    hlocates hstart.symm hlines⟩
  rw [excerpt, hgroup, hstart]
  decide +kernel

/-- The operator of a function from an earlier group is shown on a line of the group that calls
the function, which has no such line. -/
theorem earlierOperator_misplaced : ∃ shell program identity machine session,
    (start (.start true) false).feedAll .standard (additionOfTrue ++ [";", "f(1)"]) = some shell ∧
      Parses shell.group program ∧
      program.eval Host.standard.depth rootFrame shell.session.machine =
        .ok (.error "unknown operator: INTEGER + BOOLEAN" (some ⟨.plus, "+", ⟨2, 3⟩⟩) identity)
          machine ∧
      ⟨.plus, "+", ⟨2, 3⟩⟩ ∈ groupTokens additionOfTrue ∧
      (⟨"x + true \x7d", 2, 2, 3⟩ : Excerpt).Locates (additionOfTrue ++ [";", "f(1)"]) 1
        additionOfTrue ⟨.plus, "+", ⟨2, 3⟩⟩ ∧
      runGroup .standard shell.group shell.groupStart shell.session =
        .error (.notice ((⟨"", 5, 2, 3⟩ : Excerpt).notice "unknown operator: INTEGER + BOOLEAN" []))
          session ∧
      session.reporter.trace = [(promptPath, ⟨some "", some 5⟩)] := by
  obtain ⟨shell, program, identity, machine, hshell, hgroup, hstart, hparses, heval⟩ :=
    @exists_of_failsAt (additionOfTrue ++ [";", "f(1)"]) "f(1)\n" 4
      "unknown operator: INTEGER + BOOLEAN" ⟨.plus, "+", ⟨2, 3⟩⟩ (by decide +kernel)
  obtain ⟨_, _, hfollows⟩ := exists_conversation hshell
  obtain ⟨session, hrun, htrace⟩ := hfollows.runGroup_of_error hparses heval
  have hlocate : shell.excerpt ⟨.plus, "+", ⟨2, 3⟩⟩ = ⟨"", 5, 2, 3⟩ := by
    rw [excerpt, hgroup, hstart]
    decide +kernel
  rw [hlocate] at hrun htrace
  have hread : Token.ReadAt ⟨.plus, "+", ⟨2, 3⟩⟩ additionOfTrue ["let f = fn(x) \x7b"]
      "x + true \x7d" "x ".toList :=
    ⟨[], "+ true \x7d".toList, rfl, by decide +kernel, by decide +kernel, by decide +kernel⟩
  exact ⟨shell, program, identity, machine, session, hshell, hparses, heval, by decide +kernel,
    ⟨_, _, _, hread, by decide +kernel, by decide +kernel⟩, hrun, htrace⟩

end Shell

end Monkey
