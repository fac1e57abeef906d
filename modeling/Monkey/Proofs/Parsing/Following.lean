/-
What comes after an expression does not matter as long as nothing goes on there.  So the tokens
of an expression can be read by themselves to see what they make up in a larger text.
-/
import Monkey.Proofs.Parsing.Programs

namespace Monkey

/-- Nothing goes on at the token. -/
def Token.Inert (next : Token) : Prop :=
  Grammar.standard.infixRule? next.kind = none ∧ next.kind ≠ .elseWord

theorem Token.Inert.stops {next : Token} (h : next.Inert) (power : Int) (last : Token) :
    last.Stops power next := by
  intro rule hrule
  have hsome := (Token.infixRule?_of_continues? hrule).1
  rw [h.1] at hsome
  cases hsome

theorem inert_of_kind (next : Token)
    (h : next.kind ∈ [.rparen, .rbracket, .rbrace, .comma, .colon, .eof]) : next.Inert := by
  unfold Token.Inert
  revert h
  cases next.kind <;> decide

/-- The phrase is made up of the tokens also in front of another token where nothing goes on.  A
statement is not, since it can end with a semicolon. -/
def Phrase.Carries (tokens : List Token) : Phrase → Prop
  | .sentence _ | .statement _ => True
  | phrase => ∀ next : Token, next.Inert → Derives phrase tokens next

/-- The token after a part is the next one of the tokens, or else what comes after them all. -/
theorem derives_headD {phrase : Phrase} {tokens rest : List Token} {next next' : Token}
    (h : Derives phrase tokens (rest.headD next)) (hinert : next'.Inert)
    (hlast : rest = [] → ∀ next : Token, next.Inert → Derives phrase tokens next) :
    Derives phrase tokens (rest.headD next') := by
  cases rest with
  | nil => exact hlast rfl next' hinert
  | cons first rest => exact h

theorem Derives.carries {phrase : Phrase} {tokens : List Token} {next : Token}
    (h : Derives phrase tokens next) : phrase.Carries tokens := by
  induction h with
  | integer hkind hread hmin hmax => exact fun _ _ => .integer hkind hread hmin hmax
  | string hkind => exact fun _ _ => .string hkind
  | boolean hkind => exact fun _ _ => .boolean hkind
  | identifier hkind => exact fun _ _ => .identifier hkind
  | sign hkind _ ih => exact fun next' h' => .sign hkind (ih next' h')
  | grouped hopen hclose hinner _ => exact fun _ _ => .grouped hopen hclose hinner
  | conditional _ ih => exact fun next' h' => .conditional (ih next' h')
  | function hkind hopen hnames _ ih =>
      exact fun next' h' => .function hkind hopen hnames (ih next' h')
  | array hopen _ ih => exact fun next' h' => .array hopen (ih next' h')
  | hash hopen _ ih => exact fun next' h' => .hash hopen (ih next' h')
  | expression hopening _ ih ih' =>
      intro next' h'
      refine .expression (derives_headD hopening h' ?_) (ih' next' h')
      rintro rfl
      exact ih
  | stop _ => exact fun next' h' => .stop (h'.stops _ _)
  | infixOp hrule hpower hoperand _ ih ih' =>
      intro next' h'
      refine .infixOp hrule hpower (derives_headD hoperand h' ?_) (ih' next' h')
      rintro rfl
      exact ih
  | call hrule hpower harguments _ ih ih' =>
      intro next' h'
      refine .call hrule hpower (derives_headD harguments h' ?_) (ih' next' h')
      rintro rfl
      exact ih
  | index hrule hpower hclose hposition _ _ ih' =>
      exact fun next' h' => .index hrule hpower hclose hposition (ih' next' h')
  | ifElse hkind hopen hclose hcondition hconsequence _ _ ih' ih'' =>
      intro next' h'
      refine .ifElse hkind hopen hclose hcondition (derives_headD hconsequence h' ?_)
        (ih'' next' h')
      rintro rfl
      exact ih'
  | noElse _ => exact fun next' h' => .noElse h'.2
  | elseBlock hword _ ih => exact fun next' h' => .elseBlock hword (ih next' h')
  | elseIf hword _ ih => exact fun next' h' => .elseIf hword (ih next' h')
  | emptyList hclose => exact fun _ _ => .emptyList hclose
  | list _ ih => exact fun next' h' => .list (ih next' h')
  | lastElement hclose helement _ => exact fun _ _ => .lastElement hclose helement
  | moreElements hcomma helement _ _ ih' =>
      exact fun next' h' => .moreElements hcomma helement (ih' next' h')
  | emptyPairs hclose => exact fun _ _ => .emptyPairs hclose
  | lastPair hcolon hclose hkey hvalue _ _ =>
      exact fun _ _ => .lastPair hcolon hclose hkey hvalue
  | morePairs hcolon hcomma hkey hvalue _ _ _ ih'' =>
      exact fun next' h' => .morePairs hcolon hcomma hkey hvalue (ih'' next' h')
  | block hopen _ ih => exact fun next' h' => .block hopen (ih next' h')
  | emptyBody hclose => exact fun _ _ => .emptyBody hclose
  | body hstatement _ _ ih' => exact fun next' h' => .body hstatement (ih' next' h')
  | _ => trivial

/-- The tokens, by themselves, are read as the expression: to their end, and without a mistake. -/
def ReadsAlone (tokens : List Token) (node : Node) : Prop :=
  ∃ finish after, ((Parser.mk .standard tokens finish []).readExpression Power.lowest).Gives node
    after ∧ after.diagnostics = [] ∧ after.next.pending = []

theorem ReadsAlone.derives {tokens : List Token} {node : Node} (h : ReadsAlone tokens node)
    {next : Token} (hinert : next.Inert) :
    Derives (.expression Power.lowest node) tokens next := by
  obtain ⟨finish, after, hgives, hclean, hrest⟩ := h
  have hquiet : (Parser.mk .standard tokens finish []).Quiet after :=
    List.reverse_eq_nil_iff.mp hclean
  obtain ⟨tokens', hpasses, hderives⟩ := Parser.sound _ (.expression Power.lowest node) after
    hgives rfl (Int.le_refl _) trivial hquiet
  have htokens : tokens = tokens' := by
    have hpending := hpasses.pending
    rwa [hrest, List.append_nil] at hpending
  have hpeek : after.peek = after.eof := by rw [Parser.peek_eq, hrest]; rfl
  subst htokens
  rw [hpeek] at hderives
  exact hderives.carries next hinert

theorem readsAlone_iff {tokens : List Token} {node : Node} {next : Token} (hinert : next.Inert) :
    ReadsAlone tokens node ↔ Derives (.expression Power.lowest node) tokens next := by
  constructor
  · intro h
    exact h.derives hinert
  · intro h
    let parser : Parser := Parser.mk .standard tokens .start []
    obtain ⟨after, hpasses, hrest⟩ :=
      @Parser.exists_passes parser tokens [] h.ne_nil (by simp [parser])
    have hpeek : after.peek = after.eof := by rw [Parser.peek_eq, hrest]; rfl
    have heof : after.eof.Inert := inert_of_kind _ (by simp [Parser.eof])
    have hcomplete := Parser.complete (h.carries after.eof heof) (Int.le_refl _)
    refine ⟨.start, after, hcomplete.reads hpasses rfl hpeek, ?_, hrest⟩
    exact List.reverse_eq_nil_iff.mpr hpasses.found

end Monkey
