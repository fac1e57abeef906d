/-
Layout matters only before parentheses and brackets.  Two texts with the same lexemes are parsed
side by side; as long as the same delimiters open a line in both, the two parsers stand at the same
index at every point, and what they have read differs in tokens alone.
-/
import Mathlib.Data.List.Forall2
import Mathlib.Data.List.GetD
import Monkey.Proofs.Parsing.Integers
import Monkey.Proofs.Rendering.Parts

namespace Monkey

/-- What a token says, wherever it stands. -/
def Token.lexeme (token : Token) : Kind × String :=
  (token.kind, token.literal)

/-- The token at an index; behind the last one stands the end token. -/
def TokenStream.get (stream : TokenStream) (index : Nat) : Token :=
  stream.tokens.getD index stream.eof

/-- The streams have the same lexemes, and the same parentheses and brackets stand on a later line
than the token before them starts on. -/
structure TokenStream.Respaces (stream stream' : TokenStream) : Prop where
  lexemes : stream.tokens.map Token.lexeme = stream'.tokens.map Token.lexeme
  lines : ∀ index, (stream.get (index + 1)).kind ∈ [.lparen, .lbracket] →
    ((stream.get index).place.line < (stream.get (index + 1)).place.line ↔
      (stream'.get index).place.line < (stream'.get (index + 1)).place.line)

/-- A message about a token, the place of the token added. -/
def Diagnostic.about (message : String) (token : Token) : Diagnostic :=
  ⟨message ++ s!" (line {token.place.line}, column {token.place.column})", token⟩

section Facing

variable (stream stream' : TokenStream)

/-- The tokens stand at the same index. -/
def Token.Facing (token token' : Token) : Prop :=
  ∃ index, token = stream.get index ∧ token' = stream'.get index

/-- The diagnostics say the same about tokens at the same index. -/
def Diagnostic.Facing (diagnostic diagnostic' : Diagnostic) : Prop :=
  ∃ message token token', Token.Facing stream stream' token token' ∧
    diagnostic = .about message token ∧ diagnostic' = .about message token'

/-- The parser reads the stream and has come to an index. -/
structure Parser.StandsAt (parser : Parser) (stream : TokenStream) (index : Nat) : Prop where
  grammar : parser.grammar = .standard
  pending : parser.pending = stream.tokens.drop index
  finish : parser.finish = stream.finish

/-- The parsers have come to the same index and have reported the same. -/
structure Parser.Facing (parser parser' : Parser) : Prop where
  respaces : stream.Respaces stream'
  index : ∃ index, parser.StandsAt stream index ∧ parser'.StandsAt stream' index
  found : List.Forall₂ (Diagnostic.Facing stream stream') parser.found parser'.found

/-- The readings give the same, up to what is stripped off, or stop at the same integer literal. -/
inductive Reading.Facing {α β : Type} {m n : Nat} (strip : α → β) :
    Reading m α → Reading n α → Prop where
  | done {value value' : α} {after after' : Parser} {left_le : after.left ≤ m}
      {left_le' : after'.left ≤ n} (value_eq : strip value = strip value')
      (after_facing : Parser.Facing stream stream' after after') :
      Reading.Facing strip (.done value after left_le) (.done value' after' left_le')
  | failed {fault : NumberFault} {parser parser' : Parser} (kind_eq : parser.current.kind = .int)
      (unreadable : readInt parser.current.literal = .error fault)
      (parser_facing : Parser.Facing stream stream' parser parser') :
      Reading.Facing strip (.failed (.number fault parser.current.literal) parser)
        (.failed (.number fault parser.current.literal) parser')

end Facing

variable {stream stream' : TokenStream}

theorem TokenStream.Respaces.lexeme_get (h : stream.Respaces stream') (index : Nat) :
    (stream.get index).lexeme = (stream'.get index).lexeme := by
  have hlexeme : ∀ stream : TokenStream,
      (stream.get index).lexeme = (stream.tokens.map Token.lexeme).getD index (.eof, "") :=
    fun stream => (List.getD_map _ stream.eof Token.lexeme).symm
  rw [hlexeme, hlexeme, h.lexemes]

theorem TokenStream.Respaces.length_eq (h : stream.Respaces stream') :
    stream.tokens.length = stream'.tokens.length := by
  simpa using congrArg List.length h.lexemes

theorem TokenStream.get_of_le {index : Nat} (h : stream.tokens.length ≤ index) :
    stream.get index = stream.eof :=
  List.getD_eq_default _ _ h

/-- Behind the last token nothing opens a line. -/
theorem TokenStream.respaces_iff :
    stream.Respaces stream' ↔ stream.tokens.map Token.lexeme = stream'.tokens.map Token.lexeme ∧
      ∀ index < stream.tokens.length, (stream.get (index + 1)).kind ∈ [.lparen, .lbracket] →
        ((stream.get index).place.line < (stream.get (index + 1)).place.line ↔
          (stream'.get index).place.line < (stream'.get (index + 1)).place.line) := by
  constructor
  · exact fun h => ⟨h.lexemes, fun index _ => h.lines index⟩
  · rintro ⟨hlexemes, hlines⟩
    refine ⟨hlexemes, fun index hkind => ?_⟩
    rcases Nat.lt_or_ge index stream.tokens.length with hlt | hge
    · exact hlines index hlt hkind
    · rw [TokenStream.get_of_le (by omega)] at hkind
      simp [TokenStream.eof] at hkind

instance : Decidable (stream.Respaces stream') :=
  decidable_of_iff' _ TokenStream.respaces_iff

/-! ### One parser in its stream -/

namespace Parser.StandsAt

variable {parser : Parser} {index : Nat}

theorem ofStream (stream : TokenStream) : (Parser.ofStream stream).StandsAt stream 0 :=
  ⟨rfl, rfl, rfl⟩

theorem eof (h : parser.StandsAt stream index) : parser.eof = stream.eof := by
  rw [Parser.eof, TokenStream.eof, h.finish]

theorem current (h : parser.StandsAt stream index) : parser.current = stream.get index := by
  rw [Parser.current, h.eof, h.pending, TokenStream.get]
  simp [List.headD_eq_head?_getD, List.getD_eq_getElem?_getD, List.head?_drop]

theorem next (h : parser.StandsAt stream index) : parser.next.StandsAt stream (index + 1) :=
  ⟨h.grammar, by simp [Parser.next, h.pending], h.finish⟩

theorem peek (h : parser.StandsAt stream index) : parser.peek = stream.get (index + 1) :=
  h.next.current

theorem report (h : parser.StandsAt stream index) (message : String) (token : Token) :
    (parser.report message token).StandsAt stream index :=
  ⟨h.grammar, h.pending, h.finish⟩

end Parser.StandsAt

theorem Parser.readNames_of_not_ident {parser : Parser} (h : parser.peek.kind ≠ .ident) :
    parser.readNames = (none, parser.reportPeek .ident) := by
  have hexpect : parser.expect .ident = (false, parser.reportPeek .ident) := if_neg h
  rw [Parser.readNames]
  split
  · next hname => simp_all
  · next hname => simp_all

/-! ### Two parsers side by side -/

namespace Parser.Facing

variable {parser parser' : Parser}

theorem ofStream (h : stream.Respaces stream') :
    Parser.Facing stream stream' (.ofStream stream) (.ofStream stream') :=
  ⟨h, ⟨0, .ofStream _, .ofStream _⟩, .nil⟩

theorem left_eq (h : Parser.Facing stream stream' parser parser') :
    parser.left = parser'.left := by
  obtain ⟨index, hstands, hstands'⟩ := h.index
  rw [left, left, hstands.pending, hstands'.pending, List.length_drop, List.length_drop,
    h.respaces.length_eq]

theorem current (h : Parser.Facing stream stream' parser parser') :
    Token.Facing stream stream' parser.current parser'.current := by
  obtain ⟨index, hstands, hstands'⟩ := h.index
  exact ⟨index, hstands.current, hstands'.current⟩

theorem peek (h : Parser.Facing stream stream' parser parser') :
    Token.Facing stream stream' parser.peek parser'.peek := by
  obtain ⟨index, hstands, hstands'⟩ := h.index
  exact ⟨index + 1, hstands.peek, hstands'.peek⟩

theorem next (h : Parser.Facing stream stream' parser parser') :
    Parser.Facing stream stream' parser.next parser'.next := by
  obtain ⟨index, hstands, hstands'⟩ := h.index
  exact ⟨h.respaces, ⟨index + 1, hstands.next, hstands'.next⟩, h.found⟩

theorem report (h : Parser.Facing stream stream' parser parser') (message : String)
    {token token' : Token} (htoken : Token.Facing stream stream' token token') :
    Parser.Facing stream stream' (parser.report message token)
      (parser'.report message token') := by
  obtain ⟨index, hstands, hstands'⟩ := h.index
  exact ⟨h.respaces, ⟨index, hstands.report _ _, hstands'.report _ _⟩,
    .cons ⟨message, token, token', htoken, rfl, rfl⟩ h.found⟩

theorem lexeme_eq (h : Parser.Facing stream stream' parser parser') {token token' : Token}
    (htoken : Token.Facing stream stream' token token') : token.lexeme = token'.lexeme := by
  obtain ⟨index, rfl, rfl⟩ := htoken
  exact h.respaces.lexeme_get index

theorem kind_current (h : Parser.Facing stream stream' parser parser') :
    parser.current.kind = parser'.current.kind :=
  congrArg Prod.fst (h.lexeme_eq h.current)

theorem literal_current (h : Parser.Facing stream stream' parser parser') :
    parser.current.literal = parser'.current.literal :=
  congrArg Prod.snd (h.lexeme_eq h.current)

theorem kind_peek (h : Parser.Facing stream stream' parser parser') :
    parser.peek.kind = parser'.peek.kind :=
  congrArg Prod.fst (h.lexeme_eq h.peek)

theorem grammar_eq (h : Parser.Facing stream stream' parser parser') :
    parser.grammar = parser'.grammar := by
  obtain ⟨index, hstands, hstands'⟩ := h.index
  rw [hstands.grammar, hstands'.grammar]

theorem reportPeek (h : Parser.Facing stream stream' parser parser') (kind : Kind) :
    Parser.Facing stream stream' (parser.reportPeek kind) (parser'.reportPeek kind) := by
  rw [Parser.reportPeek, Parser.reportPeek, h.kind_peek]
  exact h.report _ h.peek

theorem reportNoPrefix (h : Parser.Facing stream stream' parser parser') :
    Parser.Facing stream stream' (parser.reportNoPrefix parser.current)
      (parser'.reportNoPrefix parser'.current) := by
  rw [Parser.reportNoPrefix, Parser.reportNoPrefix, h.kind_current, h.literal_current]
  exact h.report _ h.current

/-- Nothing else in the parser looks at lines. -/
theorem opensLine_eq (h : Parser.Facing stream stream' parser parser') :
    parser.opensLine = parser'.opensLine := by
  obtain ⟨index, hstands, hstands'⟩ := id h.index
  have hlines := h.respaces.lines index
  rw [← hstands.peek, ← hstands'.peek, ← hstands.current, ← hstands'.current] at hlines
  rw [Parser.opensLine, Parser.opensLine, ← h.kind_peek]
  by_cases hkind : parser.peek.kind ∈ [.lparen, .lbracket]
  · rw [decide_eq_decide.mpr (hlines hkind)]
  · have hfalse : (parser.peek.kind == .lparen || parser.peek.kind == .lbracket) = false := by
      simpa using hkind
    rw [hfalse, Bool.false_and, Bool.false_and]

theorem peekPower_eq (h : Parser.Facing stream stream' parser parser') :
    parser.peekPower = parser'.peekPower := by
  rw [peekPower, peekPower, h.opensLine_eq, h.grammar_eq, h.kind_peek]

theorem expect (h : Parser.Facing stream stream' parser parser') (kind : Kind) :
    (parser.expect kind).1 = (parser'.expect kind).1 ∧
      Parser.Facing stream stream' (parser.expect kind).2 (parser'.expect kind).2 := by
  rw [Parser.expect, Parser.expect, h.kind_peek]
  split
  · exact ⟨rfl, h.next⟩
  · exact ⟨rfl, h.reportPeek kind⟩

theorem readNames (h : Parser.Facing stream stream' parser parser') :
    parser.readNames.1.map bareAll = parser'.readNames.1.map bareAll ∧
      Parser.Facing stream stream' parser.readNames.2 parser'.readNames.2 := by
  induction hleft : parser.left using Nat.strongRecOn generalizing parser parser' with
  | _ bound ih =>
      by_cases hname : parser.peek.kind = .ident
      · have hname' : parser'.peek.kind = .ident := h.kind_peek.symm.trans hname
        have hlt : 1 < parser.left := one_lt_left (by simp [hname])
        have hliteral : parser.peek.literal = parser'.peek.literal := h.next.literal_current
        rw [readNames_of_ident hname, readNames_of_ident hname', hliteral,
          ← h.next.kind_peek]
        split
        · obtain ⟨hnames, hafter⟩ := ih parser.next.next.left
            (by simp only [left_next]; omega) h.next.next rfl
          refine ⟨?_, hafter⟩
          cases hread : parser.next.next.readNames.1 <;>
            cases hread' : parser'.next.next.readNames.1 <;> simp_all [bareAll, Node.bare]
        · split
          · exact ⟨by simp [bareAll, Node.bare], h.next.next⟩
          · exact ⟨rfl, h.next.reportPeek _⟩
      · have hname' : parser'.peek.kind ≠ .ident := h.kind_peek ▸ hname
        rw [readNames_of_not_ident hname, readNames_of_not_ident hname']
        exact ⟨rfl, h.reportPeek _⟩

theorem readParameters (h : Parser.Facing stream stream' parser parser') :
    parser.readParameters.1.map bareAll = parser'.readParameters.1.map bareAll ∧
      Parser.Facing stream stream' parser.readParameters.2 parser'.readParameters.2 := by
  rw [Parser.readParameters, Parser.readParameters, h.kind_peek]
  split
  · exact ⟨rfl, h.next⟩
  · exact h.readNames

end Parser.Facing

/-! ### Two readings side by side -/

namespace Reading.Facing

variable {α β γ δ : Type} {m n m' n' : Nat} {strip : α → γ} {strip' : β → δ}

theorem bind {reading : Reading m α} {reading' : Reading n α}
    {go : α → (parser : Parser) → parser.left ≤ m → Reading m' β}
    {go' : α → (parser : Parser) → parser.left ≤ n → Reading n' β}
    (h : Reading.Facing stream stream' strip reading reading')
    (hgo : ∀ value value' after after' left_le left_le', strip value = strip value' →
      Parser.Facing stream stream' after after' →
      Reading.Facing stream stream' strip' (go value after left_le)
        (go' value' after' left_le')) :
    Reading.Facing stream stream' strip' (reading.bind go) (reading'.bind go') := by
  cases h with
  | done value_eq after_facing => exact hgo _ _ _ _ _ _ value_eq after_facing
  | failed kind_eq unreadable parser_facing => exact .failed kind_eq unreadable parser_facing

theorem map {reading : Reading m α} {reading' : Reading n α} {f f' : α → β}
    (h : Reading.Facing stream stream' strip reading reading')
    (hf : ∀ value value', strip value = strip value' → strip' (f value) = strip' (f' value')) :
    Reading.Facing stream stream' strip' (reading.map f) (reading'.map f') := by
  cases h with
  | done value_eq after_facing => exact .done (hf _ _ value_eq) after_facing
  | failed kind_eq unreadable parser_facing => exact .failed kind_eq unreadable parser_facing

theorem weaken {reading : Reading m α} {reading' : Reading n α} (hle : m ≤ m') (hle' : n ≤ n')
    (h : Reading.Facing stream stream' strip reading reading') :
    Reading.Facing stream stream' strip (reading.weaken hle) (reading'.weaken hle') := by
  cases h with
  | done value_eq after_facing => exact .done value_eq after_facing
  | failed kind_eq unreadable parser_facing => exact .failed kind_eq unreadable parser_facing

theorem ite {p q : Prop} [Decidable p] [Decidable q] {yes no : Reading m α}
    {yes' no' : Reading n α} (hiff : p ↔ q)
    (hyes : p → Reading.Facing stream stream' strip yes yes')
    (hno : ¬ p → Reading.Facing stream stream' strip no no') :
    Reading.Facing stream stream' strip (if p then yes else no) (if q then yes' else no') := by
  by_cases hp : p
  · rw [if_pos hp, if_pos (hiff.mp hp)]
    exact hyes hp
  · rw [if_neg hp, if_neg (hp ∘ hiff.mpr)]
    exact hno hp

theorem dite {p q : Prop} [Decidable p] [Decidable q] {yes : p → Reading m α}
    {no : ¬ p → Reading m α} {yes' : q → Reading n α} {no' : ¬ q → Reading n α} (hiff : p ↔ q)
    (hyes : ∀ hp hq, Reading.Facing stream stream' strip (yes hp) (yes' hq))
    (hno : ∀ hp hq, Reading.Facing stream stream' strip (no hp) (no' hq)) :
    Reading.Facing stream stream' strip (if h : p then yes h else no h)
      (if h : q then yes' h else no' h) := by
  by_cases hp : p
  · rw [dif_pos hp, dif_pos (hiff.mp hp)]
    exact hyes hp _
  · rw [dif_neg hp, dif_neg (hp ∘ hiff.mpr)]
    exact hno hp _

/-- Both go on where a token was expected, or both do not. -/
theorem expect {parser parser' : Parser} {kind : Kind}
    {no : ∀ after, parser.expect kind = (false, after) → Reading m α}
    {yes : ∀ after, parser.expect kind = (true, after) → Reading m α}
    {no' : ∀ after, parser'.expect kind = (false, after) → Reading n α}
    {yes' : ∀ after, parser'.expect kind = (true, after) → Reading n α}
    (h : Parser.Facing stream stream' parser parser')
    (hno : ∀ after after' hafter hafter', Parser.Facing stream stream' after after' →
      Reading.Facing stream stream' strip (no after hafter) (no' after' hafter'))
    (hyes : ∀ after after' hafter hafter', Parser.Facing stream stream' after after' →
      Reading.Facing stream stream' strip (yes after hafter) (yes' after' hafter')) :
    Reading.Facing stream stream' strip
      (match h : parser.expect kind with
        | (false, after) => no after h
        | (true, after) => yes after h)
      (match h : parser'.expect kind with
        | (false, after) => no' after h
        | (true, after) => yes' after h) := by
  obtain ⟨hfound, hafter⟩ := h.expect kind
  generalize parser.expect kind = result at *
  generalize parser'.expect kind = result' at *
  obtain ⟨_ | _, after⟩ := result <;> obtain ⟨_ | _, after'⟩ := result'
  · exact hno after after' rfl rfl hafter
  · cases hfound
  · cases hfound
  · exact hyes after after' rfl rfl hafter

/-- Both have a parameter list to go on with, or both do not. -/
theorem parameters {parser parser' : Parser}
    {no : ∀ after, parser.readParameters = (none, after) → Reading m α}
    {yes : ∀ names after, parser.readParameters = (some names, after) → Reading m α}
    {no' : ∀ after, parser'.readParameters = (none, after) → Reading n α}
    {yes' : ∀ names after, parser'.readParameters = (some names, after) → Reading n α}
    (h : Parser.Facing stream stream' parser parser')
    (hno : ∀ after after' hafter hafter', Parser.Facing stream stream' after after' →
      Reading.Facing stream stream' strip (no after hafter) (no' after' hafter'))
    (hyes : ∀ names names' after after' hafter hafter', bareAll names = bareAll names' →
      Parser.Facing stream stream' after after' →
      Reading.Facing stream stream' strip (yes names after hafter)
        (yes' names' after' hafter')) :
    Reading.Facing stream stream' strip
      (match h : parser.readParameters with
        | (none, after) => no after h
        | (some names, after) => yes names after h)
      (match h : parser'.readParameters with
        | (none, after) => no' after h
        | (some names, after) => yes' names after h) := by
  obtain ⟨hnames, hafter⟩ := h.readParameters
  generalize parser.readParameters = result at *
  generalize parser'.readParameters = result' at *
  obtain ⟨_ | names, after⟩ := result <;> obtain ⟨_ | names', after'⟩ := result'
  · exact hno after after' rfl rfl hafter
  · cases hnames
  · cases hnames
  · exact hyes names names' after after' rfl rfl (Option.some.inj hnames) hafter

end Reading.Facing

/-! ### The functions of the parser -/

/-- The functions of the parser, where reading comes back to them, read side by side. -/
structure Parser.ReadsAlike (stream stream' : TokenStream) (parser parser' : Parser) : Prop where
  expression : ∀ power, Reading.Facing stream stream' Node.bare (parser.readExpression power)
    (parser'.readExpression power)
  extension : ∀ power left left', Node.bare left = Node.bare left' →
    Reading.Facing stream stream' Node.bare (parser.extend power left)
      (parser'.extend power left')
  conditional : Reading.Facing stream stream' Node.bare parser.readIf parser'.readIf
  list : ∀ close, Reading.Facing stream stream' (Option.map bareAll) (parser.readList close)
    (parser'.readList close)
  elements : ∀ close, Reading.Facing stream stream' (Option.map bareAll)
    (parser.readElements close) (parser'.readElements close)
  pairs : Reading.Facing stream stream' (Option.map barePairs) parser.readPairs parser'.readPairs
  block : Reading.Facing stream stream' Node.bare parser.readBlock parser'.readBlock
  body : Reading.Facing stream stream' bareAll parser.readBody parser'.readBody

/-- Parsers with few tokens left read side by side. -/
def AlikeBelow (stream stream' : TokenStream) (bound : Nat) : Prop :=
  ∀ parser parser', parser.left < bound → Parser.Facing stream stream' parser parser' →
    Parser.ReadsAlike stream stream' parser parser'

theorem AlikeBelow.mono {m n : Nat} (h : AlikeBelow stream stream' n) (hle : m ≤ n) :
    AlikeBelow stream stream' m :=
  fun parser parser' hlt => h parser parser' (Nat.lt_of_lt_of_le hlt hle)

theorem AlikeBelow.next {parser : Parser} (h : AlikeBelow stream stream' parser.left) :
    AlikeBelow stream stream' parser.next.left :=
  h.mono (Parser.left_next parser ▸ Nat.sub_le _ _)

namespace Parser.Facing

variable {parser parser' : Parser}

theorem readInteger (h : Parser.Facing stream stream' parser parser')
    (hkind : parser.current.kind = .int) :
    Reading.Facing stream stream' Node.bare parser.readInteger parser'.readInteger := by
  rw [Parser.readInteger, Parser.readInteger, ← h.literal_current]
  cases hread : readInt parser.current.literal with
  | error fault => exact .failed hkind hread h
  | ok value =>
      refine .ite Iff.rfl (fun _ => .done rfl h) fun _ => .done rfl ?_
      exact h.report _ h.current

theorem readInfix (h : Parser.Facing stream stream' parser parser')
    (ih : AlikeBelow stream stream' parser.left) (rule : InfixRule) {left left' : Node}
    (hleft : left.bare = left'.bare) :
    Reading.Facing stream stream' Node.bare (parser.readInfix rule left)
      (parser'.readInfix rule left') := by
  have hinner : parser.left ≠ 0 → Parser.ReadsAlike stream stream' parser.next parser'.next :=
    fun hpos => ih _ _ (by rw [left_next]; omega) h.next
  rw [Parser.readInfix.eq_def, Parser.readInfix.eq_def]
  refine .dite (by rw [h.left_eq]) (fun _ _ => .done hleft h) fun hpos _ => ?_
  cases rule with
  | operator power right =>
      refine ((hinner hpos).expression _).bind fun right right' after after' _ _ hright hafter => ?_
      exact .done (by simp [Node.bare, hleft, hright, h.literal_current]) hafter
  | call =>
      refine ((hinner hpos).list _).bind
        fun arguments arguments' after after' _ _ harguments hafter => ?_
      refine .done ?_ hafter
      cases arguments <;> cases arguments' <;> simp_all [Node.bare]
  | index =>
      refine ((hinner hpos).expression _).bind fun index index' after after' _ _ hindex hafter => ?_
      refine .expect hafter (fun _ _ _ _ => .done rfl) fun _ _ _ _ => .done ?_
      simp [Node.bare, hleft, hindex]

theorem extend (h : Parser.Facing stream stream' parser parser')
    (ih : AlikeBelow stream stream' parser.left) (power : Int) {left left' : Node}
    (hleft : left.bare = left'.bare) :
    Reading.Facing stream stream' Node.bare (parser.extend power left)
      (parser'.extend power left') := by
  rw [Parser.extend, Parser.extend]
  refine .dite (by rw [h.kind_peek]) (fun _ _ => .done hleft h) fun hend _ => ?_
  refine .ite (by rw [h.peekPower_eq]) (fun _ => ?_) fun _ => .done hleft h
  rw [← h.grammar_eq, ← h.kind_peek]
  cases parser.grammar.infixRule? parser.peek.kind with
  | none => exact .done hleft h
  | some rule =>
      have hlt : parser.next.left < parser.left := by
        have := one_lt_left hend
        rw [left_next]
        omega
      refine (h.next.readInfix ih.next rule hleft).bind
        fun more more' after after' left_le _ hmore hafter => ?_
      exact .weaken _ _ ((ih _ _ (Nat.lt_of_le_of_lt left_le hlt) hafter).extension _ _ _ hmore)

theorem readElse (h : Parser.Facing stream stream' parser parser')
    (ih : AlikeBelow stream stream' parser.left) (token token' : Token)
    {condition condition' consequence consequence' : Node}
    (hcondition : condition.bare = condition'.bare)
    (hconsequence : consequence.bare = consequence'.bare) :
    Reading.Facing stream stream' Node.bare (parser.readElse token condition consequence)
      (parser'.readElse token' condition' consequence') := by
  rw [Parser.readElse, Parser.readElse]
  have hif : ∀ alternative alternative' : Node, alternative.bare = alternative'.bare →
      (Node.ifElse (some token) condition consequence alternative).bare =
        (Node.ifElse (some token') condition' consequence' alternative').bare := by
    intro alternative alternative' halternative
    simp [Node.bare, hcondition, hconsequence, halternative]
  refine .dite (by rw [h.kind_peek]) (fun helse _ => ?_) fun _ _ => .done (hif _ _ rfl) h
  have hinner : Parser.ReadsAlike stream stream' parser.next.next parser'.next.next := by
    refine ih _ _ ?_ h.next.next
    have hlt : 1 < parser.left := one_lt_left (by simp [helse])
    simp only [left_next]
    omega
  refine .ite (by rw [h.next.kind_peek]) (fun _ => .weaken _ _ (hinner.block.map hif)) fun _ => ?_
  refine .ite (by rw [h.next.kind_peek]) (fun _ => .weaken _ _ (hinner.conditional.map hif))
    fun _ => ?_
  exact .done rfl (h.next.reportPeek _)

theorem readIf (h : Parser.Facing stream stream' parser parser')
    (ih : AlikeBelow stream stream' parser.left) :
    Reading.Facing stream stream' Node.bare parser.readIf parser'.readIf := by
  rw [Parser.readIf, Parser.readIf]
  refine .expect h (fun _ _ _ _ => .done rfl) fun opened opened' hopen _ hopened => ?_
  have hlt := left_of_expect (by decide) hopen
  have hinner := ih opened.next opened'.next (by rw [left_next]; omega) hopened.next
  refine (hinner.expression _).bind
    fun condition condition' after after' left_le _ hcondition hafter => ?_
  rw [left_next] at left_le
  refine .expect hafter (fun _ _ _ _ => .done rfl) fun closed closed' hclose _ hclosed => ?_
  have hlt' := left_of_expect (by decide) hclose
  refine .expect hclosed (fun _ _ _ _ => .done rfl) fun braced braced' hbrace _ hbraced => ?_
  have hlt'' := left_of_expect (by decide) hbrace
  refine (ih braced braced' (by omega) hbraced).block.bind
    fun consequence consequence' last last' left_le' _ hconsequence hlast => ?_
  exact .weaken _ _ (hlast.readElse (ih.mono (by omega)) _ _ hcondition hconsequence)

theorem readFunction (h : Parser.Facing stream stream' parser parser')
    (ih : AlikeBelow stream stream' parser.left) :
    Reading.Facing stream stream' Node.bare (parser.readPrefix .function)
      (parser'.readPrefix .function) := by
  rw [Parser.readPrefix, Parser.readPrefix]
  refine .expect h (fun _ _ _ _ => .done rfl) fun opened opened' hopen _ hopened => ?_
  refine .parameters hopened (fun _ _ _ _ => .done rfl)
    fun names names' named named' hnames _ hnames_eq hnamed => ?_
  refine .expect hnamed (fun _ _ _ _ => .done rfl) fun braced braced' hbrace _ hbraced => ?_
  have hlt := left_lt_of_header hopen hnames hbrace
  refine .weaken _ _ ((ih braced braced' hlt hbraced).block.map fun body body' hbody => ?_)
  simp [Node.bare, hnames_eq, hbody]

theorem readPrefix (h : Parser.Facing stream stream' parser parser')
    (ih : AlikeBelow stream stream' parser.left) {rule : PrefixRule}
    (hrule : Grammar.standard.prefixRule? parser.current.kind = some rule) :
    Reading.Facing stream stream' Node.bare (parser.readPrefix rule)
      (parser'.readPrefix rule) := by
  have hkind := Grammar.kind_of_prefixRule? hrule
  have hleft : parser.left ≠ 0 := by
    intro hzero
    rw [current_kind_of_left_eq_zero hzero] at hrule
    cases hrule
  have hleft' : parser'.left ≠ 0 := h.left_eq ▸ hleft
  have hinner := ih parser.next parser'.next (by rw [left_next]; omega) h.next
  cases rule with
  | integer =>
      rw [Parser.readPrefix, Parser.readPrefix]
      exact h.readInteger hkind
  | string | identifier =>
      rw [Parser.readPrefix, Parser.readPrefix]
      exact .done (by simp [Node.bare, h.literal_current]) h
  | boolean =>
      rw [Parser.readPrefix, Parser.readPrefix]
      exact .done (by simp [Node.bare, h.kind_current]) h
  | operator =>
      rw [Parser.readPrefix, Parser.readPrefix, dif_neg hleft, dif_neg hleft']
      refine (hinner.expression _).bind fun right right' after after' _ _ hright hafter => ?_
      exact .done (by simp [Node.bare, hright, h.literal_current]) hafter
  | grouped =>
      rw [Parser.readPrefix, Parser.readPrefix, dif_neg hleft, dif_neg hleft']
      refine (hinner.expression _).bind fun inner inner' after after' _ _ hsame hafter => ?_
      exact .expect hafter (fun _ _ _ _ => .done rfl) fun _ _ _ _ => .done hsame
  | conditional =>
      rw [Parser.readPrefix, Parser.readPrefix]
      exact h.readIf ih
  | function => exact h.readFunction ih
  | array =>
      rw [Parser.readPrefix, Parser.readPrefix, dif_neg hleft, dif_neg hleft']
      refine (hinner.list _).bind fun elements elements' after after' _ _ helements hafter => ?_
      refine .done ?_ hafter
      cases elements <;> cases elements' <;> simp_all [Node.bare]
  | hash =>
      rw [Parser.readPrefix, Parser.readPrefix, dif_neg hleft, dif_neg hleft']
      refine hinner.pairs.bind fun pairs pairs' after after' _ _ hpairs hafter => ?_
      refine .done ?_ hafter
      cases pairs <;> cases pairs' <;> simp_all [Node.bare]

theorem readExpression (h : Parser.Facing stream stream' parser parser')
    (ih : AlikeBelow stream stream' parser.left) (power : Int) :
    Reading.Facing stream stream' Node.bare (parser.readExpression power)
      (parser'.readExpression power) := by
  rw [Parser.readExpression, Parser.readExpression, ← h.grammar_eq, ← h.kind_current]
  cases hrule : parser.grammar.prefixRule? parser.current.kind with
  | none => exact .done rfl h.reportNoPrefix
  | some rule =>
      obtain ⟨index, hstands, _⟩ := h.index
      rw [hstands.grammar] at hrule
      refine (h.readPrefix ih hrule).bind fun left left' after after' left_le _ hleft hafter => ?_
      exact .weaken _ _ (hafter.extend (ih.mono left_le) power hleft)

theorem readElements (h : Parser.Facing stream stream' parser parser')
    (ih : AlikeBelow stream stream' parser.left) (close : Kind) :
    Reading.Facing stream stream' (Option.map bareAll) (parser.readElements close)
      (parser'.readElements close) := by
  rw [Parser.readElements, Parser.readElements]
  refine (h.readExpression ih _).bind
    fun element element' after after' left_le _ helement hafter => ?_
  refine .dite (by rw [hafter.kind_peek]) (fun hcomma _ => .weaken _ _ ?_) fun _ _ => ?_
  · have hlt : 1 < after.left := one_lt_left (by simp [hcomma])
    refine ((ih _ _ ?_ hafter.next.next).elements close).map fun elements elements' helements => ?_
    · simp only [left_next]
      omega
    · cases elements <;> cases elements' <;> simp_all [bareAll]
  · refine .expect hafter (fun _ _ _ _ => .done rfl) fun _ _ _ _ => .done ?_
    simp [bareAll, helement]

theorem readList (h : Parser.Facing stream stream' parser parser')
    (ih : AlikeBelow stream stream' parser.left) (close : Kind) :
    Reading.Facing stream stream' (Option.map bareAll) (parser.readList close)
      (parser'.readList close) := by
  rw [Parser.readList, Parser.readList]
  exact .ite (by rw [h.kind_current]) (fun _ => .done rfl h) fun _ => h.readElements ih close

theorem readPairs (h : Parser.Facing stream stream' parser parser')
    (ih : AlikeBelow stream stream' parser.left) :
    Reading.Facing stream stream' (Option.map barePairs) parser.readPairs parser'.readPairs := by
  rw [Parser.readPairs, Parser.readPairs]
  refine .ite (by rw [h.kind_current]) (fun _ => .done rfl h) fun _ => ?_
  refine (h.readExpression ih _).bind fun key key' after after' left_le _ hkey hafter => ?_
  refine .expect hafter (fun _ _ _ _ => .done rfl) fun colon colon' hcolon _ hcolon_facing => ?_
  have hlt := left_of_expect (by decide) hcolon
  refine ((ih colon.next colon'.next (by rw [left_next]; omega) hcolon_facing.next).expression
    _).bind fun value value' last last' left_le' _ hvalue hlast => ?_
  rw [left_next] at left_le'
  refine .ite (by rw [hlast.kind_peek]) (fun _ => .done ?_ hlast.next) fun _ => ?_
  · simp [barePairs, hkey, hvalue]
  refine .expect hlast (fun _ _ _ _ => .done rfl) fun comma comma' hcomma _ hcomma_facing => ?_
  have hlt' := left_of_expect (by decide) hcomma
  refine .weaken _ _ ((ih comma.next comma'.next (by rw [left_next]; omega)
    hcomma_facing.next).pairs.map fun pairs pairs' hpairs => ?_)
  cases pairs <;> cases pairs' <;> simp_all [barePairs]

theorem readLet (h : Parser.Facing stream stream' parser parser')
    (ih : AlikeBelow stream stream' parser.left) :
    Reading.Facing stream stream' (Option.map Node.bare) parser.readLet parser'.readLet := by
  rw [Parser.readLet, Parser.readLet]
  refine .expect h (fun _ _ _ _ => .done rfl) fun named named' hname _ hnamed => ?_
  have hlt := left_of_expect (by decide) hname
  refine .expect hnamed (fun _ _ _ _ => .done rfl) fun assigned assigned' hassign _ hassigned => ?_
  have hlt' := left_of_expect (by decide) hassign
  refine .weaken _ _ (((ih assigned.next assigned'.next (by rw [left_next]; omega)
    hassigned.next).expression _).map fun value value' hvalue => ?_)
  simp [Node.bare, hvalue, hnamed.literal_current]

theorem readReturn (h : Parser.Facing stream stream' parser parser')
    (ih : AlikeBelow stream stream' parser.left) :
    Reading.Facing stream stream' Node.bare parser.readReturn parser'.readReturn := by
  rw [Parser.readReturn, Parser.readReturn]
  refine .weaken _ _ ((h.next.readExpression ih.next _).map fun value value' hvalue => ?_)
  simp [Node.bare, hvalue]

theorem readStatement (h : Parser.Facing stream stream' parser parser')
    (ih : AlikeBelow stream stream' parser.left) :
    Reading.Facing stream stream' (Option.map Node.bare) parser.readStatement
      parser'.readStatement := by
  rw [Parser.readStatement, Parser.readStatement, ← h.kind_current]
  apply Reading.Facing.bind
  · show Reading.Facing stream stream' (Option.map Node.bare) _ _
    split
    · exact h.readLet ih
    · exact (h.readReturn ih).map fun _ _ hvalue => congrArg some hvalue
    · exact .done rfl h
    · refine (h.readExpression ih _).map fun value value' hvalue => ?_
      simp [Node.bare, hvalue]
  · intro statement statement' after after' _ _ hstatement hafter
    have hsome : statement.isSome = statement'.isSome := by
      simpa using congrArg Option.isSome hstatement
    exact .ite (by rw [hsome, hafter.kind_peek]) (fun _ => .done hstatement hafter.next)
      fun _ => .done hstatement hafter

theorem readBody (h : Parser.Facing stream stream' parser parser')
    (ih : AlikeBelow stream stream' parser.left) :
    Reading.Facing stream stream' bareAll parser.readBody parser'.readBody := by
  rw [Parser.readBody, Parser.readBody]
  refine .dite (by rw [h.kind_current]) (fun _ _ => .done rfl h) fun hend _ => ?_
  have hpos := Parser.left_pos fun h => hend (.inr h)
  refine (h.readStatement ih).bind
    fun statement statement' after after' left_le _ hstatement hafter => ?_
  refine .weaken _ _ ((ih after.next after'.next (by rw [left_next]; omega)
    hafter.next).body.map fun statements statements' hstatements => ?_)
  cases statement <;> cases statement' <;> simp_all [bareAll]

theorem readBlock (h : Parser.Facing stream stream' parser parser')
    (ih : AlikeBelow stream stream' parser.left) :
    Reading.Facing stream stream' Node.bare parser.readBlock parser'.readBlock := by
  rw [Parser.readBlock, Parser.readBlock]
  refine (h.next.readBody ih.next).bind
    fun statements statements' after after' _ _ hstatements hafter => ?_
  refine .ite (by rw [hafter.kind_current]) (fun _ => .done ?_ (hafter.report _ hafter.current))
    fun _ => .done ?_ hafter
  · simp [Node.bare, hstatements]
  · simp [Node.bare, hstatements]

end Parser.Facing

theorem alikeBelow (bound : Nat) : AlikeBelow stream stream' bound := by
  induction bound with
  | zero => exact fun parser parser' hlt => absurd hlt (Nat.not_lt_zero _)
  | succ bound ih =>
      intro parser parser' hlt h
      have ih := ih.mono (Nat.le_of_lt_succ hlt)
      exact {
        expression := h.readExpression ih
        extension := fun power _ _ hleft => h.extend ih power hleft
        conditional := h.readIf ih
        list := h.readList ih
        elements := h.readElements ih
        pairs := h.readPairs ih
        block := h.readBlock ih
        body := h.readBody ih }

theorem Parser.Facing.readStatements {parser parser' : Parser}
    (h : Parser.Facing stream stream' parser parser') :
    Reading.Facing stream stream' bareAll parser.readStatements parser'.readStatements := by
  suffices hbelow : ∀ bound parser parser', parser.left < bound →
      Parser.Facing stream stream' parser parser' →
      Reading.Facing stream stream' bareAll parser.readStatements parser'.readStatements from
    hbelow _ parser parser' (Nat.lt_succ_self _) h
  intro bound
  induction bound with
  | zero => exact fun parser parser' hlt => absurd hlt (Nat.not_lt_zero _)
  | succ bound ih =>
      intro parser parser' hlt h
      rw [Parser.readStatements, Parser.readStatements]
      refine .dite (by rw [h.kind_current]) (fun _ _ => .done rfl h) fun hend _ => ?_
      have hpos := Parser.left_pos hend
      refine (h.readStatement (alikeBelow _)).bind
        fun statement statement' after after' left_le _ hstatement hafter => ?_
      refine .weaken _ _ ((ih after.next after'.next (by rw [left_next]; omega) hafter.next).map
        fun statements statements' hstatements => ?_)
      cases statement <;> cases statement' <;> simp_all [bareAll]

/-! ### Two texts -/

theorem Reading.Facing.gives_or_failed {α β : Type} {m n : Nat} {strip : α → β}
    {reading : Reading m α} {reading' : Reading n α}
    (h : Reading.Facing stream stream' strip reading reading') :
    (∃ value value' after after', reading.Gives value after ∧ reading'.Gives value' after' ∧
        strip value = strip value' ∧ Parser.Facing stream stream' after after') ∨
      ∃ fault parser parser', reading = .failed (.number fault parser.current.literal) parser ∧
        reading' = .failed (.number fault parser.current.literal) parser' ∧
        parser.current.kind = .int ∧ readInt parser.current.literal = .error fault ∧
        Parser.Facing stream stream' parser parser' := by
  cases h with
  | done value_eq after_facing =>
      exact .inl ⟨_, _, _, _, gives_done.mpr ⟨rfl, rfl⟩, gives_done.mpr ⟨rfl, rfl⟩, value_eq,
        after_facing⟩
  | failed kind_eq unreadable parser_facing =>
      exact .inr ⟨_, _, _, rfl, rfl, kind_eq, unreadable, parser_facing⟩

/-- Both texts give programs that differ in tokens alone, with the same diagnostics. -/
def ParsesAlike (source source' : String) : Prop :=
  ∃ program program' after after', (parse source).Gives program after ∧
    (parse source').Gives program' after' ∧ program.same program' = true ∧
    List.Forall₂ (Diagnostic.Facing (tokenize source) (tokenize source')) after.diagnostics
      after'.diagnostics

/-- Parsing stops at the token at an index, an integer literal of more digits than are read. -/
def StopsAt (source : String) (index : Nat) : Prop :=
  let token := (tokenize source).get index
  token.kind = .int ∧ maxDigits < token.literal.length ∧
    ∃ parser, parser.StandsAt (tokenize source) index ∧
      parse source =
        .failed (.number (.tooLong token.literal.length) token.literal) parser

theorem TokenStream.mem_of_get {index : Nat} (h : (stream.get index).kind ≠ .eof) :
    stream.get index ∈ stream.tokens := by
  rw [TokenStream.get, List.getD_eq_getElem?_getD] at h ⊢
  cases hget : stream.tokens[index]? with
  | none => simp [hget, TokenStream.eof] at h
  | some token => exact List.mem_of_getElem? hget

/-- Only what has too many digits cannot be read. -/
theorem stopsAt_of_unreadable {source : String} {index : Nat} {fault : NumberFault}
    {parser : Parser} (hstands : parser.StandsAt (tokenize source) index)
    (hkind : parser.current.kind = .int)
    (hread : readInt parser.current.literal = .error fault)
    (hparse : parse source = .failed (.number fault parser.current.literal) parser) :
    StopsAt source index := by
  rw [hstands.current] at hkind hread hparse
  have hmem : (tokenize source).get index ∈ (tokenize source).tokens :=
    TokenStream.mem_of_get (by simp [hkind])
  rw [Token.readInt_eq (spells_of_mem_tokenize hmem) hkind] at hread
  split at hread
  · next hlong =>
    obtain rfl := Except.error.inj hread
    exact ⟨hkind, hlong, parser, hstands, hparse⟩
  · cases hread

theorem facing_parse {source source' : String}
    (h : (tokenize source).Respaces (tokenize source')) :
    Reading.Facing (tokenize source) (tokenize source') Node.bare (parse source)
      (parse source') :=
  (Parser.Facing.ofStream h).readStatements.map fun _ _ hstatements => by
    simp [Node.bare, hstatements]

/-- Layout matters only before parentheses and brackets. -/
theorem parse_of_respaces {source source' : String}
    (h : (tokenize source).Respaces (tokenize source')) :
    ParsesAlike source source' ∨ ∃ index, StopsAt source index ∧ StopsAt source' index := by
  rcases (facing_parse h).gives_or_failed with
    ⟨program, program', after, after', hgives, hgives', hsame, hafter⟩ |
    ⟨fault, parser, parser', hparse, hparse', hkind, hread, hparser⟩
  · refine .inl ⟨program, program', after, after', hgives, hgives', ?_, ?_⟩
    · exact (Node.same_iff_bare _ _).mpr hsame
    · exact List.rel_reverse hafter.found
  · obtain ⟨index, hstands, hstands'⟩ := hparser.index
    refine .inr ⟨index, stopsAt_of_unreadable hstands hkind hread hparse, ?_⟩
    rw [hparser.literal_current] at hread hparse'
    exact stopsAt_of_unreadable hstands' (hparser.kind_current ▸ hkind) hread hparse'

/-- A text spread over more lines: the call stays a call, and the parenthesis too many stays one. -/
theorem parse_of_respaces_call :
    (tokenize "f(1)[0] + x )").Respaces (tokenize "f( 1\n)[ 0 ]\n  +\nx\n)") ∧
      (ParsesAlike "f(1)[0] + x )" "f( 1\n)[ 0 ]\n  +\nx\n)" ∨
        ∃ index, StopsAt "f(1)[0] + x )" index ∧
          StopsAt "f( 1\n)[ 0 ]\n  +\nx\n)" index) :=
  have h : (tokenize "f(1)[0] + x )").Respaces (tokenize "f( 1\n)[ 0 ]\n  +\nx\n)") := by
    decide +kernel
  ⟨h, parse_of_respaces h⟩

/-- A parenthesis that opens a line makes a difference. -/
example : ¬ (tokenize "f (x)").Respaces (tokenize "f\n(x)") := by decide +kernel

end Monkey
