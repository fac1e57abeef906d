/-
Reading a rendering again.  The tokens of a rendered part make up the same part, its own tokens
apart, unless a bracket is applied to a string literal that spans lines: such a bracket stands on
a later line than the string does, and so opens a statement of its own.

An expression is read again together with whatever goes on after it, because calls go on from
their callee.
-/
import Monkey.Proofs.Parsing.Following
import Monkey.Proofs.Rendering.Ends
import Monkey.Proofs.Rendering.Parts

namespace Monkey

/-- The tree again, with other tokens that read alike. -/
structure Node.Echo (node echo : Node) : Prop where
  bare : echo.bare = node.bare
  marks : echo.marks = node.marks

inductive Echoes : List Node → List Node → Prop where
  | nil : Echoes [] []
  | cons {node echo : Node} {nodes echoes : List Node} (hnode : node.Echo echo)
      (hnodes : Echoes nodes echoes) : Echoes (node :: nodes) (echo :: echoes)

inductive PairEchoes : List (Node × Node) → List (Node × Node) → Prop where
  | nil : PairEchoes [] []
  | cons {key value key' value' : Node} {pairs echoes : List (Node × Node)}
      (hkey : key.Echo key') (hvalue : value.Echo value') (hpairs : PairEchoes pairs echoes) :
      PairEchoes ((key, value) :: pairs) ((key', value') :: echoes)

theorem Echoes.eq_nil_iff {nodes echoes : List Node} (h : Echoes nodes echoes) :
    echoes = [] ↔ nodes = [] := by
  cases h <;> simp

theorem PairEchoes.eq_nil_iff {pairs echoes : List (Node × Node)} (h : PairEchoes pairs echoes) :
    echoes = [] ↔ pairs = [] := by
  cases h <;> simp

theorem Echoes.bareAll {nodes echoes : List Node} (h : Echoes nodes echoes) :
    bareAll echoes = bareAll nodes := by
  induction h with
  | nil => rfl
  | cons hnode _ ih => rw [Monkey.bareAll, Monkey.bareAll, hnode.bare, ih]

theorem Echoes.lineMarks {nodes echoes : List Node} (h : Echoes nodes echoes) :
    lineMarks echoes = lineMarks nodes := by
  induction h with
  | nil => rfl
  | cons hnode _ ih => rw [Monkey.lineMarks, Monkey.lineMarks, hnode.marks, ih]

theorem Echoes.listMarks {nodes echoes : List Node} (h : Echoes nodes echoes) :
    listMarks echoes = listMarks nodes := by
  induction h with
  | nil => rfl
  | cons hnode hnodes ih =>
      rw [listMarks_cons, listMarks_cons, hnode.marks, ih]
      simp only [hnodes.eq_nil_iff]

theorem PairEchoes.barePairs {pairs echoes : List (Node × Node)} (h : PairEchoes pairs echoes) :
    barePairs echoes = barePairs pairs := by
  induction h with
  | nil => rfl
  | cons hkey hvalue _ ih => rw [Monkey.barePairs, Monkey.barePairs, hkey.bare, hvalue.bare, ih]

theorem PairEchoes.pairMarks {pairs echoes : List (Node × Node)} (h : PairEchoes pairs echoes) :
    pairMarks echoes = pairMarks pairs := by
  induction h with
  | nil => rfl
  | cons hkey hvalue hpairs ih =>
      rw [pairMarks_cons, pairMarks_cons, hkey.marks, hvalue.marks, ih]
      simp only [hpairs.eq_nil_iff]

/-- No bracket in the part is applied to a string literal that spans lines. -/
def Unbroken (parts : List Node) : Prop :=
  ∀ part ∈ parts, part.appliesBrokenString = false

instance (parts : List Node) : Decidable (Unbroken parts) :=
  inferInstanceAs (Decidable (∀ part ∈ parts, part.appliesBrokenString = false))

theorem unbroken_append {first second : List Node} :
    Unbroken (first ++ second) ↔ Unbroken first ∧ Unbroken second := by
  simp only [Unbroken, List.mem_append]
  constructor
  · intro h
    exact ⟨fun part hpart => h part (Or.inl hpart), fun part hpart => h part (Or.inr hpart)⟩
  · rintro ⟨hfirst, hsecond⟩ part (hpart | hpart)
    · exact hfirst part hpart
    · exact hsecond part hpart

theorem unbroken_cons {part : Node} {parts : List Node} :
    Unbroken (part :: parts) ↔ part.appliesBrokenString = false ∧ Unbroken parts := by
  simp [Unbroken]

def Form.parts : Form → List Node
  | .expression node | .conditional node | .block node | .sentence node => node.parts
  | .nodes list | .lines list => partsOfAll list
  | .pairs list => partsOfPairs list

/-! ### The tokens around a part -/

/-- A token that does not go on with a statement made up of other tokens. -/
structure Token.Follows (next : Token) (tokens : List Token) : Prop where
  no_else : next.kind ≠ .elseWord
  no_semicolon : next.kind ≠ .semicolon
  no_operator : Grammar.standard.infixRule? next.kind = none ∨
    (next.kind = .lparen ∨ next.kind = .lbracket) ∧
      ∀ token ∈ tokens, token.place.line < next.place.line

theorem Token.Follows.stops {next last : Token} {tokens : List Token} (h : next.Follows tokens)
    (hlast : last ∈ tokens) (power : Int) : last.Stops power next := by
  intro rule hrule
  obtain ⟨hsome, hline⟩ := Token.infixRule?_of_continues? hrule
  rcases h.no_operator with hnone | ⟨hkind, hlines⟩
  · rw [hsome] at hnone
    cases hnone
  · exact absurd ⟨hkind, hlines last hlast⟩ hline

/-- The rendering of a part ends with a token on the line where the text ends, unless it is a
string literal that spans lines. -/
theorem Node.Closes.exists_last {node : Node} (h : node.Closes) (place : Place) :
    ∃ init last, lay place node.marks = init ++ [last] ∧ last.kind ∈ Kind.closers ∧
      (last.place.line = (place.after (textOf node.marks)).line ∨
        ∃ token value, node = .string token value ∧ '\n' ∈ value.toList) := by
  obtain ⟨front, kind, literal, hmarks, hkind, hnewline⟩ := h
  refine ⟨lay place front, ⟨kind, literal, place.after (textOf front)⟩, ?_, hkind, ?_⟩
  · rw [hmarks, lay_append]
    rfl
  · by_cases hline : '\n' ∈ (Mark.word kind literal).text
    · exact Or.inr (hnewline hline)
    · left
      rw [hmarks, textOf_append, Place.after_append]
      have htext : textOf [Mark.word kind literal] = (Mark.word kind literal).text := by simp
      rw [htext, Place.line_after_eq _ hline]

/-- What goes on after the rendering of an expression goes on from its last token. -/
def Resumes (place : Place) (node echo : Node) : Prop :=
  ∀ init last power rest next final, lay place node.marks = init ++ [last] →
    power ≤ Power.sign → (rest.headD next).kind ≠ .elseWord →
      Derives (.extension power echo final) (last :: rest) next →
        Derives (.expression power final) (init ++ last :: rest) next

theorem resumes_of_opening {place : Place} {node echo : Node} {rule : PrefixRule}
    (h : ∀ next : Token, next.kind ≠ .elseWord →
      Derives (.opening rule echo) (lay place node.marks) next) : Resumes place node echo := by
  intro init last power rest next final hlay _ helse hextension
  have hopening := h _ helse
  rw [hlay] at hopening
  exact .expression hopening hextension

theorem Resumes.derives {place : Place} {node echo : Node} (h : Resumes place node echo)
    (hcloses : node.Closes) {power : Int} {next : Token} (hpower : power ≤ Power.sign)
    (helse : next.kind ≠ .elseWord)
    (hstop : ∀ last ∈ lay place node.marks, last.Stops power next) :
    Derives (.expression power echo) (lay place node.marks) next := by
  obtain ⟨init, last, hlay, _, _⟩ := hcloses.exists_last place
  rw [hlay]
  refine h init last power [] next echo hlay hpower helse (.stop (hstop last ?_))
  simp [hlay]

theorem Resumes.derives_inert {place : Place} {node echo : Node} (h : Resumes place node echo)
    (hcloses : node.Closes) {power : Int} {next : Token} (hpower : power ≤ Power.sign)
    (hinert : next.Inert) : Derives (.expression power echo) (lay place node.marks) next :=
  h.derives hcloses hpower hinert.2 fun last _ => hinert.stops power last

/-- How a part is read again where its rendering starts at a place. -/
def Form.Rereads (place : Place) : Form → Prop
  | .expression node => ∃ echo, node.Echo echo ∧ Resumes place node echo
  | .conditional node => ∃ echo, node.Echo echo ∧ ∀ next : Token, next.kind ≠ .elseWord →
      Derives (.conditional echo) (lay place node.marks) next
  | .block node => ∃ echo, node.Echo echo ∧ ∀ next,
      Derives (.block echo) (lay place node.marks) next
  | .nodes list => ∃ echoes, Echoes list echoes ∧ ∀ closer next : Token,
      closer.kind = .rparen ∨ closer.kind = .rbracket →
        (list ≠ [] → Derives (.elements closer.kind (some echoes))
          (lay place (listMarks list) ++ [closer]) next) ∧
        Derives (.list closer.kind (some echoes)) (lay place (listMarks list) ++ [closer]) next
  | .pairs list => ∃ echoes, PairEchoes list echoes ∧ ∀ closer next : Token,
      closer.kind = .rbrace →
        Derives (.pairs (some echoes)) (lay place (pairMarks list) ++ [closer]) next
  | .sentence node => ∃ echo, node.Echo echo ∧ ∀ next : Token,
      next.Follows (lay place node.marks) →
        Derives (.statement (some echo)) (lay place node.marks) next
  | .lines list => ∃ echoes, Echoes list echoes ∧
      (∀ closer next : Token, closer.kind = .rbrace →
        Derives (.body echoes) (lay place (lineMarks list) ++ [closer]) next) ∧
      ∀ next : Token, next.kind = .eof → DerivesAll echoes (lay place (lineMarks list)) next

/-! ### Expressions -/

section Expressions

variable {place : Place}

theorem rereads_ident {token : Token} :
    (Form.expression (.ident (some token) token.literal)).Rereads place := by
  refine ⟨.ident (some ⟨.ident, token.literal, place⟩) token.literal, ⟨rfl, rfl⟩, ?_⟩
  exact resumes_of_opening fun next _ => .identifier rfl

theorem rereads_int {token : Token} {value : Int} (hread : readInt token.literal = .ok value)
    (hmin : minInteger ≤ value) (hmax : value ≤ maxInteger) :
    (Form.expression (.int (some token) value)).Rereads place := by
  refine ⟨.int (some ⟨.int, token.literal, place⟩) value, ⟨rfl, rfl⟩, ?_⟩
  exact resumes_of_opening fun next _ => .integer rfl hread hmin hmax

theorem rereads_string {token : Token} :
    (Form.expression (.string (some token) token.literal)).Rereads place := by
  refine ⟨.string (some ⟨.string, token.literal, place⟩) token.literal, ⟨rfl, rfl⟩, ?_⟩
  exact resumes_of_opening fun next _ => .string rfl

theorem rereads_bool {token : Option Token} {value : Bool} :
    (Form.expression (.bool token value)).Rereads place := by
  cases value with
  | true =>
      refine ⟨.bool (some ⟨.trueWord, "true", place⟩) true, ⟨rfl, rfl⟩, ?_⟩
      exact resumes_of_opening fun next _ => .boolean (Or.inl rfl)
  | false =>
      refine ⟨.bool (some ⟨.falseWord, "false", place⟩) false, ⟨rfl, rfl⟩, ?_⟩
      exact resumes_of_opening fun next _ => .boolean (Or.inr rfl)

/-- An expression that is rendered in parentheses. -/
theorem resumes_of_grouped {node echo : Node} {marks : List Mark}
    (hmarks : node.marks = .word .lparen "(" :: marks ++ [.word .rparen ")"])
    (h : ∀ closer : Token, closer.kind = .rparen → Derives (.expression Power.lowest echo)
      (lay (place.after (Mark.word .lparen "(").text) marks) closer) :
    Resumes place node echo := by
  have hopening : ∀ next : Token, next.kind ≠ .elseWord →
      Derives (.opening .grouped echo) (lay place node.marks) next := by
    intro next _
    rw [hmarks, lay_append, lay]
    exact .grouped rfl rfl (h _ rfl)
  exact resumes_of_opening hopening

theorem rereads_prefixOp {token : Token} {right : Node}
    (hkind : token.kind = .minus ∨ token.kind = .bang)
    (hspells : token.kind.Spells token.literal) (hcloses : right.Closes)
    (hright : ∀ place, (Form.expression right).Rereads place) :
    (Form.expression (.prefixOp (some token) token.literal right)).Rereads place := by
  let sign : Token := ⟨token.kind, token.literal, place.after (Mark.word .lparen "(").text⟩
  obtain ⟨echo, hecho, hresumes⟩ :=
    hright (sign.place.after (Mark.word token.kind token.literal).text)
  refine ⟨.prefixOp (some sign) token.literal echo, ⟨?_, ?_⟩, ?_⟩
  · simp [Node.bare, hecho.bare]
  · simp [Node.marks, hecho.marks]
  apply resumes_of_grouped (by rw [Node.marks])
  intro closer hcloser
  have hinert := inert_of_kind closer (by simp [hcloser])
  have hoperand := hresumes.derives_inert hcloses (Int.le_refl _) hinert
  rw [Token.ofSpelling_sign hkind hspells, lay]
  have hopening := Derives.sign (show sign.kind = .minus ∨ sign.kind = .bang from hkind) hoperand
  exact hopening.of_opening fun last _ => hinert.stops _ last

theorem rule_of_isOperator {token : Token} (h : token.IsOperator) :
    ∃ power right, Grammar.standard.infixRule? token.kind = some (.operator power right) ∧
      Power.lowest < power ∧ (InfixRule.operator power right).rightPower ≤ Power.sign ∧
        token.kind ≠ .lparen ∧ token.kind ≠ .lbracket ∧ token.kind ≠ .elseWord := by
  obtain ⟨power, right, hrule⟩ := h
  refine ⟨power, right, hrule, ?_⟩
  cases hkind : token.kind <;> rw [hkind] at hrule <;> cases hrule <;> decide

/-- Two operands and the operator between them. -/
theorem derives_infixOp {operator closer : Token} {place' : Place}
    {left right echo echo' : Node} (hkind : operator.IsOperator) (hinert : closer.Inert)
    (hcloses : left.Closes) (hcloses' : right.Closes) (hleft : Resumes place left echo)
    (hright : Resumes place' right echo') :
    Derives (.expression Power.lowest (.infixOp (some operator) echo operator.literal echo'))
      (lay place left.marks ++ operator :: lay place' right.marks) closer := by
  obtain ⟨power, assoc, hrule, hlow, hhigh, hparen, hbracket, helse⟩ := rule_of_isOperator hkind
  have hoperand := hright.derives_inert hcloses' hhigh hinert
  obtain ⟨init, last, hlay, _, _⟩ := hcloses.exists_last place
  obtain ⟨init', last', hlay', _, _⟩ := hcloses'.exists_last place'
  have hcontinues : last.continues? operator = some (.operator power assoc) := by
    rw [Token.continues?, if_neg (by simp [hparen, hbracket])]
    exact hrule
  rw [hlay'] at hoperand ⊢
  have hextension : Derives (.extension Power.lowest echo
      (.infixOp (some operator) echo operator.literal echo'))
      (last :: operator :: init' ++ [last']) closer :=
    .infixOp hcontinues hlow hoperand (.stop (hinert.stops _ last'))
  have hwhole := hleft init last Power.lowest (operator :: init' ++ [last']) closer _ hlay
    (by decide) helse hextension
  rw [hlay, List.append_assoc]
  exact hwhole

theorem rereads_infixOp {token : Token} {left right : Node} (hkind : token.IsOperator)
    (hspells : token.kind.Spells token.literal) (hcloses : left.Closes)
    (hcloses' : right.Closes) (hleft : ∀ place, (Form.expression left).Rereads place)
    (hright : ∀ place, (Form.expression right).Rereads place) :
    (Form.expression (.infixOp (some token) left token.literal right)).Rereads place := by
  let start := place.after (Mark.word .lparen "(").text
  obtain ⟨echo, hecho, hresumes⟩ := hleft start
  let operator : Token :=
    ⟨token.kind, token.literal, (start.after (textOf left.marks)).next ' '⟩
  obtain ⟨echo', hecho', hresumes'⟩ :=
    hright ((operator.place.after (Mark.word token.kind token.literal).text).next ' ')
  refine ⟨.infixOp (some operator) echo token.literal echo', ⟨?_, ?_⟩, ?_⟩
  · simp [Node.bare, hecho.bare, hecho'.bare]
  · simp [Node.marks, hecho.marks, hecho'.marks]
  have hmarks : (Node.infixOp (some token) left token.literal right).marks =
      .word .lparen "(" ::
        (left.marks ++ .gap ' ' :: .word token.kind token.literal :: .gap ' ' :: right.marks) ++
          [.word .rparen ")"] := by
    rw [Node.marks, hkind.ofSpelling hspells]
    rfl
  apply resumes_of_grouped hmarks
  intro closer hcloser
  have hinert := inert_of_kind closer (by simp [hcloser])
  rw [lay_append]
  exact derives_infixOp (show operator.IsOperator from hkind) hinert hcloses hcloses' hresumes
    hresumes'

theorem Node.Closes.line {callee : Node} {last : Token} {init : List Token} {place : Place}
    (hcloses : callee.Closes) (hlay : lay place callee.marks = init ++ [last])
    (hstring : ∀ token value, callee = .string token value → '\n' ∉ value.toList) :
    last.place.line = (place.after (textOf callee.marks)).line := by
  obtain ⟨init', last', hlay', _, hline⟩ := hcloses.exists_last place
  obtain ⟨_, hlast⟩ := List.append_inj' (hlay.symm.trans hlay') rfl
  obtain rfl : last = last' := by simpa using hlast
  rcases hline with hline | ⟨token, value, heq, hnewline⟩
  · exact hline
  · exact absurd hnewline (hstring token value heq)

/-- The callee of an unbroken call is no string that spans lines, nor is what an index takes. -/
theorem not_newline_of_unbroken {token : Option Token} {callee : Node} {arguments : List Node}
    (h : (Node.call token callee arguments).appliesBrokenString = false) :
    ∀ token value, callee = .string token value → '\n' ∉ value.toList := by
  rintro token value rfl
  simpa [Node.appliesBrokenString] using h

theorem not_newline_of_unbroken_index {token : Option Token} {left position : Node}
    (h : (Node.index token left position).appliesBrokenString = false) :
    ∀ token value, left = .string token value → '\n' ∉ value.toList := by
  rintro token value rfl
  simpa [Node.appliesBrokenString] using h

theorem rereads_call {token : Option Token} {callee : Node} {arguments : List Node}
    (hwhole : (Node.call token callee arguments).appliesBrokenString = false)
    (hcloses : callee.Closes) (hcallee : ∀ place, (Form.expression callee).Rereads place)
    (harguments : ∀ place, (Form.nodes arguments).Rereads place) :
    (Form.expression (.call token callee arguments)).Rereads place := by
  obtain ⟨echo, hecho, hresumes⟩ := hcallee place
  let opener : Token := ⟨.lparen, "(", place.after (textOf callee.marks)⟩
  obtain ⟨echoes, hechoes, hlist⟩ :=
    harguments (opener.place.after (Mark.word .lparen "(").text)
  refine ⟨.call (some opener) echo echoes, ⟨?_, ?_⟩, ?_⟩
  · simp [Node.bare, hecho.bare, hechoes.bareAll]
  · simp [Node.marks, hecho.marks, hechoes.listMarks]
  intro init closer power rest next final hlay hpower helse hextension
  rw [Node.marks, lay_append, lay_append] at hlay
  obtain ⟨hinit, hlast⟩ := List.append_inj' hlay rfl
  have hclose : closer.kind = .rparen := by
    rw [← List.singleton_inj.mp hlast]
  obtain ⟨init', last, hlay', _, _⟩ := hcloses.exists_last place
  have hline : last.place.line = opener.place.line :=
    hcloses.line hlay' (not_newline_of_unbroken hwhole)
  have hrule : last.continues? opener = some .call := continues_of_line hline
  have hread := (hlist closer (rest.headD next) (Or.inl hclose)).2
  rw [hclose] at hread
  have hcall := Derives.call hrule (Int.lt_of_le_of_lt hpower (by decide)) hread hextension
  have hfinal := hresumes init' last power _ next final hlay' hpower (by simp [opener]) hcall
  rw [← hinit, hlay']
  simpa [lay] using hfinal

theorem rereads_index {token : Option Token} {left position : Node}
    (hwhole : (Node.index token left position).appliesBrokenString = false)
    (hcloses : left.Closes) (hcloses' : position.Closes)
    (hleft : ∀ place, (Form.expression left).Rereads place)
    (hposition : ∀ place, (Form.expression position).Rereads place) :
    (Form.expression (.index token left position)).Rereads place := by
  let start := place.after (Mark.word .lparen "(").text
  obtain ⟨echo, hecho, hresumes⟩ := hleft start
  let opener : Token := ⟨.lbracket, "[", start.after (textOf left.marks)⟩
  let inside := opener.place.after (Mark.word .lbracket "[").text
  obtain ⟨echo', hecho', hresumes'⟩ := hposition inside
  let ending : Token := ⟨.rbracket, "]", inside.after (textOf position.marks)⟩
  refine ⟨.index (some opener) echo echo', ⟨?_, ?_⟩, ?_⟩
  · simp [Node.bare, hecho.bare, hecho'.bare]
  · simp [Node.marks, hecho.marks, hecho'.marks]
  have hmarks : (Node.index token left position).marks =
      .word .lparen "(" ::
        (left.marks ++ .word .lbracket "[" :: position.marks ++ [.word .rbracket "]"]) ++
          [.word .rparen ")"] := by
    rw [Node.marks]
    simp
  apply resumes_of_grouped hmarks
  intro closer hcloser
  have hinert := inert_of_kind closer (by simp [hcloser])
  obtain ⟨init, last, hlay, _, _⟩ := hcloses.exists_last start
  have hline : last.place.line = opener.place.line :=
    hcloses.line hlay (not_newline_of_unbroken_index hwhole)
  have hrule : last.continues? opener = some .index := continues_of_line hline
  have hinside : Derives (.expression Power.lowest echo') (lay inside position.marks) ending :=
    hresumes'.derives_inert hcloses' (by decide) (inert_of_kind ending (by simp [ending]))
  have hstop : Derives (.extension Power.lowest (.index (some opener) echo echo')
      (.index (some opener) echo echo')) [ending] closer := .stop (hinert.stops _ _)
  have hindex := Derives.index hrule (by decide) rfl hinside hstop
  have hfinal :=
    hresumes init last Power.lowest _ closer _ hlay (by decide) (by simp [opener]) hindex
  rw [List.append_assoc, lay_append, hlay]
  simpa [lay, lay_append] using hfinal

theorem rereads_array {token : Option Token} {elements : List Node}
    (helements : ∀ place, (Form.nodes elements).Rereads place) :
    (Form.expression (.array token elements)).Rereads place := by
  let inside := place.after (Mark.word .lbracket "[").text
  let closer : Token := ⟨.rbracket, "]", inside.after (textOf (listMarks elements))⟩
  obtain ⟨echoes, hechoes, hlist⟩ := helements inside
  refine ⟨.array (some ⟨.lbracket, "[", place⟩) echoes, ⟨?_, ?_⟩, ?_⟩
  · simp [Node.bare, hechoes.bareAll]
  · simp [Node.marks, hechoes.listMarks]
  have hopening : ∀ next : Token, next.kind ≠ .elseWord →
      Derives (.opening .array (.array (some ⟨.lbracket, "[", place⟩) echoes))
        (lay place (Node.array token elements).marks) next := by
    intro next _
    rw [Node.marks, List.cons_append, lay, lay_append]
    exact .array rfl (hlist closer next (Or.inr rfl)).2
  exact resumes_of_opening hopening

theorem rereads_hash {token : Option Token} {pairs : List (Node × Node)}
    (hpairs : ∀ place, (Form.pairs pairs).Rereads place) :
    (Form.expression (.hash token pairs)).Rereads place := by
  obtain ⟨echoes, hechoes, hlist⟩ := hpairs (place.after (Mark.word .lbrace "\x7b").text)
  refine ⟨.hash (some ⟨.lbrace, "\x7b", place⟩) echoes, ⟨?_, ?_⟩, ?_⟩
  · simp [Node.bare, hechoes.barePairs]
  · simp [Node.marks, hechoes.pairMarks]
  have hopening : ∀ next : Token, next.kind ≠ .elseWord →
      Derives (.opening .hash (.hash (some ⟨.lbrace, "\x7b", place⟩) echoes))
        (lay place (Node.hash token pairs).marks) next := by
    intro next _
    rw [Node.marks, List.cons_append, lay, lay_append]
    exact .hash rfl (hlist _ next rfl)
  exact resumes_of_opening hopening

/-- Parameters are read again. -/
theorem rereads_names (place : Place) {names : List Node}
    (h : ∀ name ∈ names, ∃ token, name = .ident (some token) token.literal ∧
      token.kind = .ident ∧ token.kind.Spells token.literal) :
    ∃ echoes, Echoes names echoes ∧ ∀ closer : Token, closer.kind = .rparen →
      Parameters echoes (lay place (listMarks names) ++ [closer]) := by
  induction names generalizing place with
  | nil => exact ⟨[], .nil, fun closer hclose => .none hclose⟩
  | cons name names ih =>
      obtain ⟨token, rfl, _, _⟩ := h name (by simp)
      let echo : Token := ⟨.ident, token.literal, place⟩
      have hecho : (Node.ident (some token) token.literal).Echo
          (.ident (some echo) token.literal) := ⟨rfl, rfl⟩
      by_cases hnames : names = []
      · subst hnames
        refine ⟨_, .cons hecho .nil, fun closer hclose => ?_⟩
        have hname : echo.kind = .ident := rfl
        exact .last hname hclose
      · let comma : Token :=
          ⟨.comma, ",", place.after (Mark.word .ident token.literal).text⟩
        obtain ⟨echoes, hechoes, hparameters⟩ :=
          ih ((comma.place.after (Mark.word .comma ",").text).next ' ')
            fun name hname => h name (by simp [hname])
        refine ⟨_, .cons hecho hechoes, fun closer hclose => ?_⟩
        rw [listMarks_cons, if_neg hnames]
        have hname : echo.kind = .ident := rfl
        have hcomma : comma.kind = .comma := rfl
        exact .more hname hcomma (mt hechoes.eq_nil_iff.mp hnames) (hparameters closer hclose)

theorem rereads_function {token : Token} {names : List Node} {body : Node}
    (hnames : ∀ name ∈ names, ∃ token, name = .ident (some token) token.literal ∧
      token.kind = .ident ∧ token.kind.Spells token.literal)
    (hbody : ∀ place, (Form.block body).Rereads place) :
    (Form.expression (.function (some token) names body)).Rereads place := by
  let word : Token := ⟨.fnWord, token.literal, place⟩
  let opener : Token := ⟨.lparen, "(", place.after (Mark.word .fnWord token.literal).text⟩
  let inside := opener.place.after (Mark.word .lparen "(").text
  obtain ⟨echoes, hechoes, hparameters⟩ := rereads_names inside hnames
  let closer : Token := ⟨.rparen, ")", inside.after (textOf (listMarks names))⟩
  obtain ⟨echo, hecho, hblock⟩ := hbody ((closer.place.after (Mark.word .rparen ")").text).next ' ')
  refine ⟨.function (some word) echoes echo, ⟨?_, ?_⟩, ?_⟩
  · simp [Node.bare, hechoes.bareAll, hecho.bare]
  · simp [Node.marks, hechoes.listMarks, hecho.marks, word, literalOf]
  have hopening : ∀ next : Token, next.kind ≠ .elseWord →
      Derives (.opening .function (.function (some word) echoes echo))
        (lay place (Node.function (some token) names body).marks) next := by
    intro next _
    have hword : word.kind = .fnWord := rfl
    have hopen : opener.kind = .lparen := rfl
    have hderives := Derives.function hword hopen (hparameters closer rfl) (hblock next)
    simpa [Node.marks, lay, lay_append, literalOf] using hderives
  exact resumes_of_opening hopening

/-! ### Conditionals, lists and statements -/

/-- The tokens of an if up to the end of its consequence. -/
theorem derives_consequence (place : Place) (token : Option Token)
    {condition consequence : Node} (hcloses : condition.Closes) (hcloses' : consequence.Closes)
    (hcondition : ∀ place, (Form.expression condition).Rereads place)
    (hconsequence : ∀ place, (Form.block consequence).Rereads place) :
    ∃ echo echo', condition.Echo echo ∧ consequence.Echo echo' ∧
      ∃ init last, lay place (Node.ifElse token condition consequence .missing).marks =
          init ++ [last] ∧
        ∀ rest next node,
          Derives (.otherwise ⟨.ifWord, "if", place⟩ echo echo' node) (last :: rest) next →
            Derives (.conditional node) (init ++ last :: rest) next := by
  let word : Token := ⟨.ifWord, "if", place⟩
  let opener : Token := ⟨.lparen, "(", (place.after (Mark.word .ifWord "if").text).next ' '⟩
  let inside := opener.place.after (Mark.word .lparen "(").text
  obtain ⟨echo, hecho, hresumes⟩ := hcondition inside
  let closer : Token := ⟨.rparen, ")", inside.after (textOf condition.marks)⟩
  let start := (closer.place.after (Mark.word .rparen ")").text).next ' '
  obtain ⟨echo', hecho', hblock⟩ := hconsequence start
  obtain ⟨body, last, hlay, _, _⟩ := hcloses'.exists_last start
  refine ⟨echo, echo', hecho, hecho',
    word :: opener :: lay inside condition.marks ++ closer :: body, last, ?_, ?_⟩
  · rw [Node.marks]
    simp only [lay, lay_append, List.cons_append, List.append_assoc]
    rw [hlay]
  · intro rest next node hrest
    have hword : word.kind = .ifWord := rfl
    have hopen : opener.kind = .lparen := rfl
    have hclose : closer.kind = .rparen := rfl
    have htest : Derives (.expression Power.lowest echo) (lay inside condition.marks) closer :=
      hresumes.derives_inert hcloses (by decide) (inert_of_kind closer (by simp [closer]))
    have hbody := hblock (rest.headD next)
    rw [hlay] at hbody
    simpa using Derives.ifElse hword hopen hclose htest hbody hrest

theorem rereads_noElse {place : Place} {token : Option Token} {condition consequence : Node}
    (hcloses : condition.Closes) (hcloses' : consequence.Closes)
    (hcondition : ∀ place, (Form.expression condition).Rereads place)
    (hconsequence : ∀ place, (Form.block consequence).Rereads place) :
    (Form.conditional (.ifElse token condition consequence .missing)).Rereads place := by
  obtain ⟨echo, echo', hecho, hecho', init, last, hlay, hderives⟩ :=
    derives_consequence place token hcloses hcloses' hcondition hconsequence
  refine ⟨.ifElse (some ⟨.ifWord, "if", place⟩) echo echo' .missing, ⟨?_, ?_⟩, ?_⟩
  · simp [Node.bare, hecho.bare, hecho'.bare]
  · simp [Node.marks, hecho.marks, hecho'.marks]
  intro next helse
  rw [hlay]
  exact hderives [] next _ (.noElse helse)

/-- An alternative, which is a block or another if. -/
theorem rereads_ifElse {place : Place} {token : Option Token}
    {condition consequence alternative : Node} (hne : alternative ≠ .missing)
    (hcloses : condition.Closes) (hcloses' : consequence.Closes)
    (hcondition : ∀ place, (Form.expression condition).Rereads place)
    (hconsequence : ∀ place, (Form.block consequence).Rereads place)
    (halternative : ∀ place, ∃ echo, alternative.Echo echo ∧ echo ≠ .missing ∧
      ∀ next : Token, next.kind ≠ .elseWord →
        ∀ (token last word : Token) (condition consequence : Node), word.kind = .elseWord →
          Derives (.otherwise token condition consequence
            (.ifElse (some token) condition consequence echo))
            (last :: word :: lay place alternative.marks) next) :
    (Form.conditional (.ifElse token condition consequence alternative)).Rereads place := by
  obtain ⟨echo, echo', hecho, hecho', init, last, hlay, hderives⟩ :=
    derives_consequence place token hcloses hcloses' hcondition hconsequence
  let word : Token := ⟨.elseWord, "else",
    (place.after (textOf (Node.ifElse token condition consequence .missing).marks)).next ' '⟩
  obtain ⟨echo'', hecho'', hne', hrest⟩ :=
    halternative ((word.place.after (Mark.word .elseWord "else").text).next ' ')
  have hecho₀ : (Node.ifElse token condition consequence .missing).marks =
      (Node.ifElse (some ⟨.ifWord, "if", place⟩) echo echo' .missing).marks := by
    simp [Node.marks, hecho.marks, hecho'.marks]
  refine ⟨.ifElse (some ⟨.ifWord, "if", place⟩) echo echo' echo'', ⟨?_, ?_⟩, ?_⟩
  · simp [Node.bare, hecho.bare, hecho'.bare, hecho''.bare]
  · rw [Node.marks_ifElse hne, Node.marks_ifElse hne', hecho₀, hecho''.marks]
  intro next helse
  have hword : word.kind = .elseWord := rfl
  have hwhole := hderives _ next _ (hrest next helse _ last word echo echo' hword)
  rw [Node.marks_ifElse hne, lay_append, hlay]
  simpa [lay] using hwhole

theorem rereads_elseBlock {place : Place} {token : Option Token}
    {condition consequence alternative : Node} (hne : alternative ≠ .missing)
    (hcloses : condition.Closes) (hcloses' : consequence.Closes)
    (hcondition : ∀ place, (Form.expression condition).Rereads place)
    (hconsequence : ∀ place, (Form.block consequence).Rereads place)
    (halternative : ∀ place, (Form.block alternative).Rereads place) :
    (Form.conditional (.ifElse token condition consequence alternative)).Rereads place := by
  apply rereads_ifElse hne hcloses hcloses' hcondition hconsequence
  intro place
  obtain ⟨echo, hecho, hblock⟩ := halternative place
  refine ⟨echo, hecho, ?_, ?_⟩
  · rintro rfl
    cases hblock ⟨.eof, "", place⟩
  · intro next _ _ _ _ _ _ hword
    exact .elseBlock hword (hblock next)

theorem rereads_elseIf {place : Place} {token : Option Token}
    {condition consequence alternative : Node} (hne : alternative ≠ .missing)
    (hcloses : condition.Closes) (hcloses' : consequence.Closes)
    (hcondition : ∀ place, (Form.expression condition).Rereads place)
    (hconsequence : ∀ place, (Form.block consequence).Rereads place)
    (halternative : ∀ place, (Form.conditional alternative).Rereads place) :
    (Form.conditional (.ifElse token condition consequence alternative)).Rereads place := by
  apply rereads_ifElse hne hcloses hcloses' hcondition hconsequence
  intro place
  obtain ⟨echo, hecho, hconditional⟩ := halternative place
  refine ⟨echo, hecho, ?_, ?_⟩
  · rintro rfl
    have hderives := hconditional ⟨.eof, "", place⟩ (by simp)
    exact hderives.conditional_ne_missing rfl
  · intro next helse _ _ _ _ _ hword
    exact .elseIf hword (hconditional next helse)

theorem rereads_nodes {place : Place} {node : Node} {nodes : List Node} (hcloses : node.Closes)
    (hnode : ∀ place, (Form.expression node).Rereads place)
    (hnodes : ∀ place, (Form.nodes nodes).Rereads place) :
    (Form.nodes (node :: nodes)).Rereads place := by
  obtain ⟨echo, hecho, hresumes⟩ := hnode place
  let comma : Token := ⟨.comma, ",", place.after (textOf node.marks)⟩
  obtain ⟨echoes, hechoes, hlist⟩ :=
    hnodes ((comma.place.after (Mark.word .comma ",").text).next ' ')
  refine ⟨echo :: echoes, .cons hecho hechoes, fun closer next hclose => ?_⟩
  have helements : Derives (.elements closer.kind (some (echo :: echoes)))
      (lay place (listMarks (node :: nodes)) ++ [closer]) next := by
    rw [listMarks_cons]
    by_cases hnil : nodes = []
    · have hnone : echoes = [] := hechoes.eq_nil_iff.mpr hnil
      subst hnil hnone
      rw [if_pos rfl, List.append_nil]
      refine .lastElement rfl (hresumes.derives_inert hcloses (by decide) (inert_of_kind _ ?_))
      rcases hclose with hclose | hclose <;> simp [hclose]
    · have hcomma : comma.kind = .comma := rfl
      have hread := hresumes.derives_inert hcloses (show Power.lowest ≤ Power.sign by decide)
        (inert_of_kind comma (by simp [comma]))
      have hwhole := Derives.moreElements hcomma hread ((hlist closer next hclose).1 hnil)
      rw [if_neg hnil, lay_append, List.append_assoc]
      exact hwhole
  exact ⟨fun _ => helements, .list helements⟩

theorem rereads_pairs {place : Place} {key value : Node} {pairs : List (Node × Node)}
    (hcloses : key.Closes) (hcloses' : value.Closes)
    (hkey : ∀ place, (Form.expression key).Rereads place)
    (hvalue : ∀ place, (Form.expression value).Rereads place)
    (hpairs : ∀ place, (Form.pairs pairs).Rereads place) :
    (Form.pairs ((key, value) :: pairs)).Rereads place := by
  obtain ⟨echo, hecho, hresumes⟩ := hkey place
  let colon : Token := ⟨.colon, ":", place.after (textOf key.marks)⟩
  let start := (colon.place.after (Mark.word .colon ":").text).next ' '
  obtain ⟨echo', hecho', hresumes'⟩ := hvalue start
  let comma : Token := ⟨.comma, ",", start.after (textOf value.marks)⟩
  obtain ⟨echoes, hechoes, hlist⟩ :=
    hpairs ((comma.place.after (Mark.word .comma ",").text).next ' ')
  refine ⟨(echo, echo') :: echoes, .cons hecho hecho' hechoes, fun closer next hclose => ?_⟩
  have hcolon : colon.kind = .colon := rfl
  have hlow : Power.lowest ≤ Power.sign := by decide
  have hread := hresumes.derives_inert hcloses hlow (inert_of_kind colon (by simp [colon]))
  rw [pairMarks_cons]
  by_cases hnil : pairs = []
  · have hnone : echoes = [] := hechoes.eq_nil_iff.mpr hnil
    subst hnil hnone
    have hread' := hresumes'.derives_inert hcloses' hlow
      (inert_of_kind closer (by simp [hclose]))
    have hwhole : Derives (.pairs (some [(echo, echo')]))
        (lay place key.marks ++ colon :: lay start value.marks ++ [closer]) next :=
      .lastPair hcolon hclose hread hread'
    simpa [lay, lay_append] using hwhole
  · have hcomma : comma.kind = .comma := rfl
    have hread' := hresumes'.derives_inert hcloses' hlow
      (inert_of_kind comma (by simp [comma]))
    have hwhole := Derives.morePairs hcolon hcomma hread hread' (hlist closer next hclose)
    rw [if_neg hnil]
    simpa [lay, lay_append] using hwhole

theorem rereads_block {place : Place} {token : Option Token} {statements : List Node}
    (hlines : ∀ place, (Form.lines statements).Rereads place) :
    (Form.block (.block token statements)).Rereads place := by
  let opener : Token := ⟨.lbrace, "\x7b", place⟩
  let start := (place.after (Mark.word .lbrace "\x7b").text).next '\n'
  obtain ⟨echoes, hechoes, hbody, _⟩ := hlines start
  refine ⟨.block (some opener) echoes, ⟨?_, ?_⟩, fun next => ?_⟩
  · simp [Node.bare, hechoes.bareAll]
  · simp [Node.marks, hechoes.lineMarks]
  have hopen : opener.kind = .lbrace := rfl
  have hwhole := Derives.block hopen (hbody
    ⟨.rbrace, "\x7d", start.after (textOf (lineMarks statements))⟩ next rfl)
  simpa [Node.marks, lay, lay_append] using hwhole

theorem rereads_letSentence {place : Place} {token name : Token} {value : Node}
    (hcloses : value.Closes) (hvalue : ∀ place, (Form.expression value).Rereads place) :
    (Form.sentence (.letStmt (some token) (.ident (some name) name.literal) value)).Rereads
      place := by
  let word : Token := ⟨.letWord, token.literal, place⟩
  let name' : Token :=
    ⟨.ident, name.literal, (place.after (Mark.word .letWord token.literal).text).next ' '⟩
  let assign : Token :=
    ⟨.assign, "=", (name'.place.after (Mark.word .ident name.literal).text).next ' '⟩
  let start := (assign.place.after (Mark.word .assign "=").text).next ' '
  obtain ⟨echo, hecho, hresumes⟩ := hvalue start
  refine ⟨.letStmt (some word) (.ident (some name') name.literal) echo, ⟨?_, ?_⟩, ?_⟩
  · simp [Node.bare, hecho.bare]
  · simp [Node.marks, hecho.marks, word, literalOf]
  intro next hfollows
  have hlay : lay place (Node.letStmt (some token) (.ident (some name) name.literal) value).marks =
      word :: name' :: assign :: lay start value.marks := by
    simp [Node.marks, lay, literalOf, word, name', assign, start]
  rw [hlay] at hfollows ⊢
  have hword : word.kind = .letWord := rfl
  have hname : name'.kind = .ident := rfl
  have hassign : assign.kind = .assign := rfl
  have hread := hresumes.derives hcloses (show Power.lowest ≤ Power.sign by decide)
    hfollows.no_else fun last hlast => hfollows.stops (by simp [hlast]) _
  exact .bare (fun _ => hfollows.no_semicolon) (.letSentence hword hname hassign hread)

theorem rereads_returnSentence {place : Place} {token : Token} {value : Node}
    (hcloses : value.Closes) (hvalue : ∀ place, (Form.expression value).Rereads place) :
    (Form.sentence (.returnStmt (some token) value)).Rereads place := by
  let word : Token := ⟨.returnWord, token.literal, place⟩
  let start := (place.after (Mark.word .returnWord token.literal).text).next ' '
  obtain ⟨echo, hecho, hresumes⟩ := hvalue start
  refine ⟨.returnStmt (some word) echo, ⟨?_, ?_⟩, ?_⟩
  · simp [Node.bare, hecho.bare]
  · simp [Node.marks, hecho.marks, word, literalOf]
  intro next hfollows
  have hlay : lay place (Node.returnStmt (some token) value).marks =
      word :: lay start value.marks := by
    simp [Node.marks, lay, literalOf, word, start]
  rw [hlay] at hfollows ⊢
  have hword : word.kind = .returnWord := rfl
  have hread := hresumes.derives hcloses (show Power.lowest ≤ Power.sign by decide)
    hfollows.no_else fun last hlast => hfollows.stops (by simp [hlast]) _
  exact .bare (fun _ => hfollows.no_semicolon) (.returnSentence hword hread)

theorem rereads_exprSentence {place : Place} {token : Option Token} {value : Node}
    (hne : value ≠ .missing) (hopens : value.Opens) (hcloses : value.Closes)
    (hvalue : ∀ place, (Form.expression value).Rereads place) :
    (Form.sentence (.exprStmt token value)).Rereads place := by
  obtain ⟨echo, hecho, hresumes⟩ := hvalue place
  obtain ⟨kind, literal, rest, hmarks, _⟩ := hopens
  let first : Token := ⟨kind, literal, place⟩
  have hne' : echo ≠ .missing := by
    rintro rfl
    have hbare := hecho.bare
    cases value <;> simp [Node.bare] at hbare hne
  refine ⟨.exprStmt (some first) echo, ⟨?_, ?_⟩, ?_⟩
  · simp [Node.bare, hecho.bare]
  · rw [Node.marks_exprStmt hne, Node.marks_exprStmt hne', hecho.marks]
  intro next hfollows
  rw [Node.marks_exprStmt hne] at hfollows ⊢
  have hread := hresumes.derives hcloses (show Power.lowest ≤ Power.sign by decide)
    hfollows.no_else fun last hlast => hfollows.stops hlast _
  refine .bare (fun _ => hfollows.no_semicolon) ?_
  rw [hmarks, lay] at hread ⊢
  exact .exprSentence hread

/-- What is rendered on a line does not go on with what is rendered on the line before. -/
theorem follows_of_line {place : Place} {statements : List Node} {tokens : List Token}
    {closer : Token} (hlegal : Legal (.lines statements))
    (hlines : ∀ token ∈ tokens, token.place.line < place.line)
    (hclose : closer.kind = .rbrace ∨ closer.kind = .eof) :
    ((lay place (lineMarks statements)).headD closer).Follows tokens := by
  cases hlegal with
  | noLines =>
      have hinert := inert_of_kind closer (by rcases hclose with h | h <;> simp [h])
      refine ⟨hinert.2, ?_, Or.inl hinert.1⟩
      rcases hclose with h | h <;> simp [lineMarks, lay, h]
  | @lines statement statements hstatement _ =>
      obtain ⟨kind, literal, rest, hmarks, hkind⟩ := hstatement.opens
      have hhead : (lay place (lineMarks (statement :: statements))).headD closer =
          ⟨kind, literal, place⟩ := by
        rw [lineMarks, hmarks]
        rfl
      rw [hhead]
      have hstarts : kind ≠ .elseWord ∧ kind ≠ .semicolon ∧
          (Grammar.standard.infixRule? kind = none ∨ kind = .lparen ∨ kind = .lbracket) := by
        clear hhead hmarks
        revert kind
        decide
      exact ⟨hstarts.1, hstarts.2.1, hstarts.2.2.imp_right fun hkind => ⟨hkind, hlines⟩⟩

theorem rereads_lines {place : Place} {statement : Node} {statements : List Node}
    (hlegal : Legal (.lines statements))
    (hstatement : ∀ place, (Form.sentence statement).Rereads place)
    (hlines : ∀ place, (Form.lines statements).Rereads place) :
    (Form.lines (statement :: statements)).Rereads place := by
  obtain ⟨echo, hecho, hread⟩ := hstatement place
  let start := (place.after (textOf statement.marks)).next '\n'
  obtain ⟨echoes, hechoes, hbody, hall⟩ := hlines start
  have hbefore : ∀ token ∈ lay place statement.marks, token.place.line < start.line := by
    intro token htoken
    have hle := (line_of_mem_lay htoken).2
    have hlt : (place.after (textOf statement.marks)).line < start.line :=
      Place.line_lt_after _ (List.mem_singleton.mpr rfl)
    omega
  refine ⟨echo :: echoes, .cons hecho hechoes, ?_, ?_⟩
  · intro closer next hclose
    have hfollows := follows_of_line hlegal hbefore (Or.inl hclose)
    have hrest := hbody closer next hclose
    obtain ⟨first, rest, htokens⟩ : ∃ first rest,
        lay start (lineMarks statements) ++ [closer] = first :: rest :=
      List.exists_cons_of_ne_nil (by simp)
    have hhead : (lay start (lineMarks statements)).headD closer = first := by
      cases hlay : lay start (lineMarks statements) with
      | nil =>
          rw [hlay] at htokens
          exact (List.cons.inj htokens).1
      | cons head tail =>
          rw [hlay] at htokens
          exact (List.cons.inj htokens).1
    rw [hhead] at hfollows
    rw [htokens] at hrest
    have hwhole := Derives.body (hread first hfollows) hrest
    rw [lineMarks, lay_append, lay, List.append_assoc, htokens]
    exact hwhole
  · intro next hnext
    have hfollows := follows_of_line hlegal hbefore (Or.inr hnext)
    rw [lineMarks, lay_append, lay]
    exact .cons (hread _ hfollows) (hall next hnext)

end Expressions

/-- Every legal part without a broken string is read again from its rendering. -/
theorem Legal.rereads {form : Form} (h : Legal form) (hwhole : Unbroken form.parts)
    (place : Place) : form.Rereads place := by
  induction h generalizing place with
  | ident _ _ => exact rereads_ident
  | int _ _ hread hmin hmax => exact rereads_int hread hmin hmax
  | string _ _ => exact rereads_string
  | bool => exact rereads_bool
  | prefixOp hkind hspells hright ih =>
      rw [Form.parts, Node.parts, unbroken_cons] at hwhole
      exact rereads_prefixOp hkind hspells hright.closes (ih hwhole.2)
  | infixOp hkind hspells hleft hright ih ih' =>
      rw [Form.parts, Node.parts, unbroken_cons, unbroken_append] at hwhole
      exact rereads_infixOp hkind hspells hleft.closes hright.closes (ih hwhole.2.1)
        (ih' hwhole.2.2)
  | conditional _ ih =>
      obtain ⟨echo, hecho, hread⟩ := ih hwhole place
      exact ⟨echo, hecho, resumes_of_opening fun next helse => .conditional (hread next helse)⟩
  | function _ _ hnames _ ih =>
      rw [Form.parts, Node.parts, unbroken_cons, unbroken_append] at hwhole
      exact rereads_function hnames (ih hwhole.2.2)
  | call hcallee _ ih ih' =>
      rw [Form.parts, Node.parts, unbroken_cons, unbroken_append] at hwhole
      exact rereads_call hwhole.1 hcallee.closes (ih hwhole.2.1) (ih' hwhole.2.2)
  | array _ ih =>
      rw [Form.parts, Node.parts, unbroken_cons] at hwhole
      exact rereads_array (ih hwhole.2)
  | index hleft hposition ih ih' =>
      rw [Form.parts, Node.parts, unbroken_cons, unbroken_append] at hwhole
      exact rereads_index hwhole.1 hleft.closes hposition.closes (ih hwhole.2.1)
        (ih' hwhole.2.2)
  | hash _ ih =>
      rw [Form.parts, Node.parts, unbroken_cons] at hwhole
      exact rereads_hash (ih hwhole.2)
  | noElse hcondition hconsequence ih ih' =>
      rw [Form.parts, Node.parts, unbroken_cons, unbroken_append, unbroken_append] at hwhole
      exact rereads_noElse hcondition.closes hconsequence.closes (ih hwhole.2.1.1)
        (ih' hwhole.2.1.2)
  | elseBlock hcondition hconsequence halternative ih ih' ih'' =>
      rw [Form.parts, Node.parts, unbroken_cons, unbroken_append, unbroken_append] at hwhole
      exact rereads_elseBlock (Legal.ne_missing (Or.inr (Or.inl halternative)))
        hcondition.closes hconsequence.closes (ih hwhole.2.1.1) (ih' hwhole.2.1.2)
        (ih'' hwhole.2.2)
  | elseIf hcondition hconsequence halternative ih ih' ih'' =>
      rw [Form.parts, Node.parts, unbroken_cons, unbroken_append, unbroken_append] at hwhole
      exact rereads_elseIf (Legal.ne_missing (Or.inr (Or.inr halternative)))
        hcondition.closes hconsequence.closes (ih hwhole.2.1.1) (ih' hwhole.2.1.2)
        (ih'' hwhole.2.2)
  | noNodes =>
      refine ⟨[], .nil, fun closer next hclose => ⟨fun hne => absurd rfl hne, ?_⟩⟩
      exact .emptyList rfl
  | nodes hnode _ ih ih' =>
      rw [Form.parts, partsOfAll, unbroken_append] at hwhole
      exact rereads_nodes hnode.closes (ih hwhole.1) (ih' hwhole.2)
  | noPairs => exact ⟨[], .nil, fun closer next hclose => .emptyPairs hclose⟩
  | pairs hkey hvalue _ ih ih' ih'' =>
      rw [Form.parts, partsOfPairs, unbroken_append, unbroken_append] at hwhole
      exact rereads_pairs hkey.closes hvalue.closes (ih hwhole.1.1) (ih' hwhole.1.2)
        (ih'' hwhole.2)
  | block _ ih =>
      rw [Form.parts, Node.parts, unbroken_cons] at hwhole
      exact rereads_block (ih hwhole.2)
  | letSentence _ _ _ _ hvalue ih =>
      rw [Form.parts, Node.parts, unbroken_cons, unbroken_append] at hwhole
      exact rereads_letSentence hvalue.closes (ih hwhole.2.2)
  | returnSentence _ _ hvalue ih =>
      rw [Form.parts, Node.parts, unbroken_cons] at hwhole
      exact rereads_returnSentence hvalue.closes (ih hwhole.2)
  | exprSentence hvalue ih =>
      rw [Form.parts, Node.parts, unbroken_cons] at hwhole
      exact rereads_exprSentence (Legal.ne_missing (Or.inl hvalue)) hvalue.opens hvalue.closes
        (ih hwhole.2)
  | noLines =>
      exact ⟨[], .nil, fun closer next hclose => .emptyBody hclose, fun next _ => .nil⟩
  | lines _ hlines ih ih' =>
      rw [Form.parts, partsOfAll, unbroken_append] at hwhole
      exact rereads_lines hlines (ih hwhole.1) (ih' hwhole.2)

end Monkey
