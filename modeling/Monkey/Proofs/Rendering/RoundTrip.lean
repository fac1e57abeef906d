/-
The rendering of a program parses to the program again, and renders alike, unless a bracket is
applied in it to a string literal that spans lines.  Where one is, no rereading gives the same
tree: the rendering has a link too few.
-/
import Monkey.Proofs.Rendering.Links
import Monkey.Proofs.Rendering.Rereading

namespace Monkey

/-! ### The links of a rendering -/

theorem not_joins_of_line {last next : Token} (h : last.place.line < next.place.line) :
    last.joins next = false := by
  simp [Token.joins, h]

theorem links_word {kind : Kind} (h : kind ∉ Kind.closers) (literal : String) (place : Place)
    (rest : List Token) : links (⟨kind, literal, place⟩ :: rest) = links rest :=
  links_cons_of_not_closes h rest

theorem links_append_word {kind : Kind} (h : kind ≠ .lparen ∧ kind ≠ .lbracket)
    (tokens : List Token) (literal : String) (place : Place) (rest : List Token) :
    links (tokens ++ ⟨kind, literal, place⟩ :: rest) =
      links tokens + links (⟨kind, literal, place⟩ :: rest) := by
  apply links_append_of_not_opens
  intro next hnext
  obtain rfl := Option.some.inj hnext
  simp [Token.opensBracket, h]

theorem links_cons_word {kind : Kind} (h : kind ≠ .lparen ∧ kind ≠ .lbracket) (last : Token)
    (literal : String) (place : Place) (rest : List Token) :
    links (last :: ⟨kind, literal, place⟩ :: rest) = links (⟨kind, literal, place⟩ :: rest) := by
  rw [← List.singleton_append, links_append_word h]
  exact Nat.zero_add _

theorem links_singleton (token : Token) : links [token] = 0 :=
  rfl

/-- A string literal that spans lines. -/
def Node.isBrokenString : Node → Bool
  | .string _ value => value.toList.contains '\n'
  | _ => false

theorem appliesBrokenString_call (token : Option Token) (callee : Node) (arguments : List Node) :
    (Node.call token callee arguments).appliesBrokenString = callee.isBrokenString := by
  cases callee <;> rfl

theorem appliesBrokenString_index (token : Option Token) (left position : Node) :
    (Node.index token left position).appliesBrokenString = left.isBrokenString := by
  cases left <;> rfl

/-- A pair of brackets after an expression makes one link at most, and none after a broken
string. -/
theorem links_applied_le (callee : Node) (place : Place) {opener closer : Token}
    (hplace : opener.place = place.after (textOf callee.marks))
    (hopener : opener.kind ∉ Kind.closers)
    (hcloser : closer.kind ≠ .lparen ∧ closer.kind ≠ .lbracket) (inside rest : List Token) :
    links (lay place callee.marks ++ opener :: (inside ++ closer :: rest)) +
        (if callee.isBrokenString = true then 1 else 0) ≤
      links (lay place callee.marks) + links inside + links (closer :: rest) + 1 := by
  have hinside : links (opener :: (inside ++ closer :: rest)) =
      links inside + links (closer :: rest) := by
    rw [links_cons_of_not_closes hopener]
    exact links_append_word hcloser inside closer.literal closer.place rest
  have hle := links_append_le (lay place callee.marks) (opener :: (inside ++ closer :: rest))
  by_cases hbroken : callee.isBrokenString = true
  · rw [if_pos hbroken, links_append, hinside]
    · omega
    intro last hlast next hnext
    obtain rfl : opener = next := Option.some.inj hnext
    apply not_joins_of_line
    cases callee with
    | string token value =>
        have hnewline : '\n' ∈ value.toList := by
          simpa [Node.isBrokenString] using hbroken
        obtain rfl := List.mem_singleton.mp hlast
        rw [hplace]
        apply Place.line_lt_after
        simp [Node.marks, Mark.text, hnewline]
    | _ => cases hbroken
  · rw [if_neg hbroken]
    omega

/-- The brackets that a rendering loses are among those that its part applies. -/
def Form.Counted (form : Form) : Prop :=
  ∀ place, links (lay place form.marks) + form.parts.countP Node.appliesBrokenString ≤
    form.parts.countP Node.isApplication

theorem Token.IsOperator.between {token : Token} (h : token.IsOperator) :
    token.kind ∉ Kind.closers ∧ token.kind ≠ .lparen ∧ token.kind ≠ .lbracket := by
  obtain ⟨power, right, hrule⟩ := h
  cases hkind : token.kind <;> rw [hkind] at hrule <;> first | cases hrule; done | decide

theorem Legal.block_marks {body : Node} (h : Legal (.block body)) :
    ∃ rest, body.marks = .word .lbrace "\x7b" :: rest := by
  cases h with
  | block _ => exact ⟨_, by rw [Node.marks, List.cons_append]⟩

section Counted

theorem counted_prefixOp {token : Token} {right : Node}
    (hkind : token.kind = .minus ∨ token.kind = .bang)
    (hspells : token.kind.Spells token.literal) (hright : (Form.expression right).Counted) :
    (Form.expression (.prefixOp (some token) token.literal right)).Counted := by
  have hsign : token.kind ∉ Kind.closers := by
    rcases hkind with hkind | hkind <;> rw [hkind] <;> decide
  intro place
  have hlinks := links_word hsign token.literal
  simp (disch := decide) only [Form.marks, Node.marks, Token.ofSpelling_sign hkind hspells,
    lay_append, lay, List.cons_append, links_word, hlinks, links_append_word, links_singleton]
  simp only [Form.Counted, Form.marks, Form.parts, Node.parts] at hright ⊢
  simp only [List.countP_cons, Node.appliesBrokenString, Node.isApplication]
  grind

theorem counted_infixOp {token : Token} {left right : Node} (hkind : token.IsOperator)
    (hspells : token.kind.Spells token.literal) (hleft : (Form.expression left).Counted)
    (hright : (Form.expression right).Counted) :
    (Form.expression (.infixOp (some token) left token.literal right)).Counted := by
  obtain ⟨hcloses, hopens⟩ := hkind.between
  intro place
  have hword := links_word hcloses token.literal
  have happend := fun tokens => links_append_word hopens tokens token.literal
  simp (disch := decide) only [Form.marks, Node.marks, hkind.ofSpelling hspells,
    lay_append, lay, List.cons_append, List.append_assoc, links_word, hword, happend,
    links_append_word, links_singleton]
  simp only [Form.Counted, Form.marks, Form.parts, Node.parts] at hleft hright ⊢
  simp only [List.countP_cons, List.countP_append, Node.appliesBrokenString, Node.isApplication]
  grind

theorem counted_names {names : List Node}
    (h : ∀ name ∈ names, ∃ token, name = .ident (some token) token.literal ∧
      token.kind = .ident ∧ token.kind.Spells token.literal) : (Form.nodes names).Counted := by
  induction names with
  | nil => exact fun _ => Nat.le_refl _
  | cons name names ih =>
      obtain ⟨token, rfl, _⟩ := h name (by simp)
      have hnames := ih fun name hname => h name (by simp [hname])
      intro place
      rw [Form.marks, listMarks_cons]
      split
      · rename_i hnil
        subst hnil
        exact Nat.le_refl _
      · simp (disch := decide) only [Node.marks, lay, List.cons_append, List.nil_append,
          links_word, links_cons_word]
        simp only [Form.Counted, Form.marks, Form.parts, partsOfAll, Node.parts] at hnames ⊢
        simp only [List.countP_cons, List.countP_append, Node.appliesBrokenString,
          Node.isApplication]
        grind

theorem counted_function {token : Token} {names : List Node} {body : Node}
    (hblock : Legal (.block body)) (hnames : (Form.nodes names).Counted)
    (hbody : (Form.block body).Counted) :
    (Form.expression (.function (some token) names body)).Counted := by
  obtain ⟨rest, hrest⟩ := hblock.block_marks
  intro place
  simp (disch := decide) only [Form.marks, Node.marks, hrest, lay_append, lay, List.cons_append,
    links_word, links_cons_word, links_append_word]
  simp (disch := decide) only [Form.Counted, Form.marks, Form.parts, Node.parts, hrest, lay,
    links_word] at hnames hbody ⊢
  simp only [List.countP_cons, List.countP_append, Node.appliesBrokenString, Node.isApplication]
  grind

theorem counted_call {token : Option Token} {callee : Node} {arguments : List Node}
    (hcallee : (Form.expression callee).Counted) (harguments : (Form.nodes arguments).Counted) :
    (Form.expression (.call token callee arguments)).Counted := by
  intro place
  let opener : Token := ⟨.lparen, "(", place.after (textOf callee.marks)⟩
  let inside := opener.place.after (Mark.word .lparen "(").text
  let closer : Token := ⟨.rparen, ")", inside.after (textOf (listMarks arguments))⟩
  have hopener : opener.kind ∉ Kind.closers := show Kind.lparen ∉ Kind.closers by decide
  have hcloser : closer.kind ≠ .lparen ∧ closer.kind ≠ .lbracket := by simp [closer]
  have hle :=
    links_applied_le callee place rfl hopener hcloser (lay inside (listMarks arguments)) []
  have hsingle := links_singleton closer
  have hinside := harguments inside
  have hbefore := hcallee place
  simp only [Form.marks, Node.marks, lay_append, lay, List.cons_append, List.append_assoc]
  simp only [Form.marks, Form.parts, Node.parts] at hinside hbefore ⊢
  simp only [List.countP_cons, List.countP_append, appliesBrokenString_call, Node.isApplication]
  grind

theorem counted_array {token : Option Token} {elements : List Node}
    (helements : (Form.nodes elements).Counted) :
    (Form.expression (.array token elements)).Counted := by
  intro place
  simp (disch := decide) only [Form.marks, Node.marks, lay_append, lay, List.cons_append,
    links_word, links_append_word, links_singleton]
  simp only [Form.Counted, Form.marks, Form.parts, Node.parts] at helements ⊢
  simp only [List.countP_cons, Node.appliesBrokenString, Node.isApplication]
  grind

theorem counted_index {token : Option Token} {left position : Node}
    (hleft : (Form.expression left).Counted) (hposition : (Form.expression position).Counted) :
    (Form.expression (.index token left position)).Counted := by
  intro place
  let start := place.after (Mark.word .lparen "(").text
  let opener : Token := ⟨.lbracket, "[", start.after (textOf left.marks)⟩
  let inside := opener.place.after (Mark.word .lbracket "[").text
  let closer : Token := ⟨.rbracket, "]", inside.after (textOf position.marks)⟩
  have hopener : opener.kind ∉ Kind.closers := show Kind.lbracket ∉ Kind.closers by decide
  have hcloser : closer.kind ≠ .lparen ∧ closer.kind ≠ .lbracket := by simp [closer]
  have hle := links_applied_le left start rfl hopener hcloser (lay inside position.marks)
    [⟨.rparen, ")", closer.place.after (Mark.word .rbracket "]").text⟩]
  rw [links_cons_word (by decide), links_singleton] at hle
  have hinside := hposition inside
  have hbefore := hleft start
  simp (disch := decide) only [Form.marks, Node.marks, lay_append, lay, List.cons_append,
    List.append_assoc, links_word]
  simp only [Form.marks, Form.parts, Node.parts] at hinside hbefore ⊢
  simp only [List.countP_cons, List.countP_append, appliesBrokenString_index, Node.isApplication]
  grind

theorem counted_hash {token : Option Token} {pairs : List (Node × Node)}
    (hpairs : (Form.pairs pairs).Counted) : (Form.expression (.hash token pairs)).Counted := by
  intro place
  simp (disch := decide) only [Form.marks, Node.marks, lay_append, lay, List.cons_append,
    links_word, links_append_word, links_singleton]
  simp only [Form.Counted, Form.marks, Form.parts, Node.parts] at hpairs ⊢
  simp only [List.countP_cons, Node.appliesBrokenString, Node.isApplication]
  grind

theorem counted_noElse {token : Option Token} {condition consequence : Node}
    (hblock : Legal (.block consequence)) (hcondition : (Form.expression condition).Counted)
    (hconsequence : (Form.block consequence).Counted) :
    (Form.conditional (.ifElse token condition consequence .missing)).Counted := by
  obtain ⟨rest, hrest⟩ := hblock.block_marks
  intro place
  simp (disch := decide) only [Form.marks, Node.marks, hrest, lay_append, lay, List.cons_append,
    links_word, links_cons_word, links_append_word]
  simp (disch := decide) only [Form.Counted, Form.marks, Form.parts, Node.parts, hrest, lay,
    links_word] at hcondition hconsequence ⊢
  simp only [List.countP_cons, List.countP_append, Node.appliesBrokenString, Node.isApplication]
  grind

theorem counted_ifElse {token : Option Token} {condition consequence alternative : Node}
    (hne : alternative ≠ .missing) (hblock : Legal (.block consequence))
    (hcondition : (Form.expression condition).Counted)
    (hconsequence : (Form.block consequence).Counted)
    (halternative : (Form.expression alternative).Counted) :
    (Form.conditional (.ifElse token condition consequence alternative)).Counted := by
  have hfront : (Form.conditional (.ifElse token condition consequence .missing)).Counted :=
    counted_noElse hblock hcondition hconsequence
  intro place
  simp (disch := decide) only [Form.marks, Node.marks_ifElse hne, lay_append, lay, links_word,
    links_append_word]
  simp only [Form.Counted, Form.marks, Form.parts, Node.parts] at hfront halternative ⊢
  simp only [List.countP_cons, List.countP_append, Node.appliesBrokenString,
    Node.isApplication] at hfront ⊢
  grind

theorem counted_nodes {node : Node} {nodes : List Node} (hnode : (Form.expression node).Counted)
    (hnodes : (Form.nodes nodes).Counted) : (Form.nodes (node :: nodes)).Counted := by
  intro place
  rw [Form.marks, listMarks_cons]
  simp only [Form.Counted, Form.marks, Form.parts, partsOfAll] at hnode hnodes ⊢
  split
  · rename_i hnil
    subst hnil
    simpa [partsOfAll] using hnode place
  · simp (disch := decide) only [lay_append, lay, links_word, links_append_word,
      List.countP_append]
    grind

theorem counted_pairs {key value : Node} {pairs : List (Node × Node)}
    (hkey : (Form.expression key).Counted) (hvalue : (Form.expression value).Counted)
    (hpairs : (Form.pairs pairs).Counted) : (Form.pairs ((key, value) :: pairs)).Counted := by
  intro place
  rw [Form.marks, pairMarks_cons]
  simp only [Form.Counted, Form.marks, Form.parts, partsOfPairs] at hkey hvalue hpairs ⊢
  split
  · rename_i hnil
    subst hnil
    simp (disch := decide) only [lay_append, lay, List.append_nil, links_word,
      links_append_word, List.countP_append, partsOfPairs]
    grind
  · simp (disch := decide) only [lay_append, lay, List.append_assoc, List.cons_append,
      links_word, links_append_word, List.countP_append]
    grind

theorem counted_block {token : Option Token} {statements : List Node}
    (hlines : (Form.lines statements).Counted) :
    (Form.block (.block token statements)).Counted := by
  intro place
  simp (disch := decide) only [Form.marks, Node.marks, lay_append, lay, List.cons_append,
    links_word, links_append_word, links_singleton]
  simp only [Form.Counted, Form.marks, Form.parts, Node.parts] at hlines ⊢
  simp only [List.countP_cons, Node.appliesBrokenString, Node.isApplication]
  grind

theorem counted_letSentence {token name : Token} {value : Node}
    (hvalue : (Form.expression value).Counted) :
    (Form.sentence (.letStmt (some token) (.ident (some name) name.literal) value)).Counted := by
  intro place
  simp (disch := decide) only [Form.marks, Node.marks, lay, List.cons_append,
    List.nil_append, links_word, links_cons_word]
  simp only [Form.Counted, Form.marks, Form.parts, Node.parts] at hvalue ⊢
  simp only [List.countP_cons, List.countP_append, Node.appliesBrokenString, Node.isApplication]
  grind

theorem counted_returnSentence {token : Token} {value : Node}
    (hvalue : (Form.expression value).Counted) :
    (Form.sentence (.returnStmt (some token) value)).Counted := by
  intro place
  simp (disch := decide) only [Form.marks, Node.marks, lay, links_word]
  simp only [Form.Counted, Form.marks, Form.parts, Node.parts] at hvalue ⊢
  simp only [List.countP_cons, Node.appliesBrokenString, Node.isApplication]
  grind

theorem counted_exprSentence {token : Option Token} {value : Node} (hne : value ≠ .missing)
    (hvalue : (Form.expression value).Counted) :
    (Form.sentence (.exprStmt token value)).Counted := by
  intro place
  rw [Form.marks, Node.marks_exprStmt hne]
  simp only [Form.Counted, Form.marks, Form.parts, Node.parts] at hvalue ⊢
  simp only [List.countP_cons, Node.appliesBrokenString, Node.isApplication]
  grind

/-- Statements stand on lines of their own. -/
theorem counted_lines {statement : Node} {statements : List Node}
    (hstatement : (Form.sentence statement).Counted) (hlines : (Form.lines statements).Counted) :
    (Form.lines (statement :: statements)).Counted := by
  intro place
  rw [Form.marks, lineMarks, lay_append, lay, links_append]
  · simp only [Form.Counted, Form.marks, Form.parts, partsOfAll] at hstatement hlines ⊢
    simp only [List.countP_append]
    grind
  · intro last hlast next hnext
    apply not_joins_of_line
    have hlow := (line_of_mem_lay hlast).2
    have hhigh := (line_of_mem_lay (List.mem_of_mem_head? hnext)).1
    simp only [Place.next, if_true] at hhigh
    omega

end Counted

/-- Every bracket that a legal part applies is a link of its rendering or is lost in it. -/
theorem Legal.counted {form : Form} (h : Legal form) : form.Counted := by
  induction h with
  | ident _ _ => exact fun _ => Nat.le_refl _
  | int _ _ _ _ _ => exact fun _ => Nat.le_refl _
  | string _ _ => exact fun _ => Nat.le_refl _
  | @bool _ value => cases value <;> exact fun _ => Nat.le_refl _
  | prefixOp hkind hspells _ ih => exact counted_prefixOp hkind hspells ih
  | infixOp hkind hspells _ _ ih ih' => exact counted_infixOp hkind hspells ih ih'
  | conditional _ ih => exact ih
  | function _ _ hnames hbody ih => exact counted_function hbody (counted_names hnames) ih
  | call _ _ ih ih' => exact counted_call ih ih'
  | array _ ih => exact counted_array ih
  | index _ _ ih ih' => exact counted_index ih ih'
  | hash _ ih => exact counted_hash ih
  | noElse _ hconsequence ih ih' => exact counted_noElse hconsequence ih ih'
  | elseBlock _ hconsequence halternative ih ih' ih'' =>
      have hpresent := Legal.ne_missing (Or.inr (Or.inl halternative))
      exact counted_ifElse hpresent hconsequence ih ih' ih''
  | elseIf _ hconsequence halternative ih ih' ih'' =>
      have hpresent := Legal.ne_missing (Or.inr (Or.inr halternative))
      exact counted_ifElse hpresent hconsequence ih ih' ih''
  | noNodes => exact fun _ => Nat.le_refl _
  | nodes _ _ ih ih' => exact counted_nodes ih ih'
  | noPairs => exact fun _ => Nat.le_refl _
  | pairs _ _ _ ih ih' ih'' => exact counted_pairs ih ih' ih''
  | block _ ih => exact counted_block ih
  | letSentence _ _ _ _ _ ih => exact counted_letSentence ih
  | returnSentence _ _ _ ih => exact counted_returnSentence ih
  | exprSentence hvalue ih => exact counted_exprSentence (Legal.ne_missing (Or.inl hvalue)) ih
  | noLines => exact fun _ => Nat.le_refl _
  | lines _ _ ih ih' => exact counted_lines ih ih'

/-! ### Programs -/

/-- The rendering parses without errors to the same program, which renders alike. -/
def Node.RoundTrips (program : Node) : Prop :=
  ∃ again, Parses program.render again ∧ program.same again = true ∧
    again.render = program.render

theorem Legal.tokenize_render {statements : List Node} (h : Legal (.lines statements)) :
    (tokenize (Node.program statements).render).tokens = lay .start (lineMarks statements) := by
  have hlegible : Legible (lineMarks statements) [] := h.legible apart_nil
  have hrest : (Cursor.ofText (Node.program statements).render).rest =
      textOf (lineMarks statements) := by
    rw [← Node.marks]
    exact Node.toList_render _
  rw [tokenize, tokenize_of_legible hlegible hrest]
  rfl

theorem Node.render_eq_of_marks {node other : Node} (h : node.marks = other.marks) :
    node.render = other.render := by
  rw [← String.toList_inj, Node.toList_render, Node.toList_render, h]

theorem Legal.roundTrips {statements : List Node} (h : Legal (.lines statements))
    (hwhole : Unbroken (partsOfAll statements)) : (Node.program statements).RoundTrips := by
  obtain ⟨echoes, hechoes, _, hderives⟩ := h.rereads hwhole .start
  refine ⟨.program echoes, ?_, ?_, ?_⟩
  · refine parses_iff.mpr ⟨echoes, rfl, ?_⟩
    rw [h.tokenize_render]
    exact hderives _ rfl
  · rw [Node.same_iff_bare, Node.bare, Node.bare, hechoes.bareAll]
  · apply Node.render_eq_of_marks
    rw [Node.marks, Node.marks, hechoes.lineMarks]

/-- A program that is read again has applied no bracket to a string that spans lines: its
rendering would have fewer links than it has applications. -/
theorem Legal.unbroken_of_roundTrips {statements : List Node} (h : Legal (.lines statements))
    (hround : (Node.program statements).RoundTrips) : Unbroken (partsOfAll statements) := by
  obtain ⟨again, hparses, hsame, _⟩ := hround
  obtain ⟨statements', rfl, hderives⟩ := parses_iff.mp hparses
  have hlinks : applicationsAll statements' ≤ links (lay .start (lineMarks statements)) := by
    rw [← h.tokenize_render]
    exact hderives.linked
  have happlications : applicationsAll statements' = applicationsAll statements := by
    have hbare := (Node.same_iff_bare _ _).mp hsame
    rw [← applications_program, ← applications_program, ← Node.applications_bare, ← hbare,
      Node.applications_bare]
  have hcounted : links (lay .start (lineMarks statements)) +
      (partsOfAll statements).countP Node.appliesBrokenString ≤ applicationsAll statements :=
    h.counted .start
  have hzero : (partsOfAll statements).countP Node.appliesBrokenString = 0 := by omega
  intro part hpart
  exact Bool.eq_false_iff.mpr (List.countP_eq_zero.mp hzero part hpart)

/-- The rendering of a program that parses without errors parses to the program again, exactly if
no bracket in it is applied to a string literal that spans lines. -/
theorem Parses.roundTrips_iff {source : String} {program : Node} (h : Parses source program) :
    program.RoundTrips ↔ Unbroken program.parts := by
  obtain ⟨statements, rfl, hlegal⟩ := h.legal
  rw [Node.parts, unbroken_cons]
  constructor
  · intro hround
    exact ⟨rfl, hlegal.unbroken_of_roundTrips hround⟩
  · intro hwhole
    exact hlegal.roundTrips hwhole.2

/-- A call of a string literal that spans two lines.  The source has the literal in parentheses,
so that the arguments open on the line of the token before them; the rendering leaves them out. -/
def brokenCallMarks : List Mark :=
  [.word .lparen "(", .word .string "a\nb", .word .rparen ")", .word .lparen "(",
   .word .ident "x", .word .rparen ")"]

def brokenCall : Node :=
  .program [.exprStmt (some ⟨.lparen, "(", ⟨1, 1⟩⟩)
    (.call (some ⟨.lparen, "(", ⟨2, 4⟩⟩) (.string (some ⟨.string, "a\nb", ⟨1, 2⟩⟩) "a\nb")
      [.ident (some ⟨.ident, "x", ⟨2, 5⟩⟩) "x"])]

theorem parses_brokenCall : Parses "(\"a\nb\")(x)" brokenCall := by
  have hlegible : Legible brokenCallMarks [] := by decide
  refine parses_iff.mpr ⟨_, rfl, ?_⟩
  rw [tokenize, tokenize_of_legible hlegible rfl]
  let opener : Token := ⟨.lparen, "(", ⟨1, 1⟩⟩
  let literal : Token := ⟨.string, "a\nb", ⟨1, 2⟩⟩
  let closer : Token := ⟨.rparen, ")", ⟨2, 3⟩⟩
  let opener' : Token := ⟨.lparen, "(", ⟨2, 4⟩⟩
  let name : Token := ⟨.ident, "x", ⟨2, 5⟩⟩
  let closer' : Token := ⟨.rparen, ")", ⟨2, 6⟩⟩
  let eof : Token := ⟨.eof, "", ⟨2, 7⟩⟩
  have hstring : Derives (.expression Power.lowest (.string (some literal) "a\nb"))
      [literal] closer :=
    Derives.of_opening (.string rfl) fun last _ => (inert_of_kind closer (by decide)).stops _ last
  have hname : Derives (.expression Power.lowest (.ident (some name) "x")) [name] closer' :=
    Derives.of_opening (.identifier rfl) fun last _ =>
      (inert_of_kind closer' (by decide)).stops _ last
  let call := Node.call (some opener') (.string (some literal) "a\nb") [.ident (some name) "x"]
  have hlist : Derives (.list .rparen (some [.ident (some name) "x"])) ([name] ++ [closer']) eof :=
    .list (.lastElement rfl hname)
  have hend : Derives (.extension Power.lowest call call) [closer'] eof :=
    .stop ((inert_of_kind eof (by decide)).stops _ _)
  have hrest : Derives (.extension Power.lowest (.string (some literal) "a\nb") call)
      (closer :: opener' :: [name] ++ [closer']) eof :=
    .call rfl (by decide) hlist hend
  have hgrouped : Derives (.opening .grouped (.string (some literal) "a\nb"))
      ([opener, literal] ++ [closer]) opener' := .grouped rfl rfl hstring
  have hcall : Derives (.expression Power.lowest call)
      [opener, literal, closer, opener', name, closer'] eof := .expression hgrouped hrest
  have heof : eof.kind ≠ .semicolon := by decide
  exact @DerivesAll.cons eof (some (.exprStmt (some opener) call)) [] _ []
    (.bare (fun _ => heof) (.exprSentence hcall)) .nil

/-- The call is lost in the rendering, where its arguments open on the line below the literal. -/
theorem brokenCall_not_roundTrips :
    ¬ ∀ source program, Parses source program → program.RoundTrips := by
  intro h
  obtain ⟨statements, hprogram, hlegal⟩ := parses_brokenCall.legal
  have hround := h _ _ parses_brokenCall
  rw [hprogram] at hround
  obtain rfl := (Node.program.inj hprogram).symm
  exact absurd (hlegal.unbroken_of_roundTrips hround) (by decide)

theorem brokenCall_roundTrips_iff : Parses "(\"a\nb\")(x)" brokenCall ∧
    (brokenCall.RoundTrips ↔ Unbroken brokenCall.parts) :=
  ⟨parses_brokenCall, parses_brokenCall.roundTrips_iff⟩

end Monkey
