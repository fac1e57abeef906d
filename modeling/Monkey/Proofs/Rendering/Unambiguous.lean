/-
A rendering has one tree.  Where a bracket is applied to a string literal that spans lines, the
rendering cannot be read again, so the tree is not found by reading the rendering itself but
another text: the one in which the newlines of the literals are escaped.  It has the same marks
around the literals, and it can be read.
-/
import Monkey.Proofs.Rendering.RoundTrip

namespace Monkey

/-! ### Legible marks are determined by their text -/

/-- A token to be starts with a character that is no layout. -/
theorem Mark.Stands.head {kind : Kind} {literal : String} {following : List Char}
    (h : (Mark.word kind literal).Stands following) :
    ∃ c ∈ (Mark.word kind literal).text.head?, isLayout c = false := by
  let cursor : Cursor := ⟨(Mark.word kind literal).text ++ following, 0, .start⟩
  have htakes : cursor.Takes kind literal := Cursor.takes_word h.1 h.2 rfl
  obtain ⟨c, hhead, hlayout, _⟩ := htakes
  exact ⟨c, hhead, hlayout⟩

theorem Mark.Stands.text_ne_nil {mark : Mark} {following : List Char} (h : mark.Stands following) :
    mark.text ≠ [] := by
  cases mark with
  | gap c => exact List.cons_ne_nil c []
  | word kind literal =>
      obtain ⟨c, hhead, _⟩ := h.head
      intro hnil
      rw [hnil] at hhead
      cases hhead

/-- A character between tokens is not the first one of a token. -/
theorem not_gap_of_word {c : Char} {kind : Kind} {literal : String} {following rest : List Char}
    (hlayout : isLayout c = true) (h : (Mark.word kind literal).Stands following) :
    c :: rest ≠ (Mark.word kind literal).text ++ following := by
  obtain ⟨first, hhead, hfirst⟩ := h.head
  obtain ⟨tail, htext⟩ := List.head?_eq_some_iff.mp hhead
  intro heq
  rw [htext, List.cons_append] at heq
  obtain ⟨rfl, _⟩ := List.cons.inj heq
  rw [hlayout] at hfirst
  cases hfirst

/-- Marks that can be read off are determined by their text and the tokens they are read as. -/
theorem marks_eq_of_lay {place : Place} {marks marks' : List Mark} (h : Legible marks [])
    (h' : Legible marks' []) (htext : textOf marks = textOf marks')
    (hlay : lay place marks = lay place marks') : marks = marks' := by
  induction marks generalizing marks' place with
  | nil =>
      cases marks' with
      | nil => rfl
      | cons mark marks' =>
          exact absurd (List.append_eq_nil_iff.mp htext.symm).1 h'.1.text_ne_nil
  | cons mark marks ih =>
      cases marks' with
      | nil => exact absurd (List.append_eq_nil_iff.mp htext).1 h.1.text_ne_nil
      | cons mark' marks' =>
          obtain ⟨hstands, hmarks⟩ := h
          obtain ⟨hstands', hmarks'⟩ := h'
          rw [List.append_nil] at hstands hstands'
          rw [textOf_cons, textOf_cons] at htext
          cases mark with
          | gap c =>
              cases mark' with
              | gap c' =>
                  obtain ⟨rfl, hrest⟩ := List.cons.inj htext
                  rw [ih hmarks hmarks' hrest hlay]
              | word kind literal => exact absurd htext (not_gap_of_word hstands hstands')
          | word kind literal =>
              cases mark' with
              | gap c' => exact absurd htext.symm (not_gap_of_word hstands' hstands)
              | word kind' literal' =>
                  obtain ⟨htoken, hrest⟩ := List.cons.inj hlay
                  obtain ⟨rfl, rfl, _⟩ := Token.mk.inj htoken
                  rw [ih hmarks hmarks' (List.append_cancel_left htext) hrest]

theorem marks_eq_of_textOf {marks marks' : List Mark} (h : Legible marks [])
    (h' : Legible marks' []) (htext : textOf marks = textOf marks') : marks = marks' := by
  let cursor : Cursor := ⟨textOf marks, 0, .start⟩
  have hread : cursor.tokenize =
      ⟨lay .start marks, Place.start.after (textOf marks)⟩ := tokenize_of_legible h rfl
  have hread' : cursor.tokenize =
      ⟨lay .start marks', Place.start.after (textOf marks')⟩ := tokenize_of_legible h' htext
  rw [hread] at hread'
  exact marks_eq_of_lay h h' htext (congrArg TokenStream.tokens hread')

/-! ### Escaping the newlines of literals -/

/-- A character after an underscore, or a newline as a backslash and an n: no two texts have the
same characters escaped. -/
def escapeChars : List Char → List Char
  | [] => []
  | c :: rest => (if c = '\n' then ['\\', 'n'] else ['_', c]) ++ escapeChars rest

theorem escapeChars_inj {text text' : List Char} :
    escapeChars text = escapeChars text' ↔ text = text' := by
  constructor
  · intro h
    induction text generalizing text' with
    | nil =>
        cases text' with
        | nil => rfl
        | cons c rest => by_cases hc : c = '\n' <;> simp [escapeChars, hc] at h
    | cons c rest ih =>
        cases text' with
        | nil => by_cases hc : c = '\n' <;> simp [escapeChars, hc] at h
        | cons c' rest' =>
            by_cases hc : c = '\n' <;> by_cases hc' : c' = '\n' <;>
              simp [escapeChars, hc, hc'] at h
            · rw [hc, hc', ih h]
            · rw [h.1, ih h.2]
  · intro h
    rw [h]

/-- Escaping leaves no newline, and adds no quote. -/
theorem mem_escapeChars {c : Char} {text : List Char} (h : c ∈ escapeChars text) :
    c ≠ '\n' ∧ (c = '\\' ∨ c = 'n' ∨ c = '_' ∨ c ∈ text) := by
  induction text with
  | nil => cases h
  | cons first rest ih =>
      rw [escapeChars, List.mem_append] at h
      rcases h with h | h
      · by_cases hfirst : first = '\n'
        · rw [if_pos hfirst] at h
          have hcases : c = '\\' ∨ c = 'n' := by simpa using h
          rcases hcases with rfl | rfl <;> simp
        · rw [if_neg hfirst] at h
          have hcases : c = '_' ∨ c = first := by simpa using h
          rcases hcases with rfl | rfl
          · simp
          · simp [hfirst]
      · obtain ⟨hne, hcases⟩ := ih h
        exact ⟨hne, by grind⟩

def escape (literal : String) : String :=
  String.ofList (escapeChars literal.toList)

theorem escape_inj {literal literal' : String} :
    escape literal = escape literal' ↔ literal = literal' := by
  rw [escape, escape, String.ofList_inj, escapeChars_inj, String.toList_inj]

theorem escape_beq (literal literal' : String) :
    (escape literal == escape literal') = (literal == literal') := by
  rw [Bool.eq_iff_iff, beq_iff_eq, beq_iff_eq, escape_inj]

theorem not_newline_of_escape (literal : String) : '\n' ∉ (escape literal).toList := by
  rw [escape, String.toList_ofList]
  intro h
  exact (mem_escapeChars h).1 rfl

theorem not_quote_of_escape {literal : String} (h : '"' ∉ literal.toList) :
    '"' ∉ (escape literal).toList := by
  rw [escape, String.toList_ofList]
  intro hquote
  obtain ⟨_, hcases⟩ := mem_escapeChars hquote
  simp [h] at hcases

/-- A string to be, escaped; other marks stay. -/
def Mark.escaped : Mark → Mark
  | .word .string literal => .word .string (escape literal)
  | mark => mark

@[simp] theorem Mark.escaped_gap (c : Char) : (Mark.gap c).escaped = .gap c := rfl

@[simp] theorem Mark.escaped_word {kind : Kind} (h : kind ≠ .string) (literal : String) :
    (Mark.word kind literal).escaped = .word kind literal := by
  cases kind <;> first | rfl | exact absurd rfl h

def Token.escaped (token : Token) : Token :=
  { token with literal := escape token.literal }

mutual

/-- The tree with its string literals escaped. -/
def Node.escaped : Node → Node
  | .string token value => .string (token.map Token.escaped) (escape value)
  | .program statements => .program (escapedAll statements)
  | .exprStmt token expression => .exprStmt token expression.escaped
  | .letStmt token name value => .letStmt token name.escaped value.escaped
  | .returnStmt token value => .returnStmt token value.escaped
  | .block token statements => .block token (escapedAll statements)
  | .prefixOp token operator right => .prefixOp token operator right.escaped
  | .infixOp token left operator right => .infixOp token left.escaped operator right.escaped
  | .ifElse token condition consequence alternative =>
      .ifElse token condition.escaped consequence.escaped alternative.escaped
  | .function token parameters body => .function token (escapedAll parameters) body.escaped
  | .call token callee arguments => .call token callee.escaped (escapedAll arguments)
  | .array token elements => .array token (escapedAll elements)
  | .index token left index => .index token left.escaped index.escaped
  | .hash token pairs => .hash token (escapedPairs pairs)
  | .missing => .missing
  | .text value => .text value
  | .flag value => .flag value
  | .ident token name => .ident token name
  | .int token value => .int token value
  | .bool token value => .bool token value

def escapedAll : List Node → List Node
  | [] => []
  | node :: rest => node.escaped :: escapedAll rest

def escapedPairs : List (Node × Node) → List (Node × Node)
  | [] => []
  | (key, value) :: rest => (key.escaped, value.escaped) :: escapedPairs rest

end

theorem escapedAll_eq (nodes : List Node) : escapedAll nodes = nodes.map Node.escaped := by
  induction nodes with
  | nil => rfl
  | cons node rest ih => rw [escapedAll, ih, List.map_cons]

theorem escapedPairs_eq (pairs : List (Node × Node)) :
    escapedPairs pairs = pairs.map fun (key, value) => (key.escaped, value.escaped) := by
  induction pairs with
  | nil => rfl
  | cons pair rest ih => rw [escapedPairs, ih, List.map_cons]

theorem Node.escaped_eq_missing {node : Node} : node.escaped = .missing ↔ node = .missing := by
  cases node <;> simp [Node.escaped]

mutual

/-- Escaping keeps trees apart. -/
theorem Node.same_escaped :
    ∀ left right : Node, left.escaped.same right.escaped = left.same right
  | .missing, right => by cases right <;> rfl
  | .text _, right => by cases right <;> rfl
  | .flag _, right => by cases right <;> rfl
  | .ident _ _, right => by cases right <;> rfl
  | .int _ _, right => by cases right <;> rfl
  | .bool _ _, right => by cases right <;> rfl
  | .string _ _, right => by cases right <;> simp [Node.escaped, Node.same, escape_beq]
  | .program statements, right => by
      cases right <;> simp [Node.escaped, Node.same, sameAll_escaped statements]
  | .exprStmt _ expression, right => by
      cases right <;> simp [Node.escaped, Node.same, Node.same_escaped expression]
  | .letStmt _ name value, right => by
      cases right <;>
        simp [Node.escaped, Node.same, Node.same_escaped name, Node.same_escaped value]
  | .returnStmt _ value, right => by
      cases right <;> simp [Node.escaped, Node.same, Node.same_escaped value]
  | .block _ statements, right => by
      cases right <;> simp [Node.escaped, Node.same, sameAll_escaped statements]
  | .prefixOp _ _ operand, right => by
      cases right <;> simp [Node.escaped, Node.same, Node.same_escaped operand]
  | .infixOp _ first _ second, right => by
      cases right <;>
        simp [Node.escaped, Node.same, Node.same_escaped first, Node.same_escaped second]
  | .ifElse _ condition consequence alternative, right => by
      cases right <;>
        simp [Node.escaped, Node.same, Node.same_escaped condition,
          Node.same_escaped consequence, Node.same_escaped alternative]
  | .function _ parameters body, right => by
      cases right <;>
        simp [Node.escaped, Node.same, sameAll_escaped parameters, Node.same_escaped body]
  | .call _ callee arguments, right => by
      cases right <;>
        simp [Node.escaped, Node.same, Node.same_escaped callee, sameAll_escaped arguments]
  | .array _ elements, right => by
      cases right <;> simp [Node.escaped, Node.same, sameAll_escaped elements]
  | .index _ first second, right => by
      cases right <;>
        simp [Node.escaped, Node.same, Node.same_escaped first, Node.same_escaped second]
  | .hash _ pairs, right => by
      cases right <;> simp [Node.escaped, Node.same, samePairs_escaped pairs]

theorem sameAll_escaped :
    ∀ left right : List Node, sameAll (escapedAll left) (escapedAll right) = sameAll left right
  | [], [] | [], _ :: _ | _ :: _, [] => by simp [escapedAll, sameAll]
  | node :: rest, node' :: rest' => by
      simp [escapedAll, sameAll, Node.same_escaped node, sameAll_escaped rest]

theorem samePairs_escaped :
    ∀ left right : List (Node × Node),
      samePairs (escapedPairs left) (escapedPairs right) = samePairs left right
  | [], [] | [], (_, _) :: _ | (_, _) :: _, [] => by simp [escapedPairs, samePairs]
  | (key, value) :: rest, (key', value') :: rest' => by
      simp [escapedPairs, samePairs, Node.same_escaped key, Node.same_escaped value,
        samePairs_escaped rest]

end

mutual

/-- The rendering of the escaped tree has the same marks around the literals. -/
theorem Node.marks_escaped : ∀ node : Node, node.escaped.marks = node.marks.map Mark.escaped
  | .missing | .text _ | .ident _ _ | .int _ _ | .string _ _ | .flag _ => rfl
  | .bool _ value => by cases value <;> rfl
  | .program statements => lineMarks_escaped statements
  | .exprStmt _ expression => by
      by_cases h : expression = .missing
      · subst h
        rfl
      · rw [Node.escaped, Node.marks_exprStmt h,
          Node.marks_exprStmt fun hmissing => h (Node.escaped_eq_missing.mp hmissing),
          Node.marks_escaped expression]
  | .letStmt _ name value => by
      simp [Node.escaped, Node.marks, Node.marks_escaped name,
        Node.marks_escaped value]
  | .returnStmt _ value => by
      simp [Node.escaped, Node.marks, Node.marks_escaped value]
  | .block _ statements => by
      simp [Node.escaped, Node.marks, lineMarks_escaped statements]
  | .prefixOp _ operator right => by
      simp [Node.escaped, Node.marks, Kind.ofSpelling_ne_string operator, Node.marks_escaped right]
  | .infixOp _ left operator right => by
      simp [Node.escaped, Node.marks, Kind.ofSpelling_ne_string operator, Node.marks_escaped left,
        Node.marks_escaped right]
  | .ifElse token condition consequence alternative => by
      have hfront : (Node.ifElse token condition.escaped consequence.escaped .missing).marks =
          (Node.ifElse token condition consequence .missing).marks.map Mark.escaped := by
        simp [Node.marks, Node.marks_escaped condition,
          Node.marks_escaped consequence]
      by_cases h : alternative = .missing
      · subst h
        exact hfront
      · rw [Node.escaped, Node.marks_ifElse h,
          Node.marks_ifElse fun hmissing => h (Node.escaped_eq_missing.mp hmissing), hfront,
          Node.marks_escaped alternative]
        simp
  | .function _ parameters body => by
      simp [Node.escaped, Node.marks, listMarks_escaped parameters,
        Node.marks_escaped body]
  | .call _ callee arguments => by
      simp [Node.escaped, Node.marks, Node.marks_escaped callee,
        listMarks_escaped arguments]
  | .array _ elements => by
      simp [Node.escaped, Node.marks, listMarks_escaped elements]
  | .index _ left index => by
      simp [Node.escaped, Node.marks, Node.marks_escaped left,
        Node.marks_escaped index]
  | .hash _ pairs => by
      simp [Node.escaped, Node.marks, pairMarks_escaped pairs]

theorem lineMarks_escaped :
    ∀ nodes : List Node, lineMarks (escapedAll nodes) = (lineMarks nodes).map Mark.escaped
  | [] => rfl
  | node :: rest => by
      simp [escapedAll, lineMarks, Node.marks_escaped node, lineMarks_escaped rest]

theorem listMarks_escaped :
    ∀ nodes : List Node, listMarks (escapedAll nodes) = (listMarks nodes).map Mark.escaped
  | [] => rfl
  | [node] => Node.marks_escaped node
  | node :: second :: rest => by
      have hrest := listMarks_escaped (second :: rest)
      rw [escapedAll] at hrest
      simp [escapedAll, listMarks, Node.marks_escaped node, hrest]

theorem pairMarks_escaped :
    ∀ pairs : List (Node × Node),
      pairMarks (escapedPairs pairs) = (pairMarks pairs).map Mark.escaped
  | [] => rfl
  | [(key, value)] => by
      simp [escapedPairs, pairMarks, Node.marks_escaped key,
        Node.marks_escaped value]
  | (key, value) :: (key', value') :: rest => by
      have hrest := pairMarks_escaped ((key', value') :: rest)
      rw [escapedPairs] at hrest
      simp [escapedPairs, pairMarks, Node.marks_escaped key,
        Node.marks_escaped value, hrest]

end

/-! ### The escaped tree can be read again -/

theorem Node.children_escaped (node : Node) :
    node.escaped.children = node.children.map Node.escaped := by
  cases node <;>
    simp [Node.escaped, Node.children, escapedAll_eq, escapedPairs_eq, List.flatMap_map,
      List.map_flatMap]

theorem Node.parts_escaped (node : Node) : node.escaped.parts = node.parts.map Node.escaped := by
  induction hlength : node.parts.length using Nat.strongRecOn generalizing node with
  | _ bound ih =>
      rw [Node.parts_eq, Node.children_escaped, node.parts_eq, List.map_cons, List.flatMap_map,
        List.map_flatMap, List.flatMap_def, List.flatMap_def]
      have hchildren : ∀ child ∈ node.children,
          child.escaped.parts = child.parts.map Node.escaped := by
        intro child hchild
        exact ih _ (hlength ▸ Node.length_parts_lt hchild) child rfl
      rw [List.map_congr_left hchildren]

theorem not_appliesBrokenString_escaped (node : Node) :
    node.escaped.appliesBrokenString = false := by
  have hwhole : ∀ callee : Node, callee.escaped.isBrokenString = false := by
    intro callee
    cases callee <;> try rfl
    simp [Node.escaped, Node.isBrokenString, not_newline_of_escape]
  cases node <;> try rfl
  · rw [Node.escaped, appliesBrokenString_call, hwhole]
  · rw [Node.escaped, appliesBrokenString_index, hwhole]

/-- No bracket in an escaped tree is applied to a string that spans lines. -/
theorem unbroken_escaped (nodes : List Node) : Unbroken (partsOfAll (escapedAll nodes)) := by
  intro part hpart
  rw [partsOfAll_eq, escapedAll_eq, List.flatMap_map] at hpart
  obtain ⟨node, _, hpart⟩ := List.mem_flatMap.mp hpart
  rw [Node.parts_escaped] at hpart
  obtain ⟨original, _, rfl⟩ := List.mem_map.mp hpart
  exact not_appliesBrokenString_escaped original

def Form.escaped : Form → Form
  | .expression node => .expression node.escaped
  | .conditional node => .conditional node.escaped
  | .block node => .block node.escaped
  | .nodes list => .nodes (escapedAll list)
  | .pairs list => .pairs (escapedPairs list)
  | .sentence node => .sentence node.escaped
  | .lines list => .lines (escapedAll list)

/-- Names have nothing to escape. -/
theorem escapedAll_names {names : List Node}
    (h : ∀ name ∈ names, ∃ token, name = .ident (some token) token.literal ∧
      token.kind = .ident ∧ token.kind.Spells token.literal) : escapedAll names = names := by
  rw [escapedAll_eq]
  refine (List.map_congr_left ?_).trans (List.map_id names)
  intro name hmem
  obtain ⟨token, rfl, _⟩ := h name hmem
  rfl

theorem Legal.escaped {form : Form} (h : Legal form) : Legal form.escaped := by
  induction h with
  | ident hkind hspells => exact .ident hkind hspells
  | int hkind hspells hread hmin hmax => exact .int hkind hspells hread hmin hmax
  | @string token hkind hspells =>
      have hspells' : token.escaped.kind.Spells token.escaped.literal := by
        rw [hkind] at hspells
        rw [Token.escaped, hkind]
        exact not_quote_of_escape hspells
      exact @Legal.string token.escaped hkind hspells'
  | bool => exact .bool
  | prefixOp hkind hspells _ ih => exact .prefixOp hkind hspells ih
  | infixOp hkind hspells _ _ ih ih' => exact .infixOp hkind hspells ih ih'
  | conditional _ ih => exact .conditional ih
  | function hkind hspells hnames _ ih =>
      rw [Form.escaped, Node.escaped, escapedAll_names hnames]
      exact .function hkind hspells hnames ih
  | call _ _ ih ih' => exact .call ih ih'
  | array _ ih => exact .array ih
  | index _ _ ih ih' => exact .index ih ih'
  | hash _ ih => exact .hash ih
  | noElse _ _ ih ih' => exact .noElse ih ih'
  | elseBlock _ _ _ ih ih' ih'' => exact .elseBlock ih ih' ih''
  | elseIf _ _ _ ih ih' ih'' => exact .elseIf ih ih' ih''
  | noNodes => exact .noNodes
  | nodes _ _ ih ih' => exact .nodes ih ih'
  | noPairs => exact .noPairs
  | pairs _ _ _ ih ih' ih'' => exact .pairs ih ih' ih''
  | block _ ih => exact .block ih
  | letSentence hkind hspells hname hspells' _ ih =>
      exact .letSentence hkind hspells hname hspells' ih
  | returnSentence hkind hspells _ ih => exact .returnSentence hkind hspells ih
  | exprSentence _ ih => exact .exprSentence ih
  | noLines => exact .noLines
  | lines _ _ ih ih' => exact .lines ih ih'

/-- The escaped program is the one program that its rendering parses to. -/
theorem Legal.roundTrips_escaped {statements : List Node} (h : Legal (.lines statements)) :
    (Node.program (escapedAll statements)).RoundTrips :=
  h.escaped.roundTrips (unbroken_escaped statements)

/-- The marks of a program are determined by its rendering. -/
theorem Legal.lineMarks_eq {statements statements' : List Node} (h : Legal (.lines statements))
    (h' : Legal (.lines statements'))
    (hrender : (Node.program statements).render = (Node.program statements').render) :
    lineMarks statements = lineMarks statements' := by
  have htext : textOf (lineMarks statements) = textOf (lineMarks statements') := by
    have hchars := congrArg String.toList hrender
    rwa [Node.toList_render, Node.toList_render] at hchars
  exact marks_eq_of_textOf (h.legible apart_nil) (h'.legible apart_nil) htext

/-- Two programs that parse without errors and are rendered alike are the same program. -/
theorem Parses.same_of_render_eq {source source' : String} {program program' : Node}
    (h : Parses source program) (h' : Parses source' program')
    (hrender : program.render = program'.render) : program.same program' = true := by
  obtain ⟨statements, rfl, hlegal⟩ := h.legal
  obtain ⟨statements', rfl, hlegal'⟩ := h'.legal
  have hescaped : (Node.program (escapedAll statements)).render =
      (Node.program (escapedAll statements')).render := by
    apply Node.render_eq_of_marks
    rw [Node.marks, Node.marks, lineMarks_escaped, lineMarks_escaped,
      hlegal.lineMarks_eq hlegal' hrender]
  -- The rendering they share once escaped has one parse, which is the same as both.
  obtain ⟨again, hagain, hsame, _⟩ := hlegal.roundTrips_escaped
  obtain ⟨again', hagain', hsame', _⟩ := hlegal'.roundTrips_escaped
  rw [hescaped] at hagain
  obtain rfl := hagain.unique hagain'
  have hboth : (Node.program (escapedAll statements)).same
      (.program (escapedAll statements')) = true := by
    rw [Node.same_iff_bare] at hsame hsame' ⊢
    rw [hsame, hsame']
  rw [← Node.same_escaped]
  exact hboth

/-- Grouping leaves no trace, in a tree or in its rendering. -/
theorem same_of_render_eq_brokenCall : ∃ program program',
    Parses "(\"a\nb\")(x)" program ∧ Parses "(((\"a\nb\"))((x)));" program' ∧
      program.render = program'.render ∧ program.same program' = true := by
  obtain ⟨program, hparses, hrender⟩ : ∃ program, Parses "(\"a\nb\")(x)" program ∧
      (program.render == "\"a\nb\"(x)\n") = true :=
    exists_parses (by decide +kernel) (by decide +kernel)
  obtain ⟨program', hparses', hrender'⟩ : ∃ program, Parses "(((\"a\nb\"))((x)));" program ∧
      (program.render == "\"a\nb\"(x)\n") = true :=
    exists_parses (by decide +kernel) (by decide +kernel)
  have heq : program.render = program'.render := by
    rw [eq_of_beq hrender, eq_of_beq hrender']
  exact ⟨program, program', hparses, hparses', heq, hparses.same_of_render_eq hparses' heq⟩

end Monkey
