/-
What of its tokens a tree shows.  Its text is made of what the tree says without them, of the words
of let, return and function literals, which are always the same ones, and of the texts of integer
literals, which are shown as they were written.
-/
import Mathlib.Data.List.Forall2
import Monkey.Proofs.Rendering.Legal
import Monkey.Proofs.Rendering.Parts

namespace Monkey

/-! ### Trees with the same form -/

theorem bareAll_eq (nodes : List Node) : bareAll nodes = nodes.map Node.bare := by
  induction nodes with
  | nil => rfl
  | cons node rest ih => rw [bareAll, ih, List.map_cons]

theorem barePairs_eq (pairs : List (Node × Node)) :
    barePairs pairs = pairs.map fun pair => (pair.1.bare, pair.2.bare) := by
  induction pairs with
  | nil => rfl
  | cons pair rest ih => rw [barePairs, ih, List.map_cons]

theorem Node.children_bare (node : Node) : node.bare.children = node.children.map Node.bare := by
  cases node <;> simp [Node.bare, Node.children, bareAll_eq, barePairs_eq, List.flatMap_map,
    List.map_flatMap]

/-- Nodes that belong together one by one. -/
theorem forall₂_bare_iff {nodes nodes' : List Node} :
    List.Forall₂ (fun node node' => node.bare = node'.bare) nodes nodes' ↔
      nodes.map Node.bare = nodes'.map Node.bare := by
  rw [← List.forall₂_eq_eq_eq, List.forall₂_map_left_iff, List.forall₂_map_right_iff]

theorem Node.label_bare (node : Node) : node.bare.label = node.label := by
  cases node with
  | letStmt _ _ value | returnStmt _ value => cases value <;> rfl
  | _ => rfl

theorem label_eq_of_bare {node node' : Node} (h : node.bare = node'.bare) :
    node.label = node'.label := by
  rw [← node.label_bare, h, node'.label_bare]

theorem labels_eq_of_bare {names names' : List Node} (h : bareAll names = bareAll names') :
    names.map Node.label = names'.map Node.label := by
  rw [bareAll_eq, bareAll_eq, ← forall₂_bare_iff] at h
  rw [← List.forall₂_eq_eq_eq, List.forall₂_map_left_iff, List.forall₂_map_right_iff]
  exact h.imp fun _ _ => label_eq_of_bare

/-- The keys and values of pairs, one after the other. -/
theorem forall₂_of_flatMap {α : Type} {r : α → α → Prop} {pairs pairs' : List (α × α)}
    (h : List.Forall₂ r (pairs.flatMap fun (key, value) => [key, value])
      (pairs'.flatMap fun (key, value) => [key, value])) :
    List.Forall₂ (fun pair pair' => r pair.1 pair'.1 ∧ r pair.2 pair'.2) pairs pairs' := by
  induction pairs generalizing pairs' with
  | nil =>
      cases pairs' with
      | nil => exact .nil
      | cons pair' rest' => cases h
  | cons pair rest ih =>
      cases pairs' with
      | nil => cases h
      | cons pair' rest' =>
          obtain _ | ⟨hkey, _ | ⟨hvalue, hrest⟩⟩ := h
          exact .cons ⟨hkey, hvalue⟩ (ih hrest)

theorem forall₂_of_concat {α : Type} {r : α → α → Prop} {items items' : List α} {last last' : α}
    (h : List.Forall₂ r (items ++ [last]) (items' ++ [last'])) :
    List.Forall₂ r items items' ∧ r last last' := by
  rw [← List.forall₂_reverse_iff, List.reverse_concat, List.reverse_concat, List.forall₂_cons,
    List.forall₂_reverse_iff] at h
  exact h.symm

theorem forall₂_mem {α : Type} {r : α → α → Prop} {items items' : List α}
    (h : List.Forall₂ r items items') :
    List.Forall₂ (fun item item' => item ∈ items ∧ item' ∈ items' ∧ r item item') items items' :=
  List.forall₂_iff_zip.mpr ⟨h.length_eq, fun hzip =>
    ⟨(List.of_mem_zip hzip).1, (List.of_mem_zip hzip).2, List.forall₂_zip h hzip⟩⟩

/-! ### What is gathered from a tree -/

/-- What the nodes of a tree have, from left to right. -/
def Node.gather {α : Type} (own : Node → List α) (node : Node) : List α :=
  node.parts.flatMap own

section

variable {α : Type} {own : Node → List α}

theorem Node.gather_eq (node : Node) :
    node.gather own = own node ++ node.children.flatMap (Node.gather own) := by
  rw [Node.gather, Node.parts_eq, List.flatMap_cons, List.flatMap_assoc]
  rfl

theorem gather_length (hown : ∀ {node node' : Node}, node.bare = node'.bare →
    (own node).length = (own node').length) {node node' : Node} (h : node.bare = node'.bare) :
    (node.gather own).length = (node'.gather own).length := by
  have hparts : List.Forall₂ (fun part part' => part.bare = part'.bare) node.parts node'.parts := by
    rw [forall₂_bare_iff, ← node.parts_bare, h, node'.parts_bare]
  simp only [Node.gather, List.length_flatMap]
  congr 1
  rw [← List.forall₂_eq_eq_eq, List.forall₂_map_left_iff, List.forall₂_map_right_iff]
  exact hparts.imp fun _ _ => hown

theorem gather_flatMap_inj (hown : ∀ {node node' : Node}, node.bare = node'.bare →
    (own node).length = (own node').length) {nodes nodes' : List Node}
    (hbare : List.Forall₂ (fun node node' => node.bare = node'.bare) nodes nodes')
    (h : nodes.flatMap (Node.gather own) = nodes'.flatMap (Node.gather own)) :
    List.Forall₂ (fun node node' => node.bare = node'.bare ∧
      node.gather own = node'.gather own) nodes nodes' := by
  induction hbare with
  | nil => exact .nil
  | cons hfirst _ ih =>
      rw [List.flatMap_cons, List.flatMap_cons] at h
      obtain ⟨heq, hrest⟩ := List.append_inj h (gather_length hown hfirst)
      exact .cons ⟨hfirst, heq⟩ (ih hrest)

/-- Where trees of one form have the same, their nodes do one by one. -/
theorem gather_inj (hown : ∀ {node node' : Node}, node.bare = node'.bare →
    (own node).length = (own node').length) {node node' : Node} (hbare : node.bare = node'.bare)
    (h : node.gather own = node'.gather own) :
    own node = own node' ∧ List.Forall₂ (fun child child' => child.bare = child'.bare ∧
      child.gather own = child'.gather own) node.children node'.children := by
  rw [node.gather_eq, node'.gather_eq] at h
  obtain ⟨hself, hrest⟩ := List.append_inj h (hown hbare)
  refine ⟨hself, gather_flatMap_inj hown ?_ hrest⟩
  rw [forall₂_bare_iff, ← node.children_bare, hbare, node'.children_bare]

end

/-! ### Numerals -/

/-- The text of an integer literal. -/
def Node.numeral : Node → List String
  | .int token _ => [literalOf token]
  | _ => []

/-- The texts of the integer literals in a tree. -/
def Node.numerals (node : Node) : List String :=
  node.gather Node.numeral

/-- The texts of the integer literals that a function literal shows. -/
def Node.shownNumerals : Node → List String
  | .function token names body => (Node.function token names body).numerals
  | _ => []

/-- The texts of the integer literals inside of function literals, for each of these literals. -/
def Node.functionNumerals (node : Node) : List String :=
  node.gather Node.shownNumerals

theorem length_numeral {node node' : Node} (h : node.bare = node'.bare) :
    node.numeral.length = node'.numeral.length := by
  cases node <;> cases node' <;> first | rfl | cases h

theorem length_shownNumerals {node node' : Node} (h : node.bare = node'.bare) :
    node.shownNumerals.length = node'.shownNumerals.length := by
  cases node with
  | function token names body =>
      cases node' with
      | function => exact gather_length length_numeral h
      | _ => cases h
  | _ => cases node' <;> first | rfl | cases h

theorem flatMap_eq_of_forall₂ {α : Type} {f : Node → List α} {nodes nodes' : List Node}
    (h : List.Forall₂ (fun node node' => f node = f node') nodes nodes') :
    nodes.flatMap f = nodes'.flatMap f := by
  induction h with
  | nil => rfl
  | cons hfirst _ ih => rw [List.flatMap_cons, List.flatMap_cons, hfirst, ih]

/-- Induction on what is below a node. -/
theorem Node.induction_below {p : Node → Prop}
    (h : ∀ node : Node, (∀ child ∈ node.children, p child) → p node) (node : Node) : p node := by
  induction hlength : node.parts.length using Nat.strongRecOn generalizing node with
  | _ bound ih =>
      exact h node fun child hchild => ih _ (hlength ▸ Node.length_parts_lt hchild) child rfl

/-- Where all integer literals are written alike, those inside of function literals are. -/
theorem functionNumerals_eq {node node' : Node} (hbare : node.bare = node'.bare)
    (h : node.numerals = node'.numerals) : node.functionNumerals = node'.functionNumerals := by
  induction node using Node.induction_below generalizing node' with
  | h node ih =>
      obtain ⟨-, hchildren⟩ := gather_inj length_numeral hbare h
      have hself : node.shownNumerals = node'.shownNumerals := by
        cases node with
        | function =>
            cases node' with
            | function => exact h
            | _ => cases hbare
        | _ => cases node' <;> first | rfl | cases hbare
      have hrest : node.children.flatMap Node.functionNumerals =
          node'.children.flatMap Node.functionNumerals := by
        refine flatMap_eq_of_forall₂ ((forall₂_mem hchildren).imp ?_)
        exact fun child child' ⟨hmem, _, hsame, heq⟩ => ih child hmem hsame heq
      rw [Node.functionNumerals, Node.functionNumerals, Node.gather_eq, Node.gather_eq, hself]
      exact congrArg _ hrest

/-! ### Texts -/

/-- What the text of a node takes from its token. -/
def Node.ink : Node → String
  | .letStmt token _ _ | .returnStmt token _ | .int token _ | .function token _ _ =>
      literalOf token
  | _ => ""

/-- The words of let, return and function literals are the words of the language. -/
def Node.Worded : Node → Prop
  | .letStmt token _ _ => literalOf token = "let"
  | .returnStmt token _ => literalOf token = "return"
  | .function token _ _ => literalOf token = "fn"
  | _ => True

section

variable {nodes nodes' : List Node}

theorem renderLines_congr
    (h : List.Forall₂ (fun node node' => node.render = node'.render) nodes nodes') :
    renderLines nodes = renderLines nodes' := by
  induction h with
  | nil => rfl
  | cons hfirst _ ih => rw [renderLines, renderLines, hfirst, ih]

theorem renderList_congr
    (h : List.Forall₂ (fun node node' => node.render = node'.render) nodes nodes') :
    renderList nodes = renderList nodes' := by
  induction h with
  | nil => rfl
  | cons hfirst hrest ih =>
      cases hrest with
      | nil => exact hfirst
      | cons => exact congrArg₂ (fun first rest => first ++ ", " ++ rest) hfirst ih

theorem renderPairs_congr {pairs pairs' : List (Node × Node)}
    (h : List.Forall₂ (fun pair pair' => pair.1.render = pair'.1.render ∧
      pair.2.render = pair'.2.render) pairs pairs') : renderPairs pairs = renderPairs pairs' := by
  induction h with
  | nil => rfl
  | @cons pair pair' _ _ hfirst hrest ih =>
      have heq : pair.1.render ++ ": " ++ pair.2.render =
          pair'.1.render ++ ": " ++ pair'.2.render := by rw [hfirst.1, hfirst.2]
      cases hrest with
      | nil => exact heq
      | cons => exact congrArg₂ (fun first rest => first ++ ", " ++ rest) heq ih

theorem bare_eq_missing {node : Node} : node.bare = .missing ↔ node = .missing := by
  cases node <;> simp [Node.bare]

theorem eq_missing_iff {node node' : Node} (h : node.bare = node'.bare) :
    node = .missing ↔ node' = .missing := by
  rw [← bare_eq_missing, h, bare_eq_missing]

theorem render_exprStmt {token : Option Token} {expression : Node} (h : expression ≠ .missing) :
    (Node.exprStmt token expression).render = expression.render := by
  cases expression <;> first | rfl | exact absurd rfl h

theorem render_ifElse {token : Option Token} {condition consequence alternative : Node}
    (h : alternative ≠ .missing) : (Node.ifElse token condition consequence alternative).render =
      "if (" ++ condition.render ++ ") " ++ consequence.render ++ " else " ++
        alternative.render := by
  cases alternative <;> first | rfl | exact absurd rfl h

/-- The text of a node is made of what it says without tokens, of what it takes from its own one,
and of the texts of the nodes below it. -/
theorem render_congr {node node' : Node} (hbare : node.bare = node'.bare)
    (hink : node.ink = node'.ink) (hchildren : List.Forall₂ (fun child child' =>
      child.render = child'.render) node.children node'.children) : node.render = node'.render := by
  cases node <;> cases node' <;> try cases hbare
  case exprStmt.exprStmt expression _ expression' =>
      simp only [Node.bare, Node.exprStmt.injEq, true_and] at hbare
      simp only [Node.children, List.forall₂_cons] at hchildren
      by_cases h : expression = .missing
      · rw [h, (eq_missing_iff hbare).mp h, Node.render, Node.render]
      · rw [render_exprStmt h, render_exprStmt fun h' => h ((eq_missing_iff hbare).mpr h'),
          hchildren.1]
  case ifElse.ifElse condition consequence alternative _ condition' consequence' alternative' =>
      simp only [Node.bare, Node.ifElse.injEq, true_and] at hbare
      simp only [Node.children, List.forall₂_cons] at hchildren
      obtain ⟨hcondition, hconsequence, halternative, -⟩ := hchildren
      have hmissing := eq_missing_iff hbare.2.2
      by_cases h : alternative = .missing
      · rw [h, hmissing.mp h, Node.render, Node.render, hcondition, hconsequence]
      · rw [render_ifElse h, render_ifElse fun h' => h (hmissing.mpr h'), hcondition, hconsequence,
          halternative]
  case program.program => exact renderLines_congr hchildren
  case block.block => exact congrArg ("\x7b\n" ++ · ++ "\x7d") (renderLines_congr hchildren)
  case array.array => exact congrArg ("[" ++ · ++ "]") (renderList_congr hchildren)
  case function.function token names body token' names' body' =>
      obtain ⟨hnames, hbody⟩ := forall₂_of_concat hchildren
      have htoken : literalOf token = literalOf token' := hink
      simp only [Node.render, htoken, renderList_congr hnames, hbody]
  case call.call =>
      obtain _ | ⟨hcallee, harguments⟩ := hchildren
      simp only [Node.render, hcallee, renderList_congr harguments]
  case hash.hash =>
      simp only [Node.render, renderPairs_congr (forall₂_of_flatMap hchildren)]
  all_goals simp_all [Node.bare, Node.children, Node.render, Node.ink]

end

theorem ink_eq {node node' : Node} (hbare : node.bare = node'.bare) (hworded : node.Worded)
    (hworded' : node'.Worded) (hnumeral : node.numeral = node'.numeral) : node.ink = node'.ink := by
  cases node <;> cases node' <;> try cases hbare
  case int.int => exact List.head_eq_of_cons_eq hnumeral
  all_goals first | rfl | exact Eq.trans hworded (Eq.symm hworded')

/-- Trees that are the same, with integer literals written alike, have the same text. -/
theorem render_eq {node node' : Node} (hbare : node.bare = node'.bare)
    (hworded : node.Everywhere Node.Worded) (hworded' : node'.Everywhere Node.Worded)
    (h : node.numerals = node'.numerals) : node.render = node'.render := by
  induction node using Node.induction_below generalizing node' with
  | h node ih =>
      obtain ⟨hself, hbelow⟩ := Node.everywhere_iff.mp hworded
      obtain ⟨hself', hbelow'⟩ := Node.everywhere_iff.mp hworded'
      obtain ⟨hnumeral, hchildren⟩ := gather_inj length_numeral hbare h
      refine render_congr hbare (ink_eq hbare hself hself' hnumeral) ?_
      refine (forall₂_mem hchildren).imp fun child child' ⟨hmem, hmem', hsame, heq⟩ => ?_
      exact ih child hmem hsame (hbelow child hmem) (hbelow' child' hmem') heq

/-! ### Words -/

/-- Let, return and function literals in what was read are made of their words. -/
def Form.Worded : Form → Prop
  | .expression node | .conditional node | .block node | .sentence node =>
      node.Everywhere Node.Worded
  | .nodes list | .lines list => ∀ node ∈ list, node.Everywhere Node.Worded
  | .pairs list => ∀ pair ∈ list, pair.1.Everywhere Node.Worded ∧ pair.2.Everywhere Node.Worded

theorem worded_iff {node : Node} : node.Everywhere Node.Worded ↔
    node.Worded ∧ ∀ child ∈ node.children, child.Everywhere Node.Worded :=
  Node.everywhere_iff

theorem worded_word {token : Token} {kind : Kind} {word : String} (hkind : token.kind = kind)
    (hword : kind.spelling? = some word) (hspells : token.kind.Spells token.literal) :
    literalOf (some token) = word :=
  Kind.eq_of_spells hword (hkind ▸ hspells)

theorem Legal.worded {form : Form} (h : Legal form) : form.Worded := by
  induction h with
  | ident | int | string | bool => exact worded_iff.mpr ⟨trivial, nofun⟩
  | prefixOp _ _ _ ih => exact worded_iff.mpr ⟨trivial, List.forall_mem_singleton.mpr ih⟩
  | infixOp _ _ _ _ ih ih' | index _ _ ih ih' =>
      exact worded_iff.mpr
        ⟨trivial, List.forall_mem_cons.mpr ⟨ih, List.forall_mem_singleton.mpr ih'⟩⟩
  | conditional _ ih => exact ih
  | function hkind hspells hnames _ ih =>
      refine worded_iff.mpr ⟨worded_word hkind rfl hspells, fun child hchild => ?_⟩
      rcases List.mem_append.mp hchild with hchild | hchild
      · obtain ⟨token, rfl, -⟩ := hnames child hchild
        exact worded_iff.mpr ⟨trivial, nofun⟩
      · rwa [List.mem_singleton.mp hchild]
  | call _ _ ih ih' => exact worded_iff.mpr ⟨trivial, List.forall_mem_cons.mpr ⟨ih, ih'⟩⟩
  | array _ ih | block _ ih => exact worded_iff.mpr ⟨trivial, ih⟩
  | hash _ ih =>
      refine worded_iff.mpr ⟨trivial, fun child hchild => ?_⟩
      obtain ⟨⟨key, value⟩, hpair, hchild⟩ := List.mem_flatMap.mp hchild
      obtain rfl | rfl : child = key ∨ child = value := by simpa using hchild
      · exact (ih _ hpair).1
      · exact (ih _ hpair).2
  | noElse _ _ ih ih' =>
      refine worded_iff.mpr ⟨trivial, List.forall_mem_cons.mpr ⟨ih, List.forall_mem_cons.mpr ⟨ih',
        List.forall_mem_singleton.mpr (worded_iff.mpr ⟨trivial, nofun⟩)⟩⟩⟩
  | elseBlock _ _ _ ih ih' ih'' | elseIf _ _ _ ih ih' ih'' =>
      exact worded_iff.mpr ⟨trivial, List.forall_mem_cons.mpr ⟨ih, List.forall_mem_cons.mpr ⟨ih',
        List.forall_mem_singleton.mpr ih''⟩⟩⟩
  | noNodes | noPairs | noLines => nofun
  | nodes _ _ ih ih' | lines _ _ ih ih' => exact List.forall_mem_cons.mpr ⟨ih, ih'⟩
  | pairs _ _ _ ih ih' ih'' => exact List.forall_mem_cons.mpr ⟨⟨ih, ih'⟩, ih''⟩
  | letSentence hkind hspells _ _ _ ih =>
      refine worded_iff.mpr ⟨worded_word hkind rfl hspells, List.forall_mem_cons.mpr ⟨?_,
        List.forall_mem_singleton.mpr ih⟩⟩
      exact worded_iff.mpr ⟨trivial, nofun⟩
  | returnSentence hkind hspells _ ih =>
      exact worded_iff.mpr ⟨worded_word hkind rfl hspells, List.forall_mem_singleton.mpr ih⟩
  | exprSentence _ ih => exact worded_iff.mpr ⟨trivial, List.forall_mem_singleton.mpr ih⟩

theorem Parses.worded {source : String} {program : Node} (h : Parses source program) :
    program.Everywhere Node.Worded := by
  obtain ⟨statements, rfl, hlegal⟩ := h.legal
  exact worded_iff.mpr ⟨trivial, hlegal.worded⟩

end Monkey
