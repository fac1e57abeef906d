/-
Counting the places where a bracket can be applied to what stands before it.  A program cannot
have more calls and indexes than its tokens have such places, so a rendering in which one of
them is lost does not parse to the same program again.
-/
import Monkey.Proofs.Rendering.Ends
import Monkey.Proofs.Rendering.Parts

namespace Monkey

/-- The token opens a bracket. -/
def Token.opensBracket (token : Token) : Bool :=
  token.kind == .lparen || token.kind == .lbracket

/-- The next token can be applied to an expression that ends with the last one. -/
def Token.joins (last next : Token) : Bool :=
  Kind.closers.contains last.kind && next.opensBracket &&
    !decide (last.place.line < next.place.line)

/-- The number of places among the tokens where a bracket can be applied. -/
def links : List Token → Nat
  | last :: next :: rest => (if last.joins next then 1 else 0) + links (next :: rest)
  | _ => 0

theorem links_cons_cons (last next : Token) (rest : List Token) :
    links (last :: next :: rest) = (if last.joins next then 1 else 0) + links (next :: rest) :=
  rfl

theorem links_overlap (front rest : List Token) (last : Token) :
    links (front ++ last :: rest) = links (front ++ [last]) + links (last :: rest) := by
  induction front with
  | nil => simp [links]
  | cons first front ih =>
      cases front with
      | nil => simp [links]
      | cons second front =>
          simp only [List.cons_append, links_cons_cons] at ih ⊢
          omega

theorem links_le_append (first second : List Token) :
    links first + links second ≤ links (first ++ second) := by
  rcases List.eq_nil_or_concat first with rfl | ⟨front, last, rfl⟩
  · simp [links]
  · rw [List.concat_eq_append, List.append_assoc, List.singleton_append,
      links_overlap front second last]
    cases second with
    | nil => simp [links]
    | cons next rest =>
        rw [links_cons_cons]
        omega

theorem links_le_cons (first : Token) (rest : List Token) :
    links rest ≤ links (first :: rest) := by
  have hlinks := links_le_append [first] rest
  rw [List.singleton_append] at hlinks
  omega

theorem links_append_le (first second : List Token) :
    links (first ++ second) ≤ links first + 1 + links second := by
  rcases List.eq_nil_or_concat first with rfl | ⟨front, last, rfl⟩
  · simp
  · rw [List.concat_eq_append, List.append_assoc, List.singleton_append, links_overlap front]
    cases second with
    | nil => simp [links]
    | cons next rest =>
        rw [links_cons_cons]
        split <;> omega

/-- Runs of tokens that do not join. -/
theorem links_append {first second : List Token}
    (h : ∀ last ∈ first, ∀ next ∈ second.head?, last.joins next = false) :
    links (first ++ second) = links first + links second := by
  rcases List.eq_nil_or_concat first with rfl | ⟨front, last, rfl⟩
  · simp [links]
  · rw [List.concat_eq_append] at h ⊢
    rw [List.append_assoc, List.singleton_append, links_overlap front]
    cases second with
    | nil => simp [links]
    | cons next rest => rw [links_cons_cons, h last (by simp) next rfl, if_neg (by simp)]; omega

theorem links_append_of_not_opens {first second : List Token}
    (h : ∀ next ∈ second.head?, next.opensBracket = false) :
    links (first ++ second) = links first + links second := by
  apply links_append
  intro last _ next hnext
  simp [Token.joins, h next hnext]

theorem links_cons_of_not_closes {last : Token} (h : last.kind ∉ Kind.closers)
    (rest : List Token) : links (last :: rest) = links rest := by
  have hjoin : ∀ last' ∈ [last], ∀ next ∈ rest.head?, last'.joins next = false := by
    intro last' hlast next _
    rw [List.mem_singleton.mp hlast, Token.joins]
    simp [h]
  simpa [links] using links_append hjoin

/-- The tokens end with one that an expression can end with. -/
def EndsExpression (tokens : List Token) : Prop :=
  ∃ front last, tokens = front ++ [last] ∧ last.kind ∈ Kind.closers

def EndsWith (kind : Kind) (tokens : List Token) : Prop :=
  ∃ front last, tokens = front ++ [last] ∧ last.kind = kind

def applicationsAll (nodes : List Node) : Nat :=
  (partsOfAll nodes).countP Node.isApplication

def applicationsOfPairs (pairs : List (Node × Node)) : Nat :=
  (partsOfPairs pairs).countP Node.isApplication

section Applications

variable (token : Option Token)

attribute [local simp] Node.applications applicationsAll applicationsOfPairs Node.parts
  Node.isApplication List.countP_cons

@[simp] theorem applications_exprStmt (node : Node) :
    (Node.exprStmt token node).applications = node.applications := by
  simp

@[simp] theorem applications_letStmt (name value : Node) :
    (Node.letStmt token name value).applications = name.applications + value.applications := by
  simp

@[simp] theorem applications_returnStmt (node : Node) :
    (Node.returnStmt token node).applications = node.applications := by
  simp

@[simp] theorem applications_block (statements : List Node) :
    (Node.block token statements).applications = applicationsAll statements := by
  simp

@[simp] theorem applications_program (statements : List Node) :
    (Node.program statements).applications = applicationsAll statements := by
  simp

@[simp] theorem applications_ident (name : String) :
    (Node.ident token name).applications = 0 := by
  simp

@[simp] theorem applications_missing : Node.missing.applications = 0 := by
  simp

@[simp] theorem applications_prefixOp (operator : String) (right : Node) :
    (Node.prefixOp token operator right).applications = right.applications := by
  simp

@[simp] theorem applications_infixOp (left right : Node) (operator : String) :
    (Node.infixOp token left operator right).applications =
      left.applications + right.applications := by
  simp

@[simp] theorem applications_ifElse (condition consequence alternative : Node) :
    (Node.ifElse token condition consequence alternative).applications =
      condition.applications + consequence.applications + alternative.applications := by
  simp [Nat.add_assoc]

@[simp] theorem applications_function (parameters : List Node) (body : Node) :
    (Node.function token parameters body).applications =
      applicationsAll parameters + body.applications := by
  simp

@[simp] theorem applications_call (callee : Node) (arguments : List Node) :
    (Node.call token callee arguments).applications =
      callee.applications + applicationsAll arguments + 1 := by
  simp

@[simp] theorem applications_array (elements : List Node) :
    (Node.array token elements).applications = applicationsAll elements := by
  simp

@[simp] theorem applications_index (left position : Node) :
    (Node.index token left position).applications =
      left.applications + position.applications + 1 := by
  simp

@[simp] theorem applications_hash (pairs : List (Node × Node)) :
    (Node.hash token pairs).applications = applicationsOfPairs pairs := by
  simp

end Applications

theorem applicationsAll_cons (node : Node) (nodes : List Node) :
    applicationsAll (node :: nodes) = node.applications + applicationsAll nodes := by
  simp [applicationsAll, Node.applications, partsOfAll]

theorem applicationsOfPairs_cons (key value : Node) (pairs : List (Node × Node)) :
    applicationsOfPairs ((key, value) :: pairs) =
      key.applications + value.applications + applicationsOfPairs pairs := by
  simp [applicationsOfPairs, Node.applications, partsOfPairs, Nat.add_assoc]

theorem applicationsAll_toList (statement : Option Node) (statements : List Node) :
    applicationsAll (statement.toList ++ statements) =
      applicationsAll statement.toList + applicationsAll statements := by
  cases statement with
  | none => simp [applicationsAll, partsOfAll]
  | some node => simp [applicationsAll, partsOfAll]

/-- A phrase has no more applications than its tokens have links. -/
def Phrase.Linked (tokens : List Token) : Phrase → Prop
  | .expression _ node | .opening _ node | .conditional node | .block node =>
      EndsExpression tokens ∧ node.applications ≤ links tokens
  | .extension _ left node => ∀ first rest, tokens = first :: rest → first.kind ∈ Kind.closers →
      EndsExpression tokens ∧ node.applications ≤ left.applications + links tokens
  | .otherwise _ condition consequence node =>
      ∀ first rest, tokens = first :: rest → first.kind ∈ Kind.closers →
        EndsExpression tokens ∧
          node.applications ≤ condition.applications + consequence.applications + links tokens
  | .list close found | .elements close found => ∀ list, found = some list →
      EndsWith close tokens ∧ applicationsAll list ≤ links tokens
  | .pairs found => ∀ list, found = some list →
      EndsWith .rbrace tokens ∧ applicationsOfPairs list ≤ links tokens
  | .body statements => EndsWith .rbrace tokens ∧ applicationsAll statements ≤ links tokens
  | .sentence found | .statement found => applicationsAll found.toList ≤ links tokens

theorem EndsExpression.append {second : List Token} (h : EndsExpression second)
    (first : List Token) : EndsExpression (first ++ second) := by
  obtain ⟨front, last, rfl, hlast⟩ := h
  exact ⟨first ++ front, last, by rw [List.append_assoc], hlast⟩

theorem EndsWith.append {kind : Kind} {second : List Token} (h : EndsWith kind second)
    (first : List Token) : EndsWith kind (first ++ second) := by
  obtain ⟨front, last, rfl, hlast⟩ := h
  exact ⟨first ++ front, last, by rw [List.append_assoc], hlast⟩

theorem EndsWith.endsExpression {kind : Kind} {tokens : List Token} (h : EndsWith kind tokens)
    (hkind : kind ∈ Kind.closers) : EndsExpression tokens := by
  obtain ⟨front, last, rfl, rfl⟩ := h
  exact ⟨front, last, rfl, hkind⟩

theorem EndsExpression.last {front : List Token} {last : Token}
    (h : EndsExpression (front ++ [last])) : last.kind ∈ Kind.closers := by
  obtain ⟨front', last', heq, hlast⟩ := h
  obtain ⟨_, hsame⟩ := List.append_inj' heq rfl
  rwa [List.singleton_inj.mp hsame]

theorem EndsWith.last {kind : Kind} {front : List Token} {last : Token}
    (h : EndsWith kind (front ++ [last])) : last.kind = kind := by
  obtain ⟨front', last', heq, hlast⟩ := h
  obtain ⟨_, hsame⟩ := List.append_inj' heq rfl
  rwa [List.singleton_inj.mp hsame]

theorem Parameters.applications {names : List Node} {tokens : List Token}
    (h : Parameters names tokens) : applicationsAll names = 0 := by
  induction h with
  | none _ => rfl
  | last _ _ => rfl
  | more _ _ _ _ ih => rw [applicationsAll_cons, ih]; rfl

/-- A token that continues an expression as a bracket joins its last token. -/
theorem joins_of_continues {last opener : Token} {rule : InfixRule}
    (hlast : last.kind ∈ Kind.closers) (hrule : last.continues? opener = some rule)
    (happlies : rule = .call ∨ rule = .index) : last.joins opener = true := by
  obtain ⟨hkind, hline⟩ := Token.infixRule?_of_continues? hrule
  have hopens : opener.kind = .lparen ∨ opener.kind = .lbracket := by
    cases hopener : opener.kind <;> rw [hopener] at hkind <;> first
      | exact Or.inl rfl
      | exact Or.inr rfl
      | (rcases happlies with rfl | rfl <;> cases hkind)
  have hnot : ¬ last.place.line < opener.place.line := fun hlt => hline ⟨hopens, hlt⟩
  simp [Token.joins, Token.opensBracket, hlast, hopens, Int.not_lt.mp hnot]

section Linked

variable {last opener closer operator last' : Token} {tokens rest : List Token} {power : Int}
  {left operand position node condition consequence alternative : Node}

theorem linked_leaf {rule : PrefixRule} {token : Token} (hkind : token.kind ∈ Kind.closers)
    (hnode : node.applications = 0) : (Phrase.opening rule node).Linked [token] :=
  ⟨⟨[], token, rfl, hkind⟩, by rw [hnode]; exact Nat.zero_le _⟩

theorem linked_grouped (hclose : closer.kind = .rparen)
    (h : (Phrase.expression Power.lowest node).Linked tokens) :
    (Phrase.opening .grouped node).Linked (opener :: tokens ++ [closer]) := by
  refine ⟨⟨opener :: tokens, closer, rfl, by rw [hclose]; decide⟩, ?_⟩
  have hlinks := links_le_append (opener :: tokens) [closer]
  have hcons := links_le_cons opener tokens
  have hinner := h.2
  omega

theorem linked_infixOp {binding : Int}
    (hoperand : (Phrase.expression binding operand).Linked (tokens ++ [last']))
    (hextension : (Phrase.extension power
      (.infixOp (some operator) left operator.literal operand) node).Linked (last' :: rest)) :
    (Phrase.extension power left node).Linked (last :: operator :: tokens ++ last' :: rest) := by
  rintro first others ⟨⟩ hfirst
  obtain ⟨hends, hle⟩ := hextension last' rest rfl hoperand.1.last
  refine ⟨hends.append (last :: operator :: tokens), ?_⟩
  have hright := hoperand.2
  have hlinks := links_le_append [last, operator] (tokens ++ last' :: rest)
  rw [applications_infixOp] at hle
  rw [links_overlap tokens rest last'] at hlinks
  simp only [List.cons_append, List.nil_append] at hlinks ⊢
  omega

theorem linked_call {arguments : List Node} (hrule : last.continues? opener = some .call)
    (harguments : (Phrase.list .rparen (some arguments)).Linked (tokens ++ [closer]))
    (hextension : (Phrase.extension power (.call (some opener) left arguments) node).Linked
      (closer :: rest)) :
    (Phrase.extension power left node).Linked (last :: opener :: tokens ++ closer :: rest) := by
  rintro first others ⟨⟩ hfirst
  obtain ⟨hclose, hinside⟩ := harguments _ rfl
  obtain ⟨hends, hle⟩ := hextension closer rest rfl (by rw [hclose.last]; decide)
  refine ⟨hends.append (last :: opener :: tokens), ?_⟩
  have hjoins := joins_of_continues hfirst hrule (Or.inl rfl)
  have hcons := links_le_cons opener (tokens ++ closer :: rest)
  rw [applications_call] at hle
  rw [links_overlap tokens rest closer] at hcons
  simp only [List.cons_append, links_cons_cons, hjoins, if_true]
  omega

theorem linked_index (hrule : last.continues? opener = some .index)
    (hclose : closer.kind = .rbracket)
    (hposition : (Phrase.expression Power.lowest position).Linked tokens)
    (hextension : (Phrase.extension power (.index (some opener) left position) node).Linked
      (closer :: rest)) :
    (Phrase.extension power left node).Linked (last :: opener :: tokens ++ closer :: rest) := by
  rintro first others ⟨⟩ hfirst
  obtain ⟨hends, hle⟩ := hextension closer rest rfl (by rw [hclose]; decide)
  refine ⟨hends.append (last :: opener :: tokens), ?_⟩
  have hjoins := joins_of_continues hfirst hrule (Or.inr rfl)
  have hcons := links_le_cons opener (tokens ++ closer :: rest)
  have happend := links_le_append tokens (closer :: rest)
  have hinside := hposition.2
  rw [applications_index] at hle
  simp only [List.cons_append, links_cons_cons, hjoins, if_true]
  omega

theorem linked_ifElse {token : Token} {test body : List Token}
    (hcondition : (Phrase.expression Power.lowest condition).Linked test)
    (hconsequence : (Phrase.block consequence).Linked (body ++ [last]))
    (hrest : (Phrase.otherwise token condition consequence node).Linked (last :: rest)) :
    (Phrase.conditional node).Linked
      (token :: opener :: test ++ closer :: body ++ last :: rest) := by
  obtain ⟨hends, hle⟩ := hrest last rest rfl hconsequence.1.last
  refine ⟨hends.append (token :: opener :: test ++ closer :: body), ?_⟩
  have hfront := links_le_append [token, opener] test
  have happend := links_le_append (token :: opener :: test) (closer :: (body ++ last :: rest))
  have hcons := links_le_cons closer (body ++ last :: rest)
  rw [links_overlap body rest last] at hcons
  have htest := hcondition.2
  have hbody := hconsequence.2
  simp only [List.cons_append, List.nil_append, List.append_assoc] at hfront happend ⊢
  omega

/-- A block or another if behind `else`. -/
theorem linked_else {token word : Token} (hends : EndsExpression tokens)
    (hle : alternative.applications ≤ links tokens) :
    (Phrase.otherwise token condition consequence
      (.ifElse (some token) condition consequence alternative)).Linked
      (last :: word :: tokens) := by
  rintro first rest ⟨⟩ hfirst
  refine ⟨hends.append [last, word], ?_⟩
  have hlinks := links_le_append [last, word] tokens
  rw [applications_ifElse]
  simp only [List.cons_append, List.nil_append] at hlinks
  omega

theorem linked_lastElement {close : Kind} (hclose : closer.kind = close)
    (h : (Phrase.expression Power.lowest node).Linked tokens) :
    (Phrase.elements close (some [node])).Linked (tokens ++ [closer]) := by
  rintro list ⟨⟩
  refine ⟨⟨tokens, closer, rfl, hclose⟩, ?_⟩
  have hlinks := links_le_append tokens [closer]
  have helement := h.2
  rw [applicationsAll_cons]
  simp only [applicationsAll, partsOfAll, List.countP_nil]
  omega

theorem linked_moreElements {close : Kind} {comma : Token} {nodes : List Node}
    (h : (Phrase.expression Power.lowest node).Linked tokens)
    (hrest : (Phrase.elements close (some nodes)).Linked rest) :
    (Phrase.elements close (some (node :: nodes))).Linked (tokens ++ comma :: rest) := by
  rintro list ⟨⟩
  obtain ⟨hends, hle⟩ := hrest _ rfl
  refine ⟨(hends.append [comma]).append tokens, ?_⟩
  have hlinks := links_le_append tokens (comma :: rest)
  have hcons := links_le_cons comma rest
  have helement := h.2
  rw [applicationsAll_cons]
  omega

/-- The tokens of a key and its value. -/
theorem applications_pair_le {colon : Token} {key value : Node} {keys values : List Token}
    (hkey : (Phrase.expression Power.lowest key).Linked keys)
    (hvalue : (Phrase.expression Power.lowest value).Linked values) :
    key.applications + value.applications ≤ links (keys ++ colon :: values) := by
  have hlinks := links_le_append keys (colon :: values)
  have hcons := links_le_cons colon values
  have hle := hkey.2
  have hle' := hvalue.2
  omega

theorem linked_lastPair {colon : Token} {key value : Node} {keys values : List Token}
    (hclose : closer.kind = .rbrace)
    (hkey : (Phrase.expression Power.lowest key).Linked keys)
    (hvalue : (Phrase.expression Power.lowest value).Linked values) :
    (Phrase.pairs (some [(key, value)])).Linked (keys ++ colon :: values ++ [closer]) := by
  rintro list ⟨⟩
  refine ⟨⟨keys ++ colon :: values, closer, rfl, hclose⟩, ?_⟩
  have hlinks := links_le_append (keys ++ colon :: values) [closer]
  have hpair := @applications_pair_le colon key value keys values hkey hvalue
  rw [applicationsOfPairs_cons]
  simp only [applicationsOfPairs, partsOfPairs, List.countP_nil]
  omega

theorem linked_morePairs {colon comma : Token} {key value : Node} {keys values : List Token}
    {pairs : List (Node × Node)} (hkey : (Phrase.expression Power.lowest key).Linked keys)
    (hvalue : (Phrase.expression Power.lowest value).Linked values)
    (hrest : (Phrase.pairs (some pairs)).Linked rest) :
    (Phrase.pairs (some ((key, value) :: pairs))).Linked
      (keys ++ colon :: values ++ comma :: rest) := by
  rintro list ⟨⟩
  obtain ⟨hends, hle⟩ := hrest _ rfl
  refine ⟨(hends.append [comma]).append (keys ++ colon :: values), ?_⟩
  have hlinks := links_le_append (keys ++ colon :: values) (comma :: rest)
  have hcons := links_le_cons comma rest
  have hpair := @applications_pair_le colon key value keys values hkey hvalue
  rw [applicationsOfPairs_cons]
  omega

theorem linked_letSentence {token name assign : Token}
    (h : (Phrase.expression Power.lowest node).Linked tokens) :
    (Phrase.sentence
      (some (.letStmt (some token) (.ident (some name) name.literal) node))).Linked
      (token :: name :: assign :: tokens) := by
  have hlinks := links_le_append [token, name, assign] tokens
  have hvalue := h.2
  simp only [Phrase.Linked, Option.toList, applicationsAll_cons, applications_letStmt,
    applications_ident]
  simp only [applicationsAll, partsOfAll, List.countP_nil, List.cons_append,
    List.nil_append] at hlinks ⊢
  omega

end Linked

/-- No phrase has more applications than its tokens have links. -/
theorem Derives.linked {phrase : Phrase} {tokens : List Token} {next : Token}
    (h : Derives phrase tokens next) : phrase.Linked tokens := by
  induction h with
  | integer hkind _ _ _ => exact linked_leaf (by rw [hkind]; decide) rfl
  | string hkind => exact linked_leaf (by rw [hkind]; decide) rfl
  | boolean hkind =>
      apply linked_leaf _ rfl
      rcases hkind with hkind | hkind
      · rw [hkind]
        decide
      · rw [hkind]
        decide
  | identifier hkind => exact linked_leaf (by rw [hkind]; decide) rfl
  | @sign token _ right tokens _ _ ih =>
      refine ⟨ih.1.append [token], ?_⟩
      rw [applications_prefixOp]
      exact Nat.le_trans ih.2 (links_le_cons token tokens)
  | grouped _ hclose _ ih => exact linked_grouped hclose ih
  | conditional _ ih => exact ih
  | @function token opener _ _ _ parameters tokens _ _ hnames _ ih =>
      refine ⟨ih.1.append (token :: opener :: parameters), ?_⟩
      rw [applications_function, hnames.applications, Nat.zero_add]
      have hlinks := links_le_append (token :: opener :: parameters) tokens
      have hbody := ih.2
      omega
  | @array opener _ _ tokens _ _ ih =>
      obtain ⟨hends, hle⟩ := ih _ rfl
      refine ⟨(hends.endsExpression (by decide)).append [opener], ?_⟩
      rw [applications_array]
      exact Nat.le_trans hle (links_le_cons opener tokens)
  | @hash opener _ _ tokens _ _ ih =>
      obtain ⟨hends, hle⟩ := ih _ rfl
      refine ⟨(hends.endsExpression (by decide)).append [opener], ?_⟩
      rw [applications_hash]
      exact Nat.le_trans hle (links_le_cons opener tokens)
  | @expression _ _ _ _ last _ first rest _ _ ih ih' =>
      obtain ⟨hends, hle⟩ := ih' last rest rfl ih.1.last
      refine ⟨hends.append first, ?_⟩
      have hleft := ih.2
      rw [links_overlap]
      omega
  | @stop _ _ last _ _ =>
      rintro first rest ⟨⟩ hfirst
      exact ⟨⟨[], last, rfl, hfirst⟩, Nat.le_add_right _ _⟩
  | infixOp _ _ _ _ ih ih' => exact linked_infixOp ih ih'
  | call hrule _ _ _ ih ih' => exact linked_call hrule ih ih'
  | index hrule _ hclose _ _ ih ih' => exact linked_index hrule hclose ih ih'
  | ifElse _ _ _ _ _ _ ih ih' ih'' => exact linked_ifElse ih ih' ih''
  | @noElse token last _ condition consequence _ =>
      rintro first rest ⟨⟩ hfirst
      refine ⟨⟨[], last, rfl, hfirst⟩, ?_⟩
      rw [applications_ifElse, applications_missing]
      omega
  | elseBlock _ _ ih => exact linked_else ih.1 ih.2
  | elseIf _ _ ih => exact linked_else ih.1 ih.2
  | @emptyList close closer _ hclose =>
      rintro list ⟨⟩
      exact ⟨⟨[], closer, rfl, hclose⟩, Nat.zero_le _⟩
  | list _ ih => exact ih
  | lastElement hclose _ ih => exact linked_lastElement hclose ih
  | moreElements _ _ _ ih ih' => exact linked_moreElements ih ih'
  | @emptyPairs closer _ hclose =>
      rintro list ⟨⟩
      exact ⟨⟨[], closer, rfl, hclose⟩, Nat.zero_le _⟩
  | lastPair _ hclose _ _ ih ih' => exact linked_lastPair hclose ih ih'
  | morePairs _ _ _ _ _ ih ih' ih'' => exact linked_morePairs ih ih' ih''
  | @block opener _ _ tokens _ _ ih =>
      refine ⟨(ih.1.endsExpression (by decide)).append [opener], ?_⟩
      rw [applications_block]
      exact Nat.le_trans ih.2 (links_le_cons opener tokens)
  | @emptyBody closer _ hclose => exact ⟨⟨[], closer, rfl, hclose⟩, Nat.zero_le _⟩
  | @body first _ _ _ tokens rest _ _ ih ih' =>
      refine ⟨ih'.1.append tokens, ?_⟩
      have hlinks := links_le_append tokens (first :: rest)
      have hstatement := ih
      have hrest := ih'.2
      rw [applicationsAll_toList]
      simp only [Phrase.Linked] at hstatement
      omega
  | letSentence _ _ _ _ ih => exact linked_letSentence ih
  | @returnSentence token _ value tokens _ _ ih =>
      have hlinks := links_le_cons token tokens
      have hvalue := ih.2
      simp only [Phrase.Linked, Option.toList, applicationsAll_cons, applications_returnStmt]
      simp only [applicationsAll, partsOfAll, List.countP_nil]
      omega
  | exprSentence _ ih =>
      have hvalue := ih.2
      simp only [Phrase.Linked, Option.toList, applicationsAll_cons, applications_exprStmt]
      simp only [applicationsAll, partsOfAll, List.countP_nil]
      omega
  | stray _ => exact Nat.zero_le _
  | bare _ _ ih => exact ih
  | @ended semicolon _ _ tokens _ _ ih =>
      have hlinks := links_le_append tokens [semicolon]
      simp only [Phrase.Linked] at ih ⊢
      omega

theorem DerivesAll.linked {statements : List Node} {tokens : List Token} {next : Token}
    (h : DerivesAll statements tokens next) : applicationsAll statements ≤ links tokens := by
  induction h with
  | nil => exact Nat.le_refl _
  | @cons _ _ _ tokens rest hstatement _ ih =>
      have hlinks := links_le_append tokens rest
      have hfirst : applicationsAll _ ≤ links tokens := hstatement.linked
      rw [applicationsAll_toList]
      omega

end Monkey
