/-
The rendering of a legal tree can be read off token by token: no name, number or operator runs
into what is written after it.
-/
import Monkey.Proofs.Rendering.Legal

namespace Monkey

/-- No name or number goes on with the text. -/
def Apart (following : List Char) : Prop :=
  ∀ c ∈ following.head?, isLetter c = false ∧ isDigit c = false

theorem apart_nil : Apart [] := by
  intro c hc
  cases hc

theorem apart_cons {c : Char} {following : List Char}
    (h : c ∈ [' ', '\n', ',', ':', '(', ')', '[', ']', '\x7b', '\x7d']) :
    Apart (c :: following) := by
  have hall : [' ', '\n', ',', ':', '(', ')', '[', ']', '\x7b', '\x7d'].all
      (fun c => !isLetter c && !isDigit c) = true := by decide
  intro c' hc
  obtain rfl : c = c' := by simpa using hc
  simpa using List.all_eq_true.mp hall c h

/-- The kinds that nothing can run into. -/
def Kind.closed : List Kind :=
  [.eq, .notEq, .or, .and, .lt, .gt, .plus, .minus, .asterisk, .slash, .caret, .comma, .colon,
   .lparen, .rparen, .lbrace, .rbrace, .lbracket, .rbracket]

theorem stands_closed {kind : Kind} {literal : String} (hspells : kind.Spells literal)
    (hkind : kind ∈ Kind.closed) (following : List Char) :
    (Mark.word kind literal).Stands following := by
  refine ⟨hspells, ?_⟩
  cases kind <;> trivial

theorem stands_fixed {kind : Kind} {literal : String} (hspelling : kind.spelling? = some literal)
    (hkind : kind ∈ Kind.closed) (following : List Char) :
    (Mark.word kind literal).Stands following :=
  stands_closed (Kind.spells_of_spelling? hspelling) hkind following

/-- A keyword in front of a text that no name goes on with. -/
theorem stands_keyword {kind : Kind} {literal : String} {following : List Char}
    (hspelling : kind.spelling? = some literal)
    (hkind : kind ∈ [.letWord, .returnWord, .fnWord, .ifWord, .elseWord, .trueWord, .falseWord])
    (h : Apart following) : (Mark.word kind literal).Stands following := by
  refine ⟨Kind.spells_of_spelling? hspelling, ?_⟩
  have hletter : ∀ c ∈ following.head?, isLetter c = false := fun c hc => (h c hc).1
  simp only [List.mem_cons, List.not_mem_nil, or_false] at hkind
  rcases hkind with rfl | rfl | rfl | rfl | rfl | rfl | rfl <;> exact hletter

/-- The text of an expression does not start with an equals sign. -/
def Form.Heads : Form → Prop
  | .expression node | .conditional node => ∃ c ∈ (textOf node.marks).head?, c ≠ '='
  | _ => True

theorem Legal.heads {form : Form} (h : Legal form) : form.Heads := by
  induction h with
  | @ident token hkind hspells =>
      rw [hkind] at hspells
      obtain ⟨hne, hletters, _⟩ := hspells
      obtain ⟨c, rest, hcons⟩ := List.exists_cons_of_ne_nil hne
      refine ⟨c, by simp [Node.marks, Mark.text, hcons], ?_⟩
      rintro rfl
      exact absurd (hletters '=' (by simp [hcons])) (by decide)
  | @int token _ hkind hspells _ _ _ =>
      rw [hkind] at hspells
      obtain ⟨hne, hdigits⟩ := hspells
      obtain ⟨c, rest, hcons⟩ := List.exists_cons_of_ne_nil hne
      refine ⟨c, by simp [Node.marks, Mark.text, literalOf, hcons], ?_⟩
      rintro rfl
      exact absurd (hdigits '=' (by simp [hcons])) (by decide)
  | string _ _ => exact ⟨'"', by simp [Node.marks, Mark.text], by decide⟩
  | @bool _ value =>
      cases value
      · exact ⟨'f', by simp [Node.marks, Mark.text], by decide⟩
      · exact ⟨'t', by simp [Node.marks, Mark.text], by decide⟩
  | prefixOp _ _ _ _ => exact ⟨'(', by simp [Node.marks, Mark.text], by decide⟩
  | infixOp _ _ _ _ _ _ => exact ⟨'(', by simp [Node.marks, Mark.text], by decide⟩
  | conditional _ ih => exact ih
  | @function token _ _ hkind hspells _ _ _ =>
      have hliteral : token.literal = "fn" := Kind.eq_of_spells (by rw [hkind]; rfl) hspells
      exact ⟨'f', by simp [Node.marks, Mark.text, literalOf, hliteral], by decide⟩
  | call _ _ ih _ =>
      obtain ⟨c, hc, hne⟩ := ih
      refine ⟨c, ?_, hne⟩
      simp [Node.marks, Option.mem_def.mp hc]
  | array _ _ => exact ⟨'[', by simp [Node.marks, Mark.text], by decide⟩
  | index _ _ _ _ => exact ⟨'(', by simp [Node.marks, Mark.text], by decide⟩
  | hash _ _ => exact ⟨'\x7b', by simp [Node.marks, Mark.text], by decide⟩
  | noElse _ _ _ _ => exact ⟨'i', by simp [Node.marks, Mark.text], by decide⟩
  | elseBlock _ _ halternative _ _ _ =>
      have hne := Legal.ne_missing (Or.inr (Or.inl halternative))
      refine ⟨'i', ?_, by decide⟩
      rw [Node.marks_ifElse hne]
      simp [Node.marks, Mark.text]
  | elseIf _ _ halternative _ _ _ =>
      have hne := Legal.ne_missing (Or.inr (Or.inr halternative))
      refine ⟨'i', ?_, by decide⟩
      rw [Node.marks_ifElse hne]
      simp [Node.marks, Mark.text]
  | _ => trivial

theorem Token.IsOperator.closed {token : Token} (h : token.IsOperator) :
    token.kind ∈ Kind.closed := by
  obtain ⟨power, right, hrule⟩ := h
  cases hkind : token.kind <;> rw [hkind] at hrule <;> first | cases hrule; done | decide

theorem Token.ofSpelling_literal {token : Token} {spelling : String}
    (hspells : token.kind.Spells token.literal) (h : token.kind.spelling? = some spelling) :
    Kind.ofSpelling token.literal = token.kind := by
  rw [Kind.eq_of_spells h hspells]
  exact Kind.ofSpelling_eq h

theorem Token.ofSpelling_sign {token : Token} (hkind : token.kind = .minus ∨ token.kind = .bang)
    (hspells : token.kind.Spells token.literal) :
    Kind.ofSpelling token.literal = token.kind := by
  rcases hkind with hkind | hkind
  · exact Token.ofSpelling_literal hspells (show _ = some "-" by rw [hkind]; rfl)
  · exact Token.ofSpelling_literal hspells (show _ = some "!" by rw [hkind]; rfl)

theorem Token.IsOperator.ofSpelling {token : Token} (h : token.IsOperator)
    (hspells : token.kind.Spells token.literal) :
    Kind.ofSpelling token.literal = token.kind := by
  have hclosed := h.closed
  cases hspelling : token.kind.spelling? with
  | some spelling => exact Token.ofSpelling_literal hspells hspelling
  | none =>
      cases hkind : token.kind <;> rw [hkind] at hspelling hclosed <;>
        first | cases hspelling; done | exact absurd hclosed (by decide)

theorem stands_gap {c : Char} (h : isLayout c = true) (following : List Char) :
    (Mark.gap c).Stands following := h

/-- The first word of an if, its condition and its consequence. -/
theorem legible_noElse {token : Option Token} {condition consequence : Node}
    {following : List Char} (hapart : Apart following)
    (hcondition : ∀ {following}, Apart following → Legible condition.marks following)
    (hconsequence : ∀ {following}, Apart following → Legible consequence.marks following) :
    Legible (Node.ifElse token condition consequence .missing).marks following := by
  simp only [Node.marks, List.cons_append, Legible, legible_append]
  refine ⟨stands_keyword rfl (by decide) (apart_cons (by decide)), stands_gap rfl _,
    stands_fixed rfl (by decide) _, hcondition (apart_cons (by decide)),
    stands_fixed rfl (by decide) _, stands_gap rfl _, hconsequence hapart⟩

theorem legible_ifElse {token : Option Token} {condition consequence alternative : Node}
    {following : List Char} (hne : alternative ≠ .missing) (hapart : Apart following)
    (hcondition : ∀ {following}, Apart following → Legible condition.marks following)
    (hconsequence : ∀ {following}, Apart following → Legible consequence.marks following)
    (halternative : ∀ {following}, Apart following → Legible alternative.marks following) :
    Legible (Node.ifElse token condition consequence alternative).marks following := by
  rw [Node.marks_ifElse hne, legible_append]
  constructor
  · exact legible_noElse (apart_cons (by decide)) hcondition hconsequence
  · exact ⟨stands_gap rfl _, stands_keyword rfl (by decide) (apart_cons (by decide)),
      stands_gap rfl _, halternative hapart⟩

theorem legible_names {names : List Node} {following : List Char} (hapart : Apart following)
    (h : ∀ name ∈ names, ∃ token, name = .ident (some token) token.literal ∧
      token.kind = .ident ∧ token.kind.Spells token.literal) :
    Legible (listMarks names) following := by
  induction names with
  | nil => trivial
  | cons name names ih =>
      obtain ⟨token, rfl, hkind, hspells⟩ := h name (by simp)
      rw [hkind] at hspells
      rw [listMarks_cons, legible_append]
      constructor
      · refine ⟨⟨hspells, ?_⟩, trivial⟩
        intro c hc
        split at hc
        · exact (hapart c hc).1
        · exact (apart_cons (by decide) c hc).1
      · split
        · trivial
        · exact ⟨stands_fixed rfl (by decide) _, stands_gap rfl _,
            ih fun name hname => h name (by simp [hname])⟩

/-- A legal part can be read off in front of a text that no name goes on with. -/
theorem Legal.legible {form : Form} (h : Legal form) {following : List Char}
    (hapart : Apart following) : Legible form.marks following := by
  induction h generalizing following with
  | @ident token hkind hspells =>
      rw [hkind] at hspells
      exact ⟨⟨hspells, fun c hc => (hapart c hc).1⟩, trivial⟩
  | @int token _ hkind hspells _ _ _ =>
      rw [hkind] at hspells
      exact ⟨⟨hspells, fun c hc => (hapart c hc).2⟩, trivial⟩
  | @string token hkind hspells =>
      rw [hkind] at hspells
      exact ⟨⟨hspells, trivial⟩, trivial⟩
  | @bool _ value =>
      cases value
      · exact ⟨stands_keyword rfl (by decide) hapart, trivial⟩
      · exact ⟨stands_keyword rfl (by decide) hapart, trivial⟩
  | @prefixOp token right hkind hspells hright ih =>
      simp only [Form.marks, Node.marks, List.cons_append, Legible, legible_append, and_true]
      refine ⟨stands_fixed rfl (by decide) _, ?_, ih (apart_cons (by decide)),
        stands_fixed rfl (by decide) _⟩
      rw [Token.ofSpelling_sign hkind hspells]
      rcases hkind with hkind | hkind
      · rw [hkind]
        exact stands_closed (hkind ▸ hspells) (by decide) _
      · rw [hkind]
        obtain ⟨c, hc, hne⟩ := hright.heads
        refine ⟨hkind ▸ hspells, ?_⟩
        intro hhead
        rw [textOf_append, List.append_assoc, List.head?_append, Option.mem_def.mp hc] at hhead
        exact hne (Option.some.inj hhead)
  | @infixOp token left right hkind hspells hleft hright ih ih' =>
      simp only [Form.marks, Node.marks, List.cons_append, List.append_assoc, Legible,
        legible_append, and_true]
      rw [hkind.ofSpelling hspells]
      exact ⟨stands_fixed rfl (by decide) _, ih (apart_cons (by decide)), stands_gap rfl _,
        stands_closed hspells hkind.closed _, stands_gap rfl _, ih' (apart_cons (by decide)),
        stands_fixed rfl (by decide) _⟩
  | conditional _ ih => exact ih hapart
  | @function token names body hkind hspells hnames _ ih =>
      have hliteral : token.literal = "fn" := Kind.eq_of_spells (by rw [hkind]; rfl) hspells
      simp only [Form.marks, Node.marks, List.cons_append, Legible, legible_append, literalOf,
        Option.map_some, Option.getD_some, hliteral]
      exact ⟨stands_keyword rfl (by decide) (apart_cons (by decide)),
        stands_fixed rfl (by decide) _, legible_names (apart_cons (by decide)) hnames,
        stands_fixed rfl (by decide) _, stands_gap rfl _, ih hapart⟩
  | call _ _ ih ih' =>
      simp only [Form.marks, Node.marks, List.append_assoc, List.cons_append, Legible,
        legible_append, and_true]
      exact ⟨ih (apart_cons (by decide)), stands_fixed rfl (by decide) _,
        ih' (apart_cons (by decide)), stands_fixed rfl (by decide) _⟩
  | array _ ih =>
      simp only [Form.marks, Node.marks, List.cons_append, Legible, legible_append, and_true]
      exact ⟨stands_fixed rfl (by decide) _, ih (apart_cons (by decide)),
        stands_fixed rfl (by decide) _⟩
  | index _ _ ih ih' =>
      simp only [Form.marks, Node.marks, List.append_assoc, List.cons_append, Legible,
        legible_append, and_true]
      exact ⟨stands_fixed rfl (by decide) _, ih (apart_cons (by decide)),
        stands_fixed rfl (by decide) _, ih' (apart_cons (by decide)),
        stands_fixed rfl (by decide) _, stands_fixed rfl (by decide) _⟩
  | hash _ ih =>
      simp only [Form.marks, Node.marks, List.cons_append, Legible, legible_append, and_true]
      exact ⟨stands_fixed rfl (by decide) _, ih (apart_cons (by decide)),
        stands_fixed rfl (by decide) _⟩
  | noElse _ _ ih ih' =>
      rw [Form.marks]
      exact legible_noElse hapart ih ih'
  | elseBlock _ _ halternative ih ih' ih'' =>
      exact legible_ifElse (Legal.ne_missing (Or.inr (Or.inl halternative))) hapart ih ih' ih''
  | elseIf _ _ halternative ih ih' ih'' =>
      exact legible_ifElse (Legal.ne_missing (Or.inr (Or.inr halternative))) hapart ih ih' ih''
  | noNodes => trivial
  | @nodes node nodes _ _ ih ih' =>
      rw [Form.marks, listMarks_cons, legible_append]
      split
      · exact ⟨ih hapart, trivial⟩
      · exact ⟨ih (apart_cons (by decide)), stands_fixed rfl (by decide) _, stands_gap rfl _,
          ih' hapart⟩
  | noPairs => trivial
  | @pairs key value pairs _ _ _ ih ih' ih'' =>
      rw [Form.marks, pairMarks_cons, legible_append, legible_append]
      refine ⟨⟨ih (apart_cons (by decide)), stands_fixed rfl (by decide) _, stands_gap rfl _,
        ?_⟩, ?_⟩
      · split
        · exact ih' hapart
        · exact ih' (apart_cons (by decide))
      · split
        · trivial
        · exact ⟨stands_fixed rfl (by decide) _, stands_gap rfl _, ih'' hapart⟩
  | block _ ih =>
      simp only [Form.marks, Node.marks, List.cons_append, Legible, legible_append, and_true]
      exact ⟨stands_fixed rfl (by decide) _, stands_gap rfl _, ih (apart_cons (by decide)),
        stands_fixed rfl (by decide) _⟩
  | @letSentence token name value hkind hspells hname hspells' _ ih =>
      have hliteral : token.literal = "let" := Kind.eq_of_spells (by rw [hkind]; rfl) hspells
      rw [hname] at hspells'
      simp only [Form.marks, Node.marks, List.cons_append, Legible, legible_append, literalOf,
        Option.map_some, Option.getD_some, hliteral]
      exact ⟨stands_keyword rfl (by decide) (apart_cons (by decide)), stands_gap rfl _,
        ⟨hspells', fun c hc => (apart_cons (by decide) c hc).1⟩, trivial, stands_gap rfl _,
        ⟨Kind.spells_of_spelling? rfl, by simp [Kind.Ends, Mark.text]⟩, stands_gap rfl _,
        ih hapart⟩
  | @returnSentence token value hkind hspells _ ih =>
      have hliteral : token.literal = "return" :=
        Kind.eq_of_spells (by rw [hkind]; rfl) hspells
      simp only [Form.marks, Node.marks, Legible, literalOf, Option.map_some, Option.getD_some,
        hliteral]
      exact ⟨stands_keyword rfl (by decide) (apart_cons (by decide)), stands_gap rfl _,
        ih hapart⟩
  | exprSentence hvalue ih =>
      rw [Form.marks, Node.marks_exprStmt (Legal.ne_missing (Or.inl hvalue))]
      exact ih hapart
  | noLines => trivial
  | lines _ _ ih ih' =>
      rw [Form.marks, lineMarks, legible_append]
      exact ⟨ih (apart_cons (by decide)), stands_gap rfl _, ih' hapart⟩

end Monkey
