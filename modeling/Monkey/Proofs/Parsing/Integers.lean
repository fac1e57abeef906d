/-
The tokens of programs: a program that parses without errors holds no text that makes no token,
and no integer literal that has more digits than are read.
-/
import Monkey.Proofs.Lexing.Digits
import Monkey.Proofs.Parsing.Programs

namespace Monkey

/-- An integer literal that has a value. -/
def Token.Readable (token : Token) : Prop :=
  token.kind = .int → ∃ value, readInt token.literal = .ok value

/-- All tokens of the phrase have the property; where the phrase goes on from another one, the last
token of that one is left out. -/
def Phrase.ForAll (p : Token → Prop) (tokens : List Token) : Phrase → Prop
  | .extension .. | .otherwise .. => ∀ token ∈ tokens.tail, p token
  | .list close _ | .elements close _ =>
      close ≠ .illegal → close ≠ .int → ∀ token ∈ tokens, p token
  | _ => ∀ token ∈ tokens, p token

theorem readable_of_kind {token : Token} (h : token.kind ≠ .int) : token.Readable :=
  fun hkind => absurd hkind h

theorem Token.kind_of_continues? {last next : Token} {rule : InfixRule}
    (h : last.continues? next = some rule) : next.kind ≠ .illegal ∧ next.kind ≠ .int := by
  have hrule := (Token.infixRule?_of_continues? h).1
  constructor
  · intro hkind
    rw [hkind] at hrule
    cases hrule
  · intro hkind
    rw [hkind] at hrule
    cases hrule

section

/-! What holds of every token that is legal, an integer literal only if it has a value, holds of
all tokens of a phrase. -/

variable {p : Token → Prop}
  (hlegal : ∀ token, token.kind ≠ .illegal → token.kind ≠ .int → p token)
  (hint : ∀ token value, token.kind = .int → readInt token.literal = .ok value → p token)

include hlegal

theorem Parameters.forall_tokens {names : List Node} {tokens : List Token}
    (h : Parameters names tokens) : ∀ token ∈ tokens, p token := by
  induction h with
  | none hclose => grind
  | last hname hclose => grind
  | more hname hcomma _ _ ih => grind

include hint

theorem Derives.forall_tokens {phrase : Phrase} {tokens : List Token} {next : Token}
    (h : Derives phrase tokens next) : phrase.ForAll p tokens := by
  induction h with
  | integer hkind hread _ _ => simpa [Phrase.ForAll] using hint _ _ hkind hread
  | function hkind hopen hnames _ ih =>
      have hparameters := hnames.forall_tokens hlegal
      simp only [Phrase.ForAll] at ih ⊢
      grind
  | infixOp hrule _ _ _ ih ih' =>
      have hoperator := Token.kind_of_continues? hrule
      simp only [Phrase.ForAll, List.tail_cons] at ih ih' ⊢
      grind
  | call hrule _ _ _ ih ih' =>
      have hoperator := Token.kind_of_continues? hrule
      simp only [Phrase.ForAll, List.tail_cons] at ih ih' ⊢
      grind
  | index hrule _ _ _ _ ih ih' =>
      have hoperator := Token.kind_of_continues? hrule
      simp only [Phrase.ForAll, List.tail_cons] at ih ih' ⊢
      grind
  | _ =>
      simp only [Phrase.ForAll, List.tail_cons] at *
      grind

theorem DerivesAll.forall_tokens {statements : List Node} {tokens : List Token} {next : Token}
    (h : DerivesAll statements tokens next) : ∀ token ∈ tokens, p token := by
  induction h with
  | nil => simp
  | cons hstatement _ ih =>
      intro token htoken
      rcases List.mem_append.mp htoken with htoken | htoken
      · exact hstatement.forall_tokens hlegal hint token htoken
      · exact ih token htoken

end

theorem DerivesAll.readable {statements : List Node} {tokens : List Token} {next : Token}
    (h : DerivesAll statements tokens next) : ∀ token ∈ tokens, token.Readable :=
  h.forall_tokens (fun _ _ hkind => readable_of_kind hkind)
    fun _ value _ hread _ => ⟨value, hread⟩

theorem DerivesAll.kind_ne_illegal {statements : List Node} {tokens : List Token} {next : Token}
    (h : DerivesAll statements tokens next) : ∀ token ∈ tokens, token.kind ≠ .illegal :=
  h.forall_tokens (fun _ hkind _ => hkind) fun _ _ hkind _ => by rw [hkind]; decide

/-- An integer literal of the language has a value exactly if it is short enough. -/
theorem Token.readInt_eq {token : Token} (hspells : token.kind.Spells token.literal)
    (hkind : token.kind = .int) :
    readInt token.literal =
      if token.literal.length > maxDigits then .error (.tooLong token.literal.length)
      else .ok (decimalValue token.literal) := by
  rw [hkind] at hspells
  exact readInt_of_digits hspells.1 hspells.2

theorem Parses.length_le_maxDigits {source : String} {program : Node} (h : Parses source program)
    {token : Token} (htoken : token ∈ (tokenize source).tokens) (hkind : token.kind = .int) :
    token.literal.length ≤ maxDigits := by
  obtain ⟨statements, rfl, hderives⟩ := parses_iff.mp h
  obtain ⟨value, hvalue⟩ := hderives.readable token htoken hkind
  rw [Token.readInt_eq (spells_of_mem_tokenize htoken) hkind] at hvalue
  split at hvalue
  · cases hvalue
  · next hle => exact Nat.not_lt.mp hle

end Monkey
