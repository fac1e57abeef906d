/-
The tokens of a text that its tree keeps.  Semicolons, the parentheses around an expression and
a comma before a closing brace are passed over; which parentheses these are can be told from the
tokens alone.
-/
import Monkey.Proofs.Rendering.Links

namespace Monkey

/-- A token that is kept.  The lead is the first of the grouping parentheses that open just before
it, or the token itself. -/
structure Kept where
  lead : Token
  token : Token
deriving Repr, DecidableEq

/-- What the tokens so far say about those to come: the last of them, for each parenthesis that is
open whether it groups, and the first of the grouping ones that opened after the last token
kept. -/
structure Sieve where
  last : Option Token
  opened : List Bool
  lead : Option Token

namespace Sieve

def start : Sieve :=
  ⟨none, [], none⟩

/-- A parenthesis groups unless it belongs to an if or a function, or is applied to the
expression before it. -/
def groups (sieve : Sieve) (token : Token) : Bool :=
  token.kind == .lparen && sieve.last.all fun last =>
    last.kind != .ifWord && last.kind != .fnWord && !last.joins token

/-- The token is passed over when the other one comes after it. -/
def drops (sieve : Sieve) (token : Token) (next : Option Token) : Bool :=
  match token.kind with
  | .semicolon => true
  | .comma => next.any (·.kind == .rbrace)
  | .lparen => sieve.groups token
  | .rparen => sieve.opened.headD false
  | _ => false

def pass (sieve : Sieve) (token : Token) : Sieve where
  last := some token
  opened :=
    match token.kind with
    | .lparen => sieve.groups token :: sieve.opened
    | .rparen => sieve.opened.tail
    | _ => sieve.opened
  lead := if sieve.groups token then some (sieve.lead.getD token) else none

def passAll (sieve : Sieve) (tokens : List Token) : Sieve :=
  tokens.foldl pass sieve

def keep (sieve : Sieve) (token : Token) (next : Option Token) : List Kept :=
  if sieve.drops token next then [] else [⟨sieve.lead.getD token, token⟩]

/-- The tokens that are kept. -/
def sift (sieve : Sieve) : List Token → List Kept
  | [] => []
  | token :: rest => sieve.keep token rest.head? ++ (sieve.pass token).sift rest

end Sieve

/-- The tokens of a text that its tree keeps. -/
def significant (tokens : List Token) : List Kept :=
  Sieve.start.sift tokens

namespace Sieve

variable {sieve : Sieve} {token last first : Token} {next next' : Option Token}
  {tokens rest : List Token}

/-! ### Passing tokens -/

@[simp] theorem passAll_nil (sieve : Sieve) : sieve.passAll [] = sieve := rfl

@[simp] theorem passAll_cons (sieve : Sieve) (token : Token) (tokens : List Token) :
    sieve.passAll (token :: tokens) = (sieve.pass token).passAll tokens := rfl

theorem passAll_append (sieve : Sieve) (tokens rest : List Token) :
    sieve.passAll (tokens ++ rest) = (sieve.passAll tokens).passAll rest := by
  simp [passAll]

theorem passAll_concat (sieve : Sieve) (tokens : List Token) (last : Token) :
    sieve.passAll (tokens ++ [last]) = (sieve.passAll tokens).pass last := by
  simp [passAll]

@[simp] theorem last_pass (sieve : Sieve) (token : Token) :
    (sieve.pass token).last = some token := rfl

theorem not_groups_of_kind (h : token.kind ≠ .lparen) : sieve.groups token = false := by
  simp [groups, h]

theorem lead_pass (h : sieve.groups token = false) : (sieve.pass token).lead = none := by
  simp [pass, h]

theorem lead_pass_of_groups (h : sieve.groups token = true) :
    (sieve.pass token).lead = some (sieve.lead.getD token) := by
  simp [pass, h]

theorem opened_pass (hopen : token.kind ≠ .lparen) (hclose : token.kind ≠ .rparen) :
    (sieve.pass token).opened = sieve.opened := by
  simp only [pass]

theorem opened_pass_lparen (sieve : Sieve) (h : token.kind = .lparen) :
    (sieve.pass token).opened = sieve.groups token :: sieve.opened := by
  simp [pass, h]

theorem opened_pass_rparen (h : token.kind = .rparen) :
    (sieve.pass token).opened = sieve.opened.tail := by
  simp [pass, h]

/-! ### Parentheses that group -/

/-- An expression can start with the token: if it is a parenthesis, it groups. -/
def Admits (sieve : Sieve) (first : Token) : Prop :=
  first.kind = .lparen → sieve.groups first = true

theorem admits_start (first : Token) : start.Admits first := by
  intro hkind
  simp [groups, start, hkind]

/-- After a token that no parenthesis is applied to or belongs to. -/
theorem admits_of_last (hlast : sieve.last = some last)
    (hkind : last.kind ≠ .ifWord ∧ last.kind ≠ .fnWord) (hjoins : last.joins first = false) :
    sieve.Admits first := by
  intro hopen
  simp [groups, hopen, hlast, hkind, hjoins]

theorem admits_pass
    (hkind : token.kind ≠ .ifWord ∧ token.kind ≠ .fnWord ∧ token.kind ∉ Kind.closers)
    (first : Token) : (sieve.pass token).Admits first := by
  apply admits_of_last (last_pass sieve token) ⟨hkind.1, hkind.2.1⟩
  simp [Token.joins, hkind.2.2]

/-- An expression can start with the first of the tokens. -/
def Ready (sieve : Sieve) (tokens : List Token) : Prop :=
  ∀ first ∈ tokens.head?, sieve.Admits first

theorem ready_pass
    (hkind : token.kind ≠ .ifWord ∧ token.kind ≠ .fnWord ∧ token.kind ∉ Kind.closers)
    (tokens : List Token) : (sieve.pass token).Ready tokens :=
  fun first _ => admits_pass hkind first

theorem not_groups_of_last (hlast : sieve.last = some last)
    (h : last.kind = .ifWord ∨ last.kind = .fnWord ∨ last.joins token = true) :
    sieve.groups token = false := by
  rcases h with h | h | h <;> simp [groups, hlast, h]

/-! ### Sifting -/

theorem keep_of_drops (h : sieve.drops token next = true) : sieve.keep token next = [] := by
  simp [keep, h]

theorem keep_of_not_drops (h : sieve.drops token next = false) :
    sieve.keep token next = [⟨sieve.lead.getD token, token⟩] := by
  simp [keep, h]

/-- Only a comma is kept or not for what comes after it. -/
theorem keep_congr (h : token.kind ≠ .comma) : sieve.keep token next = sieve.keep token next' := by
  have hdrops : sieve.drops token next = sieve.drops token next' := by
    unfold drops
    split <;> first | rfl | exact absurd ‹_› h
  simp only [keep, hdrops]

theorem sift_append (sieve : Sieve) {tokens : List Token} (rest : List Token)
    (h : ∀ last ∈ tokens.getLast?, last.kind ≠ .comma) :
    sieve.sift (tokens ++ rest) = sieve.sift tokens ++ (sieve.passAll tokens).sift rest := by
  induction tokens generalizing sieve with
  | nil => rfl
  | cons token tokens ih =>
      have hkeep : sieve.keep token (tokens ++ rest).head? = sieve.keep token tokens.head? := by
        cases tokens with
        | nil => exact keep_congr (h token rfl)
        | cons second tokens => rfl
      have hrest : ∀ last ∈ tokens.getLast?, last.kind ≠ .comma := by
        intro last hlast
        cases tokens with
        | nil => cases hlast
        | cons second tokens => exact h last hlast
      rw [List.cons_append, sift, sift, hkeep, ih (sieve.pass token) hrest, List.append_assoc,
        passAll_cons]

end Sieve

end Monkey
