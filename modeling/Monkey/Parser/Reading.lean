/-
What reading a part of a text gives: a value and the parser after it, which never has more
tokens left than a given bound, or a fault and the parser where it arose.
-/
import Monkey.Parser.State

namespace Monkey

inductive Reading (bound : Nat) (α : Type) where
  | done (value : α) (parser : Parser) (left_le : parser.left ≤ bound)
  | failed (fault : Fault) (parser : Parser)

namespace Reading

variable {α β : Type} {m n : Nat}

/-- Goes on after a value, knowing that no more tokens are left than before. -/
def bind (reading : Reading m α) (go : α → (parser : Parser) → parser.left ≤ m → Reading n β) :
    Reading n β :=
  match reading with
  | .done value parser left_le => go value parser left_le
  | .failed fault parser => .failed fault parser

def weaken (h : m ≤ n) : Reading m α → Reading n α
  | .done value parser left_le => .done value parser (Nat.le_trans left_le h)
  | .failed fault parser => .failed fault parser

def map (f : α → β) : Reading n α → Reading n β
  | .done value parser left_le => .done (f value) parser left_le
  | .failed fault parser => .failed fault parser

def after : Reading n α → Parser
  | .done _ parser _ | .failed _ parser => parser

def toExcept : Reading n α → Except Fault α
  | .done value _ _ => .ok value
  | .failed fault _ => .error fault

@[simp] theorem bind_done {value : α} {parser : Parser} {left_le : parser.left ≤ m}
    {go : α → (parser : Parser) → parser.left ≤ m → Reading n β} :
    (done value parser left_le).bind go = go value parser left_le := rfl

@[simp] theorem bind_failed {fault : Fault} {parser : Parser}
    {go : α → (parser : Parser) → parser.left ≤ m → Reading n β} :
    (Reading.failed fault parser : Reading m α).bind go = .failed fault parser := rfl

end Reading

end Monkey
