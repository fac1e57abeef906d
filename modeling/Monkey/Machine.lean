/-
The machine that programs run on: the store of frames, the source of identities, and what has
been written and warned about.  An action either ends with a result or is stopped by a fault;
the machine is kept in both cases.
-/
import Monkey.Fault
import Monkey.Store

namespace Monkey

/-- What a running program lets the outside see. -/
inductive Event where
  | wrote (line : String)
  | warned (message : String) (token : Option Token)
deriving Repr, DecidableEq

structure Machine where
  store : Store
  /-- The next identity; all in use are below it. -/
  fresh : Nat
  events : Array Event
deriving Repr

/-- The frame in which programs run. -/
def rootFrame : FrameId := 0

/-- A machine whose only frame is an empty root. -/
def Machine.start : Machine :=
  ⟨(Store.empty.open none).2, 0, #[]⟩

abbrev Action (α : Type) := EStateM Fault Machine α

namespace Action

def ofExcept {α : Type} : Except Fault α → Action α
  | .ok value => pure value
  | .error fault => throw fault

def newIdentity : Action Nat :=
  modifyGet fun machine => (machine.fresh, { machine with fresh := machine.fresh + 1 })

def openFrame (outer : Option FrameId) : Action FrameId :=
  modifyGet fun machine =>
    let opened := machine.store.open outer
    (opened.1, { machine with store := opened.2 })

def bindName (id : FrameId) (name : Label) (value : Value) : Action Unit :=
  modify fun machine => { machine with store := machine.store.set id name value }

def lookup (id : FrameId) (name : Label) : Action (Option Value) := do
  return (← get).store.lookup id name

/-- Gives the error of an identity a token, wherever it is held. -/
def locate (identity : Nat) (token : Token) : Action Unit :=
  modify fun machine => { machine with store := machine.store.locate identity token }

def emit (event : Event) : Action Unit :=
  modify fun machine => { machine with events := machine.events.push event }

def newArray (elements : List Value) : Action Value := do
  return .array (← newIdentity) elements

end Action

end Monkey
