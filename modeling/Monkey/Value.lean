/-
Runtime values.  Two kinds are signals rather than values of the language: a returned value,
which ends the enclosing blocks, and an error, which ends the program.  Integers, strings and
errors are equal by content; arrays, hashes, functions and returned values carry an identity and
are equal only to themselves.  Nothing but the token of an error ever changes.
-/
import Monkey.Syntax.Render

namespace Monkey

inductive Builtin where
  | puts | toStr | len | first | last | rest | push
deriving Repr, DecidableEq

def Builtin.all : List Builtin :=
  [.puts, .toStr, .len, .first, .last, .rest, .push]

theorem Builtin.mem_all (builtin : Builtin) : builtin ∈ Builtin.all := by
  cases builtin <;> decide

def Builtin.name : Builtin → String
  | .puts => "puts"
  | .toStr => "toStr"
  | .len => "len"
  | .first => "first"
  | .last => "last"
  | .rest => "rest"
  | .push => "push"

def Builtin.ofName? (name : String) : Option Builtin :=
  Builtin.all.find? fun builtin => builtin.name == name

/-- A value that can be the key of a hash. -/
inductive Key where
  | int (value : Int)
  | bool (value : Bool)
  | string (value : String)
deriving Repr, DecidableEq

/-- The position of an environment frame in the store. -/
abbrev FrameId := Nat

inductive Value where
  | nil
  | int (value : Int)
  | bool (value : Bool)
  | string (value : String)
  | array (identity : Nat) (elements : List Value)
  | hash (identity : Nat) (entries : List (Key × Value))
  | function (identity : Nat) (parameters : List Node) (body : Node) (frame : FrameId)
  | builtin (builtin : Builtin)
  | returned (identity : Nat) (value : Value)
  /-- An error that something holds is shared by all that hold it, and so it has an identity. -/
  | error (message : String) (token : Option Token) (identity : Option Nat)
deriving Repr, Inhabited

def Key.value : Key → Value
  | .int value => .int value
  | .bool value => .bool value
  | .string value => .string value

/-- The key that a value is, if it can be one. -/
def Value.key? : Value → Option Key
  | .int value => some (.int value)
  | .bool value => some (.bool value)
  | .string value => some (.string value)
  | _ => none

theorem Value.key?_eq_some {value : Value} {key : Key} :
    value.key? = some key ↔ value = key.value := by
  cases value <;> cases key <;> simp [Value.key?, Key.value]

/-- The name of the type of a value in error messages. -/
def Value.typeName : Value → String
  | .nil => "NIL"
  | .int _ => "INTEGER"
  | .bool _ => "BOOLEAN"
  | .string _ => "STRING"
  | .array .. => "ARRAY"
  | .hash .. => "HASH"
  | .function .. => "FUNCTION"
  | .builtin _ => "BUILTIN"
  | .returned .. => "RETURN_VALUE"
  | .error .. => "ERROR"

def Value.isError : Value → Bool
  | .error .. => true
  | _ => false

/-- The values that end a block. -/
def Value.isSignal : Value → Bool
  | .error .. | .returned .. => true
  | _ => false

/-- False and zero are false; everything else is true. -/
def Value.isTruthy : Value → Bool
  | .bool value => value
  | .int value => value != 0
  | _ => true

/-- Equality by content where there is content, and by identity otherwise. -/
def Value.equal : Value → Value → Bool
  | .nil, .nil => true
  | .int left, .int right => left == right
  | .bool left, .bool right => left == right
  | .string left, .string right => left == right
  | .builtin left, .builtin right => left == right
  | .array left _, .array right _ => left == right
  | .hash left _, .hash right _ => left == right
  | .function left _ _ _, .function right _ _ _ => left == right
  | .returned left _, .returned right _ => left == right
  | .error left _ _, .error right _ _ => left == right
  | _, _ => false

def Key.display : Key → String
  | .int value => toString value
  | .bool value => if value then "true" else "false"
  | .string value => value

mutual

/-- The form in which a value is shown to the user. -/
def Value.display : Value → String
  | .nil => "nil"
  | .int value => toString value
  | .bool value => if value then "true" else "false"
  | .string value => value
  | .array _ elements => "[" ++ displayList elements ++ "]"
  | .hash _ entries => "\x7b" ++ displayEntries entries ++ "\x7d"
  | .function _ parameters body _ => "fn(" ++ renderList parameters ++ ") " ++ body.render
  | .builtin _ => "builtin function"
  | .returned _ value => value.display
  | .error message _ _ => message

/-- Values separated by commas. -/
def displayList : List Value → String
  | [] => ""
  | [value] => value.display
  | value :: rest => value.display ++ ", " ++ displayList rest

def displayEntries : List (Key × Value) → String
  | [] => ""
  | [(key, value)] => key.display ++ ": " ++ value.display
  | (key, value) :: rest =>
      key.display ++ ": " ++ value.display ++ ", " ++ displayEntries rest

end

mutual

/-- The value once the error of an identity has a token. -/
def Value.locate (identity : Nat) (token : Token) : Value → Value
  | .array identity' elements => .array identity' (locateAll identity token elements)
  | .hash identity' entries => .hash identity' (locateEntries identity token entries)
  | .returned identity' value => .returned identity' (value.locate identity token)
  | .error message token' identity' =>
      if identity' = some identity then .error message (some token) identity'
      else .error message token' identity'
  | value => value

def locateAll (identity : Nat) (token : Token) : List Value → List Value
  | [] => []
  | value :: rest => value.locate identity token :: locateAll identity token rest

def locateEntries (identity : Nat) (token : Token) : List (Key × Value) → List (Key × Value)
  | [] => []
  | (key, value) :: rest =>
      (key, value.locate identity token) :: locateEntries identity token rest

end

/-- The class of a value. -/
def Value.className : Value → String
  | .nil => "NoneType"
  | .int _ => "Integer"
  | .bool _ => "Boolean"
  | .string _ => "String"
  | .array .. => "Array"
  | .hash .. => "Hash"
  | .function .. => "Function"
  | .builtin _ => "BuiltIn"
  | .returned .. => "ReturnValue"
  | .error .. => "Error"

/-- A value as its class around its quoted display form. -/
def Value.describe (value : Value) : String :=
  value.className ++ "(" ++ quote value.display ++ ")"

/-- The entries after a value is stored under a key: a known key keeps its place. -/
def insertEntry (key : Key) (value : Value) : List (Key × Value) → List (Key × Value)
  | [] => [(key, value)]
  | (key', value') :: rest =>
      if key' = key then (key, value) :: rest else (key', value') :: insertEntry key value rest

theorem lookup_insertEntry (key key' : Key) (value : Value) (entries : List (Key × Value)) :
    (insertEntry key value entries).lookup key' =
      if key' = key then some value else entries.lookup key' := by
  induction entries with
  | nil =>
      by_cases h : key' = key
      · simp [insertEntry, h]
      · simp [insertEntry, h, List.lookup_cons, beq_false_of_ne h]
  | cons entry rest ih =>
      obtain ⟨key₀, value₀⟩ := entry
      by_cases h₀ : key₀ = key
      · subst h₀
        by_cases h : key' = key₀
        · simp [insertEntry, h]
        · simp [insertEntry, h, List.lookup_cons, beq_false_of_ne h]
      · by_cases h : key' = key₀
        · subst h
          simp [insertEntry, h₀]
        · simp [insertEntry, h₀, List.lookup_cons, beq_false_of_ne h, ih]

end Monkey
