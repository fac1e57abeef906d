/-
Decoding of UTF-8.  A fault says where the first bad sequence starts, how many bytes of it were
still acceptable, and what is wrong with it.
-/
import Monkey.Text.Quoted

namespace Monkey

inductive Utf8Reason where
  | invalidStart
  | invalidContinuation
  | truncated
deriving Repr, DecidableEq

def Utf8Reason.text : Utf8Reason → String
  | .invalidStart => "invalid start byte"
  | .invalidContinuation => "invalid continuation byte"
  | .truncated => "unexpected end of data"

structure Utf8Fault where
  reason : Utf8Reason
  position : Nat
  size : Nat
  first : UInt8
deriving Repr, DecidableEq

def Utf8Fault.message (fault : Utf8Fault) : String :=
  let place :=
    if fault.size = 1 then s!"byte 0x{hexDigits 2 fault.first.toNat} in position {fault.position}"
    else s!"bytes in position {fault.position}-{fault.position + fault.size - 1}"
  "'utf-8' codec can't decode " ++ place ++ ": " ++ fault.reason.text

def isContinuation (byte : UInt8) : Bool :=
  0x80 ≤ byte && byte < 0xC0

/-- The second byte of a longer sequence: overlong forms, surrogates and code points beyond the
last one are refused here. -/
def isSecond (first second : UInt8) : Bool :=
  isContinuation second
    && !(first == 0xE0 && second < 0xA0) && !(first == 0xED && second ≥ 0xA0)
    && !(first == 0xF0 && second < 0x90) && !(first == 0xF4 && second ≥ 0x90)

/-- The payload bits of a continuation byte behind those already read. -/
def addBits (code : Nat) (byte : UInt8) : Nat :=
  code * 64 + byte.toNat % 64

/-- The characters of a byte sequence that starts at a position. -/
def decodeUtf8From (position : Nat) : List UInt8 → Except Utf8Fault (List Char)
  | [] => .ok []
  | first :: rest =>
      let fault (reason : Utf8Reason) (size : Nat) : Except Utf8Fault (List Char) :=
        .error ⟨reason, position, size, first⟩
      if first < 0x80 then
        (decodeUtf8From (position + 1) rest).map (Char.ofNat first.toNat :: ·)
      else if first < 0xC2 || first ≥ 0xF5 then fault .invalidStart 1
      else match rest with
        | [] => fault .truncated 1
        | second :: rest =>
            if !isSecond first second then fault .invalidContinuation 1
            else if first < 0xE0 then
              (decodeUtf8From (position + 2) rest).map
                (Char.ofNat (addBits (first.toNat % 32) second) :: ·)
            else match rest with
              | [] => fault .truncated 2
              | third :: rest =>
                  if !isContinuation third then fault .invalidContinuation 2
                  else if first < 0xF0 then
                    (decodeUtf8From (position + 3) rest).map
                      (Char.ofNat (addBits (addBits (first.toNat % 16) second) third) :: ·)
                  else match rest with
                    | [] => fault .truncated 3
                    | fourth :: rest =>
                        if !isContinuation fourth then fault .invalidContinuation 3
                        else
                          (decodeUtf8From (position + 4) rest).map
                            (Char.ofNat (addBits (addBits (addBits (first.toNat % 8) second) third)
                              fourth) :: ·)

def decodeUtf8 (bytes : List UInt8) : Except Utf8Fault (List Char) :=
  decodeUtf8From 0 bytes

example : decodeUtf8 [0x22, 0xF0, 0x9F, 0x98, 0x80] = .ok ['"', '😀'] := by rfl

example : decodeUtf8 [0x61, 0xE2, 0x9C] = .error ⟨.truncated, 1, 2, 0xE2⟩ := by rfl

end Monkey
