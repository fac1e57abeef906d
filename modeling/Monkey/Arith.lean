/-
Integer arithmetic of the language.  Values are the integers of 64 bits with a sign; results are
exact up to a final wrap.
-/

namespace Monkey

/-- The number of integers of 64 bits, 2 ^ 64. -/
def wordSize : Nat := 0x10000000000000000

/-- The representative of an integer modulo 2 ^ 64 that fits into 64 bits with a sign. -/
def wrap (value : Int) : Int :=
  value.bmod wordSize

/-- The exact quotient rounded toward zero, which is the quotient of the absolute values, negative
if just one of the numbers is; there is none by zero. -/
def divide? (left right : Int) : Option Int :=
  if right = 0 then none
  else
    let quotient : Int := left.natAbs / right.natAbs
    some (if left < 0 ↔ right < 0 then quotient else -quotient)

/-- A power modulo a number, by repeated squaring. -/
def powerMod (base exponent modulus : Nat) : Nat :=
  if _ : exponent = 0 then 1 % modulus
  else
    let half := powerMod (base * base % modulus) (exponent / 2) modulus
    if exponent % 2 = 0 then half else base * half % modulus

/-- The wrapped power.  A negative exponent gives the real result rounded toward zero, which
exists unless the base is zero. -/
def power? (base exponent : Int) : Option Int :=
  if 0 ≤ exponent then
    some (wrap (powerMod (base % wordSize).toNat exponent.toNat wordSize))
  else if base = 0 then none
  else if base = 1 then some 1
  else if base = -1 then some (if exponent % 2 = 0 then 1 else -1)
  else some 0

end Monkey
