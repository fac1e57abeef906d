/-
The integers of the language: results fit into 64 bits, and powers are powers up to the wrap.
-/
import Mathlib.Data.Int.ModEq
import Monkey.Arith

namespace Monkey

theorem wordSize_eq : wordSize = 2 ^ 64 := rfl

theorem wrap_bounds (value : Int) : -2 ^ 63 ≤ wrap value ∧ wrap value < 2 ^ 63 := by
  have hlow := Int.le_bmod (x := value) (m := 2 ^ 64) (by decide)
  have hhigh := Int.bmod_lt (x := value) (m := 2 ^ 64) (by decide)
  rw [wrap, wordSize_eq]
  omega

theorem wrap_emod (value : Int) : wrap (value % wordSize) = wrap value :=
  Int.emod_bmod value wordSize

theorem powerMod_eq (base exponent modulus : Nat) :
    powerMod base exponent modulus = base ^ exponent % modulus := by
  fun_induction powerMod base exponent modulus with
  | case1 base => simp
  | case2 base exponent h half heven ih =>
      have hhalf : exponent = 2 * (exponent / 2) := by omega
      rw [show half = _ from ih, ← Nat.pow_mod]
      conv => rhs; rw [hhalf, Nat.pow_mul, Nat.pow_two]
  | case3 base exponent h half hodd ih =>
      have hhalf : exponent = 2 * (exponent / 2) + 1 := by omega
      rw [show half = _ from ih, ← Nat.pow_mod, Nat.mul_mod_mod]
      conv => rhs; rw [hhalf, Nat.pow_succ, Nat.pow_mul, Nat.pow_two, Nat.mul_comm]

/-- The wrap can wait until the whole power is taken. -/
theorem power?_of_nonneg (base : Int) {exponent : Int} (h : 0 ≤ exponent) :
    power? base exponent = some (wrap (base ^ exponent.toNat)) := by
  have hreduced : ((base % wordSize).toNat : Int) = base % wordSize :=
    Int.toNat_of_nonneg (Int.emod_nonneg base (by decide))
  have hpower : ((powerMod (base % wordSize).toNat exponent.toNat wordSize : Nat) : Int) =
      base ^ exponent.toNat % wordSize := by
    rw [powerMod_eq, Int.natCast_emod, Int.natCast_pow, hreduced]
    exact (Int.mod_modEq base wordSize).pow exponent.toNat
  rw [power?, if_pos h, hpower, wrap_emod]

end Monkey
