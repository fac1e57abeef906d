/-
Quotients and powers.  Division and powers are computed from absolute values, by repeated squaring
and case by case; what they give is the exact rational result, rounded toward zero and then
wrapped.
-/
import Mathlib.Algebra.Order.Field.Power
import Mathlib.Algebra.Order.Field.Rat
import Mathlib.Algebra.Ring.Int.Parity
import Mathlib.Data.Rat.Floor
import Mathlib.Tactic.Linarith
import Monkey.Proofs.Running.Wrapping

namespace Monkey

/-! ### Rounding toward zero -/

def truncate (q : ℚ) : ℤ :=
  if 0 ≤ q then ⌊q⌋ else ⌈q⌉

theorem truncate_neg (q : ℚ) : truncate (-q) = -truncate q := by
  unfold truncate
  rcases lt_trichotomy q 0 with hneg | rfl | hpos
  · rw [if_pos (by linarith), if_neg (not_le.mpr hneg), Int.floor_neg]
  · simp
  · rw [if_neg (by linarith), if_pos hpos.le, Int.ceil_neg]

theorem truncate_intCast (n : ℤ) : truncate n = n := by
  unfold truncate
  split
  · exact Int.floor_intCast n
  · exact Int.ceil_intCast n

theorem truncate_natCast_div (m n : ℕ) : truncate (m / n) = m / n := by
  have hpos : (0 : ℚ) ≤ m / n := by positivity
  rw [truncate, if_pos hpos, Rat.floor_natCast_div_natCast]

/-- What is nearer to zero than one is rounded to zero. -/
theorem truncate_of_abs_lt_one {q : ℚ} (h : |q| < 1) : truncate q = 0 := by
  obtain ⟨hlow, hhigh⟩ := abs_lt.mp h
  unfold truncate
  split
  · next hpos => exact Int.floor_eq_zero_iff.mpr ⟨hpos, hhigh⟩
  · next hneg => exact Int.ceil_eq_zero_iff.mpr ⟨hlow, (not_le.mp hneg).le⟩

/-! ### Quotients -/

/-- The quotient of absolute values, with the sign of the exact quotient. -/
theorem truncate_div (left right : ℤ) : truncate (left / right) =
    if left < 0 ↔ right < 0 then (left.natAbs / right.natAbs : ℤ)
    else -(left.natAbs / right.natAbs : ℤ) := by
  have hleft : (left.natAbs : ℚ) = |(left : ℚ)| := by rw [Nat.cast_natAbs, Int.cast_abs]
  have hright : (right.natAbs : ℚ) = |(right : ℚ)| := by rw [Nat.cast_natAbs, Int.cast_abs]
  rw [← truncate_natCast_div, ← truncate_neg, hleft, hright]
  by_cases hl : left < 0
  · have hl' : (left : ℚ) < 0 := Int.cast_lt_zero.mpr hl
    by_cases hr : right < 0
    · have hr' : (right : ℚ) < 0 := Int.cast_lt_zero.mpr hr
      rw [if_pos (iff_of_true hl hr), abs_of_neg hl', abs_of_neg hr', neg_div_neg_eq]
    · have hr' : (0 : ℚ) ≤ right := Int.cast_nonneg (not_lt.mp hr)
      rw [if_neg (by tauto), abs_of_neg hl', abs_of_nonneg hr', neg_div, neg_neg]
  · have hl' : (0 : ℚ) ≤ left := Int.cast_nonneg (not_lt.mp hl)
    by_cases hr : right < 0
    · have hr' : (right : ℚ) < 0 := Int.cast_lt_zero.mpr hr
      rw [if_neg (by tauto), abs_of_nonneg hl', abs_of_neg hr', div_neg, neg_neg]
    · have hr' : (0 : ℚ) ≤ right := Int.cast_nonneg (not_lt.mp hr)
      rw [if_pos (iff_of_false hl hr), abs_of_nonneg hl', abs_of_nonneg hr']

theorem divide?_eq {left right : ℤ} (h : right ≠ 0) :
    divide? left right = some (truncate (left / right)) := by
  rw [divide?, if_neg h, truncate_div]

/-- Only one quotient of integers of 64 bits does not fit into 64 bits. -/
theorem wrap_truncate_div_eq_iff {left right : ℤ} (hlow : minInteger ≤ left)
    (hhigh : left ≤ maxInteger) (h : right ≠ 0) :
    wrap (truncate (left / right)) = truncate (left / right) ↔
      ¬(left = minInteger ∧ right = -1) := by
  constructor
  · rintro heq ⟨rfl, rfl⟩
    have hquotient : (minInteger : ℚ) / (-1 : ℤ) = (-minInteger : ℤ) := by
      rw [Int.cast_neg, Int.cast_neg, Int.cast_one, div_neg, div_one]
    rw [hquotient, truncate_intCast] at heq
    exact absurd heq (by decide)
  · intro hne
    have hquotient : left.natAbs / right.natAbs ≤ left.natAbs :=
      Nat.div_le_self left.natAbs right.natAbs
    -- The quotient can be as large as 2 ^ 63 only if it is of that number by 1 or -1.
    have hone : right.natAbs ≠ 1 → left.natAbs / right.natAbs ≤ left.natAbs / 2 := by
      intro hone
      exact Nat.div_le_div_left (by omega) (by decide)
    rw [truncate_div, ← Int.natCast_ediv]
    generalize left.natAbs / right.natAbs = quotient at hquotient hone
    simp only [minInteger, maxInteger] at hlow hhigh hne
    apply wrap_of_bounds
    · simp only [minInteger]
      split <;> omega
    · simp only [maxInteger]
      split <;> omega

/-! ### Powers -/

theorem power?_eq {base exponent : ℤ} (h : ¬(base = 0 ∧ exponent < 0)) :
    power? base exponent = some (wrap (truncate ((base : ℚ) ^ exponent))) := by
  by_cases hexponent : 0 ≤ exponent
  · rw [power?_of_nonneg base hexponent]
    have hpower : (base : ℚ) ^ exponent = ((base ^ exponent.toNat : ℤ) : ℚ) := by
      rw [Int.cast_pow, ← zpow_natCast, Int.toNat_of_nonneg hexponent]
    rw [hpower, truncate_intCast]
  · have hneg : exponent < 0 := not_le.mp hexponent
    have hzero : base ≠ 0 := fun hzero => h ⟨hzero, hneg⟩
    rw [power?, if_neg hexponent, if_neg hzero]
    by_cases hone : base = 1
    · rw [if_pos hone, hone, Int.cast_one, one_zpow]
      rfl
    by_cases hminus : base = -1
    · have hparity : Even exponent ↔ exponent % 2 = 0 := Int.even_iff
      rw [if_neg hone, if_pos hminus, hminus, Int.cast_neg, Int.cast_one, neg_one_zpow_eq_ite]
      simp only [hparity]
      split <;> rfl
    · have hbase : (1 : ℚ) < |(base : ℚ)| := by
        rw [← Int.cast_abs]
        exact_mod_cast (lt_abs.mpr (by omega) : 1 < |base|)
      have hsmall : |(base : ℚ) ^ exponent| < 1 := by
        rw [abs_zpow]
        exact zpow_lt_one_of_neg₀ hbase hneg
      rw [if_neg hone, if_neg hminus, truncate_of_abs_lt_one hsmall]
      rfl

theorem power?_eq_none_iff (base exponent : ℤ) :
    power? base exponent = none ↔ base = 0 ∧ exponent < 0 := by
  constructor
  · intro hnone
    by_contra h
    rw [power?_eq h] at hnone
    cases hnone
  · rintro ⟨rfl, hneg⟩
    rw [power?, if_neg (not_le.mpr hneg), if_pos rfl]

/-- Division by zero, and a negative power of zero, which is the same, are errors.  Every other
quotient and power is the exact one, rounded toward zero and wrapped.  Of the quotients of integers
of 64 bits only that of the least one by -1 is changed by the wrap, which gives the least one
again. -/
theorem quotients_and_powers_exact (token : Option Token) (left right : ℤ) :
    evalInfix token "/" (.int left) (.int right) =
        (if right = 0 then .error "division by zero" token none
          else .int (wrap (truncate (left / right)))) ∧
      (minInteger ≤ left → left ≤ maxInteger → right ≠ 0 →
        (wrap (truncate (left / right)) = truncate (left / right) ↔
          ¬(left = minInteger ∧ right = -1))) ∧
      evalInfix token "/" (.int minInteger) (.int (-1)) = .int minInteger ∧
      (power? left right = none ↔ left = 0 ∧ right < 0) ∧
      (¬(left = 0 ∧ right < 0) →
        power? left right = some (wrap (truncate ((left : ℚ) ^ right)))) ∧
      evalInfix token "^" (.int left) (.int right) =
        (if left = 0 ∧ right < 0 then .error "division by zero" token none
          else .int (wrap (truncate ((left : ℚ) ^ right)))) := by
  refine ⟨?_, fun hlow hhigh h => wrap_truncate_div_eq_iff hlow hhigh h, rfl,
    power?_eq_none_iff left right, power?_eq, ?_⟩
  · by_cases hzero : right = 0
    · rw [if_pos hzero, hzero]
      rfl
    · rw [if_neg hzero]
      simp only [evalInfix, applyInfix, applyIntInfix, divide?_eq hzero, settle]
  · by_cases hnone : left = 0 ∧ right < 0
    · rw [if_pos hnone]
      simp only [evalInfix, applyInfix, applyIntInfix, (power?_eq_none_iff left right).mpr hnone]
      rfl
    · rw [if_neg hnone]
      simp only [evalInfix, applyInfix, applyIntInfix, power?_eq hnone, settle]

/-- The quotient -7/2 is rounded to -3, and the power 1/49 to 0. -/
theorem quotients_and_powers_exact_negative :
    (minInteger ≤ 7 ∧ 7 ≤ maxInteger ∧ (-2 : ℤ) ≠ 0 ∧ ¬((7 : ℤ) = 0 ∧ (-2 : ℤ) < 0)) ∧
      evalInfix none "/" (.int 7) (.int (-2)) = .int (wrap (truncate ((7 : ℤ) / (-2 : ℤ)))) ∧
      wrap (truncate ((7 : ℤ) / (-2 : ℤ))) = -3 ∧ power? 7 (-2) = some 0 := by
  obtain ⟨hquotient, hexact, _, _, hpower, _⟩ := quotients_and_powers_exact none 7 (-2)
  have hwrap := (hexact (by decide) (by decide) (by decide)).mpr (by decide)
  have htruncate : truncate ((7 : ℤ) / (-2 : ℤ)) = -3 := by rw [truncate_div]; rfl
  have hsmall : truncate (((7 : ℤ) : ℚ) ^ (-2 : ℤ)) = 0 :=
    truncate_of_abs_lt_one (by norm_num)
  refine ⟨by decide, hquotient, hwrap.trans htruncate, (hpower (by decide)).trans ?_⟩
  rw [hsmall]
  rfl

end Monkey
