/-
Integer literals.  The lexer makes them of plain digits, so reading one gives its decimal value,
and the number of digits is all that reading can complain about.
-/
import Mathlib.Data.List.TakeWhile
import Monkey.Proofs.Lexing.Layout
import Monkey.Text.Number

namespace Monkey

/-- The value of a run of plain digits. -/
def decimalValue (literal : String) : Nat :=
  ofDigits (literal.toList.map fun c => c.toNat - 48)

theorem mem_digits {c : Char} (h : isDigit c = true) :
    c ∈ ['0', '1', '2', '3', '4', '5', '6', '7', '8', '9'] := by
  obtain ⟨hlow, hhigh⟩ := (isDigit_iff c).mp h
  have hvalue : c.toNat = 48 ∨ c.toNat = 49 ∨ c.toNat = 50 ∨ c.toNat = 51 ∨ c.toNat = 52 ∨
      c.toNat = 53 ∨ c.toNat = 54 ∨ c.toNat = 55 ∨ c.toNat = 56 ∨ c.toNat = 57 := by
    omega
  have hofNat : c = Char.ofNat c.toNat := (Char.ofNat_toNat c).symm
  rcases hvalue with h | h | h | h | h | h | h | h | h | h <;> rw [hofNat, h] <;> decide

/-- A plain digit is read at its own value; it is no blank, sign or underscore. -/
theorem digit_facts {c : Char} (h : isDigit c = true) :
    digitValue? c = some (c.toNat - 48) ∧ isNumberBlank c = false ∧ c ≠ '_' ∧ c ≠ '-' ∧
      c ≠ '+' := by
  have hall : ['0', '1', '2', '3', '4', '5', '6', '7', '8', '9'].all (fun c =>
      digitValue? c == some (c.toNat - 48) && !isNumberBlank c && c != '_' && c != '-' &&
        c != '+') = true := by decide
  have hfacts := List.all_eq_true.mp hall c (mem_digits h)
  simpa [and_assoc] using hfacts

theorem separatorsAlone_of_digits {digits : List Char} (h : ∀ c ∈ digits, isDigit c = true) :
    separatorsAlone digits = true := by
  induction digits with
  | nil => rfl
  | cons c rest ih =>
      have hunderscore : c ≠ '_' := (digit_facts (h c (by simp))).2.2.1
      have hrest := ih fun c hc => h c (by simp [hc])
      unfold separatorsAlone
      split <;> simp_all

theorem filterMap_digits {digits : List Char} (h : ∀ c ∈ digits, isDigit c = true) :
    digits.filterMap digitValue? = digits.map fun c => c.toNat - 48 := by
  induction digits with
  | nil => rfl
  | cons c rest ih =>
      rw [List.filterMap_cons, (digit_facts (h c (by simp))).1, List.map_cons,
        ih fun c hc => h c (by simp [hc])]

theorem splitDigits_of_digits {digits : List Char} (hne : digits ≠ [])
    (h : ∀ c ∈ digits, isDigit c = true) :
    splitDigits digits = some (digits.map fun c => c.toNat - 48, []) := by
  have hpart : ∀ c ∈ digits, (c == '_' || (digitValue? c).isSome) = true := by
    intro c hc
    simp [(digit_facts (h c hc)).1]
  have htake := List.takeWhile_eq_self_iff.mpr hpart
  have hdrop := List.dropWhile_eq_nil_iff.mpr hpart
  have hhead : digits.head? ≠ some '_' := by
    intro hhead
    exact (digit_facts (h '_' (List.mem_of_mem_head? hhead))).2.2.1 rfl
  simp [splitDigits, htake, hdrop, hne, hhead, separatorsAlone_of_digits h, filterMap_digits h]

theorem splitSign_of_digits {digits : List Char} (h : ∀ c ∈ digits, isDigit c = true) :
    splitSign digits = (false, digits) := by
  cases digits with
  | nil => rfl
  | cons c rest =>
      obtain ⟨_, _, _, hminus, hplus⟩ := digit_facts (h c (by simp))
      unfold splitSign
      split <;> simp_all

/-- An integer literal is read at its decimal value, unless it has too many digits. -/
theorem readInt_of_digits {literal : String} (hne : literal.toList ≠ [])
    (h : ∀ c ∈ literal.toList, isDigit c = true) :
    readInt literal =
      if literal.toList.length > maxDigits then .error (.tooLong literal.toList.length)
      else .ok (decimalValue literal) := by
  have hblank : literal.toList.dropWhile isNumberBlank = literal.toList := by
    cases hlist : literal.toList with
    | nil => rfl
    | cons c rest => simp [(digit_facts (h c (by simp [hlist]))).2.1]
  simp [readInt, hblank, splitSign_of_digits h, splitDigits_of_digits hne h, decimalValue]

end Monkey
