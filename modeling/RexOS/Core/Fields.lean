import RexOS.Core.Bits

/-!
# Fields of a word

A word holds a row of fields of `k` bits. Field `j` starts at bit `j * k`; it is read with a shift
and a mask, and written by clearing it and putting in the new value.
-/

namespace Fields

open Bits

variable {k x v i j l : Nat}

/-- A value that fits in a field meets no other field. -/
theorem testBit_shiftLeft (hv : v < 2 ^ k) (hi : i < k) :
    (v <<< (j * k)).testBit (l * k + i) = (decide (l = j) && v.testBit i) := by
  rw [Nat.testBit_shiftLeft]
  rcases Nat.lt_trichotomy l j with hlj | rfl | hlj
  · have hend : (l + 1) * k ≤ j * k := Nat.mul_le_mul_right k hlj
    rw [Nat.succ_mul] at hend
    have hlt : ¬ j * k ≤ l * k + i := by omega
    simp [hlt, hlj.ne]
  · simp
  · have hend : (j + 1) * k ≤ l * k := Nat.mul_le_mul_right k hlj
    rw [Nat.succ_mul] at hend
    have hle : j * k ≤ l * k + i := by omega
    have hk : k ≤ l * k + i - j * k := by omega
    have hbit : v.testBit (l * k + i - j * k) = false :=
      Nat.testBit_lt_two_pow (hv.trans_le (Nat.pow_le_pow_right Nat.two_pos hk))
    simp [hlj.ne', hbit]

/-- What is read of a field. -/
theorem testBit_get :
    (x >>> (j * k) &&& (2 ^ k - 1)).testBit i = (x.testBit (j * k + i) && decide (i < k)) := by
  rw [Nat.testBit_and, Nat.testBit_shiftRight, Nat.testBit_two_pow_sub_one]

/-- Clearing a field leaves the others. -/
theorem testBit_clear (hi : i < k) :
    (andNot x ((2 ^ k - 1) <<< (j * k))).testBit (l * k + i) =
      (!decide (l = j) && x.testBit (l * k + i)) := by
  have hmask : 2 ^ k - 1 < 2 ^ k := Nat.sub_lt (Nat.two_pow_pos k) Nat.one_pos
  rw [testBit_andNot, testBit_shiftLeft hmask hi, Nat.testBit_two_pow_sub_one]
  simp [hi, Bool.and_comm]

/-- So does putting in a new value. -/
theorem testBit_put (hv : v < 2 ^ k) (hi : i < k) :
    (andNot x ((2 ^ k - 1) <<< (j * k)) ||| v <<< (j * k)).testBit (l * k + i) =
      if l = j then v.testBit i else x.testBit (l * k + i) := by
  rw [Nat.testBit_or, testBit_clear hi, testBit_shiftLeft hv hi]
  by_cases h : l = j <;> simp [h]

/-- A value is added to a field. -/
theorem testBit_add (hv : v < 2 ^ k) (hi : i < k) :
    (x ||| v <<< (j * k)).testBit (l * k + i) =
      (x.testBit (l * k + i) || decide (l = j) && v.testBit i) := by
  rw [Nat.testBit_or, testBit_shiftLeft hv hi]

/-! ## Masks -/

/-- Masking with a power of two tests its bit. -/
theorem and_two_pow_eq_zero : x &&& 2 ^ k = 0 ↔ ¬ x.testBit k = true := by
  rw [Nat.and_two_pow]
  cases x.testBit k <;> simp

/-- The bits of one word are among those of another. -/
theorem and_eq_right_iff : x &&& v = v ↔ ∀ i, v.testBit i = true → x.testBit i = true := by
  constructor
  · intro h i hi
    rw [← h, Nat.testBit_and] at hi
    exact (Bool.and_eq_true_iff.mp hi).1
  · intro h
    apply Nat.eq_of_testBit_eq
    intro i
    rw [Nat.testBit_and]
    by_cases hi : v.testBit i = true
    · simp [h i hi, hi]
    · simp [hi]

/-- Masking keeps the low bits. -/
theorem testBit_masked : (x &&& (2 ^ k - 1)).testBit i = true ↔ x.testBit i = true ∧ i < k := by
  rw [Nat.testBit_and, Nat.testBit_two_pow_sub_one, Bool.and_eq_true, decide_eq_true_iff]

end Fields
