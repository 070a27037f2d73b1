import Mathlib.Data.Nat.Bitwise

/-!
# Single bits and low masks of natural numbers

Machine words are natural numbers below a power of two. `andNot` is the C idiom
`x & ~m`; on a single bit it clears that bit and on a low mask it rounds down.
Flipping a single bit adds or subtracts its weight.
-/

namespace Bits

/-- The value left in a 64-bit register. -/
def wrap (x : Nat) : Nat := x % 2 ^ 64

/-- `x - y` in a 64-bit register, for operands below `2 ^ 64`. -/
def wrapSub (x y : Nat) : Nat := wrap (x + (2 ^ 64 - y))

/-- What is wrapped is a word. -/
theorem wrap_lt (x : Nat) : wrap x < 2 ^ 64 := Nat.mod_lt _ (by decide)

/-- A word stays as it is. -/
theorem wrap_of_lt {x : Nat} (h : x < 2 ^ 64) : wrap x = x := Nat.mod_eq_of_lt h

/-- Subtraction without a borrow. -/
theorem wrapSub_of_le {x y : Nat} (h : y ≤ x) (hx : x < 2 ^ 64) : wrapSub x y = x - y := by
  unfold wrapSub wrap
  omega

/-- `x & ~m`. -/
def andNot (x m : Nat) : Nat := x ^^^ (x &&& m)

/-- The bits of the mask are cleared. -/
@[simp] theorem testBit_andNot (x m i : Nat) :
    (andNot x m).testBit i = (x.testBit i && !m.testBit i) := by
  rw [andNot, Nat.testBit_xor, Nat.testBit_and]
  cases x.testBit i <;> cases m.testBit i <;> rfl

/-- Clearing the low `k` bits rounds down to a multiple of `2 ^ k`. -/
theorem andNot_mask (x k : Nat) : andNot x (2 ^ k - 1) = x / 2 ^ k * 2 ^ k := by
  apply Nat.eq_of_testBit_eq
  intro i
  rw [testBit_andNot, Nat.testBit_two_pow_sub_one, Nat.testBit_mul_two_pow]
  by_cases h : i < k
  · simp [h, Nat.not_le.mpr h]
  · have hk : k ≤ i := Nat.not_lt.mp h
    simp [h, hk, Nat.testBit_div_two_pow, Nat.sub_add_cancel hk]

/-- Clearing bits makes no number greater. -/
theorem andNot_le (x m : Nat) : andNot x m ≤ x :=
  Nat.le_of_testBit fun i h => (Bool.and_eq_true_iff.mp ((testBit_andNot x m i).symm.trans h)).1

/-- Flipping bit `k` subtracts its weight where it is set and adds it where it is clear. -/
theorem xor_two_pow (x k : Nat) :
    x ^^^ 2 ^ k = if x.testBit k then x - 2 ^ k else x + 2 ^ k := by
  induction k generalizing x with
  | zero =>
    have hd : (x ^^^ 1) / 2 = x / 2 := by rw [Nat.xor_div_two]; simp
    have hm : (x ^^^ 1) % 2 = (x + 1) % 2 := by rw [Nat.xor_mod_two_eq]
    rw [pow_zero, Nat.testBit_zero]
    by_cases hx : x % 2 = 1 <;> simp only [hx, decide_true, decide_false, ite_true] <;> grind
  | succ k ih =>
    have hd : (x ^^^ 2 ^ (k + 1)) / 2 = (x / 2) ^^^ 2 ^ k := by
      rw [Nat.xor_div_two, pow_succ, Nat.mul_div_cancel _ (by decide)]
    have hm : (x ^^^ 2 ^ (k + 1)) % 2 = x % 2 := by
      rw [Nat.xor_mod_two_eq, pow_succ]
      omega
    have hx := ih (x / 2)
    rw [Nat.testBit_succ]
    by_cases hb : (x / 2).testBit k
    · have hle := Nat.ge_two_pow_of_testBit hb
      simp only [hb, ite_true] at hx ⊢
      rw [pow_succ] at hd hm ⊢
      omega
    · simp only [hb, Bool.false_eq_true, ite_false] at hx ⊢
      rw [pow_succ] at hd hm ⊢
      omega

/-- No number is its own buddy. -/
theorem xor_self_ne_two_pow (x k : Nat) : x ^^^ x ≠ 2 ^ k := by
  rw [Nat.xor_self]
  exact (Nat.two_pow_pos k).ne

/-- Clearing bit `k` subtracts its weight where it is set. -/
theorem andNot_two_pow (x k : Nat) :
    andNot x (2 ^ k) = if x.testBit k then x - 2 ^ k else x := by
  rw [andNot]
  by_cases hb : x.testBit k
  · have ha : x &&& 2 ^ k = 2 ^ k := by
      apply Nat.eq_of_testBit_eq
      intro i
      rw [Nat.testBit_and, Nat.testBit_two_pow]
      by_cases hi : k = i
      · subst hi; simp [hb]
      · simp [hi]
    rw [ha, xor_two_pow]
    simp only [hb, ite_true]
  · have ha : x &&& 2 ^ k = 0 := by
      apply Nat.eq_of_testBit_eq
      intro i
      rw [Nat.testBit_and, Nat.testBit_two_pow, Nat.zero_testBit]
      by_cases hi : k = i
      · subst hi; simp [hb]
      · simp [hi]
    simp [ha, hb]

/-- A multiple of `2 ^ k` below its bit `k`: the bit is clear exactly when it is a
multiple of the next power. -/
theorem dvd_succ_iff {x k : Nat} (hx : 2 ^ k ∣ x) :
    2 ^ (k + 1) ∣ x ↔ x.testBit k = false := by
  obtain ⟨q, rfl⟩ := hx
  rw [Nat.mul_comm, Nat.testBit_mul_two_pow]
  simp only [le_refl, Nat.sub_self, decide_true, Bool.true_and, Nat.testBit_zero]
  rw [pow_succ, Nat.mul_comm q, Nat.mul_dvd_mul_iff_left (Nat.two_pow_pos k)]
  simp only [decide_eq_false_iff_not]
  omega

end Bits
