import Mathlib.Data.Nat.Periodic

/-!
# Loops that count up

A loop that counts up while a test holds ends with the first number for which it does not. Where the
test is periodic, it ends within the first period or not at all.
-/

/-- Count up from a number while `p` holds, for at most `fuel` rounds. -/
def countUp (p : Nat → Bool) : (fuel n : Nat) → Option Nat
  | 0, _ => none
  | fuel + 1, n => if p n then countUp p fuel (n + 1) else some n

section CountUp

variable {p : Nat → Bool} {fuel n k m : Nat}

/-- The count stops at the first number without the property. -/
theorem countUp_eq_some : countUp p fuel n = some k ↔
    n ≤ k ∧ k < n + fuel ∧ p k = false ∧ ∀ j, n ≤ j → j < k → p j = true := by
  induction fuel generalizing n with
  | zero =>
    rw [countUp]
    exact iff_of_false (by simp) (by omega)
  | succ fuel ih =>
    rw [countUp]
    by_cases hn : p n = true
    · rw [if_pos hn, ih]
      constructor
      · rintro ⟨hle, hk, hstop, hlow⟩
        refine ⟨by omega, by omega, hstop, fun j hj hjk => ?_⟩
        rcases Nat.eq_or_lt_of_le hj with rfl | hj
        · exact hn
        · exact hlow j hj hjk
      · rintro ⟨hle, hk, hstop, hlow⟩
        have hne : n ≠ k := by
          rintro rfl
          rw [hn] at hstop
          exact absurd hstop (by decide)
        exact ⟨by omega, by omega, hstop, fun j hj hjk => hlow j (by omega) hjk⟩
    · rw [if_neg hn, Option.some.injEq]
      constructor
      · rintro rfl
        exact ⟨le_rfl, by omega, by simpa using hn, fun j hj hjk => by omega⟩
      · rintro ⟨hle, hk, hstop, hlow⟩
        by_contra hne
        exact hn (hlow n le_rfl (by omega))

/-- The number that the loop ends with if it ends. -/
theorem exists_countUp : (∃ fuel, countUp p fuel 0 = some k) ↔ p k = false ∧ ∀ j < k,
    p j = true := by
  constructor
  · rintro ⟨fuel, h⟩
    obtain ⟨-, -, hstop, hlow⟩ := countUp_eq_some.mp h
    exact ⟨hstop, fun j hj => hlow j (Nat.zero_le j) hj⟩
  · rintro ⟨hstop, hlow⟩
    exact ⟨k + 1, countUp_eq_some.mpr ⟨Nat.zero_le k, by omega, hstop, fun j _ hj => hlow j hj⟩⟩

/-- It ends in the first period. -/
theorem countUp_lt_period (hper : Function.Periodic p m) (hm : 0 < m)
    (h : countUp p fuel 0 = some k) :
    k < m := by
  obtain ⟨-, -, hstop, hlow⟩ := countUp_eq_some.mp h
  by_contra hge
  have hmod : k % m < m := Nat.mod_lt k hm
  have hearlier := hlow (k % m) (Nat.zero_le _) (by omega)
  rw [hper.map_mod_nat, hstop] at hearlier
  exact absurd hearlier (by decide)

/-- One period of rounds is enough. -/
theorem countUp_period (hper : Function.Periodic p m) (hm : 0 < m) :
    countUp p m 0 = some k ↔ ∃ fuel, countUp p fuel 0 = some k := by
  refine ⟨fun h => ⟨m, h⟩, ?_⟩
  rintro ⟨fuel, h⟩
  have hlt := countUp_lt_period hper hm h
  obtain ⟨hle, -, hrest⟩ := countUp_eq_some.mp h
  exact countUp_eq_some.mpr ⟨hle, by omega, hrest⟩

/-- The loop ends if and only if the test fails somewhere in the first period. -/
theorem countUp_ends (hper : Function.Periodic p m) (hm : 0 < m) :
    (∃ fuel k, countUp p fuel 0 = some k) ↔ ∃ k < m, p k = false := by
  constructor
  · rintro ⟨fuel, k, h⟩
    exact ⟨k, countUp_lt_period hper hm h, (countUp_eq_some.mp h).2.2.1⟩
  · rintro ⟨k, -, hstop⟩
    have hex : ∃ k, p k = false := ⟨k, hstop⟩
    obtain ⟨fuel, h⟩ := exists_countUp.mpr ⟨Nat.find_spec hex, fun j hj => by
      simpa using Nat.find_min hex hj⟩
    exact ⟨fuel, _, h⟩

end CountUp
