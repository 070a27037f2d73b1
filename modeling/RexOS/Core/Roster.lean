import Mathlib.Data.Finset.Card
import Mathlib.Logic.Function.Basic

/-!
# Sets in the first entries of an array

The first `n` entries of an array list the elements of a set, each once. A new element is written
behind the last one; where one is taken out, the last one comes to its place.
-/

/-- The first `n` entries of `f` are the elements of `S`. -/
structure Roster {α : Type*} (n : Nat) (f : Nat → α) (S : Finset α) : Prop where
  distinct : ∀ i < n, ∀ j < n, f i = f j → i = j
  mem : ∀ x, x ∈ S ↔ ∃ i < n, f i = x

namespace Roster

variable {α : Type*} {n i : Nat} {f : Nat → α} {S : Finset α} {x z : α}

/-- No entries. -/
theorem empty (f : Nat → α) : Roster 0 f ∅ :=
  ⟨fun _ hi => absurd hi (Nat.not_lt_zero _),
    fun _ => iff_of_false (Finset.notMem_empty _) fun ⟨_, hi, _⟩ => Nat.not_lt_zero _ hi⟩

variable [DecidableEq α]

/-- There are as many entries as elements. -/
theorem card (h : Roster n f S) : S.card = n := by
  have himage : S = (Finset.range n).image f := by
    ext x
    rw [h.mem, Finset.mem_image]
    exact exists_congr fun i => and_congr_left fun _ => Finset.mem_range.symm
  have hinj : Set.InjOn f (Finset.range n) := fun i hi j hj =>
    h.distinct i (Finset.mem_range.mp hi) j (Finset.mem_range.mp hj)
  rw [himage, Finset.card_image_of_injOn hinj, Finset.card_range]

/-- The scan of the entries finds an element where it is. -/
theorem find (hi : (List.range n).find? (fun i => f i == x) = some i) : i < n ∧ f i = x := by
  have hat : (f i == x) = true := List.find?_some (p := fun i => f i == x) hi
  exact ⟨List.mem_range.mp (List.mem_of_find?_eq_some hi), beq_iff_eq.mp hat⟩

/-- It finds every element and nothing else. -/
theorem isSome_find (h : Roster n f S) :
    ((List.range n).find? fun i => f i == x).isSome = true ↔ x ∈ S := by
  rw [List.find?_isSome, h.mem]
  exact exists_congr fun i => by rw [List.mem_range, beq_iff_eq]

/-- A new element behind the last one. -/
theorem push (h : Roster n f S) (hx : x ∉ S) :
    Roster (n + 1) (Function.update f n x) (insert x S) := by
  have hold : ∀ i < n, Function.update f n x i = f i := fun i hi => Function.update_of_ne hi.ne _ _
  have hnew : Function.update f n x n = x := Function.update_self ..
  have hne : ∀ i < n, f i ≠ x := fun i hi he => hx ((h.mem x).mpr ⟨i, hi, he⟩)
  refine ⟨fun i hi j hj he => ?_, fun y => ?_⟩
  · rcases Nat.lt_succ_iff_lt_or_eq.mp hi with hi | rfl
    · rw [hold i hi] at he
      rcases Nat.lt_succ_iff_lt_or_eq.mp hj with hj | rfl
      · rw [hold j hj] at he
        exact h.distinct i hi j hj he
      · exact absurd (he.trans hnew) (hne i hi)
    · rcases Nat.lt_succ_iff_lt_or_eq.mp hj with hj | rfl
      · rw [hnew, hold j hj] at he
        exact absurd he.symm (hne j hj)
      · rfl
  · rw [Finset.mem_insert, h.mem]
    constructor
    · rintro (rfl | ⟨i, hi, rfl⟩)
      · exact ⟨n, Nat.lt_succ_self n, hnew⟩
      · exact ⟨i, Nat.lt_succ_of_lt hi, hold i hi⟩
    · rintro ⟨i, hi, rfl⟩
      rcases Nat.lt_succ_iff_lt_or_eq.mp hi with hi | rfl
      · exact Or.inr ⟨i, hi, (hold i hi).symm⟩
      · exact Or.inl hnew

/-- The last element comes to the place of the one that is taken out. -/
theorem pull (h : Roster n f S) (hi : i < n) (z : α) :
    Roster (n - 1) (Function.update (Function.update f i (f (n - 1))) (n - 1) z)
      (S.erase (f i)) := by
  have hlast : n - 1 < n := by omega
  have hat : ∀ j < n - 1, Function.update (Function.update f i (f (n - 1))) (n - 1) z j =
      if j = i then f (n - 1) else f j := by
    intro j hj
    rw [Function.update_of_ne hj.ne, Function.update_apply]
  refine ⟨fun j hj k hk he => ?_, fun y => ?_⟩
  · rw [hat j hj, hat k hk] at he
    split_ifs at he with hji hki hki
    · exact hji.trans hki.symm
    · have hk' := h.distinct _ hlast k (by omega) he
      omega
    · have hj' := h.distinct j (by omega) _ hlast he
      omega
    · exact h.distinct j (by omega) k (by omega) he
  · rw [Finset.mem_erase, h.mem]
    constructor
    · rintro ⟨hy, j, hj, rfl⟩
      have hji : j ≠ i := fun he => hy (he ▸ rfl)
      rcases Nat.lt_or_ge j (n - 1) with hlt | hge
      · exact ⟨j, hlt, (hat j hlt).trans (if_neg hji)⟩
      · obtain rfl : j = n - 1 := by omega
        exact ⟨i, by omega, (hat i (by omega)).trans (if_pos rfl)⟩
    · rintro ⟨j, hj, rfl⟩
      rw [hat j hj]
      split_ifs with hji
      · refine ⟨fun he => ?_, n - 1, hlast, rfl⟩
        have hsame := h.distinct _ hlast i hi he
        omega
      · refine ⟨fun he => hji ?_, j, by omega, rfl⟩
        exact h.distinct j (by omega) i hi he

end Roster
