import Mathlib.Data.List.Infix

/-!
# Lists inside a list

`Placed b p xs` says that `xs` lies in `b` from position `p` on.
-/

/-- `xs` lies at `p` in `b`. -/
def Placed {α : Type*} (b : List α) (p : Nat) (xs : List α) : Prop := xs <+: b.drop p

namespace Placed

variable {α : Type*} {b xs ys : List α} {p i : Nat} {x : α}

/-- What is placed is there. -/
theorem drop_eq (h : Placed b p xs) : ∃ rest, b.drop p = xs ++ rest := by
  obtain ⟨rest, hrest⟩ := h
  exact ⟨rest, hrest.symm⟩

/-- What is behind the first part comes after it. -/
theorem append_iff : Placed b p (xs ++ ys) ↔ Placed b p xs ∧ Placed b (p + xs.length) ys := by
  constructor
  · rintro ⟨rest, hrest⟩
    constructor
    · exact ⟨ys ++ rest, by rw [← List.append_assoc, hrest]⟩
    · refine ⟨rest, ?_⟩
      rw [← List.drop_drop, ← hrest, List.append_assoc, List.drop_left]
  · rintro ⟨⟨rest, hrest⟩, hys⟩
    obtain ⟨rest', hrest'⟩ := hys
    refine ⟨rest', ?_⟩
    rw [← List.drop_drop, ← hrest, List.drop_left] at hrest'
    rw [← hrest, List.append_assoc, hrest']

/-- It ends before the end. -/
theorem length_le (h : Placed b p xs) (hne : xs ≠ []) : p + xs.length ≤ b.length := by
  have hlen := List.IsPrefix.length_le h
  have hpos := List.length_pos_of_ne_nil hne
  rw [List.length_drop] at hlen
  omega

instance [DecidableEq α] : Decidable (Placed b p xs) := inferInstanceAs (Decidable (_ <+: _))

end Placed
