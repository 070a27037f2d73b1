import RexOS.Paging.Descent
import RexOS.Paging.Pieces

/-!
# The place of a piece in the tree

The place of a piece is above the indices of exactly the addresses in it, taken modulo the
39 bits the indices cover.
-/

namespace RexOS.Paging

open Bits Radix

/-- Where the leaf of a piece goes. -/
def Piece.path (x : Piece) : List Nat := (indices x.va).drop x.level

/-- Two addresses agree on their indices from a level up. -/
theorem drop_indices_eq_iff {a b l : Nat} (hl : l ≤ 2) :
    (indices a).drop l = (indices b).drop l ↔
      a % 2 ^ 39 / (4096 * 512 ^ l) = b % 2 ^ 39 / (4096 * 512 ^ l) := by
  match l, hl with
  | 0, _ =>
    simp only [indices, vpn_eq, List.drop_zero, List.cons.injEq, and_true]
    omega
  | 1, _ =>
    simp only [indices, vpn_eq, List.drop_succ_cons, List.drop_zero, List.cons.injEq, and_true]
    omega
  | 2, _ =>
    simp only [indices, vpn_eq, List.drop_succ_cons, List.drop_zero, List.cons.injEq, and_true]
    omega

/-- Addresses with the same indices are in one page. -/
theorem indices_eq_iff {a b : Nat} :
    indices a = indices b ↔ a % 2 ^ 39 / 4096 = b % 2 ^ 39 / 4096 := by
  have h := drop_indices_eq_iff (a := a) (b := b) (l := 0) (by decide)
  rwa [List.drop_zero, List.drop_zero, pow_zero, Nat.mul_one] at h

/-- A place above an address is the one its indices lead to. -/
theorem suffix_indices_iff {a b l : Nat} :
    (indices a).drop l <:+ indices b ↔ (indices a).drop l = (indices b).drop l := by
  constructor
  · intro h
    have hb : (indices b).drop l <:+ indices b := List.drop_suffix l _
    have hlen : ((indices a).drop l).length = ((indices b).drop l).length := by
      simp [indices]
    exact (List.suffix_of_suffix_length_le h hb hlen.le).eq_of_length hlen
  · intro h
    rw [h]
    exact List.drop_suffix l _

namespace Piece

variable {x y : Piece} {a : Nat}

/-- A piece has a place in the tree. -/
theorem path_mem (x : Piece) : Trail 512 x.path :=
  (trail_indices x.va).suffix (List.drop_suffix _ _)

/-- The place is as deep as its level says. -/
theorem path_length (x : Piece) : x.path.length = 3 - x.level := by
  simp [path, indices]

/-- It is not the root. -/
theorem path_ne_nil (hl : x.level ≤ 2) : x.path ≠ [] := by
  intro h
  have := path_length x
  rw [h, List.length_nil] at this
  omega

/-- A span divides the address space. -/
theorem span_dvd_indices (hl : x.level ≤ 2) : x.span ∣ 2 ^ 39 := by
  obtain h | h | h : x.level = 0 ∨ x.level = 1 ∨ x.level = 2 := by omega
  all_goals
    rw [span, h]
    decide

/-- A place is above the indices of the addresses of its piece. -/
theorem path_suffix_iff (hl : x.level ≤ 2) (ha : x.span ∣ x.va) :
    x.path <:+ indices a ↔ ∃ r < x.span, a % 2 ^ 39 = x.va % 2 ^ 39 + r := by
  rw [path, suffix_indices_iff, drop_indices_eq_iff hl]
  have hd : x.span ∣ x.va % 2 ^ 39 := (Nat.dvd_mod_iff (span_dvd_indices hl)).mpr ha
  change x.va % 2 ^ 39 / x.span = a % 2 ^ 39 / x.span ↔ _
  obtain ⟨k, hk⟩ := hd
  have hpos := x.span_pos
  rw [hk, Nat.mul_div_cancel_left _ hpos]
  constructor
  · intro h
    refine ⟨a % 2 ^ 39 % x.span, Nat.mod_lt _ hpos, ?_⟩
    rw [h, Nat.div_add_mod]
  · rintro ⟨r, hr, he⟩
    rw [he, Nat.mul_add_div hpos, Nat.div_eq_of_lt hr, Nat.add_zero]

/-- The piece is above each of its addresses. -/
theorem path_suffix_add (hl : x.level ≤ 2) (ha : x.span ∣ x.va) {r : Nat} (hr : r < x.span) :
    x.path <:+ indices (x.va + r) := by
  refine (path_suffix_iff hl ha).mpr ⟨r, hr, ?_⟩
  have hd : x.span ∣ x.va % 2 ^ 39 := (Nat.dvd_mod_iff (span_dvd_indices hl)).mpr ha
  have hlt : x.va % 2 ^ 39 < 2 ^ 39 := Nat.mod_lt _ (by decide)
  have hle := Nat.le_of_dvd (by omega) (Nat.dvd_sub (span_dvd_indices hl) hd)
  omega

/-- The place of a piece above that of another is above its addresses. -/
theorem suffix_indices_of_suffix (h : x.path <:+ y.path) : x.path <:+ indices y.va :=
  h.trans (List.drop_suffix _ _)

end Piece

end RexOS.Paging
