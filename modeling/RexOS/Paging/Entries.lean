import RexOS.Paging.Model

/-!
# Entries of a table

What the fields of the entries that the map routines write are: an entry is a page number
above ten flag bits, and a link has V as its only flag.
-/

namespace RexOS.Paging

open Bits

/-- The V bit is set. -/
def Valid (pte : Nat) : Prop := pte &&& 0x1 ≠ 0

instance (pte : Nat) : Decidable (Valid pte) := inferInstanceAs (Decidable (_ ≠ _))

/-- The table behind an entry that is valid and no leaf. -/
def link (pte : Nat) : Option Nat :=
  if Valid pte ∧ pte &&& 0xE = 0 then some (tableOf pte) else none

/-- The lowest bit of an entry decides whether it is valid. -/
theorem valid_iff {e : Nat} : Valid e ↔ e % 2 = 1 := by
  rw [Valid, Nat.and_one_is_mod]
  omega

/-- A valid entry without rights links to a table. -/
theorem link_eq_some {e t : Nat} : link e = some t ↔ (Valid e ∧ e &&& 0xE = 0) ∧ tableOf e = t := by
  unfold link
  split <;> simp [*]

/-- A valid entry with rights does not. -/
theorem link_eq_none {e : Nat} : link e = none ↔ (Valid e → e &&& 0xE ≠ 0) := by
  unfold link
  split <;> simp_all

@[simp] theorem not_valid_zero : ¬ Valid 0 := by decide

@[simp] theorem link_zero : link 0 = none := by decide

/-! ## Addresses -/

/-- The index of an address at a level. -/
theorem vpn_eq (va shift : Nat) : vpn va shift = va / 2 ^ shift % 512 := by
  rw [vpn, Nat.shiftRight_eq_div_pow]
  exact Nat.and_two_pow_sub_one_eq_mod _ 9

/-- It is one of 512. -/
theorem vpn_lt (va shift : Nat) : vpn va shift < 512 := by
  rw [vpn_eq]
  exact Nat.mod_lt _ (by decide)

/-- The entries of a page are 512 words one after the other. -/
theorem entryAt_eq {t i : Nat} (ht : 4096 ∣ t) (hlt : t < 2 ^ 64) (hi : i < 512) :
    entryAt t i = t + 8 * i := by
  apply wrap_of_lt
  omega

/-! ## Links -/

/-- A link is the number of the page, and valid. -/
theorem linkPte_eq (page : Nat) : linkPte page = page / 4096 * 1024 + 1 := by
  rw [linkPte, ← Nat.shiftLeft_add_eq_or_of_lt (by decide), Nat.shiftLeft_eq,
    Nat.shiftRight_eq_div_pow]

/-- The page an entry names. -/
theorem tableOf_eq (e : Nat) : tableOf e = e / 1024 * 4096 % 2 ^ 64 := by
  rw [tableOf, wrap, Nat.shiftLeft_eq, Nat.shiftRight_eq_div_pow]

/-- A link names the page it was made for. -/
theorem tableOf_linkPte {p : Nat} (hp : 4096 ∣ p) (hlt : p < 2 ^ 64) : tableOf (linkPte p) = p := by
  rw [tableOf_eq, linkPte_eq]
  omega

/-- A mask of flags sees the ten flag bits only. -/
theorem and_flags (e : Nat) {m : Nat} (hm : m < 1024) : e &&& m = e % 1024 &&& m := by
  have h : m = 2 ^ 10 - 1 &&& m := by
    rw [Nat.and_comm, Nat.and_two_pow_sub_one_eq_mod, Nat.mod_eq_of_lt hm]
  calc e &&& m = e &&& (2 ^ 10 - 1) &&& m := by rw [Nat.and_assoc, ← h]
    _ = e % 1024 &&& m := by rw [Nat.and_two_pow_sub_one_eq_mod]

/-- The flags are the low ten bits. -/
theorem testBit_flags (e : Nat) {i : Nat} (hi : i < 10) : e.testBit i = (e % 1024).testBit i := by
  rw [show 1024 = 2 ^ 10 from rfl, Nat.testBit_mod_two_pow, decide_eq_true hi, Bool.true_and]

/-- A link is read back as a link. -/
theorem link_linkPte {p : Nat} (hp : 4096 ∣ p) (hlt : p < 2 ^ 64) : link (linkPte p) = some p := by
  refine link_eq_some.mpr ⟨⟨?_, ?_⟩, tableOf_linkPte hp hlt⟩
  · rw [valid_iff, linkPte_eq]
    omega
  · have hmod : linkPte p % 1024 = 1 := by
      rw [linkPte_eq]
      omega
    rw [and_flags _ (by decide), hmod]
    rfl

/-! ## Leaves -/

/-- The flags of the leaves that a map routine writes. -/
def leafFlags (user perm : Nat) : Nat :=
  (if perm &&& 4 ≠ 0 then 0x40 ||| 0x80 else 0x40) ||| user ||| perm ||| 0x1

/-- A leaf is its frame and its flags. -/
theorem leafPte_eq_or (user perm pa : Nat) :
    leafPte user perm pa = (pa >>> 12) <<< 10 ||| leafFlags user perm := by
  simp only [leafPte, leafFlags, Nat.lor_assoc]

/-- The two do not overlap. -/
theorem leafPte_eq {user perm : Nat} (h : leafFlags user perm < 1024) (pa : Nat) :
    leafPte user perm pa = pa / 4096 * 1024 + leafFlags user perm := by
  rw [leafPte_eq_or, ← Nat.shiftLeft_add_eq_or_of_lt (by simpa using h), Nat.shiftLeft_eq,
    Nat.shiftRight_eq_div_pow]

/-- A leaf is valid. -/
theorem valid_leafPte (user perm pa : Nat) : Valid (leafPte user perm pa) := by
  unfold Valid leafPte
  rw [Nat.and_or_distrib_right]
  intro h
  exact absurd (Nat.or_eq_zero_iff.mp h).2 (by decide)

/-- With a permission bit a leaf is not taken for a link. -/
theorem link_leafPte (user : Nat) {perm : Nat} (hp : perm &&& 0xE ≠ 0) (pa : Nat) :
    link (leafPte user perm pa) = none := by
  refine link_eq_none.mpr fun _ h => hp ?_
  unfold leafPte at h
  rw [Nat.and_or_distrib_right, Nat.and_or_distrib_right] at h
  exact (Nat.or_eq_zero_iff.mp (Nat.or_eq_zero_iff.mp h).1).2

end RexOS.Paging
