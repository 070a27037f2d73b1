import RexOS.Loader.Model
import RexOS.Paging.Tree

/-!
# The block of a segment

The two loops leave the bytes of the segment at the start of its block and nothing else changed.
-/

namespace RexOS.Loader

open Bits RexOS.Kalloc RexOS.Paging

variable {β : Type} {s : Space β} {binary : Nat → UInt8} {a x w i j n buff filePtr : Nat}
  {v : UInt8} {ph : Phdr}

/-! ## Bytes of a word -/

/-- A digit depends on what is below the next power. -/
theorem digit_congr {u w : Nat} (h : u % 256 ^ (j + 1) = w % 256 ^ (j + 1)) :
    u / 256 ^ j % 256 = w / 256 ^ j % 256 := by
  rw [← Nat.mod_mul_right_div_self, ← Nat.mod_mul_right_div_self, ← Nat.pow_succ, h]

/-- A store of a byte changes this byte of the word only. -/
theorem byteOf_putByte (w i : Nat) (v : UInt8) (j : Nat) :
    Bytes.byteOf (putByte w i v) j = if j = i then v else Bytes.byteOf w j := by
  have hv : v.toNat < 256 := v.toNat_lt
  have hr : w % 256 ^ i < 256 ^ i := Nat.mod_lt w (Nat.pow_pos (by decide))
  have hdigit : putByte w i v / 256 ^ j % 256 = if j = i then v.toNat else w / 256 ^ j % 256 := by
    unfold putByte
    rcases Nat.lt_trichotomy j i with hlt | rfl | hgt
    · rw [if_neg hlt.ne]
      obtain ⟨t, rfl⟩ := Nat.exists_eq_add_of_lt hlt
      apply digit_congr
      have hd : 256 ^ (j + 1) ∣ 256 ^ (j + t + 1) := pow_dvd_pow 256 (by omega)
      have hd' : 256 ^ (j + 1) ∣ 256 ^ (j + t + 1 + 1) := pow_dvd_pow 256 (by omega)
      have hhigh : 256 ^ (j + 1) ∣ w / 256 ^ (j + t + 1 + 1) * 256 ^ (j + t + 1 + 1) +
          v.toNat * 256 ^ (j + t + 1) := Nat.dvd_add (hd'.mul_left _) (hd.mul_left _)
      rw [Nat.add_mod, Nat.mod_eq_zero_of_dvd hhigh, Nat.zero_add, Nat.mod_mod,
        Nat.mod_mod_of_dvd w hd]
    · rw [if_pos rfl, Nat.pow_succ, ← Nat.mul_assoc, Nat.mul_right_comm, ← Nat.add_mul,
        Nat.add_comm, Nat.add_mul_div_right _ _ (Nat.pow_pos (by decide)), Nat.div_eq_of_lt hr,
        Nat.zero_add, Nat.mul_add_mod_self_right, Nat.mod_eq_of_lt hv]
    · rw [if_neg hgt.ne']
      obtain ⟨t, rfl⟩ := Nat.exists_eq_add_of_lt hgt
      have hlow : v.toNat * 256 ^ i + w % 256 ^ i < 256 ^ (i + 1) := by
        rw [Nat.pow_succ]
        have hle : v.toNat * 256 ^ i ≤ 255 * 256 ^ i := Nat.mul_le_mul_right _ (by omega)
        omega
      have hsplit : 256 ^ (i + t + 1) = 256 ^ (i + 1) * 256 ^ t := by
        rw [← Nat.pow_add, Nat.add_right_comm]
      rw [hsplit, ← Nat.div_div_eq_div_mul, ← Nat.div_div_eq_div_mul, Nat.add_assoc, Nat.add_comm,
        Nat.add_mul_div_right _ _ (Nat.pow_pos (by decide)), Nat.div_eq_of_lt hlow, Nat.zero_add]
  apply UInt8.toNat_inj.mp
  have hpow : 2 ^ 8 = 256 := rfl
  rw [Bytes.byteOf, UInt8.toNat_ofNat', hpow, hdigit]
  split
  · rfl
  · rw [Bytes.byteOf, UInt8.toNat_ofNat', hpow]

@[simp] theorem storeByte_pages (s : Space β) (a : Nat) (v : UInt8) :
    (storeByte s a v).pages = s.pages := rfl

/-- Memory byte by byte, after the store of one. -/
theorem byteAt_storeByte :
    byteAt (storeByte s a v).mem x = if x = a then v else byteAt s.mem x := by
  unfold byteAt storeByte
  rw [Space.store_mem]
  by_cases hw : x / 8 * 8 = a / 8 * 8
  · rw [hw, Function.update_self, byteOf_putByte]
    have hiff : x % 8 = a % 8 ↔ x = a := by omega
    simp only [hiff]
  · rw [Function.update_of_ne hw, if_neg]
    rintro rfl
    exact hw rfl

/-- The other words stay. -/
theorem mem_storeByte (hw : w ≠ a / 8 * 8) : (storeByte s a v).mem w = s.mem w :=
  Function.update_of_ne hw _ _

/-! ## The loops -/

/-- The copied bytes are those of the file, and no other byte changes. -/
theorem byteAt_copyLoop (hend : buff + n ≤ 2 ^ 64) :
    byteAt (copyLoop binary filePtr buff n s).mem x =
      if buff ≤ x ∧ x < buff + n then binary (wrap (filePtr + (x - buff))) else byteAt s.mem x := by
  induction n with
  | zero =>
    rw [if_neg (by omega)]
    rfl
  | succ n ih =>
    rw [copyLoop, byteAt_storeByte, wrap_of_lt (by omega)]
    by_cases he : x = buff + n
    · have hoff : x - buff = n := by omega
      rw [if_pos he, if_pos (by omega), hoff]
    · rw [if_neg he, ih (by omega)]
      by_cases hin : buff ≤ x ∧ x < buff + n
      · rw [if_pos hin, if_pos (by omega)]
      · rw [if_neg hin, if_neg (by omega)]

/-- The bytes that are zeroed are zero, and no other byte changes. -/
theorem byteAt_zeroLoop (hend : buff + (j + n) ≤ 2 ^ 64) :
    byteAt (zeroLoop buff j n s).mem x =
      if buff + j ≤ x ∧ x < buff + (j + n) then 0 else byteAt s.mem x := by
  induction n with
  | zero =>
    rw [if_neg (by omega)]
    rfl
  | succ n ih =>
    rw [zeroLoop, byteAt_storeByte, wrap_of_lt (by omega)]
    by_cases he : x = buff + (j + n)
    · rw [if_pos he, if_pos (by omega)]
    · rw [if_neg he, ih (by omega)]
      by_cases hin : buff + j ≤ x ∧ x < buff + (j + n)
      · rw [if_pos hin, if_pos (by omega)]
      · rw [if_neg hin, if_neg (by omega)]

/-- A word without a copied byte stays. -/
theorem mem_copyLoop (hend : buff + n ≤ 2 ^ 64) (hw : ∀ k < n, w ≠ (buff + k) / 8 * 8) :
    (copyLoop binary filePtr buff n s).mem w = s.mem w := by
  induction n with
  | zero => rfl
  | succ n ih =>
    rw [copyLoop, mem_storeByte, ih (by omega) fun k hk => hw k (by omega)]
    rw [wrap_of_lt (by omega)]
    exact hw n (Nat.lt_succ_self n)

/-- A word without a zeroed byte stays. -/
theorem mem_zeroLoop (hend : buff + (j + n) ≤ 2 ^ 64) (hw : ∀ k < n, w ≠ (buff + (j + k)) / 8 * 8) :
    (zeroLoop buff j n s).mem w = s.mem w := by
  induction n with
  | zero => rfl
  | succ n ih =>
    rw [zeroLoop, mem_storeByte, ih (by omega) fun k hk => hw k (by omega)]
    rw [wrap_of_lt (by omega)]
    exact hw n (Nat.lt_succ_self n)

/-- The page allocator is not called in the loops. -/
theorem pages_copyLoop : (copyLoop binary filePtr buff n s).pages = s.pages := by
  induction n with
  | zero => rfl
  | succ n ih => rw [copyLoop, storeByte_pages, ih]

theorem pages_zeroLoop : (zeroLoop buff j n s).pages = s.pages := by
  induction n with
  | zero => rfl
  | succ n ih => rw [zeroLoop, storeByte_pages, ih]

/-! ## The block -/

/-- Byte `o` of a segment: of the file, then zero. -/
def segByte (binary : Nat → UInt8) (ph : Phdr) (o : Nat) : UInt8 :=
  if o < ph.pFilesz then binary (wrap (ph.pOffset + o)) else 0

/-- The bytes that the loops write: also those of the file that are more than `p_memsz`. -/
def Phdr.filled (ph : Phdr) : Nat := max ph.pFilesz ph.pMemsz

/-- The block is filled at least as far as the segment goes. -/
theorem Phdr.memsz_le_filled (ph : Phdr) : ph.pMemsz ≤ ph.filled := le_max_right _ _

/-- What the loops leave. -/
structure Filled (binary : Nat → UInt8) (ph : Phdr) (buff : Nat) (s s' : Space β) : Prop where
  pages : s'.pages = s.pages
  segment : ∀ o < ph.filled, byteAt s'.mem (buff + o) = segByte binary ph o
  rest : ∀ x, x < buff ∨ buff + ph.filled ≤ x → byteAt s'.mem x = byteAt s.mem x
  words : ∀ w, w < buff ∨ buff + ph.filled ≤ w → s'.mem w = s.mem w

/-- The two loops fill the block as the header says. -/
theorem filled_fillBlock (hd : 8 ∣ buff) (hend : buff + ph.filled ≤ 2 ^ 64) (s : Space β) :
    Filled binary ph buff s (fillBlock binary ph buff s) := by
  have hsum : ph.pFilesz + (ph.pMemsz - ph.pFilesz) = ph.filled := by
    rw [Phdr.filled]
    omega
  have hend' : buff + (ph.pFilesz + (ph.pMemsz - ph.pFilesz)) ≤ 2 ^ 64 := by
    rw [hsum]
    exact hend
  have hcopy : buff + ph.pFilesz ≤ 2 ^ 64 := by omega
  have hbyte : ∀ x, byteAt (fillBlock binary ph buff s).mem x =
      if buff + ph.pFilesz ≤ x ∧ x < buff + ph.filled then 0
      else if buff ≤ x ∧ x < buff + ph.pFilesz then binary (wrap (ph.pOffset + (x - buff)))
      else byteAt s.mem x := by
    intro x
    rw [fillBlock, byteAt_zeroLoop hend', byteAt_copyLoop hcopy, hsum]
  constructor
  · rw [fillBlock, pages_zeroLoop, pages_copyLoop]
  · intro o ho
    rw [hbyte, segByte]
    by_cases hf : o < ph.pFilesz
    · have hoff : buff + o - buff = o := Nat.add_sub_cancel_left buff o
      rw [if_neg (by omega), if_pos (by omega), if_pos hf, hoff]
    · rw [if_pos (by omega), if_neg hf]
  · intro x hx
    rw [hbyte, if_neg (by omega), if_neg (by omega)]
  · intro w hw
    rw [fillBlock, mem_zeroLoop hend', mem_copyLoop hcopy]
    · intro k hk
      omega
    · intro k hk
      omega

end RexOS.Loader
