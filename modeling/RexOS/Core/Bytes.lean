import RexOS.Core.Bits

/-!
# Words in a memory of bytes

A word of `n` bytes is read and written with its lowest byte first, at any address. Addresses have
64 bits.
-/

namespace Bytes

open Bits

/-- Byte `i` of a value. -/
def byteOf (v i : Nat) : UInt8 := UInt8.ofNat (v / 256 ^ i)

/-- The `n` bytes from an address on. -/
def load (m : Nat → UInt8) (addr : Nat) : Nat → Nat
  | 0 => 0
  | n + 1 => (m (wrap addr)).toNat + 256 * load m (addr + 1) n

/-- The lowest `n` bytes of a value, in the order they are stored. -/
def word (v n : Nat) : List UInt8 := (List.range n).map (byteOf v)

/-- Write `n` bytes of a value from an address on. -/
def store (m : Nat → UInt8) (addr v : Nat) : Nat → Nat → UInt8
  | 0 => m
  | n + 1 => Function.update (store m addr v n) (wrap (addr + n)) (byteOf v n)

variable {m m' : Nat → UInt8} {addr v n i x : Nat}

/-- So many bytes are so small a number. -/
theorem load_lt : load m addr n < 256 ^ n := by
  induction n generalizing addr with
  | zero => exact Nat.one_pos
  | succ n ih =>
    have hbyte := (m (wrap addr)).toNat_lt
    have hrest : load m (addr + 1) n < 256 ^ n := ih
    rw [load, Nat.pow_succ]
    omega

/-- A byte of a word is a byte of memory. -/
theorem byteOf_load (hi : i < n) : byteOf (load m addr n) i = m (wrap (addr + i)) := by
  induction n generalizing addr i with
  | zero => exact absurd hi (Nat.not_lt_zero i)
  | succ n ih =>
    have hbyte := (m (wrap addr)).toNat_lt
    cases i with
    | zero =>
      have haddr : addr + 0 = addr := rfl
      apply UInt8.toNat_inj.mp
      rw [haddr, byteOf, load, UInt8.toNat_ofNat', Nat.pow_zero, Nat.div_one]
      omega
    | succ i =>
      have hdiv : load m addr (n + 1) / 256 ^ (i + 1) = load m (addr + 1) n / 256 ^ i := by
        rw [load, Nat.pow_succ, Nat.mul_comm (256 ^ i), ← Nat.div_div_eq_div_mul,
          Nat.add_mul_div_left _ _ (by decide), Nat.div_eq_of_lt hbyte, Nat.zero_add]
      have hrest : byteOf (load m (addr + 1) n) i = m (wrap (addr + 1 + i)) :=
        ih (Nat.lt_of_succ_lt_succ hi)
      rw [byteOf, hdiv]
      rw [Nat.add_right_comm] at hrest
      exact hrest

/-- The bytes written. -/
theorem store_self (hn : n ≤ 256) (hi : i < n) :
    store m addr v n (wrap (addr + i)) = byteOf v i := by
  induction n with
  | zero => exact absurd hi (Nat.not_lt_zero i)
  | succ n ih =>
    rw [store]
    by_cases he : i = n
    · rw [he, Function.update_self]
    · have hne : wrap (addr + i) ≠ wrap (addr + n) := by
        unfold wrap
        omega
      rw [Function.update_of_ne hne]
      exact ih (by omega) (by omega)

/-- The others stay. -/
theorem store_of_ne (h : ∀ i < n, x ≠ wrap (addr + i)) : store m addr v n x = m x := by
  induction n with
  | zero => rfl
  | succ n ih =>
    rw [store, Function.update_of_ne (h n (Nat.lt_succ_self n))]
    exact ih fun i hi => h i (Nat.lt_succ_of_lt hi)

end Bytes
