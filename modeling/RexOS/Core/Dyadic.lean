import RexOS.Core.Bits
import Mathlib.Data.Set.Insert

/-!
# Dyadic blocks and their tilings of an interval

A block of order `k` is a run of `2 ^ k` consecutive places. A set of blocks tiles
an interval when every place of it lies in exactly one block and no block reaches
outside. Splitting a block into its halves and merging two adjacent ones keep a
tiling, whatever the alignment. Aligned blocks are nested or disjoint; an aligned
set of free blocks without two buddies is therefore canonical: every aligned run of
free places lies inside one free block.
-/

namespace Dyadic

/-- `2 ^ order` consecutive places from `start`. -/
@[ext] structure Block where
  start : Nat
  order : Nat
  deriving DecidableEq, Repr

/-- The place `p` lies in the block. -/
def Block.Has (b : Block) (p : Nat) : Prop := b.start ≤ p ∧ p < b.start + 2 ^ b.order

/-- The start is a multiple of the size. -/
def Block.Aligned (b : Block) : Prop := 2 ^ b.order ∣ b.start

/-- A block begins with its start. -/
theorem Block.has_start (b : Block) : b.Has b.start :=
  ⟨le_rfl, Nat.lt_add_of_pos_right (Nat.two_pow_pos _)⟩

/-- The last place of a block. -/
theorem Block.has_last (b : Block) : b.Has (b.start + 2 ^ b.order - 1) := by
  have := Nat.two_pow_pos b.order
  exact ⟨by omega, by omega⟩

/-- The two halves of a block hold exactly its places. -/
theorem has_halves {i k p : Nat} :
    Block.Has ⟨i, k + 1⟩ p ↔ Block.Has ⟨i, k⟩ p ∨ Block.Has ⟨i + 2 ^ k, k⟩ p := by
  simp only [Block.Has, pow_succ]
  omega

/-- Aligned blocks that meet are nested, the smaller inside the larger. -/
theorem nested {b c : Block} (hb : b.Aligned) (hc : c.Aligned) (hle : b.order ≤ c.order)
    {p : Nat} (hp : b.Has p) (hq : c.Has p) : ∀ q, b.Has q → c.Has q := by
  obtain ⟨m, hm⟩ := hb
  obtain ⟨n, hn⟩ := hc
  obtain ⟨d, hd⟩ := Nat.exists_eq_add_of_le hle
  have hpow : 2 ^ c.order = 2 ^ b.order * 2 ^ d := by rw [hd, pow_add]
  intro q hq'
  simp only [Block.Has, hm, hn, hpow] at hp hq hq' ⊢
  -- compare the two blocks in units of the smaller one
  have h1 : 2 ^ d * n ≤ m := by
    by_contra hlt
    have : m + 1 ≤ 2 ^ d * n := by omega
    have := Nat.mul_le_mul_left (2 ^ b.order) this
    rw [Nat.mul_add, Nat.mul_one, ← Nat.mul_assoc] at this
    omega
  have h2 : m + 1 ≤ 2 ^ d * n + 2 ^ d := by
    by_contra hlt
    have : 2 ^ d * n + 2 ^ d ≤ m := by omega
    have := Nat.mul_le_mul_left (2 ^ b.order) this
    rw [Nat.mul_add, ← Nat.mul_assoc] at this
    omega
  have h1' := Nat.mul_le_mul_left (2 ^ b.order) h1
  have h2' := Nat.mul_le_mul_left (2 ^ b.order) h2
  rw [← Nat.mul_assoc] at h1'
  rw [Nat.mul_add, Nat.mul_one, Nat.mul_add, ← Nat.mul_assoc] at h2'
  omega

/-- The halves of an aligned block are aligned. -/
theorem Block.Aligned.left {i k : Nat} (h : Block.Aligned ⟨i, k + 1⟩) :
    Block.Aligned ⟨i, k⟩ := (pow_dvd_pow 2 (Nat.le_succ k)).trans h

/-- The right half of an aligned block is aligned. -/
theorem Block.Aligned.right {i k : Nat} (h : Block.Aligned ⟨i, k + 1⟩) :
    Block.Aligned ⟨i + 2 ^ k, k⟩ := Nat.dvd_add (Block.Aligned.left h) (Nat.dvd_refl _)

/-! ## Tilings -/

/-- The blocks of `S` hold every place of `[lo, hi)` once and nothing else. -/
structure Tiles (S : Set Block) (lo hi : Nat) : Prop where
  disjoint : ∀ b ∈ S, ∀ c ∈ S, ∀ p, b.Has p → c.Has p → b = c
  cover : ∀ p, (lo ≤ p ∧ p < hi) ↔ ∃ b ∈ S, b.Has p

namespace Tiles

variable {S T : Set Block} {lo hi : Nat} {b c : Block}

/-- A tile begins in the interval. -/
theorem start_bounds (h : Tiles S lo hi) (hb : b ∈ S) : lo ≤ b.start ∧ b.start < hi :=
  (h.cover b.start).mpr ⟨b, hb, b.has_start⟩

/-- A tile ends in it. -/
theorem end_le (h : Tiles S lo hi) (hb : b ∈ S) : b.start + 2 ^ b.order ≤ hi := by
  have := (h.cover _).mpr ⟨b, hb, b.has_last⟩
  omega

/-- A tile is known from its start. -/
theorem eq_of_start (h : Tiles S lo hi) (hb : b ∈ S) (hc : c ∈ S) (he : b.start = c.start) :
    b = c := h.disjoint b hb c hc b.start b.has_start (he ▸ c.has_start)

/-- Tiles are told by their members. -/
theorem congr (h : Tiles S lo hi) (hT : ∀ x, x ∈ T ↔ x ∈ S) : Tiles T lo hi := by
  have : T = S := Set.ext hT
  exact this ▸ h

/-- Splitting one tile into its halves. -/
theorem split {i k : Nat} (h : Tiles S lo hi) (hb : ⟨i, k + 1⟩ ∈ S)
    (hT : ∀ x, x ∈ T ↔ (x ∈ S ∧ x ≠ ⟨i, k + 1⟩) ∨ x = ⟨i, k⟩ ∨ x = ⟨i + 2 ^ k, k⟩) :
    Tiles T lo hi := by
  have hhalf : ∀ x p, x = (⟨i, k⟩ : Block) ∨ x = ⟨i + 2 ^ k, k⟩ → x.Has p →
      Block.Has ⟨i, k + 1⟩ p := by
    rintro x p (rfl | rfl) hp
    · exact has_halves.mpr (Or.inl hp)
    · exact has_halves.mpr (Or.inr hp)
  constructor
  · intro x hx y hy p hxp hyp
    rcases (hT x).mp hx with ⟨hxS, hxne⟩ | hxh <;> rcases (hT y).mp hy with ⟨hyS, hyne⟩ | hyh
    · exact h.disjoint x hxS y hyS p hxp hyp
    · exact absurd (h.disjoint x hxS _ hb p hxp (hhalf y p hyh hyp)) hxne
    · exact absurd (h.disjoint y hyS _ hb p hyp (hhalf x p hxh hxp)) hyne
    · rcases hxh with rfl | rfl <;> rcases hyh with rfl | rfl <;>
        first | rfl | (simp only [Block.Has] at hxp hyp; omega)
  · intro p
    rw [h.cover p]
    constructor
    · rintro ⟨c, hc, hcp⟩
      by_cases he : c = ⟨i, k + 1⟩
      · subst he
        rcases has_halves.mp hcp with hl | hr
        · exact ⟨_, (hT _).mpr (Or.inr (Or.inl rfl)), hl⟩
        · exact ⟨_, (hT _).mpr (Or.inr (Or.inr rfl)), hr⟩
      · exact ⟨c, (hT c).mpr (Or.inl ⟨hc, he⟩), hcp⟩
    · rintro ⟨c, hc, hcp⟩
      rcases (hT c).mp hc with ⟨hcS, _⟩ | hch
      · exact ⟨c, hcS, hcp⟩
      · exact ⟨_, hb, hhalf c p hch hcp⟩

/-- Merging two adjacent tiles of one order. -/
theorem merge {i k : Nat} (h : Tiles S lo hi) (hl : ⟨i, k⟩ ∈ S) (hr : ⟨i + 2 ^ k, k⟩ ∈ S)
    (hT : ∀ x, x ∈ T ↔ (x ∈ S ∧ x ≠ ⟨i, k⟩ ∧ x ≠ ⟨i + 2 ^ k, k⟩) ∨ x = ⟨i, k + 1⟩) :
    Tiles T lo hi := by
  have hwhole : ∀ x p, x ∈ S → x.Has p → Block.Has ⟨i, k + 1⟩ p →
      x = ⟨i, k⟩ ∨ x = ⟨i + 2 ^ k, k⟩ := by
    intro x p hx hxp hp
    rcases has_halves.mp hp with hp | hp
    · exact Or.inl (h.disjoint x hx _ hl p hxp hp)
    · exact Or.inr (h.disjoint x hx _ hr p hxp hp)
  constructor
  · intro x hx y hy p hxp hyp
    rcases (hT x).mp hx with ⟨hxS, hx1, hx2⟩ | rfl <;> rcases (hT y).mp hy
      with ⟨hyS, hy1, hy2⟩ | rfl
    · exact h.disjoint x hxS y hyS p hxp hyp
    · exact absurd (hwhole x p hxS hxp hyp) (by simp [hx1, hx2])
    · exact absurd (hwhole y p hyS hyp hxp) (by simp [hy1, hy2])
    · rfl
  · intro p
    rw [h.cover p]
    constructor
    · rintro ⟨c, hc, hcp⟩
      by_cases hin : Block.Has ⟨i, k + 1⟩ p
      · exact ⟨_, (hT _).mpr (Or.inr rfl), hin⟩
      · refine ⟨c, (hT c).mpr (Or.inl ⟨hc, ?_, ?_⟩), hcp⟩
        · rintro rfl; exact hin (has_halves.mpr (Or.inl hcp))
        · rintro rfl; exact hin (has_halves.mpr (Or.inr hcp))
    · rintro ⟨c, hc, hcp⟩
      rcases (hT c).mp hc with ⟨hcS, _⟩ | rfl
      · exact ⟨c, hcS, hcp⟩
      · rcases has_halves.mp hcp with hp | hp
        · exact ⟨_, hl, hp⟩
        · exact ⟨_, hr, hp⟩

end Tiles

/-! ## Canonical free sets -/

/-- No two blocks of one order below `top` are buddies. -/
def NoBuddies (F : Set Block) (top : Nat) : Prop :=
  ∀ b ∈ F, ∀ c ∈ F, b.order = c.order → b.order < top → b.start ^^^ c.start ≠ 2 ^ b.order

/-- In a canonical set every aligned run of free places lies inside one free block. -/
theorem exists_cover {F : Set Block} {top : Nat} (ha : ∀ b ∈ F, b.Aligned)
    (hn : NoBuddies F top) {r : Block} (hr : r.Aligned) (hk : r.order ≤ top)
    (hfree : ∀ p, r.Has p → ∃ b ∈ F, b.Has p) :
    ∃ b ∈ F, r.order ≤ b.order ∧ ∀ p, r.Has p → b.Has p := by
  obtain ⟨i, k⟩ := r
  induction k generalizing i with
  | zero =>
    obtain ⟨b, hb, hbp⟩ := hfree i (Block.has_start ⟨i, 0⟩)
    refine ⟨b, hb, Nat.zero_le _, fun p hp => ?_⟩
    have : p = i := by simp only [Block.Has, pow_zero] at hp; omega
    exact this ▸ hbp
  | succ k ih =>
    obtain ⟨b, hb, hbk, hbh⟩ := ih i hr.left (Nat.le_of_succ_le hk)
      (fun p hp => hfree p (has_halves.mpr (Or.inl hp)))
    obtain ⟨c, hc, hck, hch⟩ := ih (i + 2 ^ k) hr.right (Nat.le_of_succ_le hk)
      (fun p hp => hfree p (has_halves.mpr (Or.inr hp)))
    -- a half inside a larger free block drags the whole run with it
    by_cases hbig : k + 1 ≤ b.order
    · exact ⟨b, hb, hbig, nested hr (ha b hb) hbig
        (has_halves.mpr (Or.inl (Block.has_start ⟨i, k⟩))) (hbh i (Block.has_start ⟨i, k⟩))⟩
    by_cases hcbig : k + 1 ≤ c.order
    · exact ⟨c, hc, hcbig, nested hr (ha c hc) hcbig
        (has_halves.mpr (Or.inr (Block.has_start ⟨i + 2 ^ k, k⟩)))
        (hch _ (Block.has_start ⟨i + 2 ^ k, k⟩))⟩
    have hsame : ∀ d : Block, ∀ j, d.order = k → (∀ p, Block.Has ⟨j, k⟩ p → d.Has p) →
        d.start = j := by
      intro d j hdk hdj
      have h1 := hdj j (Block.has_start ⟨j, k⟩)
      have h2 := hdj _ (Block.has_last ⟨j, k⟩)
      simp only [Block.Has, hdk] at h1 h2
      omega
    have hbo : b.order = k := by simp only at hbk; omega
    have hco : c.order = k := by simp only at hck; omega
    refine absurd ?_ (hn b hb c hc (hbo.trans hco.symm) (by simp only at hk; omega))
    have hclear : i.testBit k = false := (Bits.dvd_succ_iff hr.left).mp hr
    rw [hsame b i hbo hbh, hsame c _ hco hch, hbo]
    have hx := Bits.xor_two_pow i k
    simp only [hclear, Bool.false_eq_true, ite_false] at hx
    rw [← hx, ← Nat.xor_assoc, Nat.xor_self, Nat.zero_xor]

end Dyadic
