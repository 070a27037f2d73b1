import RexOS.Kvmalloc.Model
import RexOS.Loader.Segments

/-!
# Orders of large requests

`kvmalloc` and `spawn_process` shift 4096 to the left until it is no less than what is asked for.
The one shifts an `unsigned long` and the other an `int`. For the largest sizes no shift is enough,
and as the hardware takes the distance modulo the width, the loop goes round for ever.
-/

namespace RexOS.Loader

open Bits RexOS.Kalloc RexOS.Paging RexOS.Kvmalloc

variable {size memSize k : Nat} {goes panics : Nat → Prop}

/-! ## The loops -/

/-- `4096UL << order`: the shift takes `order` modulo 64. -/
def shiftPages (order : Nat) : Nat := 4096 * 2 ^ (order % 64) % 2 ^ 64

/-- `while ( (4096UL << order) < size ) order++` -/
def kvmallocLoop (size fuel : Nat) : Option Nat :=
  countUp (fun order => decide (shiftPages order < size)) fuel 0

/-- `while ( mem_size > (4096 << order) ) order++` -/
def segmentLoop (memSize fuel : Nat) : Option Nat := orderLoop memSize fuel 0

/-- A loop ends with an order. It is the least one that suffices and below 12, and `kalloc` is
called with it; or it is no order of `kalloc`, which stops with 100. -/
def Orders (loop : Nat → Option Nat) (size : Nat) (goes panics : Nat → Prop) : Prop :=
  ∃ fuel order, loop fuel = some order ∧
    (order < maxOrder ∧ size ≤ 4096 * 2 ^ order ∧ (∀ j < order, 4096 * 2 ^ j < size) ∧ goes order ∨
      maxOrder ≤ order ∧ panics order)

/-- The order of a request to `kvmalloc`. -/
def KvmallocOrders (size : Nat) : Prop :=
  Orders (kvmallocLoop size) size
    (fun order => ∀ (β : Type) (A : PageAlloc β) (cachesAt caller : Nat) (s : Heap β),
      kvmalloc A cachesAt s size caller =
        (A.kalloc s.pages order).within fun b => { s with pages := b })
    fun order => ∀ (ram : Meta) (ra cachesAt caller : Nat) (s : Heap State),
      kvmalloc (buddy ram ra) cachesAt s size caller = .panic 100 order s

/-- The order of the block of a segment. -/
def SegmentOrders (memSize : Nat) : Prop :=
  Orders (segmentLoop memSize) memSize
    (fun order => ∀ (β : Type) (A : PageAlloc β) (binary : Nat → UInt8)
      (userTable : Nat) (ph : Phdr)
      (s : Space β), ph.pMemsz = memSize → loadSegment A binary userTable ph s =
        (kallocBlock A order s).bind fun buff s =>
          uvmMap A userTable ph.pVaddr buff (shiftPage order) (permOf ph.pFlags)
            (fillBlock binary ph buff s))
    fun order => ∀ (ram : Meta) (ra : Nat) (binary : Nat → UInt8) (userTable : Nat) (ph : Phdr)
      (s : Space State), ph.pMemsz = memSize →
        loadSegment (buddy ram ra) binary userTable ph s = .panic 100 order s

/-- Where shifts by less than 12 lose nothing, it is enough that the loop ends. -/
theorem orders_iff_ends (shift : Nat → Nat) (hshift : ∀ k < maxOrder, shift k = 4096 * 2 ^ k)
    (hgoes : ∀ fuel k, countUp (fun k => decide (shift k < size)) fuel 0 = some k → goes k)
    (hpanics : ∀ k, maxOrder ≤ k → goes k → panics k) :
    Orders (fun fuel => countUp (fun k => decide (shift k < size)) fuel 0) size goes panics ↔
      ∃ fuel k, countUp (fun k => decide (shift k < size)) fuel 0 = some k := by
  constructor
  · rintro ⟨fuel, k, hloop, -⟩
    exact ⟨fuel, k, hloop⟩
  · rintro ⟨fuel, k, hloop⟩
    refine ⟨fuel, k, hloop, ?_⟩
    have hpass := hgoes fuel k hloop
    rcases Nat.lt_or_ge k maxOrder with hlt | hge
    · obtain ⟨-, -, hstop, hlow⟩ := countUp_eq_some.mp hloop
      refine Or.inl ⟨hlt, ?_, fun j hj => ?_, hpass⟩
      · have hle := of_decide_eq_false hstop
        rw [hshift k hlt] at hle
        omega
      · have hj' := of_decide_eq_true (hlow j (Nat.zero_le j) hj)
        rwa [hshift j (hj.trans hlt)] at hj'
    · exact Or.inr ⟨hge, hpanics k hge hpass⟩

/-! ## kvmalloc -/

/-- Below 52 the shift loses no bit. -/
theorem shiftPages_eq (h : k < 52) : shiftPages k = 4096 * 2 ^ k := by
  have hall : ∀ k < 52, shiftPages k = 4096 * 2 ^ k := by decide
  exact hall k h

/-- The bit is shifted out. -/
theorem shiftPages_zero (h : 52 ≤ k) (hk : k < 64) : shiftPages k = 0 := by
  have hall : ∀ k < 64, 52 ≤ k → shiftPages k = 0 := by decide
  exact hall k hk h

/-- The machine takes the shift modulo 64. -/
theorem shiftPages_periodic : Function.Periodic shiftPages 64 := by
  intro k
  rw [shiftPages, shiftPages, Nat.add_mod_right]

/-- So the condition of the loop has this period too. -/
theorem periodic_kvmalloc (size : Nat) :
    Function.Periodic (fun order => decide (shiftPages order < size)) 64 :=
  shiftPages_periodic.comp fun x => decide (x < size)

/-- The orders that are looked at are those the loop can end with. -/
theorem orderFor_eq_some (h0 : 0 < size) : orderFor size = some k ↔ ∃ fuel,
    kvmallocLoop size fuel = some k := by
  have hend : (∃ fuel, kvmallocLoop size fuel = some k) ↔ _ := exists_countUp
  rw [hend, orderFor, List.find?_range_eq_some]
  simp only [Nat.shiftLeft_eq, List.mem_range, Bool.not_eq_true', Bool.not_not,
    decide_eq_false_iff_not, decide_eq_true_eq]
  constructor
  · rintro ⟨hstop, hk, hlow⟩
    refine ⟨by rwa [shiftPages_eq hk], fun j hj => ?_⟩
    rw [shiftPages_eq (hj.trans hk)]
    exact hlow j hj
  · rintro ⟨hstop, hlow⟩
    have hk : k < 52 := by
      by_contra hge
      have hlt : k < 64 := countUp_lt_period (periodic_kvmalloc size) (by decide)
        (exists_countUp.mpr ⟨decide_eq_false hstop,
          fun j hj => decide_eq_true (hlow j hj)⟩).choose_spec
      rw [shiftPages_zero (by omega) hlt] at hstop
      exact hstop h0
    refine ⟨by rwa [shiftPages_eq hk] at hstop, hk, fun j hj => ?_⟩
    have hj' := hlow j hj
    rwa [shiftPages_eq (hj.trans hk)] at hj'

/-- The loop comes to an end for sizes up to 2^63 only. -/
theorem kvmallocLoop_ends (h0 : 0 < size) : (∃ fuel k, kvmallocLoop size fuel = some k) ↔
    size ≤ 2 ^ 63 := by
  have hend : (∃ fuel k, kvmallocLoop size fuel = some k) ↔ _ :=
    countUp_ends (periodic_kvmalloc size) (by decide)
  rw [hend]
  constructor
  · rintro ⟨k, hk, hstop⟩
    have hle := of_decide_eq_false hstop
    rcases Nat.lt_or_ge k 52 with hlt | hge
    · rw [shiftPages_eq hlt] at hle
      have hpow : 2 ^ k ≤ 2 ^ 51 := Nat.pow_le_pow_right (by decide) (Nat.le_of_lt_succ hlt)
      omega
    · rw [shiftPages_zero hge hk] at hle
      exact absurd h0 hle
  · intro hle
    refine ⟨51, by decide, decide_eq_false ?_⟩
    rw [shiftPages_eq (by decide)]
    omega

/-- For pages, `kvmalloc` finds the order exactly for these sizes. -/
theorem kvmallocOrders_iff (h : 2048 < size) : KvmallocOrders size ↔ size ≤ 2 ^ 63 := by
  have h0 : 0 < size := by omega
  rw [← kvmallocLoop_ends h0]
  refine orders_iff_ends shiftPages (fun k hk => shiftPages_eq (Nat.lt_trans hk (by decide))) ?_ ?_
  · intro fuel k hloop β A cachesAt caller s
    have horder : orderFor size = some k := (orderFor_eq_some h0).mpr ⟨fuel, hloop⟩
    rw [kvmalloc, if_neg h0.ne', if_neg (Nat.not_le.mpr h), horder]
  · intro k hk hgoes ram ra cachesAt caller s
    rw [hgoes State (buddy ram ra) cachesAt caller s]
    change (Kalloc.kalloc ram s.pages k ra).within _ = _
    rw [Kalloc.kalloc, if_pos hk]
    rfl

/-! ## spawn_process -/

/-- The loop over the order counts up. -/
theorem segmentLoop_eq (memSize : Nat) :
    segmentLoop memSize = fun fuel =>
      countUp (fun order => decide (shiftPage order < memSize)) fuel 0 :=
  funext fun fuel => orderLoop_eq_countUp memSize fuel 0

/-- In an `int` the machine takes the shift modulo 32. -/
theorem shiftPage_periodic : Function.Periodic shiftPage 32 := by
  intro k
  rw [shiftPage, shiftPage, Nat.add_mod_right]

/-- So the condition of this loop has this period. -/
theorem periodic_segment (memSize : Nat) :
    Function.Periodic (fun order => decide (shiftPage order < memSize)) 32 :=
  shiftPage_periodic.comp fun x => decide (x < memSize)

/-- 32 rounds are enough. -/
theorem orderOf_eq_some : orderOf memSize = some k ↔ ∃ fuel, segmentLoop memSize fuel = some k := by
  rw [orderOf, orderLoop_eq_countUp, segmentLoop_eq]
  exact countUp_period (periodic_segment memSize) (by decide)

/-- The greatest shift is the one into the sign. -/
theorem segmentLoop_ends : (∃ fuel k, segmentLoop memSize fuel = some k) ↔
    memSize ≤ 2 ^ 64 - 2 ^ 31 := by
  rw [segmentLoop_eq, countUp_ends (periodic_segment memSize) (by decide)]
  constructor
  · rintro ⟨k, hk, hstop⟩
    have hall : ∀ k < 32, shiftPage k ≤ 2 ^ 64 - 2 ^ 31 := by decide
    exact (Nat.not_lt.mp (of_decide_eq_false hstop)).trans (hall k hk)
  · intro hle
    have hsign : shiftPage 19 = 2 ^ 64 - 2 ^ 31 := by decide
    refine ⟨19, by decide, decide_eq_false ?_⟩
    rw [hsign]
    exact Nat.not_lt.mpr hle

/-- `spawn_process` finds an order exactly for sizes up to the greatest shifted page. -/
theorem segmentOrders_iff : SegmentOrders memSize ↔ memSize ≤ 2 ^ 64 - 2 ^ 31 := by
  rw [← segmentLoop_ends, SegmentOrders, segmentLoop_eq]
  refine orders_iff_ends shiftPage (fun k hk => shiftPage_eq (Nat.lt_trans hk (by decide))) ?_ ?_
  · rintro fuel k hend β A binary userTable ph s rfl
    have horder : orderOf ph.pMemsz = some k :=
      orderOf_eq_some.mpr ⟨fuel, (orderLoop_eq_countUp ..).trans hend⟩
    rw [loadSegment, horder]
  · intro k hk hgoes ram ra binary userTable ph s hmem
    rw [hgoes State (buddy ram ra) binary userTable ph s hmem]
    have hstop : kallocBlock (buddy ram ra) k s = .panic 100 k s := by
      unfold kallocBlock
      change ((Kalloc.kalloc ram s.pages k ra).within _).bind _ = _
      rw [Kalloc.kalloc, if_pos hk]
      rfl
    rw [hstop]
    rfl

/-! ## Which sizes -/

/-- A request to `kvmalloc` gets an order if it is for at most 2⁶³ bytes, and a segment if it has at
most 2⁶⁴ - 2³¹ bytes. -/
theorem orders_iff (size memSize : Nat) (h : 2048 < size) (_ : size < 2 ^ 64)
    (_ : memSize < 2 ^ 64) :
    (KvmallocOrders size ↔ size ≤ 2 ^ 63) ∧ (SegmentOrders memSize ↔ memSize ≤ 2 ^ 64 - 2 ^ 31) :=
  ⟨kvmallocOrders_iff h, segmentOrders_iff⟩

/-- Two pages for `kvmalloc`, and three bytes more than a page for a segment. -/
theorem orders_small : KvmallocOrders 8192 ∧ SegmentOrders 4099 := by
  obtain ⟨hkvmalloc, hsegment⟩ := orders_iff 8192 4099 (by decide) (by decide) (by decide)
  exact ⟨hkvmalloc.mpr (by decide), hsegment.mpr (by decide)⟩

/-- The loops do not end for a byte more than 2⁶³ and for the greatest `p_memsz`. -/
theorem orders_too_large : ¬ KvmallocOrders (2 ^ 63 + 1) ∧ ¬ SegmentOrders (2 ^ 64 - 1) ∧
    (∀ fuel, kvmallocLoop (2 ^ 63 + 1) fuel = none) ∧ ∀ fuel,
      segmentLoop (2 ^ 64 - 1) fuel = none := by
  refine ⟨fun h => ?_, fun h => ?_, fun fuel => ?_, fun fuel => ?_⟩
  · exact absurd ((kvmallocOrders_iff (by decide)).mp h) (by decide)
  · exact absurd (segmentOrders_iff.mp h) (by decide)
  · refine Option.eq_none_iff_forall_ne_some.mpr fun k hk => ?_
    exact absurd ((kvmallocLoop_ends (by decide)).mp ⟨fuel, k, hk⟩) (by decide)
  · refine Option.eq_none_iff_forall_ne_some.mpr fun k hk => ?_
    exact absurd (segmentLoop_ends.mp ⟨fuel, k, hk⟩) (by decide)

end RexOS.Loader
