import RexOS.Core.Counting
import RexOS.Loader.Load

/-!
# The segments of an image

The headers with `p_type` 1 are loaded one after the other. Where the file and the memory size of
each are in order, the loop returns when the blocks of any two share no page, or only pages that
the tables do not notice.
-/

namespace RexOS.Loader

open Bits RexOS.Kalloc RexOS.Paging Radix

variable {β : Type} {A : PageAlloc β} {Owns : β → List Grant → Prop} {root : Nat} {m₀ : Nat → Nat}
  {stack : Grant} {R L : List Grant} {s s' : Space β} {bs cs : List Made} {b : Made}
  {binary : Nat → UInt8} {ph : Phdr} {phs : List Phdr} {k n memSize : Nat}

/-! ## The order of a block -/

/-- Below 19 the shift stays within an `int`. -/
theorem shiftPage_eq {order : Nat} (h : order < 19) : shiftPage order = 4096 * 2 ^ order := by
  have hall : ∀ k < 19, shiftPage k = 4096 * 2 ^ k := by decide
  exact hall order h

/-- The loop over the order counts up. -/
theorem orderLoop_eq_countUp (memSize fuel order : Nat) :
    orderLoop memSize fuel order = countUp (fun k => decide (shiftPage k < memSize))
      fuel order := by
  induction fuel generalizing order with
  | zero => rfl
  | succ fuel ih => simp only [orderLoop, countUp, ih, decide_eq_true_eq]

/-- It stops at the first order that is large enough. -/
theorem orderLoop_eq_some {fuel order : Nat} : orderLoop memSize fuel order = some k ↔
    order ≤ k ∧ k < order + fuel ∧ memSize ≤ shiftPage k ∧
      ∀ j, order ≤ j → j < k → shiftPage j < memSize := by
  simp only [orderLoop_eq_countUp, countUp_eq_some, decide_eq_true_eq,
    decide_eq_false_iff_not, Nat.not_lt]

/-- The least order that suffices. -/
theorem orderOf_spec (h : orderOf memSize = some k) (hk : k < maxOrder) :
    memSize ≤ 4096 * 2 ^ k ∧ ∀ j < k, 4096 * 2 ^ j < memSize := by
  have hk12 : k < 12 := hk
  obtain ⟨-, -, hsz, hlow⟩ := orderLoop_eq_some.mp h
  rw [shiftPage_eq (by omega)] at hsz
  refine ⟨hsz, fun j hj => ?_⟩
  have hlt := hlow j (Nat.zero_le j) hj
  rwa [shiftPage_eq (by omega)] at hlt

/-- `kalloc` has a block for 8 MiB and no more. -/
theorem orderOf_lt_iff : (∃ k < maxOrder, orderOf memSize = some k) ↔ memSize ≤ 2 ^ 23 := by
  constructor
  · rintro ⟨k, hk, h⟩
    have hle := (orderOf_spec h hk).1
    have hpow : 2 ^ k ≤ 2 ^ 11 := Nat.pow_le_pow_right (by decide) (Nat.le_of_lt_succ hk)
    omega
  · intro hle
    have hex : ∃ k, memSize ≤ 4096 * 2 ^ k := ⟨11, hle⟩
    have hfind : Nat.find hex ≤ 11 := Nat.find_min' hex hle
    refine ⟨Nat.find hex, Nat.lt_succ_of_le hfind,
      orderLoop_eq_some.mpr ⟨Nat.zero_le _, by omega, ?_, fun j _ hj => ?_⟩⟩
    · rw [shiftPage_eq (by omega)]
      exact Nat.find_spec hex
    · rw [shiftPage_eq (by omega)]
      exact Nat.lt_of_not_le (Nat.find_min hex hj)

/-! ## Headers -/

namespace Phdr

/-- The page the segment starts in. -/
def start (ph : Phdr) : Nat := ph.pVaddr / 4096 * 4096

def order (ph : Phdr) : Nat := (orderOf ph.pMemsz).getD 0

/-- The size of the block. -/
def size (ph : Phdr) : Nat := 4096 * 2 ^ ph.order

/-- The call that maps the block at `buff`. -/
def call (ph : Phdr) (buff : Nat) : MapCall := ⟨true, ph.start, buff, ph.size, permOf ph.pFlags⟩

/-- There is a block for the segment, which holds its part of the file as well, a leaf for its
flags, and the block ends with the addresses of a user. -/
structure Usable (ph : Phdr) : Prop where
  filesz : ph.pFilesz ≤ ph.size
  memsz : ph.pMemsz ≤ 2 ^ 23
  perm : permOf ph.pFlags ∈ leafPerms
  virEnd : ph.start + ph.size ≤ 2 ^ 38

/-- A usable segment has an order, below `MAX_ORDER`. -/
theorem Usable.orderOf_eq (h : ph.Usable) : orderOf ph.pMemsz = some ph.order ∧
    ph.order < maxOrder := by
  obtain ⟨k, hk, he⟩ := orderOf_lt_iff.mpr h.memsz
  have horder : ph.order = k := by rw [order, he, Option.getD_some]
  rw [horder]
  exact ⟨he, hk⟩

/-- A block that `kalloc` has holds the segment. -/
theorem memsz_le_size (h : ph.pMemsz ≤ 2 ^ 23) : ph.pMemsz ≤ ph.size := by
  obtain ⟨k, hk, he⟩ := orderOf_lt_iff.mpr h
  have horder : ph.order = k := by rw [order, he, Option.getD_some]
  rw [size, horder]
  exact (orderOf_spec he hk).1

/-- Its block holds the segment. -/
theorem Usable.memsz_le (h : ph.Usable) : ph.pMemsz ≤ ph.size := memsz_le_size h.memsz

/-- Nothing is filled behind its block. -/
theorem Usable.filled_le (h : ph.Usable) : ph.filled ≤ ph.size := max_le h.filesz h.memsz_le

/-- Its call maps whole pages. -/
theorem Usable.whole (h : ph.Usable) {buff : Nat} (ha : 2 ^ ph.order * 4096 ∣ buff)
    (hlow : buff < 2 ^ 56) : (ph.call buff).Whole ph.order := by
  have hsize : ph.size = 2 ^ ph.order * 4096 := Nat.mul_comm _ _
  have hpage : 4096 ∣ ph.size := Nat.dvd_mul_right _ _
  have hend := h.virEnd
  refine ⟨⟨Nat.dvd_mul_left _ _, ?_, hpage, ?_, ?_, h.perm⟩, h.orderOf_eq.2, rfl, ?_⟩
  · exact (Nat.dvd_mul_left _ _).trans ha
  · simp only [call]
    omega
  · -- an aligned block does not reach over the end
    have horder : ph.order < 12 := h.orderOf_eq.2
    have hd : ph.size ∣ 2 ^ 56 := by
      have hpow : ph.size = 2 ^ (12 + ph.order) := by rw [size, Nat.pow_add]
      rw [hpow]
      exact pow_dvd_pow 2 (by omega)
    rw [← hsize] at ha
    have hpos : 0 < ph.size := Nat.mul_pos (by decide) (Nat.two_pow_pos _)
    have hle := Nat.le_of_dvd (by omega) (Nat.dvd_sub hd ha)
    simp only [call]
    omega
  · rw [Nat.mul_comm]
    exact ha

end Phdr

/-! ## One segment -/

/-- The block of a segment as it is when it is mapped: the bytes of the segment, then what was
there at the beginning. -/
structure Placed (binary : Nat → UInt8) (m₀ : Nat → Nat) (ph : Phdr) (b : Made) : Prop where
  call : b.call = ph.call b.call.physAddr
  dvd : 8 ∣ b.call.physAddr
  segment : ∀ o < ph.filled, byteAt b.mem (b.call.physAddr + o) = segByte binary ph o
  rest : ∀ o, ph.filled ≤ o → o < ph.size →
    byteAt b.mem (b.call.physAddr + o) = byteAt m₀ (b.call.physAddr + o)

/-- Earlier and later blocks share no page, or only pages that are not noticed. -/
def Sharing (bs : List Made) : Prop := bs.Pairwise fun a b => MapCall.Shares a.mem a.call b.call

/-- A byte depends on its word only. -/
theorem byteAt_congr {m m' : Nat → Nat} {x : Nat} (h : m (x / 8 * 8) = m' (x / 8 * 8)) :
    byteAt m x = byteAt m' x := by
  rw [byteAt, byteAt, h]

/-- What is granted now has not been written. -/
theorem Loaded.fresh (hA : A.Grants Owns) (h : Loaded Owns root m₀ stack R s L bs) {buff w : Nat}
    {b' : β} (hrun : A.kalloc s.pages k = .done buff b') (hw : w ∈ (Grant.mk buff k).extent) :
    s.mem w = m₀ w := by
  by_contra hne
  obtain ⟨g, hg, hin⟩ := h.untouched w hne
  exact Set.disjoint_left.mp (disjoint_of_take hA h.tiled.owns hrun hg) hin hw

/-- A block given now lies below `2 ^ 56`. -/
theorem low_of_take (hA : A.Grants Owns) (hlow : ∀ b L, Owns b L → Low L) {buff : Nat} {b b' : β}
    (h : Reserving Owns R b L) (hrun : A.kalloc b k = .done buff b') : buff < 2 ^ 56 := by
  obtain ⟨M, howns, -, -⟩ := h
  exact hlow _ _ (hA.kalloc howns hrun).2 _ List.mem_cons_self

/-- A block that is granted is aligned to its size. -/
theorem aligned_of_take (hal : A.Aligned Owns) {buff : Nat} {b b' : β} (h : Reserving Owns R b L)
    (hrun : A.kalloc b k = .done buff b') : 2 ^ k * 4096 ∣ buff ∧ k < maxOrder := by
  obtain ⟨M, howns, -, -⟩ := h
  exact hal howns hrun

/-- A call that has the memory it wants. -/
theorem exists_block (hk : k < maxOrder) {j : Nat}
    (hgo : A.Stock (j + 1) n s.pages ∨ (kallocBlock A k s).Ends) :
    ∃ buff b', A.kalloc s.pages k = .done buff b' ∧
      (A.Stock (j + 1) n s.pages → A.Stock j n b') := by
  have hrun : ∃ buff b', A.kalloc s.pages k = .done buff b' := by
    rcases hgo with hstock | hends
    · obtain ⟨buff, b', hrun, -⟩ := hstock.block hk
      exact ⟨buff, b', hrun⟩
    · obtain ⟨buff, s₁, hrun⟩ := hends.of_bind
      obtain ⟨b', hrun, -⟩ := Outcome.within_eq_done.mp hrun
      exact ⟨buff, b', hrun⟩
  obtain ⟨buff, b', hrun⟩ := hrun
  exact ⟨buff, b', hrun, fun hstock => hstock.of_block hk hrun⟩

/-- Where there is memory, or the call comes back, there is a page. -/
theorem exists_page {j : Nat} (hgo : A.Stock j (n + 1) s.pages ∨ (kallocBlock A 0 s).Ends) :
    ∃ page b', A.kalloc s.pages 0 = .done page b' ∧
      (A.Stock j (n + 1) s.pages → A.Stock j n b') := by
  have hrun : ∃ page b', A.kalloc s.pages 0 = .done page b' := by
    rcases hgo with hstock | hends
    · obtain ⟨page, b', hrun, -⟩ := hstock.page
      exact ⟨page, b', hrun⟩
    · obtain ⟨page, s₁, hrun⟩ := hends.of_bind
      obtain ⟨b', hrun, -⟩ := Outcome.within_eq_done.mp hrun
      exact ⟨page, b', hrun⟩
  obtain ⟨page, b', hrun⟩ := hrun
  exact ⟨page, b', hrun, fun hstock => hstock.of_page hrun⟩

/-- A segment is loaded when its block shares no page with those before, or only pages that are not
noticed. Else the machine stops. -/
theorem Loaded.segment (binary : Nat → UInt8) (hA : A.Grants Owns) (hal : A.Aligned Owns)
    (hlow : ∀ b L, Owns b L → Low L)
    (h : Loaded Owns root m₀ stack R s L bs) (hu : ph.Usable) {j : Nat}
    (hgo : A.Stock (j + 1) (n + 2 * 2 ^ ph.order) s.pages ∨ (loadSegment A binary root ph s).Ends) :
    ∃ b, Placed binary m₀ ph b ∧
      (((∀ a ∈ bs, MapCall.Shares a.mem a.call b.call) ∧ ∃ R' s' L',
        loadSegment A binary root ph s = .done () s' ∧
        Loaded Owns root m₀ stack R' s' L' (bs ++ [b]) ∧
        (A.Stock (j + 1) (n + 2 * 2 ^ ph.order) s.pages → A.Stock j n s'.pages)) ∨
      ((∃ a ∈ bs, ¬ MapCall.Shares a.mem a.call b.call) ∧
        ∃ arg s', loadSegment A binary root ph s = .panic 107 arg s')) := by
  obtain ⟨hk, hk12⟩ := hu.orderOf_eq
  have hblock : (loadSegment A binary root ph s).Ends → (kallocBlock A ph.order s).Ends := by
    intro hends
    rw [loadSegment, hk] at hends
    exact hends.of_bind
  obtain ⟨buff, b', hrun, hst⟩ := exists_block hk12 (hgo.imp_right hblock)
  have hd := (aligned_of_take hal h.tiled.owns hrun).1
  have hblock := (reserving_block hA (reserving_take hA h.tiled.owns hrun)
    (Or.inl List.mem_cons_self)).2.2
  have hc := hu.whole hd (low_of_take hA hlow h.tiled.owns hrun)
  have hsize : 2 ^ ph.order * 4096 = ph.size := Nat.mul_comm _ _
  have hle := hu.filled_le
  simp only [hsize] at hblock
  have hpage : 4096 ∣ buff := (Nat.dvd_mul_left _ _).trans hd
  obtain ⟨s₁, hs₁⟩ :
      ∃ s₁, fillBlock binary ph buff { s with pages := b', given := buff :: s.given } = s₁ :=
    ⟨_, rfl⟩
  have hend : buff + ph.filled ≤ 2 ^ 64 := by omega
  have hfill : Filled binary ph buff { s with pages := b', given := buff :: s.given } s₁ :=
    hs₁ ▸ filled_fillBlock (Nat.dvd_trans (by decide) hpage) hend _
  have hseg : loadSegment A binary root ph s =
      mapPieces A (ph.call buff).user (ph.call buff).perm root ph.pVaddr
        (ph.call buff).pieces s₁ := by
    have hbuff : buff / 4096 * 4096 = buff := Nat.div_mul_cancel hpage
    have hshift : shiftPage ph.order = ph.size := shiftPage_eq (hk12.trans (by decide))
    rw [loadSegment, hk]
    simp only [kallocBlock, hrun, Outcome.within, Outcome.bind_done, hs₁, uvmMap, hshift]
    rw [mapRange_eq true, hbuff]
    rfl
  have hmem : ∀ w, w ∉ (Grant.mk buff ph.order).extent → s₁.mem w = s.mem w := by
    intro w hw
    apply hfill.words w
    by_contra hin
    refine hw ⟨?_, ?_⟩
    · simp only
      omega
    · simp only [hsize]
      omega
  have hplaced : Placed binary m₀ ph ⟨ph.call buff, s₁.mem⟩ := by
    refine ⟨rfl, Nat.dvd_trans (by decide) hpage, hfill.segment, fun o ho hlt => ?_⟩
    have hrest := hfill.rest (buff + o) (Or.inr (by omega))
    refine hrest.trans (byteAt_congr (h.fresh hA hrun ⟨?_, ?_⟩))
    · simp only
      omega
    · simp only [hsize]
      omega
  have hpages : s₁.pages = b' := hfill.pages
  rw [← hpages] at hst
  refine ⟨_, hplaced, ?_⟩
  rw [hseg] at hgo ⊢
  rcases h.mapBlock hA hc rfl hrun hpages hmem ph.pVaddr (hgo.imp_left hst) with
    ⟨hs, s', L', hmap, hl, hst'⟩ | hno
  · exact Or.inl ⟨hs, _, s', L', hmap, hl, hst' ∘ hst⟩
  · exact Or.inr hno

/-! ## All segments -/

/-- The headers that the loop comes to. -/
def headers (binary : Nat → UInt8) (phentsize : Nat) : (n ph : Nat) → List Phdr
  | 0, _ => []
  | n + 1, ph => phdrAt binary ph :: headers binary phentsize n (wrap (ph + phentsize))

/-- Those with `p_type` 1. -/
def segments (binary : Nat → UInt8) : List Phdr :=
  (headers binary (Bytes.load binary 54 2) (Bytes.load binary 56 2) (Bytes.load binary 32 8)).filter
    fun ph => ph.pType = 1

/-- Load segments one after the other. -/
def loadAll (A : PageAlloc β) (binary : Nat → UInt8) (userTable : Nat) :
    List Phdr → Space β → Outcome (Space β) Unit
  | [], s => .done () s
  | ph :: phs, s => (loadSegment A binary userTable ph s).bind fun _ s =>
      loadAll A binary userTable phs s

/-- The loop over the headers loads those of type `PT_LOAD`, one after the other. -/
theorem loadSegments_eq (phentsize n ph : Nat) (s : Space β) :
    loadSegments A binary root phentsize n ph s =
      loadAll A binary root ((headers binary phentsize n ph).filter fun ph => ph.pType = 1) s := by
  induction n generalizing ph s with
  | zero => rfl
  | succ n ih =>
    rw [loadSegments, headers]
    by_cases ht : (phdrAt binary ph).pType = 1
    · rw [if_pos ht, List.filter_cons_of_pos (by simpa using ht), loadAll]
      congr 1
      funext _ s
      exact ih _ s
    · rw [if_neg ht, List.filter_cons_of_neg (by simpa using ht), Outcome.bind_done]
      exact ih _ s

/-- The pages for tables that the segments may need. -/
def tablePages (phs : List Phdr) : Nat :=
  (phs.map fun ph => if ph.pMemsz ≤ 2 ^ 23 then 2 * 2 ^ ph.order else 0).sum

/-- What a segment may need in tables adds up. -/
theorem tablePages_cons (hu : ph.Usable) :
    tablePages (ph :: phs) = 2 * 2 ^ ph.order + tablePages phs := by
  have hsum : tablePages (ph :: phs) =
      (if ph.pMemsz ≤ 2 ^ 23 then 2 * 2 ^ ph.order else 0) + tablePages phs := List.sum_cons
  rw [hsum, if_pos hu.memsz]

section All

variable (hA : A.Grants Owns) (hal : A.Aligned Owns) (hlow : ∀ b L, Owns b L → Low L)
  {j : Nat}
include hA hal hlow

/-- What the loop leaves when it returns. -/
theorem Loaded.loadAll_done (h : Loaded Owns root m₀ stack R s L bs) (hu : ∀ ph ∈ phs, ph.Usable)
    (hrun : loadAll A binary root phs s = .done () s') :
    ∃ R' L' cs, Loaded Owns root m₀ stack R' s' L' (bs ++ cs) ∧
      List.Forall₂ (Placed binary m₀) phs cs ∧ (Sharing bs → Sharing (bs ++ cs)) ∧
      (A.Stock (j + phs.length) (n + tablePages phs) s.pages → A.Stock j n s'.pages) := by
  induction phs generalizing R s L bs with
  | nil =>
    obtain ⟨-, rfl⟩ := Outcome.done.inj hrun
    refine ⟨R, L, [], ?_, .nil, ?_, id⟩
    · rw [List.append_nil]
      exact h
    · rw [List.append_nil]
      exact id
  | cons ph phs ih =>
    obtain ⟨_, s₁, hfirst, hrest⟩ := Outcome.bind_eq_done.mp hrun
    obtain ⟨b, hb, ⟨hs, R₁, s₂, L₁, hseg, hl, hst'⟩ | ⟨-, hno⟩⟩ :=
      h.segment (j := j + phs.length) (n := n + tablePages phs) binary hA hal hlow
        (hu ph List.mem_cons_self) (Or.inr ⟨(), s₁, hfirst⟩)
    · obtain ⟨-, rfl⟩ := Outcome.done.inj (hseg.symm.trans hfirst)
      obtain ⟨R', L', cs, hl', hcs, hsh, hst''⟩ :=
        ih hl (fun x hx => hu x (List.mem_cons_of_mem _ hx)) hrest
      rw [List.append_assoc, List.singleton_append] at hl' hsh
      refine ⟨R', L', b :: cs, hl', .cons hb hcs, fun hbs => hsh ?_, fun hstock => hst'' (hst' ?_)⟩
      swap
      · rw [List.length_cons, tablePages_cons (hu ph List.mem_cons_self)] at hstock
        exact hstock.mono (by omega) (by omega)
      refine List.pairwise_append.mpr ⟨hbs, List.pairwise_singleton _ _, fun a ha c hc => ?_⟩
      obtain rfl := List.mem_singleton.mp hc
      exact hs a ha
    · obtain ⟨arg, s₂, hno⟩ := hno
      rw [hno] at hfirst
      cases hfirst

/-- It returns or stops the machine with 107. -/
theorem Loaded.loadAll_cases (binary : Nat → UInt8) (h : Loaded Owns root m₀ stack R s L bs)
    (hu : ∀ ph ∈ phs, ph.Usable)
    (hstock : A.Stock (j + phs.length) (n + tablePages phs) s.pages) :
    (∃ s', loadAll A binary root phs s = .done () s') ∨
      ∃ arg s', loadAll A binary root phs s = .panic 107 arg s' := by
  induction phs generalizing R s L bs with
  | nil => exact Or.inl ⟨s, rfl⟩
  | cons ph phs ih =>
    have hst : A.Stock (j + phs.length + 1) (n + tablePages phs + 2 * 2 ^ ph.order) s.pages := by
      rw [List.length_cons, tablePages_cons (hu ph List.mem_cons_self)] at hstock
      exact hstock.mono (by omega) (by omega)
    obtain ⟨b, hb, ⟨-, R₁, s₁, L₁, hseg, hl, hst'⟩ | ⟨-, arg, s', hseg⟩⟩ :=
      h.segment binary hA hal hlow (hu ph List.mem_cons_self) (Or.inl hst)
    · rw [loadAll, hseg, Outcome.bind_done]
      exact ih hl (fun x hx => hu x (List.mem_cons_of_mem _ hx)) (hst' hst)
    · rw [loadAll, hseg, Outcome.bind_panic]
      exact Or.inr ⟨arg, s', rfl⟩

/-- It returns when no two blocks meet noticeably. -/
theorem Loaded.loadAll_returns (h : Loaded Owns root m₀ stack R s L bs)
    (hu : ∀ ph ∈ phs, ph.Usable)
    (hstock : A.Stock (j + phs.length) (n + tablePages phs) s.pages)
    (hs : ∀ qs cs, qs <+: phs → List.Forall₂ (Placed binary m₀) qs cs → Sharing (bs ++ cs)) :
    ∃ s', loadAll A binary root phs s = .done () s' := by
  induction phs generalizing R s L bs with
  | nil => exact ⟨s, rfl⟩
  | cons ph phs ih =>
    have hst : A.Stock (j + phs.length + 1) (n + tablePages phs + 2 * 2 ^ ph.order) s.pages := by
      rw [List.length_cons, tablePages_cons (hu ph List.mem_cons_self)] at hstock
      exact hstock.mono (by omega) (by omega)
    obtain ⟨b, hb, ⟨-, R₁, s₁, L₁, hseg, hl, hst'⟩ | ⟨⟨a, ha, hno⟩, -⟩⟩ :=
      h.segment binary hA hal hlow (hu ph List.mem_cons_self) (Or.inl hst)
    · obtain ⟨s', hrest⟩ := ih hl (fun x hx => hu x (List.mem_cons_of_mem _ hx)) (hst' hst)
          fun qs cs hqs hcs => by
        rw [List.append_assoc, List.singleton_append]
        exact hs (ph :: qs) (b :: cs) (List.cons_prefix_cons.mpr ⟨rfl, hqs⟩) (.cons hb hcs)
      exact ⟨s', by rw [loadAll, hseg, Outcome.bind_done, hrest]⟩
    · have hone := hs [ph] [b] (List.cons_prefix_cons.mpr ⟨rfl, List.nil_prefix⟩) (.cons hb .nil)
      exact absurd ((List.pairwise_append.mp hone).2.2 a ha b List.mem_cons_self) hno

end All

end RexOS.Loader
