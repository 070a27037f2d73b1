import RexOS.Kalloc.Stock
import RexOS.Kvmalloc.OnSlab

/-!
# What callers of `kvmalloc` may count on

With memory to spare `kvmalloc` returns, and leaves what it did not need. Objects lie in blocks that
the page allocator has granted, and what is written for them fits into 64 bits.
-/

namespace RexOS.Kvmalloc

open Kalloc (Grant PageAlloc maxOrder)
open Bits

variable {β : Type} {A : PageAlloc β} {Owns : β → List Grant → Prop} {cachesAt : Nat}
  {s t : Heap β} {a : Stock β} {objs : List Obj} {L : List Grant} {i n m size : Nat}

/-! ## Memory to spare -/

/-- The blocks and the single pages that an object needs at most. -/
def blocksFor (size : Nat) : Nat := if size ≤ 2048 then 0 else 1
def pagesFor (size : Nat) : Nat := if size ≤ 512 then 1 else if size ≤ 2048 then 2 else 0

/-- Up to 8 MiB there is an order below `MAX_ORDER`. -/
theorem orderFor_lt {k : Nat} (h8 : size ≤ 0x800000) (hk : orderFor size = some k) :
    k < maxOrder := by
  by_contra hge
  have h11 := (List.find?_range_eq_some.mp hk).2.2 11 (Nat.lt_of_lt_of_le (by decide)
    (Nat.not_lt.mp hge))
  have : 4096 <<< 11 = 0x800000 := by decide
  simp only [Bool.not_not, decide_eq_true_eq] at h11
  omega

/-- An object of an on-slab cache needs one page at most. -/
theorem Stock.cacheAlloc_onSlab (hi : i < 6) (h : A.Stock n (m + 1) a.pages) (depth caller : Nat) :
    ∃ slot a', Stock.cacheAlloc A (depth + 1) a i caller = .done slot a' ∧
      A.Stock n m a'.pages := by
  rw [Stock.cacheAlloc]
  cases takeSlot a.shelf i with
  | some p => exact ⟨p.1, _, rfl, h.mono le_rfl (Nat.le_succ m)⟩
  | none =>
    obtain ⟨page, b, hrun, hleft⟩ := h.page
    rw [hrun]
    simp only [Outcome.within, Outcome.bind_done, hi, if_true]
    exact ⟨_, _, rfl, hleft⟩

/-- One of an off-slab cache may need another one for the header. -/
theorem Stock.cacheAlloc_offSlab (hi : 6 ≤ i) (h : A.Stock n (m + 2) a.pages)
    (depth caller : Nat) : ∃ slot a', Stock.cacheAlloc A (depth + 2) a i caller = .done slot a' ∧
      A.Stock n m a'.pages := by
  rw [Stock.cacheAlloc]
  cases takeSlot a.shelf i with
  | some p => exact ⟨p.1, _, rfl, h.mono le_rfl (Nat.le_add_right m 2)⟩
  | none =>
    obtain ⟨page, b, hrun, hleft⟩ := PageAlloc.Stock.page (m := m + 1) h
    obtain ⟨header, a', hheader, hleft'⟩ :=
      Stock.cacheAlloc_onSlab (a := ⟨a.shelf, b⟩) (by decide : 2 < 6) hleft depth caller
    rw [hrun]
    simp only [Outcome.within, Outcome.bind_done, Nat.not_lt.mpr hi, if_false, hheader]
    exact ⟨_, _, rfl, hleft'⟩

/-- With the memory a request needs, it returns and leaves the rest. -/
theorem Stock.alloc_returns (h : A.Stock (n + blocksFor size) (m + pagesFor size) a.pages)
    (h8 : size ≤ 0x800000) (caller : Nat) :
    ∃ slot a', a.alloc A size caller = .done slot a' ∧ A.Stock n m a'.pages := by
  unfold blocksFor pagesFor at h
  unfold Stock.alloc
  by_cases h512 : size ≤ 512
  · obtain ⟨i, hi, hc⟩ := classOf_onSlab h512
    rw [if_pos (h512.trans (by decide)), if_pos h512] at h
    rw [hc]
    exact Stock.cacheAlloc_onSlab hi h 1 caller
  by_cases h2048 : size ≤ 2048
  · obtain ⟨i, hi, -, -, hc⟩ := classOf_small h2048
    rw [if_pos h2048, if_neg h512, if_pos h2048] at h
    rw [hc]
    rcases Nat.lt_or_ge i 6 with h6 | h6
    · exact Stock.cacheAlloc_onSlab h6 (h.mono le_rfl (Nat.le_succ _)) 1 caller
    · exact Stock.cacheAlloc_offSlab h6 h 0 caller
  · obtain ⟨k, hk, -, hc⟩ := classOf_large (Nat.not_le.mp h2048) h8
    rw [if_neg h2048, if_neg h512, if_neg h2048] at h
    rw [hc]
    obtain ⟨p, b, hrun, hleft⟩ := h.block (orderFor_lt h8 hk)
    dsimp only
    rw [hrun]
    exact ⟨p, _, rfl, hleft⟩

/-- With memory for it, an object is handed out, and the rest of that memory is left. -/
theorem Holds.kvmalloc_returns (hA : A.Grants Owns) (hh : Holds cachesAt Owns s a objs L)
    (h : A.Stock (n + blocksFor size) (m + pagesFor size) s.pages) (h1 : 1 ≤ size)
    (h8 : size ≤ 0x800000) (caller : Nat) :
    ∃ p t a' L', kvmalloc A cachesAt s size caller = .done p t ∧
      Holds cachesAt Owns t a' (⟨p, size⟩ :: objs) L' ∧ WritesIn L' s t ∧ A.Stock n m t.pages := by
  rw [hh.pages] at h
  obtain ⟨p, a', hrun, hleft⟩ := Stock.alloc_returns h h8 caller
  have hsim := kvmalloc_spec hA hh h1 h8 caller
  rw [hrun] at hsim
  obtain ⟨t, hkvmalloc, L', hh', hwrites⟩ := hsim.of_done_right
  rw [← hh'.pages] at hleft
  exact ⟨p, t, a', L', hkvmalloc, hh', hwrites, hleft⟩

/-! ## Where objects lie -/

/-- A block of pages is asked for as pages. -/
theorem classOf_block {k : Nat} (hk : k < maxOrder) : classOf (4096 <<< k) = .pages k :=
  (by decide : ∀ k < maxOrder, classOf (4096 <<< k) = .pages k) k hk

/-- The slabs stay where memory agrees on their blocks. -/
theorem Holds.agree (hh : Holds cachesAt Owns s a objs L) {m : Nat → Nat}
    (hkept : ∀ g ∈ L, ∀ x ∈ g.extent, m x = s.mem x) :
    Holds cachesAt Owns { s with mem := m } a objs L where
  rep := by
    refine hh.rep.quiet rfl rfl (fun e he x hx => ?_) fun e he x hx => ?_
    · obtain ⟨g, hg, hin⟩ := header_block hh.layout he hx
      exact hkept g hg x hin
    · have hslot := hh.layout.chain_slots e he x hx
      obtain ⟨g, hg, hin⟩ := slot_block hh.layout he hslot
        ⟨le_rfl, Nat.lt_add_of_pos_right (objSize_pos _)⟩
      exact hkept g hg x hin
  pages := hh.pages
  owns := hh.owns
  layout := hh.layout

/-- A block that is taken from the page allocator is one more object. -/
theorem Holds.takeBlock (hh : Holds cachesAt Owns s a objs L) {Owns' : β → List Grant → Prop}
    {b : β} {p k : Nat} (hk : k < maxOrder) (hblocks : Kalloc.Blocks (⟨p, k⟩ :: L))
    (hfresh : ∀ g ∈ L, g.addr ≠ p) (howns : Owns' b (⟨p, k⟩ :: L)) :
    Holds cachesAt Owns' { s with pages := b } { a with pages := b } (⟨p, 4096 <<< k⟩ :: objs)
      (⟨p, k⟩ :: L) where
  rep := hh.rep.withPages b
  pages := rfl
  owns := howns
  layout := hh.layout.takePages (o := ⟨p, 4096 <<< k⟩) hblocks hfresh (classOf_block hk)

section Objects

variable {shelf : Shelf} (h : Layout (entries shelf) objs L) {o : Obj} (ho : o ∈ objs)
include h ho

/-- An object lies in a block that has been granted. -/
theorem obj_block {x : Nat} (hx : o.Cell x) : ∃ g ∈ L, x ∈ g.extent := by
  unfold Obj.Cell Obj.len at hx
  cases hc : classOf o.size with
  | cache i =>
    rw [hc] at hx
    obtain ⟨e, he, rfl, hslot⟩ := h.obj_slot o ho i hc
    exact slot_block h he hslot hx
  | pages k =>
    rw [hc] at hx
    exact ⟨_, (h.obj_pages o ho k hc).1, hx⟩

/-- An object has an address. -/
theorem obj_addr : 0 < o.addr ∧ o.addr < 2 ^ 64 := by
  cases hc : classOf o.size with
  | cache i =>
    obtain ⟨e, he, rfl, hslot⟩ := h.obj_slot o ho i hc
    have hin := Layout.slot_in_page hslot
    have hpage := h.page_spec he
    omega
  | pages k =>
    have hpage := h.blocks.page _ (h.obj_pages o ho k hc).1
    have hpos := Nat.two_pow_pos k
    simp only at hpage
    omega

end Objects

/-! ## Words -/

/-- Memory and the heads of the lists are words. -/
structure Heap.Words (s : Heap β) : Prop where
  mem : ∀ a, s.mem a < 2 ^ 64
  head : ∀ i < numCaches, ∀ k, s.head i k < 2 ^ 64

namespace Heap.Words

/-- A word is stored. -/
theorem store (h : s.Words) {x v : Nat} (hv : v < 2 ^ 64) : (s.store x v).Words where
  mem y := by
    change Function.update s.mem x v y < 2 ^ 64
    rw [Function.update_apply]
    split
    · exact hv
    · exact h.mem y
  head := h.head

/-- A word is stored on a condition. -/
theorem iteStore (h : s.Words) {c : Prop} [Decidable c] {x v : Nat} (hv : v < 2 ^ 64) :
    (if c then s.store x v else s).Words := by
  split
  · exact h.store hv
  · exact h

/-- A head is stored. -/
theorem setHead (h : s.Words) {k : SlabList} {v : Nat} (hv : v < 2 ^ 64) :
    (s.setHead i k v).Words where
  mem := h.mem
  head j hj l := by
    rw [Heap.head_setHead]
    split
    · exact hv
    · exact h.head j hj l

variable (h : s.Words) (hi : i < numCaches)
include h hi

/-- A slab moves to the full list. -/
theorem moveToFull {currSlab : Nat} (hc : currSlab < 2 ^ 64) :
    (moveToFull s i currSlab).Words := by
  unfold Kvmalloc.moveToFull
  extract_lets s₁ s₂ s₃ s₄ s₅
  have h₁ : s₁.Words := h.setHead (h.mem _)
  have h₂ : s₂.Words := h₁.iteStore (by decide)
  have h₃ : s₃.Words := h₂.store (h₂.head i hi _)
  have h₄ : s₄.Words := h₃.store (by decide)
  have h₅ : s₅.Words := h₄.iteStore hc
  exact h₅.setHead hc

/-- A slab moves to the partial list. -/
theorem moveToPartial {currSlab : Nat} (hc : currSlab < 2 ^ 64) :
    (moveToPartial s i currSlab).Words := by
  unfold Kvmalloc.moveToPartial
  extract_lets s₁ s₂ s₃ s₄
  have h₁ : s₁.Words := h.setHead (h.mem _)
  have h₂ : s₂.Words := h₁.store (h₁.head i hi _)
  have h₃ : s₃.Words := h₂.iteStore (by decide)
  have h₄ : s₄.Words := h₃.setHead hc
  exact h₄.store (by decide)

/-- A slot of a partial slab is a word. -/
theorem allocPartial : (allocPartial s i).2.Words := by
  unfold Kvmalloc.allocPartial
  extract_lets currSlab slot s₁ s₂ s₃
  have h₁ : s₁.Words := h.store (wrap_lt _)
  have h₂ : s₂.Words := by
    unfold s₂
    split
    · exact h₁.moveToFull hi (h.head i hi _)
    · exact h₁
  exact h₂.store (h₂.mem _)

/-- So is one of an empty slab. -/
theorem allocEmpty : (allocEmpty s i).2.Words := by
  unfold Kvmalloc.allocEmpty
  extract_lets currSlab slot s₁ s₂ s₃
  have h₁ : s₁.Words := h.store (by decide)
  have h₂ : s₂.Words := h₁.moveToPartial hi (h.head i hi _)
  exact h₂.store (h₂.mem _)

omit hi

/-- The loop stores addresses of slots. -/
theorem threadSlots {first n : Nat} (hend : first + n * size < 2 ^ 64) :
    (threadSlots s first size n).Words := by
  induction n with
  | zero => exact h
  | succ n ih =>
    rw [Nat.succ_mul] at hend
    exact (ih (by omega)).store (by rw [Nat.succ_mul]; omega)

/-- What is written into a new slab and its header. -/
theorem initSlab {header newSlab first caller : Nat} (hheader : header < 2 ^ 64)
    (hnew : newSlab < 2 ^ 64) (hcaller : caller < 2 ^ 64) (hcap : 2 ≤ maxObjs (s.caches i))
    (hend : first + (maxObjs (s.caches i) - 1) * (s.caches i).alignedSize < 2 ^ 64) :
    (initSlab s i header newSlab first caller).Words := by
  have hfirst : first + (s.caches i).alignedSize < 2 ^ 64 := by
    have hle := Nat.mul_le_mul_right (s.caches i).alignedSize
      (show 1 ≤ maxObjs (s.caches i) - 1 by omega)
    omega
  rw [initSlab_eq]
  extract_lets t
  have hchain : (chainSlots s first (s.caches i).alignedSize (maxObjs (s.caches i))).Words :=
    (h.threadSlots hend).store (by decide)
  have ht : t.Words :=
    ((((((hchain.store hfirst).store (by decide)).store (by decide)).store (by decide)).store
      hnew).store hnew).store hcaller
  have hhead : (t.setHead i .listPartial header).Words := ht.setHead hheader
  exact ⟨hhead.mem, hhead.head⟩

end Heap.Words

/-- A cache has an address. -/
theorem cacheAddr_lt (hat : cachesAt + 640 ≤ 2 ^ 64) (hi : i < numCaches) :
    cacheAddr cachesAt i < 2 ^ 64 := by
  have hi8 : i < 8 := hi
  unfold cacheAddr
  omega

section Calls

variable (hA : A.Grants Owns) (hat : cachesAt + 640 ≤ 2 ^ 64) {caller : Nat}
  (hcaller : caller < 2 ^ 64)
include hA hat hcaller

omit hA in
/-- A new slab for a cache. -/
theorem Heap.Words.newSlab (h : s.Words) {shelf : Shelf} (hr : Rep cachesAt s shelf)
    (hi : i < numCaches) {page hd : Nat} (hpage : page + 4096 ≤ 2 ^ 64) (hd64 : hd < 2 ^ 64) :
    (Kvmalloc.initSlab (s.setParentCache hd (cacheAddr cachesAt i)) i hd page (firstObj i page)
      caller).Words := by
  have hcap := two_le_capacity hi
  have hmax : maxObjs ((s.setParentCache hd (cacheAddr cachesAt i)).caches i) = capacity i :=
    hr.maxObjs_eq hi
  have hsize : ((s.setParentCache hd (cacheAddr cachesAt i)).caches i).alignedSize = objSize i :=
    hr.size i hi
  have hset : (s.setParentCache hd (cacheAddr cachesAt i)).Words := h.store (cacheAddr_lt hat hi)
  refine hset.initSlab hd64 (by omega) hcaller (hmax ▸ hcap) ?_
  have hend := capacity_le i page
  have hpos := objSize_pos i
  rw [hmax, hsize, Nat.sub_mul, Nat.one_mul]
  have hle := Nat.mul_le_mul_right (objSize i) (show 1 ≤ capacity i by omega)
  omega

/-- A slot from a cache leaves words. -/
theorem kvmemCacheAlloc_words (depth : Nat) : ∀ {s : Heap β} {a : Stock β} {L : List Grant}
    {i : Nat}, Holds cachesAt Owns s a objs L → i < numCaches → s.Words → ∀ {p : Nat} {t : Heap β},
      kvmemCacheAlloc A cachesAt depth s i caller = .done p t → t.Words := by
  induction depth with
  | zero =>
    intro s a L i _ _ _ p t hrun
    cases hrun
  | succ depth ih =>
    intro s a L i hh hi hw p t hrun
    rw [kvmemCacheAlloc] at hrun
    split at hrun
    · obtain ⟨-, rfl⟩ := Outcome.done.inj hrun
      exact hw.allocPartial hi
    split at hrun
    · obtain ⟨-, rfl⟩ := Outcome.done.inj hrun
      exact hw.allocEmpty hi
    obtain ⟨page, s₁, hpage, hrest⟩ := Outcome.bind_eq_done.mp hrun
    obtain ⟨b, hk, rfl⟩ := Outcome.within_eq_done.mp hpage
    obtain ⟨howns, hlay, -, -, -⟩ := kalloc_room hA hh hk
    have hend := (hlay.blocks.single_page List.mem_cons_self).2.2
    have hw₁ : Heap.Words { s with pages := b } := ⟨hw.mem, hw.head⟩
    have hh₁ : Holds cachesAt Owns { s with pages := b } ⟨a.shelf, b⟩ objs (⟨page, 0⟩ :: L) :=
      ⟨hh.rep.withPages b, rfl, howns, hlay⟩
    split at hrest
    · cases hrest
    split at hrest
    · rename_i hflag
      have h6 : i < 6 := (hh.rep.flag i hi).mp hflag
      obtain ⟨-, rfl⟩ := Outcome.done.inj hrest
      have hfirst : page + slabSize = firstObj i page := (if_pos h6).symm
      rw [hfirst]
      exact hw₁.newSlab hat hcaller hh₁.rep hi hend (by omega)
    · rename_i hflag
      have h6 : ¬ i < 6 := fun h => hflag ((hh.rep.flag i hi).mpr h)
      obtain ⟨hd, s₂, hheader, hrest⟩ := Outcome.bind_eq_done.mp hrest
      split at hrest
      · cases hrest
      obtain ⟨-, rfl⟩ := Outcome.done.inj hrest
      have hsim := kvmemCacheAlloc_spec hA caller depth hh₁ (by decide : 2 < numCaches)
      rw [hheader] at hsim
      obtain ⟨a', -, L', -, -, hholds⟩ := hsim.of_done
      have hh₂ := hholds ⟨hd, 64⟩ rfl (by simp only; decide)
      have hhd := (obj_addr hh₂.layout (o := ⟨hd, 64⟩) List.mem_cons_self).2
      have hw₂ := ih hh₁ (by decide : 2 < numCaches) hw₁ hheader
      have hfirst : firstObj i page = page := if_neg h6
      have hnew := hw₂.newSlab hat hcaller hh₂.rep hi hend hhd
      rwa [hfirst] at hnew

/-- So does `kvmalloc`. -/
theorem kvmalloc_words (hh : Holds cachesAt Owns s a objs L) (h1 : 1 ≤ size) (hw : s.Words)
    {p : Nat} (hrun : kvmalloc A cachesAt s size caller = .done p t) : t.Words := by
  unfold kvmalloc at hrun
  rw [if_neg (by omega)] at hrun
  split at hrun
  · rename_i hs
    split at hrun
    · rename_i i hi
      exact kvmemCacheAlloc_words hA hat hcaller 2 hh (List.mem_range.mp (List.mem_of_find?_eq_some
        hi)) hw hrun
    · cases hrun
  · split at hrun
    · obtain ⟨b, -, rfl⟩ := Outcome.within_eq_done.mp hrun
      exact ⟨hw.mem, hw.head⟩
    · cases hrun

end Calls

end RexOS.Kvmalloc
