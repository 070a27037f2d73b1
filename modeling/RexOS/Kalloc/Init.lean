import RexOS.Kalloc.Operations

/-!
# The state `kalloc_init` leaves

The page pool starts at the first multiple of 8 MiB after the metadata, and the loop
puts one block of order 11 after the other on its list for as long as the block starts
below the end of RAM. What the list holds then depends on the layout alone. When the
end of RAM is a multiple of 8 MiB the blocks tile the pool and the invariant holds.
-/

namespace RexOS.Kalloc

open Dyadic Bits

/-- The machine: whole pages of RAM in the 64-bit address space,
with the end of the kernel image inside. -/
structure Machine (ram : Meta) (bssEnd : Nat) : Prop where
  base_page : 4096 ∣ ram.baseAddr
  size_page : 4096 ∣ ram.totalSize
  size_lt : ram.totalSize < 2 ^ 44
  region : ram.baseAddr + ram.totalSize ≤ 2 ^ 64
  bss_ge : ram.baseAddr ≤ bssEnd
  bss_le : bssEnd ≤ ram.baseAddr + ram.totalSize

/-- Where the metadata ends, before any register wraps. -/
def metadataTop (ram : Meta) (bssEnd : Nat) : Nat :=
  (bssEnd + 4095) / 4096 * 4096 + (totalPages ram * 32 + 192)

/-- The metadata, rounded up to 8 MiB, ends below `2 ^ 64`. -/
def Fits (ram : Meta) (bssEnd : Nat) : Prop := metadataTop ram bssEnd + alignmentMask < 2 ^ 64

/-- The greatest block is 8 MiB. -/
theorem maxBlockSize_eq : maxBlockSize = 8388608 := by decide
theorem alignmentMask_eq : alignmentMask = 8388607 := by decide

/-- The index of the first page of the pool. -/
def poolLo (ram : Meta) (bssEnd : Nat) : Nat := (freePoolStart ram bssEnd - ram.baseAddr) / 4096

/-- The number of blocks that start below the end of RAM. -/
def poolCount (ram : Meta) (bssEnd : Nat) : Nat :=
  (poolHorizon ram - freePoolStart ram bssEnd + alignmentMask) / maxBlockSize

/-- The list of order 11 after `j` rounds, the last block first. -/
def poolList (lo : Nat) : Nat → List Nat
  | 0 => []
  | j + 1 => (lo + 2048 * j) :: poolList lo j

/-- The blocks of the pool, one behind the other. -/
theorem mem_poolList {lo j x : Nat} : x ∈ poolList lo j ↔ ∃ m < j, x = lo + 2048 * m := by
  induction j with
  | zero => simp [poolList]
  | succ j ih =>
    rw [poolList, List.mem_cons, ih]
    constructor
    · rintro (rfl | ⟨m, hm, rfl⟩)
      · exact ⟨j, Nat.lt_succ_self j, rfl⟩
      · exact ⟨m, Nat.lt_succ_of_lt hm, rfl⟩
    · rintro ⟨m, hm, rfl⟩
      rcases Nat.eq_or_lt_of_le (Nat.le_of_lt_succ hm) with rfl | hlt
      · exact Or.inl rfl
      · exact Or.inr ⟨m, hlt, rfl⟩

/-- Their number. -/
theorem length_poolList (lo j : Nat) : (poolList lo j).length = j := by
  induction j with
  | zero => rfl
  | succ j ih => rw [poolList, List.length_cons, ih]

/-- Only the list of order 11 is in use. -/
def topLists (xs : List Nat) : Nat → List Nat := Function.update (fun _ => []) (maxOrder - 1) xs

/-- They are all on the list of the greatest order. -/
theorem mem_topLists {xs : List Nat} {k i : Nat} :
    i ∈ topLists xs k ↔ k = maxOrder - 1 ∧ i ∈ xs := by
  unfold topLists
  by_cases hk : k = maxOrder - 1
  · subst hk; simp
  · simp [hk]

/-! ## The layout -/

section Layout

variable {ram : Meta} {bssEnd : Nat}

/-- Nothing wraps where the pool fits. -/
theorem metadataEnd_eq (hm : Machine ram bssEnd) (hf : Fits ram bssEnd) :
    metadataEnd ram bssEnd = metadataTop ram bssEnd := by
  have h44 := hm.size_lt
  have htop : metadataTop ram bssEnd < 2 ^ 64 := (Nat.le_add_right _ _).trans_lt hf
  have hup : (bssEnd + 4095) / 4096 * 4096 ≤ metadataTop ram bssEnd := Nat.le_add_right _ _
  have hf' : metadataTop ram bssEnd + 8388607 < 2 ^ 64 := alignmentMask_eq ▸ hf
  have hblob : metadataBlobSize ram = totalPages ram * 32 + 192 :=
    wrap_of_lt (by unfold totalPages maxOrder; omega)
  have hstart : metadataStart bssEnd = (bssEnd + 4095) / 4096 * 4096 := by
    unfold metadataStart
    rw [wrap_of_lt (by omega)]
    exact andNot_mask _ 12
  unfold metadataEnd
  rw [hblob, hstart]
  exact wrap_of_lt htop

/-- The pool starts at the first multiple of 8 MiB from the end of the metadata on. -/
theorem freePoolStart_spec (hm : Machine ram bssEnd) (hf : Fits ram bssEnd) :
    8388608 ∣ freePoolStart ram bssEnd ∧ metadataTop ram bssEnd ≤ freePoolStart ram bssEnd ∧
      freePoolStart ram bssEnd < 2 ^ 64 ∧ ram.baseAddr ≤ freePoolStart ram bssEnd := by
  have he := metadataEnd_eq hm hf
  have hb := hm.bss_ge
  unfold Fits at hf
  have hfps :
      freePoolStart ram bssEnd = (metadataTop ram bssEnd + 8388607) / 8388608 * 8388608 := by
    unfold freePoolStart
    rw [he, wrap_of_lt hf]
    exact andNot_mask _ 23
  rw [alignmentMask_eq] at hf
  have hge : ram.baseAddr ≤ metadataTop ram bssEnd := by
    unfold metadataTop
    omega
  rw [hfps]
  exact ⟨⟨_, Nat.mul_comm _ _⟩, by omega, by omega, by omega⟩

/-- Below the horizon no address has wrapped. -/
theorem poolHorizon_eq (hm : Machine ram bssEnd)
    (hlt : freePoolStart ram bssEnd < poolHorizon ram) :
    poolHorizon ram = ram.baseAddr + ram.totalSize := by
  have := hm.region
  unfold poolHorizon wrap at *
  omega

/-- The pool begins at its first page. -/
theorem poolLo_spec (hm : Machine ram bssEnd) (hf : Fits ram bssEnd) :
    ram.baseAddr + 4096 * poolLo ram bssEnd = freePoolStart ram bssEnd := by
  obtain ⟨⟨q, hq⟩, _, _, hle⟩ := freePoolStart_spec hm hf
  obtain ⟨p, hp⟩ := hm.base_page
  unfold poolLo
  omega

/-- A page of the array has its number as index. -/
theorem pageIndex_addr (hm : Machine ram bssEnd) {i : Nat} (hi : i < totalPages ram) :
    pageIndex ram (ram.baseAddr + i * 4096) = i := by
  have := hm.region
  unfold totalPages at hi
  unfold pageIndex
  rw [wrapSub_of_le (by omega) (by omega)]
  omega

/-- The only page-aligned address with an index of the array is the address of that page. -/
theorem addr_of_pageIndex (hm : Machine ram bssEnd) {a : Nat} (ha : a < 2 ^ 64)
    (hal : 4096 ∣ a) (hi : pageIndex ram a < totalPages ram) :
    a = ram.baseAddr + pageIndex ram a * 4096 := by
  have h1 := hm.region
  have h2 := hm.size_lt
  obtain ⟨p, hp⟩ := hm.base_page
  obtain ⟨q, hq⟩ := hal
  unfold pageIndex totalPages wrapSub wrap at *
  omega

/-- Every page has an address. -/
theorem addr_lt (hm : Machine ram bssEnd) {i : Nat} (hi : i < totalPages ram) :
    ram.baseAddr + i * 4096 < 2 ^ 64 := by
  have h1 := hm.region
  unfold totalPages at hi
  omega

/-- No page of the array has the index that ends a list. -/
theorem totalPages_le (hm : Machine ram bssEnd) : totalPages ram ≤ noIdx := by
  have := hm.size_lt
  unfold totalPages noIdx
  omega

end Layout

/-! ## The loops -/

/-- The loop resets every page. -/
theorem clearPages_page (s : State) (n i : Nat) : (clearPages s n).pageArray i =
    if i < n then
      { s.pageArray i with order := 0, flag := 2, nextIdx := noIdx, prevIdx := noIdx }
    else s.pageArray i := by
  induction n with
  | zero => simp [clearPages]
  | succ n ih =>
    rw [clearPages, State.setPage_page, ih]
    by_cases h : i = n
    · subst h; simp
    · rw [if_neg h]
      exact if_congr (by omega) rfl rfl

/-- It writes the pages only. -/
theorem mem_clearPages_written {s : State} {n i : Nat} (h : i ∈ (clearPages s n).written) :
    i < n ∨ i ∈ s.written := by
  induction n with
  | zero => exact Or.inr h
  | succ n ih =>
    rcases List.mem_cons.mp h with rfl | h
    · exact Or.inl (Nat.lt_succ_self _)
    · exact (ih h).imp_left fun h => Nat.lt_succ_of_lt h

/-- During initialisation: the top list is `xs`, every other page is reserved. -/
structure Filling (n : Nat) (s : State) (xs : List Nat) : Prop where
  lists : Lists s (topLists xs)
  page : ∀ i < n, if i ∈ xs then (s.pageArray i).flag = 0 ∧ (s.pageArray i).order = maxOrder - 1
    else (s.pageArray i).flag = 2
  lt : ∀ i ∈ xs, i < n
  written : ∀ i ∈ s.written, i < n

/-- One round of the pool loop. -/
theorem Filling.step {n i : Nat} {s : State} {xs : List Nat} (h : Filling n s xs) (hn : n ≤ noIdx)
    (hi : i < n) (hx : i ∉ xs) :
    Filling n ((s.setPage i fun p => { p with flag := 0, order := maxOrder - 1 }).pushFree
      (maxOrder - 1) i) (i :: xs) := by
  have hoff : ∀ k < maxOrder, i ∉ topLists xs k := fun k _ hm => hx (mem_topLists.mp hm).2
  have hls : Lists (s.setPage i fun p => { p with flag := 0, order := maxOrder - 1 })
      (topLists xs) := h.lists.congr (fun _ _ => rfl) fun k hk y hy => by
    have hyi : y ≠ i := fun he => hoff k hk (he ▸ hy)
    simp [nextOf, prevOf, hyi]
  refine { lists := ?_, page := fun j hj => ?_, lt := ?_, written := fun j hj => ?_ }
  · have hp := hls.push (k := maxOrder - 1) (by decide) hoff (by omega)
    have he : topLists (i :: xs) = Function.update (topLists xs) (maxOrder - 1)
        (i :: topLists xs (maxOrder - 1)) := by
      simp [topLists]
    exact he ▸ hp
  · rw [State.pushFree_page]
    by_cases hji : j = i
    · subst hji; simp
    · have hj' := h.page j hj
      simp only [List.mem_cons, hji, false_or, if_false]
      split <;> split <;> simp_all
  · intro j hj
    rcases List.mem_cons.mp hj with rfl | hj
    · exact hi
    · exact h.lt j hj
  · rcases State.pushFree_written _ _ _ _ hj with rfl | ⟨hjh, hne⟩ | hj
    · exact hi
    · have hm := h.lists.head_mem (k := maxOrder - 1) (by decide) (by
        rw [State.setPage_freeLists] at hjh; exact hjh ▸ hne)
      rw [State.setPage_freeLists] at hjh
      exact h.lt j (hjh ▸ (mem_topLists.mp hm).2)
    · rcases List.mem_cons.mp hj with rfl | hj
      · exact hi
      · exact h.written j hj

/-- The pool loop, with `r` blocks to go after the first `j`. -/
theorem poolLoop_spec {ram : Meta} {bssEnd : Nat} (hm : Machine ram bssEnd)
    (hf : Fits ram bssEnd) (hlt : freePoolStart ram bssEnd < poolHorizon ram) {r j fuel : Nat}
    {s : State} (hfill : Filling (totalPages ram) s (poolList (poolLo ram bssEnd) j))
    (hfuel : r < fuel) (hjr : j + r = poolCount ram bssEnd)
    (hwrap : freePoolStart ram bssEnd + 8388608 * poolCount ram bssEnd < 2 ^ 64) :
    ∃ t, poolLoop ram fuel (freePoolStart ram bssEnd + 8388608 * j) s = .done () t ∧
      Filling (totalPages ram) t (poolList (poolLo ram bssEnd) (poolCount ram bssEnd)) := by
  have hlo := poolLo_spec hm hf
  have hz := poolHorizon_eq hm hlt
  have hcount : poolCount ram bssEnd =
      (poolHorizon ram - freePoolStart ram bssEnd + 8388607) / 8388608 := by
    unfold poolCount
    rw [alignmentMask_eq, maxBlockSize_eq]
  induction r generalizing j fuel s with
  | zero =>
    obtain ⟨fuel, rfl⟩ := Nat.exists_eq_succ_of_ne_zero (by omega : fuel ≠ 0)
    refine ⟨s, ?_, hjr ▸ hfill⟩
    rw [poolLoop, if_neg (by omega)]
  | succ r ih =>
    obtain ⟨fuel, rfl⟩ := Nat.exists_eq_succ_of_ne_zero (by omega : fuel ≠ 0)
    have hcur : freePoolStart ram bssEnd + 8388608 * j < poolHorizon ram := by omega
    have hidx : wrapSub (freePoolStart ram bssEnd + 8388608 * j) ram.baseAddr / 4096 =
        poolLo ram bssEnd + 2048 * j := by
      rw [wrapSub_of_le (by omega) (by omega)]
      omega
    have hlt' : poolLo ram bssEnd + 2048 * j < totalPages ram := by
      obtain ⟨p, hp⟩ := hm.size_page
      unfold totalPages
      omega
    have hnew : poolLo ram bssEnd + 2048 * j ∉ poolList (poolLo ram bssEnd) j := by
      rw [mem_poolList]
      rintro ⟨m, hmj, he⟩
      omega
    have hwr : wrap (freePoolStart ram bssEnd + 8388608 * j + maxBlockSize) =
        freePoolStart ram bssEnd + 8388608 * (j + 1) := by
      rw [maxBlockSize_eq, wrap_of_lt (by omega)]
      omega
    obtain ⟨t, ht, hfin⟩ := @ih (j + 1) fuel _
      (hfill.step (totalPages_le hm) hlt' hnew) (by omega) (by omega)
    refine ⟨t, ?_, hfin⟩
    rw [poolLoop, if_pos hcur]
    simp only [hidx, hwr]
    exact ht

/-- `kalloc_init` returns, whatever the records held before. -/
theorem kallocInit_spec {ram : Meta} {bssEnd : Nat} (hm : Machine ram bssEnd)
    (hf : Fits ram bssEnd) (hlt : freePoolStart ram bssEnd < poolHorizon ram)
    (hwrap : freePoolStart ram bssEnd + 8388608 * poolCount ram bssEnd < 2 ^ 64) {s : State}
    (hs : s.written = []) :
    ∃ t, kallocInit ram bssEnd s = .done () t ∧
      Filling (totalPages ram) t (poolList (poolLo ram bssEnd) (poolCount ram bssEnd)) := by
  have hfill : Filling (totalPages ram) (clearLists (clearPages s (totalPages ram)))
      (poolList (poolLo ram bssEnd) 0) := by
    refine { lists := ⟨fun k hk => ?_, ?_⟩, page := fun i hi => ?_, lt := ?_, written := ?_ }
    · have he : topLists (poolList (poolLo ram bssEnd) 0) k = [] := by
        simp [topLists, poolList, Function.update]
      rw [he, clearLists]
      simp only [hk, if_true]
      exact Dll.empty
    · intro a _ b _ i hia _
      simp [mem_topLists, poolList] at hia
    · simp [clearLists, clearPages_page, hi, poolList]
    · simp [poolList]
    · intro i hi
      exact (mem_clearPages_written hi).resolve_right (by simp [hs])
  have hsmall : poolCount ram bssEnd < 2 ^ 41 + 1 := by
    have h1 := hm.region
    have h2 := hm.size_lt
    have h3 := poolHorizon_eq hm hlt
    unfold poolCount
    rw [alignmentMask_eq, maxBlockSize_eq]
    omega
  obtain ⟨t, ht, hfin⟩ := poolLoop_spec hm hf hlt (j := 0) hfill hsmall (by omega) hwrap
  refine ⟨t, ?_, hfin⟩
  rw [kallocInit, if_neg (by omega)]
  simpa using ht

/-- RAM that ends on a multiple of 8 MiB. -/
def EndAligned (ram : Meta) : Prop := 8388608 ∣ ram.baseAddr + ram.totalSize

section Aligned

variable {ram : Meta} {bssEnd : Nat}

/-- With an aligned end the blocks reach exactly to the end of RAM. -/
theorem poolCount_spec (hm : Machine ram bssEnd) (hf : Fits ram bssEnd)
    (he : EndAligned ram) (hlt : freePoolStart ram bssEnd < poolHorizon ram) :
    poolLo ram bssEnd + 2048 * poolCount ram bssEnd = totalPages ram ∧
      freePoolStart ram bssEnd + 8388608 * poolCount ram bssEnd < 2 ^ 64 := by
  obtain ⟨⟨q, hq⟩, _, hfl, hle⟩ := freePoolStart_spec hm hf
  have hz := poolHorizon_eq hm hlt
  have hlo := poolLo_spec hm hf
  have hzl : poolHorizon ram < 2 ^ 64 := wrap_lt _
  obtain ⟨e, he⟩ := he
  obtain ⟨p, hp⟩ := hm.size_page
  unfold poolCount totalPages
  rw [alignmentMask_eq, maxBlockSize_eq]
  omega

/-- The state after `kalloc_init` satisfies the invariant with nothing handed out. -/
theorem Filling.inv {t : State} (hm : Machine ram bssEnd) (hf : Fits ram bssEnd)
    (he : EndAligned ram) (hlt : freePoolStart ram bssEnd < poolHorizon ram)
    (h : Filling (totalPages ram) t (poolList (poolLo ram bssEnd) (poolCount ram bssEnd))) :
    Inv (poolLo ram bssEnd) (totalPages ram) t
      (topLists (poolList (poolLo ram bssEnd) (poolCount ram bssEnd))) ∅ ∅ := by
  have hcount := (poolCount_spec hm hf he hlt).1
  have hpow : 2 ^ (maxOrder - 1) = 2048 := by decide
  refine { lists := h.lists, listed := ?_, flagged := ?_, alive := ?_, detached := ?_,
           tiles := ⟨?_, ?_⟩, written := h.written, flag_le := ?_ }
  · intro k hk i hi
    obtain ⟨rfl, hx⟩ := mem_topLists.mp hi
    have := h.page i (h.lt i hx)
    rwa [if_pos hx] at this
  · intro i hi h0
    by_cases hx : i ∈ poolList (poolLo ram bssEnd) (poolCount ram bssEnd)
    · exact Or.inl ⟨maxOrder - 1, by decide, mem_topLists.mpr ⟨rfl, hx⟩⟩
    · have := h.page i hi
      rw [if_neg hx] at this
      omega
  · exact fun b hb => absurd hb (Set.notMem_empty b)
  · exact fun b hb => absurd hb (Set.notMem_empty b)
  · rintro ⟨i, k⟩ hb ⟨j, l⟩ hc p hbp hcp
    simp only [Set.union_empty, mem_freeBlocks, mem_topLists, mem_poolList] at hb hc
    obtain ⟨_, rfl, m, hm', rfl⟩ := hb
    obtain ⟨_, rfl, m', hm'', rfl⟩ := hc
    simp only [Block.Has, hpow] at hbp hcp
    have : m = m' := by omega
    rw [this]
  · intro p
    constructor
    · rintro ⟨h1, h2⟩
      refine ⟨⟨poolLo ram bssEnd + 2048 * ((p - poolLo ram bssEnd) / 2048), maxOrder - 1⟩, ?_, ?_⟩
      · simp only [Set.union_empty, mem_freeBlocks, mem_topLists, mem_poolList]
        exact ⟨by decide, trivial, _, by omega, rfl⟩
      · simp only [Block.Has, hpow]
        omega
    · rintro ⟨⟨i, k⟩, hb, hbp⟩
      simp only [Set.union_empty, mem_freeBlocks, mem_topLists, mem_poolList] at hb
      obtain ⟨_, rfl, m, hm', rfl⟩ := hb
      simp only [Block.Has, hpow] at hbp
      omega
  · intro i hi
    have := h.page i hi
    split at this <;> omega

end Aligned

end RexOS.Kalloc
