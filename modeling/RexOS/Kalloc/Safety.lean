import Mathlib.Order.CompletePartialOrder
import Mathlib.Order.Interval.Set.Disjoint
import RexOS.Kalloc.Canonical

/-!
# Safety of the allocator over whole runs

The statements of this file are about addresses and about the links that stand in
memory; the invariant and its lists do not occur in them. Blocks become ranges of
addresses, a page is on a list when the links lead to it, and the pool is the range
from `free_pool_start` to the end of RAM.
-/

namespace RexOS.Kalloc

open Dyadic Bits

/-- Following list `k` from its head one comes to page `i`. -/
def OnList (s : State) (k i : Nat) : Prop :=
  ∃ xs, Dll (nextOf s) (prevOf s) noIdx (s.freeLists k) xs ∧ i ∈ xs

/-- The grant that would hand out the block of order `k` at page `i`. -/
def blockAt (ram : Meta) (i k : Nat) : Grant := ⟨ram.baseAddr + i * 4096, k⟩

/-- The addresses of the pool. -/
def pool (ram : Meta) (bssEnd : Nat) : Set Nat :=
  Set.Ico (freePoolStart ram bssEnd) (ram.baseAddr + ram.totalSize)

/-- The addresses of `page_array` and `free_lists`. -/
def metadata (ram : Meta) (bssEnd : Nat) : Set Nat :=
  Set.Ico (metadataStart bssEnd) (metadataEnd ram bssEnd)

/-- The live and the free blocks divide the pool between them. -/
structure Partition (ram : Meta) (bssEnd : Nat) (c : Config) : Prop where
  live_live : c.live.Pairwise fun g g' => Disjoint g.extent g'.extent
  free_free : ∀ j < maxOrder, ∀ k < maxOrder, ∀ i i', OnList c.mem j i → OnList c.mem k i' →
    blockAt ram i j ≠ blockAt ram i' k → Disjoint (blockAt ram i j).extent (blockAt ram i' k).extent
  live_free : ∀ g ∈ c.live, ∀ k < maxOrder, ∀ i, OnList c.mem k i →
    Disjoint g.extent (blockAt ram i k).extent
  cover : ∀ a, a ∈ pool ram bssEnd ↔ (∃ g ∈ c.live, a ∈ g.extent) ∨
    ∃ k < maxOrder, ∃ i, OnList c.mem k i ∧ a ∈ (blockAt ram i k).extent

/-- What a client may rely on in the configuration `c`. -/
structure Safe (ram : Meta) (bssEnd : Nat) (c : Config) : Prop where
  wellFormed : ∀ k < maxOrder, ∃ xs, Dll (nextOf c.mem) (prevOf c.mem) noIdx (c.mem.freeLists k) xs
  listed : ∀ k < maxOrder, ∀ i, OnList c.mem k i →
    2 ^ k ∣ i ∧ (c.mem.pageArray i).flag = 0 ∧ (c.mem.pageArray i).order = k
  flagged : ∀ i < totalPages ram, (c.mem.pageArray i).flag = 0 →
    ∃! k, k < maxOrder ∧ OnList c.mem k i
  partition : Partition ram bssEnd c
  returns : ∀ order caller addr t, kalloc ram c.mem order caller = .done addr t →
    (∃ idx, addr = ram.baseAddr + idx * 4096 ∧ 2 ^ order ∣ idx) ∧
      (⟨addr, order⟩ : Grant).extent ⊆ pool ram bssEnd ∧
      (∀ g ∈ c.live, Disjoint (⟨addr, order⟩ : Grant).extent g.extent) ∧
      Disjoint (⟨addr, order⟩ : Grant).extent (metadata ram bssEnd)

variable {ram : Meta} {bssEnd : Nat} {c d : Config} {free : Nat → List Nat}

/-- Walking a list finds its blocks. -/
theorem onList_iff {s : State} (h : Lists s free) {k : Nat} (hk : k < maxOrder) {i : Nat} :
    OnList s k i ↔ i ∈ free k := by
  constructor
  · rintro ⟨xs, hd, hi⟩
    exact hd.unique (h.dll k hk) ▸ hi
  · exact fun hi => ⟨_, h.dll k hk, hi⟩

/-! ## Blocks as ranges of addresses -/

/-- The addresses of a block are those of its pages. -/
theorem mem_extent_blockAt {a i k : Nat} : a ∈ (blockAt ram i k).extent ↔
    ram.baseAddr ≤ a ∧ Block.Has ⟨i, k⟩ ((a - ram.baseAddr) / 4096) := by
  simp only [Grant.extent, blockAt, Block.Has, Set.mem_Ico]
  generalize 2 ^ k = n
  omega

/-- Blocks without a common page are disjoint ranges. -/
theorem disjoint_extent {i j k l : Nat}
    (h : ∀ p, Block.Has ⟨i, k⟩ p → ¬ Block.Has ⟨j, l⟩ p) :
    Disjoint (blockAt ram i k).extent (blockAt ram j l).extent := by
  rw [Set.disjoint_left]
  intro a ha hb
  exact h _ (mem_extent_blockAt.mp ha).2 (mem_extent_blockAt.mp hb).2

/-- The addresses of the pool are those of its pages. -/
theorem mem_pool (hm : Machine ram bssEnd) (hf : Fits ram bssEnd) {a : Nat} :
    a ∈ pool ram bssEnd ↔ ram.baseAddr ≤ a ∧ poolLo ram bssEnd ≤ (a - ram.baseAddr) / 4096 ∧
      (a - ram.baseAddr) / 4096 < totalPages ram := by
  have hlo := poolLo_spec hm hf
  obtain ⟨q, hq⟩ := hm.size_page
  simp only [pool, Set.mem_Ico, totalPages]
  omega

/-- The pool lies above the metadata. -/
theorem disjoint_metadata (hm : Machine ram bssEnd) (hf : Fits ram bssEnd) :
    Disjoint (pool ram bssEnd) (metadata ram bssEnd) := by
  have hle := (freePoolStart_spec hm hf).2.1
  rw [Set.disjoint_left]
  rintro a ⟨ha, _⟩ ⟨_, hb⟩
  rw [metadataEnd_eq hm hf] at hb
  omega

namespace Sound

/-- A grant is the block at its address. -/
theorem grant_eq (h : Sound ram bssEnd c free) {g : Grant} (hg : g ∈ c.live) :
    g = blockAt ram (pageIndex ram g.addr) g.order :=
  Grant.ext (h.addr g hg) rfl

/-- A block of the invariant lies in the pool. -/
theorem extent_subset (hm : Machine ram bssEnd) (hf : Fits ram bssEnd)
    (h : Sound ram bssEnd c free) {i k : Nat}
    (hb : ⟨i, k⟩ ∈ freeBlocks free ∪ liveBlocks ram c.live ∪ ∅) :
    (blockAt ram i k).extent ⊆ pool ram bssEnd := by
  intro a ha
  obtain ⟨hle, hhas⟩ := mem_extent_blockAt.mp ha
  exact (mem_pool hm hf).mpr ⟨hle, (h.inv.tiles.cover _).mpr ⟨_, hb, hhas⟩⟩

/-- It lies in the pool. -/
theorem live_subset (hm : Machine ram bssEnd) (hf : Fits ram bssEnd)
    (h : Sound ram bssEnd c free) {g : Grant} (hg : g ∈ c.live) :
    g.extent ⊆ pool ram bssEnd := by
  rw [h.grant_eq hg]
  exact h.extent_subset hm hf (Or.inl (Or.inr (live_block ram hg)))

/-- Different blocks of the invariant are disjoint ranges. -/
theorem extent_disjoint (h : Sound ram bssEnd c free) {i j k l : Nat}
    (hb : ⟨i, k⟩ ∈ freeBlocks free ∪ liveBlocks ram c.live ∪ ∅)
    (hc : ⟨j, l⟩ ∈ freeBlocks free ∪ liveBlocks ram c.live ∪ ∅)
    (hne : (⟨i, k⟩ : Block) ≠ ⟨j, l⟩) :
    Disjoint (blockAt ram i k).extent (blockAt ram j l).extent :=
  disjoint_extent fun p hp hq => hne (h.inv.tiles.disjoint _ hb _ hc p hp hq)

/-- Two grants do not overlap. -/
theorem live_disjoint (h : Sound ram bssEnd c free) {g g' : Grant} (hg : g ∈ c.live)
    (hg' : g' ∈ c.live) (hne : g.addr ≠ g'.addr) : Disjoint g.extent g'.extent := by
  rw [h.grant_eq hg, h.grant_eq hg']
  refine h.extent_disjoint (Or.inl (Or.inr (live_block ram hg)))
    (Or.inl (Or.inr (live_block ram hg'))) ?_
  exact fun he => hne (congrArg Grant.addr (h.index_inj hg hg' (Block.ext_iff.mp he).1))

/-- No two do. -/
theorem live_pairwise (h : Sound ram bssEnd c free) :
    c.live.Pairwise fun g g' => Disjoint g.extent g'.extent := by
  have hp := List.pairwise_map.mp h.distinct
  exact List.Pairwise.imp_of_mem (fun hg hg' hne => h.live_disjoint hg hg' hne) hp

/-- Grants and free blocks are the pool. -/
theorem partition (hm : Machine ram bssEnd) (hf : Fits ram bssEnd)
    (h : Sound ram bssEnd c free) : Partition ram bssEnd c where
  live_live := h.live_pairwise
  free_free j hj k hk i i' hi hi' hne := by
    rw [onList_iff h.inv.lists hj] at hi
    rw [onList_iff h.inv.lists hk] at hi'
    refine h.extent_disjoint (Or.inl (Or.inl ⟨hj, hi⟩)) (Or.inl (Or.inl ⟨hk, hi'⟩)) fun he => hne ?_
    obtain ⟨rfl, rfl⟩ := Block.ext_iff.mp he
    rfl
  live_free g hg k hk i hi := by
    rw [onList_iff h.inv.lists hk] at hi
    rw [h.grant_eq hg]
    refine h.extent_disjoint (Or.inl (Or.inr (live_block ram hg))) (Or.inl (Or.inl ⟨hk, hi⟩))
      fun he => ?_
    have hnot := h.inv.live_not_listed (live_block ram hg) hk
    rw [(Block.ext_iff.mp he).1] at hnot
    exact hnot hi
  cover a := by
    constructor
    · intro ha
      obtain ⟨hle, hpages⟩ := (mem_pool hm hf).mp ha
      obtain ⟨⟨i, k⟩, (⟨hk, hi⟩ | ⟨g, hg, he⟩) | hb, hp⟩ := (h.inv.tiles.cover _).mp hpages
      · exact Or.inr ⟨k, hk, i, (onList_iff h.inv.lists hk).mpr hi,
          mem_extent_blockAt.mpr ⟨hle, hp⟩⟩
      · refine Or.inl ⟨g, hg, ?_⟩
        rw [h.grant_eq hg]
        exact mem_extent_blockAt.mpr ⟨hle, he ▸ hp⟩
      · exact absurd hb (Set.notMem_empty _)
    · rintro (⟨g, hg, ha⟩ | ⟨k, hk, i, hi, ha⟩)
      · exact h.live_subset hm hf hg ha
      · exact h.extent_subset hm hf (Or.inl (Or.inl ⟨hk, (onList_iff h.inv.lists hk).mp hi⟩)) ha

/-- The block a `kalloc` returns is in the pool and apart from every live one. -/
theorem returns_inside (hm : Machine ram bssEnd) (hf : Fits ram bssEnd)
    (h : Sound ram bssEnd c free) {order caller addr : Nat} {t : State}
    (hrun : kalloc ram c.mem order caller = .done addr t) :
    (⟨addr, order⟩ : Grant).extent ⊆ pool ram bssEnd ∧
      ∀ g ∈ c.live, Disjoint (⟨addr, order⟩ : Grant).extent g.extent := by
  obtain ⟨k, hk⟩ := search_of_kalloc hrun
  obtain ⟨idx, rest, t', _, _, _, _, hrun', _, hnew⟩ := h.onAlloc caller hm hk
  obtain ⟨rfl, rfl⟩ := Outcome.done.inj (hrun'.symm.trans hrun)
  refine ⟨hnew.live_subset hm hf (List.mem_cons_self), fun g hg => ?_⟩
  exact (List.pairwise_cons.mp hnew.live_pairwise).1 g hg

end Sound

/-! ## The whole-run theorem -/

/-- So a tidy state is safe. -/
theorem Tidy.safe (hm : Machine ram bssEnd) (hf : Fits ram bssEnd) (h : Tidy ram bssEnd c free) :
    Safe ram bssEnd c where
  wellFormed k hk := ⟨_, h.inv.lists.dll k hk⟩
  listed k hk i hi := by
    have hin := (onList_iff h.inv.lists hk).mp hi
    exact ⟨h.freeAligned k hk i hin, h.inv.listed k hk i hin⟩
  flagged i hi h0 := by
    obtain ⟨k, hk, hin⟩ := (h.inv.flagged i hi h0).resolve_right (by simp)
    refine ⟨k, ⟨hk, (onList_iff h.inv.lists hk).mpr hin⟩, fun j ⟨hj, hjn⟩ => ?_⟩
    exact h.inv.order_unique hj hk ((onList_iff h.inv.lists hj).mp hjn) hin
  partition := h.toSound.partition hm hf
  returns order caller addr t hrun := by
    obtain ⟨hsub, hdis⟩ := h.returns_inside hm hf hrun
    refine ⟨?_, hsub, hdis, (disjoint_metadata hm hf).mono_left hsub⟩
    obtain ⟨k, hk⟩ := Sound.search_of_kalloc hrun
    obtain ⟨idx, rest, t', _, hrun', hdvd, _⟩ := h.onAlloc caller hm hk
    obtain ⟨rfl, _⟩ := Outcome.done.inj (hrun'.symm.trans hrun)
    exact ⟨idx, rfl, hdvd⟩

/-- From `kalloc_init` on, whatever is allocated and whatever of it is freed in whatever
order, every configuration is safe. -/
theorem safe_of_run (hm : Machine ram bssEnd) (ha : BlockAligned ram) (hf : Fits ram bssEnd)
    {h : List (Config × Op)} (hb : Boot ram bssEnd c) (hr : Run (step ram) c h d)
    (hop : Run.Steps FreesLive h) : Safe ram bssEnd d := by
  obtain ⟨free, hd⟩ := tidy_of_run hm ha hf hb hr hop
  exact hd.safe hm hf

/-- A page is taken and given back. -/
theorem safe_of_run_virt : ∃ c m p d, Boot virt virtBssEnd c ∧
    Run (step virt) c [(m, .free p), (c, .alloc 0 0)] d ∧ Safe virt virtBssEnd d := by
  obtain ⟨c, m, p, d, hb, hr, _, hop⟩ := virt_run
  exact ⟨c, m, p, d, hb, hr, safe_of_run virt_machine virt_blockAligned virt_fits hb hr hop⟩

/-! ## A pool start that wraps

Near the top of the address space the rounding of `free_pool_start` wraps to 0, below
`pool_horizon`, so that the check for a full RAM does not see that the metadata has left
no room. The pool then takes in the kernel and the metadata.
-/

/-- The last 16 MiB of the address space but for 8 MiB, and an image that ends one page
below their end. -/
def topRam : Meta := ⟨2 ^ 64 - 2 ^ 24, 2 ^ 23⟩
def topBssEnd : Nat := 2 ^ 64 - 2 ^ 23 - 4096

/-- RAM at the very top is one that `kalloc_init` takes. -/
theorem topRam_machine : Machine topRam topBssEnd where
  base_page := by decide
  size_page := by decide
  size_lt := by decide
  region := by decide
  bss_ge := by decide
  bss_le := by decide

theorem topRam_blockAligned : BlockAligned topRam := ⟨by decide, by decide⟩

/-- The index the loop computes for the `j`-th multiple of 8 MiB. -/
def roundIdx (ram : Meta) (j : Nat) : Nat := wrapSub (8388608 * j) ram.baseAddr / 4096

/-- The two blocks of the last rounds stand at the front of the list. -/
def Front (ram : Meta) (s : State) (j : Nat) : Prop :=
  (1 ≤ j → s.freeLists (maxOrder - 1) = roundIdx ram (j - 1)) ∧
    (2 ≤ j → (s.pageArray (roundIdx ram (j - 1))).nextIdx = roundIdx ram (j - 2))

/-- A loop from 0 up to a horizon below `2 ^ 64` ends, with its last blocks in front. -/
theorem poolLoop_front (fuel : Nat) {m j r : Nat} {s : State} (hz : poolHorizon ram = 8388608 * m)
    (hl : m < 2 ^ 41) (hjr : j + r = m) (hr : r < fuel) (hs : Front ram s j) :
    ∃ t, poolLoop ram fuel (8388608 * j) s = .done () t ∧ Front ram t m := by
  induction r generalizing j fuel s with
  | zero =>
    obtain ⟨fuel, rfl⟩ := Nat.exists_eq_succ_of_ne_zero (by omega : fuel ≠ 0)
    refine ⟨s, ?_, hjr ▸ hs⟩
    rw [poolLoop, if_neg (by omega)]
  | succ r ih =>
    obtain ⟨fuel, rfl⟩ := Nat.exists_eq_succ_of_ne_zero (by omega : fuel ≠ 0)
    have hwr : wrap (8388608 * j + maxBlockSize) = 8388608 * (j + 1) := by
      rw [maxBlockSize_eq, wrap_of_lt (by omega)]
      omega
    rw [poolLoop, if_pos (by omega)]
    simp only [hwr]
    refine ih _ (by omega) (by omega) ⟨fun _ => ?_, fun hj => ?_⟩
    · simp [roundIdx]
    · have hi : roundIdx ram j = wrapSub (8388608 * j) ram.baseAddr / 4096 := rfl
      rw [State.pushFree_page, Nat.add_sub_cancel, if_pos hi]
      exact hs.1 (by omega)

/-- `kalloc` of the largest order takes the head of its list. -/
theorem kalloc_head (ram : Meta) {s : State} (hne : s.freeLists (maxOrder - 1) ≠ noIdx) :
    ∃ t, kalloc ram s (maxOrder - 1) 0 =
        .done (wrap (ram.baseAddr + s.freeLists (maxOrder - 1) * 4096)) t ∧
      t.freeLists (maxOrder - 1) = (s.pageArray (s.freeLists (maxOrder - 1))).nextIdx := by
  have hk : search s (maxOrder - 1) = some (maxOrder - 1) :=
    search_eq_some.mpr ⟨le_rfl, by decide, hne, by omega⟩
  rw [kalloc, if_neg (by decide), hk]
  refine ⟨_, rfl, ?_⟩
  simp [splitDown]

/-- That machine boots, with the first block of RAM in front and the one below RAM next. -/
theorem topRam_boot : ∃ c, Boot topRam topBssEnd c ∧ c.mem.freeLists (maxOrder - 1) = 0 ∧
    (c.mem.pageArray 0).nextIdx = 2 ^ 52 - 2048 := by
  have hz : poolHorizon topRam = 8388608 * 2199023255551 := by decide
  have h0 : ∀ s, Front topRam s 0 :=
    fun s => ⟨fun h => absurd h (by decide), fun h => absurd h (by decide)⟩
  obtain ⟨t, ht, h1, h2⟩ := poolLoop_front (2 ^ 41 + 1) hz (by decide)
    (r := 2199023255551) rfl (by decide)
    (h0 (clearLists (clearPages ⟨fun _ => ⟨0, 0, 0, 0, 0⟩, fun _ => 0, []⟩ (totalPages topRam))))
  have hlast : roundIdx topRam (2199023255551 - 1) = 0 := by decide
  have hprev : roundIdx topRam (2199023255551 - 2) = 2 ^ 52 - 2048 := by decide
  rw [hlast] at h1 h2
  rw [hprev] at h2
  refine ⟨⟨t, []⟩, ⟨rfl, ⟨fun _ => ⟨0, 0, 0, 0, 0⟩, fun _ => 0, []⟩, rfl, ?_⟩,
    h1 (by decide), h2 (by decide)⟩
  rw [kallocInit, if_neg (by decide), show freePoolStart topRam topBssEnd = 8388608 * 0 by decide]
  exact ht

/-- There the first block handed out holds the metadata. -/
theorem topRam_not_safe : Machine topRam topBssEnd ∧ BlockAligned topRam ∧
    ∃ c, Boot topRam topBssEnd c ∧ ¬ Safe topRam topBssEnd c := by
  obtain ⟨c, hb, hhead, _⟩ := topRam_boot
  refine ⟨topRam_machine, topRam_blockAligned, c, hb, fun hsafe => ?_⟩
  obtain ⟨t, hrun, _⟩ := kalloc_head topRam (s := c.mem) (by rw [hhead]; decide)
  rw [hhead] at hrun
  have hdis := (hsafe.returns _ _ _ _ hrun).2.2.2
  have hext : metadataStart topBssEnd ∈ (⟨wrap (topRam.baseAddr + 0 * 4096), maxOrder - 1⟩ :
      Grant).extent := by constructor <;> decide
  have hmeta : metadataStart topBssEnd ∈ metadata topRam topBssEnd := by constructor <;> decide
  exact Set.disjoint_left.mp hdis hext hmeta

end RexOS.Kalloc
