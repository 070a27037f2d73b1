import RexOS.Kalloc.Safety

/-!
# Eager merging and completeness

Freeing merges as far as it can, so `kalloc` fails for an order only when no aligned run
of that many pages is free, and after the last free the lists are those of
`kalloc_init`.
-/

namespace RexOS.Kalloc

open Dyadic Bits

/-- `2 ^ order` pages of the pool from page `i` on, aligned and untouched by any client. -/
def FreeRun (ram : Meta) (bssEnd : Nat) (c : Config) (i order : Nat) : Prop :=
  2 ^ order ∣ i ∧ (blockAt ram i order).extent ⊆ pool ram bssEnd ∧
    ∀ g ∈ c.live, Disjoint (blockAt ram i order).extent g.extent

/-- The free blocks of `c` are merged, `c₀` being the configuration after `kalloc_init`. -/
structure Merged (ram : Meta) (bssEnd : Nat) (c₀ c : Config) : Prop where
  noBuddies : ∀ k < maxOrder - 1, ∀ i j, OnList c.mem k i → OnList c.mem k j → i ^^^ j ≠ 2 ^ k
  complete : ∀ order < maxOrder, ∀ caller,
    (∃ arg t, kalloc ram c.mem order caller = .panic 101 arg t) ↔ ¬ ∃ i,
      FreeRun ram bssEnd c i order
  frees : ∀ g ∈ c.live, ∃ t, kfree ram c.mem g.addr = .done () t
  restored : c.live = [] → ∀ k < maxOrder, ∀ i, OnList c.mem k i ↔ OnList c₀.mem k i

variable {ram : Meta} {bssEnd : Nat} {c d : Config} {free : Nat → List Nat}

namespace Tidy

/-- Free blocks are aligned to their size. -/
theorem aligned (h : Tidy ram bssEnd c free) : ∀ b ∈ freeBlocks free, b.Aligned :=
  fun b hb => h.freeAligned b.order hb.1 b.start hb.2

/-- No two of them are buddies. -/
theorem noBuddies (h : Tidy ram bssEnd c free) : NoBuddies (freeBlocks free) (maxOrder - 1) := by
  rintro b hb b' hb' he hk
  exact h.canonical b.order hk b.start hb.2 b'.start (he ▸ hb'.2)

/-- An aligned run of pages that no client holds lies in one free block. -/
theorem exists_free_block (hm : Machine ram bssEnd) (hf : Fits ram bssEnd)
    (h : Tidy ram bssEnd c free) {i order : Nat} (ho : order < maxOrder)
    (hr : FreeRun ram bssEnd c i order) : ∃ k, order ≤ k ∧ k < maxOrder ∧ free k ≠ [] := by
  obtain ⟨hal, hsub, hdis⟩ := hr
  have hfree : ∀ p, Block.Has ⟨i, order⟩ p → ∃ b ∈ freeBlocks free, b.Has p := by
    intro p hp
    have hq : (ram.baseAddr + p * 4096 - ram.baseAddr) / 4096 = p := by omega
    have ha : ram.baseAddr + p * 4096 ∈ (blockAt ram i order).extent :=
      mem_extent_blockAt.mpr ⟨Nat.le_add_right _ _, hq.symm ▸ hp⟩
    have hpage := ((mem_pool hm hf).mp (hsub ha)).2
    rw [hq] at hpage
    obtain ⟨b, (hb | ⟨g, hg, rfl⟩) | hb, hbp⟩ := (h.inv.tiles.cover p).mp hpage
    · exact ⟨b, hb, hbp⟩
    · refine absurd ?_ (Set.disjoint_left.mp (hdis g hg) ha)
      rw [h.grant_eq hg]
      exact mem_extent_blockAt.mpr ⟨Nat.le_add_right _ _, hq.symm ▸ hbp⟩
    · exact absurd hb (Set.notMem_empty b)
  obtain ⟨b, hb, hle, _⟩ :=
    exists_cover h.aligned h.noBuddies (r := ⟨i, order⟩) hal (Nat.le_of_lt_succ ho) hfree
  exact ⟨b.order, hle, hb.1, fun he => List.not_mem_nil (he ▸ hb.2)⟩

/-- `kalloc` stops with 101 exactly when no aligned run of its size is free. -/
theorem complete (hm : Machine ram bssEnd) (hf : Fits ram bssEnd) (h : Tidy ram bssEnd c free)
    {order caller : Nat} (ho : order < maxOrder) :
    (∃ arg t, kalloc ram c.mem order caller = .panic 101 arg t) ↔
      ¬ ∃ i, FreeRun ram bssEnd c i order := by
  cases hk : search c.mem order with
  | none =>
    refine iff_of_true ⟨0, c.mem, kalloc_of_empty ho hk⟩ ?_
    rintro ⟨i, hr⟩
    obtain ⟨k, hok, hkm, hne⟩ := h.exists_free_block hm hf ho hr
    exact hne ((h.inv.lists.head_eq_noIdx_iff hkm).mp (search_eq_none.mp hk k hok hkm))
  | some k =>
    obtain ⟨idx, rest, t, _, hrun, _⟩ := h.onAlloc caller hm hk
    refine iff_of_false ?_ (not_not.mpr ?_)
    · rintro ⟨arg, t', he⟩
      rw [hrun] at he
      simp at he
    · obtain ⟨⟨i, hi, hdvd⟩, hsub, hdis, _⟩ := (h.safe hm hf).returns _ _ _ _ hrun
      rw [hi] at hsub hdis
      exact ⟨i, hdvd, hsub, hdis⟩

/-- With nothing handed out the lists are those of `kalloc_init`. -/
theorem restored (hm : Machine ram bssEnd) (ha : BlockAligned ram) (hf : Fits ram bssEnd)
    (hp : freePoolStart ram bssEnd < poolHorizon ram) (h : Tidy ram bssEnd c free)
    (hlive : c.live = []) {k i : Nat} (hk : k < maxOrder) :
    i ∈ free k ↔ i ∈ topLists (poolList (poolLo ram bssEnd) (poolCount ram bssEnd)) k := by
  have hcount := (poolCount_spec hm hf ha.end_aligned hp).1
  have hlo := poolLo_dvd hm ha hf
  have hpow : 2 ^ (maxOrder - 1) = 2048 := by decide
  have htiles : Tiles (freeBlocks free) (poolLo ram bssEnd) (totalPages ram) :=
    h.inv.tiles.congr fun b => by simp [liveBlocks, hlive]
  have htop : ∀ m < poolCount ram bssEnd,
      (⟨poolLo ram bssEnd + 2048 * m, maxOrder - 1⟩ : Block) ∈ freeBlocks free := by
    intro m hm'
    obtain ⟨b, hb, hle, hall⟩ := exists_cover h.aligned h.noBuddies
      (r := ⟨poolLo ram bssEnd + 2048 * m, maxOrder - 1⟩)
      (hpow ▸ Nat.dvd_add hlo (Nat.dvd_mul_right _ _)) le_rfl fun p hp => by
        refine (htiles.cover p).mp ?_
        simp only [Block.Has, hpow] at hp
        omega
    have ho : b.order = maxOrder - 1 := le_antisymm (Nat.le_of_lt_succ hb.1) hle
    have h1 := (hall _ (Block.has_start _)).1
    have h2 := (hall _ (Block.has_last _)).2
    rw [ho] at h2
    simp only [hpow] at h1 h2
    have hbe : (⟨poolLo ram bssEnd + 2048 * m, maxOrder - 1⟩ : Block) = b :=
      Block.ext (by simp only; omega) ho.symm
    exact hbe ▸ hb
  rw [mem_topLists, mem_poolList]
  constructor
  · intro hi
    obtain ⟨hge, hlt⟩ := htiles.start_bounds (b := ⟨i, k⟩) ⟨hk, hi⟩
    have hmem := htop ((i - poolLo ram bssEnd) / 2048) (by simp only at hge hlt; omega)
    have hbe := htiles.disjoint ⟨i, k⟩ ⟨hk, hi⟩ _ hmem i (Block.has_start _) (by
      simp only [Block.Has, hpow] at hge ⊢
      omega)
    obtain ⟨hs, ho⟩ := Block.ext_iff.mp hbe
    exact ⟨ho, _, by simp only at hge hlt; omega, hs⟩
  · rintro ⟨rfl, m, hm', rfl⟩
    exact (htop m hm').2

end Tidy

/-- In every configuration of every run the free blocks are merged. -/
theorem merged_of_run (hm : Machine ram bssEnd) (ha : BlockAligned ram) (hf : Fits ram bssEnd)
    {h : List (Config × Op)} (hb : Boot ram bssEnd c) (hr : Run (step ram) c h d)
    (hop : Run.Steps FreesLive h) : Merged ram bssEnd c d := by
  obtain ⟨free, hd⟩ := tidy_of_run hm ha hf hb hr hop
  refine ⟨fun k hk i j hi hj => ?_, fun order ho caller => hd.complete hm hf ho, fun g hg => ?_,
    fun hlive k hk i => ?_⟩
  · have hkm : k < maxOrder := Nat.lt_of_lt_pred hk
    exact hd.canonical k hk i ((onList_iff hd.inv.lists hkm).mp hi) j
      ((onList_iff hd.inv.lists hkm).mp hj)
  · obtain ⟨t, _, i', k', hrun, _⟩ := hd.onFree hm hg
    exact ⟨_, hrun⟩
  · rw [onList_iff hd.inv.lists hk, onList_iff (hb.tidy hm ha hf).inv.lists hk]
    exact hd.restored hm ha hf hb.pool hlive hk

/-- A page is taken and given back. -/
theorem merged_of_run_virt : ∃ c m p d, Boot virt virtBssEnd c ∧
    Run (step virt) c [(m, .free p), (c, .alloc 0 0)] d ∧ Merged virt virtBssEnd c d := by
  obtain ⟨c, m, p, d, hb, hr, _, hop⟩ := virt_run
  exact ⟨c, m, p, d, hb, hr, merged_of_run virt_machine virt_blockAligned virt_fits hb hr hop⟩

/-- Where the pool start wraps, the second block handed out cannot be given back. -/
theorem topRam_not_merged : Machine topRam topBssEnd ∧ BlockAligned topRam ∧
    ∃ c h d, Boot topRam topBssEnd c ∧ Run (step topRam) c h d ∧ Run.Steps FreesLive h ∧
      ¬ Merged topRam topBssEnd c d := by
  obtain ⟨c, hb, hhead, hnext⟩ := topRam_boot
  obtain ⟨t, hrun, ht⟩ := kalloc_head topRam (s := c.mem) (by rw [hhead]; decide)
  rw [hhead, hnext] at ht
  obtain ⟨m, hm, rfl⟩ : ∃ m, step topRam c (.alloc (maxOrder - 1) 0) = some m ∧ m.mem = t :=
    ⟨_, step_of_kalloc hrun, rfl⟩
  obtain ⟨u, hrun', _⟩ := kalloc_head topRam (s := m.mem) (by rw [ht]; decide)
  refine ⟨topRam_machine, topRam_blockAligned, c, _, _, hb,
    (Run.nil.snoc hm).snoc (step_of_kalloc hrun'),
    Run.steps_cons.mpr ⟨trivial, Run.steps_cons.mpr ⟨trivial, Run.Steps.nil⟩⟩, fun hmerged => ?_⟩
  obtain ⟨v, hv⟩ := hmerged.frees _ List.mem_cons_self
  rw [kfree, if_neg (by rw [ht]; decide)] at hv
  simp only [ht] at hv
  rw [if_pos (by decide)] at hv
  simp at hv

end RexOS.Kalloc
