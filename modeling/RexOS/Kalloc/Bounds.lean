import RexOS.Kalloc.Safety

/-!
# Machines whose pool stays inside RAM

The pool loop runs while a block *starts* below the end of RAM, so its last block ends
there only when that end is a multiple of 8 MiB. This file settles for which machines
everything handed out and everything written stays inside RAM: for those whose end is
such a multiple and whose metadata, rounded up, does not pass the end of the address
space.
-/

namespace RexOS.Kalloc

open Dyadic Bits

/-- What is handed out in `c` is in the pool and apart, and every record written so far is
a record of `page_array`. -/
structure InRam (ram : Meta) (bssEnd : Nat) (c : Config) : Prop where
  returns : ∀ order caller addr t, kalloc ram c.mem order caller = .done addr t →
    (⟨addr, order⟩ : Grant).extent ⊆ pool ram bssEnd
  written : ∀ i ∈ c.mem.written, i < totalPages ram
  apart : c.live.Pairwise fun g g' => Disjoint g.extent g'.extent

/-- `kalloc_init` and every run after it stay inside RAM. -/
def StaysInRam (ram : Meta) (bssEnd : Nat) : Prop :=
  (∀ s : State, s.written = [] →
    ∀ i ∈ (kallocInit ram bssEnd s).state.written, i < totalPages ram) ∧
  ∀ c h d, Boot ram bssEnd c → Run (step ram) c h d → Run.Steps FreesLive h → InRam ram bssEnd d

variable {ram : Meta} {bssEnd : Nat} {c d : Config} {free : Nat → List Nat}

/-! ## The records the loop writes -/

/-- A block that goes on a list is written. -/
theorem mem_pushFree_written (s : State) (k i : Nat) : i ∈ (s.pushFree k i).written := by
  unfold State.pushFree
  simp

/-- What was written stays so. -/
theorem pushFree_written_of_mem {s : State} {k i j : Nat} (h : j ∈ s.written) :
    j ∈ (s.pushFree k i).written := by
  unfold State.pushFree
  dsimp only
  split <;> simp [h]

/-- So it does in the loop. -/
theorem poolLoop_written_of_mem {fuel cur j : Nat} {s : State} (h : j ∈ s.written) :
    j ∈ (poolLoop ram fuel cur s).state.written := by
  induction fuel generalizing cur s with
  | zero => exact h
  | succ fuel ih =>
    rw [poolLoop]
    split
    · exact ih (pushFree_written_of_mem (List.mem_cons_of_mem _ h))
    · exact h

/-- The loop writes the record of every block it comes to, after a wrap as well. -/
theorem poolLoop_visits {r fuel cur : Nat} {s : State} (hr : r < fuel) (hcur : cur < 2 ^ 64)
    (hlt : ∀ m ≤ r, wrap (cur + 8388608 * m) < poolHorizon ram) :
    wrapSub (wrap (cur + 8388608 * r)) ram.baseAddr / 4096 ∈
      (poolLoop ram fuel cur s).state.written := by
  induction r generalizing fuel cur s with
  | zero =>
    obtain ⟨fuel, rfl⟩ := Nat.exists_eq_succ_of_ne_zero (by omega : fuel ≠ 0)
    have h0 := hlt 0 le_rfl
    rw [Nat.mul_zero, Nat.add_zero, wrap_of_lt hcur] at h0 ⊢
    rw [poolLoop, if_pos h0]
    exact poolLoop_written_of_mem (mem_pushFree_written _ _ _)
  | succ r ih =>
    obtain ⟨fuel, rfl⟩ := Nat.exists_eq_succ_of_ne_zero (by omega : fuel ≠ 0)
    have h0 := hlt 0 (Nat.zero_le _)
    rw [Nat.mul_zero, Nat.add_zero, wrap_of_lt hcur] at h0
    have hnext : ∀ m, wrap (wrap (cur + maxBlockSize) + 8388608 * m) =
        wrap (cur + 8388608 * (m + 1)) := by
      intro m
      rw [maxBlockSize_eq]
      unfold wrap
      omega
    rw [poolLoop, if_pos h0, ← hnext]
    refine ih (by omega) (wrap_lt _) fun m hmr => ?_
    rw [hnext]
    exact hlt (m + 1) (by omega)

/-- What the loop writes, `kalloc_init` writes. -/
theorem kallocInit_state {s : State} (hp : freePoolStart ram bssEnd < poolHorizon ram) :
    (kallocInit ram bssEnd s).state = (poolLoop ram (2 ^ 41 + 1) (freePoolStart ram bssEnd)
      (clearLists (clearPages s (totalPages ram)))).state := by
  rw [kallocInit, if_neg (Nat.not_le.mpr hp)]

/-- The loop has no panic. -/
theorem poolLoop_ne_panic {fuel cur code arg : Nat} {s t : State} :
    poolLoop ram fuel cur s ≠ .panic code arg t := by
  induction fuel generalizing cur s with
  | zero => simp [poolLoop]
  | succ fuel ih =>
    rw [poolLoop]
    split
    · exact ih
    · simp

/-- `kalloc_init` stops only where the pool would be empty. -/
theorem kallocInit_ne_panic (hp : freePoolStart ram bssEnd < poolHorizon ram) (s : State)
    (code arg : Nat) (t : State) : kallocInit ram bssEnd s ≠ .panic code arg t := by
  rw [kallocInit, if_neg (Nat.not_le.mpr hp)]
  exact poolLoop_ne_panic

/-! ## The machines that leave RAM -/

/-- Where the metadata passes the end of the address space the pool starts below RAM. -/
theorem freePoolStart_of_not_fits (hm : Machine ram bssEnd) (hf : ¬ Fits ram bssEnd) :
    freePoolStart ram bssEnd < ram.baseAddr := by
  have h1 := hm.size_lt
  have h2 := hm.region
  have h3 := hm.bss_ge
  have h4 := hm.bss_le
  have hpages : totalPages ram < 2 ^ 32 := by unfold totalPages; omega
  have hblob : metadataBlobSize ram = totalPages ram * 32 + 192 :=
    wrap_of_lt (by unfold maxOrder; omega)
  have hstart : metadataStart bssEnd = wrap (bssEnd + 4095) / 4096 * 4096 := andNot_mask _ 12
  have hfps : freePoolStart ram bssEnd =
      wrap (metadataEnd ram bssEnd + 8388607) / 8388608 * 8388608 := by
    rw [← alignmentMask_eq]
    exact andNot_mask _ 23
  have hend : metadataEnd ram bssEnd = wrap (metadataStart bssEnd + metadataBlobSize ram) := rfl
  unfold Fits metadataTop at hf
  rw [alignmentMask_eq] at hf
  rw [hblob, hstart] at hend
  rw [hfps, hend]
  unfold wrap
  omega

/-- Where the pool does not fit, a store goes behind the end. -/
theorem not_staysInRam_of_not_fits (hm : Machine ram bssEnd)
    (hp : freePoolStart ram bssEnd < poolHorizon ram) (hf : ¬ Fits ram bssEnd) :
    ¬ StaysInRam ram bssEnd := by
  intro h
  have hlow := freePoolStart_of_not_fits hm hf
  have hreg := hm.region
  have hmem := h.1 ⟨fun _ => ⟨0, 0, 0, 0, 0⟩, fun _ => 0, []⟩ rfl
    (wrapSub (wrap (freePoolStart ram bssEnd + 8388608 * 0)) ram.baseAddr / 4096) (by
      rw [kallocInit_state hp]
      refine poolLoop_visits (by decide) (by omega) fun m hm' => ?_
      obtain rfl : m = 0 := by omega
      rwa [Nat.mul_zero, Nat.add_zero, wrap_of_lt (by omega)])
  unfold wrapSub wrap totalPages at hmem
  omega

section Overrun

variable (hm : Machine ram bssEnd) (hf : Fits ram bssEnd)
  (hp : freePoolStart ram bssEnd < poolHorizon ram) (he : ¬ EndAligned ram)
include hm hf hp he

/-- The last block starts below the end of RAM and ends above it. -/
theorem last_block_spec : poolCount ram bssEnd ≠ 0 ∧
    freePoolStart ram bssEnd + 8388608 * (poolCount ram bssEnd - 1) <
      ram.baseAddr + ram.totalSize ∧
    ram.baseAddr + ram.totalSize < freePoolStart ram bssEnd + 8388608 * poolCount ram bssEnd ∧
    freePoolStart ram bssEnd + 8388608 * poolCount ram bssEnd ≤ 2 ^ 64 := by
  obtain ⟨q, hq⟩ := (freePoolStart_spec hm hf).1
  have hz := poolHorizon_eq hm hp
  have hzl : poolHorizon ram < 2 ^ 64 := wrap_lt _
  unfold poolCount
  rw [alignmentMask_eq, maxBlockSize_eq]
  unfold EndAligned at he
  omega

/-- The block that `kalloc` hands out first reaches over the end of RAM. -/
theorem overrun_of_filling {t : State}
    (h : Filling (totalPages ram) t (poolList (poolLo ram bssEnd) (poolCount ram bssEnd))) :
    ¬ InRam ram bssEnd ⟨t, []⟩ := by
  intro hin
  obtain ⟨hne, hlt, hover, _⟩ := last_block_spec hm hf hp he
  obtain ⟨m, hcount⟩ := Nat.exists_eq_succ_of_ne_zero hne
  have hlo := poolLo_spec hm hf
  have hreg := hm.region
  have hd := h.lists.dll (maxOrder - 1) (by decide)
  rw [hcount] at hd hover hlt
  simp only [topLists, Function.update_self, poolList] at hd
  have hhead : t.freeLists (maxOrder - 1) = poolLo ram bssEnd + 2048 * m := hd.seg.1
  obtain ⟨u, hrun, _⟩ := kalloc_head ram (s := t) (hhead ▸ hd.seg.2.1)
  have haddr : ram.baseAddr + (poolLo ram bssEnd + 2048 * m) * 4096 =
      freePoolStart ram bssEnd + 8388608 * m := by omega
  rw [hhead, haddr, wrap_of_lt (by omega)] at hrun
  have hpow : 2 ^ (maxOrder - 1) * 4096 = 8388608 := by decide
  have hsub := hin.returns _ _ _ _ hrun
  have hlast : freePoolStart ram bssEnd + 8388608 * m + 8388607 ∈ pool ram bssEnd := by
    refine hsub ⟨?_, ?_⟩ <;> simp only [hpow] <;> omega
  have := hlast.2
  omega

/-- So it does where RAM does not end with a block. -/
theorem not_staysInRam_of_not_endAligned : ¬ StaysInRam ram bssEnd := by
  intro h
  obtain ⟨hne, hlt, hover, hle⟩ := last_block_spec hm hf hp he
  rcases Nat.lt_or_eq_of_le hle with hw | hw
  · obtain ⟨t, ht, hfill⟩ := kallocInit_spec hm hf hp hw
      (s := ⟨fun _ => ⟨0, 0, 0, 0, 0⟩, fun _ => 0, []⟩) rfl
    exact overrun_of_filling hm hf hp he hfill
      (h.2 ⟨t, []⟩ [] _ ⟨rfl, _, rfl, ht⟩ .nil Run.Steps.nil)
  · -- the address wraps to 0 after the last block and the loop goes on there
    have hz := poolHorizon_eq hm hp
    have hreg := hm.region
    have hsize := hm.size_lt
    have hmem := h.1 ⟨fun _ => ⟨0, 0, 0, 0, 0⟩, fun _ => 0, []⟩ rfl
      (wrapSub (wrap (freePoolStart ram bssEnd + 8388608 * poolCount ram bssEnd)) ram.baseAddr
        / 4096) (by
        rw [kallocInit_state hp]
        refine poolLoop_visits (by omega) (by omega) fun m hmc => ?_
        unfold wrap
        omega)
    rw [hw] at hmem
    unfold wrapSub wrap totalPages at hmem
    omega

end Overrun

/-! ## The machines that stay inside RAM -/

/-- A sound state returns addresses in RAM only. -/
theorem Sound.inRam (hm : Machine ram bssEnd) (hf : Fits ram bssEnd)
    (h : Sound ram bssEnd c free) : InRam ram bssEnd c where
  returns _ _ _ _ hrun := (h.returns_inside hm hf hrun).1
  written := h.inv.written
  apart := h.live_pairwise

/-- Where both hold, every run stays in RAM. -/
theorem staysInRam_of_endAligned (hm : Machine ram bssEnd)
    (hp : freePoolStart ram bssEnd < poolHorizon ram) (hf : Fits ram bssEnd)
    (he : EndAligned ram) : StaysInRam ram bssEnd := by
  refine ⟨fun s hs i hi => ?_, fun c h d hb hr hop => ?_⟩
  · obtain ⟨t, ht, hfill⟩ := kallocInit_spec hm hf hp (poolCount_spec hm hf he hp).2 hs
    rw [ht] at hi
    exact hfill.written i hi
  · obtain ⟨free, hd⟩ := sound_of_run hm hf he hb hr hop
    exact hd.inRam hm hf

/-- On a machine whose `kalloc_init` does not stop, everything stays inside RAM if and only
if RAM ends on a multiple of 8 MiB and the metadata fits below the end of the address
space. -/
theorem staysInRam_iff (hm : Machine ram bssEnd)
    (hp : ∀ s code arg t, kallocInit ram bssEnd s ≠ .panic code arg t) :
    StaysInRam ram bssEnd ↔ EndAligned ram ∧ Fits ram bssEnd := by
  have hlt : freePoolStart ram bssEnd < poolHorizon ram := by
    by_contra hge
    exact hp ⟨fun _ => ⟨0, 0, 0, 0, 0⟩, fun _ => 0, []⟩ _ _ _ (if_pos (Nat.not_lt.mp hge))
  constructor
  · intro h
    have hf : Fits ram bssEnd := by
      by_contra hf
      exact not_staysInRam_of_not_fits hm hlt hf h
    refine ⟨?_, hf⟩
    by_contra he
    exact not_staysInRam_of_not_endAligned hm hf hlt he h
  · exact fun ⟨he, hf⟩ => staysInRam_of_endAligned hm hlt hf he

/-- On the board both sides hold. -/
theorem staysInRam_iff_virt : StaysInRam virt virtBssEnd ↔ EndAligned virt ∧ Fits virt virtBssEnd :=
  staysInRam_iff virt_machine (kallocInit_ne_panic (by decide))

/-- The same board with one page of RAM more. -/
def oddRam : Meta := ⟨0x80000000, 0x8001000⟩

/-- The odd RAM is one that `kalloc_init` takes. -/
theorem oddRam_machine : Machine oddRam virtBssEnd where
  base_page := by decide
  size_page := by decide
  size_lt := by decide
  region := by decide
  bss_ge := by decide
  bss_le := by decide

/-- With that page the pool gets one block more, and most of it is not RAM. -/
theorem oddRam_leaves : (∀ s code arg t, kallocInit oddRam virtBssEnd s ≠ .panic code arg t) ∧
    ¬ StaysInRam oddRam virtBssEnd := by
  have hf : Fits oddRam virtBssEnd := by unfold Fits; decide
  have he : ¬ EndAligned oddRam := by unfold EndAligned; decide
  have hp : freePoolStart oddRam virtBssEnd < poolHorizon oddRam := by decide
  exact ⟨kallocInit_ne_panic hp, not_staysInRam_of_not_endAligned oddRam_machine hf hp he⟩

end RexOS.Kalloc
