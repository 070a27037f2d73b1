import RexOS.Kalloc.Canonical

/-!
# Which addresses `kfree` accepts

`kfree` decides by one flag: it accepts a page address of RAM whose record is marked
allocated. The mark agrees with the ledger until a block is freed that merges downwards.
The merged block is then recorded at the lower buddy, and the page the freed block
started at keeps its mark: from then on its address is accepted although nobody holds it.
-/

namespace RexOS.Kalloc

open Dyadic Bits

/-- `physAddr` was returned by `kalloc` and has not been freed since. -/
def Held (c : Config) (physAddr : Nat) : Prop := ∃ g ∈ c.live, g.addr = physAddr

/-- In `c`, `kfree` accepts the addresses held and stops at all others, with one of its
codes and nothing changed. -/
structure Exact (ram : Meta) (c : Config) : Prop where
  accepts : ∀ p, Held c p → ∃ t, kfree ram c.mem p = .done () t
  rejects : ∀ p < 2 ^ 64, ¬ Held c p →
    ∃ code, 102 ≤ code ∧ code ≤ 105 ∧ kfree ram c.mem p = .panic code p c.mem

/-- The argument of a call is a 64-bit address. -/
def Op.Word : Op → Prop
  | .alloc _ _ => True
  | .free p => p < 2 ^ 64

/-- The call frees a block that merges downwards. -/
def GoesDown (ram : Meta) (c : Config) : Op → Prop
  | .alloc _ _ => False
  | .free p => MovesDown c.mem (totalPages ram) (pageIndex ram p)
      (c.mem.pageArray (pageIndex ram p)).order

variable {ram : Meta} {bssEnd : Nat} {c d : Config} {free : Nat → List Nat}

/-- The condition `kfree` tests. -/
def Passes (ram : Meta) (s : State) (p : Nat) : Prop :=
  4096 ∣ p ∧ pageIndex ram p < totalPages ram ∧ (s.pageArray (pageIndex ram p)).flag = 1

/-- An address that passes the checks is freed. -/
theorem kfree_of_passes {s : State} {p : Nat} (h : Passes ram s p) :
    ∃ t, kfree ram s p = .done () t := by
  obtain ⟨hal, hlt, hflag⟩ := h
  rw [kfree]
  simp only [and_page_eq_zero.mpr hal, hflag, Nat.not_le.mpr hlt, ne_eq, not_true_eq_false,
    if_false, Nat.one_ne_zero, OfNat.one_ne_ofNat]
  exact ⟨_, rfl⟩

/-- Any other ends in the panic of its check. -/
theorem kfree_of_not_passes {s : State} {p : Nat} (h : ¬ Passes ram s p)
    (hle : ∀ i < totalPages ram, (s.pageArray i).flag ≤ 2) :
    ∃ code, 102 ≤ code ∧ code ≤ 105 ∧ kfree ram s p = .panic code p s := by
  rw [kfree]
  by_cases hal : p &&& 0xFFF ≠ 0
  · exact ⟨104, by decide, by decide, if_pos hal⟩
  rw [if_neg hal]
  by_cases hlt : pageIndex ram p ≥ totalPages ram
  · exact ⟨102, by decide, by decide, if_pos hlt⟩
  simp only [if_neg hlt]
  by_cases h0 : (s.pageArray (pageIndex ram p)).flag = 0
  · exact ⟨103, by decide, by decide, if_pos h0⟩
  rw [if_neg h0]
  by_cases h2 : (s.pageArray (pageIndex ram p)).flag = 2
  · exact ⟨105, by decide, by decide, if_pos h2⟩
  refine absurd ⟨and_page_eq_zero.mp (not_not.mp hal), Nat.not_le.mp hlt, ?_⟩ h
  have := hle _ (Nat.not_le.mp hlt)
  omega

/-- Only the block that is released becomes free. -/
theorem release_flag (s : State) (i k x : Nat) :
    ((release s i k).pageArray x).flag = if x = i then 0 else (s.pageArray x).flag := by
  rw [release, State.setPage_page]
  by_cases h : x = i <;> simp [h]

/-- The invariant, with no stale marks. -/
structure Tight (ram : Meta) (bssEnd : Nat) (c : Config) (free : Nat → List Nat) : Prop
    extends Sound ram bssEnd c free where
  marked : ∀ i < totalPages ram, (c.mem.pageArray i).flag = 1 →
    ∃ g ∈ c.live, pageIndex ram g.addr = i

namespace Tight

/-- Without stale marks `kfree` tests for the ledger. -/
theorem passes_iff (hm : Machine ram bssEnd) (h : Tight ram bssEnd c free) {p : Nat}
    (hp : p < 2 ^ 64) : Passes ram c.mem p ↔ Held c p := by
  constructor
  · rintro ⟨hal, hlt, hflag⟩
    obtain ⟨g, hg, he⟩ := h.marked _ hlt hflag
    refine ⟨g, hg, ?_⟩
    rw [h.addr g hg, he, ← addr_of_pageIndex hm hp hal hlt]
  · rintro ⟨g, hg, rfl⟩
    have hb := Sound.live_block ram hg
    refine ⟨?_, (h.inv.live_lt hb).2, (h.inv.alive _ hb).1⟩
    rw [h.addr g hg]
    exact Nat.dvd_add hm.base_page (Nat.dvd_mul_left _ _)

/-- While no flag is stale the checks accept exactly the grants. -/
theorem exact (hm : Machine ram bssEnd) (h : Tight ram bssEnd c free) : Exact ram c where
  accepts p hp := by
    obtain ⟨g, hg, rfl⟩ := hp
    exact kfree_of_passes ((h.passes_iff hm (h.grant_lt hm hg)).mpr ⟨g, hg, rfl⟩)
  rejects p hp hnot :=
    kfree_of_not_passes (fun hpass => hnot ((h.passes_iff hm hp).mp hpass)) h.inv.flag_le

/-- A call that returns frees only what is held. -/
theorem freesLive (op : Op) (hm : Machine ram bssEnd) (h : Tight ram bssEnd c free)
    (hw : op.Word) (hs : step ram c op = some d) : FreesLive c op := by
  cases op with
  | alloc order caller => trivial
  | free p =>
    by_contra hnot
    obtain ⟨code, _, _, hrun⟩ := (h.exact hm).rejects p hw hnot
    rw [(step_free.mp hs).1] at hrun
    simp at hrun

/-- A call whose free does not merge downwards leaves no stale mark. -/
theorem onStep (op : Op) (hm : Machine ram bssEnd) (h : Tight ram bssEnd c free)
    (hw : op.Word) (hup : ¬ GoesDown ram c op) (hs : step ram c op = some d) :
    ∃ free', Tight ram bssEnd d free' := by
  have hop := h.freesLive _ hm hw hs
  obtain ⟨t, live⟩ := d
  cases op with
  | alloc order caller =>
    obtain ⟨addr, hrun, rfl⟩ := step_alloc.mp hs
    obtain ⟨k, hk⟩ := Sound.search_of_kalloc hrun
    obtain ⟨idx, rest, t', _, hfree, _, hkm, hrun', hflag, hnew⟩ :=
      h.onAlloc caller hm hk
    obtain ⟨rfl, rfl⟩ := Outcome.done.inj (hrun'.symm.trans hrun)
    have hin : idx ∈ free k := hfree ▸ List.mem_cons_self
    refine ⟨_, hnew, fun i hi h1 => ?_⟩
    rcases hflag i h1 with rfl | h1
    · exact ⟨_, List.mem_cons_self, pageIndex_addr hm (h.inv.listed_lt hkm hin).2⟩
    · obtain ⟨g, hg, he⟩ := h.marked i hi h1
      exact ⟨g, List.mem_cons_of_mem _ hg, he⟩
  | free p =>
    obtain ⟨hrun, rfl⟩ := step_free.mp hs
    obtain ⟨g, hg, rfl⟩ := hop
    obtain ⟨t', free', i', k', hrun', hc, hnew⟩ := h.onFree hm hg
    obtain ⟨_, rfl⟩ := Outcome.done.inj (hrun'.symm.trans hrun)
    have horder := (h.inv.alive _ (Sound.live_block _ hg)).2.1
    simp only at horder
    have hsame : i' = pageIndex ram g.addr := by
      by_contra hne
      refine hup ?_
      simp only [GoesDown, horder]
      exact hc.down.mp hne
    refine ⟨_, hnew, fun i hi h1 => ?_⟩
    simp only [release_flag] at h1
    split at h1
    · omega
    · next hne =>
      have h1' : (c.mem.pageArray i).flag = 1 := by
        rcases hc.flags i with he | ⟨_, he⟩ <;> omega
      obtain ⟨x, hx, hxi⟩ := h.marked i hi h1'
      refine ⟨x, List.mem_filter.mpr ⟨hx, ?_⟩, hxi⟩
      rw [bne_iff_ne]
      intro he
      rw [he] at hxi
      exact hne (hxi.symm.trans hsame.symm)

/-- A free that merges downwards leaves the address it was given acceptable. -/
theorem stale {p : Nat} (hm : Machine ram bssEnd) (h : Tight ram bssEnd c free)
    (hw : p < 2 ^ 64) (hdown : GoesDown ram c (.free p)) (hs : step ram c (.free p) = some d) :
    ¬ Held d p ∧ ∃ t, kfree ram d.mem p = .done () t := by
  have hop := h.freesLive (.free p) hm hw hs
  obtain ⟨t, live⟩ := d
  obtain ⟨hrun, rfl⟩ := step_free.mp hs
  obtain ⟨g, hg, rfl⟩ := hop
  obtain ⟨t', free', i', k', hrun', hc, _⟩ := h.onFree hm hg
  obtain ⟨_, rfl⟩ := Outcome.done.inj (hrun'.symm.trans hrun)
  have hpass := (h.passes_iff hm hw).mpr ⟨g, hg, rfl⟩
  have horder := (h.inv.alive _ (Sound.live_block _ hg)).2.1
  simp only [GoesDown] at horder hdown
  rw [horder] at hdown
  constructor
  · rintro ⟨x, hx, he⟩
    simpa [he] using List.mem_filter.mp hx
  · refine kfree_of_passes ⟨hpass.1, hpass.2.1, ?_⟩
    simp only [release_flag, if_neg (Ne.symm (hc.down.mpr hdown))]
    rcases hc.flags (pageIndex ram g.addr) with he | ⟨he, _⟩
    · exact he.trans hpass.2.2
    · exact absurd (hpass.2.2.symm.trans he) (by decide)

/-- A merge downwards leaves a stale flag. -/
theorem not_exact {op : Op} (hm : Machine ram bssEnd) (h : Tight ram bssEnd c free)
    (hw : op.Word) (hdown : GoesDown ram c op) (hs : step ram c op = some d) : ¬ Exact ram d := by
  intro hex
  cases op with
  | alloc order caller => exact hdown
  | free p =>
    obtain ⟨hnot, t, ht⟩ := h.stale hm hw hdown hs
    obtain ⟨code, _, _, hpanic⟩ := hex.rejects p hw hnot
    rw [ht] at hpanic
    simp at hpanic

end Tight

/-- What `kalloc_init` leaves carries no mark. -/
theorem Boot.tight (hm : Machine ram bssEnd) (hf : Fits ram bssEnd) (he : EndAligned ram)
    (hb : Boot ram bssEnd c) :
    Tight ram bssEnd c (topLists (poolList (poolLo ram bssEnd) (poolCount ram bssEnd))) where
  toSound := hb.sound hm hf he
  marked i hi h1 := by
    have := (hb.filling hm hf (poolCount_spec hm hf he hb.pool).2).page i hi
    split at this <;> omega

/-- The calls of a run are well formed and none of them merges downwards. -/
private theorem tight_of_run (hm : Machine ram bssEnd) (hf : Fits ram bssEnd)
    (he : EndAligned ram) {h : List (Config × Op)} (hb : Boot ram bssEnd c)
    (hr : Run (step ram) c h d) (hw : Run.Steps (fun _ op => op.Word) h)
    (hup : Run.Steps (fun c op => ¬ GoesDown ram c op) h) : ∃ free, Tight ram bssEnd d free :=
  hr.invariant (I := fun e => ∃ free, Tight ram bssEnd e free)
    (P := fun c op => op.Word ∧ ¬ GoesDown ram c op) (fun x hx => ⟨hw x hx, hup x hx⟩)
    ⟨_, hb.tight hm hf he⟩ fun _ _ _ ⟨_, hs⟩ hop hst => hs.onStep _ hm hop.1 hop.2 hst

/-- A run in which `kfree` accepts exactly what is held has no downward merge. -/
private theorem steps_of_exact (hm : Machine ram bssEnd) (hf : Fits ram bssEnd)
    (he : EndAligned ram) {h : List (Config × Op)} (hb : Boot ram bssEnd c)
    (hr : Run (step ram) c h d) (hw : Run.Steps (fun _ op => op.Word) h)
    (hex : ∀ x ∈ h, Exact ram x.1) (hd : Exact ram d) :
    Run.Steps (fun c op => ¬ GoesDown ram c op) h := by
  induction hr with
  | nil => exact Run.Steps.nil
  | snoc hr ha ih =>
    obtain ⟨hwa, hws⟩ := Run.steps_cons.mp hw
    obtain ⟨ht, hex⟩ := List.forall_mem_cons.mp hex
    have hup := ih hws hex ht
    obtain ⟨free, htight⟩ := tight_of_run hm hf he hb hr hws hup
    exact Run.steps_cons.mpr ⟨fun hdown => htight.not_exact hm hwa hdown ha hd, hup⟩

/-- In every configuration of a run `kfree` accepts exactly the addresses held, if and
only if no call of the run frees a block that merges downwards. -/
theorem kfree_exact_iff (hm : Machine ram bssEnd) (ha : BlockAligned ram) (hf : Fits ram bssEnd)
    {h : List (Config × Op)} (hb : Boot ram bssEnd c) (hr : Run (step ram) c h d)
    (hw : Run.Steps (fun _ op => op.Word) h) :
    ((∀ x ∈ h, Exact ram x.1) ∧ Exact ram d) ↔
      Run.Steps (fun c op => ¬ GoesDown ram c op) h := by
  constructor
  · exact fun ⟨hex, hd⟩ => steps_of_exact hm hf ha.end_aligned hb hr hw hex hd
  · intro hup
    refine ⟨fun x hx => ?_, ?_⟩
    · obtain ⟨g, hg, hsub⟩ := hr.before hx
      obtain ⟨_, ht⟩ := tight_of_run hm hf ha.end_aligned hb hg (fun y hy => hw y (hsub hy))
        fun y hy => hup y (hsub hy)
      exact ht.exact hm
    · obtain ⟨_, ht⟩ := tight_of_run hm hf ha.end_aligned hb hr hw hup
      exact ht.exact hm

/-- A page is taken and given back. -/
theorem kfree_exact_iff_virt : ∃ c m p d, Boot virt virtBssEnd c ∧
    Run (step virt) c [(m, .free p), (c, .alloc 0 0)] d ∧
    (((∀ x ∈ [(m, Op.free p), (c, .alloc 0 0)], Exact virt x.1) ∧ Exact virt d) ↔
      Run.Steps (fun c op => ¬ GoesDown virt c op) [(m, .free p), (c, .alloc 0 0)]) := by
  obtain ⟨c, m, p, d, hb, hr, hp, _⟩ := virt_run
  exact ⟨c, m, p, d, hb, hr, kfree_exact_iff virt_machine virt_blockAligned virt_fits hb hr
    (Run.steps_cons.mpr ⟨hp, Run.steps_cons.mpr ⟨trivial, Run.Steps.nil⟩⟩)⟩

/-! ## A double free that is accepted -/

/-- The pool of the board. -/
theorem virt_layout : poolLo virt virtBssEnd = 2048 ∧ poolCount virt virtBssEnd = 15 ∧
    totalPages virt = 32768 := by decide

/-- On that board a page is taken from the first list that is not empty. -/
private theorem virt_alloc (k idx : Nat) (rest : List Nat) (h : Tidy virt virtBssEnd c free)
    (hk : k < maxOrder) (hfree : free k = idx :: rest) (hlow : ∀ j < k, free j = []) :
    ∃ t, step virt c (.alloc 0 0) = some ⟨t, ⟨virt.baseAddr + idx * 4096, 0⟩ :: c.live⟩ ∧
      Tidy virt virtBssEnd ⟨t, ⟨virt.baseAddr + idx * 4096, 0⟩ :: c.live⟩
        (allocLists free idx 0 k rest) := by
  obtain ⟨i, r, t, hfree', hrun, _, hnew⟩ := h.onAlloc 0 virt_machine
    (search_of_lists h.inv.lists hk (Nat.zero_le k) hfree fun j _ hj => hlow j hj)
  obtain ⟨rfl, rfl⟩ := List.cons.inj (hfree'.symm.trans hfree)
  exact ⟨t, step_of_kalloc hrun, hnew⟩

/-- A free page with a live page after it, at an odd number, is a block of its own. -/
private theorem free_single (h : Tidy ram bssEnd c free) {i : Nat} {g : Grant}
    (hi : poolLo ram bssEnd ≤ i ∧ i < totalPages ram)
    (hlive : ∀ x ∈ c.live, ¬ Block.Has ⟨pageIndex ram x.addr, x.order⟩ i) (hg : g ∈ c.live)
    (hgi : pageIndex ram g.addr = i + 1) (hodd : (i + 1) % 2 = 1) :
    FreeAt c.mem (totalPages ram) i 0 := by
  obtain ⟨⟨j, k⟩, (⟨hk, hj⟩ | ⟨x, hx, he⟩) | hb, hp⟩ := (h.inv.tiles.cover i).mp hi
  · have hnot : ¬ Block.Has ⟨j, k⟩ (i + 1) := by
      intro hhas
      have hself := Block.has_start ⟨pageIndex ram g.addr, g.order⟩
      simp only [hgi] at hself
      have he := h.inv.tiles.disjoint _ (Or.inl (Or.inl ⟨hk, hj⟩)) _
        (Or.inl (Or.inr (Sound.live_block _ hg))) _ hhas (hgi ▸ hself)
      exact h.inv.live_not_listed (Sound.live_block _ hg) hk ((Block.ext_iff.mp he).1 ▸ hj)
    obtain ⟨q, hq⟩ := h.freeAligned k hk j hj
    simp only [Block.Has] at hp hnot
    have hend : 2 ^ k * (q + 1) = i + 1 := by
      rw [Nat.mul_add, Nat.mul_one, ← hq]
      omega
    cases k with
    | zero =>
      obtain rfl : j = i := by omega
      exact ⟨hi.2, h.inv.listed 0 hk j hj⟩
    | succ k =>
      rw [pow_succ, Nat.mul_comm (2 ^ k), Nat.mul_assoc] at hend
      omega
  · exact absurd (he ▸ hp) (hlive x hx)
  · exact absurd hb (Set.notMem_empty _)

/-- Two neighbouring pages are taken, the lower one is freed and then the upper one. The
upper page is now free, and freeing it again is accepted. -/
theorem virt_double_free : ∃ c h d, Boot virt virtBssEnd c ∧ Run (step virt) c h d ∧
    Run.Steps (fun _ op => op.Word) h ∧
    h.map Prod.snd = [.free 0x87801000, .free 0x87800000, .alloc 0 0, .alloc 0 0] ∧
    ¬ Held d 0x87801000 ∧ ∃ t, kfree virt d.mem 0x87801000 = .done () t := by
  obtain ⟨hlo, hcount, htotal⟩ := virt_layout
  have hend := virt_blockAligned.end_aligned
  obtain ⟨c, hb⟩ := exists_boot virt_machine virt_fits hend (by decide)
  have hc := hb.tidy virt_machine virt_blockAligned virt_fits
  rw [hlo, hcount] at hc
  obtain ⟨t₁, hs₁, h₁⟩ := virt_alloc (maxOrder - 1) 30720
    (poolList 2048 14) hc (by decide) (by simp [topLists, poolList]) fun j hj => by
      simp [topLists, Function.update, Nat.ne_of_lt hj]
  obtain ⟨t₂, hs₂, h₂⟩ := virt_alloc 0 30721 [] h₁ (by decide)
    (by simp [allocLists, maxOrder]) (by simp)
  simp only [hb.1] at hs₁ h₁ hs₂ h₂
  have hlow : (⟨0x87800000, 0⟩ : Grant) ∈ [⟨virt.baseAddr + 30721 * 4096, 0⟩,
      ⟨virt.baseAddr + 30720 * 4096, 0⟩] := by decide
  obtain ⟨c₃, hs₃, hl₃⟩ := h₂.exists_free virt_machine hlow
  obtain ⟨_, h₃⟩ := h₂.onStep (.free 0x87800000) virt_machine ⟨_, hlow, rfl⟩ hs₃
  have hlive : c₃.live = [⟨0x87801000, 0⟩] := by simp [hl₃, virt]
  have hup : (⟨0x87801000, 0⟩ : Grant) ∈ c₃.live := by simp [hlive]
  have hfree : FreeAt c₃.mem (totalPages virt) 30720 0 := by
    refine free_single h₃ (by rw [hlo, htotal]; decide) (fun x hx => ?_) hup (by decide) (by decide)
    rw [hlive, List.mem_singleton] at hx
    subst hx
    unfold Block.Has
    decide
  obtain ⟨d, hs₄, _⟩ := h₃.exists_free virt_machine hup
  have hr₃ := ((Run.nil.snoc hs₁).snoc hs₂).snoc hs₃
  -- the lower page is at an index without a set bit below bit 11
  have hstay : ∀ l, ¬ GoesDown virt ⟨t₂, l⟩ (.free 0x87800000) := by
    rintro l ⟨j, hj, _, _, hbit, _⟩
    have hclear : ∀ j < maxOrder - 1, (pageIndex virt 0x87800000).testBit j = false := by decide
    rw [hclear j hj] at hbit
    exact Bool.false_ne_true hbit
  obtain ⟨_, htight⟩ := tight_of_run virt_machine virt_fits hend hb hr₃
    (Run.steps_cons.mpr ⟨by unfold Op.Word; decide, by simp [Run.Steps, Op.Word]⟩)
    (Run.steps_cons.mpr ⟨hstay _, by simp [Run.Steps, GoesDown]⟩)
  have horder : (c₃.mem.pageArray (pageIndex virt 0x87801000)).order = 0 :=
    (h₃.inv.alive _ (Sound.live_block _ hup)).2.1
  have hdown : GoesDown virt c₃ (.free 0x87801000) := by
    rw [GoesDown, horder]
    exact ⟨0, by decide, le_rfl, fun m hm => absurd hm (Nat.not_lt_zero m), by decide, hfree⟩
  refine ⟨c, _, d, hb, hr₃.snoc hs₄, ?_, rfl, htight.stale virt_machine (by decide) hdown hs₄⟩
  simp [Run.Steps, Op.Word]

end RexOS.Kalloc
