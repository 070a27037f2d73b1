import RexOS.Loader.Spawn

/-!
# The trap frame of a new process

The frame lies in the kernel stack, and nothing that is done after it has been filled touches the
stack again, two words apart that are entered late.
-/

namespace RexOS.Loader

open Bits RexOS.Kalloc RexOS.Paging Radix

variable {β : Type} {A : PageAlloc β} {Owns : β → List Grant → Prop} {root : Nat} {m₀ : Nat → Nat}
  {stack : Grant} {R L : List Grant} {s s₁ s' : Space β} {bs : List Made} {c : MapCall}
  {binary : Nat → UInt8} {ph : Phdr} {phs : List Phdr} {k w : Nat}

/-- A block comes from the page allocator and is noted as given. -/
theorem kallocBlock_eq_done {buff : Nat} : kallocBlock A k s = .done buff s' ↔
    ∃ b', A.kalloc s.pages k = .done buff b' ∧
      s' = { s with pages := b', given := buff :: s.given } := by
  constructor
  · intro h
    obtain ⟨_, s₀, htake, hdone⟩ := Outcome.bind_eq_done.mp h
    obtain ⟨b', hrun, rfl⟩ := Outcome.within_eq_done.mp htake
    obtain ⟨rfl, rfl⟩ := Outcome.done.inj hdone
    exact ⟨b', hrun, rfl⟩
  · rintro ⟨b', hrun, rfl⟩
    rw [kallocBlock, hrun]
    rfl

namespace Loaded

/-- A call writes in tables and in blocks that are mapped, and not in the kernel stack. -/
theorem mapCall_stack (hA : A.Grants Owns) (h : Loaded Owns root m₀ stack R s L bs)
    (hc : c.Whole k) (hR : ⟨c.physAddr, k⟩ ∈ R)
    (hfresh : c.Mega → ∀ e ∈ bs.flatMap Made.tiles, e.Mega →
      e.piece.pa < c.physAddr ∨ c.physAddr + c.size ≤ e.piece.pa) {virAddr : Nat}
    (hrun : mapPieces A c.user c.perm root virAddr c.pieces s = .done () s')
    (hw : w ∈ stack.extent) : s'.mem w = s.mem w := by
  have hAR : A.Grants (Reserving Owns R) := reserving_grants hA
  rcases h.tiled.mapWhole (j := 0) (n := 0) hAR hc (fun _ => reserved_of_mem hA hR) hfresh virAddr
      (Or.inr ⟨(), s', hrun⟩) with ⟨-, s₂, L', hmap, ht', hspread, -⟩ | ⟨-, arg, s₂, hstop⟩
  · obtain ⟨-, rfl⟩ := Outcome.done.inj (hmap.symm.trans hrun)
    refine hspread.frame w
      (not_onTable_of_reserved (reserved_of_mem hA h.stack_mem) ht'.toTree hw)
      fun d hd hm x hx n hp he => ?_
    obtain ⟨b, hb, hdb, hu, l, hl, -⟩ := h.mega_block hd hm
    obtain ⟨-, hsub⟩ := tile_subset hl hdb
    rw [Tiled.mega_span hm] at hsub
    have hpath := x.path_mem
    rw [hp] at hpath
    exact Set.disjoint_left.mp (h.off_stack b hb hu) hw
      (he ▸ hsub (Tiled.slot_mem (trail_cons.mp hpath).1))
  · rw [hstop] at hrun
    cases hrun

/-- The same for a block that has been taken and filled before. -/
theorem mapBlock_stack (hA : A.Grants Owns) (h : Loaded Owns root m₀ stack R s L bs) {b' : β}
    (hc : c.Whole k) (hrun : A.kalloc s.pages k = .done c.physAddr b') (hpages : s₁.pages = b')
    (hmem : ∀ w, w ∉ (Grant.mk c.physAddr k).extent → s₁.mem w = s.mem w) {virAddr : Nat}
    (hmap : mapPieces A c.user c.perm root virAddr c.pieces s₁ = .done () s')
    (hw : w ∈ stack.extent) : s'.mem w = s.mem w := by
  have hdis := disjoint_of_take hA h.tiled.owns hrun (Or.inl h.stack_mem)
  rw [← hmem w (Set.disjoint_left.mp hdis hw)]
  refine (h.take hA hrun hpages hmem).mapCall_stack hA hc List.mem_cons_self
    (fun _ e he hm => ?_) hmap hw
  have hdis := h.frame_apart hA hrun he hm
  rw [extent_eq hc] at hdis
  by_contra hin
  have hfirst : e.piece.pa ∈ Set.Ico e.piece.pa (e.piece.pa + 2 ^ 21) := ⟨le_rfl, by omega⟩
  exact Set.disjoint_left.mp hdis hfirst ⟨by omega, by omega⟩

section Segments

variable (hA : A.Grants Owns) (hal : A.Aligned Owns) (hlow : ∀ b L, Owns b L → Low L)
include hA hal hlow

/-- Loading a segment leaves the kernel stack alone. -/
theorem segment_stack (h : Loaded Owns root m₀ stack R s L bs) (hu : ph.Usable)
    (hrun : loadSegment A binary root ph s = .done () s') (hw : w ∈ stack.extent) :
    s'.mem w = s.mem w := by
  obtain ⟨hk, hk12⟩ := hu.orderOf_eq
  have hshift : shiftPage ph.order = ph.size := shiftPage_eq (hk12.trans (by decide))
  rw [loadSegment, hk] at hrun
  obtain ⟨buff, s₀, hblock, hmap⟩ := Outcome.bind_eq_done.mp hrun
  obtain ⟨b', hkalloc, rfl⟩ := kallocBlock_eq_done.mp hblock
  have hd := (aligned_of_take hal h.tiled.owns hkalloc).1
  have hend := (reserving_block hA (reserving_take hA h.tiled.owns hkalloc)
    (Or.inl List.mem_cons_self)).2.2
  have hc := hu.whole hd (low_of_take hA hlow h.tiled.owns hkalloc)
  have hle := hu.filled_le
  have hsize : 2 ^ ph.order * 4096 = ph.size := Nat.mul_comm _ _
  have hpage : 4096 ∣ buff := (Nat.dvd_mul_left _ _).trans hd
  simp only [hsize] at hend
  have hfill : Filled binary ph buff { s with pages := b', given := buff :: s.given } _ :=
    filled_fillBlock (Nat.dvd_trans (by decide) hpage) (by omega) _
  rw [uvmMap, mapRange_eq true, hshift, Nat.div_mul_cancel hpage] at hmap
  refine h.mapBlock_stack hA hc hkalloc hfill.pages (fun w hw => hfill.words w ?_) hmap hw
  by_contra hin
  refine hw ⟨?_, ?_⟩ <;> simp only [Phdr.call, hsize] <;> omega

/-- Loading all of them leaves the kernel stack alone. -/
theorem loadAll_stack (h : Loaded Owns root m₀ stack R s L bs) (hu : ∀ ph ∈ phs, ph.Usable)
    (hrun : loadAll A binary root phs s = .done () s') (hw : w ∈ stack.extent) :
    s'.mem w = s.mem w := by
  induction phs generalizing R s L bs with
  | nil =>
    obtain ⟨-, rfl⟩ := Outcome.done.inj hrun
    rfl
  | cons ph phs ih =>
    obtain ⟨_, s₁, hfirst, hrest⟩ := Outcome.bind_eq_done.mp hrun
    obtain ⟨b, -, ⟨-, R₁, s₂, L₁, hseg, hl, -⟩ | ⟨-, arg, s₂, hno⟩⟩ :=
      h.segment (j := 0) (n := 0) binary hA hal hlow (hu ph List.mem_cons_self)
        (Or.inr ⟨(), s₁, hfirst⟩)
    · obtain ⟨-, rfl⟩ := Outcome.done.inj (hseg.symm.trans hfirst)
      rw [ih hl (fun x hx => hu x (List.mem_cons_of_mem _ hx)) hrest]
      exact h.segment_stack hA hal hlow (hu ph List.mem_cons_self) hfirst hw
    · rw [hno] at hfirst
      cases hfirst

/-- The last part enters two words of the frame. -/
theorem finish_stack (h : Loaded Owns root m₀ stack R s L bs) {tf : Nat}
    (htf : ∀ i < 39, entryAt tf i ∈ stack.extent) {r : Option Nat}
    (hrun : finishProcess A binary tf root s = .done r s') (hw : w ∈ stack.extent) :
    s'.mem w = if w = entryAt tf 2 then 0x80000000
      else if w = entryAt tf 32 then Bytes.load binary 24 8 else s.mem w := by
  have h₁ := h.store_trapframe hA (htf 32 (by decide)) (Bytes.load binary 24 8)
  rw [finishProcess] at hrun
  generalize hs₁ : s.store (entryAt tf 32) (Bytes.load binary 24 8) = s₁ at h₁ hrun
  obtain ⟨ustack, s₂, hblock, hrest⟩ := Outcome.bind_eq_done.mp hrun
  obtain ⟨b', hkalloc, rfl⟩ := kallocBlock_eq_done.mp hblock
  obtain ⟨⟨⟩, s₃, hmap, hrest⟩ := Outcome.bind_eq_done.mp hrest
  obtain ⟨capabilityRoot, s₄, hblock', hdone⟩ := Outcome.bind_eq_done.mp hrest
  obtain ⟨b'', hkalloc', rfl⟩ := kallocBlock_eq_done.mp hblock'
  obtain ⟨-, rfl⟩ := Outcome.done.inj hdone
  have hd : 4096 ∣ ustack :=
    (Nat.dvd_mul_left _ _).trans (aligned_of_take hal h₁.tiled.owns hkalloc).1
  have hc := ustackCall_whole hd (low_of_take hA hlow h₁.tiled.owns hkalloc)
  have hend : ustack + 2 ^ 0 * 4096 ≤ 2 ^ 64 :=
    (reserving_block hA (reserving_take hA h₁.tiled.owns hkalloc) (Or.inl List.mem_cons_self)).2.2
  rw [uvmMap_ustack hd] at hmap
  have hpages := zeroTable_pages ustack { s₁ with pages := b', given := ustack :: s₁.given }
  have hmem : ∀ w, w ∉ (Grant.mk (ustackCall ustack).physAddr 0).extent →
      (zeroTable ustack { s₁ with pages := b', given := ustack :: s₁.given }).mem w = s₁.mem w := by
    intro w hw
    rw [zeroTable_eq]
    exact mem_zeroWords_block hend (by decide) hw
  have hstack := h₁.mapBlock_stack hA hc hkalloc hpages hmem hmap hw
  obtain ⟨-, s₅, L₅, hmap', hl, -⟩ | ⟨-, arg, s₅, hno⟩ :=
    h₁.mapBlock (j := 0) (n := 0) hA hc rfl hkalloc hpages hmem 0x7FFFF000 (Or.inr ⟨(), s₃, hmap⟩)
  · obtain ⟨-, rfl⟩ := Outcome.done.inj (hmap'.symm.trans hmap)
    have hl₂ := hl.store_trapframe hA (htf 2 (by decide)) 0x80000000
    have hdis := disjoint_of_take hA hl₂.tiled.owns hkalloc' (Or.inl hl₂.stack_mem)
    have hend' : capabilityRoot + 2 ^ 2 * 4096 ≤ 2 ^ 64 :=
      (reserving_block hA (reserving_take hA hl₂.tiled.owns hkalloc')
        (Or.inl List.mem_cons_self)).2.2
    rw [mem_zeroWords_block hend' (by decide) (Set.disjoint_left.mp hdis hw)]
    simp only [Space.store_mem, Function.update_apply]
    split
    · rfl
    · rw [hstack, ← hs₁, Space.store_mem, Function.update_apply]
  · rw [hno] at hmap
    cases hmap

end Segments

end Loaded

/-! ## The frame -/

/-- The words of the frame, by their number. -/
def frameWord (site : Site) (binary : Nat → UInt8) (root stack i : Nat) : Nat :=
  if i = 2 then 0x80000000
  else if i = 32 then Bytes.load binary 24 8
  else if i = 37 then satpOf root
  else if i = 38 then site.runqueue
  else if i = 35 then trapframeAt stack
  else if i = 36 then site.strapRouter
  else if i = 34 then satpOf site.rootTable
  else if i = 33 then site.sstatusVal
  else 0

/-- The words of the trap frame are at the end of the page. -/
theorem entryAt_trapframe {addr i : Nat} (hlow : addr < 2 ^ 56) (hi : i < 39) :
    entryAt (trapframeAt addr) i = addr + 3784 + 8 * i := by
  have htf : trapframeAt addr = addr + 3784 := by
    rw [trapframeAt, wrap_of_lt (by omega), trapframeSize, wrapSub_of_le (by omega) (by omega)]
    omega
  rw [htf, entryAt, wrap_of_lt (by omega)]

/-- Two fields of the trap frame are two words. -/
theorem entryAt_trapframe_inj {addr i j : Nat} (hlow : addr < 2 ^ 56) (hi : i < 39) (hj : j < 39) :
    entryAt (trapframeAt addr) i = entryAt (trapframeAt addr) j ↔ i = j := by
  rw [entryAt_trapframe hlow hi, entryAt_trapframe hlow hj]
  omega

/-- The loop over the trap frame zeroes its fields. -/
theorem zeroWords_trapframe {addr n i : Nat} (hi : i < n) :
    (zeroWords n (trapframeAt addr) s).mem (entryAt (trapframeAt addr) i) = 0 := by
  induction n with
  | zero => exact absurd hi (Nat.not_lt_zero i)
  | succ n ih =>
    rw [zeroWords_succ, Space.store_mem, Function.update_apply]
    split
    · rfl
    · rename_i hne
      have hin : i ≠ n := fun he => hne (congrArg _ he)
      exact ih (by omega)

/-- The frame before the table and the image are there. -/
theorem initTrapframe_words {site : Site} {root addr i : Nat} (hlow : addr < 2 ^ 56) (hi : i < 39)
    (h2 : i ≠ 2) (h32 : i ≠ 32) (h37 : i ≠ 37) :
    (initTrapframe site (trapframeAt addr) s).mem (entryAt (trapframeAt addr) i) =
      frameWord site binary root addr i := by
  have hinj : ∀ j < 39, (entryAt (trapframeAt addr) i = entryAt (trapframeAt addr) j) = (i = j) :=
    fun j hj => propext (entryAt_trapframe_inj hlow hi hj)
  simp only [initTrapframe, Space.store_mem, Function.update_apply, hinj 33 (by decide),
    hinj 34 (by decide), hinj 35 (by decide), hinj 36 (by decide), hinj 38 (by decide)]
  have hzero : (zeroWords (trapframeSize / 8) (trapframeAt addr) s).mem
      (entryAt (trapframeAt addr) i) = 0 := zeroWords_trapframe hi
  rw [hzero]
  rw [frameWord, if_neg h2, if_neg h32, if_neg h37]

/-- What there is of a process once `spawn_process` has returned. -/
structure Spawned (Owns : β → List Grant → Prop) (site : Site) (binary : Nat → UInt8)
    (m₀ : Nat → Nat) (root stack : Nat) (s : Space β) : Prop where
  low : stack < 2 ^ 56
  loaded : ∃ m m' R L cs ustack, Loaded Owns root m₀ ⟨stack, 0⟩ R s L
      (kernelPages site.userTrampoline stack m m' ++ (cs ++ [ustack])) ∧
    List.Forall₂ (Placed binary m₀) (segments binary) cs ∧
    ustack.call = ustackCall ustack.call.physAddr ∧
    Aside ⟨stack, 0⟩ R (kernelPages site.userTrampoline stack m m' ++ (cs ++ [ustack]))
      ⟨s.given.headD 0, 2⟩
  frame : ∀ i < 39, s.mem (entryAt (trapframeAt stack) i) = frameWord site binary root stack i

/-- A call that returns has made the process of the image. -/
theorem spawnProcess_spawned (hA : A.Grants Owns) (hal : A.Aligned Owns)
    (hlow : ∀ b L, Owns b L → Low L) {site : Site} (ht : site.userTrampoline + 4096 ≤ 2 ^ 56)
    (helf : IsElf binary) (hu : ∀ ph ∈ segments binary, ph.Usable) (howns : Owns s.pages L)
    {r : Option Nat} (hrun : spawnProcess A site binary s = .done r s') :
    ∃ root stack, r = some (satpOf root) ∧ Spawned Owns site binary s.mem root stack s' := by
  obtain ⟨stack, s₀, hblock, hrest⟩ := Outcome.bind_eq_done.mp hrun
  obtain ⟨b', hkalloc, rfl⟩ := kallocBlock_eq_done.mp hblock
  have hres : Reserving Owns [⟨stack, 0⟩] b' L := reserving_take hA (reserving_nil howns) hkalloc
  have h56 : stack < 2 ^ 56 := low_of_take hA hlow (reserving_nil howns) hkalloc
  obtain ⟨hd, hpos, -⟩ := reserving_block hA hres (Or.inl List.mem_cons_self)
  have hd : 4096 ∣ stack := hd
  have hpos : 0 < stack := hpos
  have hkstack : stack + 4096 ≤ 2 ^ 56 := by omega
  have htf : wrapSub (wrap (stack + 4096)) trapframeSize = trapframeAt stack := rfl
  rw [if_neg hpos.ne'] at hrest
  simp only [htf, if_neg (not_not_intro helf), loadSegments_eq] at hrest
  obtain ⟨root', s₁', hcreate, hrest⟩ := Outcome.bind_eq_done.mp hrest
  obtain ⟨⟨⟩, s₃, hload, hfinish⟩ := Outcome.bind_eq_done.mp hrest
  generalize hs₀ : initTrapframe site (trapframeAt stack)
    { s with pages := b', given := stack :: s.given } = s₀ at hcreate
  have hpages₀ : s₀.pages = b' := by rw [← hs₀, initTrapframe_pages]
  rw [← hpages₀] at hres
  have hmem₀ : ∀ a, s₀.mem a ≠ s.mem a →
      ∃ g, (g ∈ [(⟨stack, 0⟩ : Grant)] ∨ g ∈ L) ∧ a ∈ g.extent := by
    intro a ha
    refine ⟨_, Or.inl List.mem_cons_self, ?_⟩
    by_contra hin
    rw [← hs₀] at ha
    exact ha (mem_initTrapframe h56 hin)
  obtain ⟨root, s₁, L₁, m, m', hcreate', hl₁, -⟩ := createUserTable_loaded (j := 0) (n := 0) hA hres
    List.mem_cons_self hmem₀ ht hkstack (Or.inr ⟨root', s₁', hcreate⟩)
  obtain ⟨rfl, rfl⟩ := Outcome.done.inj (hcreate'.symm.trans hcreate)
  have hslot : ∀ i < 39, entryAt (trapframeAt stack) i ∈ (Grant.mk stack 0).extent :=
    fun i hi => trapframe_mem h56 hi
  have hl₂ := hl₁.store_trapframe hA (hslot 37 (by decide)) (satpOf root)
  obtain ⟨R₃, L₃, cs, hl₃, hcs, -, -⟩ := hl₂.loadAll_done (j := 0) (n := 0) hA hal hlow hu hload
  obtain ⟨ustack, hcall, ⟨-, R₄, s₄, L₄, hdone, hl₄, haside⟩ | ⟨-, arg, s₄, hno⟩⟩ :=
    hl₃.finish hA hal hlow binary hslot (Or.inr ⟨r, s', hfinish⟩)
  · obtain ⟨rfl, rfl⟩ := Outcome.done.inj (hdone.symm.trans hfinish)
    rw [List.append_assoc] at hl₄ haside
    refine ⟨root, stack, rfl, h56, ⟨m, m', R₄, L₄, cs, ustack, hl₄, hcs, hcall, haside⟩,
      fun i hi => ?_⟩
    have hinj : ∀ j < 39, (entryAt (trapframeAt stack) i = entryAt (trapframeAt stack) j) =
        (i = j) := fun j hj => propext (entryAt_trapframe_inj h56 hi hj)
    obtain ⟨L', hmade, hkeep⟩ := createUserTable_spec (reserving_grants hA) hres (by omega)
      (by omega) hcreate
    have htable : s₁.mem (entryAt (trapframeAt stack) i) =
        s₀.mem (entryAt (trapframeAt stack) i) :=
      hkeep _ (not_onTable_of_reserved (reserved_of_mem hA List.mem_cons_self) hmade.toTree
        (hslot i hi))
    rw [hl₃.finish_stack hA hal hlow hslot hfinish (hslot i hi),
      hl₂.loadAll_stack hA hal hlow hu hload (hslot i hi), Space.store_mem,
      Function.update_apply, htable]
    simp only [hinj 2 (by decide), hinj 32 (by decide), hinj 37 (by decide)]
    by_cases h2 : i = 2
    · rw [if_pos h2, frameWord, if_pos h2]
    by_cases h32 : i = 32
    · rw [if_neg h2, if_pos h32, frameWord, if_neg h2, if_pos h32]
    by_cases h37 : i = 37
    · rw [if_neg h2, if_neg h32, if_pos h37, frameWord, if_neg h2, if_neg h32, if_pos h37]
    rw [if_neg h2, if_neg h32, if_neg h37, ← hs₀]
    exact initTrapframe_words h56 hi h2 h32 h37
  · rw [hno] at hfinish
    cases hfinish

end RexOS.Loader
