import RexOS.Loader.Collisions

/-!
# What a new process sees

Where the blocks are apart, the table of the process has their pages and no others, and every block
is as the loader has filled it. The start of a segment lies at the start of its block, and the
block at the page of its address: the bytes are where the image wants them when that address is the
start of a page. Where two blocks meet noticeably there is never a process.
-/

namespace RexOS.Loader

open Bits RexOS.Kalloc RexOS.Paging Radix

variable {β : Type} {A : PageAlloc β} {Owns : β → List Grant → Prop} {root : Nat} {m₀ : Nat → Nat}
  {stack : Grant} {R L : List Grant} {s s' : Space β} {bs cs : List Made} {b : Made}
  {binary : Nat → UInt8} {ph : Phdr} {va : Nat}

/-! ## The tables of blocks that are apart -/

/-- Calls that are apart map no page twice. -/
theorem Apart.disjoint (h : Apart bs) {a : Made} (ha : a ∈ bs) (hb : b ∈ bs) (hne : a ≠ b) :
    Disjoint a.call.range b.call.range := by
  have hsymm : Std.Symm fun a b : Made => Disjoint a.call.range b.call.range :=
    ⟨fun _ _ h => h.symm⟩
  exact List.Pairwise.forall h ha hb hne

namespace Loaded

variable (h : Loaded Owns root m₀ stack R s L bs)
include h

/-- A call that was made asks for rights of a leaf. -/
theorem plain {c : MapCall} (hc : c ∈ bs.map Made.call) : c.Plain := by
  obtain ⟨b, hb, rfl⟩ := List.mem_map.mp hc
  obtain ⟨k, hk, -⟩ := h.whole b hb
  exact hk.toPlain

/-- Every tile is a leaf. -/
theorem laid (hap : Apart bs) : Laid true root s (bs.map Made.call) := by
  intro q f
  constructor
  · intro hl
    obtain ⟨e, he, rfl, rfl⟩ := h.tiled.leaf q f hl
    obtain ⟨b, hb, heb⟩ := mem_tilesOf.mp he
    obtain ⟨y, hy, rfl⟩ := MapCall.mem_tiles.mp heb
    exact ⟨b.call, List.mem_map_of_mem hb, y, hy, rfl, rfl⟩
  · rintro ⟨c, hc, x, hx, rfl, rfl⟩
    obtain ⟨b, hb, rfl⟩ := List.mem_map.mp hc
    have hin : (⟨x, leafPte b.call.user b.call.perm x.pa, b.mem⟩ : Tile) ∈ bs.flatMap Made.tiles :=
      mem_tilesOf.mpr ⟨b, hb, MapCall.mem_tiles.mpr ⟨x, hx, rfl⟩⟩
    rcases h.tiled.shown _ hin with hl | ⟨h0, d, hd, hm, hsub⟩
    · exact hl
    exfalso
    obtain ⟨a, ha, had⟩ := mem_tilesOf.mp hd
    obtain ⟨y, hy, rfl⟩ := MapCall.mem_tiles.mp had
    obtain ⟨k, hk, -⟩ := h.whole b hb
    obtain ⟨l, hl, -⟩ := h.whole a ha
    have h1 : y.level = 1 := hm
    have h0 : x.level = 0 := h0
    have hsub : y.path <:+ x.path := hsub
    by_cases hab : a = b
    · subst hab
      have hly := hl.level_eq hy
      have hlx := hl.level_eq hx
      rw [h1] at hly
      rw [h0] at hlx
      exact absurd (hlx.trans hly.symm) (by decide)
    · exact (hl.toPlain.apart hk.toPlain (hap.disjoint ha hb hab) hy hx).1 hsub

/-- The hardware finds the blocks where the calls have put them. -/
theorem translates (hA : A.Grants Owns) (hlow : ∀ b L, Owns b L → Low L) (hap : Apart bs) :
    Translates root s.mem (bs.map Made.call) := by
  have hL : Low L := by
    obtain ⟨M, howns, hM, -⟩ := h.tiled.owns
    exact fun g hg => hlow _ _ howns g ((hM g).mpr (Or.inr hg))
  exact (h.laid hap).translates (reserving_grants hA) h.tiled.toTree hL fun c hc => h.plain hc

/-- The root is where the satp says. -/
theorem satpTable_eq (hA : A.Grants Owns) (hlow : ∀ b L, Owns b L → Low L) :
    satpTable (satpOf root) = root := by
  have hroot : (⟨root, 0⟩ : Grant) ∈ L := h.tiled.held [] root trail_nil rfl
  obtain ⟨M, howns, hM, -⟩ := h.tiled.owns
  have hin := (hM _).mpr (Or.inr hroot)
  exact satpTable_satpOf ((hA.blocks howns).page _ hin).1 (hlow _ _ howns _ hin)

end Loaded

/-! ## Rights -/

/-- U, and R, W and X as the flags of the segment say; X is dropped with W. -/
def Rights (pFlags flags : Nat) : Prop :=
  flags.testBit 4 = true ∧ (flags.testBit 1 = true ↔ pFlags &&& 0x4 ≠ 0) ∧
    (flags.testBit 2 = true ↔ pFlags &&& 0x2 ≠ 0) ∧
    (flags.testBit 3 = true ↔ pFlags &&& 0x1 ≠ 0 ∧ pFlags &&& 0x2 = 0)

/-- The leaf has the rights that the header asks for. -/
theorem rights_permOf {c : MapCall} {pFlags : Nat} (huser : c.isUser = true)
    (hc : c.perm = permOf pFlags) (hp : permOf pFlags ∈ leafPerms) : Rights pFlags c.flags := by
  rw [Rights, MapCall.flags, huser, hc]
  unfold permOf at hp ⊢
  by_cases h1 : pFlags &&& 0x1 = 0 <;> by_cases h2 : pFlags &&& 0x2 = 0 <;>
    by_cases h4 : pFlags &&& 0x4 = 0 <;> simp only [h1, h2, h4, ne_eq]
      at hp ⊢ <;> revert hp <;> decide

/-- There is a block for every segment below the kernel's pages, and no two of them, nor the user
stack, have a page in common. -/
structure Separate (binary : Nat → UInt8) : Prop where
  usable : ∀ ph ∈ segments binary, ph.Usable
  below : ∀ ph ∈ segments binary, ph.start + ph.size ≤ 0x3FFFFFE000
  blocks : (segments binary).Pairwise fun ph ph' =>
    Disjoint (Set.Ico ph.start (ph.start + ph.size)) (Set.Ico ph'.start (ph'.start + ph'.size))
  stack : ∀ ph ∈ segments binary,
    Disjoint (Set.Ico ph.start (ph.start + ph.size)) (Set.Ico 0x7FFFF000 (0x7FFFF000 + 4096))

/-- A placed segment maps the pages of its block. -/
theorem Placed.range_eq (h : Placed binary m₀ ph b) :
    b.call.range = Set.Ico ph.start (ph.start + ph.size) := by
  rw [h.call]
  rfl

/-- The user stack is one page. -/
theorem ustackCall_range (ustack : Nat) :
    (ustackCall ustack).range = Set.Ico 0x7FFFF000 (0x7FFFF000 + 4096) := rfl

namespace Separate

variable (h : Separate binary)
include h

/-- Separate segments map no page twice. -/
theorem apart_blocks {phs : List Phdr} (hsub : List.Sublist phs (segments binary))
    (hcs : List.Forall₂ (Placed binary m₀) phs cs) : Apart cs := by
  refine pairwise_of_forall₂ hcs (h.blocks.sublist hsub) fun ph _ _ _ ph' c' hc hc' hdis => ?_
  rw [hc.range_eq, hc'.range_eq]
  exact hdis

/-- All that is mapped is apart. -/
theorem apart {trampoline kstack : Nat} {m m' : Nat → Nat} {ustack : Made}
    (hcs : List.Forall₂ (Placed binary m₀) (segments binary) cs)
    (hu : ustack.call = ustackCall ustack.call.physAddr) :
    Apart (kernelPages trampoline kstack m m' ++ (cs ++ [ustack])) := by
  have hbelow : ∀ c ∈ cs ++ [ustack], c.call.range ⊆ Set.Iio 0x3FFFFFE000 := by
    intro c hc
    rcases List.mem_append.mp hc with hc | hc
    · obtain ⟨ph, hph, hp⟩ := exists_of_forall₂ hcs hc
      exact hp.below (h.below ph hph)
    · obtain rfl := List.mem_singleton.mp hc
      rw [hu]
      exact ustackCall_below _
  refine List.pairwise_append.mpr
    ⟨?_, List.pairwise_append.mpr ⟨?_, List.pairwise_singleton _ _, ?_⟩, ?_⟩
  · apply List.pairwise_pair.mpr
    rw [kernelPage_range, kernelPage_range]
    apply Set.disjoint_left.mpr
    rintro a ⟨hlo, -⟩ ⟨-, hhi⟩
    omega
  · exact h.apart_blocks (List.Sublist.refl _) hcs
  · intro c hc d hd
    obtain rfl := List.mem_singleton.mp hd
    obtain ⟨ph, hph, hp⟩ := exists_of_forall₂ hcs hc
    rw [hp.range_eq, hu, ustackCall_range]
    exact h.stack ph hph
  · intro b hb c hc
    apply Set.disjoint_left.mpr
    intro a hab hac
    have hlo := ((kernelPages_spec hb).2 hab).1
    have hhi : a < 0x3FFFFFE000 := hbelow c hc hac
    omega

end Separate

/-- What is read through the table at the pages of a block. -/
theorem Loaded.read_block (hA : A.Grants Owns) (hlow : ∀ b L, Owns b L → Low L)
    (h : Loaded Owns root m₀ stack R s L bs) (hap : Apart bs) (hb : b ∈ bs)
    (hp : Placed binary m₀ ph b) {o : Nat} (ho : o < ph.size) :
    sv39 s.mem root (ph.start + o) = some ⟨b.call.physAddr + o, b.call.flags⟩ ∧
      byteAt s.mem (b.call.physAddr + o) =
        if o < ph.filled then segByte binary ph o else byteAt m₀ (b.call.physAddr + o) := by
  have hvir : b.call.virAddr = ph.start := by
    rw [hp.call]
    rfl
  have hsize : b.call.size = ph.size := by
    rw [hp.call]
    rfl
  have huser : b.call.isUser = true := by
    rw [hp.call]
    rfl
  constructor
  · have hin : ph.start + o ∈ b.call.range := by
      rw [hp.range_eq]
      exact ⟨Nat.le_add_right _ _, Nat.add_lt_add_left ho _⟩
    have htr := (h.translates hA hlow hap).inside _ (List.mem_map_of_mem hb) _ hin
    rw [htr, hvir, Nat.add_sub_cancel_left]
  · have hword : (b.call.physAddr + o) / 8 * 8 ∈
        Set.Ico b.call.physAddr (b.call.physAddr + b.call.size) := by
      have hd := hp.dvd
      rw [hsize]
      constructor <;> omega
    rw [byteAt_congr (h.kept hap b hb huser _ hword)]
    split
    · rename_i hlt
      exact hp.segment o hlt
    · rename_i hge
      exact hp.rest o (Nat.le_of_not_lt hge) ho

/-! ## What the image wants -/

/-- The process finds the bytes of the segment at its addresses, on pages with its rights. -/
structure Shown (binary : Nat → UInt8) (mem : Nat → Nat) (root : Nat) (ph : Phdr) : Prop where
  bytes : ∀ j < ph.pMemsz, ∃ hit, sv39 mem root (ph.pVaddr + j) = some hit ∧
    byteAt mem hit.phys = segByte binary ph j
  rights : ∀ page ∈ ph.pages, ∀ o < 4096, ∃ hit, sv39 mem root (page * 4096 + o) = some hit ∧
    Rights ph.pFlags hit.flags

/-- Whenever a process is made, it finds each segment in the lowest GiB, and nothing it may both
write and execute. -/
def Shows (ram : Meta) (bssEnd ra : Nat) (site : Site) (binary : Nat → UInt8) : Prop :=
  ∀ bd L mem given written satp s', Tended ram bssEnd bd L →
    spawnProcess (buddy ram ra) site binary ⟨mem, bd, given, written⟩ = .done (some satp) s' →
    (∀ ph ∈ segments binary, ph.pFilesz ≤ ph.pMemsz → ph.pVaddr + ph.pMemsz ≤ 2 ^ 30 →
      ph.pMemsz ≤ 2 ^ 23 → Shown binary s'.mem (satpTable satp) ph) ∧
    ∀ va hit, sv39 s'.mem (satpTable satp) va = some hit →
      ¬ (hit.flags.testBit 2 = true ∧ hit.flags.testBit 3 = true)

/-- A segment at the start of a page is found. -/
theorem Loaded.shown (hA : A.Grants Owns) (hlow : ∀ b L, Owns b L → Low L)
    (h : Loaded Owns root m₀ stack R s L bs) (hap : Apart bs) (hb : b ∈ bs)
    (hp : Placed binary m₀ ph b) (hu : ph.Usable) (hd : 0 < ph.pMemsz → 4096 ∣ ph.pVaddr) :
    Shown binary s.mem root ph := by
  have hle := hu.memsz_le
  have hpage : 4096 ∣ ph.size := Nat.dvd_mul_right _ _
  constructor
  · intro j hj
    have hstart : ph.start = ph.pVaddr := Nat.div_mul_cancel (hd (by omega))
    obtain ⟨hit, hbyte⟩ := h.read_block hA hlow hap hb hp (show j < ph.size by omega)
    rw [hstart] at hit
    rw [if_pos (hj.trans_le ph.memsz_le_filled)] at hbyte
    exact ⟨_, hit, hbyte⟩
  · rintro page ⟨a, hlo, hhi, rfl⟩ o ho
    have hstart : ph.start = ph.pVaddr := Nat.div_mul_cancel (hd (by omega))
    have hdvd : 4096 ∣ ph.start := Nat.dvd_mul_left _ _
    have hoff : a / 4096 * 4096 + o - ph.start < ph.size := by omega
    obtain ⟨hit, -⟩ := h.read_block hA hlow hap hb hp hoff
    have hsum : ph.start + (a / 4096 * 4096 + o - ph.start) = a / 4096 * 4096 + o := by omega
    rw [hsum] at hit
    refine ⟨_, hit, ?_⟩
    have hflags : Rights ph.pFlags (ph.call b.call.physAddr).flags := rights_permOf rfl rfl hu.perm
    rw [← hp.call] at hflags
    exact hflags

section Buddy

variable {ram : Meta} {bssEnd ra : Nat} {bd : State} {site : Site} (hm : Machine ram bssEnd)
  (ha : BlockAligned ram) (hf : Fits ram bssEnd) (hlow : ram.baseAddr + ram.totalSize ≤ 2 ^ 56)
  (ht : site.userTrampoline + 4096 ≤ 2 ^ 56) (helf : IsElf binary)
include hm ha hf hlow ht helf

/-- With enough memory a process is made. -/
theorem Separate.returns (h : Separate binary) (howns : Tended ram bssEnd bd L)
    (hstock : (buddy ram ra).Stock ((segments binary).length + 1)
      (tablePages (segments binary) + 9) bd)
    (mem : Nat → Nat) : ∃ satp s',
      spawnProcess (buddy ram ra) site binary ⟨mem, bd, [], []⟩ = .done (some satp) s' := by
  have hal : (buddy ram ra).Aligned (Tended ram bssEnd) := tended_aligned ra hm ha
  apply spawnProcess_returns (tended_grants ra hm hf) hal (tended_low hm hf hlow) ht helf h.usable
    h.below howns hstock
  · intro qs cs hqs hcs
    exact (h.apart_blocks hqs.sublist hcs).imp Shares.of_disjoint
  · intro cs u hcs c hc
    obtain ⟨ph, hph, hp⟩ := exists_of_forall₂ hcs hc
    apply Shares.of_disjoint
    rw [hp.range_eq, ustackCall_range]
    exact h.stack ph hph

/-- What it has then. -/
theorem Separate.spawned (h : Separate binary) {s s' : Space State} {satp : Nat}
    (howns : Tended ram bssEnd s.pages L)
    (hrun : spawnProcess (buddy ram ra) site binary s = .done (some satp) s') :
    ∃ stack m m' R L' cs ustack,
      Loaded (Tended ram bssEnd) (satpTable satp) s.mem stack R s' L'
        (kernelPages site.userTrampoline stack.addr m m' ++ (cs ++ [ustack])) ∧
      Apart (kernelPages site.userTrampoline stack.addr m m' ++ (cs ++ [ustack])) ∧
      List.Forall₂ (Placed binary s.mem) (segments binary) cs ∧
      ustack.call = ustackCall ustack.call.physAddr := by
  have hA := tended_grants ra hm hf
  have hal : (buddy ram ra).Aligned (Tended ram bssEnd) := tended_aligned ra hm ha
  have hl := tended_low hm hf hlow
  obtain ⟨root, stack, m, m', R, L', cs, ustack, hr, hloaded, hcs, hcall, -⟩ :=
    spawnProcess_done hA hal hl ht helf h.usable howns hrun
  obtain rfl := Option.some.inj hr
  rw [hloaded.satpTable_eq hA hl]
  exact ⟨stack, m, m', R, L', cs, ustack, hloaded, h.apart hcs hcall, hcs, hcall⟩

end Buddy

/-! ## Images with nothing else amiss -/

/-- Sizes, flags and addresses are in order, no two segments overlap and none lies across the end
of the lowest GiB, and where two blocks meet, or one and the user stack, they are caught. -/
structure Regular (binary : Nat → UInt8) : Prop where
  usable : ∀ ph ∈ segments binary, ph.Usable
  filesz : ∀ ph ∈ segments binary, ph.pFilesz ≤ ph.pMemsz
  within : ∀ ph ∈ segments binary, ph.pVaddr + ph.pMemsz ≤ 2 ^ 30 ∨ 2 ^ 30 ≤ ph.pVaddr
  ranges : (segments binary).Pairwise fun ph ph' =>
    Disjoint (Set.Ico ph.pVaddr (ph.pVaddr + ph.pMemsz))
      (Set.Ico ph'.pVaddr (ph'.pVaddr + ph'.pMemsz))
  blocks : (segments binary).Pairwise fun ph ph' =>
    Disjoint (Set.Ico ph.start (ph.start + ph.size)) (Set.Ico ph'.start (ph'.start + ph'.size)) ∨
      Caught binary ph ph'.start ph'.size
  stack : ∀ ph ∈ segments binary,
    Disjoint (Set.Ico ph.start (ph.start + ph.size)) (Set.Ico 0x7FFFF000 (0x7FFFF000 + 4096)) ∨
      Caught binary ph 0x7FFFF000 4096

namespace Regular

variable (h : Regular binary)
include h

/-- An address of one segment lies behind what another has in its block. -/
theorem behind {ph' : Phdr} (hph : ph ∈ segments binary) (hph' : ph' ∈ segments binary)
    (hne : ph' ≠ ph) (hgib : ph.pVaddr + ph.pMemsz ≤ 2 ^ 30)
    (hlater : ∀ x ∈ segments binary, ph.pVaddr < x.pVaddr → x.pVaddr + x.pMemsz ≤ 2 ^ 30 →
      0 < x.pMemsz → 4096 ∣ x.pVaddr)
    {o : Nat} (hlo : ph.pVaddr ≤ ph'.start + o) (hhi : ph'.start + o < ph.pVaddr + ph.pMemsz) :
    ph'.pMemsz ≤ o := by
  have hsymm : Std.Symm fun ph ph' : Phdr => Disjoint (Set.Ico ph.pVaddr (ph.pVaddr + ph.pMemsz))
    (Set.Ico ph'.pVaddr (ph'.pVaddr + ph'.pMemsz)) := ⟨fun _ _ h => h.symm⟩
  have hdis := h.ranges.forall hph' hph hne
  by_contra hlt
  have hstart : ph'.start ≤ ph'.pVaddr ∧ ph'.pVaddr < ph'.start + 4096 := by
    unfold Phdr.start
    omega
  have hfirst : ph.pVaddr ∈ Set.Ico ph.pVaddr (ph.pVaddr + ph.pMemsz) := ⟨le_rfl, by omega⟩
  rcases Nat.lt_or_ge ph.pVaddr ph'.pVaddr with hafter | hbefore
  · -- the other starts later, and so at a page
    have hgib' : ph'.pVaddr + ph'.pMemsz ≤ 2 ^ 30 := by
      apply (h.within ph' hph').resolve_right
      have hd : 4096 ∣ ph'.start := Nat.dvd_mul_left _ _
      omega
    have hd := hlater ph' hph' hafter hgib' (by omega)
    have he : ph'.start = ph'.pVaddr := Nat.div_mul_cancel hd
    exact Set.disjoint_left.mp hdis (show ph'.start + o ∈ _ from ⟨by omega, by omega⟩) ⟨hlo, hhi⟩
  · refine Set.disjoint_right.mp hdis hfirst ⟨hbefore, ?_⟩
    by_contra hend
    omega

end Regular

theorem image_one_separate : Separate (image 1) where
  usable := by
    intro ph hph
    apply Phdr.usable (image_one_orderly.filesz ph hph) _ (image_one_orderly.readable ph hph)
      (image_one_orderly.below ph hph)
    rw [segments_image_one] at hph
    revert ph
    decide
  below := by
    rw [segments_image_one]
    decide
  blocks := by
    rw [segments_image_one]
    exact List.pairwise_singleton _ _
  stack := by
    rw [segments_image_one]
    intro ph hph
    obtain rfl := List.mem_singleton.mp hph
    exact Set.Ico_disjoint_Ico.mpr (by decide)

end RexOS.Loader
