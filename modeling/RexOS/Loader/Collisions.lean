import RexOS.Loader.Spawn

/-!
# When the blocks of segments meet

A segment has a block of a power of two of pages, which may reach into the pages of the segments
behind it. A page that is mapped twice stops the machine with 107, unless the first time it was in
2 MiB and the word of the block that is taken for its entry is even.
-/

namespace RexOS.Loader

open Bits RexOS.Kalloc RexOS.Paging

variable {β : Type} {m₀ : Nat → Nat} {b : Made} {c : MapCall} {cs : List Made}
  {binary : Nat → UInt8} {ph : Phdr} {phs : List Phdr} {page : Nat}

/-! ## Images -/

/-- The pages with an address of the segment. -/
def Phdr.pages (ph : Phdr) : Set Nat :=
  {page | ∃ a, ph.pVaddr ≤ a ∧ a < ph.pVaddr + ph.pMemsz ∧ page = a / 4096}

/-- The segments lie below the user stack on pages of their own, as the linker script of the
programs lays them out. -/
structure Orderly (binary : Nat → UInt8) : Prop where
  elf : IsElf binary
  aligned : ∀ ph ∈ segments binary, 4096 ∣ ph.pVaddr
  filesz : ∀ ph ∈ segments binary, ph.pFilesz ≤ ph.pMemsz
  readable : ∀ ph ∈ segments binary, ph.pFlags &&& 0x4 ≠ 0
  below : ∀ ph ∈ segments binary, ph.pVaddr + ph.pMemsz ≤ 0x7FFFF000
  apart : (segments binary).Pairwise fun ph ph' => Disjoint ph.pages ph'.pages

/-- A segment with R set gets rights that a leaf may have. -/
theorem permOf_mem {pFlags : Nat} (h : pFlags &&& 0x4 ≠ 0) : permOf pFlags ∈ leafPerms := by
  unfold permOf
  rw [if_pos h]
  split_ifs <;> decide

/-- A block that starts below the user stack ends below the kernel's pages. -/
theorem Phdr.end_le (hmem : ph.pMemsz ≤ 2 ^ 23) (hb : ph.pVaddr + ph.pMemsz ≤ 0x7FFFF000) :
    ph.start + ph.size ≤ 0x3FFFFFE000 := by
  obtain ⟨k, hk, he⟩ := orderOf_lt_iff.mpr hmem
  have horder : ph.order = k := by rw [Phdr.order, he, Option.getD_some]
  have hpow : 2 ^ ph.order ≤ 2 ^ 11 := by
    rw [horder]
    exact Nat.pow_le_pow_right (by decide) (Nat.le_of_lt_succ hk)
  have hstart : ph.start ≤ ph.pVaddr := Nat.div_mul_le_self _ _
  rw [Phdr.size]
  omega

/-- Header fields within their bounds make a segment usable. -/
theorem Phdr.usable (hsz : ph.pFilesz ≤ ph.pMemsz) (hmem : ph.pMemsz ≤ 2 ^ 23)
    (hr : ph.pFlags &&& 0x4 ≠ 0) (hb : ph.pVaddr + ph.pMemsz ≤ 0x7FFFF000) : ph.Usable where
  filesz := hsz.trans (Phdr.memsz_le_size hmem)
  memsz := hmem
  perm := permOf_mem hr
  virEnd := (Phdr.end_le hmem hb).trans (by decide)

/-- The call maps the pages of the block. -/
theorem Phdr.mem_range {buff : Nat} : page ∈ (ph.call buff).range ↔
    page ∈ Set.Ico ph.start (ph.start + ph.size) := Iff.rfl

/-- Megapages are used for an aligned segment of at least 2 MiB. -/
theorem Phdr.call_mega {buff : Nat} : (ph.call buff).Mega ↔ 2 ^ 21 ∣ ph.start ∧ 2 ^ 21 ≤ ph.size :=
  Iff.rfl

/-! ## The word of a page -/

/-- Where in the block of the segment the entry of the page is made. -/
def Phdr.wordOf (ph : Phdr) (page : Nat) : Nat :=
  page / 2 ^ 21 * 2 ^ 21 - ph.start + 8 * (page / 4096 % 512)

/-- The block of the segment has no page of the range, or it is mapped by 2 MiB and the segment
is even where the entry is made. -/
def Spares (binary : Nat → UInt8) (ph : Phdr) (start size : Nat) : Prop :=
  ∀ page, 4096 ∣ page → page ∈ Set.Ico ph.start (ph.start + ph.size) →
    page ∈ Set.Ico start (start + size) →
    (2 ^ 21 ∣ ph.start ∧ 2 ^ 21 ≤ ph.size) ∧ ¬ (2 ^ 21 ∣ start ∧ 2 ^ 21 ≤ size) ∧
      ph.wordOf page < ph.pMemsz ∧ (segByte binary ph (ph.wordOf page)).toNat % 2 = 0

/-- The block of the segment has a page of the range, and does not spare it, whatever memory has
behind the segment. -/
def Caught (binary : Nat → UInt8) (ph : Phdr) (start size : Nat) : Prop :=
  ∃ page, 4096 ∣ page ∧ page ∈ Set.Ico ph.start (ph.start + ph.size) ∧
    page ∈ Set.Ico start (start + size) ∧
    (2 ^ 21 ∣ ph.start ∧ 2 ^ 21 ≤ ph.size → ¬ (2 ^ 21 ∣ start ∧ 2 ^ 21 ≤ size) →
      ph.wordOf page < ph.filled ∧ (segByte binary ph (ph.wordOf page)).toNat % 2 = 1)

/-- A word is even when its first byte is. -/
theorem even_iff {mem : Nat → Nat} {a : Nat} (hd : 8 ∣ a) :
    mem a % 2 = 0 ↔ (byteAt mem a).toNat % 2 = 0 := by
  have hword : a / 8 * 8 = a := Nat.div_mul_cancel hd
  have hbyte : a % 8 = 0 := Nat.mod_eq_zero_of_dvd hd
  rw [byteAt, hword, hbyte, Bytes.byteOf, UInt8.toNat_ofNat', pow_zero, Nat.div_one]
  omega

/-- It lies in the block. -/
theorem Phdr.Usable.wordOf_lt (h : ph.Usable) (hd : 2 ^ 21 ∣ ph.start) (hs : 2 ^ 21 ≤ ph.size)
    (hp : page ∈ Set.Ico ph.start (ph.start + ph.size)) : ph.wordOf page < ph.size := by
  have hw := (h.whole (Nat.dvd_zero _) (by decide)).mega_dvd hs
  have hsize : 2 ^ 21 ∣ ph.size := hw.1
  obtain ⟨hlo, hhi⟩ := hp
  unfold Phdr.wordOf
  omega

namespace Placed

variable (h : Placed binary m₀ ph b) (hu : ph.Usable)
include h hu

/-- Whether the word of a page is even. -/
theorem even_word_iff (hd : 2 ^ 21 ∣ ph.start) (hs : 2 ^ 21 ≤ ph.size)
    (hp : page ∈ Set.Ico ph.start (ph.start + ph.size)) :
    b.mem (b.call.slotOf page) % 2 = 0 ↔
      if ph.wordOf page < ph.filled then (segByte binary ph (ph.wordOf page)).toNat % 2 = 0
      else (byteAt m₀ (b.call.physAddr + ph.wordOf page)).toNat % 2 = 0 := by
  have hslot : b.call.slotOf page = b.call.physAddr + ph.wordOf page := by
    rw [MapCall.slotOf, h.call, Phdr.wordOf, ← Nat.add_assoc]
    rfl
  have hdvd : 8 ∣ ph.wordOf page := by
    unfold Phdr.wordOf
    omega
  rw [hslot, even_iff (Nat.dvd_add h.dvd hdvd)]
  split
  · rename_i hlt
    rw [h.segment _ hlt]
  · rename_i hge
    rw [h.rest _ (Nat.le_of_not_lt hge) (hu.wordOf_lt hd hs hp)]

/-- A placed segment whose bytes spare a range shares its pages with the call for this range. -/
theorem shares (hs : Spares binary ph c.virAddr c.size) : MapCall.Shares b.mem b.call c := by
  intro page hd hb hc
  rw [h.call, Phdr.mem_range] at hb
  obtain ⟨⟨hstart, hsize⟩, hnot, hlt, heven⟩ := hs page hd hb hc
  refine ⟨?_, hnot, ?_⟩
  · rw [h.call]
    exact Phdr.call_mega.mpr ⟨hstart, hsize⟩
  · rw [h.even_word_iff hu hstart hsize hb, if_pos (hlt.trans_le ph.memsz_le_filled)]
    exact heven

/-- What lies behind the segment may be odd. -/
theorem spares (hsz : ph.pFilesz ≤ ph.pMemsz) (hodd : ∀ a, m₀ a % 2 = 1)
    (hs : MapCall.Shares b.mem b.call c) : Spares binary ph c.virAddr c.size := by
  have hfilled : ph.filled = ph.pMemsz := max_eq_right hsz
  intro page hd hb hc
  have hbc : page ∈ b.call.range := by
    rw [h.call, Phdr.mem_range]
    exact hb
  obtain ⟨hmega, hnot, heven⟩ := hs page hd hbc hc
  rw [h.call, Phdr.call_mega] at hmega
  obtain ⟨hstart, hsize⟩ := hmega
  rw [h.even_word_iff hu hstart hsize hb, hfilled] at heven
  split at heven
  · rename_i hlt
    exact ⟨⟨hstart, hsize⟩, hnot, hlt, heven⟩
  · have hdvd : 8 ∣ b.call.physAddr + ph.wordOf page := by
      refine Nat.dvd_add h.dvd ?_
      unfold Phdr.wordOf
      omega
    rw [← even_iff hdvd, hodd] at heven
    exact absurd heven (by decide)

end Placed

/-- No block meets one before noticeably. -/
def Clear (binary : Nat → UInt8) (phs : List Phdr) : Prop :=
  phs.Pairwise fun ph ph' => Spares binary ph ph'.start ph'.size

/-- Headers that are clear of each other give calls that share every page. -/
theorem Clear.sharing (h : Clear binary phs) (hu : ∀ ph ∈ phs, ph.Usable)
    (hcs : List.Forall₂ (Placed binary m₀) phs cs) : Sharing cs := by
  refine pairwise_of_forall₂ hcs h fun ph hph _ _ ph' c' hc hc' hs => ?_
  rw [hc'.call]
  exact hc.shares (hu ph hph) hs

/-- Calls that share every page come from headers that are clear of each other. -/
theorem Clear.of_sharing (hodd : ∀ a, m₀ a % 2 = 1) (hu : ∀ ph ∈ phs, ph.Usable)
    (hsz : ∀ ph ∈ phs, ph.pFilesz ≤ ph.pMemsz) (hcs : List.Forall₂ (Placed binary m₀) phs cs)
    (h : Sharing cs) : Clear binary phs := by
  refine pairwise_of_forall₂ hcs.flip h fun c _ ph hph c' ph' hc hc' hs => ?_
  have hspares := hc.spares (hu ph hph) (hsz ph hph) hodd hs
  rw [hc'.call] at hspares
  exact hspares

section Buddy

variable {ram : Meta} {bssEnd ra : Nat} {bd : State} {L : List Grant} {site : Site}

/-- RAM lies below `2 ^ 56`. -/
theorem tended_low (hm : Machine ram bssEnd) (hf : Fits ram bssEnd)
    (hlow : ram.baseAddr + ram.totalSize ≤ 2 ^ 56) (bd : State) (L : List Grant)
    (h : Tended ram bssEnd bd L) : Low L := by
  intro g hg
  obtain ⟨free, ht⟩ := h
  have hpos := Nat.two_pow_pos g.order
  have hin : g.addr ∈ pool ram bssEnd := ht.toSound.live_subset hm hf hg ⟨le_rfl, by omega⟩
  exact lt_of_lt_of_le hin.2 hlow

/-- A block that is granted has an order below `MAX_ORDER`. -/
theorem order_of_kalloc {bd bd' : State} {k a : Nat}
    (h : (buddy ram ra).kalloc bd k = .done a bd') :
    k < maxOrder := by
  by_contra hge
  have hpanic : (buddy ram ra).kalloc bd k = .panic 100 k bd := if_pos (Nat.le_of_not_lt hge)
  rw [hpanic] at h
  cases h

/-- There is no block for more than 8 MiB. -/
theorem memsz_of_loadAll {root : Nat} {s s' : Space State}
    (h : loadAll (buddy ram ra) binary root phs s = .done () s') :
    ∀ ph ∈ phs, ph.pMemsz ≤ 2 ^ 23 := by
  induction phs generalizing s with
  | nil => simp
  | cons ph phs ih =>
    obtain ⟨_, s₁, hfirst, hrest⟩ := Outcome.bind_eq_done.mp h
    intro x hx
    rcases List.mem_cons.mp hx with rfl | hx
    · apply orderOf_lt_iff.mp
      unfold loadSegment at hfirst
      cases ho : orderOf x.pMemsz with
      | none =>
        rw [ho] at hfirst
        cases hfirst
      | some k =>
        rw [ho] at hfirst
        obtain ⟨buff, s₂, hblock, -⟩ := Outcome.bind_eq_done.mp hfirst
        obtain ⟨buff', s₃, hwithin, -⟩ := Outcome.bind_eq_done.mp hblock
        obtain ⟨bd', hk, -⟩ := Outcome.within_eq_done.mp hwithin
        exact ⟨k, order_of_kalloc hk, rfl⟩
    · exact ih hrest x hx

/-- A process is made from an ELF image whose segments have a block. -/
theorem image_of_spawn (hm : Machine ram bssEnd) (hf : Fits ram bssEnd)
    (hlow : ram.baseAddr + ram.totalSize ≤ 2 ^ 56) {s s' : Space State}
    (howns : Tended ram bssEnd s.pages L) (ht : site.userTrampoline + 4096 ≤ 2 ^ 56) {satp : Nat}
    (hrun : spawnProcess (buddy ram ra) site binary s = .done (some satp) s') :
    IsElf binary ∧ ∀ ph ∈ segments binary, ph.pMemsz ≤ 2 ^ 23 := by
  have helf : IsElf binary := by
    obtain ⟨stack, s₁, -, hrest⟩ := Outcome.bind_eq_done.mp hrun
    by_contra hno
    split_ifs at hrest with h0
    · cases (Outcome.done.inj hrest).1
    · obtain ⟨userTable, s₂, -, hstop⟩ := Outcome.bind_eq_done.mp hrest
      cases hstop
  obtain ⟨root, stack, m, m', R, s₁, L₁, -, -, -, he⟩ := spawnProcess_eq (j := 0) (n := 0)
    (tended_grants ra hm hf) (tended_low hm hf hlow) ht helf howns (Or.inr ⟨_, s', hrun⟩)
  rw [he] at hrun
  obtain ⟨_, s₂, hload, -⟩ := Outcome.bind_eq_done.mp hrun
  exact ⟨helf, memsz_of_loadAll hload⟩

/-- With enough memory a process with an orderly image is made, whatever was in memory before,
exactly when each of its segments has at most 8 MiB, no block meets one behind it noticeably, and
none the user stack. -/
theorem spawnProcess_returns_iff (hm : Machine ram bssEnd) (ha : BlockAligned ram)
    (hf : Fits ram bssEnd) (hlow : ram.baseAddr + ram.totalSize ≤ 2 ^ 56)
    (howns : Tended ram bssEnd bd L) (ht : site.userTrampoline + 4096 ≤ 2 ^ 56)
    (ho : Orderly binary)
    (hstock : (buddy ram ra).Stock ((segments binary).length + 1)
      (tablePages (segments binary) + 9) bd)
    (given written : List Nat) :
    (∀ mem, ∃ satp s',
      spawnProcess (buddy ram ra) site binary ⟨mem, bd, given, written⟩ = .done (some satp) s') ↔
      (∀ ph ∈ segments binary, ph.pMemsz ≤ 2 ^ 23) ∧ Clear binary (segments binary) ∧
        ∀ ph ∈ segments binary, Spares binary ph 0x7FFFF000 4096 := by
  have hA := tended_grants ra hm hf
  have hal : (buddy ram ra).Aligned (Tended ram bssEnd) := tended_aligned ra hm ha
  have hl := tended_low hm hf hlow
  have husable : (∀ ph ∈ segments binary, ph.pMemsz ≤ 2 ^ 23) → ∀ ph ∈ segments binary, ph.Usable :=
    fun hmem ph hph => Phdr.usable (ho.filesz ph hph) (hmem ph hph) (ho.readable ph hph)
      (ho.below ph hph)
  constructor
  · intro hall
    obtain ⟨satp, s', hrun⟩ := hall fun _ => 1
    have hodd : ∀ a : Nat, (fun _ => 1 : Nat → Nat) a % 2 = 1 := fun _ => rfl
    obtain ⟨-, hmem⟩ := image_of_spawn hm hf hlow howns ht hrun
    have hu := husable hmem
    obtain ⟨root, stack, m, m', R, L', cs, ustack, -, -, hcs, hcall, hs⟩ :=
      spawnProcess_done hA hal hl ht ho.elf hu howns hrun
    obtain ⟨hsharing, -, hstack⟩ := List.pairwise_append.mp (List.pairwise_append.mp hs).2.1
    refine ⟨hmem, Clear.of_sharing hodd hu ho.filesz hcs hsharing, fun ph hph => ?_⟩
    obtain ⟨c, hc, hp⟩ := exists_placed hcs hph
    have hshares := hstack c hc ustack List.mem_cons_self
    rw [hcall] at hshares
    exact hp.spares (hu ph hph) (ho.filesz ph hph) hodd hshares
  · rintro ⟨hmem, hclear, hstack⟩ mem
    have hu := husable hmem
    apply spawnProcess_returns hA hal hl ht ho.elf hu
      (fun ph hph => Phdr.end_le (hmem ph hph) (ho.below ph hph)) howns hstock
    · intro qs cs hqs hcs
      have hq : Clear binary qs := List.Pairwise.sublist hqs.sublist hclear
      exact hq.sharing (fun ph hph => hu ph (hqs.subset hph)) hcs
    · intro cs u hcs c hc
      obtain ⟨ph, hph, hp⟩ := exists_of_forall₂ hcs hc
      exact hp.shares (hu ph hph) (hstack ph hph)

end Buddy

/-! ## Images of one and of two segments -/

/-- An ELF image with `n` headers, of three pages of code at 0 and of one page of data behind. -/
def image (n : UInt8) : Nat → UInt8
  | 0 => 0x7F
  | 1 => 0x45
  | 2 => 0x4C
  | 3 => 0x46
  | 32 => 64
  | 54 => 56
  | 56 => n
  | 64 => 1
  | 68 => 5
  | 105 => 0x30
  | 120 => 1
  | 124 => 6
  | 137 => 0x30
  | 161 => 0x10
  | _ => 0

/-- The program headers that `image` has. -/
theorem segments_image :
    segments (image 2) = [⟨1, 5, 0, 0, 0, 0x3000⟩, ⟨1, 6, 0, 0x3000, 0, 0x1000⟩] := by
  decide

theorem segments_image_one : segments (image 1) = [⟨1, 5, 0, 0, 0, 0x3000⟩] := by decide

/-- A segment that starts at a page behind the other has pages of its own. -/
theorem Phdr.pages_disjoint {ph' : Phdr} (hd : 4096 ∣ ph'.pVaddr)
    (hle : ph.pVaddr + ph.pMemsz ≤ ph'.pVaddr) : Disjoint ph.pages ph'.pages := by
  apply Set.disjoint_left.mpr
  rintro page ⟨a, -, hhi, rfl⟩ ⟨c, hlo, -, he⟩
  omega

theorem image_orderly : Orderly (image 2) where
  elf := by decide
  aligned := by
    rw [segments_image]
    decide
  filesz := by
    rw [segments_image]
    decide
  readable := by
    rw [segments_image]
    decide
  below := by
    rw [segments_image]
    decide
  apart := by
    rw [segments_image]
    exact List.pairwise_pair.mpr (Phdr.pages_disjoint (by decide) (by decide))

/-- The same with a page between the two segments. -/
def spaced : Nat → UInt8
  | 137 => 0x40
  | a => image 2 a

theorem segments_spaced :
    segments spaced = [⟨1, 5, 0, 0, 0, 0x3000⟩, ⟨1, 6, 0, 0x4000, 0, 0x1000⟩] := by
  decide

/-- The headers of the spaced image are in order as well. -/
theorem spaced_orderly : Orderly spaced where
  elf := by decide
  aligned := by
    rw [segments_spaced]
    decide
  filesz := by
    rw [segments_spaced]
    decide
  readable := by
    rw [segments_spaced]
    decide
  below := by
    rw [segments_spaced]
    decide
  apart := by
    rw [segments_spaced]
    exact List.pairwise_pair.mpr (Phdr.pages_disjoint (by decide) (by decide))

theorem image_one_orderly : Orderly (image 1) where
  elf := by decide
  aligned := by
    rw [segments_image_one]
    decide
  filesz := by
    rw [segments_image_one]
    decide
  readable := by
    rw [segments_image_one]
    decide
  below := by
    rw [segments_image_one]
    decide
  apart := by
    rw [segments_image_one]
    exact List.pairwise_singleton _ _

/-- A place for the kernel on the board. -/
def virtSite : Site := ⟨0, 0x80100000, 0x80200000, 0x80110000, 0x80200000, 1⟩

/-- Three pages at 0 have a block of four, and the fourth page is that of the other segment. -/
theorem image_collides : Orderly (image 2) ∧ ∃ bd, Tended virt virtBssEnd bd [] ∧
    (∀ n ≤ 14, (buddy virt 0).Stock n (2 ^ 11) bd) ∧
    ∀ mem, ∃ arg s', spawnProcess (buddy virt 0) virtSite (image 2) ⟨mem, bd, [], []⟩ =
      .panic 107 arg s' := by
  obtain ⟨bd, howns, hstock⟩ := virt_stock 0
  refine ⟨image_orderly, bd, howns, fun n hn => ?_, fun mem => ?_⟩
  · exact hstock n 1 (by omega)
  have hA := tended_grants 0 virt_machine virt_fits
  have hal : (buddy virt 0).Aligned (Tended virt virtBssEnd) :=
    tended_aligned 0 virt_machine virt_blockAligned
  have hl := tended_low virt_machine virt_fits (by decide)
  have ht : virtSite.userTrampoline + 4096 ≤ 2 ^ 56 := by decide
  have hu : ∀ ph ∈ segments (image 2), ph.Usable := by
    intro ph hph
    apply Phdr.usable (image_orderly.filesz ph hph) _ (image_orderly.readable ph hph)
      (image_orderly.below ph hph)
    rw [segments_image] at hph
    revert ph
    decide
  have hst : (buddy virt 0).Stock ((segments (image 2)).length + 1)
      (tablePages (segments (image 2)) + 9) bd := by
    rw [segments_image]
    exact (hstock 3 1 (by decide)).mono (by decide) (by decide)
  rcases spawnProcess_cases (s := ⟨mem, bd, [], []⟩) hA hal hl ht image_orderly.elf hu howns hst
      with
    ⟨satp, s', hrun⟩ | hno
  · obtain ⟨root, stack, m, m', R, L', cs, ustack, -, -, hcs, -, hs⟩ :=
      spawnProcess_done hA hal hl ht image_orderly.elf hu howns hrun
    exfalso
    rw [segments_image] at hcs
    obtain ⟨c, cs', hc, hcs', rfl⟩ := List.forall₂_cons_left_iff.mp hcs
    obtain ⟨d, cs'', hd, -, rfl⟩ := List.forall₂_cons_left_iff.mp hcs'
    have hblocks := (List.pairwise_append.mp hs).2.1
    have hshares := (List.pairwise_cons.mp hblocks).1 d (List.mem_cons_self)
    rw [hc.call, hd.call] at hshares
    obtain ⟨hmega, -⟩ := hshares 0x3000 (by decide) (Phdr.mem_range.mpr ⟨by decide, by decide⟩)
      (Phdr.mem_range.mpr ⟨by decide, by decide⟩)
    exact absurd (Phdr.call_mega.mp hmega).2 (by decide)
  · exact hno

/-- With a page between them the two segments are loaded. -/
theorem spaced_returns : ∃ bd, ∀ mem, ∃ satp s',
    spawnProcess (buddy virt 0) virtSite spaced ⟨mem, bd, [], []⟩ = .done (some satp) s' := by
  obtain ⟨bd, howns, hstock⟩ := virt_stock 0
  have hst : (buddy virt 0).Stock ((segments spaced).length + 1)
      (tablePages (segments spaced) + 9) bd := by
    rw [segments_spaced]
    exact (hstock 3 1 (by decide)).mono (by decide) (by decide)
  have hfirst : (Phdr.mk 1 5 0 0 0 0x3000).start + (Phdr.mk 1 5 0 0 0 0x3000).size = 0x4000 := by
    decide
  have hsecond : (Phdr.mk 1 6 0 0x4000 0 0x1000).start + (Phdr.mk 1 6 0 0x4000 0 0x1000).size =
      0x5000 := by decide
  refine ⟨bd, (spawnProcess_returns_iff virt_machine virt_blockAligned virt_fits (by decide) howns
    (by decide) spaced_orderly hst [] []).mpr ⟨?_, ?_, ?_⟩⟩
  · rw [segments_spaced]
    decide
  · rw [segments_spaced]
    apply List.pairwise_pair.mpr
    rintro page - ⟨-, hhi⟩ ⟨hlo, -⟩
    have hstart : (Phdr.mk 1 6 0 0x4000 0 0x1000).start = 0x4000 := by decide
    omega
  · rw [segments_spaced]
    intro ph hph
    rcases List.mem_pair.mp hph with rfl | rfl
    · rintro page - ⟨-, hhi⟩ ⟨hlo, -⟩
      omega
    · rintro page - ⟨-, hhi⟩ ⟨hlo, -⟩
      omega

end RexOS.Loader
