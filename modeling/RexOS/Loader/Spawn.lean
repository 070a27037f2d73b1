import RexOS.Loader.Segments

/-!
# A process with its image

`spawn_process` maps the two pages of the kernel, loads the segments and maps the user stack. All it
writes besides lies in the kernel stack and in blocks that are not mapped.
-/

namespace RexOS.Loader

open Bits RexOS.Kalloc RexOS.Paging

variable {β : Type} {A : PageAlloc β} {Owns : β → List Grant → Prop} {root : Nat} {m₀ : Nat → Nat}
  {stack : Grant} {R L : List Grant} {s s' : Space β} {bs cs : List Made} {b : Made}
  {binary : Nat → UInt8} {j k n w addr : Nat}

/-! ## Words of a block -/

/-- One word more is zeroed. -/
theorem zeroWords_succ (n addr : Nat) (s : Space β) :
    zeroWords (n + 1) addr s = (zeroWords n addr s).store (entryAt addr n) 0 := by
  simp only [zeroWords, List.range_succ, List.foldl_append, List.foldl_cons, List.foldl_nil]

/-- Zeroing takes no page. -/
theorem zeroWords_pages (n addr : Nat) (s : Space β) : (zeroWords n addr s).pages = s.pages := by
  induction n with
  | zero => rfl
  | succ n ih => rw [zeroWords_succ, Space.store_pages, ih]

theorem zeroWords_given (n addr : Nat) (s : Space β) : (zeroWords n addr s).given = s.given := by
  induction n with
  | zero => rfl
  | succ n ih =>
    rw [zeroWords_succ]
    exact ih

/-- Words that are not zeroed stay. -/
theorem mem_zeroWords (hw : ∀ i < n, w ≠ entryAt addr i) :
    (zeroWords n addr s).mem w = s.mem w := by
  induction n with
  | zero => rfl
  | succ n ih =>
    rw [zeroWords_succ, Space.store_mem, Function.update_of_ne (hw n (Nat.lt_succ_self n)),
      ih fun i hi => hw i (hi.trans (Nat.lt_succ_self n))]

/-- A new table is 512 words of zero. -/
theorem zeroTable_eq (page : Nat) (s : Space β) : zeroTable page s = zeroWords 512 page s := by
  rw [zeroTable, zeroWords]

/-- The words of a block of order `k`. -/
theorem mem_zeroWords_block (hend : addr + 2 ^ k * 4096 ≤ 2 ^ 64) (hn : 8 * n ≤ 2 ^ k * 4096)
    (hw : w ∉ (Grant.mk addr k).extent) : (zeroWords n addr s).mem w = s.mem w := by
  apply mem_zeroWords
  rintro i hi rfl
  apply hw
  rw [entryAt, wrap_of_lt (by omega)]
  exact ⟨Nat.le_add_right _ _, by simp only; omega⟩

/-- Address of the trap frame at the end of the kernel stack. -/
def trapframeAt (processStack : Nat) : Nat := wrapSub (wrap (processStack + 4096)) trapframeSize

/-- It lies in the stack. -/
theorem trapframe_mem {i : Nat} (hlow : addr < 2 ^ 56) (hi : i < 39) :
    entryAt (trapframeAt addr) i ∈ (Grant.mk addr 0).extent := by
  have htf : trapframeAt addr = addr + 3784 := by
    rw [trapframeAt, wrap_of_lt (by omega), trapframeSize, wrapSub_of_le (by omega) (by omega)]
    omega
  rw [htf, entryAt, wrap_of_lt (by omega)]
  refine ⟨by simp only; omega, ?_⟩
  simp only [pow_zero]
  omega

/-- The trap frame lies within the page of the kernel stack. -/
theorem mem_initTrapframe {site : Site} (hlow : addr < 2 ^ 56) (hw : w ∉ (Grant.mk addr 0).extent) :
    (initTrapframe site (trapframeAt addr) s).mem w = s.mem w := by
  have hne : ∀ i < 39, w ≠ entryAt (trapframeAt addr) i := by
    rintro i hi rfl
    exact hw (trapframe_mem hlow hi)
  simp only [initTrapframe, Space.store_mem]
  rw [Function.update_of_ne (hne 38 (by decide)), Function.update_of_ne (hne 35 (by decide)),
    Function.update_of_ne (hne 36 (by decide)), Function.update_of_ne (hne 34 (by decide)),
    Function.update_of_ne (hne 33 (by decide))]
  exact mem_zeroWords hne

/-- Filling the trap frame takes no page. -/
theorem initTrapframe_pages (site : Site) (tf : Nat) (s : Space β) :
    (initTrapframe site tf s).pages = s.pages := by
  simp only [initTrapframe, Space.store_pages, zeroWords_pages]

/-! ## The kernel's pages -/

/-- Calls that map no page in common share all. -/
theorem Shares.of_disjoint {m : Nat → Nat} {c d : MapCall} (h : Disjoint c.range d.range) :
    MapCall.Shares m c d := fun _ _ hc hd => absurd hd (Set.disjoint_left.mp h hc)

/-- One page of the kernel in the table of a process. -/
theorem kernelPage_range (virAddr physAddr perm : Nat) :
    (kernelPage virAddr physAddr perm).range = Set.Ico virAddr (virAddr + 4096) := rfl

/-- `kvm_map` of one page maps its one piece. -/
theorem kvmMap_kernelPage {virAddr physAddr perm : Nat} (hd : 4096 ∣ virAddr) :
    kvmMap A root virAddr physAddr 4096 perm s =
      mapPieces A (kernelPage virAddr physAddr perm).user
        (kernelPage virAddr physAddr perm).perm root
        virAddr (kernelPage virAddr physAddr perm).pieces s := by
  rw [kvmMap, mapRange_eq false, Nat.div_mul_cancel hd]
  rfl

/-- The calls of `create_user_table`. -/
def kernelPages (trampoline kstack : Nat) (m m' : Nat → Nat) : List Made :=
  [⟨kernelPage 0x3FFFFFF000 trampoline 8, m⟩, ⟨kernelPage 0x3FFFFFE000 kstack 6, m'⟩]

/-- Both pages of the kernel are not for the user, and at the very top. -/
theorem kernelPages_spec {trampoline kstack : Nat} {m m' : Nat → Nat}
    (hb : b ∈ kernelPages trampoline kstack m m') :
    b.call.isUser = false ∧ b.call.range ⊆ Set.Ico 0x3FFFFFE000 (2 ^ 38) := by
  rcases List.mem_pair.mp hb with rfl | rfl
  · rw [kernelPage_range]
    exact ⟨rfl, Set.Ico_subset_Ico (by decide) (by decide)⟩
  · rw [kernelPage_range]
    exact ⟨rfl, Set.Ico_subset_Ico (by decide) (by decide)⟩

/-- They are two different pages. -/
theorem kernelPages_sharing {trampoline kstack : Nat} {m m' : Nat → Nat} :
    Sharing (kernelPages trampoline kstack m m') := by
  apply List.pairwise_pair.mpr
  apply Shares.of_disjoint
  rw [kernelPage_range, kernelPage_range]
  apply Set.disjoint_left.mpr
  rintro a ⟨hlo, -⟩ ⟨-, hhi⟩
  omega

/-- `create_user_table` leaves the two pages of the kernel and nothing else. -/
theorem createUserTable_loaded (hA : A.Grants Owns) (howns : Reserving Owns R s.pages L)
    (hstack : stack ∈ R)
    (hun : ∀ a, s.mem a ≠ m₀ a → ∃ g, (g ∈ R ∨ g ∈ L) ∧ a ∈ g.extent) {trampoline kstack : Nat}
    (ht : trampoline + 4096 ≤ 2 ^ 56) (hk : kstack + 4096 ≤ 2 ^ 56)
    (hgo : A.Stock j (n + 5) s.pages ∨ (createUserTable A trampoline kstack s).Ends) :
    ∃ root s' L' m m', createUserTable A trampoline kstack s = .done root s' ∧
      Loaded Owns root m₀ stack R s' L' (kernelPages trampoline kstack m m') ∧
      (A.Stock j (n + 5) s.pages → A.Stock j n s'.pages) := by
  obtain ⟨root, b', hrun, hst⟩ := exists_page (hgo.imp_right Outcome.Ends.of_bind)
  have hroot := blank_of_kalloc (reserving_grants hA) howns hrun
  generalize hs₀ : zeroTable root { s with pages := b', given := root :: s.given } = s₀ at hroot
  have hroot64 : root + 2 ^ 0 * 4096 ≤ 2 ^ 64 :=
    (reserving_block hA hroot.owns (Or.inr hroot.held)).2.2
  have hloaded : Loaded Owns root m₀ stack R s₀ (⟨root, 0⟩ :: L) [] := by
    refine ⟨hroot.tiled, hstack, by simp, by simp, by simp, fun a ha => ?_, by simp⟩
    by_cases hin : a ∈ (Grant.mk root 0).extent
    · exact ⟨_, Or.inr List.mem_cons_self, hin⟩
    · have hsame : s₀.mem a = s.mem a := by
        rw [← hs₀, zeroTable_eq]
        exact mem_zeroWords_block hroot64 (by decide) hin
      rw [hsame] at ha
      obtain ⟨g, hg, hin⟩ := hun a ha
      exact ⟨g, hg.imp_right (List.mem_cons_of_mem _), hin⟩
  have hpages : s₀.pages = b' := by
    rw [← hs₀, zeroTable_pages]
  have hst : A.Stock j (n + 5) s.pages → A.Stock j (n + 2 * 2 ^ 0 + 2 * 2 ^ 0) s₀.pages := by
    rw [hpages]
    exact hst
  have hc₁ : (kernelPage 0x3FFFFFF000 trampoline 8).Whole 0 :=
    kernelPage_whole (by decide) (by decide) ht (by decide)
  have hc₂ : (kernelPage 0x3FFFFFE000 kstack 6).Whole 0 :=
    kernelPage_whole (by decide) (by decide) hk (by decide)
  have hcreate : createUserTable A trampoline kstack s =
      (kvmMap A root 0x3FFFFFF000 trampoline 4096 8 s₀).bind fun _ s =>
        (kvmMap A root 0x3FFFFFE000 kstack 4096 6 s).bind fun _ s => .done root s := by
    rw [createUserTable, kallocPage, hrun]
    simp only [Outcome.within, Outcome.bind_done]
    rw [hs₀]
  rw [hcreate, kvmMap_kernelPage (by decide)] at hgo ⊢
  have hfirst := hloaded.mapCall hA hc₁ (fun hu => absurd hu (by simp [kernelPage]))
    (fun _ => kernelPage_not_mega) (fun hm => absurd hm kernelPage_not_mega) 0x3FFFFFF000
    (hgo.imp hst Outcome.Ends.of_bind)
  rcases hfirst with ⟨-, s₁, L₁, hrun₁, hl₁, hst₁⟩ | ⟨⟨b, hb, -⟩, -⟩
  · rw [hrun₁, Outcome.bind_done, kvmMap_kernelPage (by decide)] at hgo ⊢
    have hsecond := hl₁.mapCall hA hc₂ (fun hu => absurd hu (by simp [kernelPage]))
      (fun _ => kernelPage_not_mega) (fun hm => absurd hm kernelPage_not_mega) 0x3FFFFFE000
      (hgo.imp (hst₁ ∘ hst) Outcome.Ends.of_bind)
    rcases hsecond with ⟨-, s₂, L₂, hrun₂, hl₂, hst₂⟩ | ⟨⟨b, hb, hno⟩, -⟩
    · rw [hrun₂, Outcome.bind_done]
      exact ⟨root, s₂, L₂, s₀.mem, s₁.mem, rfl, hl₂, hst₂ ∘ hst₁ ∘ hst⟩
    · rw [List.nil_append, List.mem_singleton] at hb
      subst hb
      have hsharing : Sharing (kernelPages trampoline kstack s₀.mem s₁.mem) := kernelPages_sharing
      exact absurd (List.pairwise_pair.mp hsharing) hno
  · exact absurd hb List.not_mem_nil

/-! ## The user stack -/

/-- The call for the user stack. -/
def ustackCall (ustack : Nat) : MapCall := ⟨true, 0x7FFFF000, ustack, 4096, 6⟩

/-- The user stack is a whole page. -/
theorem ustackCall_whole {ustack : Nat} (hd : 4096 ∣ ustack) (hlow : ustack < 2 ^ 56) :
    (ustackCall ustack).Whole 0 where
  virAddr := (by decide : 4096 ∣ 0x7FFFF000)
  physAddr := hd
  size := dvd_rfl
  virEnd := (by decide : 0x7FFFF000 + 4096 ≤ 2 ^ 38)
  physEnd := by
    have hend : ustack + 4096 ≤ 2 ^ 56 := by omega
    exact hend
  perm := (by decide : 6 ∈ leafPerms)
  order := by decide
  size_eq := rfl
  aligned := hd

/-- `uvm_map` of the user stack maps its one piece. -/
theorem uvmMap_ustack {ustack : Nat} (hd : 4096 ∣ ustack) :
    uvmMap A root 0x7FFFF000 ustack 4096 6 s =
      mapPieces A (ustackCall ustack).user (ustackCall ustack).perm root 0x7FFFF000
        (ustackCall ustack).pieces s := by
  rw [uvmMap, mapRange_eq true, Nat.div_mul_cancel hd]
  rfl

/-- A word of the trap frame has been written. -/
theorem Loaded.store_trapframe (hA : A.Grants Owns) (h : Loaded Owns root m₀ stack R s L bs)
    {slot : Nat} (hslot : slot ∈ stack.extent) (value : Nat) :
    Loaded Owns root m₀ stack R (s.store slot value) L bs := by
  refine h.stack_write hA (Space.store_pages s slot value) fun w hw => ?_
  rw [Space.store_mem, Function.update_of_ne]
  rintro rfl
  exact hw hslot

/-- A block taken for the process that no call maps. -/
structure Aside (stack : Grant) (R : List Grant) (bs : List Made) (g : Grant) : Prop where
  taken : g ∈ R
  stack : Disjoint stack.extent g.extent
  mapped : ∀ b ∈ bs, b.call.isUser = true →
    Disjoint g.extent (Set.Ico b.call.physAddr (b.call.physAddr + b.call.size))

/-- A block that is taken now lies aside from all that was loaded. -/
theorem Loaded.aside (hA : A.Grants Owns) (h : Loaded Owns root m₀ stack R s L bs) {k a : Nat}
    {b' : β} (hrun : A.kalloc s.pages k = .done a b') : Aside stack (⟨a, k⟩ :: R) bs ⟨a, k⟩ where
  taken := List.mem_cons_self
  stack := disjoint_of_take hA h.tiled.owns hrun (Or.inl h.stack_mem)
  mapped b hb hu := by
    obtain ⟨l, hl, hR⟩ := h.whole b hb
    rw [← extent_eq hl]
    exact (disjoint_of_take hA h.tiled.owns hrun (Or.inl (hR hu))).symm

section Finish

variable (hA : A.Grants Owns) (hal : A.Aligned Owns) (hlow : ∀ b L, Owns b L → Low L)
include hA hal hlow

/-- The last part returns when the page of the user stack is in no block before, or not noticed. The
block of the capability words is the last one taken. -/
theorem Loaded.finish (binary : Nat → UInt8) (h : Loaded Owns root m₀ stack R s L bs) {tf : Nat}
    (htf : ∀ i < 39, entryAt tf i ∈ stack.extent)
    (hgo : A.Stock 1 3 s.pages ∨ (finishProcess A binary tf root s).Ends) :
    ∃ ustack : Made, ustack.call = ustackCall ustack.call.physAddr ∧
      (((∀ a ∈ bs, MapCall.Shares a.mem a.call ustack.call) ∧ ∃ R' s' L',
        finishProcess A binary tf root s = .done (some (satpOf root)) s' ∧
        Loaded Owns root m₀ stack R' s' L' (bs ++ [ustack]) ∧
        Aside stack R' (bs ++ [ustack]) ⟨s'.given.headD 0, 2⟩) ∨
      ((∃ a ∈ bs, ¬ MapCall.Shares a.mem a.call ustack.call) ∧
        ∃ arg s', finishProcess A binary tf root s = .panic 107 arg s')) := by
  have h₁ := h.store_trapframe hA (htf 32 (by decide)) (Bytes.load binary 24 8)
  generalize hs₁ : s.store (entryAt tf 32) (Bytes.load binary 24 8) = s₁ at h₁
  have hpages₁ : s₁.pages = s.pages := by rw [← hs₁, Space.store_pages]
  rw [← hpages₁, finishProcess, hs₁] at hgo
  obtain ⟨ustack, b', hrun, hst⟩ := exists_page (hgo.imp_right Outcome.Ends.of_bind)
  have hd : 4096 ∣ ustack := (Nat.dvd_mul_left _ _).trans (aligned_of_take hal h₁.tiled.owns hrun).1
  have hc := ustackCall_whole hd (low_of_take hA hlow h₁.tiled.owns hrun)
  have hend : ustack + 2 ^ 0 * 4096 ≤ 2 ^ 64 := (reserving_block hA
    (reserving_take hA h₁.tiled.owns hrun) (Or.inl List.mem_cons_self)).2.2
  generalize hs₂ : zeroTable ustack { s₁ with pages := b', given := ustack :: s₁.given } = s₂
  have hpages₂ : s₂.pages = b' := by rw [← hs₂, zeroTable_pages]
  have hmem₂ : ∀ w, w ∉ (Grant.mk (ustackCall ustack).physAddr 0).extent → s₂.mem w = s₁.mem w := by
    intro w hw
    rw [← hs₂, zeroTable_eq]
    exact mem_zeroWords_block hend (by decide) hw
  have hst₂ : A.Stock 1 3 s₁.pages → A.Stock 1 (0 + 2 * 2 ^ 0) s₂.pages := by
    rw [hpages₂]
    exact hst
  have hfinish : finishProcess A binary tf root s =
      (mapPieces A (ustackCall ustack).user (ustackCall ustack).perm root 0x7FFFF000
        (ustackCall ustack).pieces s₂).bind fun _ s =>
          (kallocBlock A 2 (s.store (entryAt tf 2) 0x80000000)).bind fun capabilityRoot s =>
            .done (some (satpOf root)) (zeroWords 2048 capabilityRoot s) := by
    rw [finishProcess, hs₁, kallocBlock, hrun]
    simp only [Outcome.within, Outcome.bind_done]
    rw [hs₂, uvmMap_ustack hd]
  rw [← hs₁, ← finishProcess, hfinish] at hgo
  rw [hs₁] at hgo
  refine ⟨⟨ustackCall ustack, s₂.mem⟩, rfl, ?_⟩
  rcases h₁.mapBlock hA hc rfl hrun hpages₂ hmem₂ 0x7FFFF000
      (hgo.imp hst₂ Outcome.Ends.of_bind) with
    ⟨hs, s₃, L₃, hmap, h₃, hst₃⟩ | ⟨hno, arg, s₃, hmap⟩
  · have h₄ := h₃.store_trapframe hA (htf 2 (by decide)) 0x80000000
    generalize hs₄ : s₃.store (entryAt tf 2) 0x80000000 = s₄ at h₄
    have hpages₄ : s₄.pages = s₃.pages := by rw [← hs₄, Space.store_pages]
    rw [← hpages₄] at hst₃
    rw [hmap, Outcome.bind_done, hs₄] at hgo
    obtain ⟨capabilityRoot, b'', hrun', -⟩ :=
      exists_block (by decide : 2 < maxOrder) (hgo.imp (hst₃ ∘ hst₂) Outcome.Ends.of_bind)
    have hend' : capabilityRoot + 2 ^ 2 * 4096 ≤ 2 ^ 64 := (reserving_block hA
      (reserving_take hA h₄.tiled.owns hrun') (Or.inl List.mem_cons_self)).2.2
    refine Or.inl ⟨hs, _, _, L₃, ?_, h₄.take hA hrun' (zeroWords_pages 2048 capabilityRoot
      { s₄ with pages := b'', given := capabilityRoot :: s₄.given }) fun w hw => ?_, ?_⟩
    · rw [hfinish, hmap, Outcome.bind_done, hs₄, kallocBlock, hrun']
      rfl
    · exact mem_zeroWords_block hend' (by decide) hw
    · rw [zeroWords_given]
      exact h₄.aside hA hrun'
  · refine Or.inr ⟨hno, arg, s₃, ?_⟩
    rw [hfinish, hmap, Outcome.bind_panic]

end Finish

/-! ## spawn_process -/

/-- A block that ends below the kernel's pages. -/
theorem Placed.below {ph : Phdr} (h : Placed binary m₀ ph b)
    (hend : ph.start + ph.size ≤ 0x3FFFFFE000) : b.call.range ⊆ Set.Iio 0x3FFFFFE000 := by
  rw [h.call]
  rintro a ⟨-, hhi⟩
  exact lt_of_lt_of_le hhi hend

/-- Each call that was placed comes from a header. -/
theorem exists_of_forall₂ {phs : List Phdr} (h : List.Forall₂ (Placed binary m₀) phs cs)
    (hb : b ∈ cs) :
    ∃ ph ∈ phs, Placed binary m₀ ph b := by
  induction h with
  | nil => exact absurd hb List.not_mem_nil
  | cons hd _ ih =>
    rcases List.mem_cons.mp hb with rfl | hb
    · exact ⟨_, List.mem_cons_self, hd⟩
    · obtain ⟨ph, hph, hp⟩ := ih hb
      exact ⟨ph, List.mem_cons_of_mem _ hph, hp⟩

/-- Each header has its call. -/
theorem exists_placed {phs : List Phdr} (h : List.Forall₂ (Placed binary m₀) phs cs) {ph : Phdr}
    (hph : ph ∈ phs) : ∃ b ∈ cs, Placed binary m₀ ph b := by
  induction h with
  | nil => exact absurd hph List.not_mem_nil
  | cons hd _ ih =>
    rcases List.mem_cons.mp hph with rfl | hph
    · exact ⟨_, List.mem_cons_self, hd⟩
    · obtain ⟨b, hb, hp⟩ := ih hph
      exact ⟨b, List.mem_cons_of_mem _ hb, hp⟩

/-- What holds of any two of one list holds of what belongs to them in the other. -/
theorem pairwise_of_forall₂ {α γ : Type} {P : α → γ → Prop} {Q : α → α → Prop} {S : γ → γ → Prop}
    {l : List α} {l' : List γ} (h : List.Forall₂ P l l') (hQ : l.Pairwise Q)
    (hQS : ∀ a ∈ l, ∀ c ∈ l', ∀ a' c', P a c → P a' c' → Q a a' → S c c') : l'.Pairwise S := by
  induction h with
  | nil => exact List.Pairwise.nil
  | @cons a c l l' hp hrest ih =>
    obtain ⟨hfirst, hpair⟩ := List.pairwise_cons.mp hQ
    refine List.pairwise_cons.mpr ⟨fun c' hc' => ?_,
      ih hpair fun x hx y hy => hQS x (List.mem_cons_of_mem _ hx) y (List.mem_cons_of_mem _ hy)⟩
    obtain ⟨i, hi, rfl⟩ := List.getElem_of_mem hc'
    have hlen : i < l.length := by rwa [hrest.length_eq]
    exact hQS a List.mem_cons_self c List.mem_cons_self _ _ hp (hrest.get hlen hi)
      (hfirst _ (List.getElem_mem hlen))

/-- The kernel's pages share no page with blocks below them. -/
theorem kernelPages_shares {trampoline kstack : Nat} {m m' : Nat → Nat} {c : MapCall}
    (hb : b ∈ kernelPages trampoline kstack m m') (hc : c.range ⊆ Set.Iio 0x3FFFFFE000) :
    MapCall.Shares b.mem b.call c := by
  apply Shares.of_disjoint
  apply Set.disjoint_left.mpr
  intro a ha hac
  have hlo := ((kernelPages_spec hb).2 ha).1
  have hhi : a < 0x3FFFFFE000 := hc hac
  omega

/-- The pages of the kernel are above all segments. -/
theorem sharing_kernelPages {trampoline kstack : Nat} {m m' : Nat → Nat}
    (hcs : ∀ c ∈ cs, c.call.range ⊆ Set.Iio 0x3FFFFFE000) (h : Sharing cs) :
    Sharing (kernelPages trampoline kstack m m' ++ cs) :=
  List.pairwise_append.mpr ⟨kernelPages_sharing, h, fun _ hb c hc =>
    kernelPages_shares hb (hcs c hc)⟩

/-- The user stack is below them. -/
theorem ustackCall_below (ustack : Nat) : (ustackCall ustack).range ⊆ Set.Iio 0x3FFFFFE000 := by
  rintro a ⟨-, hhi⟩
  have hhi : a < 0x7FFFF000 + 4096 := hhi
  exact lt_trans hhi (by decide)

section Spawn

variable (hA : A.Grants Owns) (hal : A.Aligned Owns) (hlow : ∀ b L, Owns b L → Low L)
  {site : Site} (ht : site.userTrampoline + 4096 ≤ 2 ^ 56) (helf : IsElf binary)
include hA hlow ht helf

/-- Up to the segments. -/
theorem spawnProcess_eq (howns : Owns s.pages L)
    (hgo : A.Stock j (n + 6) s.pages ∨ (spawnProcess A site binary s).Ends) :
    ∃ root stack m m' R s₁ L₁, stack < 2 ^ 56 ∧
      Loaded Owns root s.mem ⟨stack, 0⟩ R s₁ L₁ (kernelPages site.userTrampoline stack m m') ∧
      (A.Stock j (n + 6) s.pages → A.Stock j n s₁.pages) ∧
      spawnProcess A site binary s = (loadAll A binary root (segments binary) s₁).bind fun _ s =>
        finishProcess A binary (trapframeAt stack) root s := by
  obtain ⟨stack, b', hrun, hst⟩ := exists_page (hgo.imp_right Outcome.Ends.of_bind)
  have hres : Reserving Owns [⟨stack, 0⟩] b' L := reserving_take hA (reserving_nil howns) hrun
  have h56 : stack < 2 ^ 56 := low_of_take hA hlow (reserving_nil howns) hrun
  obtain ⟨hd, hpos, -⟩ := reserving_block hA hres (Or.inl List.mem_cons_self)
  have hd : 4096 ∣ stack := hd
  have hpos : 0 < stack := hpos
  have hkstack : stack + 4096 ≤ 2 ^ 56 := by omega
  generalize hs₀ : initTrapframe site (trapframeAt stack)
    { s with pages := b', given := stack :: s.given } = s₀
  have hpages₀ : s₀.pages = b' := by rw [← hs₀, initTrapframe_pages]
  have hmem₀ : ∀ a, s₀.mem a ≠ s.mem a →
      ∃ g, (g ∈ [(⟨stack, 0⟩ : Grant)] ∨ g ∈ L) ∧ a ∈ g.extent := by
    intro a ha
    refine ⟨_, Or.inl List.mem_cons_self, ?_⟩
    by_contra hin
    rw [← hs₀] at ha
    exact ha (mem_initTrapframe h56 hin)
  rw [← hpages₀] at hres hst
  have hspawn : spawnProcess A site binary s =
      (createUserTable A site.userTrampoline stack s₀).bind fun userTable s =>
        let s := s.store (entryAt (trapframeAt stack) 37) (satpOf userTable)
        (loadAll A binary userTable (segments binary) s).bind fun _ s =>
          finishProcess A binary (trapframeAt stack) userTable s := by
    rw [spawnProcess, kallocBlock, hrun]
    simp only [Outcome.within, Outcome.bind_done]
    rw [if_neg hpos.ne']
    have htf : wrapSub (wrap (stack + 4096)) trapframeSize = trapframeAt stack := rfl
    rw [htf, hs₀]
    simp only [if_neg (not_not_intro helf), loadSegments_eq]
    rfl
  rw [hspawn] at hgo
  obtain ⟨root, s₁, L₁, m, m', hcreate, hl, hst₁⟩ :=
    createUserTable_loaded hA hres List.mem_cons_self hmem₀ ht hkstack
      (hgo.imp hst Outcome.Ends.of_bind)
  refine ⟨root, stack, m, m', _, _, L₁, h56,
    hl.store_trapframe hA (trapframe_mem h56 (by decide : 37 < 39)) (satpOf root), hst₁ ∘ hst, ?_⟩
  rw [hspawn, hcreate, Outcome.bind_done]

include hal

/-- What a spawned process has. -/
theorem spawnProcess_done (hu : ∀ ph ∈ segments binary, ph.Usable) (howns : Owns s.pages L)
    {r : Option Nat} (hrun : spawnProcess A site binary s = .done r s') :
    ∃ root stack m m' R L' cs ustack, r = some (satpOf root) ∧
      Loaded Owns root s.mem stack R s' L'
        (kernelPages site.userTrampoline stack.addr m m' ++ (cs ++ [ustack])) ∧
      List.Forall₂ (Placed binary s.mem) (segments binary) cs ∧
      ustack.call = ustackCall ustack.call.physAddr ∧
      Sharing (kernelPages site.userTrampoline stack.addr m m' ++ (cs ++ [ustack])) := by
  obtain ⟨root, stack, m, m', R, s₁, L₁, h56, hl, -, he⟩ :=
    spawnProcess_eq (j := 0) (n := 0) hA hlow ht helf howns (Or.inr ⟨r, s', hrun⟩)
  rw [he] at hrun
  obtain ⟨_, s₂, hload, hfinish⟩ := Outcome.bind_eq_done.mp hrun
  obtain ⟨R₂, L₂, cs, hl₂, hcs, hsh, -⟩ :=
    hl.loadAll_done (j := 0) (n := 0) hA hal hlow hu hload
  obtain ⟨ustack, hcall, ⟨hs, R₃, s₃, L₃, hdone, hl₃, -⟩ | ⟨-, arg, s₃, hno⟩⟩ :=
    hl₂.finish hA hal hlow binary (fun i hi => trapframe_mem h56 hi) (Or.inr ⟨r, s', hfinish⟩)
  · obtain ⟨rfl, rfl⟩ := Outcome.done.inj (hdone.symm.trans hfinish)
    rw [List.append_assoc] at hl₃
    refine ⟨root, ⟨stack, 0⟩, m, m', R₃, L₃, cs, ustack, rfl, hl₃, hcs, hcall, ?_⟩
    rw [← List.append_assoc]
    refine List.pairwise_append.mpr ⟨hsh kernelPages_sharing,
      List.pairwise_singleton _ _, fun c hc u hu => ?_⟩
    obtain rfl := List.mem_singleton.mp hu
    exact hs c hc
  · rw [hno] at hfinish
    cases hfinish

/-- It returns or stops the machine with 107. -/
theorem spawnProcess_cases (hu : ∀ ph ∈ segments binary, ph.Usable) (howns : Owns s.pages L)
    (hstock : A.Stock ((segments binary).length + 1) (tablePages (segments binary) + 9) s.pages) :
    (∃ satp s', spawnProcess A site binary s = .done (some satp) s') ∨
      ∃ arg s', spawnProcess A site binary s = .panic 107 arg s' := by
  have hst :
      A.Stock (1 + (segments binary).length) (3 + tablePages (segments binary) + 6) s.pages :=
    hstock.mono (by omega) (by omega)
  obtain ⟨root, stack, m, m', R, s₁, L₁, h56, hl, hst₁, he⟩ :=
    spawnProcess_eq hA hlow ht helf howns (Or.inl hst)
  rw [he]
  rcases hl.loadAll_cases hA hal hlow binary hu (hst₁ hst) with ⟨s₂, hload⟩ | ⟨arg, s₂, hload⟩
  · obtain ⟨R₂, L₂, cs, hl₂, -, -, hst₂⟩ := hl.loadAll_done hA hal hlow hu hload
    rw [hload, Outcome.bind_done]
    obtain ⟨ustack, -, ⟨-, R₃, s₃, L₃, hdone, -⟩ | ⟨-, hno⟩⟩ :=
      hl₂.finish hA hal hlow binary (fun i hi => trapframe_mem h56 hi) (Or.inl (hst₂ (hst₁ hst)))
    · exact Or.inl ⟨_, s₃, hdone⟩
    · exact Or.inr hno
  · rw [hload, Outcome.bind_panic]
    exact Or.inr ⟨arg, s₂, rfl⟩

/-- It returns when the blocks of the segments and the user stack do not meet noticeably. -/
theorem spawnProcess_returns (hu : ∀ ph ∈ segments binary, ph.Usable)
    (hend : ∀ ph ∈ segments binary, ph.start + ph.size ≤ 0x3FFFFFE000) (howns : Owns s.pages L)
    (hstock : A.Stock ((segments binary).length + 1) (tablePages (segments binary) + 9) s.pages)
    (hs : ∀ qs cs, qs <+: segments binary → List.Forall₂ (Placed binary s.mem) qs cs → Sharing cs)
    (hstack : ∀ cs u, List.Forall₂ (Placed binary s.mem) (segments binary) cs →
      ∀ c ∈ cs, MapCall.Shares c.mem c.call (ustackCall u)) :
    ∃ satp s', spawnProcess A site binary s = .done (some satp) s' := by
  have hst :
      A.Stock (1 + (segments binary).length) (3 + tablePages (segments binary) + 6) s.pages :=
    hstock.mono (by omega) (by omega)
  obtain ⟨root, stack, m, m', R, s₁, L₁, h56, hl, hst₁, he⟩ :=
    spawnProcess_eq hA hlow ht helf howns (Or.inl hst)
  obtain ⟨s₂, hload⟩ := hl.loadAll_returns hA hal hlow hu (hst₁ hst) fun qs cs hqs hcs => by
    apply sharing_kernelPages _ (hs qs cs hqs hcs)
    intro c hc
    obtain ⟨ph, hph, hp⟩ := exists_of_forall₂ hcs hc
    exact hp.below (hend ph (hqs.subset hph))
  obtain ⟨R₂, L₂, cs, hl₂, hcs, -, hst₂⟩ := hl.loadAll_done hA hal hlow hu hload
  rw [he, hload, Outcome.bind_done]
  obtain ⟨ustack, hcall, ⟨-, R₃, s₃, L₃, hdone, -⟩ | ⟨⟨a, ha, hno⟩, -⟩⟩ :=
    hl₂.finish hA hal hlow binary (fun i hi => trapframe_mem h56 hi) (Or.inl (hst₂ (hst₁ hst)))
  · exact ⟨_, s₃, hdone⟩
  · rw [hcall] at hno
    rcases List.mem_append.mp ha with ha | ha
    · exact absurd (kernelPages_shares ha (ustackCall_below _)) hno
    · exact absurd (hstack cs _ hcs a ha) hno

end Spawn

end RexOS.Loader
