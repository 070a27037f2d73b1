import RexOS.Assembly.KernelSide
import RexOS.Loader.Kmain

/-!
# From `kvm_init` to user mode

On a proper memory layout, with memory for the tables and for the images, `kmain` makes the tables
of the kernel and its processes, and then the first switch to each of them leads to user mode.
-/

namespace RexOS.Assembly

open Riscv RexOS.Kalloc RexOS.Paging RexOS.Loader Radix Bits

variable {β : Type} {A : PageAlloc β} {Owns : β → List Grant → Prop} {s s' : Space β}
  {L M M' : List Grant} {l : Layout} {p : Platform Symbol} {kroot : ℕ} {back : Word}

/-- What a call of `spawn_process` knows once the kernel has its tables. -/
def Layout.launch (l : Layout) (kroot : ℕ) (x : Launch) : Launch :=
  ({ x.1 with rootTable := kroot, userTrampoline := l.userTrampoline }, x.2)

/-- The platform runs the text of the kernel under Sv39. -/
structure Linked (l : Layout) (p : Platform Symbol) (back : Word) : Prop where
  walk : p.walk = sv39Walk
  linked : p.symbol .userTrampoline = word l.userTrampoline
  trampoline : TrampolineText p lifted back
  bootstrap : ∃ e, Text p (Layout.text l) 0 (p.symbol .processBootstrap) processBootstrap e

/-- What a call knows does not change what its image needs. -/
theorem blocksOf_launch (xs : List Launch) :
    blocksOf (xs.map (Layout.launch l kroot)) = blocksOf xs ∧
      pagesOf (xs.map (Layout.launch l kroot)) = pagesOf xs := by
  simp only [blocksOf, pagesOf, List.map_map]
  exact ⟨rfl, rfl⟩

/-- The trampoline is in memory. -/
theorem trampoline_lt (hl : l.Proper) : l.userTrampoline + 4096 ≤ 2 ^ 56 := by
  have hord := hl.ordered
  have htramp := hl.trampoline
  have hsize := hl.size
  omega

/-- Blocks that are granted later lie beside the tables of the kernel. -/
theorem beside_tables (hA : A.Grants Owns)
    (hfree : ∀ b L, Owns b L → ∀ g ∈ L, g.extent ⊆ Layout.free l) (ht : Tree Owns kroot s L)
    (hL : L ⊆ M) : Beside (Reserving Owns M) (tableWords s kroot) (Layout.free l) := by
  intro b N hN g hg
  refine ⟨?_, fun a ha hin => ?_⟩
  · obtain ⟨M', howns, hM', -⟩ := hN
    exact hfree _ _ howns g ((hM' g).mpr (Or.inr hg))
  · obtain ⟨q, t, i, hq, hu, he⟩ : s.OnTable kroot a.toNat := ha
    obtain ⟨hi, hq⟩ := trail_cons.mp hq
    have hapart := reserved_of_mem hA (hL (ht.held q t hq hu)) b N hN g hg
    exact Set.disjoint_left.mp hapart (he ▸ word_mem_page hi) hin

/-- What is granted later leaves the tables alone. -/
theorem tables_later (ht : Tree Owns kroot s L) (hl : Loader.Kept L s s' M') :
    ∀ a, s.OnTable kroot a → s'.mem a = s.mem a := by
  rintro _ ⟨q, t, i, hq, hu, rfl⟩
  obtain ⟨hi, hq⟩ := trail_cons.mp hq
  exact hl.kept _ (ht.held q t hq hu) _ (word_mem_page hi)

/-- The kernel keeps its address space where its tables are kept. -/
theorem kernelSpace_agree (h : KernelSpace l kroot s.mem)
    (he : ∀ a, s.OnTable kroot a → s'.mem a = s.mem a) : KernelSpace l kroot s'.mem := by
  have hsame : ∀ a, sv39 s'.mem kroot a = sv39 s.mem kroot a := Space.sv39_agree he
  obtain ⟨hid, htramp, hnone, hwx⟩ := h
  refine ⟨fun a ha => ?_, fun a ha => ?_, fun a ha hb => ?_, fun a b => ?_⟩
  · rw [hsame]
    exact hid a ha
  · rw [hsame]
    exact htramp a ha
  · rw [hsame]
    exact hnone a ha hb
  · rw [hsame, hsame]
    exact hwx a b

/-- They have the same words. -/
theorem tableWords_agree {root : ℕ} (he : ∀ a, s.OnTable root a → s'.mem a = s.mem a) :
    tableWords s' root = tableWords s root :=
  Set.ext fun _ => Space.onTable_agree he

section Boot

variable (hA : A.Grants Owns) (hlow : ∀ b L, Owns b L → Low L)
  (hfree : ∀ b L, Owns b L → ∀ g ∈ L, g.extent ⊆ Layout.free l) (hl : l.Proper)
  (hp : Linked l p back)
include hA hlow hfree hl hp

/-- A process that stands begins. -/
theorem begins_of_stands {x : Launch} {root stack : ℕ} {s₁ : Space β} (hsep : Separate x.2)
    (hstatus : x.1.sstatusVal.testBit 8 = false) (ht : Tree Owns kroot s₁ L)
    (hmaps : ∀ m, Shown s₁ (tableWords s₁ kroot) m →
      KernelMaps p (tableWords s₁ kroot) (Layout.text l) (Layout.free l) (word (satpOf kroot)) m)
    (hlater : Loader.Kept L s₁ s M)
    (hs : Stands Owns L (Layout.launch l kroot x).1 x.2 root stack s M) :
    Begins p (tableWords s root ∪ tableWords s kroot) (Layout.launch l kroot x).1 x.2 root stack
      s := by
  obtain ⟨R, m₀, s₀, hR, hspawned, hwords⟩ := hs
  have hkernel := tables_later ht hlater
  have hsame : ∀ a, s₀.OnTable root a → s.mem a = s₀.mem a := fun a ha => (hwords a (Or.inl ha)).1
  have hsite : KernelSite (Layout.launch l kroot x).1 p (tableWords s₁ kroot) (Layout.text l)
      (Layout.free l) back s :=
    { walk := hp.walk
      linked := hp.linked
      aligned := hl.trampoline.2.2
      trampoline := hp.trampoline
      bootstrap := hp.bootstrap
      maps := fun m hm => hmaps m fun w hw => (hm w hw).trans (hkernel _ hw)
      status := hstatus }
  rw [tableWords_agree hsame, tableWords_agree hkernel]
  exact Spawned.begins (reserving_grants hA) (reserving_low hlow) hsep
    (beside_tables hA hfree ht hR) hsite hspawned fun a ha =>
      (hwords a (ha.imp_right Or.inl)).1

end Boot

/-- With memory to spare, `kvm_init` makes the tables of the kernel and leaves the rest. -/
theorem kvmInit_leaves {n m : ℕ} (hA : A.Grants Owns) (hlow : ∀ b L, Owns b L → Low L)
    (hl : l.Proper) (hs : Owns s.pages L)
    (hstock : A.Stock n ((lacking l.calls).card + 1 + m) s.pages) :
    ∃ (kroot : ℕ) (s₁ : Space β) (L₁ : List Grant), kvmInit A l s = .done kroot s₁ ∧
      Tree Owns kroot s₁ L₁ ∧ KernelSpace l kroot s₁.mem ∧
      (∀ p m, p.walk = sv39Walk → p.symbol .userTrampoline = word l.userTrampoline →
        Shown s₁ (tableWords s₁ kroot) m → KernelMaps p (tableWords s₁ kroot) (Layout.text l)
          (Layout.free l) (word (satpOf kroot)) m) ∧
      A.Stock n m s₁.pages := by
  let P := A.Stock n m
  have hstock' : (A.guarded P).Stock 0 ((lacking l.calls).card + 1) s.pages :=
    PageAlloc.Stock.guarded (by rwa [Nat.zero_add])
  have hs' : Owns s.pages L ∧ P s.pages := ⟨hs, hstock.mono le_rfl (Nat.le_add_left _ _)⟩
  obtain ⟨kroot, s₁, L₁, hrun, ht, hspace, hmaps⟩ := kvmInit_kernelMaps (hA.guarded (P := P))
    (fun b L h => hlow b L h.1) hl hs' hstock'.room
  obtain ⟨howns, hrest⟩ := ht.owns
  exact ⟨kroot, s₁, L₁, kvmInit_under (A.guarded_under P) l s _ _ hrun,
    ⟨howns, ht.shape, ht.held, ht.plain⟩, hspace, hmaps, hrest⟩

section Kmain

variable (hA : A.Grants Owns) (hal : A.Aligned Owns) (hlow : ∀ b L, Owns b L → Low L)
  (hl : l.Proper) (hs : Owns s.pages L) {xs : List Launch}
  (hx : ∀ x ∈ xs, IsElf x.2 ∧ Separate x.2)
include hA hal hlow hl hs hx

/-- On any proper layout, with memory for the tables of the kernel, for what `kmain` asks for
besides, and for the images, `kmain` comes to its end, whatever it stores into what it asked for. At
the end memory is still one of words, the kernel has its address space, and the first switch to each
process leads to the entry of its image in user mode, as long as its tables, those of the kernel and
its frame are as they are then. -/
theorem kmain_begins {c : Client} {cachesAt hart : ℕ} {caches : ℕ → Kvmalloc.Cache}
    (hfree : ∀ b L, Owns b L → ∀ g ∈ L, g.extent ⊆ Layout.free l) (hp : Linked l p back)
    (hstock : A.Stock (kmainBlocks hart xs)
      ((lacking l.calls).card + 1 + kmainPages hart xs) s.pages)
    (hhart : 1 ≤ hart) (hmax : hart * 32 ≤ 0x800000) (hc : c.Words) (hat : cachesAt + 640 ≤ 2 ^ 64)
    (hstatus : ∀ x ∈ xs, x.1.sstatusVal.testBit 8 = false) (hwords : ∀ a, s.mem a < 2 ^ 64)
    (hsites : ∀ x ∈ xs, SiteWords x.1) :
    ∃ (kroot rq : ℕ) (qs : List (ℕ × ℕ)) (k : Arena β),
      kmain c A cachesAt l hart xs caches s =
        .done ⟨kroot, rq, qs.map fun q => some (satpOf q.1)⟩ k ∧
      (∃ m, Shown k.space Set.univ m) ∧ KernelSpace l kroot k.space.mem ∧
      List.Forall₂ (fun x q => Begins p (tableWords k.space q.1 ∪ tableWords k.space kroot)
        (Launch.found l kroot rq x).1 x.2 q.1 q.2 k.space) xs qs := by
  obtain ⟨kroot, s₁, L₁, hrun, ht, hspace, hmaps, hrest⟩ := kvmInit_leaves hA hlow hl hs hstock
  obtain ⟨hword, -⟩ := kvmInit_worded hA ⟨hwords, L, hs⟩ hl hrun
  have hroot : kroot < 2 ^ 64 := by
    have hpage := ((hA.blocks ht.owns).page _ (ht.held [] kroot trail_nil rfl)).2.2
    dsimp only at hpage
    omega
  obtain ⟨rq, qs, k, R, hkmain, hkept, hword, hall⟩ := kmain_goes hA hal hlow hc hat caches hhart
    hmax hx hsites (trampoline_lt hl) hrun hroot ht.owns hword hrest
  refine ⟨kroot, rq, qs, k, hkmain, ⟨fun w => word (k.space.mem w.toNat), fun w _ =>
    toNat_word (hword _)⟩, kernelSpace_agree hspace (tables_later ht hkept), ?_⟩
  refine List.forall₂_iff_get.mpr ⟨hall.length_eq, fun i h₁ h₂ => ?_⟩
  have hmem := List.get_mem xs ⟨i, h₁⟩
  have hsep := (hx _ hmem).2
  have hset := hstatus _ hmem
  exact begins_of_stands (x := ({ (xs.get ⟨i, h₁⟩).1 with runqueue := rq }, (xs.get ⟨i, h₁⟩).2))
    hA hlow hfree hl hp hsep hset ht (fun m => hmaps p m hp.walk hp.linked) hkept (hall.get h₁ h₂)

variable (hstock : A.Stock (blocksOf xs) ((lacking l.calls).card + 1 + pagesOf xs) s.pages)
include hstock

/-- The tables of the kernel, and then the processes. -/
theorem kmain_stands : ∃ (kroot : ℕ) (s₁ : Space β) (L₁ : List Grant) (qs : List (ℕ × ℕ))
    (s₂ : Space β) (M : List Grant), kvmInit A l s = .done kroot s₁ ∧
      spawnAll A (xs.map (Layout.launch l kroot)) s₁ =
        .done (qs.map fun q => some (satpOf q.1)) s₂ ∧
      Tree Owns kroot s₁ L₁ ∧ KernelSpace l kroot s₁.mem ∧ Later Owns L₁ s₁ s₂ M ∧
      List.Forall₂ (fun x q => Stands Owns L₁ (Layout.launch l kroot x).1 x.2 q.1 q.2 s₂ M)
        xs qs := by
  obtain ⟨kroot, s₁, L₁, hrun, ht, hspace, -, hrest⟩ := kvmInit_leaves hA hlow hl hs hstock
  have hgood : ∀ y ∈ xs.map (Layout.launch l kroot), Launch.Good y := by
    intro y hy
    obtain ⟨x, hx', rfl⟩ := List.mem_map.mp hy
    exact ⟨trampoline_lt hl, hx x hx'⟩
  have hmem : A.Stock (blocksOf (xs.map (Layout.launch l kroot)))
      (pagesOf (xs.map (Layout.launch l kroot))) s₁.pages := by
    rw [(blocksOf_launch xs).1, (blocksOf_launch xs).2]
    exact hrest
  obtain ⟨rs, s₂, hspawn⟩ := spawnAll_returns hA hal hlow hgood ht.owns hmem
  obtain ⟨M, qs, hlater, rfl, hall, -⟩ := spawnAll_stands hA hal hlow hgood ht.owns hspawn
  rw [List.forall₂_map_left_iff] at hall
  exact ⟨kroot, s₁, L₁, qs, s₂, M, hrun, hspawn, ht, hspace, hlater, hall⟩

variable (hp : Linked l p back)
include hp

/-- The trampoline names the handler of the kernel relative to where it runs itself. So from each
trap of a process of `kmain` the hart comes to `strap_router` with an address in `stvec` that the
tables of the kernel do not map, and the next trap of the kernel strands it. -/
theorem kmain_traps_strand {handler : ℕ} (hh : HandlerPlace l p handler) :
    ∃ (kroot : ℕ) (s₁ : Space β) (qs : List (ℕ × ℕ)) (s₂ : Space β),
      kvmInit A l s = .done kroot s₁ ∧
      spawnAll A (xs.map (Layout.launch l kroot)) s₁ =
        .done (qs.map fun q => some (satpOf q.1)) s₂ ∧
      List.Forall₂ (fun x q => ∀ K W h m f, tableWords s₂ kroot ⊆ K → K ⊆ W →
        Shown s₂ (tableWords s₂ kroot) m →
        Ready p K W lifted (.spawned (Layout.launch l kroot x).1 q.1 q.2) h m →
        Leads p W (fun h₁ m₁ => h₁.pc = word x.1.strapRouter ∧ h₁.mode = .supervisor ∧
          Strands p K h₁ m₁) (h.trapS f) m) xs qs := by
  obtain ⟨kroot, s₁, L₁, qs, s₂, M, hrun, hspawn, ht, hspace, hlater, hall⟩ :=
    kmain_stands hA hal hlow hl hs hx hstock
  refine ⟨kroot, s₁, qs, s₂, hrun, hspawn, hall.imp fun x q _ K W h m f hK hW hm hr => ?_⟩
  have hkernel := tables_later ht hlater.toKept
  rw [tableWords_agree hkernel] at hK hm
  have hforce : InForce p K s₁ kroot (word (satpOf kroot)) m :=
    inForce_of_tree hA ht (hlow _ _ ht.owns) (fun w hw => (hm w hw).trans (hkernel _ hw)) hp.walk hK
  refine (trap_strands hW hp.trampoline hr
    (vector_unmapped hl hspace hforce hh hp.linked)).mono fun h₁ m₁ hend => ?_
  exact ⟨hend.1.pc, hend.1.mode, hend.2⟩

end Kmain

set_option maxRecDepth 2000 in
/-- The image under Sv39, on the board. -/
theorem linked_virt : Linked virtLayout { image with walk := sv39Walk } 0x3FFFFFF0CC := by
  have ht := trampolineText_image
  obtain ⟨_, hr⟩ := ht.restore
  have hboot : Text image linked 0 0x80000260 processBootstrap 0x80000278 :=
    @text_handlers (.ret :: (smodeEntry ++ (smodeExit ++ (mmodeEntry ++ mmodeExit))))
      processBootstrap [] rfl
  exact ⟨rfl, rfl, ⟨ht.entry.congr rfl subset_rfl, ht.ret.congr rfl subset_rfl, _,
    hr.congr rfl subset_rfl⟩, _, hboot.congr rfl fun _ h => h⟩

/-- A process as `kmain` makes it: interrupts are enabled when it begins. -/
def virtLaunch : Launch := ({ virtSite with sstatusVal := 32 }, RexOS.Loader.image 1)

/-- The image of the example is separate. -/
theorem virtLaunch_good : ∀ x ∈ List.replicate 2 virtLaunch, IsElf x.2 ∧ Separate x.2 := by
  intro x hx
  obtain rfl := List.eq_of_mem_replicate hx
  exact ⟨image_one_orderly.elf, image_one_separate⟩

/-- Blocks of the board are behind the kernel. -/
theorem virt_free (b : State) (L : List Grant) (h : Tended virt virtBssEnd b L) :
    ∀ g ∈ L, g.extent ⊆ Layout.free virtLayout := by
  intro g hg a ha
  have hbounds := virt_grant_bounds h.granted hg
  have ha : g.addr ≤ a ∧ a < g.addr + 2 ^ g.order * 4096 := ha
  have hend : virtLayout.bssEnd ≤ 0x80800000 ∧
      0x88000000 ≤ virtLayout.ram.baseAddr + virtLayout.ram.totalSize := by decide
  exact ⟨by omega, by omega⟩

/-- The board has memory for two processes, and for all that `kmain` takes besides. -/
theorem virt_kmain_stock : ∃ bd, Tended virt virtBssEnd bd [] ∧
    (buddy virt 0).Stock (blocksOf (List.replicate 2 virtLaunch))
      ((lacking virtLayout.calls).card + 1 + pagesOf (List.replicate 2 virtLaunch)) bd ∧
    (buddy virt 0).Stock (kmainBlocks 2 (List.replicate 2 virtLaunch))
      ((lacking virtLayout.calls).card + 1 + kmainPages 2 (List.replicate 2 virtLaunch)) bd := by
  obtain ⟨bd, howns, hstock⟩ := virt_stock 0
  have hneed : blocksOf (List.replicate 2 virtLaunch) = 4 ∧
      pagesOf (List.replicate 2 virtLaunch) ≤ 100 := by
    simp only [blocksOf, pagesOf, List.map_replicate, virtLaunch, segments_image_one]
    decide
  have hkmain : kmainBlocks 2 (List.replicate 2 virtLaunch) = 5 ∧
      kmainPages 2 (List.replicate 2 virtLaunch) ≤ 110 := by
    have hcaches : Kvmalloc.blocksFor (2 * 32) = 0 ∧ Kvmalloc.pagesFor (2 * 32) = 1 := by decide
    have hlen := List.length_replicate (n := 2) (a := virtLaunch)
    simp only [kmainBlocks, kmainPages, pagesWithStructs]
    omega
  have hcard := card_lacking_le virtLayout.calls
  have hpieces := pieces_virtLayout
  exact ⟨bd, howns, (hstock 4 2 (by decide)).mono hneed.1.le (by omega),
    (hstock 5 2 (by decide)).mono hkmain.1.le (by omega)⟩

/-- Code that calls from 0x80000000 and leaves the number of the request in what it asked for. -/
def virtClient : Client := ⟨fun _ => 0x80000000, fun n _ => n % 2 ^ 64⟩

theorem virtClient_words : virtClient.Words :=
  ⟨fun _ => (by decide : 0x80000000 < 2 ^ 64), fun n _ => Nat.mod_lt n (by decide)⟩

/-- The board comes up with two harts and two processes. -/
theorem kmain_begins_virt : ∃ (bd : State) (kroot rq : ℕ) (qs : List (ℕ × ℕ)) (k : Arena State),
    kmain virtClient (buddy virt 0) 0x80010000 virtLayout 2 (List.replicate 2 virtLaunch)
      (fun _ => ⟨0, 0, 0, fun _ => 0⟩) ⟨fun _ => 0, bd, [], []⟩ =
        .done ⟨kroot, rq, qs.map fun q => some (satpOf q.1)⟩ k ∧
    (∃ m, Shown k.space Set.univ m) ∧ KernelSpace virtLayout kroot k.space.mem ∧
    List.Forall₂ (fun x q => Begins { image with walk := sv39Walk }
      (tableWords k.space q.1 ∪ tableWords k.space kroot)
      (Launch.found virtLayout kroot rq x).1 x.2 q.1 q.2 k.space) (List.replicate 2 virtLaunch)
      qs := by
  obtain ⟨bd, howns, -, hstock⟩ := virt_kmain_stock
  exact ⟨bd, kmain_begins (tended_grants 0 virt_machine virt_fits)
    (tended_aligned 0 virt_machine virt_blockAligned)
    (tended_low virt_machine virt_fits (by decide)) virtLayout_proper
    (s := ⟨fun _ => 0, bd, [], []⟩) howns virtLaunch_good virt_free linked_virt hstock
    (by decide) (by decide) virtClient_words (by decide)
    (fun x hx => by rw [List.eq_of_mem_replicate hx]; decide) (fun _ => Nat.two_pow_pos 64)
    fun x hx => by
      rw [List.eq_of_mem_replicate hx]
      exact ⟨by decide, by decide, by decide, by decide, by decide⟩⟩

/-- The handler is 12284 bytes before the trampoline, and the kernel maps nothing there. -/
theorem kmain_traps_strand_virt : ∃ (bd : State) (kroot : ℕ) (s₁ s₂ : Space State)
    (qs : List (ℕ × ℕ)),
    kvmInit (buddy virt 0) virtLayout ⟨fun _ => 0, bd, [], []⟩ = .done kroot s₁ ∧
    spawnAll (buddy virt 0) ((List.replicate 2 virtLaunch).map (Layout.launch virtLayout kroot))
      s₁ = .done (qs.map fun q => some (satpOf q.1)) s₂ ∧
    List.Forall₂ (fun x q => ∀ K W h m f, tableWords s₂ kroot ⊆ K → K ⊆ W →
      Shown s₂ (tableWords s₂ kroot) m → Ready { image with walk := sv39Walk } K W lifted
        (.spawned (Layout.launch virtLayout kroot x).1 q.1 q.2) h m →
      Leads { image with walk := sv39Walk } W (fun h₁ m₁ => h₁.pc = word x.1.strapRouter ∧
        h₁.mode = .supervisor ∧ Strands { image with walk := sv39Walk } K h₁ m₁) (h.trapS f) m)
      (List.replicate 2 virtLaunch) qs := by
  obtain ⟨bd, howns, hstock, -⟩ := virt_kmain_stock
  have hplace : HandlerPlace virtLayout { image with walk := sv39Walk } 0x80000004 := by
    refine ⟨rfl, by decide, fun a ha => ?_⟩
    have ha : ((a ∈ Set.Ico 0x10000000 (0x10000000 + 4096) ∨
        a ∈ Set.Ico 0x2000000 (0x2000000 + 0x10000)) ∨
        a ∈ Set.Ico 0xC000000 (0xC000000 + 0x400000)) ∨
        a ∈ Set.Ico 0x80000000 0x88000000 := ha
    simp only [Set.mem_Ico] at ha
    change a + (0x80003000 - 0x80000004) < 0x3FFFFFF000
    omega
  obtain ⟨kroot, s₁, qs, s₂, hrun, hspawn, hall⟩ := kmain_traps_strand
    (tended_grants 0 virt_machine virt_fits) (tended_aligned 0 virt_machine virt_blockAligned)
    (tended_low virt_machine virt_fits (by decide)) virtLayout_proper
    (s := ⟨fun _ => 0, bd, [], []⟩) howns virtLaunch_good hstock linked_virt hplace
  exact ⟨bd, kroot, s₁, s₂, qs, hrun, hspawn, hall⟩

end RexOS.Assembly
