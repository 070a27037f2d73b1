import RexOS.Assembly.Tables
import RexOS.Loader.Series

/-!
# From `spawn_process` to user mode

What `spawn_process` leaves in memory is what the trampoline needs: the first switch to the process
leads to the entry of its image in user mode, with the stack pointer at the end of the user stack
and the other registers zero, and from then on the process is ready for its traps.
-/

namespace RexOS.Assembly

open Riscv RexOS.Kalloc RexOS.Paging RexOS.Loader Radix Bits

variable {β : Type} {A : PageAlloc β} {Owns : β → List Grant → Prop} {site : Site}
  {binary : ℕ → UInt8} {m₀ : ℕ → ℕ} {root stack : ℕ} {s : Space β} {m : Memory} {M : List Grant}
  {p : Platform Symbol} {K W S : Set Word}

/-- What the tables of the kernel say about its text, the trampoline and RAM, in words `K`. -/
structure KernelMaps (p : Platform Symbol) (K S : Set Word) (ram : Set ℕ) (ksatp : Word)
    (m : Memory) : Prop where
  fetched : Fetched p K lifted (lift p) .supervisor ksatp m
  text : Fetched p K S 0 .supervisor ksatp m
  data : ∀ x, x ≠ .fetch → ∀ a ∈ ram, Maps p K x .supervisor ksatp m (word a) (word a)

/-- Memory is as a routine has left it, at some words. -/
def Shown (s : Space β) (X : Set Word) (m : Memory) : Prop := ∀ w ∈ X, (m w).toNat = s.mem w.toNat

/-- Fewer words are shown as well. -/
theorem Shown.mono {X Y : Set Word} (h : Shown s X m) (hY : Y ⊆ X) : Shown s Y m :=
  fun w hw => h w (hY hw)

/-- A word that is shown is that of memory. -/
theorem Shown.word_eq {X : Set Word} (h : Shown s X m) {w : Word} (hw : w ∈ X) :
    m w = word (s.mem w.toNat) := by
  rw [← h w hw, word_toNat]

/-- Tables that are shown are in memory. -/
theorem Shown.inMemory (h : Shown s (tableWords s root) m)
    (hlt : ∀ a, s.OnTable root a → a < 2 ^ 64) : InMemory s root m := by
  intro a ha
  have hon : word a ∈ tableWords s root := by
    change s.OnTable root (word a).toNat
    rwa [toNat_word (hlt a ha)]
  have hword := h _ hon
  rw [toNat_word (hlt a ha)] at hword
  exact ⟨hlt a ha, hword⟩

/-- The words of a trap frame. -/
def frameWords (stack : ℕ) : Set Word := {w | ∃ o ∈ places 39, w = word (trapframeAt stack) + o}

/-- The place of a word of the frame. -/
theorem frame_place (hlow : stack < 2 ^ 56) {i : ℕ} (hi : i < 39) :
    word (trapframeAt stack) + 8 * word i = word (entryAt (trapframeAt stack) i) := by
  have htf : trapframeAt stack = stack + 3784 := by
    rw [trapframeAt, wrap_of_lt (by omega), trapframeSize, wrapSub_of_le (by omega) (by omega)]
    omega
  rw [entryAt_trapframe hlow hi, htf, word_add (stack + 3784), word_mul]
  rfl

/-- The trap frame is in the page of the stack. -/
theorem frameWords_subset (hlow : stack < 2 ^ 56) {w : Word} (hw : w ∈ frameWords stack) :
    w.toNat ∈ (Grant.mk stack 0).extent := by
  obtain ⟨o, ho, rfl⟩ := hw
  obtain ⟨i, hi, rfl⟩ := List.mem_map.mp ho
  have hi : i < 39 := List.mem_range.mp hi
  have hslot : entryAt (trapframeAt stack) i < 2 ^ 64 := by
    rw [entryAt_trapframe hlow hi]
    omega
  change (word (trapframeAt stack) + 8 * word i).toNat ∈ _
  rw [frame_place hlow hi, toNat_word hslot]
  exact trapframe_mem hlow hi

/-- Every word of the frame. -/
theorem frame_word (h : Spawned Owns site binary m₀ root stack s)
    (hm : Shown s (frameWords stack) m) {i : ℕ} (hi : i < 39) :
    m (word (trapframeAt stack) + 8 * word i) = word (frameWord site binary root stack i) := by
  have hlow := h.low
  have hplace : 8 * word i ∈ places 39 := List.mem_map.mpr ⟨i, List.mem_range.mpr hi, rfl⟩
  rw [hm.word_eq ⟨_, hplace, rfl⟩, frame_place hlow hi, toNat_word, h.frame i hi]
  rw [entryAt_trapframe hlow hi]
  omega

/-- The field of a process that was spawned. -/
theorem frame_field (h : Spawned Owns site binary m₀ root stack s)
    (hm : Shown s (frameWords stack) m) {i v : ℕ} {o : Word} (hi : i < 39) (ho : o = 8 * word i)
    (hv : frameWord site binary root stack i = v) :
    m (word (trapframeAt stack) + o) = word v := by
  rw [ho, frame_word h hm hi, hv]

/-! ## The tables and the frame -/

/-- Words are subtracted as numbers are. -/
theorem word_sub {a b : ℕ} (hle : b ≤ a) : word (a - b) = word a - word b := by
  rw [eq_sub_iff_add_eq, ← word_add, Nat.sub_add_cancel hle]

/-- The tables of a process are in force. -/
theorem inForce_of_housed (h : Housed Owns site m₀ root stack s M)
    (hm : Shown s (tableWords s root) m) (hwalk : p.walk = sv39Walk) (hK : tableWords s root ⊆ K) :
    InForce p K s root (word (satpOf root)) m := by
  have hroot : root < 2 ^ 64 :=
    (h.tables root ⟨[], root, 0, trail_cons.mpr ⟨by decide, trail_nil⟩, rfl, rfl⟩).1
  have hlt : satpOf root < 2 ^ 64 := by
    refine Nat.or_lt_two_pow (by decide) ?_
    rw [Nat.shiftRight_eq_div_pow]
    omega
  refine ⟨hm.inMemory fun a ha => (h.tables a ha).1, hK, hwalk, ?_, ?_⟩
  · have hge : 0x8000000000000000 ≤ satpOf root := Nat.left_le_or
    rw [toNat_word hlt]
    omega
  · rw [toNat_word hlt, h.satp]

/-- The process as `spawn_process` has made it. -/
def Proc.spawned (site : Site) (root stack : ℕ) : Proc where
  tf := word (trapframeAt stack)
  satp := word (satpOf root)
  kernelSatp := word (satpOf site.rootTable)
  kernelSp := word (trapframeAt stack)
  kernelTrap := word site.strapRouter
  kernelTp := word site.runqueue

/-- The blocks of the allocator lie in RAM and apart from the tables of the kernel. -/
def Beside (Owns : β → List Grant → Prop) (K : Set Word) (ram : Set ℕ) : Prop :=
  ∀ b L, Owns b L → ∀ g ∈ L, g.extent ⊆ ram ∧ ∀ a ∈ K, a.toNat ∉ g.extent

/-- The places of a frame. -/
theorem mem_places {o : Word} {n : ℕ} (ho : o ∈ places n) : ∃ i < n, o = 8 * word i := by
  obtain ⟨i, hi, rfl⟩ := List.mem_map.mp ho
  exact ⟨i, List.mem_range.mp hi, rfl⟩

section Kept

variable {Kk : Set Word} {ram : Set ℕ} (hlow : stack < 2 ^ 56)
  (h : Housed Owns site m₀ root stack s M) (hm : Shown s (tableWords s root ∪ frameWords stack) m)
  (hwalk : p.walk = sv39Walk) (ht : 4096 ∣ site.userTrampoline)
  (hsym : p.symbol .userTrampoline = word site.userTrampoline)
  (hker : KernelMaps p Kk S ram (word (satpOf site.rootTable)) m) (hb : Beside Owns Kk ram)
  (hW : ∀ o ∈ places 39, word (trapframeAt stack) + o ∈ W)

include hlow h hm hwalk ht hsym hker hb hW

/-- All that the trampoline needs is mapped. -/
theorem mapped_spawned : Mapped p (tableWords s root ∪ Kk) W lifted m (word (satpOf root))
    (word (satpOf site.rootTable)) (word (trapframeAt stack)) := by
  have hforce : InForce p (tableWords s root ∪ Kk) s root (word (satpOf root)) m :=
    inForce_of_housed h (hm.mono Set.subset_union_left) hwalk Set.subset_union_left
  obtain ⟨hd, hgrant⟩ := h.granted
  obtain ⟨hram, hapart⟩ := hb _ M h.owns _ hgrant
  have hplace : ∀ i < 39, entryAt (trapframeAt stack) i ∈ (Grant.mk stack 0).extent :=
    fun i hi => trapframe_mem hlow hi
  have hout : ∀ o ∈ places 39, word (trapframeAt stack) + o ∉ tableWords s root ∪ Kk := by
    intro o ho
    obtain ⟨i, hi, rfl⟩ := mem_places ho
    have hlt : entryAt (trapframeAt stack) i < 2 ^ 64 := by
      rw [entryAt_trapframe hlow hi]
      omega
    rw [frame_place hlow hi]
    rintro (hu | hk)
    · have hu : s.OnTable root (word (entryAt (trapframeAt stack) i)).toNat := hu
      rw [toNat_word hlt] at hu
      exact (h.tables _ hu).2.1 (hplace i hi)
    · have hk := hapart _ hk
      rw [toNat_word hlt] at hk
      exact hk (hplace i hi)
  refine ⟨fun va hva => ?_, fun va hva => (hker.fetched va hva).mono Set.subset_union_right,
    ⟨fun x hx o ho => ?_, hW, hout⟩, ⟨fun x hx o ho => ?_, hW, hout⟩⟩
  · have hge : 0x3FFFFFF000 ≤ va.toNat := hva.1
    have hphys : word (site.userTrampoline / 4096 * 4096 + (va.toNat - 0x3FFFFFF000)) =
        va - lift p := by
      rw [Nat.div_mul_cancel ht, word_add, word_sub hge, word_toNat, lift, hsym, trampolineVa,
        sub_sub_eq_add_sub, add_comm va, add_sub_assoc]
      rfl
    rw [← hphys]
    exact hforce.maps (by decide) (h.code _ hva) (by decide)
  · obtain ⟨i, hi, rfl⟩ := mem_places ho
    have hva : (frameVa + 8 * word i).toNat = 0x3FFFFFEEC8 + 8 * i := by
      have hsum : frameVa + 8 * word i = word (0x3FFFFFEEC8 + 8 * i) := by
        rw [word_add, word_mul]
        rfl
      rw [hsum, toNat_word (by omega)]
    refine ⟨by rw [hva]; omega, ?_⟩
    have hphys : stack + (0x3FFFFFEEC8 + 8 * i - 0x3FFFFFE000) = entryAt (trapframeAt stack) i := by
      rw [entryAt_trapframe hlow hi]
      omega
    have hit := h.kstack (0x3FFFFFEEC8 + 8 * i) ⟨by omega, by omega⟩
    rw [hphys, ← hva] at hit
    rw [frame_place hlow hi]
    refine hforce.maps (by decide) hit ?_
    cases x <;> first | rfl | exact absurd rfl hx
  · obtain ⟨i, hi, rfl⟩ := mem_places ho
    rw [frame_place hlow hi]
    refine ⟨?_, (hker.data x hx _ (hram (hplace i hi))).mono Set.subset_union_right⟩
    rw [entryAt_trapframe hlow hi, toNat_word (by omega)]
    omega

/-- All that the trampoline needs of a process is there. -/
theorem kept_spawned (hs : Spawned Owns site binary m₀ root stack s) :
    Kept p (tableWords s root ∪ Kk) W lifted (.spawned site root stack) m where
  mapped := mapped_spawned hlow h hm hwalk ht hsym hker hb hW
  fields := by
    have hm := hm.mono Set.subset_union_right
    refine ⟨frame_field hs hm (i := 34) (by decide) (by decide) ?_,
      frame_field hs hm (i := 35) (by decide) (by decide) ?_,
      frame_field hs hm (i := 36) (by decide) (by decide) ?_,
      frame_field hs hm (i := 37) (by decide) (by decide) ?_,
      frame_field hs hm (i := 38) (by decide) (by decide) ?_⟩
    all_goals simp [frameWord]
  shut m' hm' x va pa hpa := by
    have hforce : InForce p (tableWords s root ∪ Kk) s root (word (satpOf root)) m :=
      inForce_of_housed h (hm.mono Set.subset_union_left) hwalk Set.subset_union_left
    have hwalk' : p.walk x .user (word (satpOf root)) m' va = some pa := hpa
    rw [hforce.walk_eq hm'] at hwalk'
    obtain ⟨hit, hhit, hphys⟩ := Option.bind_eq_some_iff.mp hwalk'
    split at hphys
    · rename_i hperm
      obtain rfl := Option.some.inj hphys
      have hu : hit.flags.testBit 4 = true := by
        simp only [permits, Bool.and_eq_true] at hperm
        simpa using hperm.1.2
      obtain ⟨hlt, htable, hstack, g, hg, hin⟩ := h.user _ hit hhit hu
      have hnat := toNat_word hlt
      refine ⟨?_, fun o ho he => ?_⟩
      · rintro (ht | hk)
        · have ht : s.OnTable root (word hit.phys).toNat := ht
          exact htable (hnat ▸ ht)
        · exact (hb _ M h.owns g hg).2 _ hk (hnat.symm ▸ hin)
      · obtain ⟨i, hi, rfl⟩ := mem_places ho
        have htf : (Proc.spawned site root stack).tf = word (trapframeAt stack) := rfl
        rw [htf, frame_place hlow hi] at he
        have hplace := trapframe_mem hlow hi
        have hslot : entryAt (trapframeAt stack) i < 2 ^ 64 := by
          rw [entryAt_trapframe hlow hi]
          omega
        have he := congrArg BitVec.toNat he
        rw [hnat, toNat_word hslot] at he
        exact hstack (he ▸ hplace)
    · cases hphys

end Kept

/-! ## The first switch to a process -/

/-- The registers of a process that has not run. -/
def freshReg (r : Reg) : Word := if r = sp then 0x80000000 else 0

/-- The frame of a new process holds fresh registers and its entry. -/
theorem holds_spawned (h : Spawned Owns site binary m₀ root stack s)
    (hm : Shown s (frameWords stack) m) :
    Holds m (word (trapframeAt stack)) freshReg (word (Bytes.load binary 24 8))
      (word site.sstatusVal) where
  regs r := by
    have hr : (r : ℕ) < 32 := r.isLt
    have hword : word (frameWord site binary root stack r) = freshReg r := by
      rw [frameWord, freshReg]
      by_cases h2 : r = sp
      · rw [h2]
        rfl
      · have h2' : (r : ℕ) ≠ 2 := fun he => h2 (Fin.ext he)
        rw [if_neg h2, if_neg h2', if_neg (by omega), if_neg (by omega), if_neg (by omega),
          if_neg (by omega), if_neg (by omega), if_neg (by omega), if_neg (by omega)]
        rfl
    rw [← hword, ← frame_word h hm (by omega : (r : ℕ) < 39)]
    rfl
  pc := frame_field h hm (i := 32) (by decide) (by decide) (by simp [frameWord])
  status := frame_field h hm (i := 33) (by decide) (by decide) (by simp [frameWord])

/-- The kernel as `spawn_process` finds it: its text and its tables. -/
structure KernelSite (site : Site) (p : Platform Symbol) (Kk S : Set Word) (ram : Set ℕ)
    (back : Word) (s : Space β) : Prop where
  walk : p.walk = sv39Walk
  linked : p.symbol .userTrampoline = word site.userTrampoline
  aligned : 4096 ∣ site.userTrampoline
  trampoline : TrampolineText p lifted back
  bootstrap : ∃ e, Text p S 0 (p.symbol .processBootstrap) processBootstrap e
  maps : ∀ m, Shown s Kk m → KernelMaps p Kk S ram (word (satpOf site.rootTable)) m
  /-- The process begins in user mode. -/
  status : site.sstatusVal.testBit 8 = false

/-- The context that `spawn_process` has made for the first switch. -/
structure Bootstrapped (p : Platform Symbol) (site : Site) (stack : ℕ) (h : Hart) : Prop where
  pc : h.pc = p.symbol .processBootstrap
  mode : h.mode = .supervisor
  satp : h.csr .satp = word (satpOf site.rootTable)
  stack : h.get sp = word (trapframeAt stack)

/-- The process begins. -/
structure Begun (site : Site) (binary : ℕ → UInt8) (h : Hart) : Prop where
  pc : h.pc = word (Bytes.load binary 24 8)
  regs : h.get = freshReg
  sie : h.sie = site.sstatusVal.testBit 5

/-- As long as its frame and the tables in `K` are as they are in `s`, the first switch to a
process leads to its beginning, whatever the other harts do meanwhile, and there it is ready for
its traps. -/
def Begins (p : Platform Symbol) (K : Set Word) (site : Site) (binary : ℕ → UInt8) (root stack : ℕ)
    (s : Space β) : Prop :=
  ∀ W h m, Shown s (K ∪ frameWords stack) m → Bootstrapped p site stack h →
    K ∪ frameWords stack ⊆ W →
    Leads p W (fun h₁ m₁ => Begun site binary h₁ ∧
      Ready p K W lifted (.spawned site root stack) h₁ m₁) h m

/-- The bits of a word are those of the number. -/
theorem getLsbD_word {n i : ℕ} (hi : i < 64) : (word n).getLsbD i = n.testBit i := by
  rw [word, BitVec.getLsbD_ofNat]
  simp [hi]

/-- A process begins at any later time, as long as its tables and its kernel stack are as they
were. -/
theorem Spawned.begins {Kk : Set Word} {ram : Set ℕ} {back : Word} {s' : Space β}
    (hA : A.Grants Owns) (hlow : ∀ b L, Owns b L → Low L) (hsep : Separate binary)
    (hb : Beside Owns Kk ram) (hsite : KernelSite site p Kk S ram back s')
    (hs : Spawned Owns site binary m₀ root stack s)
    (he : ∀ a, s.OnTable root a ∨ a ∈ (Grant.mk stack 0).extent → s'.mem a = s.mem a) :
    Begins p (tableWords s root ∪ Kk) site binary root stack s' := by
  intro W h m hm hboot hsub
  have hK : tableWords s root ∪ Kk ⊆ W := Set.subset_union_left.trans hsub
  have hW : ∀ o ∈ places 39, word (trapframeAt stack) + o ∈ W :=
    fun o ho => hsub (Or.inr ⟨o, ho, rfl⟩)
  have hmaps := hsite.maps m (hm.mono fun w hw => Or.inl (Or.inr hw))
  have hown : Shown s (tableWords s root ∪ frameWords stack) m := by
    intro w hw
    rw [hm w (Set.union_subset_union_left _ Set.subset_union_left hw)]
    exact he _ (hw.imp_right (frameWords_subset hs.low))
  obtain ⟨M, hhoused⟩ := hs.housed hA hlow hsep
  have hkept := kept_spawned hs.low hhoused hown hsite.walk hsite.aligned
    hsite.linked hmaps hb hW hs
  obtain ⟨e, hboot'⟩ := hsite.bootstrap
  have hfetch : Fetched p (tableWords s root ∪ Kk) S 0 .supervisor
      (word (satpOf site.rootTable)) m := fun va hva =>
    (hmaps.text va hva).mono Set.subset_union_right
  refine (processBootstrap_leads hK hsite.trampoline hboot' hfetch hkept.mapped hboot.pc hboot.mode
    hboot.satp hboot.stack (holds_spawned hs (hown.mono Set.subset_union_right))
    hkept.fields.userSatp (Set.eqOn_refl _ _)).mono fun h₁ m₁ hend => ?_
  obtain ⟨hc, hm₁⟩ := hend
  refine ⟨⟨hc.pc, ?_, ?_⟩, ⟨hkept.interfere hK hm₁, ?_, hc.satp, hc.vector, hc.scratch⟩⟩
  · funext r
    by_cases h0 : r = 0
    · rw [h0]
      rfl
    · exact hc.regs r h0
  · rw [hc.sie, getLsbD_word (by decide)]
  · rw [hc.mode, getLsbD_word (by decide), hsite.status]
    rfl

end RexOS.Assembly
