import RexOS.Assembly.Spawned

/-!
# The kernel's tables under the harts

The tables of `kvm_init` have what the trampoline and `spawn_process` need. They do not have the
address that the trampoline leaves in `stvec`: it is computed from where the trampoline runs, not
from where the handler was linked. A trap of the kernel on behalf of a process is therefore never
handled.
-/

namespace RexOS.Assembly

open Riscv RexOS.Kalloc RexOS.Paging RexOS.Loader Radix Bits

variable {β : Type} {A : PageAlloc β} {Owns : β → List Grant → Prop} {root : ℕ} {s : Space β}
  {L : List Grant} {l : Layout} {m m' : Memory} {p : Platform Symbol} {K W S : Set Word}

/-- The text of the kernel. -/
def Layout.text (l : Layout) : Set Word := {va | l.textStart ≤ va.toNat ∧ va.toNat < l.textEnd}

/-- RAM behind the image of the kernel. -/
def Layout.free (l : Layout) : Set ℕ := Set.Ico l.bssEnd (l.ram.baseAddr + l.ram.totalSize)

/-- Tables that are shown are in force. -/
theorem inForce_of_tree (hA : A.Grants Owns) (ht : Tree Owns root s L) (hL : Low L)
    (hm : Shown s (tableWords s root) m) (hwalk : p.walk = sv39Walk) (hK : tableWords s root ⊆ K) :
    InForce p K s root (word (satpOf root)) m := by
  have hroot : (⟨root, 0⟩ : Grant) ∈ L := ht.held [] root trail_nil rfl
  have hpage := (hA.blocks ht.owns).single_page hroot
  have hlt : satpOf root < 2 ^ 64 := by
    refine Nat.or_lt_two_pow (by decide) ?_
    rw [Nat.shiftRight_eq_div_pow]
    omega
  refine ⟨hm.inMemory fun a ha => ?_, hK, hwalk, ?_, ?_⟩
  · obtain ⟨q, t, i, hq, hu, rfl⟩ := ha
    obtain ⟨hi, hq⟩ := trail_cons.mp hq
    have hend := (ht.page hA hq hu).2.2
    omega
  · have hge : 0x8000000000000000 ≤ satpOf root := Nat.left_le_or
    rw [toNat_word hlt]
    omega
  · rw [toNat_word hlt, satpTable_satpOf hpage.1 (hL _ hroot)]

/-- The flags of a mapping of the kernel. -/
theorem flags_kernelCall (va pa n perm : ℕ) :
    (⟨false, va, pa, n, perm⟩ : MapCall).flags =
      0x41 + perm + if perm.testBit 2 then 0x80 else 0 := rfl

/-- The text, RAM and the trampoline in a table that translates the calls of `kvm_init`. -/
theorem kernelMaps_of_translates (hl : l.Proper) (htr : Translates root s.mem l.calls)
    (hf : InForce p K s root (word (satpOf root)) m)
    (hsym : p.symbol .userTrampoline = word l.userTrampoline) :
    KernelMaps p K (Layout.text l) (Layout.free l) (word (satpOf root)) m := by
  have hend := hl.ordered
  have hsize := hl.size
  refine ⟨fun va hva => ?_, fun va hva => ?_, fun x hx a ha => ?_⟩
  · have hge : 0x3FFFFFF000 ≤ va.toNat := hva.1
    have hlt : va.toNat < 0x4000000000 := hva.2
    have hit := htr.inside ⟨false, 0x3FFFFFF000, l.userTrampoline, 4096, 8⟩
      (by simp [Layout.calls]) va.toNat ⟨hge, by dsimp only; omega⟩
    have hphys : word (l.userTrampoline + (va.toNat - 0x3FFFFFF000)) = va - lift p := by
      rw [word_add, word_sub hge, word_toNat, lift, hsym, trampolineVa, sub_sub_eq_add_sub,
        add_comm va, add_sub_assoc]
      rfl
    rw [← hphys]
    exact hf.maps (by decide) hit (by rw [flags_kernelCall]; decide)
  · have hva : l.textStart ≤ va.toNat ∧ va.toNat < l.textEnd := hva
    have hit := htr.inside ⟨false, l.textStart, l.textStart, l.textEnd - l.textStart, 10⟩
      (by simp [hl.calls_eq]) va.toNat ⟨hva.1, by dsimp only; omega⟩
    dsimp only at hit
    rw [Nat.add_sub_of_le hva.1] at hit
    rw [sub_zero]
    have hmaps : Maps p K .fetch .supervisor (word (satpOf root)) m va (word va.toNat) :=
      hf.maps (by decide) hit (by rw [flags_kernelCall]; decide)
    rwa [word_toNat] at hmaps
  · have ha : l.bssEnd ≤ a ∧ a < l.ram.baseAddr + l.ram.totalSize := ha
    have hit := htr.inside
      ⟨false, l.bssEnd, l.bssEnd, l.ram.baseAddr + l.ram.totalSize - l.bssEnd, 6⟩
      (by simp [hl.calls_eq]) a ⟨ha.1, by dsimp only; omega⟩
    dsimp only at hit
    rw [Nat.add_sub_of_le ha.1] at hit
    refine hf.maps (by decide) (by rwa [toNat_word (by omega)]) ?_
    rw [flags_kernelCall]
    cases x <;> first | exact absurd rfl hx | decide

/-- `kvm_init` returns on any layout, and what the hardware makes of its tables is what the kernel
needs to run processes: its text, the trampoline and the RAM behind the image are there, whatever is
written to memory apart from the tables. -/
theorem kvmInit_kernelMaps (hA : A.Grants Owns) (hlow : ∀ b L, Owns b L → Low L)
    (hl : l.Proper) (hs : Owns s.pages L) (hroom : A.Room ((lacking l.calls).card + 1) s.pages) :
    ∃ root s' L', kvmInit A l s = .done root s' ∧ Tree Owns root s' L' ∧
      KernelSpace l root s'.mem ∧
      ∀ p m, p.walk = sv39Walk → p.symbol .userTrampoline = word l.userTrampoline →
        Shown s' (tableWords s' root) m → KernelMaps p (tableWords s' root) (Layout.text l)
          (Layout.free l) (word (satpOf root)) m := by
  obtain ⟨root, b, hb, hroom⟩ := hroom
  have hblank := blank_of_kalloc hA hs hb
  have hz := zeroed_of_granted (hA.blocks hblank.owns) hblank.held
    { s with pages := b, given := root :: s.given }
  have hroom : A.Room (lacking l.calls).card
      (zeroTable root { s with pages := b, given := root :: s.given }).pages := by
    rw [hz.pages]
    exact hroom
  obtain ⟨s', L', hrun, hb', hl'⟩ := mapAll_returns hA [] hblank.built hblank.laid (by simp)
    hl.plain hl.disjoint hroom fun c hc x hx q hq hne hnil =>
      Or.inr (mem_lacking hc hx hq hne hnil)
  have htr := hl'.translates hA hb'.toTree (hlow _ _ hb'.owns) hl.plain
  have hkalloc : kallocPage A s = .done root { s with pages := b, given := root :: s.given } := by
    unfold kallocPage
    rw [hb]
    rfl
  have h0 : root ≠ 0 := ((hA.blocks hblank.owns).single_page hblank.held).2.1.ne'
  refine ⟨root, s', L', ?_, hb'.toTree, hl.kernelSpace htr, fun p m hwalk hsym hm => ?_⟩
  · unfold kvmInit
    rw [hkalloc, Outcome.bind_done, if_neg h0, hrun, Outcome.bind_done]
  · exact kernelMaps_of_translates hl htr
      (inForce_of_tree hA hb'.toTree (hlow _ _ hb'.owns) hm hwalk subset_rfl) hsym

/-! ## The handler as the trampoline names it -/

/-- The handler of the kernel lies before the trampoline, and what is mapped to itself ends by more
than their distance below the page where the trampoline runs. -/
structure HandlerPlace (l : Layout) (p : Platform Symbol) (handler : ℕ) : Prop where
  linked : p.symbol .smodeTrapHandler = word handler
  text : l.textStart ≤ handler ∧ handler < l.userTrampoline
  room : ∀ a ∈ l.same, a + (l.userTrampoline - handler) < 0x3FFFFFF000

/-- The address that the trampoline leaves in `stvec`. -/
theorem vector_eq {handler : ℕ} (hl : l.Proper) (hh : HandlerPlace l p handler)
    (hsym : p.symbol .userTrampoline = word l.userTrampoline) :
    p.symbol .smodeTrapHandler + lift p =
      word (0x3FFFFFF000 - (l.userTrampoline - handler)) := by
  have hord := hl.ordered
  have hsize := hl.size
  have htramp := hl.trampoline
  have htext := hh.text
  rw [hh.linked, lift, hsym, word_sub (by omega), word_sub htext.2.le, trampolineVa]
  rw [sub_sub_eq_add_sub, add_comm (word 0x3FFFFFF000), add_sub_assoc]
  rfl

/-- The tables of the kernel have nothing there. -/
theorem vector_unmapped {handler : ℕ} {satp : Word} (hl : l.Proper)
    (hspace : KernelSpace l root s.mem) (hf : InForce p K s root satp m)
    (hh : HandlerPlace l p handler) (hsym : p.symbol .userTrampoline = word l.userTrampoline) :
    ∀ m', Set.EqOn m' m K →
      p.walk .fetch .supervisor satp m' (p.symbol .smodeTrapHandler + lift p) = none := by
  intro m' hm'
  have hord := hl.ordered
  have hsize := hl.size
  have htramp := hl.trampoline
  have htext := hh.text
  have hnone : sv39 s.mem root (0x3FFFFFF000 - (l.userTrampoline - handler)) = none := by
    refine hspace.nothing _ (fun ha => ?_) fun ha => ?_
    · have hroom := hh.room _ ha
      omega
    · have hge : 0x3FFFFFF000 ≤ 0x3FFFFFF000 - (l.userTrampoline - handler) := ha.1
      omega
  rw [hf.walk_eq hm', vector_eq hl hh hsym, toNat_word (by omega), hnone]
  rfl

/-- With `stvec` and `satp` as they are, a trap of the kernel is never handled: in any course that
begins with it each turn of the hart is one more page fault at `stvec`, and no register changes. -/
def Strands (p : Platform Symbol) (K : Set Word) (h : Hart) (m : Memory) : Prop :=
  ∀ h₁ f (s : ℕ → Hart × Memory), h₁.csr .stvec = h.csr .stvec → h₁.csr .satp = h.csr .satp →
    (s 0).1 = h₁.trapS f → Set.EqOn (s 0).2 m K → Turns p K s → ∀ k, AtHandler h₁ (s k).1 ∧
      p.step (s k).1 (s k).2 = .error ⟨12, h.csr .stvec⟩

/-- Each trap of a process leads to its router with such an `stvec`. -/
theorem trap_strands {q : Proc} {h : Hart} {f : Fault} {back : Word} (hK : K ⊆ W)
    (ht : TrampolineText p S back) (hr : Ready p K W S q h m)
    (hun : ∀ m', Set.EqOn m' m K →
      p.walk .fetch .supervisor q.kernelSatp m' (p.symbol .smodeTrapHandler + lift p) = none) :
    Leads p W (fun h₁ m₁ =>
      UserCalled p f q.kernelSatp q.kernelSp q.kernelTrap q.kernelTp back h₁ ∧ Strands p K h₁ m₁)
      (h.trapS f) m := by
  refine (trampolineEntry_leads hK hr.vector hr.scratch hr.satp ht hr.mapped hr.fields).mono
    fun h₁ m₁ hend => ?_
  obtain ⟨hcall, -, -, hm₁⟩ := hend
  refine ⟨hcall, fun h₂ f' s hvec hsatp h₀ hm hs k => ?_⟩
  have hvec := hvec.trans hcall.vector
  rw [hcall.vector, ← hvec]
  refine hs.lost (fun m' hm' => ?_) (h₀ ▸ atHandler_trapS h₂ f') hm k
  rw [hsatp.trans hcall.satp, hvec]
  exact hun m' (hm'.trans hm₁)

end RexOS.Assembly
