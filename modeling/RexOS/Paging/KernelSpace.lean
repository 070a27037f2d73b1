import RexOS.Paging.UserTable

/-!
# The address space of the kernel

`kvm_init` maps the devices, the sections of the kernel, the rest of RAM and the trampoline, for any
layout of these. The hardware then translates them as laid out and nothing else, and no page can be
both written and executed.
-/

namespace RexOS.Paging

open Bits RexOS.Kalloc Radix

variable {β : Type} {A : PageAlloc β} {Owns : β → List Grant → Prop} {root : Nat}
  {s s' : Space β} {L : List Grant} {c : MapCall}

/-- The symbols of the linker script, and what the device tree says of devices and RAM. -/
structure Layout where
  textStart : Nat
  textEnd : Nat
  rodataStart : Nat
  rodataEnd : Nat
  dataStart : Nat
  dataEnd : Nat
  bssStart : Nat
  bssEnd : Nat
  userTrampoline : Nat
  uart : Nat
  clint : Nat
  plic : Nat
  ram : Meta

namespace Layout

variable (l : Layout)

def ramEnd : Nat := wrap (l.ram.baseAddr + l.ram.totalSize)

/-- The calls of `kvm_map`, in order. -/
def calls : List MapCall :=
  [⟨false, l.uart, l.uart, 4096, 6⟩,
    ⟨false, l.clint, l.clint, 0x10000, 6⟩,
    ⟨false, l.plic, l.plic, 0x400000, 6⟩,
    ⟨false, l.textStart, l.textStart, wrapSub l.textEnd l.textStart, 10⟩,
    ⟨false, l.rodataStart, l.rodataStart, wrapSub l.rodataEnd l.rodataStart, 2⟩,
    ⟨false, l.dataStart, l.dataStart, wrapSub l.dataEnd l.dataStart, 6⟩,
    ⟨false, l.bssStart, l.bssStart, wrapSub l.bssEnd l.bssStart, 6⟩,
    -- what is left of RAM
    ⟨false, l.bssEnd, l.bssEnd, wrapSub l.ramEnd l.bssEnd, 6⟩,
    ⟨false, 0x3FFFFFF000, l.userTrampoline, 4096, 8⟩]

end Layout

/-- `kvm_init` up to the load of `satp`; the result is the root table. -/
def kvmInit (A : PageAlloc β) (l : Layout) (s : Space β) : Outcome (Space β) Nat :=
  (kallocPage A s).bind fun rootTable s =>
    if rootTable = 0 then .panic 112 0 s
    else (mapAll A rootTable l.calls (zeroTable rootTable s)).bind fun _ s => .done rootTable s

/-- Two ranges share no address. -/
def Apart (a m b n : Nat) : Prop := a + m ≤ b ∨ b + n ≤ a

/-- Calls that are apart map no page twice. -/
theorem disjoint_of_apart {d : MapCall} (hcd : Apart c.virAddr c.size d.virAddr d.size) :
    Disjoint c.range d.range := by
  refine Set.disjoint_left.mpr fun a ha hb => ?_
  have hc : c.virAddr ≤ a ∧ a < c.virAddr + c.size := ha
  have hd : d.virAddr ≤ a ∧ a < d.virAddr + d.size := hb
  unfold Apart at hcd
  omega

/-- W and X of the leaves of a call. -/
theorem MapCall.Plain.testBit_flags (hc : c.Plain) :
    c.flags.testBit 2 = c.perm.testBit 2 ∧ c.flags.testBit 3 = c.perm.testBit 3 := by
  have hall : ∀ p ∈ leafPerms, ∀ b : Bool,
      (0x41 + p + (if b then 0x10 else 0) + if p.testBit 2 then 0x80 else 0).testBit 2 =
        p.testBit 2 ∧
      (0x41 + p + (if b then 0x10 else 0) + if p.testBit 2 then 0x80 else 0).testBit 3 =
        p.testBit 3 := by decide
  exact hall c.perm hc.perm c.isUser

/-- Whole pages: the sections of the kernel one after the other in RAM, the trampoline in the first
one, and the devices apart from RAM and from one another. -/
structure Layout.Proper (l : Layout) : Prop where
  textStart : 4096 ∣ l.textStart
  text : l.textStart ≤ l.textEnd ∧ 4096 ∣ l.textEnd
  rodata : l.rodataStart = l.textEnd ∧ l.rodataStart ≤ l.rodataEnd ∧ 4096 ∣ l.rodataEnd
  data : l.dataStart = l.rodataEnd ∧ l.dataStart ≤ l.dataEnd ∧ 4096 ∣ l.dataEnd
  bss : l.bssStart = l.dataEnd ∧ l.bssStart ≤ l.bssEnd ∧ 4096 ∣ l.bssEnd
  trampoline : l.textStart ≤ l.userTrampoline ∧ l.userTrampoline + 4096 ≤ l.textEnd ∧
    4096 ∣ l.userTrampoline
  base : l.ram.baseAddr ≤ l.textStart ∧ 4096 ∣ l.ram.baseAddr
  size : l.bssEnd < l.ram.baseAddr + l.ram.totalSize ∧
    l.ram.baseAddr + l.ram.totalSize < 0x3FFFFFF000 ∧
    4096 ∣ l.ram.totalSize
  uart : 4096 ∣ l.uart ∧ l.uart + 4096 ≤ 0x3FFFFFF000
  clint : 4096 ∣ l.clint ∧ l.clint + 0x10000 ≤ 0x3FFFFFF000
  plic : 4096 ∣ l.plic ∧ l.plic + 0x400000 ≤ 0x3FFFFFF000
  devices : Apart l.uart 4096 l.clint 0x10000 ∧ Apart l.uart 4096 l.plic 0x400000 ∧
    Apart l.clint 0x10000 l.plic 0x400000
  outside : Apart l.uart 4096 l.ram.baseAddr l.ram.totalSize ∧
    Apart l.clint 0x10000 l.ram.baseAddr l.ram.totalSize ∧
      Apart l.plic 0x400000 l.ram.baseAddr l.ram.totalSize

/-- The addresses that are mapped to themselves. -/
def Layout.same (l : Layout) : Set Nat :=
  Set.Ico l.uart (l.uart + 4096) ∪ Set.Ico l.clint (l.clint + 0x10000) ∪ Set.Ico l.plic
    (l.plic + 0x400000) ∪
    Set.Ico l.textStart (l.ram.baseAddr + l.ram.totalSize)

/-- The page of the trampoline. -/
def trampolinePage : Set Nat := Set.Ico 0x3FFFFFF000 0x4000000000

/-- What the hardware makes of the table. -/
structure KernelSpace (l : Layout) (root : Nat) (mem : Nat → Nat) : Prop where
  same : ∀ a ∈ l.same, ∃ flags, sv39 mem root a = some ⟨a, flags⟩
  trampoline : ∀ a ∈ trampolinePage, ∃ flags,
    sv39 mem root a = some ⟨l.userTrampoline + (a - 0x3FFFFFF000), flags⟩
  nothing : ∀ a, a ∉ l.same → a ∉ trampolinePage → sv39 mem root a = none
  /-- Bit 2 is W and bit 3 is X. -/
  writeXorExecute : ∀ a b x y, sv39 mem root a = some x → sv39 mem root b = some y →
    x.flags.testBit 2 = true → y.flags.testBit 3 = true → x.phys / 4096 ≠ y.phys / 4096

namespace Layout.Proper

variable {l : Layout} (h : l.Proper)
include h

/-- RAM ends before the addresses wrap. -/
theorem ramEnd_eq : l.ramEnd = l.ram.baseAddr + l.ram.totalSize :=
  wrap_of_lt (by have := h.size; omega)

/-- The sections lie one after the other. -/
theorem ordered : l.textStart ≤ l.textEnd ∧ l.textEnd ≤ l.rodataEnd ∧ l.rodataEnd ≤ l.dataEnd ∧
    l.dataEnd ≤ l.bssEnd ∧ l.bssEnd < l.ram.baseAddr + l.ram.totalSize ∧
      l.ram.baseAddr ≤ l.textStart := by
  have htext := h.text
  have hrodata := h.rodata
  have hdata := h.data
  have hbss := h.bss
  have hsize := h.size
  have hbase := h.base
  omega

/-- The calls without registers that wrap. -/
theorem calls_eq : l.calls =
    [⟨false, l.uart, l.uart, 4096, 6⟩, ⟨false, l.clint, l.clint, 0x10000, 6⟩,
      ⟨false, l.plic, l.plic, 0x400000, 6⟩,
        ⟨false, l.textStart, l.textStart, l.textEnd - l.textStart, 10⟩,
      ⟨false, l.textEnd, l.textEnd, l.rodataEnd - l.textEnd, 2⟩,
      ⟨false, l.rodataEnd, l.rodataEnd, l.dataEnd - l.rodataEnd, 6⟩,
      ⟨false, l.dataEnd, l.dataEnd, l.bssEnd - l.dataEnd, 6⟩,
      ⟨false, l.bssEnd, l.bssEnd, l.ram.baseAddr + l.ram.totalSize - l.bssEnd, 6⟩,
      ⟨false, 0x3FFFFFF000, l.userTrampoline, 4096, 8⟩] := by
  have htext := h.text
  obtain ⟨hro, hrodata⟩ := h.rodata
  obtain ⟨hda, hdata⟩ := h.data
  obtain ⟨hbs, hbss⟩ := h.bss
  have hsize := h.size
  unfold Layout.calls
  rw [h.ramEnd_eq, hro, hda, hbs, wrapSub_of_le htext.1 (by omega),
    wrapSub_of_le (by omega) (by omega),
    wrapSub_of_le (by omega) (by omega), wrapSub_of_le (by omega) (by omega),
    wrapSub_of_le (by omega) (by omega)]

/-- Every call of `kvm_init` is for whole pages. -/
theorem plain : ∀ c ∈ l.calls, c.Plain := by
  have hordered := h.ordered
  have htext := h.text.2
  have hrodata := h.rodata.2.2
  have hdata := h.data.2.2
  have hbss := h.bss.2.2
  have hstart := h.textStart
  have htramp := h.trampoline
  have hsize := h.size
  have hbase := h.base
  have huart := h.uart
  have hclint := h.clint
  have hplic := h.plic
  rw [h.calls_eq]
  simp only [List.forall_mem_cons, List.not_mem_nil, false_implies, implies_true, and_true]
  refine ⟨?_, ?_, ?_, ?_, ?_, ?_, ?_, ?_, ?_⟩ <;>
    exact ⟨by dsimp only; omega, by dsimp only; omega, by dsimp only; omega, by dsimp only; omega,
      by dsimp only; omega, by dsimp only; decide⟩

/-- No two of them map the same page. -/
theorem disjoint : l.calls.Pairwise fun c d => Disjoint c.range d.range := by
  have hordered := h.ordered
  have hsize := h.size
  have hbase := h.base
  have huart := h.uart
  have hclint := h.clint
  have hplic := h.plic
  obtain ⟨hd₁, hd₂, hd₃⟩ := h.devices
  obtain ⟨ho₁, ho₂, ho₃⟩ := h.outside
  unfold Apart at hd₁ hd₂ hd₃ ho₁ ho₂ ho₃
  rw [h.calls_eq]
  simp only [List.pairwise_cons, List.forall_mem_cons, List.not_mem_nil, false_implies,
    implies_true, and_true, List.Pairwise.nil]
  and_intros <;>
    · apply disjoint_of_apart
      unfold Apart
      dsimp only
      omega

/-- What is mapped to itself is below the trampoline. -/
theorem same_lt {a : Nat} (ha : a ∈ l.same) : a < 0x3FFFFFF000 := by
  have hsize := h.size
  have huart := h.uart
  have hclint := h.clint
  have hplic := h.plic
  simp only [Layout.same, Set.mem_union, Set.mem_Ico] at ha
  omega

/-- What is mapped: an address of a device or of RAM, or one of the trampoline. -/
theorem mapped_iff (a : Nat) : (∃ c ∈ l.calls, a ∈ c.range) ↔ a ∈ l.same ∨ a ∈ trampolinePage := by
  have hordered := h.ordered
  have hsize := h.size
  rw [h.calls_eq]
  simp only [List.exists_mem_cons_iff, List.not_mem_nil, false_and, exists_false,
    or_false, MapCall.range, Layout.same, trampolinePage, Set.mem_union, Set.mem_Ico]
  omega

omit h in
/-- All calls but the last one map addresses to themselves. -/
theorem phys_of_mem (hc : c ∈ l.calls) :
    c.physAddr = c.virAddr ∨ c = ⟨false, 0x3FFFFFF000, l.userTrampoline, 4096, 8⟩ := by
  unfold Layout.calls at hc
  simp only [List.mem_cons, List.not_mem_nil, or_false] at hc
  rcases hc with rfl | rfl | rfl | rfl | rfl | rfl | rfl | rfl | rfl
  all_goals first | exact Or.inl rfl | exact Or.inr rfl

/-- What can be executed is text. -/
theorem text_of_execute (hc : c ∈ l.calls) (hx : c.perm.testBit 3 = true) :
    l.textStart ≤ c.physAddr ∧ c.physAddr + c.size ≤ l.textEnd := by
  have htext := h.text
  have htramp := h.trampoline
  rw [h.calls_eq] at hc
  simp only [List.mem_cons, List.not_mem_nil, or_false] at hc
  rcases hc with rfl | rfl | rfl | rfl | rfl | rfl | rfl | rfl | rfl <;> dsimp only at hx ⊢
  all_goals first | exact absurd hx (by decide) | omega

/-- What can be written is not. -/
theorem apart_of_write (hc : c ∈ l.calls) (hw : c.perm.testBit 2 = true) :
    c.physAddr + c.size ≤ l.textStart ∨ l.textEnd ≤ c.physAddr := by
  have hordered := h.ordered
  obtain ⟨ho₁, ho₂, ho₃⟩ := h.outside
  unfold Apart at ho₁ ho₂ ho₃
  rw [h.calls_eq] at hc
  simp only [List.mem_cons, List.not_mem_nil, or_false] at hc
  rcases hc with rfl | rfl | rfl | rfl | rfl | rfl | rfl | rfl | rfl <;> dsimp only at hw ⊢
  all_goals first | exact absurd hw (by decide) | omega

/-- What is translated is the address space of the kernel. -/
theorem kernelSpace {mem : Nat → Nat} (ht : Translates root mem l.calls) :
    KernelSpace l root mem := by
  have hmapped : ∀ a x, sv39 mem root a = some x → ∃ c ∈ l.calls, a ∈ c.range ∧
      x = ⟨c.physAddr + (a - c.virAddr), c.flags⟩ := by
    intro a x hx
    by_cases hin : ∃ c ∈ l.calls, a ∈ c.range
    · obtain ⟨c, hc, ha⟩ := hin
      rw [ht.inside c hc a ha] at hx
      exact ⟨c, hc, ha, (Option.some.inj hx).symm⟩
    · rw [ht.outside a fun c hc ha => hin ⟨c, hc, ha⟩] at hx
      exact absurd hx (by simp)
  refine ⟨fun a ha => ?_, fun a ha => ?_, fun a ha hb => ht.outside a fun c hc hin => ?_,
    fun a b x y hx hy hw hexec => ?_⟩
  · obtain ⟨c, hc, hin⟩ := (h.mapped_iff a).mpr (Or.inl ha)
    have hle : c.virAddr ≤ a := hin.1
    refine ⟨c.flags, ?_⟩
    rcases phys_of_mem hc with he | rfl
    · rw [ht.inside c hc a hin, he, Nat.add_sub_of_le hle]
    · have hlt := h.same_lt ha
      exact absurd hlt (Nat.not_lt.mpr hle)
  · refine ⟨_, ht.inside ⟨false, 0x3FFFFFF000, l.userTrampoline, 4096, 8⟩ ?_ a ha⟩
    unfold Layout.calls
    simp
  · exact ((h.mapped_iff a).mp ⟨c, hc, hin⟩).elim ha hb
  · obtain ⟨c, hc, hca, rfl⟩ := hmapped a x hx
    obtain ⟨d, hd, hdb, rfl⟩ := hmapped b y hy
    have hplain := h.plain c hc
    have hca' : c.virAddr ≤ a ∧ a < c.virAddr + c.size := hca
    have hdb' : d.virAddr ≤ b ∧ b < d.virAddr + d.size := hdb
    have htext := h.text_of_execute hd ((h.plain d hd).testBit_flags.2.symm.trans hexec)
    have hapart := h.apart_of_write hc (hplain.testBit_flags.1.symm.trans hw)
    have hstart := h.textStart
    have htextEnd := h.text
    dsimp only
    omega

end Layout.Proper

/-- `kvm_init` returns on any layout, whatever the sizes, and the hardware sees the address space it
has laid out. -/
theorem kvmInit_maps {l : Layout} (hA : A.Grants Owns) (hlow : ∀ b L, Owns b L → Low L)
    (hl : l.Proper) (hs : Owns s.pages L) (hroom : A.Room ((lacking l.calls).card + 1) s.pages) :
    ∃ root s', kvmInit A l s = .done root s' ∧ KernelSpace l root s'.mem := by
  obtain ⟨root, b, hb, hroom⟩ := hroom
  have hblank := blank_of_kalloc hA hs hb
  have hz := zeroed_of_granted (hA.blocks hblank.owns) hblank.held
    { s with pages := b, given := root :: s.given }
  have hroom : A.Room (lacking l.calls).card
      (zeroTable root { s with pages := b, given := root :: s.given }).pages := by
    rw [hz.pages]
    exact hroom
  obtain ⟨s', hrun, ht, -⟩ := mapAll_translates hA hlow hblank hl.plain hl.disjoint hroom
  refine ⟨root, s', ?_, hl.kernelSpace ht⟩
  have hkalloc : kallocPage A s = .done root { s with pages := b, given := root :: s.given } := by
    unfold kallocPage
    rw [hb]
    rfl
  have h0 : root ≠ 0 := ((hA.blocks hblank.owns).single_page hblank.held).2.1.ne'
  unfold kvmInit
  rw [hkalloc, Outcome.bind_done, if_neg h0, hrun, Outcome.bind_done]

/-- The board with 128 MiB of RAM. -/
def virtLayout : Layout where
  textStart := 0x80000000
  textEnd := 0x80010000
  rodataStart := 0x80010000
  rodataEnd := 0x80014000
  dataStart := 0x80014000
  dataEnd := 0x80016000
  bssStart := 0x80016000
  bssEnd := virtBssEnd
  userTrampoline := 0x80003000
  uart := 0x10000000
  clint := 0x2000000
  plic := 0xC000000
  ram := virt

/-- The layout of the board is proper. -/
theorem virtLayout_proper : virtLayout.Proper := by
  constructor <;> first | decide | (unfold Apart; decide)

/-- Calls need three tables for each piece at most. -/
theorem card_lacking_le (cs : List MapCall) :
    (lacking cs).card ≤ 3 * (cs.flatMap MapCall.places).length := by
  have hall : ∀ p ∈ cs.flatMap MapCall.places, p.length ≤ 3 := by
    intro p hp
    obtain ⟨c, -, hp⟩ := List.mem_flatMap.mp hp
    obtain ⟨x, -, rfl⟩ := List.mem_map.mp hp
    have hlen := x.path_length
    omega
  refine Finset.card_erase_le.trans ((List.toFinset_card_le _).trans ?_)
  generalize cs.flatMap MapCall.places = ps at hall
  induction ps with
  | nil => exact Nat.zero_le _
  | cons p ps ih =>
    have hp := hall p List.mem_cons_self
    have hps := ih fun q hq => hall q (List.mem_cons_of_mem _ hq)
    rw [List.flatMap_cons, List.length_append, List.length_tails, List.length_tail,
      List.length_cons]
    omega

/-- Its tables are some hundred at most. -/
theorem pieces_virtLayout : (virtLayout.calls.flatMap MapCall.places).length ≤ 900 := by
  decide +kernel

/-- On the board with 128 MiB the kernel comes up. -/
theorem kvmInit_maps_virt : ∃ (b : State) (root : Nat) (s' : Space State),
    kvmInit (buddy virt 0) virtLayout ⟨fun _ => 0, b, [], []⟩ = .done root s' ∧
      KernelSpace virtLayout root s'.mem := by
  have hend : EndAligned virt := by unfold EndAligned; decide
  obtain ⟨c, hb⟩ := exists_boot virt_machine virt_fits hend (by decide)
  have hgranted : Granted virt virtBssEnd c.mem c.live := ⟨_, hb.sound virt_machine virt_fits hend⟩
  have hpages : totalPages virt - poolLo virt virtBssEnd = 30720 := by decide
  have hlive : c.live.length = 0 := congrArg List.length hb.1
  have hroom : ∀ n ≤ 3000, (buddy virt 0).Room n c.mem := by
    intro n hn
    refine buddy_room 0 virt_machine hgranted (by simp [hb.1]) ?_
    rw [hpages]
    omega
  -- the number of tables is bounded and not computed
  obtain ⟨l, hlayout, hproper, hcard⟩ : ∃ l, l = virtLayout ∧ l.Proper ∧
      (lacking l.calls).card + 1 ≤ 3000 := by
    have hlacking := card_lacking_le virtLayout.calls
    have hpieces := pieces_virtLayout
    exact ⟨virtLayout, rfl, virtLayout_proper, by omega⟩
  rw [← hlayout]
  obtain ⟨root, s', hrun, hspace⟩ := kvmInit_maps (s := ⟨fun _ => 0, c.mem, [], []⟩)
    (buddy_grants 0 virt_machine virt_fits) virt_low hproper hgranted (hroom _ hcard)
  exact ⟨c.mem, root, s', hrun, hspace⟩

end RexOS.Paging
