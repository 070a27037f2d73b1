import RexOS.Assembly.Frames

/-!
# A small image

The handlers and the trampoline laid out in instructions of four bytes, with routers that return
at once. Supervisor code is mapped to itself, the two pages at the top of the address space to a
stack and to the trampoline; user code has one page.
-/

namespace RexOS.Assembly

open Riscv

/-- The instruction at an address, in a text laid out from `base` on. -/
def instrAt (base : Word) (is : Source) (pa : Word) : Option (Instr Symbol × Word) :=
  is[(pa - base).toNat / 4]?.map fun i => (i, 4)

/-- Linked at `0x80000000`, where the routers of the two handlers are. -/
def handlers : Source :=
  .ret :: (smodeEntry ++ (smodeExit ++ (mmodeEntry ++ (mmodeExit ++ processBootstrap))))

/-- Linked at `0x80003000`. -/
def trampoline : Source := trampolineEntry ++ (trampolineReturn ++ restoreState)

/-- The router of processes, linked at `0x80002000`: the frame to go on with is at `0x81000EC8`. -/
def userRouter : Source := [.li t0 0x81000EC8, .csrw .sscratch t0, .ret]

/-- What the supervisor has at an address, under every table. -/
def seen (va : Word) : Option Word :=
  if va < 0x3FFFFFE000 then some va
  else if va < 0x3FFFFFF000 then some (va - 0x3FFFFFE000 + 0x81000000)
  else if va < 0x4000000000 then some (va - 0x3FFFFFF000 + 0x80003000)
  else none

def image : Platform Symbol where
  code pa :=
    if pa < 0x80001000 then instrAt 0x80000000 handlers pa
    else if pa < 0x80003000 then instrAt 0x80002000 userRouter pa
    else instrAt 0x80003000 trampoline pa
  symbol
    | .strapRouter | .mtrapRouter => 0x80000000
    | .smodeTrapHandler => 0x80000004
    | .mmodeTrapHandler => 0x8000013C
    | .processBootstrap => 0x80000260
    | .userTrampoline => 0x80003000
    | .restoreState => 0x800030D0
  walk _ mode _ _ va :=
    if mode = .user then if va < 0x1000 then some (0x90000000 + va) else none else seen va

/-- Where the kernel has the text that is linked low, and where every table has the trampoline. -/
def linked : Set Word := {va | 0x80000000 ≤ va ∧ va < 0x80010000}
def lifted : Set Word := {va | 0x3FFFFFF000 ≤ va ∧ va < 0x4000000000}

instance (va : Word) : Decidable (va ∈ linked) :=
  inferInstanceAs (Decidable (0x80000000 ≤ va ∧ va < 0x80010000))

/-- An instruction is four bytes. -/
theorem toNat_index {base : Word} {k : ℕ} (hb : base.toNat < 2 ^ 62) (hk : k < 2 ^ 60) :
    (base + 4 * BitVec.ofNat 64 k).toNat = base.toNat + 4 * k := by
  have hmul : (4 * BitVec.ofNat 64 k).toNat = 4 * k := by
    rw [BitVec.toNat_mul, BitVec.toNat_ofNat, Nat.mod_eq_of_lt (by omega : k < 2 ^ 64)]
    change 4 * k % 2 ^ 64 = 4 * k
    omega
  rw [BitVec.toNat_add, hmul, Nat.mod_eq_of_lt (by omega)]

/-- The text has its instructions in order. -/
theorem instrAt_base {base : Word} {is : Source} {k : ℕ} (hb : base.toNat < 2 ^ 62)
    (hk : k < is.length) (hlen : is.length < 2 ^ 60) :
    instrAt base is (base + 4 * BitVec.ofNat 64 k) = some (is[k], 4) := by
  have hoff : (base + 4 * BitVec.ofNat 64 k - base).toNat / 4 = k := by
    have hle : base ≤ base + 4 * BitVec.ofNat 64 k := by
      rw [BitVec.le_def, toNat_index hb (by omega)]
      omega
    rw [BitVec.toNat_sub_of_le hle, toNat_index hb (by omega)]
    omega
  rw [instrAt, hoff, List.getElem?_eq_getElem hk]
  rfl

/-- A thousand instructions fit into a page. -/
theorem pageAddr {k : ℕ} {base : Word} (hb : base.toNat < 2 ^ 62) (hk : k < 1024) :
    base ≤ base + 4 * BitVec.ofNat 64 k ∧ base + 4 * BitVec.ofNat 64 k < base + 0x1000 := by
  rw [BitVec.le_def, BitVec.lt_def, toNat_index hb (by omega), BitVec.toNat_add]
  change _ ∧ _ < (base.toNat + 0x1000) % 2 ^ 64
  omega

/-- A routine of the handlers is linked where it lies. -/
theorem text_handlers {pre is post : Source} (h : handlers = pre ++ (is ++ post)) :
    Text image linked 0 (0x80000000 + 4 * BitVec.ofNat 64 pre.length) is
      (0x80000000 + 4 * BitVec.ofNat 64 (pre.length + is.length)) := by
  have hlen : handlers.length = 158 := rfl
  have haddr : ∀ k < handlers.length, (0x80000000 : Word) ≤ 0x80000000 + 4 * BitVec.ofNat 64 k ∧
      (0x80000000 + 4 * BitVec.ofNat 64 k : Word) < 0x80001000 :=
    fun k hk => pageAddr (by decide) (by omega)
  refine text_of_code h (fun k hk => ?_) fun k hk =>
    ⟨(haddr k hk).1, BitVec.lt_trans (haddr k hk).2 (by decide)⟩
  have hlow := (haddr k hk).2
  have hat : instrAt 0x80000000 handlers (0x80000000 + 4 * BitVec.ofNat 64 k) =
      some (handlers[k], 4) := instrAt_base (by decide) hk (by omega)
  simp only [sub_zero, image, hlow, if_true, hat]

/-- One of the trampoline lies in the lifted page. -/
theorem text_trampoline {pre is post : Source} (h : trampoline = pre ++ (is ++ post)) :
    Text image lifted (0x3FFFFFF000 - 0x80003000) (0x3FFFFFF000 + 4 * BitVec.ofNat 64 pre.length)
      is (0x3FFFFFF000 + 4 * BitVec.ofNat 64 (pre.length + is.length)) := by
  have hlen : trampoline.length = 97 := rfl
  refine text_of_code h (fun k hk => ?_) fun k hk => pageAddr (by decide) (by omega)
  have hdown : (0x3FFFFFF000 + 4 * BitVec.ofNat 64 k - (0x3FFFFFF000 - 0x80003000) : Word) =
      0x80003000 + 4 * BitVec.ofNat 64 k := by
    rw [sub_sub_eq_add_sub, add_right_comm, add_sub_assoc, add_comm, ← add_assoc, sub_add_cancel,
      add_comm]
  have hlow : (0x80003000 : Word) ≤ 0x80003000 + 4 * BitVec.ofNat 64 k :=
    (pageAddr (by decide) (by omega)).1
  have hlow' : ¬ (0x80003000 + 4 * BitVec.ofNat 64 k : Word) < 0x80001000 := BitVec.not_lt.mpr
    (BitVec.le_trans (by decide : (0x80001000 : Word) ≤ 0x80003000) hlow)
  have hat : instrAt 0x80003000 trampoline (0x80003000 + 4 * BitVec.ofNat 64 k) =
      some (trampoline[k], 4) := instrAt_base (by decide) hk (by omega)
  simp only [hdown, image, BitVec.not_lt.mpr hlow, hlow', if_false, hat]

/-- Doublewords of the image, for supervisor code. -/
theorem frame_image {satp va base : Word} {m : Memory} {offs : List Word}
    (h : offs.all fun o => decide (8 ∣ (va + o).toNat ∧ seen (va + o) = some (base + o))) :
    Frame image ∅ Set.univ .supervisor satp m va base offs where
  reaches _ _ o ho :=
    have ho := of_decide_eq_true (List.all_eq_true.mp h o ho)
    ⟨ho.1, fun _ _ => ho.2⟩
  own _ _ := Set.mem_univ _
  apart _ _ := Set.notMem_empty _

/-- Without translation the kernel is fetched where it is linked. -/
theorem fetched_linked {satp : Word} {m : Memory} :
    Fetched image ∅ linked 0 .supervisor satp m := by
  intro va hva _ _
  have hlow : va < 0x3FFFFFE000 := BitVec.lt_trans hva.2 (by decide)
  simp only [Platform.translate, image, seen, hlow, if_false, if_true, reduceCtorEq, sub_zero]

/-- The trampoline is fetched where it is lifted. -/
theorem fetched_lifted {satp : Word} {m : Memory} :
    Fetched image ∅ lifted (0x3FFFFFF000 - 0x80003000) .supervisor satp m := by
  rintro va ⟨hge, hlt⟩ _ _
  have hstack : ¬ va < 0x3FFFFFF000 := BitVec.not_lt.mpr hge
  have hlow : ¬ va < 0x3FFFFFE000 := BitVec.not_lt.mpr
    (BitVec.le_trans (by decide : (0x3FFFFFE000 : Word) ≤ 0x3FFFFFF000) hge)
  simp only [Platform.translate, image, seen, hlow, hstack, hlt, if_false, if_true, reduceCtorEq]
  rw [sub_sub_eq_add_sub, add_sub_right_comm]

/-- The router of the two handlers comes back at once. -/
theorem ret_leads {h : Hart} {m : Memory} {Q : Hart → Memory → Prop} (hpc : h.pc = 0x80000000)
    (hmode : h.mode ≠ .user) (hf : Fetched image ∅ linked 0 h.mode (h.csr .satp) m)
    (hQ : ∀ h₁, Returned h h₁ → h₁.csr = h.csr → h₁.get = h.get → Q h₁ m) :
    Leads image Set.univ Q h m := by
  have ha : Ahead image ∅ linked 0 h m [.ret] 0x80000004 :=
    ⟨hmode, hpc ▸ @text_handlers [] [.ret] _ rfl, hf⟩
  refine Leads.jump (Set.empty_subset _) ha _ (fun _ _ => rfl) fun n _ => ?_
  rw [Hart.set_zero]
  refine Leads.here fun m' hm' => ?_
  obtain rfl : m' = m := Set.eqOn_univ _ _ |>.mp hm'
  exact hQ _ ⟨add_zero _, rfl, rfl, fun _ _ => rfl⟩ rfl rfl

/-- Kernel code of the image, with interrupts enabled. -/
def kernelHart : Hart where
  pc := 0x80003000
  mode := .supervisor
  reg r := if r = sp then 0x81003000 else 0x1000 + place r
  csr
    | .stvec => 0x80000004
    | .mtvec => 0x8000013C
    | .mscratch => 0x81005000
    | .mstatus => 2
    | _ => 0

end RexOS.Assembly
