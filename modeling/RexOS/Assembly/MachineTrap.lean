import RexOS.Assembly.Image

/-!
# Traps into machine mode

`_mmode_trap_handler` has a stack of its own, whose top waits in `mscratch`. It interrupts the
kernel and the processes alike, and neither notices: it gives back every register, the mode and
the stack in `mscratch`, and goes on at the address that its router has left.
-/

namespace RexOS.Assembly

open Riscv

variable {p : Platform Symbol} {K W S : Set Word} {Q : Hart → Memory → Prop}
  {h : Hart} {m : Memory} {cause : Word}

/-- The text of the handler. `back` is behind its call. -/
structure MachineText (p : Platform Symbol) (S : Set Word) (back : Word) : Prop where
  entry : Text p S 0 (p.symbol .mmodeTrapHandler) mmodeEntry back
  exit : ∃ e, Text p S 0 back mmodeExit e

/-- The stack of the handler: doublewords of the hart alone. -/
structure MachineStack (W : Set Word) (top : Word) : Prop where
  aligned : 8 ∣ top.toNat
  own : ∀ o ∈ places 31, top - 256 + o ∈ W

/-- The registers of the code that was interrupted at `h`. -/
structure MachineHeld (h : Hart) (m : Memory) : Prop where
  first : m (h.csr .mscratch - 256 + 0) = h.get ra
  others : ∀ r, r ≠ 0 → r ≠ 1 → m (h.csr .mscratch - 256 + (place r - 8)) = h.get r

/-- The router is called on behalf of code that was interrupted at `h`. -/
structure MachineCalled (p : Platform Symbol) (h : Hart) (cause back : Word) (h₁ : Hart) : Prop
    where
  pc : h₁.pc = p.symbol .mtrapRouter
  mode : h₁.mode = .machine
  link : h₁.get ra = back
  stack : h₁.get sp = h.csr .mscratch - 256
  arg0 : h₁.get a0 = cause
  arg1 : h₁.get a1 = h.pc
  arg2 : h₁.get a2 = h.csr .mhartid
  scratch : h₁.csr .mscratch = h.get sp
  csr : ∀ c, c ≠ .mscratch → h₁.csr c = (h.trapM cause).csr c

/-- Machine mode translates nothing. -/
theorem maps_machine {x : Access} {satp va : Word} : Maps p K x .machine satp m va va :=
  fun _ _ => if_pos rfl

/-- So its text is fetched where it lies. -/
theorem fetched_machine {mode : Mode} {satp : Word} (hmode : mode = .machine) :
    Fetched p K S 0 mode satp m := fun va _ => by
  rw [hmode, sub_zero]
  exact maps_machine

/-- The stack has a frame for the registers. -/
theorem MachineStack.frame {top satp : Word} (hs : MachineStack W top) :
    Frame p ∅ W .machine satp m (top - 256) (top - 256) (places 31) where
  reaches x _ o ho := by
    obtain ⟨k, -, rfl⟩ := List.mem_map.mp ho
    refine ⟨aligned_add ?_ (aligned_mul _), maps_machine⟩
    rw [sub_eq_add_neg]
    exact aligned_add hs.aligned (by decide)
  own o ho := hs.own o ho
  apart o _ := Set.notMem_empty _

/-- Machine mode may use every register. -/
theorem openTo_machine {c : Csr} (hmode : h.mode = .machine) : c.openTo h.mode = true := by
  rw [hmode]
  rfl

/-- The stacks are exchanged; `x1` is stored and takes the interrupted stack pointer. -/
theorem mmodePrologue {is : Source} {e : Word}
    (ha : Ahead p ∅ S 0 h m (.csrrw sp .mscratch sp :: .addi sp sp (-256) :: .sd 1 0 sp ::
      .csrr 1 .mscratch :: is) e)
    (hmode : h.mode = .machine) (hs : MachineStack W (h.csr .mscratch))
    (hl : ∀ h₁, Ahead p ∅ S 0 h₁ (m.store (h.csr .mscratch - 256 + 0) (h.get ra)) is e →
      h₁.mode = .machine → h₁.csr .mscratch = h.get sp →
      (∀ c, c ≠ .mscratch → h₁.csr c = h.csr c) → h₁.get sp = h.csr .mscratch - 256 →
      h₁.get 1 = h.get sp → (∀ r, r ≠ 1 → r ≠ sp → h₁.get r = h.get r) →
      Leads p W Q h₁ (m.store (h.csr .mscratch - 256 + 0) (h.get ra))) :
    Leads p W Q h m := by
  have hK : (∅ : Set Word) ⊆ W := Set.empty_subset W
  refine Leads.regs hK ha (fun n => ((h.write .mscratch (h.get sp)).set sp
    (h.csr .mscratch)).advance n) (fun n m' => ?_) (fun _ => rfl) (fun _ => rfl) (fun _ => rfl)
    fun n₁ ha => ?_
  · exact if_pos (openTo_machine hmode)
  refine Leads.regs hK ha (fun n => ((((h.write .mscratch (h.get sp)).set sp
    (h.csr .mscratch)).advance n₁).set sp (h.csr .mscratch + -256)).advance n) (fun n m' => rfl)
    (fun _ => rfl) (fun _ => rfl) (fun _ => rfl) fun n₂ ha => ?_
  have hf : Frame p ∅ W h.mode (h.csr .satp) m (h.csr .mscratch + -256) (h.csr .mscratch - 256)
      (places 31) := by
    rw [hmode, ← sub_eq_add_neg]
    exact hs.frame
  refine Leads.store hK ha (hf.reaches .store (by decide) 0 (by decide)) (Set.notMem_empty _)
    fun n₃ ha => ?_
  refine Leads.csrr hK ha (openTo_machine hmode) fun n₄ ha => ?_
  refine hl _ ha hmode rfl (fun c hc => ?_) ?_ rfl fun r h1 h2 => ?_
  · exact if_neg hc
  · exact (sub_eq_add_neg _ _).symm
  · simp [Hart.get_set_ne _ h1, Hart.get_set_ne _ h2]

/-- Up to the call of the router. -/
theorem mmodeEntry_leads {back : Word} (hvec : h.csr .mtvec = p.symbol .mmodeTrapHandler)
    (ht : MachineText p S back) (hs : MachineStack W (h.csr .mscratch)) :
    Leads p W (fun h₁ m₁ => MachineCalled p h cause back h₁ ∧ MachineHeld h m₁)
      (h.trapM cause) m := by
  have hK : (∅ : Set Word) ⊆ W := Set.empty_subset W
  have ha : Ahead p ∅ S 0 (h.trapM cause) m mmodeEntry back := by
    have hpc : (h.trapM cause).pc = p.symbol .mmodeTrapHandler := hvec
    refine ⟨fun hu => absurd hu (by simp [Hart.trapM]), ?_, fetched_machine rfl⟩
    rw [hpc]
    exact ht.entry
  rw [mmodeEntry_eq] at ha
  refine mmodePrologue ha rfl hs fun h₁ ha hmode hscr hcsr hsp hx1 hreg => ?_
  have hf : Frame p ∅ W h₁.mode (h₁.csr .satp) (m.store (h.csr .mscratch - 256 + 0) (h.get ra))
      (h₁.get sp) (h.csr .mscratch - 256) (List.map Prod.snd (((1, 8) : Slot) :: upper 8)) := by
    rw [hmode, hsp]
    exact hs.frame.mono (mem_places_of_all (by decide +kernel)) (Set.eqOn_refl _ _)
  refine Leads.saves hK ha rfl hf (by decide +kernel) fun n₁ m₁ ha _ hin hout => ?_
  refine Leads.csrr hK ha (openTo_machine hmode) fun n₂ ha => ?_
  refine Leads.csrr hK ha (openTo_machine hmode) fun n₃ ha => ?_
  refine Leads.csrr hK ha (openTo_machine hmode) fun n₄ ha => ?_
  refine Leads.jump hK ha _ (fun n m' => rfl) fun n₅ hend => ?_
  refine Leads.here fun m' hm' => ⟨⟨?_, hmode, hend, hsp, ?_, ?_, ?_, ?_, ?_⟩, ?_, ?_⟩
  · simp [Hart.goto]
  · exact hcsr .mcause (by decide)
  · exact hcsr .mepc (by decide)
  · exact hcsr .mhartid (by decide)
  · exact hscr
  · exact hcsr
  · rw [hm' (hs.own 0 (by decide)), hout _ fun o ho he => ?_]
    · exact Memory.store_self _ _ _
    · have hzero : (0 : Word) ∉ List.map Prod.snd (((1, 8) : Slot) :: upper 8) := by
        decide +kernel
      exact hzero (add_left_cancel he ▸ ho)
  · have hown : ∀ r : Reg, r ≠ 0 → r ≠ 1 → place r - 8 ∈ places 31 := by decide
    intro r h0 h1
    rw [hm' (hs.own _ (hown r h0 h1))]
    by_cases h3 : 3 ≤ r
    · have h2 : r ≠ sp := fun he => absurd (he ▸ h3) (by decide)
      exact (hin (r, place r - 8) (List.mem_cons_of_mem _ (mem_upper h3 8))).trans (hreg r h1 h2)
    · obtain rfl : r = sp := by
        revert r
        decide
      exact (hin (1, 8) List.mem_cons_self).trans hx1

/-- Back to what was interrupted at `h`, from the return `h₂` of the router. -/
structure MachineResumed (h h₂ h₃ : Hart) : Prop where
  pc : h₃.pc = h₂.csr .mepc
  mode : h₃.mode = h.mode
  regs : ∀ r, h₃.get r = h.get r
  scratch : h₃.csr .mscratch = h.csr .mscratch
  status : ∀ i, i ≠ 7 → i ≠ 11 → i ≠ 12 →
    (h₃.csr .mstatus).getLsbD i = (h.csr .mstatus).getLsbD i
  csr : ∀ c, c ≠ .mscratch → c ≠ .mstatus → h₃.csr c = h₂.csr c

/-- From the return of the router on. -/
theorem mmodeExit_leads {back : Word} {h₂ : Hart} {m₂ : Memory} (ht : MachineText p S back)
    (hs : MachineStack W (h.csr .mscratch)) (hpc : h₂.pc = back) (hmode : h₂.mode = .machine)
    (hsp : h₂.get sp = h.csr .mscratch - 256)
    (hstatus : h₂.csr .mstatus = (h.trapM cause).csr .mstatus) (hheld : MachineHeld h m₂) :
    Leads p W (fun h₃ m₃ => MachineResumed h h₂ h₃ ∧ Set.EqOn m₃ m₂ W) h₂ m₂ := by
  have hK : (∅ : Set Word) ⊆ W := Set.empty_subset W
  obtain ⟨e, hexit⟩ := ht.exit
  have ha : Ahead p ∅ S 0 h₂ m₂ mmodeExit e :=
    ⟨by rw [hmode]; decide, hpc.symm ▸ hexit, fetched_machine hmode⟩
  rw [mmodeExit_eq] at ha
  have hf : Frame p ∅ W h₂.mode (h₂.csr .satp) m₂ (h₂.get sp) (h.csr .mscratch - 256)
      (places 31) := by
    rw [hmode, hsp]
    exact hs.frame
  refine Leads.restores hK ha rfl (hf.mono (mem_places_of_all (by decide +kernel))
    (Set.eqOn_refl _ _)) (by decide +kernel) (by decide +kernel)
    fun n₁ h₃ _ hmode₃ hcsr hin hout ha => ?_
  have hsp₃ : h₃.get sp = h.csr .mscratch - 256 := (hout sp (by decide +kernel)).trans hsp
  have hx1 : h₃.get 1 = h.get sp := by
    refine (hin (1, 8) (List.mem_append_right _ List.mem_cons_self) (by decide)).trans ?_
    exact hheld.others sp (by decide) (by decide)
  have hreg : ∀ r, r ≠ 0 → r ≠ 1 → r ≠ sp → h₃.get r = h.get r := by
    intro r h0 h1 h2
    have h3 : 3 ≤ r := by
      revert r
      decide
    refine (hin (r, place r - 8) (List.mem_append_left _ ?_) h0).trans (hheld.others r h0 h1)
    exact List.mem_reverse.mpr (mem_upper h3 8)
  refine Leads.csrw hK ha (openTo_machine (hmode₃.trans hmode)) (by decide) fun n₂ ha => ?_
  have hf₃ : Frame p ∅ W h₃.mode (h₃.csr .satp) m₂ (h₃.get sp) (h.csr .mscratch - 256)
      (places 31) := by
    rw [hmode₃, hmode, hsp₃]
    exact hs.frame
  refine Leads.load hK ha (hf₃.reaches .load (by decide) 0 (by decide))
    (hf₃.own 0 (by decide)) fun n₃ ha => ?_
  refine Leads.regs hK ha (fun n => (Hart.set _ sp (h₃.get sp + 256)).advance n) (fun n m' => rfl)
    (fun _ => rfl) (fun _ => rfl) (fun _ => rfl) fun n₄ ha => ?_
  refine Leads.regs hK ha (fun n => ((Hart.write _ .mscratch (h₃.get sp + 256)).set sp
    (h₃.get 1)).advance n) (fun n m' => if_pos (openTo_machine (hmode₃.trans hmode)))
    (fun _ => rfl) (fun _ => rfl) (fun _ => rfl) fun n₅ ha => ?_
  refine Leads.jump hK ha (fun _ => Hart.mret _)
    (fun n m' => if_pos (hmode₃.trans hmode)) fun n₆ _ => ?_
  have hstatus₃ : h₃.csr .mstatus = (h.trapM cause).csr .mstatus := hcsr ▸ hstatus
  refine Leads.here fun m' hm' => ⟨⟨?_, ?_, fun r => ?_, ?_, fun i h7 h11 h12 => ?_,
    fun c hc hc' => ?_⟩, hm'⟩
  · exact congrFun hcsr .mepc
  · exact h.mpp_of_trapM hstatus₃
  · by_cases h2 : r = sp
    · rw [h2]
      exact hx1
    · refine (Hart.get_set_ne _ h2 (h₃.get 1)).trans ?_
      refine (Hart.get_set_ne _ h2 (h₃.get sp + 256)).trans ?_
      by_cases h1 : r = 1
      · rw [h1]
        exact hheld.first
      · refine (Hart.get_set_ne _ h1 _).trans ?_
        by_cases h0 : r = 0
        · rw [h0]
          rfl
        · exact hreg r h0 h1 h2
  · exact (congrArg (· + 256) hsp₃).trans (sub_add_cancel _ _)
  · exact h.getLsbD_mret hstatus₃ h7 h11 h12
  · refine Eq.trans ?_ (congrFun hcsr c)
    cases c <;> first | rfl | exact absurd rfl hc | exact absurd rfl hc'

/-- A trap into machine mode is a call that the interrupted code does not notice, for every
router that keeps to the calling convention and leaves the status: it goes on at the address that
the router has left in `mepc`. -/
theorem mmodeTrapHandler_transparent {back : Word}
    (hvec : h.csr .mtvec = p.symbol .mmodeTrapHandler) (ht : MachineText p S back)
    (hs : MachineStack W (h.csr .mscratch))
    (hrouter : ∀ h₁ m₁, MachineCalled p h cause back h₁ → MachineHeld h m₁ →
      Leads p W (fun h₂ m₂ => Returned h₁ h₂ ∧ h₂.csr .mstatus = h₁.csr .mstatus ∧ Q h₂ m₂ ∧
        MachineHeld h m₂) h₁ m₁) :
    Leads p W (fun h₃ m₃ => ∃ h₂ m₂, Q h₂ m₂ ∧ MachineResumed h h₂ h₃ ∧ Set.EqOn m₃ m₂ W)
      (h.trapM cause) m := by
  refine (mmodeEntry_leads hvec ht hs).bind fun h₁ m₁ ⟨hcall, hheld⟩ => ?_
  refine (hrouter h₁ m₁ hcall hheld).bind fun h₂ m₂ ⟨hret, hstatus, hQ, hheld⟩ => ?_
  have hsp : h₂.get sp = h.csr .mscratch - 256 :=
    (hret.saved sp List.mem_cons_self).trans hcall.stack
  exact (mmodeExit_leads ht hs (hret.pc.trans hcall.link) (hret.mode.trans hcall.mode) hsp
    (hstatus.trans (hcall.csr .mstatus (by decide))) hheld).mono
    fun h₃ m₃ ⟨hres, hm₃⟩ => ⟨h₂, m₂, hQ, hres, hm₃⟩

/-- The image has this handler. -/
theorem machineText_image : MachineText image linked 0x800001D4 where
  entry := @text_handlers (.ret :: (smodeEntry ++ smodeExit)) mmodeEntry _ rfl
  exit := ⟨_, @text_handlers (.ret :: (smodeEntry ++ (smodeExit ++ mmodeEntry))) mmodeExit _ rfl⟩

/-- An interrupt of the timer, under a router that returns at once. -/
theorem mmodeTrapHandler_transparent_image :
    Leads image Set.univ (fun h₃ m₃ => ∃ h₂ m₂, h₂.csr .mepc = 0x80003000 ∧
      MachineResumed kernelHart h₂ h₃ ∧ Set.EqOn m₃ m₂ Set.univ)
      (kernelHart.trapM 0x8000000000000007) id := by
  refine mmodeTrapHandler_transparent rfl machineText_image
    ⟨by decide, fun _ _ => Set.mem_univ _⟩ fun h₁ m₁ hcall hheld => ?_
  refine ret_leads hcall.pc (by rw [hcall.mode]; decide) (fetched_machine hcall.mode)
    fun h₂ hret hcsr _ => ⟨hret, congrFun hcsr _, ?_, hheld⟩
  exact (congrFun hcsr .mepc).trans (hcall.csr .mepc (by decide))

end RexOS.Assembly
