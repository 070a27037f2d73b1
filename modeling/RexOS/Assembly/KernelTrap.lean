import RexOS.Assembly.Image

/-!
# Traps out of kernel code

`_smode_trap_handler` keeps the interrupted code in a frame below its stack pointer, calls the
router and goes back. Whatever the router does within the calling convention, the interrupted
code goes on where it was, with every register as it was.
-/

namespace RexOS.Assembly

open Riscv

variable {p : Platform Symbol} {K W S : Set Word} {Q : Hart → Memory → Prop}
  {h : Hart} {m : Memory} {f : Fault}

/-- The text of the handler, fetched from where it was linked. `back` is behind its call. -/
structure HandlerText (p : Platform Symbol) (K S : Set Word) (satp : Word) (m : Memory)
    (back : Word) : Prop where
  entry : Text p S 0 (p.symbol .smodeTrapHandler) smodeEntry back
  exit : ∃ e, Text p S 0 back smodeExit e
  fetched : Fetched p K S 0 .supervisor satp m

/-- The router is called on behalf of code that was interrupted at `h` by `f`. -/
structure RouterCalled (p : Platform Symbol) (h : Hart) (f : Fault) (back : Word) (h₁ : Hart) :
    Prop where
  pc : h₁.pc = p.symbol .strapRouter
  mode : h₁.mode = .supervisor
  satp : h₁.csr .satp = h.csr .satp
  ra : h₁.get ra = back
  sp : h₁.get sp = h.get sp - 272
  cause : h₁.get a0 = f.cause
  tval : h₁.get a1 = f.tval

/-- The frame of a trap taken at `h`. -/
abbrev TrapHeld (h : Hart) (f : Fault) (m : Memory) : Prop :=
  Holds m (h.get sp - 272) h.get h.pc ((h.trapS f).read .sstatus)

/-- Up to the call of the router. -/
theorem smodeEntry_leads {back : Word} (hK : K ⊆ W)
    (hvec : h.csr .stvec = p.symbol .smodeTrapHandler)
    (ht : HandlerText p K S (h.csr .satp) m back)
    (hf : Frame p K W .supervisor (h.csr .satp) m (h.get sp - 272) (h.get sp - 272) (places 34)) :
    Leads p W (fun h₁ m₁ => RouterCalled p h f back h₁ ∧ TrapHeld h f m₁ ∧ Set.EqOn m₁ m K)
      (h.trapS f) m := by
  have ha : Ahead p K S 0 (h.trapS f) m smodeEntry back := by
    have hpc : (h.trapS f).pc = p.symbol .smodeTrapHandler := hvec
    refine ⟨fun hu => absurd hu (by simp [Hart.trapS]), ?_, ht.fetched⟩
    rw [hpc]
    exact ht.entry
  rw [smodeEntry_eq] at ha
  refine Leads.regs hK ha (fun n => ((h.trapS f).set sp (h.get sp + -272)).advance n)
    (fun n m' => rfl) (fun _ => rfl) (fun _ => rfl) (fun _ => rfl) fun n ha => ?_
  have hsp : (((h.trapS f).set sp (h.get sp + -272)).advance n).get sp = h.get sp - 272 :=
    ((h.trapS f).get_set_self (by decide) _).trans (sub_eq_add_neg _ _).symm
  have hf' : OwnFrame p K W (((h.trapS f).set sp (h.get sp + -272)).advance n) m
      ((((h.trapS f).set sp (h.get sp + -272)).advance n).get sp) (h.get sp - 272) 34 := by
    rw [hsp]
    exact hf
  refine fill (h.get sp) hK ha rfl (fun h' _ _ hsp' pa n m' => ?_) hf'
    fun h₁ m₁ ha hmode hcsr hreg hheld hm₁ _ => ?_
  · have hv : h'.get sp + 272 = h.get sp := by
      rw [hsp', hsp, sub_add_cancel]
    rw [Platform.exec, hv]
  refine Leads.csrr hK ha (openTo_supervisor hmode rfl) fun n₁ ha => ?_
  refine Leads.csrr hK ha (openTo_supervisor hmode rfl) fun n₂ ha => ?_
  refine Leads.jump hK ha _ (fun n m' => rfl) fun n₃ hend => ?_
  refine Leads.here fun m' hm' => ⟨⟨?_, hmode, ?_, ?_, ?_, ?_, ?_⟩, ?_, ?_⟩
  · simp [Hart.goto]
  · exact congrFun hcsr .satp
  · exact hend
  · exact (hreg sp (by decide) (by decide)).trans hsp
  · have hcause : h₁.read .scause = f.cause := congrFun hcsr .scause
    exact hcause
  · have htval : h₁.read .stval = f.tval := congrFun hcsr .stval
    exact htval
  · have hregs : (fun r => if r = sp then h.get sp
        else (((h.trapS f).set sp (h.get sp + -272)).advance n).get r) = h.get := by
      funext r
      split
      · rename_i hr
        rw [hr]
      · rename_i hr
        exact (h.trapS f).get_set_ne hr _
    rw [hregs] at hheld
    exact hheld.congr fun o ho => hm' (hf.own o ho)
  · exact (hm'.mono hK).trans hm₁

/-- Back to the code that was interrupted at `h`, from the return `h₂` of the router. -/
structure Resumed (h h₂ h₃ : Hart) : Prop where
  pc : h₃.pc = h.pc
  mode : h₃.mode = h.mode
  regs : ∀ r, h₃.get r = h.get r
  sie : h₃.sie = h.sie
  csr : ∀ c, c ≠ .sepc → c ≠ .mstatus → h₃.csr c = h₂.csr c

/-- From the return of the router on. -/
theorem smodeExit_leads {back : Word} {h₂ : Hart} {m₂ : Memory} (hK : K ⊆ W)
    (hmode : h.mode = .supervisor) (ht : HandlerText p K S (h.csr .satp) m back)
    (hf : Frame p K W .supervisor (h.csr .satp) m (h.get sp - 272) (h.get sp - 272) (places 34))
    (hpc : h₂.pc = back) (hmode₂ : h₂.mode = .supervisor) (hsatp : h₂.csr .satp = h.csr .satp)
    (hsp : h₂.get sp = h.get sp - 272) (hheld : TrapHeld h f m₂) (hm : Set.EqOn m₂ m K) :
    Leads p W (fun h₃ m₃ => Resumed h h₂ h₃ ∧ Set.EqOn m₃ m₂ W) h₂ m₂ := by
  obtain ⟨e, hexit⟩ := ht.exit
  have ha : Ahead p K S 0 h₂ m₂ smodeExit e := by
    refine ⟨by rw [hmode₂]; decide, hpc.symm ▸ hexit, ?_⟩
    rw [hmode₂, hsatp]
    exact ht.fetched.congr hm
  rw [smodeExit_eq] at ha
  have hf₂ : OwnFrame p K W h₂ m₂ (h₂.get sp) (h.get sp - 272) 34 := by
    rw [OwnFrame, hmode₂, hsatp, hsp]
    exact hf.mono (fun _ => id) hm
  refine Leads.load hK ha (hf₂.reaches .load (by decide) 264 (by decide))
    (hf₂.own 264 (by decide)) fun n₁ ha => ?_
  refine Leads.csrw hK ha (openTo_supervisor hmode₂ rfl) (by decide) fun n₂ ha => ?_
  refine Leads.load hK ha (hf₂.reaches .load (by decide) 256 (by decide))
    (hf₂.own 256 (by decide)) fun n₃ ha => ?_
  refine Leads.csrw hK ha (openTo_supervisor hmode₂ rfl) (by decide) fun n₄ ha => ?_
  refine drain hK ha hf₂ hheld fun h₃ ha hmode₃ hcsr hreg hsp₃ => ?_
  refine Leads.regs hK ha (fun n => (h₃.set sp (h₃.get sp + 272)).advance n) (fun n m' => rfl)
    (fun _ => rfl) (fun _ => rfl) (fun _ => rfl) fun n₅ ha => ?_
  refine Leads.jump hK ha (fun _ => ((h₃.set sp (h₃.get sp + 272)).advance n₅).sret)
    (fun n m' => if_neg ha.mode) fun n₆ _ => ?_
  have hstatus : h₃.csr .mstatus =
      blend sstatusMask (h₂.csr .mstatus) ((h.trapS f).read .sstatus) := by
    rw [hcsr, ← hheld.status]
    rfl
  refine Leads.here fun m' hm' => ⟨⟨?_, ?_, fun r => ?_, ?_, fun c hc hc' => ?_⟩, hm'⟩
  · exact (congrFun hcsr .sepc).trans hheld.pc
  · exact h.spp_of_status (by rw [hmode]; decide) hstatus
  · by_cases h0 : r = 0
    · rw [h0, Hart.get_zero, Hart.get_zero]
    · by_cases h2 : r = sp
      · rw [h2, ← sub_add_cancel (h.get sp) 272, ← hsp, ← show h₃.get sp = h₂.get sp from hsp₃]
        exact h₃.get_set_self (by decide) _
      · exact (h₃.get_set_ne h2 _).trans (hreg r h0 h2)
  · rw [Hart.sie_sret]
    exact h.spie_of_status hstatus
  · have hsret : h₃.sret.csr c = h₃.csr c := by
      cases c <;> first | rfl | exact absurd rfl hc'
    refine hsret.trans ?_
    rw [hcsr]
    cases c <;> first | rfl | exact absurd rfl hc | exact absurd rfl hc'

/-- A trap in kernel code is a call that the interrupted code does not notice, for every router
that keeps to the calling convention, and whatever the other harts do. -/
theorem smodeTrapHandler_transparent {back : Word} (hK : K ⊆ W) (hmode : h.mode = .supervisor)
    (hvec : h.csr .stvec = p.symbol .smodeTrapHandler)
    (ht : HandlerText p K S (h.csr .satp) m back)
    (hf : Frame p K W .supervisor (h.csr .satp) m (h.get sp - 272) (h.get sp - 272) (places 34))
    (hrouter : ∀ h₁ m₁, RouterCalled p h f back h₁ → TrapHeld h f m₁ → Set.EqOn m₁ m K →
      Leads p W (fun h₂ m₂ => Returned h₁ h₂ ∧ Q h₂ m₂ ∧ TrapHeld h f m₂ ∧ Set.EqOn m₂ m₁ K)
        h₁ m₁) :
    Leads p W (fun h₃ m₃ => ∃ h₂ m₂, Q h₂ m₂ ∧ Resumed h h₂ h₃ ∧ Set.EqOn m₃ m₂ W)
      (h.trapS f) m := by
  refine (smodeEntry_leads hK hvec ht hf).bind fun h₁ m₁ ⟨hcall, hheld, hm₁⟩ => ?_
  refine (hrouter h₁ m₁ hcall hheld hm₁).bind fun h₂ m₂ ⟨hret, hQ, hheld, hm₂⟩ => ?_
  have hsp : h₂.get sp = h.get sp - 272 :=
    (hret.saved sp List.mem_cons_self).trans hcall.sp
  exact (smodeExit_leads hK hmode ht hf (hret.pc.trans hcall.ra) (hret.mode.trans hcall.mode)
    (hret.satp.trans hcall.satp) hsp hheld (hm₂.trans hm₁)).mono
    fun h₃ m₃ ⟨hres, hm₃⟩ => ⟨h₂, m₂, hQ, hres, hm₃⟩

/-- The image has the handler. -/
theorem handlerText_image {satp : Word} {m : Memory} :
    HandlerText image ∅ linked satp m 0x800000A8 where
  entry := @text_handlers [.ret] smodeEntry _ rfl
  exit := ⟨_, @text_handlers (.ret :: smodeEntry) smodeExit _ rfl⟩
  fetched := fetched_linked

/-- A software interrupt in kernel code, under a router that returns at once. -/
theorem smodeTrapHandler_transparent_image :
    Leads image Set.univ (fun h₃ m₃ => ∃ h₂ m₂, h₂.get a0 = 0x8000000000000001 ∧
      Resumed kernelHart h₂ h₃ ∧ Set.EqOn m₃ m₂ Set.univ)
      (kernelHart.trapS ⟨0x8000000000000001, 0⟩) id := by
  refine smodeTrapHandler_transparent (Set.empty_subset _) rfl rfl handlerText_image
    (frame_image (by decide +kernel)) fun h₁ m₁ hcall hheld _ => ?_
  have hf : Fetched image ∅ linked 0 h₁.mode (h₁.csr .satp) m₁ := by
    rw [hcall.mode]
    exact fetched_linked
  refine ret_leads hcall.pc (by rw [hcall.mode]; decide) hf fun h₂ hret _ hreg => ?_
  exact ⟨hret, (congrFun hreg a0).trans hcall.cause, hheld, Set.eqOn_refl _ _⟩

end RexOS.Assembly
