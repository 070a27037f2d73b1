import RexOS.Assembly.Image

/-!
# The trampoline

A process runs under its own tables, in which the trampoline and its trap frame are the only
pages of the kernel. A trap saves the process in its frame and changes to the tables and to the
stack of the kernel; the way back takes from the frame what the process goes on with. The code is
linked at one address and runs at another, and a reference to a symbol is off by the distance.
-/

namespace RexOS.Assembly

open Riscv

variable {p : Platform Symbol} {K W S : Set Word} {Q : Hart → Memory → Prop}
  {h : Hart} {m : Memory} {f : Fault} {tf satp ksatp back : Word}

/-- Where the trampoline is mapped, in every table. -/
def trampolineVa : Word := 0x3FFFFFF000

/-- Where a process has its trap frame. -/
def frameVa : Word := 0x3FFFFFEEC8

/-- How far above its text the trampoline runs. -/
def lift (p : Platform Symbol) : Word := trampolineVa - p.symbol .userTrampoline

/-- The text of the trampoline. `back` is behind its call. -/
structure TrampolineText (p : Platform Symbol) (S : Set Word) (back : Word) : Prop where
  entry : Text p S (lift p) trampolineVa trampolineEntry back
  ret : Text p S (lift p) back trampolineReturn (p.symbol .restoreState + lift p)
  restore : ∃ e, Text p S (lift p) (p.symbol .restoreState + lift p) restoreState e

/-- The trampoline and the frame at `tf` are mapped in the tables of a process and in those of
the kernel. -/
structure Mapped (p : Platform Symbol) (K W S : Set Word) (m : Memory) (satp ksatp tf : Word) :
    Prop where
  fetched : Fetched p K S (lift p) .supervisor satp m
  fetchedKernel : Fetched p K S (lift p) .supervisor ksatp m
  frame : Frame p K W .supervisor satp m frameVa tf (places 39)
  frameKernel : Frame p K W .supervisor ksatp m tf tf (places 39)

/-- What the frame says about the kernel and about the tables of the process. -/
structure Fields (m : Memory) (tf satp ksatp ksp ktrap ktp : Word) : Prop where
  kernelSatp : m (tf + 272) = ksatp
  kernelSp : m (tf + 280) = ksp
  kernelTrap : m (tf + 288) = ktrap
  userSatp : m (tf + 296) = satp
  kernelTp : m (tf + 304) = ktp

/-- The router is called for the process that ran at `h`. -/
structure UserCalled (p : Platform Symbol) (f : Fault) (ksatp ksp ktrap ktp back : Word)
    (h₁ : Hart) : Prop where
  pc : h₁.pc = ktrap
  mode : h₁.mode = .supervisor
  satp : h₁.csr .satp = ksatp
  link : h₁.get ra = back
  stack : h₁.get sp = ksp
  thread : h₁.get tp = ktp
  cause : h₁.get a0 = f.cause
  tval : h₁.get a1 = f.tval
  vector : h₁.csr .stvec = p.symbol .smodeTrapHandler + lift p

/-- The fields stay as long as their words do. -/
theorem Fields.congr {m' : Memory} {ksp ktrap ktp : Word}
    (hf : Fields m tf satp ksatp ksp ktrap ktp)
    (hm : ∀ o, o ∈ places 39 → o ∉ places 34 → m' (tf + o) = m (tf + o)) :
    Fields m' tf satp ksatp ksp ktrap ktp where
  kernelSatp := (hm 272 (by decide) (by decide)).trans hf.kernelSatp
  kernelSp := (hm 280 (by decide) (by decide)).trans hf.kernelSp
  kernelTrap := (hm 288 (by decide) (by decide)).trans hf.kernelTrap
  userSatp := (hm 296 (by decide) (by decide)).trans hf.userSatp
  kernelTp := (hm 304 (by decide) (by decide)).trans hf.kernelTp

/-- From the trap of a process to the call of the router. -/
theorem trampolineEntry_leads {ksp ktrap ktp : Word} (hK : K ⊆ W)
    (hvec : h.csr .stvec = trampolineVa) (hscr : h.csr .sscratch = frameVa)
    (hsatp : h.csr .satp = satp) (ht : TrampolineText p S back)
    (hm : Mapped p K W S m satp ksatp tf) (hfields : Fields m tf satp ksatp ksp ktrap ktp) :
    Leads p W (fun h₁ m₁ => UserCalled p f ksatp ksp ktrap ktp back h₁ ∧
      Holds m₁ tf h.get h.pc ((h.trapS f).read .sstatus) ∧
      Fields m₁ tf satp ksatp ksp ktrap ktp ∧ Set.EqOn m₁ m K) (h.trapS f) m := by
  subst hsatp
  have ha : Ahead p K S (lift p) (h.trapS f) m trampolineEntry back := by
    have hpc : (h.trapS f).pc = trampolineVa := hvec
    refine ⟨fun hu => absurd hu (by simp [Hart.trapS]), ?_, ?_⟩
    · rw [hpc]
      exact ht.entry
    · exact hm.fetched
  rw [trampolineEntry_eq] at ha
  refine Leads.regs hK ha (fun n => (((h.trapS f).write .sscratch (h.get sp)).set sp
    (h.csr .sscratch)).advance n) (fun n m' => rfl) (fun _ => rfl) (fun _ => rfl) (fun _ => rfl)
    fun n₁ ha => ?_
  have hsp : ((((h.trapS f).write .sscratch (h.get sp)).set sp (h.csr .sscratch)).advance n₁).get
      sp = frameVa := hscr
  have hframe : OwnFrame p K W ((((h.trapS f).write .sscratch (h.get sp)).set sp
      (h.csr .sscratch)).advance n₁) m (((((h.trapS f).write .sscratch (h.get sp)).set sp
      (h.csr .sscratch)).advance n₁).get sp) tf 34 := by
    rw [hsp]
    exact hm.frame.mono (mem_places_of_all (by decide +kernel)) (Set.eqOn_refl m K)
  refine fill (h.get sp) hK ha rfl (fun h' hcsr hmode _ pa n m' => ?_) hframe
    fun h₁ m₁ ha hmode hcsr hreg hheld hm₁ hout => ?_
  · have hv : h'.read .sscratch = h.get sp := congrFun hcsr .sscratch
    have hopen : Csr.openTo .sscratch h'.mode = true := openTo_supervisor hmode rfl
    have hsame : h'.read .sscratch ||| h'.get zero = h'.read .sscratch := by simp
    rw [Platform.exec, Platform.csrOp, if_pos hopen, hsame, h'.write_read, hv]
  have hsp₁ : h₁.get sp = frameVa := (hreg sp (by decide) (by decide)).trans hsp
  have hf₁ : Frame p K W h₁.mode (h₁.csr .satp) m₁ (h₁.get sp) tf (places 39) := by
    rw [hmode, hsp₁, hcsr]
    exact hm.frame.mono (fun _ => id) hm₁
  have hfields₁ : Fields m₁ tf (h.csr .satp) ksatp ksp ktrap ktp := hfields.congr fun o _ ho =>
    hout _ fun o' ho' he => ho (add_left_cancel he ▸ ho')
  refine Leads.load hK ha (hf₁.reaches .load (by decide) 272 (by decide))
    (hf₁.own 272 (by decide)) fun n₂ ha => ?_
  refine Leads.load hK ha (hf₁.reaches .load (by decide) 280 (by decide))
    (hf₁.own 280 (by decide)) fun n₃ ha => ?_
  refine Leads.load hK ha (hf₁.reaches .load (by decide) 288 (by decide))
    (hf₁.own 288 (by decide)) fun n₄ ha => ?_
  refine Leads.load hK ha (hf₁.reaches .load (by decide) 304 (by decide))
    (hf₁.own 304 (by decide)) fun n₅ ha => ?_
  rw [hfields₁.kernelSatp, hfields₁.kernelSp, hfields₁.kernelTrap, hfields₁.kernelTp] at ha ⊢
  have hfetched : Fetched p K S (lift p) h₁.mode ksatp m₁ := by
    rw [hmode]
    exact hm.fetchedKernel.congr hm₁
  refine Leads.csrw_satp hK ha (openTo_supervisor hmode rfl) hfetched fun n₆ ha => ?_
  refine Leads.fence hK ha fun n₇ ha => ?_
  refine Leads.csrw hK ha (openTo_supervisor hmode rfl) (by decide) fun n₈ ha => ?_
  refine Leads.mv hK ha fun n₉ ha => ?_
  refine Leads.la hK ha fun n₁₀ ha => ?_
  refine Leads.csrw hK ha (openTo_supervisor hmode rfl) (by decide) fun n₁₁ ha => ?_
  refine Leads.csrr hK ha (openTo_supervisor hmode rfl) fun n₁₂ ha => ?_
  refine Leads.csrr hK ha (openTo_supervisor hmode rfl) fun n₁₃ ha => ?_
  refine Leads.jump hK ha _ (fun n m' => rfl) fun n₁₄ hend => ?_
  refine Leads.here fun m' hm' => ⟨⟨?_, hmode, rfl, hend, rfl, rfl, ?_, ?_, rfl⟩, ?_, ?_, ?_⟩
  · exact add_zero ktrap
  · exact congrFun hcsr .scause
  · exact congrFun hcsr .stval
  · have hregs : (fun r => if r = sp then h.get sp else ((((h.trapS f).write .sscratch
        (h.get sp)).set sp (h.csr .sscratch)).advance n₁).get r) = h.get := by
      funext r
      split
      · rename_i hr
        rw [hr]
      · rename_i hr
        exact ((h.trapS f).write .sscratch (h.get sp)).get_set_ne hr _
    rw [hregs] at hheld
    exact hheld.congr fun o ho =>
      hm' (hm.frame.own o (mem_places_of_all (by decide +kernel) o ho))
  · exact hfields₁.congr fun o ho _ => hm' (hm.frame.own o ho)
  · exact (hm'.mono hK).trans hm₁

/-- A process goes on with what its frame held, ready for its next trap; `h` is the hart before. -/
structure Continued (h h₃ : Hart) (reg : Reg → Word) (pc status satp : Word) : Prop where
  pc : h₃.pc = pc
  mode : h₃.mode = if status.getLsbD 8 then .supervisor else .user
  regs : ∀ r, r ≠ 0 → h₃.get r = reg r
  sie : h₃.sie = status.getLsbD 5
  satp : h₃.csr .satp = satp
  vector : h₃.csr .stvec = trampolineVa
  scratch : h₃.csr .sscratch = frameVa
  csr : ∀ c, c ∉ [Csr.satp, .stvec, .sscratch, .sepc, .mstatus] → h₃.csr c = h.csr c

/-- From the frame at `tf` back to the process. -/
theorem restoreState_leads {m₂ : Memory} {reg : Reg → Word} {pc status : Word} (hK : K ⊆ W)
    (ht : TrampolineText p S back) (hm : Mapped p K W S m satp ksatp tf)
    (hpc : h.pc = p.symbol .restoreState + lift p) (hmode : h.mode = .supervisor)
    (hsatp : h.csr .satp = ksatp) (hsp : h.get sp = tf) (hheld : Holds m₂ tf reg pc status)
    (huser : m₂ (tf + 296) = satp) (hm₂ : Set.EqOn m₂ m K) :
    Leads p W (fun h₃ m₃ => Continued h h₃ reg pc status satp ∧ Set.EqOn m₃ m₂ W) h m₂ := by
  obtain ⟨e, hrestore⟩ := ht.restore
  have ha : Ahead p K S (lift p) h m₂ restoreState e := by
    refine ⟨by rw [hmode]; decide, hpc.symm ▸ hrestore, ?_⟩
    rw [hmode, hsatp]
    exact hm.fetchedKernel.congr hm₂
  rw [restoreState_eq] at ha
  have hf : Frame p K W h.mode (h.csr .satp) m₂ (h.get sp) tf (places 39) := by
    rw [hmode, hsatp, hsp]
    exact hm.frameKernel.mono (fun _ => id) hm₂
  refine Leads.alu hK ha (fun _ _ => rfl) fun n₁ ha => ?_
  refine Leads.csrw hK ha (openTo_supervisor hmode rfl) (by decide) fun n₂ ha => ?_
  refine Leads.load hK ha (hf.reaches .load (by decide) 264 (by decide))
    (hf.own 264 (by decide)) fun n₃ ha => ?_
  refine Leads.csrw hK ha (openTo_supervisor hmode rfl) (by decide) fun n₄ ha => ?_
  refine Leads.load hK ha (hf.reaches .load (by decide) 256 (by decide))
    (hf.own 256 (by decide)) fun n₅ ha => ?_
  refine Leads.csrw hK ha (openTo_supervisor hmode rfl) (by decide) fun n₆ ha => ?_
  refine Leads.load hK ha (hf.reaches .load (by decide) 296 (by decide))
    (hf.own 296 (by decide)) fun n₇ ha => ?_
  refine Leads.alu hK ha (fun _ _ => rfl) fun n₈ ha => ?_
  rw [hheld.status, hheld.pc, huser] at ha ⊢
  have hfetched : Fetched p K S (lift p) h.mode satp m₂ := by
    rw [hmode]
    exact hm.fetched.congr hm₂
  refine Leads.csrw_satp hK ha (openTo_supervisor hmode rfl) hfetched fun n₉ ha => ?_
  refine Leads.fence hK ha fun n₁₀ ha => ?_
  refine Leads.mv hK ha fun n₁₁ ha => ?_
  have hf₂ : Frame p K W h.mode satp m₂ frameVa tf (places 39) := by
    rw [hmode]
    exact hm.frame.mono (fun _ => id) hm₂
  refine drain hK ha (hf₂.mono (mem_places_of_all (by decide +kernel)) (Set.eqOn_refl _ _)) hheld
    fun h₃ ha hmode₃ hcsr hreg hsp₃ => ?_
  refine Leads.csrw hK ha (openTo_supervisor (hmode₃.trans hmode) rfl) (by decide) fun n₁₂ ha => ?_
  have hf₃ : Frame p K W h₃.mode (h₃.csr .satp) m₂ (h₃.get sp) tf (places 39) := by
    rw [hmode₃, hcsr, hsp₃]
    exact hf₂
  refine Leads.load hK ha (hf₃.reaches .load (by decide) 16 (by decide))
    (hf₃.own 16 (by decide)) fun n₁₃ ha => ?_
  refine Leads.jump hK ha (fun _ => Hart.sret _) (fun n m' => if_neg ha.mode) fun n₁₄ _ => ?_
  have hstatus : h₃.csr .mstatus = blend sstatusMask (h.csr .mstatus) status :=
    congrFun hcsr .mstatus
  refine Leads.here fun m' hm' => ⟨⟨?_, ?_, fun r h0 => ?_, ?_, ?_, ?_, ?_, fun c hc => ?_⟩, hm'⟩
  · exact congrFun hcsr .sepc
  · have hbit : (h₃.csr .mstatus).getLsbD 8 = status.getLsbD 8 := by
      rw [hstatus, getLsbD_blend, if_pos (by decide)]
    have hspp : h₃.spp = if status.getLsbD 8 then .supervisor else .user := by
      rw [Hart.spp, hbit]
    exact hspp
  · by_cases h2 : r = sp
    · rw [h2, ← hheld.regs sp]
      rfl
    · exact (Hart.get_set_ne _ h2 _).trans (hreg r h0 h2)
  · have hspie : h₃.spie = status.getLsbD 5 := by
      rw [Hart.spie, hstatus, getLsbD_blend, if_pos (by decide)]
    exact (Hart.sie_sret _).trans hspie
  · exact congrFun hcsr .satp
  · exact congrFun hcsr .stvec
  · exact hsp₃
  · refine Eq.trans ?_ ((congrFun hcsr c).trans ?_)
    · cases c <;> first | rfl | exact absurd (by decide) hc
    · cases c <;> first | rfl | exact absurd (by decide) hc

/-- From the return of the router, which has left the frame to go on with in `sscratch`. -/
theorem trampolineReturn_leads {m₂ : Memory} {reg : Reg → Word} {pc status : Word} (hK : K ⊆ W)
    (ht : TrampolineText p S back) (hm : Mapped p K W S m satp ksatp tf) (hpc : h.pc = back)
    (hmode : h.mode = .supervisor) (hsatp : h.csr .satp = ksatp) (hscr : h.csr .sscratch = tf)
    (hheld : Holds m₂ tf reg pc status) (huser : m₂ (tf + 296) = satp) (hm₂ : Set.EqOn m₂ m K) :
    Leads p W (fun h₃ m₃ => Continued h h₃ reg pc status satp ∧ Set.EqOn m₃ m₂ W) h m₂ := by
  have ha : Ahead p K S (lift p) h m₂ trampolineReturn (p.symbol .restoreState + lift p) := by
    refine ⟨by rw [hmode]; decide, hpc.symm ▸ ht.ret, ?_⟩
    rw [hmode, hsatp]
    exact hm.fetchedKernel.congr hm₂
  refine Leads.csrr hK ha (openTo_supervisor hmode rfl) fun n ha => ?_
  refine (restoreState_leads hK ht hm ha.text hmode hsatp hscr hheld huser hm₂).mono
    fun h₃ m₃ ⟨hc, hm₃⟩ => ⟨⟨hc.pc, hc.mode, hc.regs, hc.sie, hc.satp, hc.vector, hc.scratch,
      hc.csr⟩, hm₃⟩

/-- The first way into a process, from the context that its creation has made. -/
theorem processBootstrap_leads {m₂ : Memory} {reg : Reg → Word} {pc status e : Word}
    {S' : Set Word} (hK : K ⊆ W) (ht : TrampolineText p S back)
    (hboot : Text p S' 0 (p.symbol .processBootstrap) processBootstrap e)
    (hfetch : Fetched p K S' 0 .supervisor ksatp m) (hm : Mapped p K W S m satp ksatp tf)
    (hpc : h.pc = p.symbol .processBootstrap) (hmode : h.mode = .supervisor)
    (hsatp : h.csr .satp = ksatp) (hsp : h.get sp = tf) (hheld : Holds m₂ tf reg pc status)
    (huser : m₂ (tf + 296) = satp) (hm₂ : Set.EqOn m₂ m K) :
    Leads p W (fun h₃ m₃ => Continued h h₃ reg pc status satp ∧ Set.EqOn m₃ m₂ W) h m₂ := by
  have ha : Ahead p K S' 0 h m₂ processBootstrap e := by
    refine ⟨by rw [hmode]; decide, hpc.symm ▸ hboot, ?_⟩
    rw [hmode, hsatp]
    exact hfetch.congr hm₂
  refine Leads.la hK ha fun n₁ ha => ?_
  refine Leads.la hK ha fun n₂ ha => ?_
  refine Leads.alu hK ha (fun _ _ => rfl) fun n₃ ha => ?_
  refine Leads.alu hK ha (fun _ _ => rfl) fun n₄ ha => ?_
  refine Leads.alu hK ha (fun _ _ => rfl) fun n₅ ha => ?_
  refine Leads.jump hK ha _ (fun _ _ => rfl) fun n₆ _ => ?_
  have htarget : trampolineVa + (p.symbol .restoreState + 0 - (p.symbol .userTrampoline + 0)) + 0 =
      p.symbol .restoreState + lift p := by
    rw [add_zero, add_zero, add_zero, lift, ← add_sub_assoc, ← add_sub_assoc,
      add_comm trampolineVa]
  exact Leads.mono (restoreState_leads hK ht hm htarget hmode hsatp hsp hheld huser hm₂)
    fun h₃ m₃ ⟨hc, hm₃⟩ => ⟨⟨hc.pc, hc.mode, hc.regs, hc.sie, hc.satp, hc.vector, hc.scratch,
      hc.csr⟩, hm₃⟩

end RexOS.Assembly
