import RexOS.Assembly.Trampoline

/-!
# The run of a process

A process runs in user mode and traps, again and again. Between its instructions the kernel and
the other harts run. What a trap changes in the process is what the kernel writes into its frame,
and nothing else: after any number of instructions and traps the process has its own registers.
-/

namespace RexOS.Assembly

open Riscv

variable {p : Platform Symbol} {K W S : Set Word} {h h₁ : Hart} {m m' m₁ : Memory} {f : Fault}
  {back : Word}

/-- A process as the trampoline knows it: its frame, its tables and its way into the kernel. -/
structure Proc where
  tf : Word
  satp : Word
  kernelSatp : Word
  kernelSp : Word
  kernelTrap : Word
  kernelTp : Word

/-- What a process has of the state of its hart. -/
structure View where
  pc : Word
  reg : Reg → Word

def view (h : Hart) : View := ⟨h.pc, h.get⟩

variable {q : Proc}

/-- No access of user mode gets to the tables or to the frame. -/
def Sealed (p : Platform Symbol) (K : Set Word) (q : Proc) (m : Memory) : Prop :=
  ∀ m', Set.EqOn m' m K → ∀ x va pa, p.translate x .user q.satp m' va = some pa →
    pa ∉ K ∧ ∀ o ∈ places 39, pa ≠ q.tf + o

/-- The memory of a process between its traps. -/
structure Kept (p : Platform Symbol) (K W S : Set Word) (q : Proc) (m : Memory) : Prop where
  mapped : Mapped p K W S m q.satp q.kernelSatp q.tf
  fields : Fields m q.tf q.satp q.kernelSatp q.kernelSp q.kernelTrap q.kernelTp
  shut : Sealed p K q m

/-- The process runs and is ready for a trap. -/
structure Ready (p : Platform Symbol) (K W S : Set Word) (q : Proc) (h : Hart) (m : Memory) :
    Prop extends Kept p K W S q m where
  mode : h.mode = .user
  satp : h.csr .satp = q.satp
  vector : h.csr .stvec = trampolineVa
  scratch : h.csr .sscratch = frameVa

/-- The kernel at its return to the trampoline. -/
structure Served (p : Platform Symbol) (K W S : Set Word) (q : Proc) (back : Word) (v : View)
    (status : Word) (h : Hart) (m : Memory) : Prop extends Kept p K W S q m where
  pc : h.pc = back
  mode : h.mode = .supervisor
  satp : h.csr .satp = q.kernelSatp
  scratch : h.csr .sscratch = q.tf
  held : Holds m q.tf v.reg v.pc status
  zero : v.reg 0 = 0

/-- The router serves the process: called for a fault, it comes back to the trampoline with the
process edited by `edit` and with everything else of it kept. -/
def Serves (p : Platform Symbol) (K W S : Set Word) (q : Proc) (back : Word)
    (edit : Fault → View → View → Prop) : Prop :=
  ∀ f v status h₁ m₁,
    UserCalled p f q.kernelSatp q.kernelSp q.kernelTrap q.kernelTp back h₁ →
    Holds m₁ q.tf v.reg v.pc status → v.reg 0 = 0 → Kept p K W S q m₁ →
    Leads p W (fun h₂ m₂ => ∃ v', edit f v v' ∧ Served p K W S q back v' status h₂ m₂) h₁ m₁

/-- What is mapped stays so in memory that agrees on the tables. -/
theorem Mapped.congr {satp ksatp tf : Word} (hm : Mapped p K W S m satp ksatp tf)
    (he : Set.EqOn m' m K) : Mapped p K W S m' satp ksatp tf where
  fetched := hm.fetched.congr he
  fetchedKernel := hm.fetchedKernel.congr he
  frame := hm.frame.mono (fun _ => id) he
  frameKernel := hm.frameKernel.mono (fun _ => id) he

/-- What is kept stays so in memory that agrees on the frame, too. -/
theorem Kept.congr (hk : Kept p K W S q m) (he : Set.EqOn m' m K)
    (hf : ∀ o ∈ places 39, m' (q.tf + o) = m (q.tf + o)) : Kept p K W S q m' where
  mapped := hk.mapped.congr he
  fields := hk.fields.congr fun o ho _ => hf o ho
  shut m₂ h₂ := hk.shut m₂ (h₂.trans he)

/-- What the others leave alone is enough for the process. -/
theorem Kept.interfere (hK : K ⊆ W) (hk : Kept p K W S q m) (he : Set.EqOn m' m W) :
    Kept p K W S q m' :=
  hk.congr (he.mono hK) fun o ho => he (hk.mapped.frame.own o ho)

/-! ## One trap -/

/-- The status of a trap from user mode. -/
theorem status_user {k : ℕ} (hmode : h.mode = .user) (hk : k = 8 ∨ k = 5) :
    ((h.trapS f).read .sstatus).getLsbD k = (if k = 5 then h.sie else false) := by
  rcases hk with rfl | rfl
  · rw [Hart.read, BitVec.getLsbD_and, Hart.trapS, getLsbD_putBit _ (by decide), hmode]
    rfl
  · rw [Hart.read, BitVec.getLsbD_and, Hart.trapS, getLsbD_putBit _ (by decide),
      getLsbD_putBit _ (by decide), getLsbD_putBit _ (by decide)]
    simp [sstatusMask]

/-- After a trap the process is what the kernel has made of it, and ready for the next. -/
theorem trap_leads {edit : Fault → View → View → Prop} (hK : K ⊆ W)
    (ht : TrampolineText p S back) (hs : Serves p K W S q back edit)
    (hr : Ready p K W S q h m) :
    Leads p W (fun h₃ m₃ => Ready p K W S q h₃ m₃ ∧ edit f (view h) (view h₃) ∧
      h₃.sie = h.sie) (h.trapS f) m := by
  refine (trampolineEntry_leads hK hr.vector hr.scratch hr.satp ht hr.mapped hr.fields).bind
    fun h₁ m₁ ⟨hcall, hheld, hfields, hm₁⟩ => ?_
  have hkept : Kept p K W S q m₁ :=
    ⟨hr.mapped.congr hm₁, hfields, fun m₂ h₂ => hr.shut m₂ (h₂.trans hm₁)⟩
  refine (hs f (view h) _ h₁ m₁ hcall hheld h.get_zero hkept).bind
    fun h₂ m₂ ⟨v, hedit, hserved⟩ => ?_
  refine (trampolineReturn_leads hK ht hserved.mapped hserved.pc hserved.mode hserved.satp
    hserved.scratch hserved.held hserved.fields.userSatp (Set.eqOn_refl _ _)).mono
    fun h₃ m₃ ⟨hc, hm₃⟩ => ?_
  have hview : view h₃ = v := by
    have hreg : h₃.get = v.reg := by
      funext r
      by_cases h0 : r = 0
      · rw [h0, Hart.get_zero, hserved.zero]
      · exact hc.regs r h0
    rw [view, hc.pc, hreg]
  have hmode : h₃.mode = .user := by
    rw [hc.mode, status_user hr.mode (Or.inl rfl)]
    rfl
  refine ⟨⟨hserved.toKept.interfere hK hm₃, hmode, hc.satp, hc.vector, hc.scratch⟩,
    hview ▸ hedit, ?_⟩
  rw [hc.sie, status_user hr.mode (Or.inr rfl)]
  rfl

/-! ## Runs -/

inductive Event where
  /-- An instruction of the process. -/
  | own
  /-- A trap, and everything up to the next instruction of the process. -/
  | trap (f : Fault)
  /-- The other harts. -/
  | others

/-- A hart and its memory, between two instructions of the process. -/
abbrev Moment := Hart × Memory

/-- What an event makes of a moment. -/
inductive Goes (p : Platform Symbol) (W : Set Word) : Moment → Event → Moment → Prop
  | own {x y : Moment} (hs : p.step x.1 x.2 = .ok y) : Goes p W x .own y
  | trap {x y : Moment} {f : Fault} (hp : Path p W (x.1.trapS f) x.2 y.1 y.2)
      (hmode : y.1.mode = .user) : Goes p W x (.trap f) y
  | others {x y : Moment} (hh : y.1 = x.1) (hm : Set.EqOn y.2 x.2 W) : Goes p W x .others y

/-- The events that lead from one moment to another, the last one first. -/
inductive History (p : Platform Symbol) (W : Set Word) (x : Moment) :
    List (Moment × Event × Moment) → Moment → Prop
  | nil : History p W x [] x
  | snoc {l : List (Moment × Event × Moment)} {y z : Moment} {e : Event}
      (hl : History p W x l y) (hg : Goes p W y e z) : History p W x ((y, e, z) :: l) z

/-- What an event may change of the process. -/
def Edits (edit : Fault → View → View → Prop) (x : Moment) : Event → Moment → Prop
  | .own, y => y.1.csr = x.1.csr
  | .trap f, y => edit f (view x.1) (view y.1) ∧ y.1.sie = x.1.sie
  | .others, y => view y.1 = view x.1

/-- One moment of the run. -/
theorem Ready.goes {edit : Fault → View → View → Prop} {x y : Moment} {e : Event} (hK : K ⊆ W)
    (ht : TrampolineText p S back) (hs : Serves p K W S q back edit)
    (hr : Ready p K W S q x.1 x.2) (hg : Goes p W x e y) :
    Ready p K W S q y.1 y.2 ∧ Edits edit x e y := by
  cases hg with
  | own hstep =>
    obtain ⟨hmode, hcsr, hmem⟩ := step_user hr.mode hstep
    have hkeep : ∀ w, w ∈ K ∨ (∃ o ∈ places 39, w = q.tf + o) → y.2 w = x.2 w := by
      intro w hw
      by_contra hne
      obtain ⟨va, hva⟩ := hmem w hne
      rw [hr.satp] at hva
      obtain ⟨hnK, hnF⟩ := hr.shut x.2 (Set.eqOn_refl _ _) _ _ _ hva
      rcases hw with hw | ⟨o, ho, rfl⟩
      · exact hnK hw
      · exact hnF o ho rfl
    refine ⟨⟨hr.toKept.congr (fun w hw => hkeep w (Or.inl hw)) fun o ho =>
      hkeep _ (Or.inr ⟨o, ho, rfl⟩), hmode, ?_, ?_, ?_⟩, hcsr⟩
    · rw [hcsr, hr.satp]
    · rw [hcsr, hr.vector]
    · rw [hcsr, hr.scratch]
  | trap hp hmode =>
    obtain ⟨hr', he, hsie⟩ := (trap_leads hK ht hs hr).of_path hp (fun _ _ h => h.1.mode) hmode
    exact ⟨hr', he, hsie⟩
  | others hh hm =>
    refine ⟨⟨hr.toKept.interfere hK hm, ?_, ?_, ?_, ?_⟩, congrArg view hh⟩
    all_goals rw [hh]
    exacts [hr.mode, hr.satp, hr.vector, hr.scratch]

/-- In every run of a process, whatever the other harts do: it is ready for a trap at every
moment, each of its traps comes back to it, and no trap has changed it but by the kernel's edit. -/
theorem process_run {edit : Fault → View → View → Prop} {x y : Moment}
    {l : List (Moment × Event × Moment)} (hK : K ⊆ W) (ht : TrampolineText p S back)
    (hs : Serves p K W S q back edit) (hr : Ready p K W S q x.1 x.2) (hl : History p W x l y) :
    Ready p K W S q y.1 y.2 ∧ (∀ s ∈ l, Edits edit s.1 s.2.1 s.2.2) ∧
      ∀ f, Leads p W (fun h m => Ready p K W S q h m ∧ edit f (view y.1) (view h))
        (y.1.trapS f) y.2 := by
  suffices hinv : Ready p K W S q y.1 y.2 ∧ ∀ s ∈ l, Edits edit s.1 s.2.1 s.2.2 from
    ⟨hinv.1, hinv.2, fun f =>
      (trap_leads hK ht hs hinv.1).mono fun _ _ h => ⟨h.1, h.2.1⟩⟩
  induction hl with
  | nil => exact ⟨hr, by simp⟩
  | snoc _ hg ih =>
    obtain ⟨hready, hedits⟩ := ih
    obtain ⟨hready', hedit⟩ := hready.goes hK ht hs hg
    exact ⟨hready', List.forall_mem_cons.mpr ⟨hedit, hedits⟩⟩

/-! ## A process of the image -/

def imageProc : Proc where
  tf := 0x81000EC8
  satp := 0x8000000000081010
  kernelSatp := 0x8000000000080040
  kernelSp := 0x81000EC8
  kernelTrap := 0x80002000
  kernelTp := 0x80003000

/-- Its frame when it runs for the first time. -/
def imageMemory : Memory := fun w =>
  if w = 0x81000EC8 + 272 then imageProc.kernelSatp
  else if w = 0x81000EC8 + 280 then imageProc.kernelSp
  else if w = 0x81000EC8 + 288 then imageProc.kernelTrap
  else if w = 0x81000EC8 + 296 then imageProc.satp
  else if w = 0x81000EC8 + 304 then imageProc.kernelTp
  else 0

def imageHart : Hart where
  pc := 0x100
  mode := .user
  reg r := if r = sp then 0x800 else 0x1000 + place r
  csr
    | .stvec => trampolineVa
    | .sscratch => frameVa
    | .satp => imageProc.satp
    | .mstatus => 2
    | _ => 0

/-- The image has the trampoline. -/
theorem trampolineText_image : TrampolineText image lifted 0x3FFFFFF0CC where
  entry := @text_trampoline [] trampolineEntry _ rfl
  ret := @text_trampoline trampolineEntry trampolineReturn _ rfl
  restore := ⟨_, @text_trampoline (trampolineEntry ++ trampolineReturn) restoreState [] rfl⟩

theorem mapped_image {m : Memory} {satp ksatp : Word} :
    Mapped image ∅ Set.univ lifted m satp ksatp 0x81000EC8 where
  fetched := fetched_lifted
  fetchedKernel := fetched_lifted
  frame := frame_image (by decide +kernel)
  frameKernel := frame_image (by decide +kernel)

theorem sealed_image {m : Memory} : Sealed image ∅ imageProc m := by
  rintro m' - x va pa hpa
  refine ⟨Set.notMem_empty _, fun o ho he => ?_⟩
  have hlow : ∀ o ∈ places 39, imageProc.tf + o < 0x90000000 := by
    have hall : (places 39).all fun o => decide (imageProc.tf + o < 0x90000000) := by
      decide +kernel
    exact fun o ho => of_decide_eq_true (List.all_eq_true.mp hall o ho)
  have hlt := hlow o ho
  rw [← he] at hlt
  simp only [Platform.translate, image, reduceCtorEq, if_false, if_true] at hpa
  split at hpa
  · rename_i hva
    obtain rfl := Option.some.inj hpa
    bv_omega
  · cases hpa

/-- The router leaves the process as it is. -/
theorem serves_image :
    Serves image ∅ Set.univ lifted imageProc 0x3FFFFFF0CC fun _ v v' => v' = v := by
  intro f v status h₁ m₁ hcall hheld hzero hkept
  have hK : (∅ : Set Word) ⊆ Set.univ := Set.empty_subset _
  have ht : Text image linked 0 0x80002000 userRouter 0x8000200C :=
    ⟨by decide, 4, rfl, by decide, 4, rfl, by decide, 4, rfl, rfl⟩
  have ha : Ahead image ∅ linked 0 h₁ m₁ userRouter 0x8000200C := by
    refine ⟨by rw [hcall.mode]; decide, hcall.pc ▸ ht, ?_⟩
    rw [hcall.mode]
    exact fetched_linked
  refine Leads.alu hK ha (fun _ _ => rfl) fun n₁ ha => ?_
  refine Leads.csrw hK ha (openTo_supervisor hcall.mode rfl) (by decide) fun n₂ ha => ?_
  refine Leads.jump hK ha _ (fun _ _ => rfl) fun n₃ _ => Leads.here fun m' hm' => ?_
  obtain rfl : m' = m₁ := Set.eqOn_univ _ _ |>.mp hm'
  exact ⟨v, rfl, hkept, (add_zero _).trans hcall.link, hcall.mode, hcall.satp, rfl, hheld, hzero⟩

/-- Its process is ready. -/
theorem ready_image : Ready image ∅ Set.univ lifted imageProc imageHart imageMemory where
  mapped := mapped_image
  fields := ⟨rfl, rfl, rfl, rfl, rfl⟩
  shut := sealed_image
  mode := rfl
  satp := rfl
  vector := rfl
  scratch := rfl

/-- A process that makes a call and goes on. -/
theorem process_run_image : ∃ y : Moment, y.1.get = imageHart.get ∧
    History image Set.univ (imageHart, imageMemory)
      [((imageHart, imageMemory), .trap ⟨8, 0⟩, y)] y ∧
    Ready image ∅ Set.univ lifted imageProc y.1 y.2 := by
  have hK : (∅ : Set Word) ⊆ Set.univ := Set.empty_subset _
  obtain ⟨h₂, m₂, hpath, hready, -⟩ := (trap_leads (f := ⟨8, 0⟩) hK trampolineText_image
    serves_image ready_image).exists_path
  have hist : History image Set.univ (imageHart, imageMemory)
      [((imageHart, imageMemory), .trap ⟨8, 0⟩, (h₂, m₂))] (h₂, m₂) :=
    .snoc .nil (.trap hpath hready.mode)
  obtain ⟨hready', hedits, -⟩ := process_run hK trampolineText_image serves_image ready_image hist
  exact ⟨(h₂, m₂), congrArg View.reg (hedits _ List.mem_cons_self).1, hist, hready'⟩

end RexOS.Assembly
