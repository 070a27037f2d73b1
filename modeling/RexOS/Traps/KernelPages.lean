import RexOS.Core.Runs
import RexOS.Traps.Sharing

/-!
# Kernel pages in the tables of processes

The table of a process maps the trampoline and the kernel stack of the process, for the
kernel alone. Syscalls 15 and 16 keep that, and keep these frames from users, as long as no
call that passes the capability check names one of the two pages to 16, or makes 15 write an
entry with the page number of such a frame.
-/

namespace RexOS.Traps

open Bits RexOS.Kalloc RexOS.Paging

variable {β : Type} {A : PageAlloc β} {Owns : β → List Grant → Prop} {m m' : Machine β}
  {L : List Grant} {trampoline : Nat} {curr target p : Process} {a0 a1 a2 a3 : Nat}

/-- A call of one of the two syscalls by the process with a pid. -/
inductive SharingCall where
  | map (pid a0 a1 a2 a3 : Nat)
  | unmap (pid a0 a1 : Nat)

namespace Machine

/-- The page numbers of the trampoline and of all kernel stacks. -/
def kernelFrames (trampoline : Nat) (m : Machine β) : List Nat :=
  trampoline / 4096 :: (m.procs ++ m.zombies).map fun p => p.kstack / 4096

/-- A call by a live process; `none` if the machine stops. -/
def share (A : PageAlloc β) (m : Machine β) : SharingCall → Option (Machine β)
  | .map pid a0 a1 a2 a3 =>
    match m.procs.find? fun p => p.pid == pid with
    | none => none
    | some curr =>
      match m.mapSharedPage A curr a0 a1 a2 a3 with
      | .done _ m' => some m'
      | _ => none
  | .unmap pid a0 a1 =>
    match m.procs.find? fun p => p.pid == pid with
    | none => none
    | some curr => some (m.unmapSharedPage curr a0 a1).2

/-- The kernel pages are where `create_user_table` put them, and no user page is in a frame of
the kernel. -/
structure KernelPages (trampoline : Nat) (m : Machine β) : Prop where
  code : ∀ p ∈ m.procs, sv39 m.space.mem p.root 0x3FFFFFF000 =
    some ⟨trampoline / 4096 * 4096, leafFlags 0 8⟩
  kstack : ∀ p ∈ m.procs, sv39 m.space.mem p.root 0x3FFFFFE000 =
    some ⟨p.kstack / 4096 * 4096, leafFlags 0 6⟩
  hidden : ∀ p ∈ m.procs ++ m.zombies, ∀ va hit, sv39 m.space.mem p.root va = some hit →
    hit.flags.testBit 4 = true → hit.phys / 4096 ∉ m.kernelFrames trampoline

/-- The call is refused, or it does not touch what is the kernel's. -/
def Harmless (trampoline : Nat) (m : Machine β) : SharingCall → Prop
  | .map pid a0 a1 _ a3 => ∀ curr, m.procs.find? (fun p => p.pid == pid) = some curr →
      ∀ target, m.getProcessByPid a0 = some target →
      (curr.rightsOn target.pid &&& 4 = 0 ∧ curr.pid ≠ target.pid) ∨
      uvmTranslate m.space.mem curr.satp a1 = 0 ∨
      uvmTranslate m.space.mem curr.satp a1 / 4096 ||| a3 % 2 ^ 32 / 1024 ∉
        m.kernelFrames trampoline
  | .unmap pid a0 a1 => ∀ curr, m.procs.find? (fun p => p.pid == pid) = some curr →
      ∀ target, m.getProcessByPid a0 = some target →
      (curr.rightsOn target.pid &&& 4 = 0 ∧ curr.pid ≠ target.pid) ∨
      (a1 % 2 ^ 39 / 4096 ≠ 0x3FFFFFF ∧ a1 % 2 ^ 39 / 4096 ≠ 0x3FFFFFE)

end Machine

open Machine

/-! ## What a call changes -/

/-- From `m` to `m'` the entry of the page of `va` in the table of `target` became `new`. -/
structure Edited (Owns : β → List Grant → Prop) (m m' : Machine β) (target : Process) (va : Nat)
    (new : Option Nat) : Prop where
  rest : m' = { m with space := m'.space }
  live : target ∈ m.procs
  forest : ∃ L', Forest Owns m.roots m'.space L'
  pte : ∀ r ∈ m.roots, ∀ a, m'.space.pteAt r a =
    if r = target.root ∧ indices a = indices va then new else m.space.pteAt r a

/-- What a call does: nothing, end its caller, map a page that was not mapped, or take one
away. -/
theorem share_cases (hA : A.Grants Owns) (h : m.Sane Owns L) {c : SharingCall}
    (hs : m.share A c = some m') :
    m' = m ∨ (∃ curr ∈ m.procs, m' = m.exitProcess curr) ∨
    (∃ pid a0 a1 a2 a3 curr target, c = .map pid a0 a1 a2 a3 ∧
      m.procs.find? (fun p => p.pid == pid) = some curr ∧ m.getProcessByPid a0 = some target ∧
      ¬ (curr.rightsOn target.pid &&& 4 = 0 ∧ curr.pid ≠ target.pid) ∧
      uvmTranslate m.space.mem curr.satp a1 ≠ 0 ∧ m.space.pteAt target.root a2 = none ∧
      Edited Owns m m' target a2 (some (leafPte 0x10 (a3 % 2 ^ 32)
        (andNot (uvmTranslate m.space.mem curr.satp a1) 0xFFF)))) ∨
    ∃ pid a0 a1 curr target, c = .unmap pid a0 a1 ∧
      m.procs.find? (fun p => p.pid == pid) = some curr ∧ m.getProcessByPid a0 = some target ∧
      ¬ (curr.rightsOn target.pid &&& 4 = 0 ∧ curr.pid ≠ target.pid) ∧
      Edited Owns m m' target a1 none := by
  cases c with
  | map pid a0 a1 a2 a3 =>
    rw [share] at hs
    split at hs
    · exact absurd hs (by simp)
    · rename_i curr hcurr
      have hmem := List.mem_of_find?_eq_some hcurr
      split at hs
      · rename_i reply m₁ hrun
        obtain rfl := Option.some.inj hs
        have hrun' := hrun
        unfold mapSharedPage at hrun
        dsimp only at hrun
        split at hrun
        · obtain ⟨_, rfl⟩ := Outcome.done.inj hrun
          exact Or.inr (Or.inl ⟨curr, hmem, rfl⟩)
        · split at hrun
          · obtain ⟨_, rfl⟩ := Outcome.done.inj hrun
            exact Or.inl rfl
          · split at hrun
            · obtain ⟨_, rfl⟩ := Outcome.done.inj hrun
              exact Or.inl rfl
            · obtain ⟨_, _, _, he⟩ := Outcome.bind_eq_done.mp hrun
              obtain ⟨rfl, _⟩ := Outcome.done.inj he
              obtain ⟨target, s, ht, hc, hphys, hexec, rfl⟩ := mapSharedPage_eq_one hrun'
              have hlive := h.target_mem hmem ht hc
              have hroot := root_mem (List.mem_append_left m.zombies hlive)
              obtain ⟨hf, hnone, hpte⟩ :=
                h.forest.exec_done hA hroot (MapCall.len_of_page rfl) hexec
              exact Or.inr (Or.inr (Or.inl ⟨pid, a0, a1, a2, a3, curr, target, rfl, hcurr, ht, hc,
                hphys, hnone, rfl, hlive, hf, hpte⟩))
      · exact absurd hs (by simp)
  | unmap pid a0 a1 =>
    rw [share] at hs
    split at hs
    · exact absurd hs (by simp)
    · rename_i curr hcurr
      have hmem := List.mem_of_find?_eq_some hcurr
      obtain rfl := Option.some.inj hs
      unfold unmapSharedPage
      split
      · exact Or.inl rfl
      · rename_i target ht
        split
        · exact Or.inl rfl
        · rename_i hc
          have hlive := h.target_mem hmem ht hc
          have hroot := root_mem (List.mem_append_left m.zombies hlive)
          rcases h.forest.uvmUnmap_pteAt hA hroot rfl a1 with ⟨_, hrun⟩ | ⟨_, s, hrun, hf, hpte⟩
          · rw [hrun]
            exact Or.inl rfl
          · rw [hrun]
            exact Or.inr (Or.inr (Or.inr ⟨pid, a0, a1, curr, target, rfl, hcurr, ht, hc, rfl, hlive,
              ⟨L, hf⟩, hpte⟩))

namespace Edited

variable {va : Nat} {new : Option Nat}

/-- A page that is shared or taken back leaves the machine sane. -/
theorem sane (he : Edited Owns m m' target va new) (h : m.Sane Owns L) : ∃ L', m'.Sane Owns L' := by
  obtain ⟨L', hf⟩ := he.forest
  rw [he.rest]
  exact ⟨L', hf, h.idle, h.users, h.ungranted⟩

/-- The hardware sees the change at the addresses of the page alone. -/
theorem sv39_eq (hA : A.Grants Owns) (hlow : ∀ b L, Owns b L → Low L)
    (he : Edited Owns m m' target va new) (h : m.Sane Owns L) (hp : p ∈ m.procs ++ m.zombies)
    (a : Nat) : sv39 m'.space.mem p.root a =
      if p.root = target.root ∧ indices a = indices va then
        if Canonical a then new.bind (pageHit a) else none
      else sv39 m.space.mem p.root a := by
  obtain ⟨L', hf⟩ := he.forest
  have hr := root_mem hp
  rw [hf.sv39_eq hA (hlow _ _ hf.owns) hr, he.pte _ hr,
    h.forest.sv39_eq hA (hlow _ _ h.forest.owns) hr]
  by_cases hc : p.root = target.root ∧ indices a = indices va
  · simp only [if_pos hc]
  · simp only [if_neg hc]

end Edited

/-! ## One call -/

/-- A process that exits is among the zombies. -/
theorem Machine.exitProcess_subset (hcurr : curr ∈ m.procs) :
    (m.exitProcess curr).procs ++ (m.exitProcess curr).zombies ⊆ m.procs ++ m.zombies := by
  intro p hp
  rcases List.mem_append.mp hp with hp | hp
  · exact List.mem_append_left _ (List.mem_of_mem_filter hp)
  · rcases List.mem_cons.mp hp with rfl | hp
    · exact List.mem_append_left _ hcurr
    · exact List.mem_append_right _ hp

/-- An exit leaves the machine sane. -/
theorem Machine.Sane.exitProcess (h : m.Sane Owns L) (hcurr : curr ∈ m.procs) :
    (m.exitProcess curr).Sane Owns L where
  forest := h.forest.mono (List.map_subset _ (exitProcess_subset hcurr))
  idle := h.idle
  users p hp := h.users p (List.mem_of_mem_filter hp)
  ungranted p hp := h.ungranted p (List.mem_of_mem_filter hp)

/-- An edit that leaves the two kernel pages alone and adds no user page in a kernel frame. -/
theorem Machine.KernelPages.edited (hA : A.Grants Owns) (hlow : ∀ b L, Owns b L → Low L)
    (h : m.Sane Owns L) (hk : m.KernelPages trampoline) {va : Nat} {new : Option Nat}
    (he : Edited Owns m m' target va new)
    (hkeep : ∀ p ∈ m.procs, p.root = target.root → indices 0x3FFFFFF000 ≠ indices va ∧
      indices 0x3FFFFFE000 ≠ indices va)
    (hnew : ∀ e a hit, new = some e → pageHit a e = some hit →
      hit.phys / 4096 ∉ m.kernelFrames trampoline) : m'.KernelPages trampoline := by
  have hsv := fun {p : Process} (hp : p ∈ m.procs ++ m.zombies) => he.sv39_eq hA hlow h hp
  have hframes : m'.kernelFrames trampoline = m.kernelFrames trampoline := by
    rw [he.rest]
    rfl
  have hprocs : m'.procs = m.procs := by rw [he.rest]
  have hzombies : m'.zombies = m.zombies := by rw [he.rest]
  refine ⟨fun p hp => ?_, fun p hp => ?_, fun p hp a hit hhit huser => ?_⟩
  · rw [hprocs] at hp
    rw [hsv (List.mem_append_left _ hp), if_neg fun hc => (hkeep p hp hc.1).1 hc.2]
    exact hk.code p hp
  · rw [hprocs] at hp
    rw [hsv (List.mem_append_left _ hp), if_neg fun hc => (hkeep p hp hc.1).2 hc.2]
    exact hk.kstack p hp
  · rw [hprocs, hzombies] at hp
    rw [hframes]
    rw [hsv hp] at hhit
    split at hhit
    · split at hhit
      · obtain ⟨e, hne, hpage⟩ := Option.bind_eq_some_iff.mp hhit
        exact hnew e a hit hne hpage
      · exact absurd hhit (by simp)
    · exact hk.hidden p hp a hit hhit huser

/-- A harmless call keeps the pages of the kernel where they are. -/
theorem Machine.KernelPages.onCall (hA : A.Grants Owns) (hlow : ∀ b L, Owns b L → Low L)
    (h : m.Sane Owns L) (hk : m.KernelPages trampoline) {c : SharingCall}
    (hc : Harmless trampoline m c) (hs : m.share A c = some m') :
    (∃ L', m'.Sane Owns L') ∧ m'.KernelPages trampoline := by
  have hL := hlow _ _ h.forest.owns
  rcases share_cases hA h hs with rfl | ⟨curr, hcurr, rfl⟩ |
    ⟨pid, a0, a1, a2, a3, curr, target, rfl, hcurr, ht, hright, hphys, hnone, he⟩ |
    ⟨pid, a0, a1, curr, target, rfl, hcurr, ht, hright, he⟩
  · exact ⟨⟨L, h⟩, hk⟩
  · refine ⟨⟨L, h.exitProcess hcurr⟩, fun p hp => hk.code p (List.mem_of_mem_filter hp),
      fun p hp => hk.kstack p (List.mem_of_mem_filter hp), fun p hp va hit hhit huser hin => ?_⟩
    have hsub := exitProcess_subset hcurr
    refine hk.hidden p (hsub hp) va hit hhit huser ?_
    rcases List.mem_cons.mp hin with heq | hin
    · exact heq ▸ List.mem_cons_self
    · exact List.mem_cons_of_mem _ (List.map_subset _ hsub hin)
  · -- the page was not mapped, so it is no kernel page
    have hmapped : ∀ p ∈ m.procs, ∀ a hit, sv39 m.space.mem p.root a = some hit →
        p.root = target.root → indices a ≠ indices a2 := by
      intro p hp a hit hhit hroot hi
      rw [h.forest.sv39_eq hA hL (root_mem (List.mem_append_left _ hp)), hroot,
        Space.pteAt_congr hi, hnone] at hhit
      split at hhit
      · exact absurd hhit (by simp)
      · exact absurd hhit (by simp)
    refine ⟨he.sane h, hk.edited hA hlow h he (fun p hp hroot =>
      ⟨hmapped p hp _ _ (hk.code p hp) hroot, hmapped p hp _ _ (hk.kstack p hp) hroot⟩) ?_⟩
    intro e a hit hne hpage
    obtain rfl := Option.some.inj hne
    obtain ⟨_, rfl⟩ := (pageHit_eq_some (valid_leafPte _ _ _)).mp hpage
    have hframe := ((hc curr hcurr target ht).resolve_left hright).resolve_left hphys
    have hnum : (leafPte 0x10 (a3 % 2 ^ 32) (andNot (uvmTranslate m.space.mem curr.satp a1) 0xFFF) /
        1024 * 4096 + a % 4096) / 4096 =
        uvmTranslate m.space.mem curr.satp a1 / 4096 ||| a3 % 2 ^ 32 / 1024 := by
      rw [leafPte_div, MapCall.andNot_page, Nat.mul_div_cancel _ (by decide)]
      omega
    dsimp only
    rw [hnum]
    exact hframe
  · obtain ⟨h1, h2⟩ := (hc curr hcurr target ht).resolve_left hright
    refine ⟨he.sane h, hk.edited hA hlow h he (fun p hp hroot =>
      ⟨fun hi => h1 (indices_eq_iff.mp hi).symm, fun hi => h2 (indices_eq_iff.mp hi).symm⟩) ?_⟩
    intro e a hit hne
    exact absurd hne (by simp)

/-! ## Every run -/

/-- Kernel pages stay where they are and private over any run of harmless calls. -/
theorem kernelPages_of_run (hA : A.Grants Owns) (hlow : ∀ b L, Owns b L → Low L) {m₀ : Machine β}
    (h : m₀.Sane Owns L) (hk : m₀.KernelPages trampoline) {g : List (Machine β × SharingCall)}
    (hr : Run (Machine.share A) m₀ g m) (hP : Run.Steps (Harmless trampoline) g) :
    m.KernelPages trampoline := by
  have hinv : (∃ L', m.Sane Owns L') ∧ m.KernelPages trampoline := by
    refine hr.invariant (I := fun m => (∃ L', m.Sane Owns L') ∧ m.KernelPages trampoline) hP
      ⟨⟨L, h⟩, hk⟩ ?_
    rintro m c m' ⟨⟨L, h⟩, hk⟩ hc hs
    exact hk.onCall hA hlow h hc hs
  exact hinv.2

/-! ## The process with one page -/

theorem readerMachine_frames (root : Nat) (s : Space State) :
    (readerMachine root s).kernelFrames 0x80200000 = [0x80200, 0x80A00] := by
  have hcode : 0x80200000 / 4096 = 0x80200 := by omega
  have hstack : 0x80A00000 / 4096 = 0x80A00 := by omega
  unfold kernelFrames readerMachine
  rw [List.append_nil, List.map_singleton, hcode, hstack]

/-- The example has its two pages of the kernel. -/
theorem readerMachine_kernelPages {root : Nat} {s : Space State} {L : List Grant}
    (h : (readerMachine root s).Sane (Granted virt virtBssEnd) L)
    (hsatp : satpTable (satpOf root) = root) (hpte : ∀ a, s.pteAt root a = readerPte a) :
    (readerMachine root s).KernelPages 0x80200000 := by
  have hA := buddy_grants 0 virt_machine virt_fits
  have hmem : (⟨1, satpOf root, 0x80A00000, fun _ => 0⟩ : Process) ∈ (readerMachine root s).procs :=
    List.mem_cons_self
  have hsv : ∀ a, sv39 s.mem root a = if Canonical a then (readerPte a).bind (pageHit a)
      else none := by
    intro a
    have hroot := root_mem (List.mem_append_left (readerMachine root s).zombies hmem)
    have heq := h.forest.sv39_eq hA (virt_low _ _ h.forest.owns) hroot a
    rw [show (⟨1, satpOf root, 0x80A00000, fun _ => 0⟩ : Process).root = root from hsatp] at heq
    rw [← hpte]
    exact heq
  have hall : ∀ p ∈ (readerMachine root s).procs ++ (readerMachine root s).zombies, p.root = root ∧
      p.kstack = 0x80A00000 := by
    intro p hp
    rw [List.mem_singleton.mp hp]
    exact ⟨hsatp, rfl⟩
  refine ⟨fun p hp => ?_, fun p hp => ?_, fun p hp a hit hhit huser => ?_⟩
  · rw [(hall p hp).1]
    exact (hsv _).trans (by decide)
  · rw [(hall p hp).1, (hall p hp).2]
    exact (hsv _).trans (by decide)
  · rw [(hall p hp).1] at hhit
    have hpage : (readerPte a).bind (pageHit a) = some hit := by
      have heq := (hsv a).symm.trans hhit
      split at heq
      · exact heq
      · exact absurd heq (by simp)
    obtain ⟨e, he, hhit'⟩ := Option.bind_eq_some_iff.mp hpage
    unfold readerPte at he
    split_ifs at he
    · obtain rfl := Option.some.inj he
      obtain ⟨_, rfl⟩ := (pageHit_eq_some (valid_leafPte _ _ _)).mp hhit'
      have hnum : (leafPte 0x10 2 0x80600000 / 1024 * 4096 + a % 4096) / 4096 = 0x80600 := by
        rw [show leafPte 0x10 2 0x80600000 / 1024 = 0x80600 by decide]
        omega
      rw [readerMachine_frames]
      dsimp only
      rw [hnum]
      decide
    all_goals
      obtain rfl := Option.some.inj he
      obtain ⟨_, rfl⟩ := (pageHit_eq_some (valid_leafPte _ _ _)).mp hhit'
      dsimp only at huser
      exact absurd huser (by decide)

/-- Sharing its page with itself keeps the kernel pages. -/
theorem kernelPages_of_run_virt : ∃ (root : Nat) (s : Space State) (m' : Machine State),
    (readerMachine root s).share (buddy virt 0) (.map 1 1 0x1000 0x2000 2) = some m' ∧
    m'.KernelPages 0x80200000 := by
  have hA := buddy_grants 0 virt_machine virt_fits
  obtain ⟨root, s, m', L, hsane, hsatp, hpte, hrun⟩ := reader_shares 2 (by decide)
  have hshare :
      (readerMachine root s).share (buddy virt 0) (.map 1 1 0x1000 0x2000 2) = some m' := by
    have hcurr : (readerMachine root s).procs.find? (fun p => p.pid == 1) =
        some ⟨1, satpOf root, 0x80A00000, fun _ => 0⟩ := rfl
    rw [share, hcurr]
    dsimp only
    rw [hrun]
  have hharmless : Harmless 0x80200000 (readerMachine root s) (.map 1 1 0x1000 0x2000 2) := by
    rintro curr hcurr target _
    obtain rfl := Option.some.inj hcurr
    have hroot := root_mem (m := readerMachine root s) (List.mem_append_left _ List.mem_cons_self)
    have hphys : uvmTranslate (readerMachine root s).space.mem (satpOf root) 0x1000 =
        0x80600000 := by
      have hpte' : (readerMachine root s).space.pteAt
          (⟨1, satpOf root, 0x80A00000, fun _ => 0⟩ : Process).root 0x1000 =
          some (leafPte 0x10 2 0x80600000) := by
        show s.pteAt (satpTable (satpOf root)) 0x1000 = _
        rw [hsatp]
        exact hpte 0x1000
      rw [hsane.forest.uvmTranslate_pteAt hA hroot rfl, hpte']
      decide
    refine Or.inr (Or.inr ?_)
    dsimp only
    rw [hphys, readerMachine_frames]
    decide
  exact ⟨root, s, m', hshare, kernelPages_of_run hA virt_low hsane
    (readerMachine_kernelPages hsane hsatp hpte) (.snoc .nil hshare)
    (Run.steps_cons.mpr ⟨hharmless, Run.Steps.nil⟩)⟩

/-- A process takes its own kernel stack out of its table. -/
theorem unmap_kstack : ∃ (root : Nat) (s : Space State) (m' : Machine State) (L : List Grant),
    (readerMachine root s).Sane (Granted virt virtBssEnd) L ∧
    (readerMachine root s).KernelPages 0x80200000 ∧
    Run (Machine.share (buddy virt 0)) (readerMachine root s)
      [(readerMachine root s, .unmap 1 1 0x3FFFFFE000)] m' ∧
    ¬ m'.KernelPages 0x80200000 := by
  have hA := buddy_grants 0 virt_machine virt_fits
  obtain ⟨root, s, m₁, L, hsane, hsatp, hpte, _⟩ := reader_shares 2 (by decide)
  have hroot := root_mem (m := readerMachine root s) (List.mem_append_left _ List.mem_cons_self)
  have hkernel := readerMachine_kernelPages hsane hsatp hpte
  have hshare : (readerMachine root s).share (buddy virt 0) (.unmap 1 1 0x3FFFFFE000) =
      some { readerMachine root s with space := (uvmUnmap (satpOf root) 0x3FFFFFE000 s).2 } := by
    show some ((readerMachine root s).unmapSharedPage ⟨1, satpOf root, 0x80A00000, fun _ => 0⟩ 1
      0x3FFFFFE000).2 = _
    unfold Machine.unmapSharedPage
    have hfind : (readerMachine root s).getProcessByPid 1 =
        some ⟨1, satpOf root, 0x80A00000, fun _ => 0⟩ := rfl
    rw [hfind]
    dsimp only
    rw [if_neg fun hc => hc.2 rfl]
    split
    · rfl
    · rfl
  refine ⟨root, s, _, L, hsane, hkernel, .snoc .nil hshare, fun hk => ?_⟩
  rcases hsane.forest.uvmUnmap_pteAt hA hroot rfl 0x3FFFFFE000
    with ⟨hnone, _⟩ | ⟨_, s', hrun, hf, hpte'⟩
  · have hsome :
        s.pteAt (satpTable (satpOf root)) 0x3FFFFFE000 = some (leafPte 0 6 0x80A00000) := by
      rw [hsatp]
      exact (hpte _).trans (by decide)
    exact absurd (hnone.symm.trans hsome) (by simp)
  · have hspace : (uvmUnmap (satpOf root) 0x3FFFFFE000 s).2 = s' := congrArg Prod.snd hrun
    have hmapped := hk.kstack _ List.mem_cons_self
    dsimp only at hmapped
    rw [hspace, hf.sv39_eq hA (virt_low _ _ hf.owns) hroot, hpte' _ hroot, if_pos (by decide),
      if_pos ⟨rfl, rfl⟩] at hmapped
    exact absurd hmapped (by simp)

end RexOS.Traps
