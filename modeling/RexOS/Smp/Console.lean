import RexOS.Smp.Pids
import RexOS.Smp.Readers
import RexOS.Smp.Reaping

/-!
# Readers and the interrupt of the console

`kmain` spawns the shell and has `shell_ptr` name it; from then on `shell_ptr` names the last
process that has read. A character from the console goes to that process if it is blocked. On one
hart every blocked process gets its character as long as nobody reads while another one is blocked.
-/

namespace RexOS.Smp

open Scheduler Kernel

variable {procs : Nat → Process} {s s' k : Kernel} {v v' : Place → List Nat} {h a n idle new : Nat}
  {w : WaitList} {image : Image} {m m' m₀ : Machine} {e : Event} {g : List (Machine × Event)}

/-! ## Lists -/

/-- The processes on a list. -/
def waiting (s : Kernel) (w : WaitList) : List Nat :=
  (List.iterate s.next (s.heads w) s.existing.length).takeWhile (· ≠ 0)

/-- A wait list, walked from its head, is the place of it. -/
theorem Settled.waiting_eq (hs : Settled s v) (w : WaitList) : waiting s w = v (.wait w) :=
  (hs.threaded.dll w).seg.takeWhile_iterate (hs.length_le _)

/-- On a wait list are the processes in its state. -/
theorem Settled.mem_waiting (hs : Settled s v) :
    a ∈ waiting s w ↔ a ∈ s.existing ∧ (s.procs a).state = w.state := by
  rw [hs.waiting_eq]
  exact ⟨fun ha => ⟨hs.mem_existing ha, (hs.valid.wait ha).1⟩, fun ha => hs.mem_wait ha.1 ha.2⟩

/-- An empty head is an empty list. -/
theorem Settled.waiting_nil (hs : Settled s v) : s.heads w = 0 ↔ waiting s w = [] := by
  rw [hs.waiting_eq]
  exact (hs.threaded.dll w).head_eq_nil_iff

/-! ## The shell -/

/-- `kmain` spawns the shell. -/
def Machine.spawnShell (m : Machine) (new : Nat) (image : Image) : Outcome Machine Unit :=
  ((m.kernel.spawnProcess 0 new image 16).within m.withKernel).bind fun shell m =>
    .done () (m.withKernel { m.kernel with shellPtr := shell })

/-- Hart 0 where `kmain` has spawned the shell. There was only the idle process before, and maybe
interrupts. -/
def Launched (procs : Nat → Process) (idle : Nat) (m : Machine) : Prop :=
  ∃ g₀ m₀ new image, Run Machine.step (booted procs 0 idle) g₀ m₀ ∧ m₀.kernel.existing = [idle] ∧
    m₀.Enabled (.spawn 0 new image 16) ∧ m₀.spawnShell new image = .done () m

/-- The shell pointer is in no place. -/
theorem Lone.setShell (hm : Lone s v) {x : Nat} (hx : x = 0 ∨ x ∈ s.existing) :
    Lone { s with shellPtr := x } v := by
  have hs := hm.steady.settled
  refine ⟨⟨⟨hm.steady.runs, fun h0 _ => hx.resolve_left h0⟩, ?_⟩, hm.hart, hm.up⟩
  refine hs.rearranged ?_ (Same.rest rfl) (fun _ => Iff.rfl) hs.valid
  refine hs.threaded.congr rfl rfl ?_ (fun _ _ _ => rfl) rfl
  funext q
  cases q <;> rfl

/-- What `spawn_process` returns. -/
theorem spawnProcess_value {priority : Nat}
    (hrun : s.spawnProcess h new image priority = .done n s') :
    n = 0 ∨ n ∈ s'.existing := by
  unfold Kernel.spawnProcess at hrun
  split at hrun
  · cases hrun
    exact Or.inl rfl
  · split at hrun
    · cases hrun
      exact Or.inl rfl
    · obtain ⟨pid, k, -, hdone⟩ := Outcome.bind_eq_done.mp hrun
      cases hdone
      exact Or.inr List.mem_cons_self

/-- After the launch hart 0 is alone, and nobody waits for a character. -/
theorem Launched.lone (h0 : idle ≠ 0) (hm : Launched procs idle m) :
    (∃ v, Lone m.kernel v) ∧ (m.kernel.shellPtr = 0 ∨ m.kernel.shellPtr ∈ m.kernel.existing) ∧
      ∀ a ∈ m.kernel.existing, (m.kernel.procs a).state ≠ .blocked := by
  obtain ⟨g₀, m₀, new, image, hr, hex, he, hshell⟩ := hm
  obtain ⟨v, hm₀⟩ := lone_run h0 hr
  obtain ⟨shell, m₁, hspawn, hdone⟩ := Outcome.bind_eq_done.mp hshell
  obtain ⟨k, hk, rfl⟩ := Outcome.within_eq_done.mp hspawn
  have hstep : m₀.step (.spawn 0 new image 16) = some (m₀.withKernel k) :=
     Machine.step_eq_some.mpr ⟨he, Outcome.bind_eq_done.mpr ⟨shell, _, hspawn, rfl⟩⟩
  cases hdone
  obtain ⟨v', -, hm₁⟩ := hm₀.course hstep
  have hvalue := spawnProcess_value hk
  refine ⟨⟨v', hm₁.setShell hvalue⟩, hvalue, fun a ha hb => ?_⟩
  have hunread := Unread.step hm₀.steady (hm₀.careful he) (fun _ => by simp) hstep
  obtain ⟨hin, hst⟩ := hunread.blocked a ha hb
  have hcurr : m₀.kernel.curr 0 = a := by
    have hc := hm₀.steady.settled.curr_existing he.1
    rw [hex] at hc hin
    rw [List.mem_singleton.mp hc, List.mem_singleton.mp hin]
  exact absurd ((hcurr ▸ he.2.2.2).symm.trans hst) (by simp)

/-! ## Reads -/

/-- A read empties the buffer, or blocks the process if it is empty. -/
theorem Steady.reads (hm : Steady m.kernel v) (hstep : m.step (.syscall h .getc) = some m') :
    m'.uartBuff = 0 ∧ m'.kernel.shellPtr = m.kernel.curr h ∧ m'.kernel.existing =
      m.kernel.existing ∧
      ∀ a, (m'.kernel.procs a).state =
        if a = m.kernel.curr h ∧ m.uartBuff = 0 then .blocked else (m.kernel.procs a).state := by
  obtain ⟨⟨hh, hssip, hpid, -⟩, hrun⟩ := Machine.step_eq_some.mp hstep
  have hrunning := hm.runs h hh hssip
  change m.getc h = _ at hrun
  unfold Machine.getc at hrun
  dsimp only at hrun
  by_cases hbuff : m.uartBuff = 0
  · have hshell := (hm.settled.shells (T := fun _ _ => True) hh).2.1
    obtain ⟨k, hpark, -, hb, -⟩ := hshell.park hh (Or.inr hrunning) hpid .blocked
    rw [if_neg (by simpa [Machine.withKernel] using hbuff)] at hrun
    obtain ⟨k', hk', rfl⟩ := Outcome.within_eq_done.mp hrun
    unfold blockProcess at hk'
    obtain ⟨_, k₁, hpark', hdone⟩ := Outcome.bind_eq_done.mp hk'
    cases hdone
    cases hpark.symm.trans hpark'
    refine ⟨hbuff, (field_bare Kernel.shellPtr (fun _ => rfl) hb).trans rfl,
      (field_bare Kernel.existing (fun _ => rfl) hb).trans rfl, fun a => ?_⟩
    refine (field_bare (fun x => (x.procs a).state) (fun _ => rfl) hb).trans ?_
    refine (congrArg Process.state (procs_parked _ _ a .blocked)).trans ?_
    rw [apply_ite Process.state]
    simp only [hbuff, and_true]
    rfl
  · rw [if_pos (by simpa [Machine.withKernel] using hbuff)] at hrun
    cases hrun
    refine ⟨rfl, rfl, rfl, fun a => ?_⟩
    rw [if_neg fun hc => hbuff hc.2]
    exact field_putChar Process.state (fun _ _ => rfl) _ _ _ _

/-- A read that finds a character in the buffer gets it in the register. -/
theorem Machine.getc_register (hstep : m.step (.syscall h .getc) = some m')
    (hbuff : m.uartBuff ≠ 0) :
    (m'.kernel.procs (m.kernel.curr h)).tf.uContext 10 = m.uartBuff := by
  obtain ⟨-, hrun⟩ := Machine.step_eq_some.mp hstep
  change m.getc h = _ at hrun
  unfold Machine.getc at hrun
  dsimp only at hrun
  rw [if_pos (by simpa [Machine.withKernel] using hbuff)] at hrun
  cases hrun
  exact register_putChar { m.kernel with shellPtr := m.kernel.curr h } _ _

/-- Only reads and the interrupt of the console write the buffer. -/
theorem Machine.uartBuff_step (hstep : m.step e = some m') (hread : ∀ h, e ≠ .syscall h .getc)
    (hchar : ∀ h irq c, e ≠ .external h irq c) : m'.uartBuff = m.uartBuff := by
  have hwithin : ∀ {α : Type} {o : Outcome Kernel α} {m : Machine} {x : α} {m₁ : Machine},
      o.within m.withKernel = .done x m₁ → m₁.uartBuff = m.uartBuff := by
    intro α o m x m₁ hdone
    obtain ⟨k, -, rfl⟩ := Outcome.within_eq_done.mp hdone
    rfl
  obtain ⟨-, hrun⟩ := Machine.step_eq_some.mp hstep
  cases e with
  | start | timer =>
    cases hrun
    rfl
  | spawn =>
    obtain ⟨x, m₁, hspawn, hdone⟩ := Outcome.bind_eq_done.mp hrun
    cases hdone
    exact hwithin hspawn
  | softInterrupt h =>
    obtain ⟨x, m₁, hbefore, hend⟩ := Outcome.bind_eq_done.mp hrun
    have hbuff : m₁.uartBuff = m.uartBuff := by
      obtain ⟨y, m₂, hsleep, hsweep⟩ := Outcome.bind_eq_done.mp hbefore
      have hm₂ := hwithin hsleep
      split at hsweep <;>
        · cases hsweep
          exact hm₂
    split at hend
    · exact (hwithin hend).trans hbuff
    · cases hend
      exact hbuff
  | external h irq c => exact absurd rfl (hchar h irq c)
  | syscall h c =>
    cases c with
    | getc => exact absurd rfl (hread h)
    | exit | sleep => exact hwithin hrun
    | yield =>
      cases hrun
      rfl
    | wait =>
      obtain ⟨x, m₁, hwait, hdone⟩ := Outcome.bind_eq_done.mp hrun
      cases hdone
      exact hwithin hwait
    | sendMsg c =>
      cases c with
      | badPointer | full => exact hwithin hrun
      | refused =>
        cases hrun
        rfl
      | empty target =>
        change m.sendMsg h (.empty target) = _ at hrun
        unfold Machine.sendMsg at hrun
        dsimp only at hrun
        split at hrun
        · exact hwithin hrun
        · cases hrun
          rfl
    | recvMsg c => cases c <;> exact hwithin hrun
  | steal h =>
    obtain ⟨x, m₁, hsteal, hdone⟩ := Outcome.bind_eq_done.mp hrun
    have hm₁ := hwithin hsteal
    split at hdone <;>
      · cases hdone
        exact hm₁
  | clean => exact hwithin hrun

/-- Every blocked process is the one that `shell_ptr` names, and then the buffer is empty. -/
def Listening (m : Machine) : Prop :=
  ∀ a ∈ m.kernel.existing, (m.kernel.procs a).state = .blocked → a = m.kernel.shellPtr ∧
    m.uartBuff = 0

/-- Each step keeps the shell listening if nobody else waits when it reads. -/
theorem Listening.step (hl : Listening m) (hm : Lone m.kernel v)
    (hread : ∀ h, e = .syscall h .getc → ∀ a ∈ m.kernel.existing,
      (m.kernel.procs a).state ≠ .blocked)
    (hstep : m.step e = some m') : Listening m' := by
  intro a ha hb
  by_cases he : ∃ h, e = .syscall h .getc
  · obtain ⟨h, rfl⟩ := he
    obtain ⟨hbuff, hshell, hex, hst⟩ := hm.steady.reads hstep
    rw [hst] at hb
    split at hb
    · rename_i hcurr
      exact ⟨hcurr.1.trans hshell.symm, hbuff⟩
    · exact absurd hb (hread h rfl a (hex ▸ ha))
  · have hno : ∀ h, e ≠ .syscall h .getc := fun h heq => he ⟨h, heq⟩
    obtain ⟨hen, hrun⟩ := Machine.step_eq_some.mp hstep
    have hunread := Unread.step hm.steady (hm.careful hen) hno hstep
    obtain ⟨hin, hst⟩ := hunread.blocked a ha hb
    obtain ⟨hshell, hbuff⟩ := hl a hin hst
    refine ⟨hshell.trans hunread.shell.symm, ?_⟩
    by_cases hchar : ∃ h irq c, e = .external h irq c
    · obtain ⟨h, irq, c, rfl⟩ := hchar
      change m.external h irq c = _ at hrun
      unfold Machine.external at hrun
      have hblocked : m.kernel.shellPtr ≠ 0 ∧ (m.kernel.procs m.kernel.shellPtr).state = .blocked :=
        hshell ▸ ⟨hm.steady.settled.nonzero hin, hst⟩
      rw [if_pos hblocked] at hrun
      split at hrun
      · obtain ⟨k, -, rfl⟩ := Outcome.within_eq_done.mp hrun
        exact hbuff
      · cases hrun
        exact hbuff
    · rw [Machine.uartBuff_step hstep hno fun h irq c heq => hchar ⟨h, irq, c, heq⟩]
      exact hbuff

/-! ## The next character -/

/-- A blocked process that `shell_ptr` names gets the next character. -/
theorem Lone.hears (hm : Lone m.kernel v) (ha : a ∈ m.kernel.existing)
    (hst : (m.kernel.procs a).state = .blocked) (hshell : a = m.kernel.shellPtr) (c : Nat) :
    ∃ m', m.step (.external 0 10 c) = some m' ∧ (m'.kernel.procs a).state = .ready ∧
      (m'.kernel.procs a).tf.uContext 10 = c := by
  subst hshell
  have hs := hm.steady.settled
  have hchar := (hs.chars (T := fun _ _ => True) 0 m.kernel.shellPtr c).2.1
  have hblocked : ((m.kernel.putChar m.kernel.shellPtr c).procs m.kernel.shellPtr).state =
      .blocked := (field_putChar Process.state (fun _ _ => rfl) _ _ _ _).trans hst
  obtain ⟨s', hwake, hb, -⟩ :=
    hchar.wakes (T := fun _ _ => True) (w := .blocked) hm.up trivial ha hblocked (by simp)
    (by simp) fun k hk _ => hm.up_iff.mp hk
  refine ⟨m.withKernel s', Machine.step_eq_some.mpr ⟨hm.up, ?_⟩, ?_, ?_⟩
  · show m.external 0 10 c = _
    unfold Machine.external
    rw [if_pos rfl, if_pos ⟨hs.nonzero ha, hst⟩]
    exact congrArg (Outcome.within · m.withKernel) hwake
  · refine (field_bare (fun x => (x.procs m.kernel.shellPtr).state) (fun _ => rfl) hb).trans ?_
    rw [field_preempt Process.state fun _ _ => rfl, procs_woken, if_pos rfl]
  · refine (field_bare (fun x => (x.procs m.kernel.shellPtr).tf.uContext 10)
      (fun _ => rfl) hb).trans ?_
    rw [field_preempt (fun p => p.tf.uContext 10) fun _ _ => rfl, procs_woken, if_pos rfl]
    exact register_putChar m.kernel _ c

/-! ## Reaping -/

/-- What an event is to reap does not exist afterwards. -/
theorem Lone.reaped (hm : Lone m.kernel v) (hT : m.Touches e .reap a) (hstep : m.step e = some m') :
    a ≠ 0 ∧ a ∉ m'.kernel.existing := by
  have hs := hm.steady.settled
  obtain ⟨-, hrun⟩ := Machine.step_eq_some.mp hstep
  cases e with
  | syscall h c =>
    cases c with
    | wait =>
      obtain ⟨hchild, h0⟩ := List.mem_filter.mp hT
      obtain rfl := List.mem_singleton.mp hchild
      have h0 : child m.kernel h ≠ 0 := of_decide_eq_true h0
      refine ⟨h0, ?_⟩
      obtain ⟨x, m₁, hwait, hdone⟩ := Outcome.bind_eq_done.mp hrun
      cases hdone
      obtain ⟨k, hk, rfl⟩ := Outcome.within_eq_done.mp hwait
      rcases hs.waitProcess (h := h) with ⟨n, -, hno⟩ | ⟨n, t, hsome, -, -, hfind⟩
      · exact absurd (hs.child_eq_zero hno) h0
      · cases hsome.symm.trans hk
        have ht : child m.kernel h = t := by
          unfold child
          rw [hfind]
        rw [ht]
        exact hs.nodup.not_mem_erase
    | sendMsg c => cases c <;> exact absurd hT List.not_mem_nil
    | recvMsg c => cases c <;> exact absurd hT List.not_mem_nil
    | getc | exit | yield | sleep => exact absurd hT List.not_mem_nil
  | clean =>
    obtain ⟨hex, hz⟩ := List.mem_filter.mp hT
    obtain ⟨hst, ho⟩ := of_decide_eq_true hz
    refine ⟨hs.nonzero hex, ?_⟩
    obtain ⟨k, hk, rfl⟩ := Outcome.within_eq_done.mp hrun
    have hlist : Zombies m.kernel (v (.wait .zombie)) := hs.threaded.dll .zombie
    have hhead : m.kernel.heads .zombie = (v (.wait .zombie)).head?.getD 0 := hlist.seg.head_eq
    have hclean := hlist.clean id (l := []) (c := ⟨m.kernel, []⟩) (n :=
      m.kernel.existing.length + 1) (s := m.kernel)
      (fun z hz => absurd hz List.not_mem_nil) (fun _ _ => rfl)
      (Nat.lt_succ_of_le (hs.length_le _))
    rw [← hhead] at hclean
    have hid : (cleanOrphans id m.kernel).within Cleaning.kernel = .done () k :=
      (cleanOrphans_id m.kernel).trans hk
    obtain ⟨c, hc, rfl⟩ := Outcome.within_eq_done.mp hid
    unfold cleanOrphans at hc
    split at hclean
    · obtain ⟨c', hc', hp⟩ := hclean
      cases hc.symm.trans hc'
      have hin : a ∈ (v (.wait .zombie)).filter fun z => Orphan m.kernel z :=
        List.mem_filter.mpr ⟨hs.mem_wait hex hst, decide_eq_true ho⟩
      show a ∉ c.kernel.existing
      rw [hp.existing]
      exact fun hmem => (hs.nodup.mem_sdiff_iff.mp hmem).2 hin
    · obtain ⟨c', hc'⟩ := hclean
      cases hc.symm.trans hc'
  | start | spawn | timer | softInterrupt | external | steal => exact absurd hT List.not_mem_nil

/-! ## Runs -/

namespace Machine

/-- At a read no process is blocked. -/
def ReadsAlone (m : Machine) : Event → Prop
  | .syscall _ .getc => m.kernel.heads .blocked = 0
  | _ => True

instance (m : Machine) : (e : Event) → Decidable (m.ReadsAlone e)
  | .syscall _ .getc => inferInstanceAs (Decidable (_ = 0))
  | .syscall _ (.exit _) | .syscall _ .yield | .syscall _ (.sleep _) | .syscall _ .wait
  | .syscall _ (.sendMsg _) | .syscall _ (.recvMsg _) | .start _ _ | .spawn _ _ _ _ | .timer _
  | .softInterrupt _ | .external _ _ _ | .steal _ | .clean => inferInstanceAs (Decidable True)

/-- Nobody reads while another process is blocked, and the process that `shell_ptr` names is not
reaped. -/
def ReadsInTurn (m : Machine) (e : Event) : Prop :=
  m.ReadsAlone e ∧ ¬ m.Touches e .reap m.kernel.shellPtr

instance (m : Machine) (e : Event) : Decidable (m.ReadsInTurn e) :=
  inferInstanceAs (Decidable (m.ReadsAlone e ∧ ¬ m.Touches e .reap m.kernel.shellPtr))

/-- No reader is stranded: the next character wakes each of them up. -/
structure Attended (m : Machine) : Prop where
  named : ∀ a ∈ waiting m.kernel .blocked, a = m.kernel.shellPtr
  wakes : ∀ a ∈ waiting m.kernel .blocked, ∀ c, ∃ m', m.step (.external 0 10 c) = some m' ∧
    (m'.kernel.procs a).state = .ready
  known : m.kernel.shellPtr = 0 ∨ m.kernel.shellPtr ∈ m.kernel.existing

end Machine

/-- The timer does not read. -/
theorem Machine.Quiet.readsInTurn : Machine.Quiet Machine.ReadsInTurn :=
  ⟨fun _ _ => ⟨trivial, fun hT => List.not_mem_nil hT⟩,
    fun _ => ⟨trivial, fun hT => List.not_mem_nil hT⟩⟩

/-- What holds on one hart where readers are in turn. -/
structure Heard (m : Machine) (v : Place → List Nat) : Prop where
  lone : Lone m.kernel v
  listening : Listening m
  known : m.kernel.shellPtr = 0 ∨ m.kernel.shellPtr ∈ m.kernel.existing

namespace Heard

/-- A character that waits has no process waiting for it. -/
theorem attended (hm : Heard m v) : m.Attended := by
  have hs := hm.lone.steady.settled
  refine ⟨fun a ha => ?_, fun a ha c => ?_, hm.known⟩
  · obtain ⟨hin, hst⟩ := hs.mem_waiting.mp ha
    exact (hm.listening a hin hst).1
  · obtain ⟨hin, hst⟩ := hs.mem_waiting.mp ha
    obtain ⟨m', hstep, hready, -⟩ := hm.lone.hears hin hst (hm.listening a hin hst).1 c
    exact ⟨m', hstep, hready⟩

/-- Whether a read is alone depends on who waits for a character. -/
theorem alone_iff (hm : Heard m v) : m.ReadsAlone e ↔
    ∀ h, e = .syscall h .getc → ∀ a ∈ m.kernel.existing, (m.kernel.procs a).state ≠ .blocked := by
  have hs := hm.lone.steady.settled
  have hnil : m.kernel.heads .blocked = 0 ↔ ∀ a ∈ m.kernel.existing,
      (m.kernel.procs a).state ≠ .blocked := by
    rw [hs.waiting_nil, List.eq_nil_iff_forall_not_mem]
    refine forall_congr' fun a => ?_
    rw [hs.mem_waiting, not_and]
    rfl
  constructor
  · rintro hr h rfl
    exact hnil.mp hr
  · intro hr
    unfold Machine.ReadsAlone
    split
    · exact hnil.mpr (hr _ rfl)
    · trivial

/-- One step of a run whose reads are alone. -/
theorem step (hm : Heard m v) (hc : m.ReadsInTurn e) (hstep : m.step e = some m') :
    ∃ v', Heard m' v' := by
  have hcare := hm.lone.careful (Machine.step_eq_some.mp hstep).1
  obtain ⟨v', -, hlone⟩ := hm.lone.course hstep
  have htidy : Tidy m.kernel v := ⟨hm.lone.steady, hm.known⟩
  obtain ⟨⟨_, -, hknown⟩, -⟩ := htidy.step ⟨hcare, hc.2⟩ hstep
  exact ⟨v', hlone, hm.listening.step hm.lone (hm.alone_iff.mp hc.1) hstep, hknown⟩

/-- A step out of turn strands a reader, or leaves `shell_ptr` with a process that is gone. -/
theorem inTurn (hm : Heard m v) (hstep : m.step e = some m') (hm' : m'.Attended) :
    m.ReadsInTurn e := by
  have hs := hm.lone.steady.settled
  have hen := (Machine.step_eq_some.mp hstep).1
  obtain ⟨v', -, hlone⟩ := hm.lone.course hstep
  refine ⟨hm.alone_iff.mpr ?_, fun hT => ?_⟩
  · rintro h rfl a ha hst
    obtain ⟨-, hshell, hex, hstates⟩ := hm.lone.steady.reads hstep
    have hne : a ≠ m.kernel.curr h := by
      rintro rfl
      exact absurd ((hm.lone.steady.runs h hen.1 hen.2.1).symm.trans hst) (by simp)
    have hst' : (m'.kernel.procs a).state = .blocked := by
      rw [hstates, if_neg fun hc => hne hc.1]
      exact hst
    have hin := (hlone.steady.settled.mem_waiting (w := .blocked)).mpr
      ⟨(hex ▸ ha : a ∈ m'.kernel.existing), hst'⟩
    exact hne ((hm'.named a hin).trans hshell)
  · obtain ⟨h0, hno⟩ := hm.lone.reaped hT hstep
    have hne : ∀ h, e ≠ .syscall h .getc := by
      rintro h rfl
      exact List.not_mem_nil hT
    have hsame := (Unread.step hm.lone.steady (hm.lone.careful hen) hne hstep).shell
    rw [← hsame] at h0 hno
    exact hm'.known.elim h0 hno

end Heard

/-- All of them. -/
theorem heard_run (h0 : idle ≠ 0) (hm : Launched procs idle m₀) (hr : Run Machine.step m₀ g m)
    (hc : Run.Steps Machine.ReadsInTurn g) : ∃ v, Heard m v := by
  obtain ⟨⟨v, hlone⟩, hknown, hnone⟩ := hm.lone h0
  exact hr.invariant (I := fun m => ∃ v, Heard m v) hc
    ⟨v, hlone, fun a ha hb => absurd hb (hnone a ha), hknown⟩ fun _ _ _ ⟨_, hm⟩ hturn hstep =>
      hm.step hturn hstep

/-- In every state of a run from the start of the shell no reader is stranded, exactly if readers
read in turn and none is reaped that `shell_ptr` names. -/
theorem attended_iff (h0 : idle ≠ 0) (hm : Launched procs idle m₀) (hr : Run Machine.step m₀ g m) :
    ((∀ x ∈ g, x.1.Attended) ∧ m.Attended) ↔ Run.Steps Machine.ReadsInTurn g := by
  constructor
  · rintro ⟨hall, hlast⟩
    induction hr with
    | nil => exact Run.Steps.nil
    | snoc hr hstep ih =>
      obtain ⟨ht, hall⟩ := List.forall_mem_cons.mp hall
      have hturns := ih hall ht
      obtain ⟨v, hheard⟩ := heard_run h0 hm hr hturns
      exact Run.steps_cons.mpr ⟨hheard.inTurn hstep hlast, hturns⟩
  · intro hc
    refine ⟨fun x hx => ?_, ?_⟩
    · obtain ⟨g', hr', hsub⟩ := hr.before hx
      obtain ⟨v, hheard⟩ := heard_run h0 hm hr' fun y hy => hc y (hsub hy)
      exact hheard.attended
    · obtain ⟨v, hheard⟩ := heard_run h0 hm hr hc
      exact hheard.attended

/-- The shell is spawned before any interrupt comes. -/
theorem launched_first (he : (booted procs 0 idle).Enabled (.spawn 0 new image 16))
    (hm : m ∈ ((booted procs 0 idle).spawnShell new image).returned) : Launched procs idle m := by
  obtain ⟨_, hdone⟩ := Outcome.returned_eq_some.mp hm
  exact ⟨[], _, new, image, .nil, rfl, he, hdone⟩

/-- The shell reads and gets a character, and then reads again. -/
theorem attended_shell : ∃ m₀ g, ∃ m : Machine, Launched emptyMemory 1 m₀ ∧
    Run Machine.step m₀ g m ∧
    waiting m.kernel .blocked = [3] ∧ (∀ x ∈ g, x.1.Attended) ∧ m.Attended := by
  have hreach : ∃ m₀ ∈ ((booted emptyMemory 0 1).spawnShell 3 ⟨0, 0⟩).returned,
    Reaches Machine.ReadsInTurn
      (fun m => waiting m.kernel .blocked = [3]) m₀ ([.wait 0 127] ++ interrupt 0 ++
        [.event (.syscall 0 .getc),
        .event (.softInterrupt 0), .event (.external 0 10 65)] ++ interrupt 0 ++
          [.event (.syscall 0 .getc)]) := by
    decide +kernel
  obtain ⟨m₀, hm₀, hreach⟩ := hreach
  have hlaunched := launched_first (by decide) hm₀
  obtain ⟨g, m, hr, hc, hblocked⟩ := hreach.exists_run .readsInTurn .nil Run.Steps.nil
  exact ⟨m₀, g, m, hlaunched, hr, hblocked, (attended_iff (by decide) hlaunched hr).mpr hc⟩

/-- The worker reads while the shell is blocked in a read. -/
theorem stranded_shell : ∃ m₀ g, ∃ m : Machine, Launched emptyMemory 1 m₀ ∧
    Run Machine.step m₀ g m ∧
    ∃ a ∈ waiting m.kernel .blocked, a ≠ m.kernel.shellPtr := by
  have hreach : ∃ m₀ ∈ ((booted emptyMemory 0 1).spawnShell 3 ⟨0, 0⟩).returned,
    Reaches (fun _ _ => True)
      (fun m => ∃ a ∈ waiting m.kernel .blocked, a ≠ m.kernel.shellPtr) m₀
      ([.event (.spawn 0 4 ⟨0, 0⟩ 20), .wait 0 127] ++ interrupt 0 ++ [.event (.syscall 0 .getc),
        .event (.softInterrupt 0), .event (.syscall 0 .getc)]) := by
    decide +kernel
  obtain ⟨m₀, hm₀, hreach⟩ := hreach
  obtain ⟨g, m, hr, hstranded⟩ := hreach.run
  exact ⟨m₀, g, m, launched_first (by decide) hm₀, hr, hstranded⟩

end RexOS.Smp
