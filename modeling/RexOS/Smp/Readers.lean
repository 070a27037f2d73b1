import RexOS.Smp.Orphans
import RexOS.Smp.Parents
import RexOS.Smp.Single

/-!
# What a read changes

A read sets `shell_ptr` and may block its process. No other event does either, and only a character
from the console makes a blocked process ready.
-/

namespace RexOS.Smp

open Scheduler Kernel

variable {T : Touch → Nat → Prop} {s s' k : Kernel} {v v' : Place → List Nat} {h a t n pid : Nat}
  {w : WaitList} {m m' : Machine} {e : Event}

/-- Nobody has been blocked, and `shell_ptr` is the same. -/
structure Unread (s s' : Kernel) : Prop where
  shell : s'.shellPtr = s.shellPtr
  blocked : ∀ a ∈ s'.existing, (s'.procs a).state = .blocked → a ∈ s.existing ∧
    (s.procs a).state = .blocked

namespace Unread

theorem refl (s : Kernel) : Unread s s := ⟨rfl, fun _ ha hb => ⟨ha, hb⟩⟩

/-- Two calls in a row. -/
theorem trans (hk : Unread s k) (hs : Unread k s') : Unread s s' := by
  refine ⟨hs.shell.trans hk.shell, fun a ha hb => ?_⟩
  obtain ⟨hak, hbk⟩ := hs.blocked a ha hb
  exact hk.blocked a hak hbk

/-- Links do not matter. -/
theorem of_bare (hk : Unread s k) (hb : s'.bare = k.bare) : Unread s s' := by
  have hbare : Unread s k.bare := ⟨hk.shell, hk.blocked⟩
  rw [← hb] at hbare
  exact ⟨hbare.shell, hbare.blocked⟩

/-- Fewer processes and fewer blocked ones do not either. -/
theorem same (hshell : s'.shellPtr = s.shellPtr) (hex : s'.existing ⊆ s.existing)
    (hst : ∀ a, (s'.procs a).state = .blocked → (s.procs a).state = .blocked) : Unread s s' :=
  ⟨hshell, fun a ha hb => ⟨hex ha, hst a hb⟩⟩

/-- An update that keeps the state of a process. -/
theorem modify (s : Kernel) (a : Nat) {f : Process → Process} (hf : ∀ x, (f x).state = x.state) :
    Unread s (s.modify a f) := by
  refine same rfl (fun _ => id) fun b hb => ?_
  rw [procs_modify] at hb
  split at hb
  · rename_i hba
    rw [hba, ← hf]
    exact hb
  · exact hb

theorem trigger (s : Kernel) (h : Nat) : Unread s (s.trigger h) :=
  same rfl (fun _ => id) fun _ => id

/-- A new state that is not `blocked`. -/
theorem setState (s : Kernel) (t : Nat) {x : ProcState} (hx : x ≠ .blocked) :
    Unread s (s.setState t x) := by
  refine same rfl (fun _ => id) fun b hb => ?_
  rw [procs_setState] at hb
  split at hb
  · exact absurd hb hx
  · exact hb

/-- Parking somewhere else. -/
theorem parked (s : Kernel) (t : Nat) (hw : w ≠ .blocked) : Unread s (s.parked t w) := by
  refine same rfl (fun _ => id) fun b hb => ?_
  rw [procs_parked] at hb
  split at hb
  · cases w <;> simp_all [WaitList.state]
  · exact hb

/-- Waking a process. -/
theorem woken (s : Kernel) (h t : Nat) : Unread s (woken s h t) :=
  (setState s t (by simp)).trans (modify _ _ fun _ => rfl)

theorem setTicks (s : Kernel) (t n : Nat) :
    Unread s (s.modify t fun p => { p with ticksLeft := n }) :=
  modify (f := fun p => { p with ticksLeft := n }) s t fun _ => rfl

theorem counted (s : Kernel) (t : Nat) : Unread s (counted s t) := setTicks s t _

theorem preempt (s : Kernel) (h t : Nat) : Unread s (s.preempt h t) := by
  unfold Kernel.preempt
  split
  · exact (setTicks s _ 0).trans (trigger _ h)
  · exact refl s

theorem curtail (s : Kernel) (h t : Nat) : Unread s (s.curtail h t) := by
  unfold Kernel.curtail
  split
  · exact setTicks s _ 0
  · exact refl s

/-- A new parent for some processes. -/
theorem adoptAll (s : Kernel) (pid : Nat) (xs : List Nat) : Unread s (adoptAll s pid xs) := by
  refine same rfl (fun _ => id) fun a ha => ?_
  rwa [congrFun (field_adoptAll Process.state (fun _ => rfl) s pid xs) a] at ha

/-- A process is taken from a list. -/
theorem unpark (hrun : s.unpark h t w = .done () s') : Unread s s' := by
  unfold Kernel.unpark at hrun
  split at hrun
  · cases hrun
  · split at hrun
    · cases hrun
    · cases hrun
      refine (woken s h t).of_bare ?_
      rw [bare_setTp, bare_joinCircle, bare_unlinkList, Smp.woken, bare_setTp]

/-- A call that parks somewhere else. -/
theorem park (hw : w ≠ .blocked) (hrun : s.park h t w = .done () s') : Unread s s' := by
  unfold Kernel.park at hrun
  split at hrun
  · cases hrun
  · split at hrun
    · cases hrun
    · dsimp only at hrun
      cases hrun
      refine (parked s t hw).of_bare ?_
      rw [bare_setState, bare_pushList, bare_leaveCircle, Kernel.parked, bare_setState]
      split <;> rfl

/-- The search for a sender only reads. -/
theorem findSender (hrun : s.findSender pid n t = .done a s') : s' = s := by
  induction n generalizing t with
  | zero => cases hrun
  | succ n ih =>
    rw [Kernel.findSender] at hrun
    split at hrun
    · exact ih hrun
    · cases hrun
      rfl

/-- The loop of a receiver wakes senders. -/
theorem wakeSenders (hrun : Kernel.wakeSenders h pid n s = .done () s') : Unread s s' := by
  induction n generalizing s with
  | zero => cases hrun
  | succ n ih =>
    rw [Kernel.wakeSenders] at hrun
    obtain ⟨t, k, hfind, hnext⟩ := Outcome.bind_eq_done.mp hrun
    obtain rfl := findSender hfind
    split at hnext
    · cases hnext
      exact refl _
    · obtain ⟨_, k₁, hwake, hrest⟩ := Outcome.bind_eq_done.mp hnext
      unfold unblockIpcSendProcess at hwake
      obtain ⟨_, k₂, hunpark, hdone⟩ := Outcome.bind_eq_done.mp hwake
      cases hdone
      exact ((unpark hunpark).trans (preempt _ h t)).trans (ih hrest)

/-- A process fewer. -/
theorem reap (s : Kernel) (t : Nat) : Unread s (s.reap t) :=
  (same rfl (fun _ ha => List.mem_of_mem_erase ha) fun _ => id : Unread s (reaped s t)).of_bare
    (bare_reap s t)

/-- The walk over the zombies takes some processes away. -/
theorem orphanCleanerFrom (hrun : Kernel.orphanCleanerFrom n t s = .done () s') : Unread s s' := by
  induction n generalizing s t with
  | zero => cases hrun
  | succ n ih =>
    rw [Kernel.orphanCleanerFrom] at hrun
    dsimp only at hrun
    split at hrun
    · cases hrun
      exact refl _
    · split at hrun
      · split at hrun
        · cases hrun
        · exact (reap s t).trans (ih hrun)
      · exact ih hrun

/-- One sleeper of the walk. -/
theorem nap (hn : Nap T h (s, v) (s', v')) : Unread s s' := by
  cases hn with
  | count t ht hlast hb => exact (counted s t).of_bare hb
  | wake t ht hlast hT hfree hb =>
      exact (((counted s t).trans (woken _ h t)).trans (curtail _ h t)).of_bare hb
  | alarm hb hem =>
    have hsame : Unread s { s with emergencyProcess := s'.emergencyProcess } :=
      same rfl (fun _ => id) fun _ => id
    exact hsame.of_bare hb

/-- A dispatch. -/
theorem dispatched {x : Nat} (hd : Dispatched h x s v s') : Unread s s' := by
  have hex : (Smp.dispatched s h x).existing = s.existing :=
    rest_refilled Kernel.existing (fun _ _ => rfl) s h
  have hall : Unread s (Smp.dispatched s h x) := by
    refine same (rest_refilled Kernel.shellPtr (fun _ _ => rfl) s h) (fun a ha => hex ▸ ha)
      fun a ha => ?_
    rw [procs_dispatched] at ha
    split at ha
    · exact absurd ha (by simp)
    · rw [procs_refilled] at ha
      split at ha
      · exact absurd ha (by simp)
      · exact ha
  exact hall.of_bare hd.bare

/-- What the tick does before it. -/
theorem prepared {m₁ : Machine} {v₁ : Place → List Nat} (hp : Prepared m h v m₁ v₁) :
    Unread m.kernel m₁.kernel := by
  have htick : Unread m.kernel (m.kernel.tick h) :=
    (same rfl (fun _ => id) fun _ => id : Unread m.kernel (m.kernel.onQueue h _)).trans
      (modify _ _ fun _ => rfl)
  have hnaps : ∀ {b : Scene}, Relation.ReflTransGen (Naps (m.Touches (.softInterrupt h)) h)
      (m.kernel.tick h, v) b → Unread m.kernel b.1 := by
    intro b hb
    induction hb with
    | refl => exact htick
    | tail _ hlast ih => exact ih.trans (nap hlast.2.2)
  exact hnaps hp.naps

/-! ## Events -/

/-- A call that ends a process. -/
theorem exits (hm : Steady m.kernel v) (hexit : m.Touches e .exit t) (hstep : m.step e = some m') :
    Unread m.kernel m'.kernel := by
  obtain ⟨-, -, -, code, xs, hb, -⟩ := hm.exits hexit hstep
  have hcode :
    Unread (m.kernel.parked (m.kernel.curr e.hart) .zombie) ((m.kernel.parked (m.kernel.curr e.hart)
      .zombie).modify (m.kernel.curr e.hart) fun p => { p with exitCode := code }) :=
        modify _ _ fun _ => rfl
  exact ((((parked (w := .zombie) _ _ (by simp)).trans hcode).trans (adoptAll _ _ xs)).trans
    (trigger _ _)).of_bare hb

/-- A send whose buffer is there. -/
theorem sends {c : SendCase} (hc : c ≠ .badPointer) (hrun : m.sendMsg h c = .done () m') :
    Unread m.kernel m'.kernel := by
  cases c with
  | badPointer => exact absurd rfl hc
  | refused =>
    cases hrun
    exact refl _
  | empty target =>
    unfold Machine.sendMsg at hrun
    dsimp only at hrun
    split at hrun
    · obtain ⟨k, hk, rfl⟩ := Outcome.within_eq_done.mp hrun
      unfold unblockIpcProcess at hk
      obtain ⟨_, k₁, hunpark, hdone⟩ := Outcome.bind_eq_done.mp hk
      cases hdone
      exact (unpark hunpark).trans (preempt _ h target)
    · cases hrun
      exact refl _
  | full target =>
    obtain ⟨k, hk, rfl⟩ := Outcome.within_eq_done.mp hrun
    unfold blockIpcSendProcess at hk
    obtain ⟨_, k₁, hpark, hdone⟩ := Outcome.bind_eq_done.mp hk
    cases hdone
    have hpending : Unread m.kernel (m.kernel.modify (m.kernel.curr h) fun p =>
        { p with ipcPendingPid := (m.kernel.procs target).pid }) := modify _ _ fun _ => rfl
    exact (hpending.trans (park (w := .blockedIpcSend) (by simp) hpark)).trans (trigger _ h)

/-- A receive whose buffer is there. -/
theorem receives {c : RecvCase} (hc : c ≠ .badPointer) (hrun : m.recvMsg h c = .done () m') :
    Unread m.kernel m'.kernel := by
  cases c with
  | badPointer => exact absurd rfl hc
  | empty =>
    obtain ⟨k, hk, rfl⟩ := Outcome.within_eq_done.mp hrun
    unfold blockIpcProcess at hk
    obtain ⟨_, k₁, hpark, hdone⟩ := Outcome.bind_eq_done.mp hk
    cases hdone
    exact (park (w := .blockedIpc) (by simp) hpark).trans (trigger _ h)
  | full =>
    obtain ⟨k, hk, rfl⟩ := Outcome.within_eq_done.mp hrun
    exact wakeSenders hk

/-- Every system call but the read. -/
theorem syscall (hm : Steady m.kernel v) {c : Syscall} (hc : c ≠ .getc)
    (hstep : m.step (.syscall h c) = some m') : Unread m.kernel m'.kernel := by
  obtain ⟨he, hrun⟩ := Machine.step_eq_some.mp hstep
  cases c with
  | getc => exact absurd rfl hc
  | exit code => exact exits hm (t := m.kernel.curr h) List.mem_cons_self hstep
  | yield =>
    cases hrun
    exact (setState _ _ (by simp)).trans (trigger _ h)
  | sleep ticks =>
    obtain ⟨k, hk, rfl⟩ := Outcome.within_eq_done.mp hrun
    unfold sleepProcess at hk
    obtain ⟨_, k₁, hpark, hdone⟩ := Outcome.bind_eq_done.mp hk
    cases hdone
    exact ((park (w := .sleeping) (by simp) hpark).trans (setTicks _ _ _)).trans (trigger _ h)
  | wait =>
    obtain ⟨a, m₁, hwait, hdone⟩ := Outcome.bind_eq_done.mp hrun
    cases hdone
    obtain ⟨k, hk, rfl⟩ := Outcome.within_eq_done.mp hwait
    rcases hm.settled.waitProcess (h := h) with ⟨n, hnone, -⟩ | ⟨n, t, hsome, -⟩
    · cases hnone.symm.trans hk
      exact refl _
    · cases hsome.symm.trans hk
      exact reap _ t
  | sendMsg c =>
    by_cases hbad : c = .badPointer
    · subst hbad
      exact exits hm (t := m.kernel.curr h) List.mem_cons_self hstep
    · exact sends hbad hrun
  | recvMsg c =>
    by_cases hbad : c = .badPointer
    · subst hbad
      exact exits hm (t := m.kernel.curr h) List.mem_cons_self hstep
    · exact receives hbad hrun

/-- Of all events, a read alone blocks a process or changes `shell_ptr`. -/
theorem step (hm : Steady m.kernel v) (hc : m.Careful e) (he : ∀ h, e ≠ .syscall h .getc)
    (hstep : m.step e = some m') : Unread m.kernel m'.kernel := by
  obtain ⟨hen, hrun⟩ := Machine.step_eq_some.mp hstep
  cases e with
  | start h idle =>
    cases hrun
    refine ⟨rfl, fun a ha hb => ?_⟩
    have hproc : (m.kernel.smpKmain h idle).procs a = if a = idle then _ else m.kernel.procs a :=
      Function.update_apply ..
    change ((m.kernel.smpKmain h idle).procs a).state = _ at hb
    rw [hproc] at hb
    split at hb
    · exact absurd hb (by simp)
    · exact ⟨(List.mem_cons.mp ha).resolve_left ‹_›, hb⟩
  | spawn h new image priority =>
    obtain ⟨hh, hnew, hprio, -⟩ := hen
    obtain ⟨a, m₁, hspawn, hdone⟩ := Outcome.bind_eq_done.mp hrun
    cases hdone
    obtain ⟨k, hk, rfl⟩ := Outcome.within_eq_done.mp hspawn
    rcases hm.settled.spawnProcess hh hnew hprio hk
      with rfl | ⟨pid, k', -, -, -, ⟨-, bit, rfl⟩, -, hb⟩
    · exact refl _
    · refine Unread.of_bare ⟨?_, fun a ha hbl => ?_⟩ hb
      · exact rest_enroll Kernel.shellPtr (fun _ _ => rfl) _ h new pid image priority
      · have hst := congrFun (field_enroll Process.state (fun _ _ => rfl) { m.kernel with
          pidRegistry := Function.update m.kernel.pidRegistry bit true
          aliveThreadCounter := m.kernel.aliveThreadCounter + 1
          nextPid := pid + 1 } h new pid image priority) a
        have hbl' := hst.symm.trans hbl
        rw [Function.update_apply] at hbl'
        split at hbl'
        · exact absurd hbl' (by simp [newborn])
        · exact ⟨(List.mem_cons.mp ha).resolve_left ‹_›, hbl'⟩
  | timer h =>
    cases hrun
    exact trigger _ h
  | softInterrupt h =>
    obtain ⟨k, v', hdone, hcourse, -⟩ := hm.softInterrupt hen.1 hc
    cases hdone.symm.trans hrun
    cases hcourse with
    | calls hne hcalls => exact absurd rfl (hne h)
    | stays hp hdue => exact prepared hp
    | dispatches hp hdue hsched hd => exact (prepared hp).trans (dispatched hd)
  | external h irq c =>
    change m.external h irq c = _ at hrun
    unfold Machine.external at hrun
    split at hrun
    · split at hrun
      · obtain ⟨k, hk, rfl⟩ := Outcome.within_eq_done.mp hrun
        unfold unblockProcess at hk
        obtain ⟨_, k₁, hunpark, hdone⟩ := Outcome.bind_eq_done.mp hk
        cases hdone
        have hchar : Unread m.kernel (m.kernel.putChar m.kernel.shellPtr c) :=
          modify _ _ fun _ => rfl
        exact (hchar.trans (unpark hunpark)).trans (preempt _ h m.kernel.shellPtr)
      · cases hrun
        exact refl _
    · cases hrun
      exact refl _
  | syscall h c => exact syscall hm (fun hc => he h (hc ▸ rfl)) hstep
  | steal h =>
    obtain ⟨hh, hidle⟩ := hen
    obtain ⟨a, m₁, hsteal, hdone⟩ := Outcome.bind_eq_done.mp hrun
    obtain ⟨k, hk, rfl⟩ := Outcome.within_eq_done.mp hsteal
    rcases hm.settled.stealProcess hh with hnone | ⟨t, core, -, -, hsome, -, hb, -⟩
    · cases hnone.symm.trans hk
      rw [if_neg (by simp)] at hdone
      cases hdone
      exact refl _
    · cases hsome.symm.trans hk
      rw [if_pos rfl] at hdone
      cases hdone
      have htp :
          Unread m.kernel
            (m.kernel.modify t fun p => { p with tf := { p.tf with kernelTp := h } }) :=
        modify _ _ fun _ => rfl
      exact (htp.of_bare hb).trans (trigger _ h)
  | clean =>
    obtain ⟨k, hk, rfl⟩ := Outcome.within_eq_done.mp hrun
    exact orphanCleanerFrom hk

end Unread

end RexOS.Smp
