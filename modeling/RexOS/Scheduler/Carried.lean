import RexOS.Scheduler.Lifetimes

/-!
# What scheduling leaves alone

Whatever state the scheduler is called in, a call that returns does not change the message data of
a process, and gives out no pid unless it is a birth. A process that changes its state enters one
that the call is there for.
-/

namespace RexOS.Scheduler

open Kernel

/-- The pid, the address space, the mailbox, its status and the pid a sender waits for. -/
def Process.mail (p : Process) : Nat × Nat × (Nat → Nat) × Nat × Nat :=
  (p.pid, p.satp, p.mailbox, p.mailboxStatus, p.ipcPendingPid)

/-- No pid was given out, no message data changed, and a process changed its state only as `W`
allows. -/
structure Carried (W : Nat → ProcState → Prop) (s s' : Kernel) : Prop where
  nextPid : s'.nextPid = s.nextPid
  existing : s'.existing = s.existing
  mail : ∀ a, (s'.procs a).mail = (s.procs a).mail
  states : ∀ a, (s'.procs a).state = (s.procs a).state ∨ W a (s'.procs a).state

variable {W : Nat → ProcState → Prop} {s s' k : Kernel} {h t pid n ptr head code : Nat}
  {w : WaitList}

namespace Carried

theorem refl (s : Kernel) : Carried W s s := ⟨rfl, rfl, fun _ => rfl, fun _ => Or.inl rfl⟩

/-- Two calls in a row leave alone what both leave alone. -/
theorem trans {s'' : Kernel} (h : Carried W s s') (h' : Carried W s' s'') : Carried W s s'' := by
  refine ⟨h'.nextPid.trans h.nextPid, h'.existing.trans h.existing,
    fun a => (h'.mail a).trans (h.mail a), fun a => ?_⟩
  rcases h'.states a with he | hw
  · rw [he]
    exact h.states a
  · exact Or.inr hw

/-- Links do not matter. -/
theorem of_bare (hb : s'.bare = k.bare) (hk : Carried W s k) : Carried W s s' := by
  have hn : s'.bare.nextPid = k.bare.nextPid := by rw [hb]
  have he : s'.bare.existing = k.bare.existing := by rw [hb]
  refine ⟨hn.trans hk.nextPid, he.trans hk.existing, fun a => ?_, fun a => ?_⟩
  · have hm : (s'.bare.procs a).mail = (k.bare.procs a).mail := by rw [hb]
    exact hm.trans (hk.mail a)
  · have hs : (s'.bare.procs a).state = (k.bare.procs a).state := by rw [hb]
    rw [show (s'.procs a).state = (k.procs a).state from hs]
    exact hk.states a

/-- Only the queues, the list heads, the emergency process or the bitmap changed. -/
theorem rest (hn : s'.nextPid = s.nextPid) (he : s'.existing = s.existing)
    (hp : s'.procs = s.procs) : Carried W s s' :=
  ⟨hn, he, fun a => by rw [hp], fun a => Or.inl (by rw [hp])⟩

/-- An update of one process that keeps its message data and enters an allowed state. -/
theorem modify (s : Kernel) (a : Nat) (f : Process → Process) (hf : ∀ p, (f p).mail = p.mail)
    (hs : ∀ p, (f p).state = p.state ∨ W a (f p).state) : Carried W s (s.modify a f) := by
  refine ⟨rfl, rfl, fun b => ?_, fun b => ?_⟩
  · by_cases hb : b = a
    · subst hb
      simp only [Kernel.modify, Function.update_self, hf]
    · simp only [Kernel.modify, Function.update_of_ne hb]
  · by_cases hb : b = a
    · subst hb
      simp only [Kernel.modify, Function.update_self]
      exact hs _
    · simp only [Kernel.modify, Function.update_of_ne hb, true_or]

/-- A store into the message data commutes with what leaves them alone. -/
theorem both (hc : Carried W s s') (a : Nat) (f : Process → Process)
    (hf : ∀ p q : Process, p.mail = q.mail → (f p).mail = (f q).mail)
    (hs : ∀ p, (f p).state = p.state) : Carried W (s.modify a f) (s'.modify a f) := by
  refine ⟨hc.nextPid, hc.existing, fun b => ?_, fun b => ?_⟩
  · by_cases hb : b = a
    · subst hb
      simp only [Kernel.modify, Function.update_self]
      exact hf _ _ (hc.mail b)
    · simp only [Kernel.modify, Function.update_of_ne hb]
      exact hc.mail b
  · by_cases hb : b = a
    · subst hb
      simp only [Kernel.modify, Function.update_self, hs]
      exact hc.states b
    · simp only [Kernel.modify, Function.update_of_ne hb]
      exact hc.states b

/-- Nor does the rest of a time slice matter. -/
theorem ticks (s : Kernel) (a : Nat) (f : Process → Nat) :
    Carried W s (s.modify a fun p => { p with ticksLeft := f p }) :=
  modify s a _ (fun _ => rfl) fun _ => Or.inl rfl

/-- A new state that the call is there for. -/
theorem setState (s : Kernel) (a : Nat) {x : ProcState} (hx : W a x) :
    Carried W s (s.setState a x) :=
  modify s a _ (fun _ => rfl) fun _ => Or.inr hx

/-- Parking a process only gives it the state of its list. -/
theorem park (hw : W t w.state) (hrun : s.park h t w = .done () s') : Carried W s s' := by
  unfold Kernel.park at hrun
  split at hrun
  · exact absurd hrun (by simp)
  · split at hrun
    · exact absurd hrun (by simp)
    · dsimp only at hrun
      obtain ⟨_, rfl⟩ := Outcome.done.inj hrun
      generalize hs₀ : (if s.emergencyProcess = t then { s with emergencyProcess := 0 } else s) = s₀
      have h₀ : Carried W s s₀ := by
        rw [← hs₀]
        split
        · exact rest rfl rfl rfl
        · exact refl s
      have h₁ : Carried W s ((s₀.leaveCircle h t).pushList t w) :=
        of_bare ((bare_pushList ..).trans (bare_leaveCircle ..)) h₀
      exact h₁.trans (setState _ t hw)

/-- Waking a process only makes it ready. -/
theorem unpark (hr : W t .ready) (hrun : s.unpark h t w = .done () s') : Carried W s s' := by
  unfold Kernel.unpark at hrun
  split at hrun
  · exact absurd hrun (by simp)
  · split at hrun
    · exact absurd hrun (by simp)
    · dsimp only at hrun
      obtain ⟨_, rfl⟩ := Outcome.done.inj hrun
      have h₁ : Carried W s (((s.setState t .ready).unlinkList t w).joinCircle h t) :=
        of_bare ((bare_joinCircle ..).trans (bare_unlinkList ..)) (setState s t hr)
      exact h₁.trans (modify _ t _ (fun _ => rfl) fun _ => Or.inl rfl)

/-- Starting the timer again changes nothing of a process. -/
theorem trigger (s : Kernel) (h : Nat) : Carried W s (s.trigger h) := rest rfl rfl rfl

/-- Cutting a time slice short changes ticks only. -/
theorem curtail (s : Kernel) (h t : Nat) : Carried W s (s.curtail h t) := by
  unfold Kernel.curtail
  split
  · exact ticks s _ fun _ => 0
  · exact refl s

/-- A preemption cuts a time slice short at most. -/
theorem preempt (s : Kernel) (h t : Nat) : Carried W s (s.preempt h t) := by
  unfold Kernel.preempt
  split
  · exact (ticks s (s.curr h) fun _ => 0).trans (trigger _ h)
  · exact refl s

/-! ## Exit and reaping -/

/-- A new parent is no message data. -/
theorem adopt (s : Kernel) (pid a : Nat) : Carried W s (s.adopt pid a) := by
  unfold Kernel.adopt
  split
  · exact modify s a _ (fun _ => rfl) fun _ => Or.inl rfl
  · exact refl s

/-- Nor is a new parent for the processes of a list. -/
theorem adoptList (hrun : Kernel.adoptList pid n ptr s = .done () s') : Carried W s s' := by
  induction n generalizing s ptr with
  | zero => exact absurd hrun (by simp [Kernel.adoptList])
  | succ n ih =>
    rw [Kernel.adoptList] at hrun
    split at hrun
    · obtain ⟨_, rfl⟩ := Outcome.done.inj hrun
      exact refl s
    · exact (adopt s pid ptr).trans (ih hrun)

/-- The same along a circle. -/
theorem adoptCircle (hrun : Kernel.adoptCircle pid head n ptr s = .done () s') :
    Carried W s s' := by
  induction n generalizing s ptr with
  | zero => exact absurd hrun (by simp [Kernel.adoptCircle])
  | succ n ih =>
    rw [Kernel.adoptCircle] at hrun
    split at hrun
    · exact (adopt s pid ptr).trans (ih hrun)
    · obtain ⟨_, rfl⟩ := Outcome.done.inj hrun
      exact adopt s pid ptr

/-- The same along the circles of a hart. -/
theorem adoptCircles {is : List Nat} (hrun : Kernel.adoptCircles h pid is s = .done () s') :
    Carried W s s' := by
  induction is generalizing s with
  | nil =>
    obtain ⟨_, rfl⟩ := Outcome.done.inj hrun
    exact refl s
  | cons i is ih =>
    rw [Kernel.adoptCircles] at hrun
    split at hrun
    · obtain ⟨_, s₁, h₁, h₂⟩ := Outcome.bind_eq_done.mp hrun
      exact (adoptCircle h₁).trans (ih h₂)
    · exact ih hrun

/-- The same on every hart. -/
theorem adoptHarts {js : List Nat} (hrun : Kernel.adoptHarts h pid js s = .done () s') :
    Carried W s s' := by
  induction js generalizing s with
  | nil =>
    obtain ⟨_, rfl⟩ := Outcome.done.inj hrun
    exact refl s
  | cons j js ih =>
    rw [Kernel.adoptHarts] at hrun
    split at hrun
    · obtain ⟨_, s₁, h₁, h₂⟩ := Outcome.bind_eq_done.mp hrun
      exact (adoptCircles h₁).trans (ih h₂)
    · exact ih hrun

/-- The same along the wait lists. -/
theorem adoptLists {ws : List WaitList} (hrun : Kernel.adoptLists pid ws s = .done () s') :
    Carried W s s' := by
  induction ws generalizing s with
  | nil =>
    obtain ⟨_, rfl⟩ := Outcome.done.inj hrun
    exact refl s
  | cons w ws ih =>
    rw [Kernel.adoptLists] at hrun
    obtain ⟨_, s₁, h₁, h₂⟩ := Outcome.bind_eq_done.mp hrun
    exact (adoptList h₁).trans (ih h₂)

/-- An exit gives the running process the state of a zombie, and others a new parent. -/
theorem exitProcess (hz : W (s.curr h) .zombie) (hrun : s.exitProcess h code = .done () s') :
    Carried W s s' := by
  unfold Kernel.exitProcess at hrun
  obtain ⟨_, s₁, h₁, hrun⟩ := Outcome.bind_eq_done.mp hrun
  obtain ⟨_, s₂, h₂, hrun⟩ := Outcome.bind_eq_done.mp hrun
  obtain ⟨_, s₃, h₃, hrun⟩ := Outcome.bind_eq_done.mp hrun
  obtain ⟨_, rfl⟩ := Outcome.done.inj hrun
  have hcode : Carried W s₁ (s₁.modify (s.curr h) fun p => { p with exitCode := code }) :=
    modify s₁ _ _ (fun _ => rfl) fun _ => Or.inl rfl
  exact ((((park hz h₁).trans hcode).trans (adoptHarts h₂)).trans (adoptLists h₃)).trans
    (trigger s₃ h)

/-- The search for a child only reads. -/
theorem findChild {z : Nat} (hrun : s.findChild pid n ptr = .done z s') : s' = s := by
  induction n generalizing ptr with
  | zero => exact absurd hrun (by simp [Kernel.findChild])
  | succ n ih =>
    rw [Kernel.findChild] at hrun
    split at hrun
    · exact ih hrun
    · exact (Outcome.done.inj hrun).2.symm

/-- Apart from the one process that is no more. -/
theorem waitProcess (hrun : s.waitProcess h = .done n s') :
    Carried W s { s' with existing := s.existing } := by
  unfold Kernel.waitProcess at hrun
  obtain ⟨z, s₁, h₁, h₂⟩ := Outcome.bind_eq_done.mp hrun
  rw [findChild h₁] at h₂
  split at h₂
  · obtain ⟨_, rfl⟩ := Outcome.done.inj h₂
    exact refl s
  · obtain ⟨_, rfl⟩ := Outcome.done.inj h₂
    have hu : Carried W s (s.unlinkList z .zombie) := of_bare (bare_unlinkList ..) (refl s)
    exact ⟨hu.nextPid, rfl, hu.mail, hu.states⟩

/-! ## Time and dispatch -/

/-- The walk over the sleepers only wakes them. -/
theorem updateSleepListFrom (hr : ∀ a, W a .ready)
    (hrun : Kernel.updateSleepListFrom h n ptr s = .done () s') : Carried W s s' := by
  induction n generalizing s ptr with
  | zero => exact absurd hrun (by simp [Kernel.updateSleepListFrom])
  | succ n ih =>
    rw [Kernel.updateSleepListFrom] at hrun
    split at hrun
    · obtain ⟨_, rfl⟩ := Outcome.done.inj hrun
      exact refl s
    · have htick := ticks (W := W) s ptr fun p => (p.ticksLeft + (2 ^ 32 - 1)) % 2 ^ 32
      dsimp only at hrun
      split at hrun
      · obtain ⟨_, s₁, h₁, h₂⟩ := Outcome.bind_eq_done.mp hrun
        exact ((htick.trans (unpark (hr ptr) h₁)).trans (curtail s₁ h ptr)).trans (ih h₂)
      · exact htick.trans (ih hrun)

/-- The sweeper changes priorities and links only. -/
theorem antiStarvationSweeper (s : Kernel) (h : Nat) : Carried W s (s.antiStarvationSweeper h) := by
  unfold Kernel.antiStarvationSweeper
  dsimp only
  split
  · exact refl s
  · split
    · exact rest rfl rfl rfl
    · exact rest rfl rfl rfl

/-- Putting back the running process makes it ready. -/
theorem putBack (s : Kernel) (h : Nat) (hr : W (s.curr h) .ready) : Carried W s (s.putBack h) := by
  unfold Kernel.putBack
  dsimp only
  split
  · have hready : Carried W s (s.modify (s.curr h) fun p =>
        { p with state := .ready, ticksLeft := p.timeSlice }) :=
      modify s _ _ (fun _ => rfl) fun _ => Or.inr hr
    exact hready.trans (rest rfl rfl rfl)
  · exact refl s

/-- The choice of the next process changes no process. -/
theorem choose (hrun : s.choose h = .done () s') : Carried W s s' := by
  unfold Kernel.choose at hrun
  split at hrun
  · obtain ⟨_, rfl⟩ := Outcome.done.inj hrun
    exact rest rfl rfl rfl
  · split at hrun
    · obtain ⟨_, rfl⟩ := Outcome.done.inj hrun
      exact refl s
    · dsimp only at hrun
      split at hrun
      · exact absurd hrun (by simp)
      · split at hrun
        · obtain ⟨_, rfl⟩ := Outcome.done.inj hrun
          exact rest rfl rfl rfl
        · obtain ⟨_, rfl⟩ := Outcome.done.inj hrun
          exact rest rfl rfl rfl

/-- A dispatch makes one process ready and another one run. -/
theorem schedule (hr : ∀ a, W a .ready) (hw : ∀ a, W a .running)
    (hrun : s.schedule h = .done () s') :
    Carried W s s' := by
  unfold Kernel.schedule at hrun
  split at hrun
  · exact absurd hrun (by simp)
  · obtain ⟨_, s₁, h₁, hrun⟩ := Outcome.bind_eq_done.mp hrun
    split at hrun
    · exact absurd hrun (by simp)
    · obtain ⟨_, rfl⟩ := Outcome.done.inj hrun
      exact ((putBack s h (hr _)).trans (choose h₁)).trans (setState _ _ (hw _))

end Carried

end RexOS.Scheduler
