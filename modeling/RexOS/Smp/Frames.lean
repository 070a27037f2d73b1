import RexOS.Smp.Readers

/-!
# What single stores keep

Every routine is made of stores into processes, into queues and into the other data. So a relation
between states that such stores keep is kept by every routine that returns, whatever the state it is
called in. Only a process that leaves its circle and the sweeper clear bits of a bitmap; what is
kept there is left to the relation.
-/

namespace RexOS.Smp

open Bits Scheduler Kernel

/-- A relation that the stores of the routines keep. -/
structure Frame (R : Kernel → Kernel → Prop) : Prop where
  refl : ∀ s, R s s
  trans : ∀ {s k s'}, R s k → R k s' → R s s'
  /-- No routine but a birth writes a pid, none but births, grants and revocations a table, and none
  but births and syscall 14 a list of those to grant to. -/
  node : ∀ (s : Kernel) (a : Nat) (f : Process → Process), (∀ p, (f p).pid = p.pid) →
    (∀ p, (f p).capabilityRoot = p.capabilityRoot) → (∀ p, (f p).activeGrant = p.activeGrant) →
    (∀ p, (f p).grantWhitelist = p.grantWhitelist) → R s (s.modify a f)
  queue : ∀ (s : Kernel) (h : Nat) (f : Runqueue → Runqueue),
    (∀ j, (s.queues h).lookupBitmap.testBit j = true →
      (f (s.queues h)).lookupBitmap.testBit j = true) →
    R s (s.onQueue h f)
  rest : ∀ {s s' : Kernel}, s'.procs = s.procs → s'.queues = s.queues → s'.existing ⊆ s.existing →
    s'.nextPid = s.nextPid → R s s'

/-- The relation is also kept where a process leaves its circle. -/
def Leaves (R : Kernel → Kernel → Prop) (s : Kernel) (h t : Nat) : Prop :=
  ∀ k : Kernel, k.queues = s.queues → (k.procs t).priority = (s.procs t).priority →
    R k (k.leaveCircle h t)

namespace Frame

variable {R : Kernel → Kernel → Prop} (hR : Frame R) {s s' k : Kernel} {h a t n pid : Nat}
  {w : WaitList} {m m' : Machine} {e : Event}

include hR

/-- A store that does not write the bitmap. -/
theorem onQueue (s : Kernel) (h : Nat) {f : Runqueue → Runqueue}
    (hf : ∀ q, (f q).lookupBitmap = q.lookupBitmap) : R s (s.onQueue h f) :=
  hR.queue s h f fun j hj => by rwa [hf]

/-- The relation holds across each of the updates that the routines are made of. -/
theorem trigger (s : Kernel) (h : Nat) : R s (s.trigger h) := hR.onQueue s h fun _ => rfl

theorem emergency (s : Kernel) (a : Nat) : R s { s with emergencyProcess := a } :=
  hR.rest rfl rfl (fun _ => id) rfl

theorem setNext (s : Kernel) (a x : Nat) : R s (s.setNext a x) :=
  hR.node s a _ (fun _ => rfl) (fun _ => rfl) (fun _ => rfl) fun _ => rfl

theorem setPrev (s : Kernel) (a x : Nat) : R s (s.setPrev a x) :=
  hR.node s a _ (fun _ => rfl) (fun _ => rfl) (fun _ => rfl) fun _ => rfl

theorem setState (s : Kernel) (a : Nat) (x : ProcState) : R s (s.setState a x) :=
  hR.node s a _ (fun _ => rfl) (fun _ => rfl) (fun _ => rfl) fun _ => rfl

theorem setTicks (s : Kernel) (a n : Nat) : R s (s.modify a fun p => { p with ticksLeft := n }) :=
  hR.node s a _ (fun _ => rfl) (fun _ => rfl) (fun _ => rfl) fun _ => rfl

theorem setTp (s : Kernel) (h a : Nat) :
    R s (s.modify a fun p => { p with tf := { p.tf with kernelTp := h } }) :=
  hR.node s a _ (fun _ => rfl) (fun _ => rfl) (fun _ => rfl) fun _ => rfl

theorem putChar (s : Kernel) (a c : Nat) : R s (s.putChar a c) :=
  hR.node s a _ (fun _ => rfl) (fun _ => rfl) (fun _ => rfl) fun _ => rfl

theorem setHead (s : Kernel) (w : WaitList) (x : Nat) : R s (s.setHead w x) :=
  hR.rest rfl rfl (fun _ => id) rfl

theorem setCircle (s : Kernel) (h i x : Nat) : R s (s.setCircle h i x) :=
  hR.onQueue s h fun _ => rfl

theorem setCurr (s : Kernel) (h x : Nat) : R s (s.setCurr h x) := hR.onQueue s h fun _ => rfl

theorem mapCount (s : Kernel) (h : Nat) (f : Nat → Nat) : R s (s.mapCount h f) :=
  hR.onQueue s h fun _ => rfl

/-- A bitmap with more bits. -/
theorem setBits {b : Nat} (x : Nat) (hb : (s.queues h).lookupBitmap = b) :
    R s (s.setBitmap h (b ||| x)) := by
  refine hR.queue s h _ fun j hj => ?_
  dsimp only
  rw [← hb, Nat.testBit_or, hj, Bool.true_or]

/-! ## Moving a process -/

/-- Joining a circle is such updates. -/
theorem joinCircle (s : Kernel) (h t : Nat) : R s (s.joinCircle h t) := by
  unfold Kernel.joinCircle
  dsimp only
  refine hR.trans ?_ (hR.mapCount _ h _)
  split
  · exact hR.trans (hR.trans (hR.trans (hR.setNext s _ _) (hR.setPrev _ _ _)) (hR.setNext _ _ _))
      (hR.setPrev _ _ _)
  · have hlinks : R s ((s.setNext t t).setPrev t t) :=
      hR.trans (hR.setNext s _ _) (hR.setPrev _ _ _)
    refine hR.trans (hR.trans hlinks (hR.setCircle _ _ _ _)) (hR.setBits _ ?_)
    simp [Kernel.setCircle, Kernel.onQueue]

/-- Joining a wait list is such updates. -/
theorem pushList (s : Kernel) (t : Nat) (w : WaitList) : R s (s.pushList t w) := by
  unfold Kernel.pushList
  dsimp only
  split
  · exact hR.trans (hR.trans (hR.trans (hR.setNext s _ _) (hR.setPrev _ _ _)) (hR.setPrev _ _ _))
      (hR.setHead _ _ _)
  · exact hR.trans (hR.trans (hR.setNext s _ _) (hR.setPrev _ _ _)) (hR.setHead _ _ _)

/-- Leaving one is as well. -/
theorem unlinkList (s : Kernel) (t : Nat) (w : WaitList) : R s (s.unlinkList t w) := by
  unfold Kernel.unlinkList
  dsimp only
  split
  · split
    · exact hR.trans (hR.setHead s _ _) (hR.setPrev _ _ _)
    · exact hR.setHead s _ _
  · split
    · exact hR.trans (hR.setPrev s _ _) (hR.setNext _ _ _)
    · exact hR.setNext s _ _

/-- Parking a process is in the frame if leaving its circle is. -/
theorem park (hleave : Leaves R s h t) (hrun : s.park h t w = .done () s') : R s s' := by
  unfold Kernel.park at hrun
  split at hrun
  · cases hrun
  · split at hrun
    · cases hrun
    · dsimp only at hrun
      cases hrun
      have hall : ∀ k : Kernel, R k (k.leaveCircle h t) →
          R k (((k.leaveCircle h t).pushList t w).setState t w.state) :=
        fun k hk => hR.trans (hR.trans hk (hR.pushList _ t w)) (hR.setState _ t w.state)
      split
      · exact hR.trans (hR.emergency s 0) (hall _ (hleave _ rfl rfl))
      · exact hall s (hleave s rfl rfl)

/-- Waking one always is. -/
theorem unpark (hrun : s.unpark h t w = .done () s') : R s s' := by
  unfold Kernel.unpark at hrun
  split at hrun
  · cases hrun
  · split at hrun
    · cases hrun
    · cases hrun
      have hready := hR.trans (hR.setState s t .ready) (hR.unlinkList _ t w)
      exact hR.trans (hR.trans hready (hR.joinCircle _ h t)) (hR.setTp _ h t)

/-- So is a preemption. -/
theorem preempt (s : Kernel) (h t : Nat) : R s (s.preempt h t) := by
  unfold Kernel.preempt
  split
  · exact hR.trans (hR.setTicks s _ 0) (hR.trigger _ h)
  · exact hR.refl s

theorem curtail (s : Kernel) (h t : Nat) : R s (s.curtail h t) := by
  unfold Kernel.curtail
  split
  · exact hR.setTicks s _ 0
  · exact hR.refl s

/-! ## Exit and wait -/

theorem adopt (s : Kernel) (pid t : Nat) : R s (s.adopt pid t) := by
  unfold Kernel.adopt
  split
  · exact hR.node s t _ (fun _ => rfl) (fun _ => rfl) (fun _ => rfl) fun _ => rfl
  · exact hR.refl s

/-- A new parent for the processes of a list. -/
theorem adoptList (hrun : Kernel.adoptList pid n t s = .done () s') : R s s' := by
  induction n generalizing t s with
  | zero => cases hrun
  | succ n ih =>
    rw [Kernel.adoptList] at hrun
    split at hrun
    · cases hrun
      exact hR.refl _
    · exact hR.trans (hR.adopt s pid t) (ih hrun)

theorem adoptCircle {head : Nat} (hrun : Kernel.adoptCircle pid head n t s = .done () s') :
    R s s' := by
  induction n generalizing t s with
  | zero => cases hrun
  | succ n ih =>
    rw [Kernel.adoptCircle] at hrun
    split at hrun
    · exact hR.trans (hR.adopt s pid t) (ih hrun)
    · cases hrun
      exact hR.adopt s pid t

theorem adoptCircles {is : List Nat} (hrun : Kernel.adoptCircles h pid is s = .done () s') :
    R s s' := by
  induction is generalizing s with
  | nil =>
    cases hrun
    exact hR.refl _
  | cons i is ih =>
    rw [Kernel.adoptCircles] at hrun
    split at hrun
    · obtain ⟨_, k, hfirst, hrest⟩ := Outcome.bind_eq_done.mp hrun
      exact hR.trans (hR.adoptCircle hfirst) (ih hrest)
    · exact ih hrun

theorem adoptHarts {js : List Nat} (hrun : Kernel.adoptHarts h pid js s = .done () s') :
    R s s' := by
  induction js generalizing s with
  | nil =>
    cases hrun
    exact hR.refl _
  | cons j js ih =>
    rw [Kernel.adoptHarts] at hrun
    split at hrun
    · obtain ⟨_, k, hfirst, hrest⟩ := Outcome.bind_eq_done.mp hrun
      exact hR.trans (hR.adoptCircles hfirst) (ih hrest)
    · exact ih hrun

theorem adoptLists {ws : List WaitList} (hrun : Kernel.adoptLists pid ws s = .done () s') :
    R s s' := by
  induction ws generalizing s with
  | nil =>
    cases hrun
    exact hR.refl _
  | cons w ws ih =>
    obtain ⟨_, k, hfirst, hrest⟩ := Outcome.bind_eq_done.mp hrun
    exact hR.trans (hR.adoptList hfirst) (ih hrest)

/-- An exit is in the frame if leaving the circle is. -/
theorem exitProcess {code : Nat} (hleave : Leaves R s h (s.curr h))
    (hrun : s.exitProcess h code = .done () s') : R s s' := by
  obtain ⟨_, k, hpark, hrest⟩ := Outcome.bind_eq_done.mp hrun
  obtain ⟨_, k₁, hharts, hrest⟩ := Outcome.bind_eq_done.mp hrest
  obtain ⟨_, k₂, hlists, hdone⟩ := Outcome.bind_eq_done.mp hrest
  cases hdone
  have hcode : R k (k.modify (s.curr h) fun p => { p with exitCode := code }) :=
    hR.node k _ _ (fun _ => rfl) (fun _ => rfl) (fun _ => rfl) fun _ => rfl
  have hzombie := hR.trans (hR.park hleave hpark) hcode
  exact hR.trans (hR.trans (hR.trans hzombie (hR.adoptHarts hharts)) (hR.adoptLists hlists))
    (hR.trigger _ h)

omit hR in
/-- The search for a child only reads. -/
theorem findChild (hrun : s.findChild pid n t = .done a s') : s' = s := by
  induction n generalizing t with
  | zero => cases hrun
  | succ n ih =>
    rw [Kernel.findChild] at hrun
    split at hrun
    · exact ih hrun
    · cases hrun
      rfl

/-- A process is forgotten. -/
theorem forget {xs : List Nat} (s : Kernel) (t alive : Nat) (registry : Nat → Bool)
    (hxs : xs = s.existing.erase t) :
    R s { s with aliveThreadCounter := alive, pidRegistry := registry, existing := xs } :=
  hR.rest rfl rfl (fun _ ha => List.mem_of_mem_erase (hxs ▸ ha)) rfl

/-- Waiting may reap a child. -/
theorem waitProcess (hrun : s.waitProcess h = .done a s') : R s s' := by
  obtain ⟨t, k, hfind, hrest⟩ := Outcome.bind_eq_done.mp hrun
  obtain rfl := findChild hfind
  split at hrest
  · cases hrest
    exact hR.refl _
  · cases hrest
    exact hR.trans (hR.unlinkList k t .zombie) (hR.forget _ t _ _ rfl)

/-- Reaping takes a process out of the list of zombies. -/
theorem reap (s : Kernel) (t : Nat) : R s (s.reap t) := by
  have hex : (s.unlinkList t .zombie).existing = s.existing :=
    field_bare Kernel.existing (fun _ => rfl) (bare_unlinkList ..)
  exact hR.trans (hR.unlinkList s t .zombie) (hR.forget _ t _ _ (congrArg (·.erase t) hex.symm))

/-- The walk over the zombies reaps some of them. -/
theorem orphanCleanerFrom (hrun : Kernel.orphanCleanerFrom n t s = .done () s') : R s s' := by
  induction n generalizing s t with
  | zero => cases hrun
  | succ n ih =>
    rw [Kernel.orphanCleanerFrom] at hrun
    dsimp only at hrun
    split at hrun
    · cases hrun
      exact hR.refl _
    · split at hrun
      · split at hrun
        · cases hrun
        · exact hR.trans (hR.reap s t) (ih hrun)
      · exact ih hrun

/-! ## Waking and dispatch -/

/-- The loop of a receiver wakes senders. -/
theorem wakeSenders (hrun : Kernel.wakeSenders h pid n s = .done () s') : R s s' := by
  induction n generalizing s with
  | zero => cases hrun
  | succ n ih =>
    rw [Kernel.wakeSenders] at hrun
    obtain ⟨t, k, hfind, hnext⟩ := Outcome.bind_eq_done.mp hrun
    obtain rfl := Unread.findSender hfind
    split at hnext
    · cases hnext
      exact hR.refl _
    · obtain ⟨_, k₁, hwake, hrest⟩ := Outcome.bind_eq_done.mp hnext
      obtain ⟨_, k₂, hunpark, hdone⟩ := Outcome.bind_eq_done.mp hwake
      cases hdone
      exact hR.trans (hR.trans (hR.unpark hunpark) (hR.preempt _ h t)) (ih hrest)

/-- The walk over the sleepers wakes some of them. -/
theorem updateSleepListFrom (hrun : Kernel.updateSleepListFrom h n t s = .done () s') : R s s' := by
  induction n generalizing s t with
  | zero => cases hrun
  | succ n ih =>
    rw [Kernel.updateSleepListFrom] at hrun
    dsimp only at hrun
    have hcount : R s (s.modify t fun p =>
        { p with ticksLeft := (p.ticksLeft + (2 ^ 32 - 1)) % 2 ^ 32 }) :=
      hR.node s t _ (fun _ => rfl) (fun _ => rfl) (fun _ => rfl) fun _ => rfl
    split at hrun
    · cases hrun
      exact hR.refl _
    · split at hrun
      · obtain ⟨_, k, hwake, hrest⟩ := Outcome.bind_eq_done.mp hrun
        exact hR.trans (hR.trans (hR.trans hcount (hR.unpark hwake)) (hR.curtail k h t)) (ih hrest)
      · exact hR.trans hcount (ih hrun)

/-- What a software interrupt does before the sweeper may run. -/
theorem tick (hrun : (s.tick h).updateSleepList h = .done () s') : R s s' := by
  have hpending : R s (s.onQueue h fun q => { q with ssip := false }) := hR.onQueue s h fun _ => rfl
  have hspend : ∀ k : Kernel, R k (k.modify (s.curr h) fun p =>
      { p with cpuTime := p.cpuTime + 1, ticksLeft := p.ticksLeft - 1 }) :=
    fun k => hR.node k _ _ (fun _ => rfl) (fun _ => rfl) (fun _ => rfl) fun _ => rfl
  exact hR.trans (hR.trans hpending (hspend _)) (hR.updateSleepListFrom hrun)

/-- Putting back the running process changes its state, its slice and its circle. -/
theorem putBack (s : Kernel) (h : Nat) : R s (s.putBack h) := by
  unfold Kernel.putBack
  dsimp only
  split
  · have hready : R s (s.modify (s.curr h) fun p =>
        { p with state := .ready, ticksLeft := p.timeSlice }) :=
      hR.node s _ _ (fun _ => rfl) (fun _ => rfl) (fun _ => rfl) fun _ => rfl
    exact hR.trans hready (hR.setCircle _ _ _ _)
  · exact hR.refl s

/-- The choice reads, and takes a process. -/
theorem choose (hrun : s.choose h = .done () s') : R s s' := by
  unfold Kernel.choose at hrun
  split at hrun
  · cases hrun
    exact hR.trans (hR.setCurr s h _) (hR.emergency _ 0)
  · split at hrun
    · cases hrun
      exact hR.refl _
    · dsimp only at hrun
      split at hrun
      · cases hrun
      · split at hrun
        · cases hrun
          exact hR.trans (hR.setCurr s h _) (hR.setBits _ rfl)
        · cases hrun
          exact hR.setCurr s h _

/-- A dispatch is these two. -/
theorem schedule (hrun : s.schedule h = .done () s') : R s s' := by
  unfold Kernel.schedule at hrun
  split at hrun
  · cases hrun
  · obtain ⟨_, k, hchoose, hrest⟩ := Outcome.bind_eq_done.mp hrun
    split at hrest
    · cases hrest
    · cases hrest
      exact hR.trans (hR.trans (hR.putBack s h) (hR.choose hchoose)) (hR.setState _ _ _)

/-! ## Events -/

/-- The calls that park and start the timer. -/
theorem blocks (hleave : Leaves R s h t)
    (hrun : ((s.park h t w).bind fun _ k => .done () (k.trigger h)) = .done () s') : R s s' := by
  obtain ⟨_, k, hpark, hdone⟩ := Outcome.bind_eq_done.mp hrun
  cases hdone
  exact hR.trans (hR.park hleave hpark) (hR.trigger k h)

/-- The calls that wake and preempt. -/
theorem unblocks
    (hrun : ((s.unpark h t w).bind fun _ k => .done () (k.preempt h t)) = .done () s') :
    R s s' := by
  obtain ⟨_, k, hunpark, hdone⟩ := Outcome.bind_eq_done.mp hrun
  cases hdone
  exact hR.trans (hR.unpark hunpark) (hR.preempt k h t)

/-- A send in all its cases. -/
theorem sendMsg {c : SendCase} (hleave : Leaves R m.kernel h (m.kernel.curr h))
    (hrun : m.sendMsg h c = .done () m') : R m.kernel m'.kernel := by
  cases c with
  | badPointer =>
    obtain ⟨k, hk, rfl⟩ := Outcome.within_eq_done.mp hrun
    exact hR.exitProcess hleave hk
  | refused =>
    cases hrun
    exact hR.refl _
  | empty target =>
    unfold Machine.sendMsg at hrun
    dsimp only at hrun
    split at hrun
    · obtain ⟨k, hk, rfl⟩ := Outcome.within_eq_done.mp hrun
      exact hR.unblocks hk
    · cases hrun
      exact hR.refl _
  | full target =>
    obtain ⟨k, hk, rfl⟩ := Outcome.within_eq_done.mp hrun
    have hpending : R m.kernel (m.kernel.modify (m.kernel.curr h) fun p =>
        { p with ipcPendingPid := (m.kernel.procs target).pid }) :=
      hR.node _ _ _ (fun _ => rfl) (fun _ => rfl) (fun _ => rfl) fun _ => rfl
    refine hR.trans hpending (hR.blocks (fun x hx hprio => hleave x hx (hprio.trans ?_)) hk)
    rw [procs_modify]
    split
    · rfl
    · rfl

/-- A receive in all its cases. -/
theorem recvMsg {c : RecvCase} (hleave : Leaves R m.kernel h (m.kernel.curr h))
    (hrun : m.recvMsg h c = .done () m') : R m.kernel m'.kernel := by
  cases c with
  | badPointer =>
    obtain ⟨k, hk, rfl⟩ := Outcome.within_eq_done.mp hrun
    exact hR.exitProcess hleave hk
  | empty =>
    obtain ⟨k, hk, rfl⟩ := Outcome.within_eq_done.mp hrun
    exact hR.blocks hleave hk
  | full =>
    obtain ⟨k, hk, rfl⟩ := Outcome.within_eq_done.mp hrun
    exact hR.wakeSenders hk

/-- A read from the console. -/
theorem getc (hleave : Leaves R m.kernel h (m.kernel.curr h)) (hrun : m.getc h = .done () m') :
    R m.kernel m'.kernel := by
  unfold Machine.getc at hrun
  dsimp only at hrun
  have hshell : R m.kernel { m.kernel with shellPtr := m.kernel.curr h } :=
    hR.rest rfl rfl (fun _ => id) rfl
  split at hrun
  · cases hrun
    exact hR.trans hshell (hR.putChar _ _ _)
  · obtain ⟨k, hk, rfl⟩ := Outcome.within_eq_done.mp hrun
    exact hR.trans hshell (hR.blocks (fun x hx hprio => hleave x hx hprio) hk)

/-- Every system call of the model. -/
theorem syscall {c : Syscall} (hleave : Leaves R m.kernel h (m.kernel.curr h))
    (hrun : m.syscall h c = .done () m') : R m.kernel m'.kernel := by
  cases c with
  | getc => exact hR.getc hleave hrun
  | exit code =>
    obtain ⟨k, hk, rfl⟩ := Outcome.within_eq_done.mp hrun
    exact hR.exitProcess hleave hk
  | yield =>
    cases hrun
    exact hR.trans (hR.setState _ _ _) (hR.trigger _ h)
  | sleep ticks =>
    obtain ⟨k, hk, rfl⟩ := Outcome.within_eq_done.mp hrun
    obtain ⟨_, k₁, hpark, hdone⟩ := Outcome.bind_eq_done.mp hk
    cases hdone
    exact hR.trans (hR.trans (hR.park hleave hpark) (hR.setTicks k₁ _ _)) (hR.trigger _ h)
  | wait =>
    obtain ⟨a, m₁, hwait, hdone⟩ := Outcome.bind_eq_done.mp hrun
    cases hdone
    obtain ⟨k, hk, rfl⟩ := Outcome.within_eq_done.mp hwait
    exact hR.waitProcess hk
  | sendMsg c => exact hR.sendMsg hleave hrun
  | recvMsg c => exact hR.recvMsg hleave hrun

/-- The interrupt of the uart. -/
theorem external {irq c : Nat} (hrun : m.external h irq c = .done () m') :
    R m.kernel m'.kernel := by
  unfold Machine.external at hrun
  split at hrun
  · split at hrun
    · obtain ⟨k, hk, rfl⟩ := Outcome.within_eq_done.mp hrun
      exact hR.trans (hR.putChar _ m.kernel.shellPtr c) (hR.unblocks hk)
    · cases hrun
      exact hR.refl _
  · cases hrun
    exact hR.refl _

end Frame

/-- The events that call the sweeper, add a process or take one from another hart. -/
def Event.Special : Event → Prop
  | .start .. | .spawn .. | .softInterrupt _ | .steal _ => True
  | _ => False

/-- All other events keep what single stores keep. -/
theorem Frame.step {R : Kernel → Kernel → Prop} (hR : Frame R) {m m' : Machine} {e : Event}
    (he : ¬ e.Special) (hleave : Leaves R m.kernel e.hart (m.kernel.curr e.hart))
    (hstep : m.step e = some m') : R m.kernel m'.kernel := by
  obtain ⟨-, hrun⟩ := Machine.step_eq_some.mp hstep
  cases e with
  | start | spawn | softInterrupt | steal => exact absurd trivial he
  | timer h =>
    cases hrun
    exact hR.trigger _ h
  | external h irq c => exact hR.external hrun
  | syscall h c => exact hR.syscall hleave hrun
  | clean =>
    obtain ⟨k, hk, rfl⟩ := Outcome.within_eq_done.mp hrun
    exact hR.orphanCleanerFrom hk

/-! ## Where all stores in queues are kept -/

namespace Frame

variable {R : Kernel → Kernel → Prop} {s s' k : Kernel} {h a t n idle : Nat} {m m' : Machine}
  {e : Event}

/-- The search in a circle only reads. -/
theorem findOther {curr head : Nat} (hrun : s.findOther curr head n t = .done a s') : s' = s := by
  induction n generalizing t with
  | zero => cases hrun
  | succ n ih =>
    rw [Kernel.findOther] at hrun
    split at hrun
    · cases hrun
      rfl
    · split at hrun
      · exact ih hrun
      · cases hrun
        rfl

/-- So does the search through the circles of a hart. -/
theorem findStealable {core : Nat} {is : List Nat}
    (hrun : s.findStealable core is = .done a s') : s' = s := by
  induction is with
  | nil =>
    cases hrun
    rfl
  | cons i is ih =>
    rw [Kernel.findStealable] at hrun
    split at hrun
    · obtain ⟨u, k, hfind, hrest⟩ := Outcome.bind_eq_done.mp hrun
      obtain rfl := findOther hfind
      split at hrest
      · cases hrest
        rfl
      · exact ih hrest
    · exact ih hrun

/-- So does the search through the harts. -/
theorem findVictim {cores : List Nat} {x : Nat × Nat}
    (hrun : s.findVictim h cores = .done x s') : s' = s := by
  induction cores with
  | nil =>
    cases hrun
    rfl
  | cons core cores ih =>
    rw [Kernel.findVictim] at hrun
    split at hrun
    · obtain ⟨u, k, hfind, hrest⟩ := Outcome.bind_eq_done.mp hrun
      obtain rfl := findStealable hfind
      split at hrest
      · cases hrest
        rfl
      · exact ih hrest
    · exact ih hrun

section Queues

variable (hR : Frame R)
  (hqueue : ∀ (s : Kernel) (h : Nat) (f : Runqueue → Runqueue), R s (s.onQueue h f))

include hR hqueue

/-- Leaving a circle, where the relation allows it. -/
theorem leaveCircle (s : Kernel) (h t : Nat) : R s (s.leaveCircle h t) := by
  unfold Kernel.leaveCircle
  dsimp only
  refine hR.trans ?_ (hR.mapCount _ h _)
  split
  · exact hR.trans (hR.setCircle s h _ _) (hqueue _ h _)
  · have hlinks : R s ((s.setPrev (s.procs t).next (s.procs t).prev).setNext (s.procs t).prev
        (s.procs t).next) := hR.trans (hR.setPrev s _ _) (hR.setNext _ _ _)
    split
    · exact hR.trans hlinks (hR.setCircle _ h _ _)
    · exact hlinks

/-- Stealing moves a process from one circle to another. -/
theorem stealProcess (hrun : s.stealProcess h = .done a s') : R s s' := by
  obtain ⟨x, k, hfind, hrest⟩ := Outcome.bind_eq_done.mp hrun
  obtain rfl := findVictim hfind
  split at hrest
  · cases hrest
    exact hR.refl _
  · cases hrest
    have hleft : R k (k.leaveCircle x.2 x.1) := leaveCircle hR hqueue k x.2 x.1
    exact hR.trans (hR.trans hleft (hR.joinCircle _ h x.1)) (hR.setTp _ h x.1)

/-- The sweeper raises priorities. -/
theorem sweeper (s : Kernel) (h : Nat) : R s (s.antiStarvationSweeper h) := by
  unfold antiStarvationSweeper
  dsimp only
  split
  · exact hR.refl s
  · split
    · exact hR.trans (hR.emergency s _) (hqueue _ h _)
    · exact hqueue s h _

/-- What the tick does before the dispatch. -/
theorem beforeSchedule (hrun : m.beforeSchedule h = .done () m') : R m.kernel m'.kernel := by
  obtain ⟨_, m₁, hsleep, hrest⟩ := Outcome.bind_eq_done.mp hrun
  obtain ⟨k, hk, rfl⟩ := Outcome.within_eq_done.mp hsleep
  have hnaps := hR.tick hk
  split at hrest
  · cases hrest
    exact hR.trans hnaps (sweeper hR hqueue k h)
  · cases hrest
    exact hnaps

/-- The whole tick. -/
theorem softInterrupt (hrun : m.softInterrupt h = .done () m') : R m.kernel m'.kernel := by
  obtain ⟨_, m₁, hbefore, hrest⟩ := Outcome.bind_eq_done.mp hrun
  have hfirst := beforeSchedule hR hqueue hbefore
  split at hrest
  · obtain ⟨k, hk, rfl⟩ := Outcome.within_eq_done.mp hrest
    exact hR.trans hfirst (hR.schedule hk)
  · cases hrest
    exact hfirst

/-- All events but the start of a hart and a birth. -/
theorem unborn (hstart : ∀ h idle, e ≠ .start h idle)
    (hspawn : ∀ h new image priority, e ≠ .spawn h new image priority)
    (hstep : m.step e = some m') : R m.kernel m'.kernel := by
  by_cases he : e.Special
  · obtain ⟨-, hrun⟩ := Machine.step_eq_some.mp hstep
    cases e with
    | start h idle => exact absurd rfl (hstart h idle)
    | spawn h new image priority => exact absurd rfl (hspawn h new image priority)
    | softInterrupt h => exact softInterrupt hR hqueue hrun
    | steal h =>
      obtain ⟨a, m₁, hsteal, hdone⟩ := Outcome.bind_eq_done.mp hrun
      obtain ⟨k, hk, rfl⟩ := Outcome.within_eq_done.mp hsteal
      have hstolen := stealProcess hR hqueue hk
      split at hdone
      · cases hdone
        exact hR.trans hstolen (hR.trigger _ h)
      · cases hdone
        exact hstolen
    | timer | external | syscall | clean => exact he.elim
  · exact hR.step he (fun k _ _ => leaveCircle hR hqueue k _ _) hstep

end Queues

end Frame

end RexOS.Smp
