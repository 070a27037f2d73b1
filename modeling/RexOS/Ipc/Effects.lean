import RexOS.Ipc.Searches

/-!
# What a message call does

A message call of a running process returns, with every process in its place again. It has done
one of four or one of three things, told here by the message data and the states that it
changes.
-/

namespace RexOS.Ipc

open Bits Scheduler Paging Kernel

variable {s s' : System} {k k' : Kernel} {v : Place → List Nat} {a t target : Nat}

/-! ## Stores that move no process -/

/-- A mailbox is in no queue. -/
theorem touched_mail (k : Kernel) (a : Nat) (m : Process → Nat → Nat) (x y : Process → Nat) :
    Touched k (k.modify a fun q =>
      { q with mailbox := m q, mailboxStatus := x q, ipcPendingPid := y q }) :=
  Touched.modify k a _ (fun _ => rfl) (fun _ => rfl) fun _ => ⟨rfl, rfl, rfl, rfl⟩

/-- Nor is a trap frame. -/
theorem touched_tf (k : Kernel) (a : Nat) (f : Process → Trapframe) :
    Touched k (k.modify a fun q => { q with tf := f q }) :=
  Touched.modify k a _ (fun _ => rfl) (fun _ => rfl) fun _ => ⟨rfl, rfl, rfl, rfl⟩

/-- A trap frame is no mailbox. -/
theorem carried_tf {W : Nat → ProcState → Prop} (k : Kernel) (a : Nat) (f : Process → Trapframe) :
    Carried W k (k.modify a fun q => { q with tf := f q }) :=
  Carried.modify k a _ (fun _ => rfl) fun _ => Or.inl rfl

/-- Nor is a return value. -/
theorem touched_reply (s : System) (x : Nat) : Touched s.kernel (s.reply x).kernel :=
  touched_tf s.kernel _ fun p => { p.tf with uContext := Function.update p.tf.uContext 10 x }

theorem carried_reply {W : Nat → ProcState → Prop} (s : System) (x : Nat) :
    Carried W s.kernel (s.reply x).kernel :=
  carried_tf s.kernel _ fun p => { p.tf with uContext := Function.update p.tf.uContext 10 x }

/-- Nor is the entry of a call. -/
theorem touched_enter (s : System) : Touched s.kernel s.enter.kernel :=
  touched_tf s.kernel _ fun p => { p.tf with epc := wrap (p.tf.epc + 4) }

theorem carried_enter {W : Nat → ProcState → Prop} (s : System) :
    Carried W s.kernel s.enter.kernel :=
  carried_tf s.kernel _ fun p => { p.tf with epc := wrap (p.tf.epc + 4) }

/-- Two updates of one process. -/
theorem modify_modify (k : Kernel) (a : Nat) (f g : Process → Process) :
    (k.modify a f).modify a g = k.modify a fun p => g (f p) := by
  unfold Kernel.modify
  simp only [Function.update_self, Function.update_idem]

/-! ## The four ends of a send -/

/-- The message that a call of 8 puts into a mailbox. -/
def System.sending (s : System) (q : Process) (i : Nat) : Nat :=
  let p := s.kernel.procs (s.kernel.curr 0)
  Function.update (fun i => if i < 9 then
    s.mem (wrap (uvmTranslate s.mem p.satp (p.tf.uContext 11) + 8 * i)) else q.mailbox i) 0 p.pid i

/-- What a call of 8 does. -/
inductive Sends (s : System) : System → Prop
  /-- The pointer is bad. -/
  | exited (k : Kernel)
      (bad : uvmTranslate s.mem (s.kernel.procs (s.kernel.curr 0)).satp
        ((s.kernel.procs (s.kernel.curr 0)).tf.uContext 11) = 0)
      (rest : Carried (fun a x => a = s.kernel.curr 0 ∧ x = .zombie) s.kernel k) :
      Sends s (s.withKernel k)
  /-- There is no such process, or a right is missing. -/
  | refused (k : Kernel) (rest : Carried (fun _ _ => False) s.kernel k) : Sends s (s.withKernel k)
  /-- The message is in the mailbox of the target. -/
  | delivered (target : Nat) (k : Kernel) (found : target ∈ s.kernel.existing)
      (live : (s.kernel.procs target).state ≠ .zombie)
      (empty : (s.kernel.procs target).mailboxStatus = 0)
      (rest : Carried (fun _ x => x = .ready) (s.kernel.modify target fun q =>
        { q with mailbox := s.sending q, mailboxStatus := 1 }) k) :
      Sends s { s.withKernel k with
        sent := Function.update s.sent target (s.sent target ++
          [((s.kernel.procs (s.kernel.curr 0)).pid,
            ((bufferAt s.mem (s.kernel.procs (s.kernel.curr 0)).satp
              ((s.kernel.procs (s.kernel.curr 0)).tf.uContext 11)).map s.mem).tail)]) }
  /-- The mailbox of the target is full, and the caller is put to sleep. -/
  | blocked (target : Nat) (k : Kernel) (found : target ∈ s.kernel.existing)
      (live : (s.kernel.procs target).state ≠ .zombie)
      (full : (s.kernel.procs target).mailboxStatus ≠ 0)
      (rest : Carried (fun a x => a = s.kernel.curr 0 ∧ x = .sendBlocked)
        (s.kernel.modify (s.kernel.curr 0) fun p =>
          { p with ipcPendingPid := (s.kernel.procs target).pid }) k) :
      Sends s (s.withKernel k)

/-- The mailbox is filled, the target woken if it waits, and the status set. -/
theorem deliver_eq (hs : Sound s.kernel v) (ht : target ∈ s.kernel.existing)
    (hlive : (s.kernel.procs target).state ≠ .zombie)
    (hempty : (s.kernel.procs target).mailboxStatus = 0) :
    ∃ s', s.deliver target (uvmTranslate s.mem (s.kernel.procs (s.kernel.curr 0)).satp
      ((s.kernel.procs (s.kernel.curr 0)).tf.uContext 11)) = .done () s' ∧
      (∃ v', Sound s'.kernel v') ∧ Sends s s' := by
  generalize hk₁ : s.kernel.modify target (fun q => { q with mailbox := s.sending q }) = k₁
  have hcopy : ((s.copyIn target (uvmTranslate s.mem (s.kernel.procs (s.kernel.curr 0)).satp
      ((s.kernel.procs (s.kernel.curr 0)).tf.uContext 11))).modify target fun q =>
        { q with mailbox := Function.update q.mailbox 0 (s.kernel.procs (s.kernel.curr 0)).pid }) =
      s.withKernel k₁ := by
    rw [← hk₁]
    simp only [System.copyIn, System.modify, System.withKernel, modify_modify]
    rfl
  have htouch₁ : Touched s.kernel k₁ := by
    rw [← hk₁]
    exact touched_mail s.kernel target (fun q => s.sending q) (·.mailboxStatus) (·.ipcPendingPid)
  have hs₁ := htouch₁.sound hs
  have htail : ∀ k₂ v₂, Sound k₂ v₂ → Carried (fun _ x => x = .ready) k₁ k₂ →
      ∃ s', (Outcome.done () { ((s.withKernel k₂).modify target fun q =>
          { q with mailboxStatus := 1 }).reply 1 with
        sent := Function.update s.sent target (s.sent target ++
          [((s.kernel.procs (s.kernel.curr 0)).pid,
            ((bufferAt s.mem (s.kernel.procs (s.kernel.curr 0)).satp
              ((s.kernel.procs (s.kernel.curr 0)).tf.uContext 11)).map s.mem).tail)]) } :
          Outcome System Unit) = .done () s' ∧ (∃ v', Sound s'.kernel v') ∧ Sends s s' := by
    intro k₂ v₂ hs₂ hc₂
    have hset := hc₂.both target (fun q => { q with mailboxStatus := 1 }) (fun p q he => by
      simp only [Process.mail, Prod.mk.injEq] at he ⊢
      exact ⟨he.1, he.2.1, he.2.2.1, trivial, he.2.2.2.2⟩) fun _ => rfl
    rw [← hk₁, modify_modify] at hset
    have htouch₂ := touched_mail k₂ target (·.mailbox) (fun _ => 1) (·.ipcPendingPid)
    generalize hs₃ : (s.withKernel k₂).modify target (fun q => { q with mailboxStatus := 1 }) = s₃
    have hk₃ : s₃.kernel = k₂.modify target fun q => { q with mailboxStatus := 1 } := by
      rw [← hs₃]
      rfl
    rw [← hk₃] at htouch₂ hset
    have hrest : s₃.reply 1 = s.withKernel (s₃.reply 1).kernel := by
      rw [← hs₃]
      rfl
    refine ⟨_, rfl, ⟨v₂, (touched_reply s₃ 1).sound (htouch₂.sound hs₂)⟩, ?_⟩
    rw [hrest]
    exact .delivered target _ ht hlive hempty (hset.trans (carried_reply s₃ 1))
  unfold System.deliver
  dsimp only
  rw [hcopy]
  split
  · rename_i hblocked
    obtain ⟨k₂, hrun, _, hs₂⟩ := hs₁.unpark (w := .blockedIpc) (htouch₁.existing ▸ ht) hblocked
    have hwake : Carried (fun _ x => x = .ready) k₁ k₂ := Carried.unpark rfl hrun
    have hun : k₁.unblockIpcProcess 0 target = .done () (k₂.preempt 0 target) := by
      rw [unblockIpcProcess, hrun]
      rfl
    obtain ⟨s', he, hs', hsends⟩ := htail _ _ (preempt_sound hs₂ target)
      (hwake.trans (Carried.preempt k₂ 0 target))
    refine ⟨s', ?_, hs', hsends⟩
    rw [← he, show (s.withKernel k₁).kernel = k₁ from rfl, hun]
    rfl
  · obtain ⟨s', he, hs', hsends⟩ := htail k₁ v hs₁ (Carried.refl k₁)
    refine ⟨s', ?_, hs', hsends⟩
    rw [← he]
    rfl

/-- The running process is put on a list, after stores that move no process. -/
theorem park_curr {w : WaitList} (hs : Sound k v) (hu : k.UserRuns) {k₁ : Kernel}
    (htouch : Touched k k₁) :
    ∃ k' v', ((k₁.park 0 (k.curr 0) w).bind fun _ k => .done () (k.trigger 0)) =
      .done () k' ∧ Sound k' v' ∧ Carried (fun a x => a = k.curr 0 ∧ x = w.state) k₁ k' := by
  have hsame := htouch.same (k.curr 0)
  obtain ⟨k₂, v₂, hrun, hs₂, _⟩ := (htouch.sound hs).park (t := k.curr 0)
    (htouch.existing ▸ hs.orderly.curr) (Or.inr (hsame.1.trans hu.1)) (hsame.2.2.1.trans_ne hu.2) w
  have hpark : Carried (fun a x => a = k.curr 0 ∧ x = w.state) k₁ k₂ := Carried.park ⟨rfl, rfl⟩ hrun
  refine ⟨k₂.trigger 0, v₂, ?_, hs₂.trigger 0, hpark.trans (Carried.trigger k₂ 0)⟩
  rw [hrun]
  rfl

/-- The caller remembers whom it waits for, and its call is to be made again. -/
theorem blockSend_eq (hs : Sound s.kernel v) (hu : s.kernel.UserRuns)
    (ht : target ∈ s.kernel.existing) (hlive : (s.kernel.procs target).state ≠ .zombie)
    (hfull : (s.kernel.procs target).mailboxStatus ≠ 0) :
    ∃ s', ((((s.modify (s.kernel.curr 0) fun p =>
        { p with
          tf := { p.tf with epc := wrapSub p.tf.epc 4 }
          ipcPendingPid := (s.kernel.procs target).pid }).kernel.blockIpcSendProcess 0
      (s.kernel.curr 0)).within s.withKernel) = .done () s' ∧ (∃ v', Sound s'.kernel v') ∧
      Sends s s') := by
  have hpend : (s.modify (s.kernel.curr 0) fun p =>
      { p with
        tf := { p.tf with epc := wrapSub p.tf.epc 4 }
        ipcPendingPid := (s.kernel.procs target).pid }).kernel =
      (s.kernel.modify (s.kernel.curr 0) fun p =>
        { p with ipcPendingPid := (s.kernel.procs target).pid }).modify (s.kernel.curr 0) fun p =>
          { p with tf := { p.tf with epc := wrapSub p.tf.epc 4 } } := by
    rw [modify_modify]
    rfl
  have htouch := (touched_mail s.kernel (s.kernel.curr 0) (·.mailbox) (·.mailboxStatus)
    fun _ => (s.kernel.procs target).pid).trans
      (touched_tf _ (s.kernel.curr 0) fun p => { p.tf with epc := wrapSub p.tf.epc 4 })
  obtain ⟨k', v', hrun, hs', hcarry⟩ := park_curr (w := .blockedIpcSend) hs hu htouch
  refine ⟨s.withKernel k', ?_, ⟨v', hs'⟩, .blocked target k' ht hlive hfull ?_⟩
  · rw [hpend, blockIpcSendProcess, hrun]
    rfl
  · exact (carried_tf _ _ fun p => { p.tf with epc := wrapSub p.tf.epc 4 }).trans hcarry

/-- A send returns, and does one of four things. -/
theorem sendMsg_cases (hs : Sound s.kernel v) (hu : s.kernel.UserRuns) :
    ∃ s', s.sendMsg = .done () s' ∧ (∃ v', Sound s'.kernel v') ∧ Sends s s' := by
  have hrefuse : ∃ v', Sound (s.reply minusOne).kernel v' := ⟨v, (touched_reply s _).sound hs⟩
  have hrefused : Sends s (s.reply minusOne) := .refused _ (carried_reply s _)
  unfold System.sendMsg
  dsimp only
  split
  · rename_i hbad
    obtain ⟨k', v', hrun, hs'⟩ := hs.exitProcess hu.1 hu.2 minusOne
    refine ⟨s.withKernel k', by rw [hrun]; rfl, ⟨v', hs'⟩, .exited k' hbad ?_⟩
    exact Carried.exitProcess ⟨rfl, rfl⟩ hrun
  · obtain ⟨t, hfind, ht⟩ := getProcessByPid_eq hs.queued
      ((s.kernel.procs (s.kernel.curr 0)).tf.uContext 10)
    rw [hfind]
    show ∃ s', (if t = 0 then _ else _ : Outcome System Unit) = _ ∧ _
    split
    · exact ⟨_, rfl, hrefuse, hrefused⟩
    · rename_i h0
      obtain ⟨hex, _, hlive⟩ := ht h0
      split
      · exact ⟨_, rfl, hrefuse, hrefused⟩
      · split
        · exact ⟨_, rfl, hrefuse, hrefused⟩
        · split
          · exact ⟨_, rfl, hrefuse, hrefused⟩
          · split
            · rename_i hempty
              exact deliver_eq hs hex hlive hempty
            · exact blockSend_eq hs hu hex hlive ‹_›

/-! ## The three ends of a receive -/

/-- What a call of 9 does. -/
inductive Receives (s : System) : System → Prop
  /-- The pointer is bad. -/
  | exited (k : Kernel)
      (bad : uvmTranslate s.mem (s.kernel.procs (s.kernel.curr 0)).satp
        ((s.kernel.procs (s.kernel.curr 0)).tf.uContext 10) = 0)
      (rest : Carried (fun a x => a = s.kernel.curr 0 ∧ x = .zombie) s.kernel k) :
      Receives s (s.withKernel k)
  /-- The mailbox of the caller is empty, and the caller is put to sleep. -/
  | asleep (k : Kernel) (empty : (s.kernel.procs (s.kernel.curr 0)).mailboxStatus = 0)
      (rest : Carried (fun a x => a = s.kernel.curr 0 ∧ x = .ipcBlocked) s.kernel k) :
      Receives s { s.withKernel k with
        copied := Function.update s.copied (s.kernel.curr 0) (some 0) }
  /-- The message is in the buffer of the caller, and no sender waits for the caller any more. -/
  | fetched (k : Kernel) (full : (s.kernel.procs (s.kernel.curr 0)).mailboxStatus ≠ 0)
      (rest : Carried (fun _ x => x = .ready) (s.kernel.modify (s.kernel.curr 0) fun p =>
        { p with mailboxStatus := 0 }) k)
      (awake : ∀ a ∈ k.existing, (k.procs a).state = .sendBlocked →
        (k.procs a).ipcPendingPid ≠ (s.kernel.procs (s.kernel.curr 0)).pid) (mem : Nat → Nat)
      (copy : mem = (s.copyOut (s.kernel.procs (s.kernel.curr 0)).mailbox
        (uvmTranslate s.mem (s.kernel.procs (s.kernel.curr 0)).satp
          ((s.kernel.procs (s.kernel.curr 0)).tf.uContext 10))).mem) :
      Receives s { s.withKernel k with
        mem := mem
        received := Function.update s.received (s.kernel.curr 0) (s.received (s.kernel.curr 0) ++
          [(bufferAt s.mem (s.kernel.procs (s.kernel.curr 0)).satp
            ((s.kernel.procs (s.kernel.curr 0)).tf.uContext 10)).map mem])
        copied := Function.update s.copied (s.kernel.curr 0) (some 1) }

/-- The message is copied, the status cleared, and the senders are woken. -/
theorem fetch_eq (hs : Sound s.kernel v)
    (hfull : (s.kernel.procs (s.kernel.curr 0)).mailboxStatus ≠ 0) :
    ∃ s', s.fetch (uvmTranslate s.mem (s.kernel.procs (s.kernel.curr 0)).satp
      ((s.kernel.procs (s.kernel.curr 0)).tf.uContext 10)) = .done () s' ∧
      (∃ v', Sound s'.kernel v') ∧ Receives s s' := by
  have htouch := (touched_mail s.kernel (s.kernel.curr 0) (·.mailbox) (fun _ => 0)
    (·.ipcPendingPid)).trans (touched_tf _ (s.kernel.curr 0) fun p =>
      { p.tf with uContext := Function.update p.tf.uContext 10 1 })
  have hs₁ := htouch.sound hs
  obtain ⟨k', v', hrun, hs', hcarry, hawake⟩ :=
    wakeSenders_eq (n := s.kernel.existing.length + 1) hs₁
    (s.kernel.procs (s.kernel.curr 0)).pid
    (Nat.lt_succ_of_le ((hs₁.queued.length_le _).trans (htouch.existing ▸ Nat.le_refl _)))
  refine ⟨_, ?_, ⟨v', hs'⟩, .fetched k' hfull ?_ hawake _ rfl⟩
  · unfold System.fetch
    exact congrArg (fun o : Outcome Kernel Unit => o.within _) hrun
  · exact (carried_tf _ _ fun p =>
      { p.tf with uContext := Function.update p.tf.uContext 10 1 }).trans hcarry

/-- A receive returns, and does one of three things. -/
theorem recvMsg_cases (hs : Sound s.kernel v) (hu : s.kernel.UserRuns) :
    ∃ s', s.recvMsg = .done () s' ∧ (∃ v', Sound s'.kernel v') ∧ Receives s s' := by
  unfold System.recvMsg
  dsimp only
  split
  · rename_i hbad
    obtain ⟨k', v', hrun, hs'⟩ := hs.exitProcess hu.1 hu.2 minusOne
    refine ⟨s.withKernel k', by rw [hrun]; rfl, ⟨v', hs'⟩, .exited k' hbad ?_⟩
    exact Carried.exitProcess ⟨rfl, rfl⟩ hrun
  · split
    · rename_i hempty
      obtain ⟨k', v', hrun, hs', hcarry⟩ :=
        park_curr (w := .blockedIpc) hs hu (Touched.refl s.kernel)
      refine ⟨{ s.withKernel k' with
        copied := Function.update s.copied (s.kernel.curr 0) (some 0) }, ?_, ⟨v', hs'⟩,
        .asleep k' hempty hcarry⟩
      rw [blockIpcProcess, hrun]
      rfl
    · exact fetch_eq hs ‹_›

/-! ## One event -/

/-- An update of one process. -/
theorem procs_modify (k : Kernel) (a t : Nat) (f : Process → Process) :
    (k.modify a f).procs t = if t = a then f (k.procs a) else k.procs t := Function.update_apply ..

/-- Entering the handler moves only the program counter. -/
theorem enter_curr (s : System) :
    s.enter.kernel.procs (s.enter.kernel.curr 0) =
      { s.kernel.procs (s.kernel.curr 0) with
        tf := { (s.kernel.procs (s.kernel.curr 0)).tf with
          epc := wrap ((s.kernel.procs (s.kernel.curr 0)).tf.epc + 4) } } := by
  have hself := procs_modify s.kernel (s.kernel.curr 0) (s.kernel.curr 0) fun p =>
    { p with tf := { p.tf with epc := wrap (p.tf.epc + 4) } }
  rw [if_pos rfl] at hself
  exact hself

/-- The entry of a call changes nobody's state. -/
theorem userRuns_enter (hu : s.kernel.UserRuns) : s.enter.kernel.UserRuns := by
  unfold UserRuns
  rw [enter_curr]
  exact hu

/-- A user program is in no queue. -/
theorem touched_user (s : System) (regs : Nat → Nat) (epc : Nat) (mem : Nat → Nat)
    (rights : Nat → Nat → Nat) : Touched s.kernel (s.user regs epc mem rights).kernel :=
  ⟨rfl, rfl, rfl, fun _ => ⟨rfl, rfl, rfl, rfl⟩⟩

theorem carried_user {W : Nat → ProcState → Prop} (s : System) (regs : Nat → Nat) (epc : Nat)
    (mem : Nat → Nat) (rights : Nat → Nat → Nat) :
    Carried W s.kernel (s.user regs epc mem rights).kernel :=
  ⟨rfl, rfl, fun _ => rfl, fun _ => Or.inl rfl⟩

/-- The step of a send. -/
theorem step_sendMsg (hs : Sound s.kernel v) (hstep : s.step .sendMsg = some s') :
    s.kernel.UserRuns ∧ (∃ v', Sound s'.kernel v') ∧ Sends s.enter s' := by
  rw [System.step] at hstep
  split at hstep
  · rename_i hu
    obtain ⟨t, hrun, ht, hsends⟩ := sendMsg_cases ((touched_enter s).sound hs) (userRuns_enter hu)
    rw [hrun] at hstep
    obtain rfl := Option.some.inj hstep
    exact ⟨hu, ht, hsends⟩
  · exact absurd hstep (by simp)

/-- The step of a receive. -/
theorem step_recvMsg (hs : Sound s.kernel v) (hstep : s.step .recvMsg = some s') :
    s.kernel.UserRuns ∧ (∃ v', Sound s'.kernel v') ∧ Receives s.enter s' := by
  rw [System.step] at hstep
  split at hstep
  · rename_i hu
    obtain ⟨t, hrun, ht, hreceives⟩ :=
      recvMsg_cases ((touched_enter s).sound hs) (userRuns_enter hu)
    rw [hrun] at hstep
    obtain rfl := Option.some.inj hstep
    exact ⟨hu, ht, hreceives⟩
  · exact absurd hstep (by simp)

/-- The step of any other call. -/
theorem step_call {c : Call} (hs : Sound s.kernel v) (hstep : s.step (.call c) = some s') :
    plain c ∧ s.kernel.Callable c ∧
      ∃ k', s.kernel.call c = some k' ∧ s' = s.withKernel k' ∧ ∃ v', Sound k' v' := by
  rw [System.step] at hstep
  split at hstep
  · rename_i hc
    have hbirth : ∀ new image priority, c = .spawn new image priority →
        s.kernel.nextPid < pidMax := by
      rintro new image priority rfl
      exact absurd hc.1 (by simp [plain])
    obtain ⟨k', v', hcall, hs'⟩ := hs.call hc.2 hbirth
    rw [hcall] at hstep
    exact ⟨hc.1, hc.2, k', hcall, (Option.some.inj hstep).symm, v', hs'⟩
  · exact absurd hstep (by simp)

/-- Every process stays in its place. -/
theorem sound_step {e : Event} (hs : Sound s.kernel v) (hstep : s.step e = some s') :
    ∃ v', Sound s'.kernel v' := by
  cases e with
  | user regs epc mem rights =>
    rw [System.step] at hstep
    split at hstep
    · obtain rfl := Option.some.inj hstep
      exact ⟨v, (touched_user s regs epc mem rights).sound hs⟩
    · exact absurd hstep (by simp)
  | sendMsg => exact (step_sendMsg hs hstep).2.1
  | recvMsg => exact (step_recvMsg hs hstep).2.1
  | call c =>
    obtain ⟨_, _, k', _, rfl, hs'⟩ := step_call hs hstep
    exact hs'

end RexOS.Ipc
