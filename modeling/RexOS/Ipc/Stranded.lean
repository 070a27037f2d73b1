import RexOS.Ipc.Effects

/-!
# Senders that wait

A sender that sleeps waits for the receiver that `ipc_pending_pid` names, and nobody but that
receiver wakes it, in a receive that finds a message. As long as no process exits while a
sender waits for it, each sleeping sender names a process that has not exited and whose
mailbox is full.
-/

namespace RexOS.Ipc

open Bits Scheduler Paging Kernel

variable {W : Nat → ProcState → Prop} {s s' s₀ : System} {k k' : Kernel} {v : Place → List Nat}
  {a t n : Nat} {e : Event} {c : Call}

/-- What a sender waits for: a process that has not exited and has a message to take. -/
def Named (k : Kernel) (pid : Nat) : Prop :=
  ∃ t ∈ k.existing, (k.procs t).pid = pid ∧ (k.procs t).state ≠ .zombie ∧
    (k.procs t).mailboxStatus = 1

/-- No sleeping sender is stranded. -/
def Awaited (k : Kernel) : Prop :=
  ∀ a ∈ k.existing, (k.procs a).state = .sendBlocked → Named k (k.procs a).ipcPendingPid

/-- A status is 0 or 1. -/
def Flagged (k : Kernel) : Prop :=
  ∀ t ∈ k.existing, (k.procs t).mailboxStatus = 0 ∨ (k.procs t).mailboxStatus = 1

/-- No sender waits for the running process. -/
def Unawaited (k : Kernel) : Prop :=
  ∀ a ∈ k.existing, (k.procs a).state = .sendBlocked →
    (k.procs a).ipcPendingPid ≠ (k.procs (k.curr 0)).pid

/-- A process that exits, in the call for it or because of a bad pointer, leaves no sender
behind. -/
def Spared (s : System) : Event → Prop
  | .call (.exit _) => Unawaited s.kernel
  | .sendMsg => uvmTranslate s.mem (s.kernel.procs (s.kernel.curr 0)).satp
      ((s.kernel.procs (s.kernel.curr 0)).tf.uContext 11) = 0 → Unawaited s.kernel
  | .recvMsg => uvmTranslate s.mem (s.kernel.procs (s.kernel.curr 0)).satp
      ((s.kernel.procs (s.kernel.curr 0)).tf.uContext 10) = 0 → Unawaited s.kernel
  | _ => True

instance (k : Kernel) (pid : Nat) : Decidable (Named k pid) :=
  inferInstanceAs (Decidable (∃ t ∈ k.existing, _ ∧ _ ∧ _))

instance (k : Kernel) : Decidable (Awaited k) :=
  inferInstanceAs (Decidable (∀ a ∈ k.existing, _ → _))

instance (k : Kernel) : Decidable (Unawaited k) :=
  inferInstanceAs (Decidable (∀ a ∈ k.existing, _ → _))

instance (s : System) : (e : Event) → Decidable (Spared s e)
  | .user _ _ _ _ => inferInstanceAs (Decidable True)
  | .sendMsg => inferInstanceAs (Decidable (_ → Unawaited s.kernel))
  | .recvMsg => inferInstanceAs (Decidable (_ → Unawaited s.kernel))
  | .call c => match c with
    | .exit _ => inferInstanceAs (Decidable (Unawaited s.kernel))
    | .spawn _ _ _ | .schedule | .block | .blockIpc | .blockIpcSend | .sleep _ | .yield
    | .unblock _ | .unblockIpc _ | .unblockIpcSend _ | .updateSleepList | .sweep | .wait =>
      inferInstanceAs (Decidable True)

/-! ## What leaves the message data alone -/

section Carried

variable (hc : Carried W k k')
include hc

/-- Scheduling keeps pids. -/
theorem carried_pid (a : Nat) : (k'.procs a).pid = (k.procs a).pid :=
  congrArg (fun m => m.1) (hc.mail a)

/-- It keeps mailboxes. -/
theorem carried_mailbox (a : Nat) : (k'.procs a).mailbox = (k.procs a).mailbox :=
  congrArg (fun m => m.2.2.1) (hc.mail a)

/-- It keeps their status. -/
theorem carried_status (a : Nat) : (k'.procs a).mailboxStatus = (k.procs a).mailboxStatus :=
  congrArg (fun m => m.2.2.2.1) (hc.mail a)

/-- It keeps whom a sender waits for. -/
theorem carried_pending (a : Nat) : (k'.procs a).ipcPendingPid = (k.procs a).ipcPendingPid :=
  congrArg (fun m => m.2.2.2.2) (hc.mail a)

/-- It keeps who is flagged. -/
theorem Flagged.carried (h : Flagged k) : Flagged k' := by
  intro t ht
  rw [carried_status hc]
  exact h t (hc.existing ▸ ht)

/-- A named process is still so unless it has died. -/
theorem Named.carried {pid : Nat} (h : Named k pid)
    (hdead : ∀ t ∈ k.existing, W t .zombie → (k.procs t).pid ≠ pid) : Named k' pid := by
  obtain ⟨t, ht, hpid, hlive, hfull⟩ := h
  refine ⟨t, hc.existing ▸ ht, (carried_pid hc t).trans hpid, fun hz => ?_,
    (carried_status hc t).trans hfull⟩
  rcases hc.states t with he | hw
  · exact hlive (he.symm.trans hz)
  · exact hdead t ht (hz ▸ hw) hpid

/-- Who falls asleep as a sender names a process; who dies is awaited by nobody. -/
theorem Awaited.carried (h : Awaited k)
    (hsend : ∀ a ∈ k.existing, W a .sendBlocked → Named k (k.procs a).ipcPendingPid)
    (hdead : ∀ t ∈ k.existing, W t .zombie → ∀ a ∈ k.existing, (k.procs a).state = .sendBlocked ∨
      W a .sendBlocked → (k.procs a).ipcPendingPid ≠ (k.procs t).pid) : Awaited k' := by
  intro a ha hst
  rw [hc.existing] at ha
  have hor : (k.procs a).state = .sendBlocked ∨ W a .sendBlocked :=
    (hc.states a).imp (fun he => he.symm.trans hst) fun hw => hst ▸ hw
  have hnamed : Named k (k.procs a).ipcPendingPid := by
    rcases hor with hst | hw
    · exact h a ha hst
    · exact hsend a ha hw
  rw [carried_pending hc]
  exact hnamed.carried hc fun t ht hz he => hdead t ht hz a ha hor he.symm

end Carried

/-! ## Stores of message data -/

section Modify

variable {f : Process → Process} (hpid : (f (k.procs a)).pid = (k.procs a).pid)
  (hstate : (f (k.procs a)).state = (k.procs a).state)
  (hstatus : (f (k.procs a)).mailboxStatus = 1 ∨
    (f (k.procs a)).mailboxStatus = (k.procs a).mailboxStatus)
include hstatus

/-- So does an update that keeps these. -/
theorem Flagged.modify (h : Flagged k) : Flagged (k.modify a f) := by
  intro t ht
  rw [procs_modify]
  split
  · subst t
    rcases hstatus with h1 | he
    · exact Or.inr h1
    · rw [he]
      exact h a ht
  · exact h t ht

include hpid hstate

/-- A pid is named as before. -/
theorem Named.modify {pid : Nat} (h : Named k pid) : Named (k.modify a f) pid := by
  obtain ⟨t, ht, hpt, hlive, hfull⟩ := h
  refine ⟨t, ht, ?_⟩
  rw [procs_modify]
  split
  · subst t
    refine ⟨hpid.trans hpt, hstate.trans_ne hlive, ?_⟩
    rcases hstatus with h1 | he
    · exact h1
    · exact he.trans hfull
  · exact ⟨hpt, hlive, hfull⟩

/-- A sleeping sender keeps the name of whom it waits for. -/
theorem Awaited.modify (h : Awaited k) (hpend : (k.procs a).state = .sendBlocked →
    (f (k.procs a)).ipcPendingPid = (k.procs a).ipcPendingPid) : Awaited (k.modify a f) := by
  intro b hb hst
  have hold : (k.procs b).state = .sendBlocked ∧
      ((k.modify a f).procs b).ipcPendingPid = (k.procs b).ipcPendingPid := by
    rw [procs_modify] at hst ⊢
    split at hst
    · rename_i he
      subst b
      have hst' := hstate.symm.trans hst
      rw [if_pos rfl]
      exact ⟨hst', hpend hst'⟩
    · rename_i he
      rw [if_neg he]
      exact ⟨hst, rfl⟩
  rw [hold.2]
  exact (h b hb hold.1).modify hpid hstate hstatus

end Modify

/-! ## One step -/

/-- A send that waits has somebody to wait for. -/
theorem sends_awaited (hu : s.kernel.UserRuns) (h : Awaited s.kernel) (hf : Flagged s.kernel)
    (hsends : Sends s s')
    (hc : uvmTranslate s.mem (s.kernel.procs (s.kernel.curr 0)).satp
      ((s.kernel.procs (s.kernel.curr 0)).tf.uContext 11) = 0 → Unawaited s.kernel) :
    Awaited s'.kernel ∧ Flagged s'.kernel := by
  cases hsends with
  | exited k bad rest =>
    refine ⟨h.carried rest (fun a _ hw => absurd hw.2 (by simp)) fun t _ hw a ha hor => ?_,
      hf.carried rest⟩
    rw [hw.1]
    exact hc bad a ha (hor.resolve_right fun hw' => absurd hw'.2 (by simp))
  | refused k rest =>
    exact ⟨h.carried rest (fun _ _ hw => hw.elim) fun _ _ hw => hw.elim, hf.carried rest⟩
  | delivered target k found live empty rest =>
    have h₁ := h.modify (a := target) (f := fun q =>
      { q with mailbox := s.sending q, mailboxStatus := 1 }) rfl rfl (Or.inl rfl) fun _ => rfl
    have hf₁ := hf.modify (a := target) (f := fun q =>
      { q with mailbox := s.sending q, mailboxStatus := 1 }) (Or.inl rfl)
    exact ⟨h₁.carried rest (fun _ _ hw => absurd hw (by simp)) fun _ _ hw => absurd hw (by simp),
      hf₁.carried rest⟩
  | blocked target k found live full rest =>
    have hcurr : (s.kernel.procs (s.kernel.curr 0)).state ≠ .sendBlocked := by simp [hu.1]
    have h₁ := h.modify (a := s.kernel.curr 0) (f := fun p =>
      { p with ipcPendingPid := (s.kernel.procs target).pid }) rfl rfl (Or.inr rfl)
      fun hst => absurd hst hcurr
    have hf₁ := hf.modify (a := s.kernel.curr 0) (f := fun p =>
      { p with ipcPendingPid := (s.kernel.procs target).pid }) (Or.inr rfl)
    have hnamed : Named s.kernel (s.kernel.procs target).pid :=
      ⟨target, found, rfl, live, (hf target found).resolve_left full⟩
    refine ⟨h₁.carried rest (fun a _ hw => ?_) fun _ _ hw => absurd hw.2 (by simp),
      hf₁.carried rest⟩
    rw [hw.1, procs_modify, if_pos rfl]
    exact hnamed.modify rfl rfl (Or.inr rfl)

/-- A receive wakes those who wait for the caller, and the others wait for somebody else. -/
theorem receives_awaited (h : Awaited s.kernel) (hf : Flagged s.kernel) (hreceives : Receives s s')
    (hc : uvmTranslate s.mem (s.kernel.procs (s.kernel.curr 0)).satp
      ((s.kernel.procs (s.kernel.curr 0)).tf.uContext 10) = 0 → Unawaited s.kernel) :
    Awaited s'.kernel ∧ Flagged s'.kernel := by
  cases hreceives with
  | exited k bad rest =>
    refine ⟨h.carried rest (fun a _ hw => absurd hw.2 (by simp)) fun t _ hw a ha hor => ?_,
      hf.carried rest⟩
    rw [hw.1]
    exact hc bad a ha (hor.resolve_right fun hw' => absurd hw'.2 (by simp))
  | asleep k empty rest =>
    exact ⟨h.carried rest (fun _ _ hw => absurd hw.2 (by simp)) fun _ _ hw => absurd hw.2 (by simp),
      hf.carried rest⟩
  | fetched k full rest awake mem copy =>
    have hcopy : ∀ t, ((s.kernel.modify (s.kernel.curr 0) fun p =>
        { p with mailboxStatus := 0 }).procs t).state = (s.kernel.procs t).state := by
      intro t
      rw [procs_modify]
      split
      · subst t
        rfl
      · rfl
    refine ⟨fun a ha hst => ?_, fun t ht => ?_⟩
    · have hold : (s.kernel.procs a).state = .sendBlocked := by
        rcases rest.states a with he | hr
        · exact (hcopy a).symm.trans (he.symm.trans hst)
        · exact absurd (hst.symm.trans hr) (by simp)
      have hpend : (k.procs a).ipcPendingPid = (s.kernel.procs a).ipcPendingPid := by
        rw [carried_pending rest, procs_modify]
        split
        · subst a
          rfl
        · rfl
      obtain ⟨t, ht, hpid, hlive, hfull⟩ := h a (rest.existing ▸ ha) hold
      have hne : t ≠ s.kernel.curr 0 := by
        rintro rfl
        exact awake a ha hst (hpend.trans hpid.symm)
      have hsame := procs_modify s.kernel (s.kernel.curr 0) t fun p => { p with mailboxStatus := 0 }
      rw [if_neg hne] at hsame
      refine ⟨t, rest.existing ▸ ht, ?_, fun hz => ?_, ?_⟩
      · show (k.procs t).pid = (k.procs a).ipcPendingPid
        rw [carried_pid rest, hsame, hpend]
        exact hpid
      · rcases rest.states t with he | hr
        · exact hlive ((hcopy t).symm.trans (he.symm.trans hz))
        · exact absurd (hz.symm.trans hr) (by simp)
      · show (k.procs t).mailboxStatus = 1
        rw [carried_status rest, hsame]
        exact hfull
    · show (k.procs t).mailboxStatus = 0 ∨ (k.procs t).mailboxStatus = 1
      rw [carried_status rest, procs_modify]
      split
      · exact Or.inl rfl
      · exact hf t (rest.existing ▸ ht)

/-- The process that a sleeping sender names wakes it in its next receive. -/
theorem receives_wakes (hs : Sound s.kernel v) (h : Awaited s.kernel) (hreceives : Receives s s')
    (hphys : uvmTranslate s.mem (s.kernel.procs (s.kernel.curr 0)).satp
      ((s.kernel.procs (s.kernel.curr 0)).tf.uContext 10) ≠ 0) (ha : a ∈ s.kernel.existing)
    (hst : (s.kernel.procs a).state = .sendBlocked)
    (hpend : (s.kernel.procs a).ipcPendingPid = (s.kernel.procs (s.kernel.curr 0)).pid) :
    (s'.kernel.procs a).state = .ready := by
  obtain ⟨t, ht, hpid, _, hfull⟩ := h a ha hst
  obtain rfl := hs.orderly.pids t ht _ hs.orderly.curr (hpid.trans hpend)
  cases hreceives with
  | exited k bad rest => exact absurd bad hphys
  | asleep k empty rest =>
    rw [hfull] at empty
    exact absurd empty (by decide)
  | fetched k full rest awake mem copy =>
    rcases rest.states a with he | hr
    · have hold : (k.procs a).state = .sendBlocked ∧
          (k.procs a).ipcPendingPid = (s.kernel.procs a).ipcPendingPid := by
        rw [he, carried_pending rest, procs_modify]
        split
        · subst a
          exact ⟨hst, rfl⟩
        · exact ⟨hst, rfl⟩
      exact absurd (hold.2.trans hpend) (awake a (rest.existing.symm ▸ ha) hold.1)
    · exact hr

/-- Who is reaped has exited. -/
theorem waitProcess_keeps (hs : Sound k v) (hrun : k.waitProcess 0 = .done n k') :
    k'.existing ⊆ k.existing ∧ ∀ t ∈ k.existing, (k.procs t).state ≠ .zombie → t ∈ k'.existing := by
  have hfind : k.findChild (k.procs (k.curr 0)).pid (k.existing.length + 1) (k.heads .zombie) = _ :=
    findChild_eq (k.procs (k.curr 0)).pid (hs.queued.threaded.dll .zombie).seg
      (Nat.lt_succ_of_le (hs.queued.length_le _))
  unfold Kernel.waitProcess at hrun
  rw [hfind, Outcome.bind_done] at hrun
  cases hz : (v (.wait .zombie)).find? fun a => (k.procs a).parentPid == (k.procs (k.curr 0)).pid
      with
  | none =>
    rw [hz] at hrun
    obtain ⟨_, rfl⟩ := Outcome.done.inj hrun
    exact ⟨List.Subset.refl _, fun _ ht _ => ht⟩
  | some z =>
    have hzv : z ∈ v (.wait .zombie) := List.mem_of_find?_eq_some hz
    have hz0 : z ≠ 0 := (hs.queued.threaded.dll .zombie).ne_nil z hzv
    have hst : (k.procs z).state = .zombie := Process.state_of_place ((hs.queued.mem _ z).mp hzv).2
    have hex : (k.unlinkList z .zombie).existing = k.existing := existing_congr (bare_unlinkList ..)
    rw [hz, Option.getD_some, if_neg hz0] at hrun
    obtain ⟨_, rfl⟩ := Outcome.done.inj hrun
    show (k.unlinkList z .zombie).existing.erase z ⊆ k.existing ∧
      ∀ t ∈ k.existing, (k.procs t).state ≠ .zombie → t ∈ (k.unlinkList z .zombie).existing.erase z
    rw [hex]
    refine ⟨List.erase_subset, fun t ht hlive => (List.mem_erase_of_ne ?_).mpr ht⟩
    rintro rfl
    exact hlive hst

/-- Scheduling calls keep this. -/
theorem call_awaited (hs : Sound k v) (h : Awaited k) (hf : Flagged k) (hplain : plain c)
    (hc : ∀ code, c = .exit code → Unawaited k) (hcall : k.call c = some k') :
    Awaited k' ∧ Flagged k' := by
  have hcalm : Enters (fun _ x => x ≠ .sendBlocked ∧ x ≠ .zombie) k c → Awaited k' ∧
      Flagged k' := by
    intro he
    have hk := call_carried (W := fun _ x => x ≠ .sendBlocked ∧ x ≠ .zombie) (by simp) (by simp) he
      hcall
    exact ⟨h.carried hk (fun _ _ hw => absurd rfl hw.1) fun _ _ hw => absurd rfl hw.2,
      hf.carried hk⟩
  cases c with
  | spawn new image priority => exact absurd hplain (by simp [plain])
  | blockIpc => exact absurd hplain (by simp [plain])
  | blockIpcSend => exact absurd hplain (by simp [plain])
  | unblockIpc target => exact absurd hplain (by simp [plain])
  | unblockIpcSend target => exact absurd hplain (by simp [plain])
  | block => exact hcalm (by simp [Enters])
  | sleep ticks => exact hcalm (by simp [Enters])
  | exit code =>
    have hk :=
      call_carried (W := fun a x => x ≠ .sendBlocked ∧ (x = .zombie → a = k.curr 0)) (by simp)
      (by simp) (c := .exit code) (by simp [Enters]) hcall
    refine ⟨h.carried hk (fun _ _ hw => absurd rfl hw.1) fun t _ hw a ha hor => ?_, hf.carried hk⟩
    rw [hw.2 rfl]
    exact hc code rfl a ha (hor.resolve_right fun hw' => absurd rfl hw'.1)
  | wait =>
    rw [Kernel.call] at hcall
    cases hrun : k.waitProcess 0 with
    | done n k₁ =>
      rw [hrun] at hcall
      obtain rfl := Option.some.inj hcall
      have hk : Carried (fun _ _ => False) k { k₁ with existing := k.existing } :=
        Carried.waitProcess hrun
      obtain ⟨hsub, hstay⟩ := waitProcess_keeps hs hrun
      have h₁ := h.carried hk (fun _ _ hw => hw.elim) fun _ _ hw => hw.elim
      refine ⟨fun a ha hst => ?_, fun t ht => hf.carried hk t (hsub ht)⟩
      obtain ⟨t, ht, hpid, hlive, hfull⟩ := h₁ a (hsub ha) hst
      refine ⟨t, hstay t ht fun hz => hlive ?_, hpid, hlive, hfull⟩
      exact ((hk.states t).resolve_right id).trans hz
    | panic => simp [hrun, Outcome.returned] at hcall
    | spin => simp [hrun, Outcome.returned] at hcall
  | schedule => exact hcalm trivial
  | yield => exact hcalm trivial
  | unblock target => exact hcalm trivial
  | updateSleepList => exact hcalm trivial
  | sweep => exact hcalm trivial

/-- So does every step. -/
theorem step_awaited (hs : Sound s.kernel v) (h : Awaited s.kernel) (hf : Flagged s.kernel)
    (hc : Spared s e) (hstep : s.step e = some s') : Awaited s'.kernel ∧ Flagged s'.kernel := by
  have hkeep : ∀ {k}, Carried (fun _ _ => False) s.kernel k → Awaited k ∧ Flagged k := fun hk =>
    ⟨h.carried hk (fun _ _ hw => hw.elim) fun _ _ hw => hw.elim, hf.carried hk⟩
  obtain ⟨h₁, hf₁⟩ := hkeep (carried_enter s)
  have hun : Unawaited s.kernel → Unawaited s.enter.kernel := by
    intro hun a ha hst
    have hst' : (s.kernel.procs a).state = .sendBlocked :=
      ((touched_enter s).same a).1.symm.trans hst
    rw [carried_pending (carried_enter (W := fun _ _ => False) s), enter_curr]
    exact hun a ha hst'
  cases e with
  | user regs epc mem rights =>
    rw [System.step] at hstep
    split at hstep
    · obtain rfl := Option.some.inj hstep
      exact hkeep (carried_user s regs epc mem rights)
    · exact absurd hstep (by simp)
  | sendMsg =>
    obtain ⟨hu, _, hsends⟩ := step_sendMsg hs hstep
    refine sends_awaited (userRuns_enter hu) h₁ hf₁ hsends fun hbad => ?_
    rw [enter_curr] at hbad
    exact hun (hc hbad)
  | recvMsg =>
    obtain ⟨hu, _, hreceives⟩ := step_recvMsg hs hstep
    refine receives_awaited h₁ hf₁ hreceives fun hbad => ?_
    rw [enter_curr] at hbad
    exact hun (hc hbad)
  | call c =>
    obtain ⟨hplain, _, k', hcall, rfl, _⟩ := step_call hs hstep
    refine call_awaited hs h hf hplain (fun code he => ?_) hcall
    subst he
    exact hc

/-! ## Every run -/

/-- As long as nobody exits while a sender waits for it, every sleeping sender waits for a process
that has not exited and has a message to take, and that process wakes it in its next receive. -/
theorem awaited_of_run {g : List (System × Event)} (h0 : s₀.Fresh) (hr : Run System.step s₀ g s)
    (hP : Run.Steps Spared g) : Awaited s.kernel ∧
      ∀ a ∈ s.kernel.existing, (s.kernel.procs a).state = .sendBlocked → ∀ s',
        s.step .recvMsg = some s' →
        (s.kernel.procs a).ipcPendingPid = (s.kernel.procs (s.kernel.curr 0)).pid →
        uvmTranslate s.mem (s.kernel.procs (s.kernel.curr 0)).satp
          ((s.kernel.procs (s.kernel.curr 0)).tf.uContext 10) ≠ 0 →
        (s'.kernel.procs a).state = .ready := by
  obtain ⟨⟨v, hs⟩, h, hf⟩ := hr.invariant
    (I := fun s => (∃ v, Sound s.kernel v) ∧ Awaited s.kernel ∧ Flagged s.kernel) hP
    ⟨h0.sound, fun a ha hst => absurd hst (h0.state a ha).2, fun t ht => Or.inl (h0.mailbox t ht)⟩
    (fun _ _ _ ⟨⟨_, hs⟩, h, hf⟩ hc hstep => ⟨sound_step hs hstep, step_awaited hs h hf hc hstep⟩)
  refine ⟨h, fun a ha hst s' hstep hpend hphys => ?_⟩
  obtain ⟨_, _, hreceives⟩ := step_recvMsg hs hstep
  have hcarry := carried_enter (W := fun _ _ => False) s
  have h₁ : Awaited s.enter.kernel :=
    h.carried hcarry (fun _ _ hw => hw.elim) fun _ _ hw => hw.elim
  refine receives_wakes ((touched_enter s).sound hs) h₁ hreceives ?_ ha
    (((touched_enter s).same a).1.trans hst) ?_
  · rw [enter_curr]
    exact hphys
  · rw [carried_pending hcarry, enter_curr]
    exact hpend

/-- Process 1 sends twice to process 2 and sleeps. -/
def twoSends : List Event :=
  [.call .schedule, System.userCode 2 0x5000, .sendMsg, System.userCode 2 0x5000, .sendMsg,
    .call .schedule]

/-- A sender waits for a receiver that exists. -/
theorem awaited_of_run_sends : ∃ g s, Run System.step System.pair g s ∧
    (s.kernel.procs 0x2000).state = .sendBlocked ∧ Awaited s.kernel := by
  have htakes : Run.Takes System.step Spared (fun s => (s.kernel.procs 0x2000).state = .sendBlocked)
      System.pair twoSends := by decide +kernel
  obtain ⟨g, s, hr, hP, _, hst⟩ := htakes.exists_run .nil Run.Steps.nil
  exact ⟨g, s, hr, hst, (awaited_of_run System.fresh_pair hr hP).1⟩

/-- Process 2 exits, and process 1 waits for ever. -/
theorem stranded : System.pair.Fresh ∧ ∃ g s, Run System.step System.pair g s ∧
    ¬Awaited s.kernel := by
  have htakes : Run.Takes System.step (fun _ _ => True) (fun s => ¬Awaited s.kernel)
      System.pair (twoSends ++ [.call (.exit 0)]) := by decide +kernel
  obtain ⟨g, s, hr, _, _, hst⟩ := htakes.exists_run .nil Run.Steps.nil
  exact ⟨System.fresh_pair, g, s, hr, hst⟩

end RexOS.Ipc
