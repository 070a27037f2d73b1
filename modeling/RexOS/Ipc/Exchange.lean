import RexOS.Ipc.Stranded

/-!
# Every message once and in order

The messages that a process has received, with the one in its mailbox, are those of the sends to
it that returned 1, each with the pid of its sender, provided that the buffers lie in memory as
they lie in the address space. A receive that finds no message sleeps until one has come, and
then returns without it; so each receive returns with one message only where each finds one.
-/

namespace RexOS.Ipc

open Bits Scheduler Paging Kernel

variable {s s' s₀ : System} {k k' : Kernel} {v : Place → List Nat} {a target satp virAddr : Nat}
  {mem mailbox : Nat → Nat} {e : Event}

/-- The message in the mailbox of a process, if there is one. -/
def box (p : Process) : List (List Nat) := if p.mailboxStatus = 0 then [] else [message p.mailbox]

/-- What was sent to a process is what it has received and what is in its mailbox. -/
def Delivered (s : System) : Prop :=
  ∀ a ∈ s.kernel.existing, s.received a ++ box (s.kernel.procs a) =
    (s.sent a).map fun m => m.1 :: m.2

/-- A process that is back in user code has got one message from its last receive. -/
def Returned (s : System) : Prop :=
  ∀ a ∈ s.kernel.existing, (s.kernel.procs a).state = .running → ∀ n, s.copied a = some n → n = 1

/-- The buffer of a message call lies in memory as it lies in the address space. -/
def Flat (s : System) : Event → Prop
  | .sendMsg => FlatAt s.mem (s.kernel.procs (s.kernel.curr 0)).satp
      ((s.kernel.procs (s.kernel.curr 0)).tf.uContext 11)
  | .recvMsg => FlatAt s.mem (s.kernel.procs (s.kernel.curr 0)).satp
      ((s.kernel.procs (s.kernel.curr 0)).tf.uContext 10)
  | _ => True

/-- A receive finds a message. -/
def Filled (s : System) : Event → Prop
  | .recvMsg => (s.kernel.procs (s.kernel.curr 0)).mailboxStatus ≠ 0
  | _ => True

/-! ## Copies -/

/-- A buffer within flat memory is nine words in a row. -/
theorem bufferAt_flat (h : FlatAt mem satp virAddr) : bufferAt mem satp virAddr =
    (List.range 9).map fun i => wrap (uvmTranslate mem satp virAddr + 8 * i) := by
  refine List.map_congr_left fun i hi => h (8 * i) ?_
  have hlt := List.mem_range.mp hi
  omega

/-- The message that goes into a mailbox is the sender's, with its pid. -/
theorem message_sending (q : Process)
    (h : FlatAt s.mem (s.kernel.procs (s.kernel.curr 0)).satp
      ((s.kernel.procs (s.kernel.curr 0)).tf.uContext 11)) :
    message (s.sending q) = (s.kernel.procs (s.kernel.curr 0)).pid ::
      ((bufferAt s.mem (s.kernel.procs (s.kernel.curr 0)).satp
        ((s.kernel.procs (s.kernel.curr 0)).tf.uContext 11)).map s.mem).tail := by
  rw [bufferAt_flat h]
  rfl

/-- Each word of the mailbox is copied. -/
theorem copyOut_mem (mailbox : Nat → Nat) (physAddr : Nat) {n i : Nat} (hn : n ≤ 9) (hi : i < n) :
    (List.range n).foldl (fun mem i => Function.update mem (wrap (physAddr + 8 * i)) (mailbox i))
      mem
      (wrap (physAddr + 8 * i)) = mailbox i := by
  induction n with
  | zero => exact absurd hi (Nat.not_lt_zero i)
  | succ n ih =>
    rw [List.range_succ, List.foldl_append, List.foldl_cons, List.foldl_nil]
    by_cases he : i = n
    · subst he
      exact Function.update_self ..
    · have hne : wrap (physAddr + 8 * i) ≠ wrap (physAddr + 8 * n) := by
        unfold wrap
        omega
      rw [Function.update_of_ne hne]
      exact ih (by omega) (by omega)

/-- The receiver's buffer holds what was in the mailbox. -/
theorem message_received (mailbox : Nat → Nat) (h : FlatAt s.mem satp virAddr) :
    (bufferAt s.mem satp virAddr).map (s.copyOut mailbox (uvmTranslate s.mem satp virAddr)).mem =
      message mailbox := by
  rw [bufferAt_flat h, List.map_map]
  refine List.map_congr_left fun i hi => ?_
  exact copyOut_mem mailbox _ (Nat.le_refl 9) (List.mem_range.mp hi)

/-! ## One step -/

/-- Scheduling keeps the mailbox. -/
theorem box_carried {W : Nat → ProcState → Prop} (hc : Carried W k k') (a : Nat) :
    box (k'.procs a) = box (k.procs a) := by
  unfold box
  rw [carried_status hc, carried_mailbox hc]

/-- Message data, and what was sent and received, stay as they are. -/
theorem Delivered.carried {W : Nat → ProcState → Prop} (h : Delivered s)
    (hc : Carried W s.kernel s'.kernel) (hsent : s'.sent = s.sent)
    (hreceived : s'.received = s.received) : Delivered s' := by
  intro a ha
  rw [box_carried hc, hsent, hreceived]
  exact h a (hc.existing ▸ ha)

/-- A send delivers, or waits. -/
theorem sends_delivered (h : Delivered s) (hsends : Sends s s')
    (hflat : FlatAt s.mem (s.kernel.procs (s.kernel.curr 0)).satp
      ((s.kernel.procs (s.kernel.curr 0)).tf.uContext 11)) : Delivered s' := by
  cases hsends with
  | exited k bad rest => exact h.carried rest rfl rfl
  | refused k rest => exact h.carried rest rfl rfl
  | delivered target k found live empty rest =>
    intro a ha
    have hold := h a (rest.existing ▸ ha)
    show s.received a ++ box (k.procs a) = _
    rw [box_carried rest, procs_modify]
    by_cases he : a = target
    · subst he
      rw [box, if_pos empty, List.append_nil] at hold
      rw [if_pos rfl, hold]
      show _ ++ [message (s.sending _)] = List.map _ (Function.update s.sent a _ a)
      rw [Function.update_self, List.map_append, message_sending _ hflat]
      rfl
    · rw [if_neg he]
      show _ = List.map _ (Function.update s.sent target _ a)
      rw [Function.update_of_ne he]
      exact hold
  | blocked target k found live full rest =>
    intro a ha
    have hold := h a (rest.existing ▸ ha)
    show s.received a ++ box (k.procs a) = _
    rw [box_carried rest, procs_modify]
    split
    · subst a
      exact hold
    · exact hold

/-- A receive takes what was delivered. -/
theorem receives_delivered (h : Delivered s) (hreceives : Receives s s')
    (hflat : FlatAt s.mem (s.kernel.procs (s.kernel.curr 0)).satp
      ((s.kernel.procs (s.kernel.curr 0)).tf.uContext 10)) : Delivered s' := by
  cases hreceives with
  | exited k bad rest => exact h.carried rest rfl rfl
  | asleep k empty rest => exact h.carried rest rfl rfl
  | fetched k full rest awake mem copy =>
    intro a ha
    have hold := h a (rest.existing ▸ ha)
    show Function.update s.received _ _ a ++ box (k.procs a) = List.map _ (s.sent a)
    rw [box_carried rest, procs_modify]
    by_cases he : a = s.kernel.curr 0
    · subst he
      rw [box, if_neg full] at hold
      rw [if_pos rfl, Function.update_self, copy, message_received _ hflat, ← hold]
      exact List.append_nil _
    · rw [if_neg he, Function.update_of_ne he]
      exact hold

/-- The other calls do not touch message data. -/
theorem call_mail {c : Call} (hs : Sound k v) (hplain : plain c) (hcall : k.call c = some k') :
    k'.existing ⊆ k.existing ∧ Carried (fun _ _ => True) k { k' with existing := k.existing } := by
  have hany : Enters (fun _ _ => True) k c →
      k'.existing ⊆ k.existing ∧
        Carried (fun _ _ => True) k { k' with existing := k.existing } := by
    intro he
    have hk := call_carried (W := fun _ _ => True) (fun _ => trivial) (fun _ => trivial) he hcall
    exact ⟨hk.existing ▸ List.Subset.refl _, hk.nextPid, rfl, hk.mail, hk.states⟩
  cases c with
  | wait =>
    rw [Kernel.call] at hcall
    cases hrun : k.waitProcess 0 with
    | done n k₁ =>
      rw [hrun] at hcall
      obtain rfl := Option.some.inj hcall
      exact ⟨(waitProcess_keeps hs hrun).1, Carried.waitProcess hrun⟩
    | panic => simp [hrun, Outcome.returned] at hcall
    | spin => simp [hrun, Outcome.returned] at hcall
  | spawn new image priority => exact absurd hplain (by simp [plain])
  | _ => exact hany trivial

/-- So does every step. -/
theorem step_delivered (hs : Sound s.kernel v) (h : Delivered s) (hc : Flat s e)
    (hstep : s.step e = some s') : Delivered s' := by
  have h₁ : Delivered s.enter := h.carried (carried_enter (W := fun _ _ => False) s) rfl rfl
  cases e with
  | user regs epc mem rights =>
    rw [System.step] at hstep
    split at hstep
    · obtain rfl := Option.some.inj hstep
      exact h.carried (carried_user (W := fun _ _ => False) s regs epc mem rights) rfl rfl
    · exact absurd hstep (by simp)
  | sendMsg =>
    obtain ⟨_, _, hsends⟩ := step_sendMsg hs hstep
    refine sends_delivered h₁ hsends ?_
    rw [enter_curr]
    exact hc
  | recvMsg =>
    obtain ⟨_, _, hreceives⟩ := step_recvMsg hs hstep
    refine receives_delivered h₁ hreceives ?_
    rw [enter_curr]
    exact hc
  | call c =>
    obtain ⟨hplain, _, k', hcall, rfl, _⟩ := step_call hs hstep
    obtain ⟨hsub, hk⟩ := call_mail hs hplain hcall
    intro a ha
    have hbox : box (k'.procs a) = box (s.kernel.procs a) := box_carried hk a
    show s.received a ++ box (k'.procs a) = _
    rw [hbox]
    exact h a (hsub ha)

/-- Where a receive finds a message, it has copied one. -/
theorem step_copied (hs : Sound s.kernel v) (h : ∀ a n, s.copied a = some n → n = 1)
    (hc : Filled s e) (hstep : s.step e = some s') : ∀ a n, s'.copied a = some n → n = 1 := by
  cases e with
  | user regs epc mem rights =>
    rw [System.step] at hstep
    split at hstep
    · obtain rfl := Option.some.inj hstep
      exact h
    · exact absurd hstep (by simp)
  | sendMsg =>
    obtain ⟨_, _, hsends⟩ := step_sendMsg hs hstep
    cases hsends <;> exact h
  | recvMsg =>
    obtain ⟨_, _, hreceives⟩ := step_recvMsg hs hstep
    cases hreceives with
    | exited k bad rest => exact h
    | asleep k empty rest =>
      rw [enter_curr] at empty
      exact absurd empty hc
    | fetched k full rest awake mem copy =>
      intro a n hn
      have hn' : Function.update s.copied (s.kernel.curr 0) (some 1) a = some n := hn
      rw [Function.update_apply] at hn'
      split at hn'
      · exact (Option.some.inj hn').symm
      · exact h a n hn'
  | call c =>
    obtain ⟨_, _, k', _, rfl, _⟩ := step_call hs hstep
    exact h

/-! ## Every run -/

/-- Nothing is lost, doubled or put out of order. If every receive finds a message, each returns
with one. -/
theorem delivered_of_run {g : List (System × Event)} (h0 : s₀.Fresh) (hr : Run System.step s₀ g s)
    (hflat : Run.Steps Flat g) : Delivered s ∧ (Run.Steps Filled g → Returned s) := by
  constructor
  · have hstart : Delivered s₀ := by
      intro a ha
      rw [h0.sent, h0.received, box, if_pos (h0.mailbox a ha)]
      rfl
    obtain ⟨_, h⟩ := hr.invariant (I := fun s => (∃ v, Sound s.kernel v) ∧ Delivered s) hflat
      ⟨h0.sound, hstart⟩
      (fun _ _ _ ⟨⟨_, hs⟩, h⟩ hc hstep => ⟨sound_step hs hstep, step_delivered hs h hc hstep⟩)
    exact h
  · intro hfilled
    obtain ⟨_, h⟩ := hr.invariant
      (I := fun s => (∃ v, Sound s.kernel v) ∧ ∀ a n, s.copied a = some n → n = 1) hfilled
      ⟨h0.sound, fun a n hn => by simp [h0.copied] at hn⟩
      (fun _ _ _ ⟨⟨_, hs⟩, h⟩ hc hstep => ⟨sound_step hs hstep, step_copied hs h hc hstep⟩)
    exact fun a _ _ n hn => h a n hn

instance (mem : Nat → Nat) (satp virAddr : Nat) : Decidable (FlatAt mem satp virAddr) :=
  inferInstanceAs (Decidable (∀ k < 72, _))

instance (s : System) : (e : Event) → Decidable (Flat s e)
  | .user _ _ _ _ => inferInstanceAs (Decidable True)
  | .sendMsg => inferInstanceAs (Decidable (FlatAt _ _ _))
  | .recvMsg => inferInstanceAs (Decidable (FlatAt _ _ _))
  | .call _ => inferInstanceAs (Decidable True)

instance (s : System) : (e : Event) → Decidable (Filled s e)
  | .user _ _ _ _ => inferInstanceAs (Decidable True)
  | .sendMsg => inferInstanceAs (Decidable True)
  | .recvMsg => inferInstanceAs (Decidable (_ ≠ _))
  | .call _ => inferInstanceAs (Decidable True)

/-- Process 1 sends to process 2, which takes the message. -/
theorem delivered_of_run_one : ∃ g s, Run System.step System.pair g s ∧
    s.received 0x3000 = [[1, 0x401, 0x401, 0x401, 0x401, 0x401, 0x401, 0x401, 0x401]] ∧
    Delivered s ∧ Returned s := by
  have htakes : Run.Takes System.step (fun s e => Flat s e ∧ Filled s e)
      (fun s => s.received 0x3000 = [[1, 0x401, 0x401, 0x401, 0x401, 0x401, 0x401, 0x401, 0x401]])
      System.pair [.call .schedule, System.userCode 2 0x5000, .sendMsg, .call .schedule,
        System.userCode 0x5000 0, .recvMsg] := by decide +kernel
  obtain ⟨g, s, hr, hP, _, hst⟩ := htakes.exists_run .nil Run.Steps.nil
  obtain ⟨hd, hret⟩ := delivered_of_run System.fresh_pair hr fun x hx => (hP x hx).1
  exact ⟨g, s, hr, hst, hd, hret fun x hx => (hP x hx).2⟩

/-- Process 1 receives before process 2 sends, and comes back without the message. -/
theorem returned_empty : ∃ g s, Run System.step System.pair g s ∧ Run.Steps Flat g ∧
    s.sent 0x2000 ≠ [] ∧ ¬Returned s := by
  have htakes : Run.Takes System.step Flat (fun s => s.sent 0x2000 ≠ [] ∧
      0x2000 ∈ s.kernel.existing ∧ (s.kernel.procs 0x2000).state = .running ∧
      s.copied 0x2000 = some 0)
      System.pair [.call .schedule, System.userCode 0x5000 0, .recvMsg, .call .schedule,
        System.userCode 1 0x5000, .sendMsg, .call .schedule] := by decide +kernel
  obtain ⟨g, s, hr, hP, _, hsent, hex, hrun, hcopied⟩ := htakes.exists_run .nil Run.Steps.nil
  exact ⟨g, s, hr, hP, hsent, fun h => absurd (h 0x2000 hex hrun 0 hcopied) (by decide)⟩

end RexOS.Ipc
