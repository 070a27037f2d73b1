import RexOS.Core.Runs
import RexOS.Scheduler.Model

/-!
# Messages between harts

Neither the mailbox nor `mailbox_status` is under a lock. Here any number of senders and one
receiver run on harts of their own, each handler in the steps between which the others can
act; a list operation under its lock is one step. A sender is known by its pid, and all
senders send to the one receiver. A woken sender runs its call again, a woken receiver is
past it.

Each handler acts on a test of `mailbox_status` made in an earlier step. As long as what was
tested still holds when the handler acts, no accepted message is overwritten and nobody sleeps
through a wake-up.
-/

namespace RexOS.Ipc

open Scheduler

/-- How far a sender is in its call. -/
inductive SendStep where
  /-- In its own code, or asleep. -/
  | user
  /-- It found the mailbox empty. -/
  | empty
  /-- Its message, the given one of all, is in the mailbox. -/
  | copied (number : Nat)
  /-- It has looked at the state of the receiver, too. -/
  | checked (number : Nat)
  /-- It found the mailbox full. -/
  | full
  deriving DecidableEq

/-- How far the receiver is in its call. -/
inductive RecvStep where
  | user
  | empty
  | full
  | copied
  | waking
  deriving DecidableEq

/-- The senders, the receiver and what they share. -/
structure Harts where
  mailbox : Nat → Nat
  mailboxStatus : Nat
  sender : Nat → SendStep
  senderState : Nat → ProcState
  receiver : RecvStep
  receiverState : ProcState
  /-- What the receiver points to. -/
  buff : Nat → Nat
  /-- The list of blocked senders. -/
  sendList : List Nat
  /-- Ghost: the number of messages copied in, the numbers of those whose call returned 1, and of
  those copied out. -/
  copies : Nat
  accepted : List Nat
  received : List Nat

/-- A step of one hart. -/
inductive HartStep where
  | dispatchSender (i : Nat)
  | dispatchReceiver
  | testSend (i : Nat)
  | copyIn (i : Nat) (msg : Nat → Nat)
  | unblock (i : Nat)
  | setStatus (i : Nat)
  | blockSend (i : Nat)
  | testRecv
  | blockRecv
  | copyOut
  | clearStatus
  | wakeSender

namespace Harts

variable (s : Harts)

/-- A sender goes on to a step. -/
def sendAt (i : Nat) (x : SendStep) : Harts := { s with sender := Function.update s.sender i x }

/-- A step, if its hart is there. -/
def step : HartStep → Option Harts
  | .dispatchSender i =>
    if s.senderState i = .ready then
      some { s with senderState := Function.update s.senderState i .running }
    else none
  | .dispatchReceiver =>
    if s.receiverState = .ready then some { s with receiverState := .running } else none
  | .testSend i =>
    if s.sender i = .user ∧ s.senderState i = .running then
      some (s.sendAt i (if s.mailboxStatus = 0 then .empty else .full))
    else none
  | .copyIn i msg =>
    if s.sender i = .empty then
      some { s.sendAt i (.copied (s.copies + 1)) with
        mailbox := Function.update msg 0 i
        copies := s.copies + 1 }
    else none
  | .unblock i =>
    match s.sender i with
    | .copied k =>
      some { s.sendAt i (.checked k) with
        receiverState := if s.receiverState = .ipcBlocked then .ready else s.receiverState }
    | _ => none
  | .setStatus i =>
    match s.sender i with
    | .checked k =>
      some { s.sendAt i .user with mailboxStatus := 1, accepted := k :: s.accepted }
    | _ => none
  | .blockSend i =>
    if s.sender i = .full then
      some { s.sendAt i .user with
        senderState := Function.update s.senderState i .sendBlocked
        sendList := i :: s.sendList }
    else none
  | .testRecv =>
    if s.receiver = .user ∧ s.receiverState = .running then
      some { s with receiver := if s.mailboxStatus = 0 then .empty else .full }
    else none
  | .blockRecv =>
    if s.receiver = .empty then
      some { s with receiver := .user, receiverState := .ipcBlocked }
    else none
  | .copyOut =>
    if s.receiver = .full then
      some { s with receiver := .copied, buff := s.mailbox, received := s.copies :: s.received }
    else none
  | .clearStatus =>
    if s.receiver = .copied then some { s with receiver := .waking, mailboxStatus := 0 } else none
  | .wakeSender =>
    if s.receiver = .waking then
      match s.sendList with
      | [] => some { s with receiver := .user }
      | i :: l =>
        some { s with sendList := l, senderState := Function.update s.senderState i .ready }
    else none

/-- Everybody is in user code and the mailbox is empty. -/
def start (mailbox buff : Nat → Nat) : Harts :=
  ⟨mailbox, 0, fun _ => .user, fun _ => .running, .user, .running, buff, [], 0, [], []⟩

/-- The message of a sender is in the mailbox and the status not yet set. -/
def InFlight (i k : Nat) : Prop := s.sender i = .copied k ∨ s.sender i = .checked k

/-- An accepted message stays in the mailbox until it is copied out. -/
def Kept : Prop := ∀ k ∈ s.accepted, k ∈ s.received ∨ k = s.copies

/-- No handler is in progress. -/
def Idle : Prop := s.receiver = .user ∧ ∀ i, s.sender i = .user

/-- Whoever is blocked still has a reason. -/
def Awake : Prop :=
  (s.receiverState = .ipcBlocked → s.mailboxStatus = 0) ∧
    ∀ i, s.senderState i = .sendBlocked → s.mailboxStatus = 1

/-- What the handler tested still holds when it acts on it. A sender copies in alone; the receiver
blocks before the next sender has looked at its state, and a sender before the receiver is through
with the list. -/
def Undisturbed : HartStep → Prop
  | .copyIn _ _ => s.mailboxStatus = 0 ∧ ∀ i k, ¬s.InFlight i k
  | .blockRecv => s.mailboxStatus = 0 ∧ ∀ i k, s.sender i ≠ .checked k
  | .blockSend _ => s.mailboxStatus = 1 ∨ s.receiver = .waking
  | _ => True

/-- The invariant of undisturbed runs. -/
structure Regular : Prop where
  status : s.mailboxStatus = 0 ∨ s.mailboxStatus = 1
  flight : ∀ i k, s.InFlight i k → s.mailboxStatus = 0 ∧ k = s.copies
  alone : ∀ i j k l, s.InFlight i k → s.InFlight j l → i = j
  kept : s.Kept
  emptied : s.mailboxStatus = 0 ∨ s.receiver = .copied → ∀ k ∈ s.accepted, k ∈ s.received
  reading : s.receiver = .full ∨ s.receiver = .copied → s.mailboxStatus = 1
  asleep : s.receiverState = .ipcBlocked → s.mailboxStatus = 0 ∧ ∀ i k, s.sender i ≠ .checked k
  listed : ∀ i, s.senderState i = .sendBlocked → i ∈ s.sendList
  woken : s.sendList ≠ [] → s.mailboxStatus = 1 ∨ s.receiver = .waking

variable {s t : Harts} {a : HartStep} {i j k : Nat} {x : SendStep}

/-! ## One step -/

/-- A sender that moves on. -/
theorem inFlight_sendAt :
    (s.sendAt i x).InFlight j k ↔
      if j = i then x = .copied k ∨ x = .checked k else s.InFlight j k := by
  unfold InFlight sendAt
  by_cases hj : j = i
  · subst hj
    simp only [Function.update_self, if_true]
  · simp only [Function.update_of_ne hj, if_neg hj]

/-- The others stay where they are. -/
theorem sender_sendAt : (s.sendAt i x).sender j = if j = i then x else s.sender j :=
  Function.update_apply ..

/-- A sender that has no message in the mailbox yet, and has none after the step. -/
theorem Regular.sendAt (h : s.Regular) (hx : ∀ k, x ≠ .copied k ∧ x ≠ .checked k) :
    (s.sendAt i x).Regular := by
  have hold : ∀ j k, (s.sendAt i x).InFlight j k → s.InFlight j k := by
    intro j k hj
    rw [inFlight_sendAt] at hj
    split at hj
    · exact (hj.elim (hx k).1 (hx k).2).elim
    · exact hj
  refine ⟨h.status, fun j k hj => h.flight j k (hold j k hj),
    fun j j' k k' hj hj' => h.alone j j' k k' (hold j k hj) (hold j' k' hj'), h.kept, h.emptied,
    h.reading, fun hr => ⟨(h.asleep hr).1, fun j k => ?_⟩, h.listed, h.woken⟩
  rw [sender_sendAt]
  split
  · exact (hx k).2
  · exact (h.asleep hr).2 j k

/-- A sender that a step has made ready or running is not asleep. -/
theorem Regular.setSender {p : ProcState} (h : s.Regular) (hp : p ≠ .sendBlocked) :
    { s with senderState := Function.update s.senderState i p }.Regular := by
  refine ⟨h.status, h.flight, h.alone, h.kept, h.emptied, h.reading, h.asleep,
    fun j hj => ?_, h.woken⟩
  dsimp only at hj
  rw [Function.update_apply] at hj
  split at hj
  · exact absurd hj hp
  · exact h.listed j hj

/-- A step that is not disturbed keeps the mailbox regular. -/
theorem Regular.step (h : s.Regular) (hc : s.Undisturbed a) (hstep : s.step a = some t) :
    t.Regular := by
  cases a with
  | dispatchSender i =>
    simp only [Harts.step, Option.ite_none_right_eq_some, Option.some.injEq] at hstep
    obtain ⟨_, rfl⟩ := hstep
    exact h.setSender (by simp)
  | dispatchReceiver =>
    simp only [Harts.step, Option.ite_none_right_eq_some, Option.some.injEq] at hstep
    obtain ⟨_, rfl⟩ := hstep
    exact ⟨h.status, h.flight, h.alone, h.kept, h.emptied, h.reading, by simp, h.listed, h.woken⟩
  | testSend i =>
    simp only [Harts.step, Option.ite_none_right_eq_some, Option.some.injEq] at hstep
    obtain ⟨_, rfl⟩ := hstep
    apply h.sendAt
    intro k
    split <;> simp
  | copyIn i msg =>
    simp only [Harts.step, Option.ite_none_right_eq_some, Option.some.injEq] at hstep
    obtain ⟨_, rfl⟩ := hstep
    obtain ⟨h0, hnone⟩ := hc
    have hall := h.emptied (Or.inl h0)
    have hnew : ∀ j k, (s.sendAt i (.copied (s.copies + 1))).InFlight j k →
        j = i ∧ k = s.copies + 1 := by
      intro j k hj
      rw [inFlight_sendAt] at hj
      split at hj
      · have hk : s.copies + 1 = k := by simpa using hj
        exact ⟨‹_›, hk.symm⟩
      · exact (hnone j k hj).elim
    refine ⟨Or.inl h0, fun j k hj => ⟨h0, (hnew j k hj).2⟩,
      fun j j' k k' hj hj' => (hnew j k hj).1.trans (hnew j' k' hj').1.symm,
      fun k hk => Or.inl (hall k hk), fun _ => hall, h.reading, fun hr => ⟨h0, fun j k => ?_⟩,
      h.listed, h.woken⟩
    show (s.sendAt i (.copied (s.copies + 1))).sender j ≠ .checked k
    rw [sender_sendAt]
    split
    · simp
    · exact (h.asleep hr).2 j k
  | unblock i =>
    simp only [Harts.step] at hstep
    split at hstep
    · obtain rfl := Option.some.inj hstep
      rename_i k hi
      have hold : ∀ j l, (s.sendAt i (.checked k)).InFlight j l → s.InFlight j l := by
        intro j l hj
        rw [inFlight_sendAt] at hj
        split at hj
        · subst j
          obtain rfl : k = l := by simpa using hj
          exact Or.inl hi
        · exact hj
      refine ⟨h.status, fun j l hj => h.flight j l (hold j l hj),
        fun j j' l l' hj hj' => h.alone j j' l l' (hold j l hj) (hold j' l' hj'), h.kept, h.emptied,
        h.reading, fun hr => ?_, h.listed, h.woken⟩
      dsimp only at hr
      split at hr
      · exact absurd hr (by simp)
      · exact absurd hr ‹_›
    · exact absurd hstep (by simp)
  | setStatus i =>
    simp only [Harts.step] at hstep
    split at hstep
    · obtain rfl := Option.some.inj hstep
      rename_i k hi
      have hmine : s.InFlight i k := Or.inr hi
      obtain ⟨h0, hk⟩ := h.flight i k hmine
      have hall := h.emptied (Or.inl h0)
      have hnone : ∀ j l, ¬(s.sendAt i .user).InFlight j l := by
        intro j l hj
        rw [inFlight_sendAt] at hj
        split at hj
        · simp at hj
        · exact ‹¬j = i› (h.alone j i l k hj hmine)
      have hread : ¬(s.receiver = .full ∨ s.receiver = .copied) := by
        intro hr
        have h1 := h.reading hr
        omega
      refine ⟨Or.inr rfl, fun j l hj => (hnone j l hj).elim,
        fun j j' l l' hj _ => (hnone j l hj).elim, fun l hl => ?_, fun hor => ?_, fun _ => rfl,
        fun hr => ((h.asleep hr).2 i k hi).elim, h.listed, fun _ => Or.inl rfl⟩
      · rcases List.mem_cons.mp hl with rfl | hl
        · exact Or.inr hk
        · exact Or.inl (hall l hl)
      · rcases hor with h1 | hr
        · exact absurd h1 (by simp)
        · exact (hread (Or.inr hr)).elim
    · exact absurd hstep (by simp)
  | blockSend i =>
    simp only [Harts.step, Option.ite_none_right_eq_some, Option.some.injEq] at hstep
    obtain ⟨_, rfl⟩ := hstep
    have h' : (s.sendAt i .user).Regular := h.sendAt (by simp)
    refine ⟨h'.status, h'.flight, h'.alone, h'.kept, h'.emptied, h'.reading, h'.asleep,
      fun j hj => ?_, fun _ => hc⟩
    dsimp only at hj
    rw [Function.update_apply] at hj
    split at hj
    · subst j
      exact List.mem_cons_self
    · exact List.mem_cons_of_mem i (h.listed j hj)
  | testRecv =>
    simp only [Harts.step, Option.ite_none_right_eq_some, Option.some.injEq] at hstep
    obtain ⟨⟨hr, _⟩, rfl⟩ := hstep
    refine ⟨h.status, h.flight, h.alone, h.kept, fun hor => ?_, fun hor => ?_, h.asleep, h.listed,
      fun hl => Or.inl ?_⟩
    · rcases hor with h0 | hr'
      · exact h.emptied (Or.inl h0)
      · dsimp only at hr'
        split at hr' <;> exact absurd hr' (by simp)
    · dsimp only at hor ⊢
      split at hor
      · simp at hor
      · exact h.status.resolve_left ‹_›
    · exact (h.woken hl).resolve_right (by simp [hr])
  | blockRecv =>
    simp only [Harts.step, Option.ite_none_right_eq_some, Option.some.injEq] at hstep
    obtain ⟨hr, rfl⟩ := hstep
    refine ⟨h.status, h.flight, h.alone, h.kept, fun hor => ?_, by simp, fun _ => hc, h.listed,
      fun hl => Or.inl ((h.woken hl).resolve_right (by simp [hr]))⟩
    exact h.emptied (Or.inl (hor.resolve_right (by simp)))
  | copyOut =>
    simp only [Harts.step, Option.ite_none_right_eq_some, Option.some.injEq] at hstep
    obtain ⟨hr, rfl⟩ := hstep
    have hall : ∀ k ∈ s.accepted, k ∈ s.copies :: s.received := by
      intro k hk
      rcases h.kept k hk with hk | rfl
      · exact List.mem_cons_of_mem _ hk
      · exact List.mem_cons_self
    have h1 := h.reading (Or.inl hr)
    exact ⟨h.status, h.flight, h.alone, fun k hk => Or.inl (hall k hk), fun _ => hall, fun _ => h1,
      h.asleep, h.listed, fun _ => Or.inl h1⟩
  | clearStatus =>
    simp only [Harts.step, Option.ite_none_right_eq_some, Option.some.injEq] at hstep
    obtain ⟨hr, rfl⟩ := hstep
    have hall := h.emptied (Or.inr hr)
    exact ⟨Or.inl rfl, fun j k hj => ⟨rfl, (h.flight j k hj).2⟩, h.alone,
      fun k hk => Or.inl (hall k hk), fun _ => hall, by simp, fun hb => ⟨rfl, (h.asleep hb).2⟩,
      h.listed, fun _ => Or.inr rfl⟩
  | wakeSender =>
    simp only [Harts.step, Option.ite_none_right_eq_some] at hstep
    obtain ⟨hr, hstep⟩ := hstep
    split at hstep
    · obtain rfl := Option.some.inj hstep
      rename_i hl
      exact ⟨h.status, h.flight, h.alone, h.kept,
        fun hor => h.emptied (Or.inl (hor.resolve_right (by simp))), by simp, h.asleep, h.listed,
        fun hne => (hne hl).elim⟩
    · obtain rfl := Option.some.inj hstep
      rename_i i l hl
      refine ⟨h.status, h.flight, h.alone, h.kept, h.emptied, h.reading, h.asleep, fun j hj => ?_,
        fun _ => Or.inr hr⟩
      dsimp only at hj
      rw [Function.update_apply] at hj
      split at hj
      · exact absurd hj (by simp)
      · exact (List.mem_cons.mp (hl ▸ h.listed j hj)).resolve_left ‹_›

/-! ## Every run -/

/-- With nobody on the way a full mailbox has an awake owner. -/
theorem Regular.awake (h : s.Regular) (hidle : s.Idle) : s.Awake := by
  refine ⟨fun hr => (h.asleep hr).1, fun i hi => ?_⟩
  have hne : s.sendList ≠ [] := List.ne_nil_of_mem (h.listed i hi)
  exact (h.woken hne).resolve_right (by simp [hidle.1])

variable {mailbox buff : Nat → Nat} {g : List (Harts × HartStep)}

/-- It is regular at the start. -/
theorem regular_start : (start mailbox buff).Regular := by
  have hnone : ∀ i k, ¬(start mailbox buff).InFlight i k := by simp [InFlight, start]
  exact ⟨Or.inl rfl, fun i k hi => (hnone i k hi).elim, fun i _ k _ hi => (hnone i k hi).elim,
    by simp [Kept, start], by simp [start], by simp [start], by simp [start], by simp [start],
    by simp [start]⟩

/-- In an undisturbed run no accepted message is overwritten before it is copied out, and with no
handler in progress whoever is blocked has a reason. -/
theorem kept_of_run (hr : Run Harts.step (start mailbox buff) g s) (hP : Run.Steps Undisturbed g) :
    s.Kept ∧ (s.Idle → s.Awake) := by
  have h : s.Regular := hr.invariant hP regular_start fun _ _ _ hs hc hstep => hs.step hc hstep
  exact ⟨h.kept, h.awake⟩

/-- Sender 2 wakes the receiver, and sender 3 blocks at the full mailbox. -/
theorem kept_of_run_two : ∃ g s, Run Harts.step (start (fun _ => 0) fun _ => 0) g s ∧
    s.accepted = [1] ∧ s.sendList = [3] ∧ s.Kept ∧ (s.Idle → s.Awake) := by
  have htakes : Run.Takes Harts.step Undisturbed (fun s => s.accepted = [1] ∧ s.sendList = [3])
      (start (fun _ => 0) fun _ => 0)
      [.testRecv, .blockRecv, .testSend 2, .copyIn 2 fun _ => 7, .unblock 2, .setStatus 2,
        .testSend 3, .blockSend 3] := by
    refine ⟨trivial, _, rfl, ⟨rfl, by simp [start]⟩, _, rfl, trivial, _, rfl, ⟨rfl, ?_⟩, _, rfl,
      trivial, _, rfl, trivial, _, rfl, trivial, _, rfl, Or.inl rfl, _, rfl, rfl, rfl⟩
    intro i k
    by_cases hi : i = 2 <;> simp [InFlight, Harts.sendAt, start, hi]
  obtain ⟨g, s, hr, hP, _, hacc, hlist⟩ := htakes.exists_run .nil Run.Steps.nil
  exact ⟨g, s, hr, hacc, hlist, kept_of_run hr hP⟩

/-- Two senders that find the mailbox empty; the second overwrites what the first gets 1 for. And a
receiver, or a sender, that blocks after what it tested has changed, with no handler in progress. -/
theorem disturbed : (∃ g s, Run Harts.step (start (fun _ => 0) fun _ => 0) g s ∧ ¬s.Kept) ∧
    (∃ g s, Run Harts.step (start (fun _ => 0) fun _ => 0) g s ∧ s.Idle ∧
      s.receiverState = .ipcBlocked ∧ s.mailboxStatus = 1) ∧
    ∃ g s, Run Harts.step (start (fun _ => 0) fun _ => 0) g s ∧ s.Idle ∧
      s.senderState 3 = .sendBlocked ∧ s.mailboxStatus = 0 := by
  have htakes : ∀ (Q : Harts → Prop) (as : List HartStep),
      Run.Takes Harts.step (fun _ _ => True) Q (start (fun _ => 0) fun _ => 0) as →
        ∃ g s, Run Harts.step (start (fun _ => 0) fun _ => 0) g s ∧ Q s := by
    intro Q as h
    obtain ⟨g, s, hr, _, _, hQ⟩ := h.exists_run .nil Run.Steps.nil
    exact ⟨g, s, hr, hQ⟩
  refine ⟨htakes _ [.testSend 2, .testSend 3, .copyIn 2 fun _ => 7, .copyIn 3 fun _ => 8,
      .unblock 2, .setStatus 2] ?_,
    htakes _ [.testRecv, .testSend 2, .copyIn 2 fun _ => 7, .unblock 2, .setStatus 2,
      .blockRecv] ?_,
    htakes _ [.testSend 2, .copyIn 2 fun _ => 7, .unblock 2, .setStatus 2, .testSend 3,
      .testRecv, .copyOut, .clearStatus, .wakeSender, .blockSend 3] ?_⟩
  · refine ⟨trivial, _, rfl, trivial, _, rfl, trivial, _, rfl, trivial, _, rfl, trivial, _, rfl,
      trivial, _, rfl, fun hkept => ?_⟩
    exact absurd (hkept 1 List.mem_cons_self) (by simp [Harts.sendAt, start])
  · refine ⟨trivial, _, rfl, trivial, _, rfl, trivial, _, rfl, trivial, _, rfl, trivial, _, rfl,
      trivial, _, rfl, ⟨rfl, fun i => ?_⟩, rfl, rfl⟩
    by_cases hi : i = 2 <;> simp [Harts.sendAt, start, hi]
  · refine ⟨trivial, _, rfl, trivial, _, rfl, trivial, _, rfl, trivial, _, rfl, trivial, _, rfl,
      trivial, _, rfl, trivial, _, rfl, trivial, _, rfl, trivial, _, rfl, trivial, _, rfl,
      ⟨rfl, fun i => ?_⟩, rfl, rfl⟩
    by_cases hi : i = 3
    · simp [Harts.sendAt, start, hi]
    · by_cases hi2 : i = 2 <;> simp [Harts.sendAt, start, hi2]

end Harts

end RexOS.Ipc
