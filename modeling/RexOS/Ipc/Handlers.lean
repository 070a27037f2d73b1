import RexOS.Paging.Model
import RexOS.Scheduler.RunQueue

/-!
# The message calls on one hart

Syscalls 8 and 9 of `strap_router` on the data of the scheduler and on memory, which is read
and written in words by address. A handler runs to its end before anything else happens. The
mailbox of a process holds one message of nine words, the first of them the pid of the sender;
`mailbox_status` is 1 while it holds one.

A sender that finds the mailbox full is put to sleep with its program counter back at the
call. A receiver that finds its own empty is put to sleep, too, but behind the call.
-/

namespace RexOS.Scheduler.Kernel

open Bits

variable (s : Kernel)

/-! ## The search for a process -/

/-- The loop over a circle in `get_process_by_pid`; `target` is what the search has found so far. -/
def findInCircle (pid head : Nat) : Nat → Nat → Nat → Outcome Kernel Nat
  | 0, _, _ => .spin s
  | n + 1, ptr, target =>
    let target := if (s.procs ptr).pid = pid then ptr else target
    let ptr := (s.procs ptr).next
    if ptr ≠ head ∧ target = 0 then findInCircle pid head n ptr target
    else .done target s

/-- The loop over the circles of a hart. -/
def findInCircles (pid h : Nat) : List Nat → Nat → Outcome Kernel Nat
  | [], target => .done target s
  | i :: is, target =>
    if (s.queues h).lookupBitmap.testBit i then
      let head := (s.queues h).activeProcessCircles i
      (s.findInCircle pid head (s.existing.length + 1) head target).bind fun target _ =>
        findInCircles pid h is target
    else findInCircles pid h is target

/-- The loop over the harts. -/
def findInHarts (pid : Nat) : List Nat → Nat → Outcome Kernel Nat
  | [], target => .done target s
  | j :: js, target =>
    if s.started j then
      (s.findInCircles pid j (List.range 32) target).bind fun target s =>
        if target ≠ 0 then .done target s else findInHarts pid js target
    else findInHarts pid js target

/-- The loop over a list. -/
def findInList (pid : Nat) : Nat → Nat → Nat → Outcome Kernel Nat
  | 0, _, _ => .spin s
  | n + 1, ptr, target =>
    if ptr ≠ 0 ∧ target = 0 then
      findInList pid n (s.procs ptr).next (if (s.procs ptr).pid = pid then ptr else target)
    else .done target s

/-- The loops over the lists. -/
def findInLists (pid : Nat) : List WaitList → Nat → Outcome Kernel Nat
  | [], target => .done target s
  | w :: ws, target =>
    (s.findInList pid (s.existing.length + 1) (s.heads w) target).bind fun target _ =>
      findInLists pid ws target

/-- 0 if there is none; zombies are not searched. -/
def getProcessByPid (pid : Nat) : Outcome Kernel Nat :=
  (s.findInHarts pid (List.range s.hart) 0).bind fun target s =>
    s.findInLists pid [.blocked, .blockedIpc, .blockedIpcSend, .sleeping] target

/-! ## Waking the senders -/

/-- The search for a sender that waits for `pid`; 0 if there is none. -/
def findSender (pid : Nat) : Nat → Nat → Outcome Kernel Nat
  | 0, _ => .spin s
  | n + 1, ptr =>
    if ptr ≠ 0 ∧ (s.procs ptr).ipcPendingPid ≠ pid then findSender pid n (s.procs ptr).next
    else .done ptr s

/-- The loop `while (pending_senders)`; after each sender it starts at the head again. -/
def wakeSenders (h pid : Nat) : Nat → Kernel → Outcome Kernel Unit
  | 0, s => .spin s
  | n + 1, s =>
    (s.findSender pid (s.existing.length + 1) (s.heads .blockedIpcSend)).bind fun ptr s =>
      if ptr = 0 then .done () s
      else (s.unblockIpcSendProcess h ptr).bind fun _ s => wakeSenders h pid n s

end RexOS.Scheduler.Kernel

namespace RexOS.Ipc

open Bits Scheduler Paging

/-- `(unsigned long)-1`. -/
def minusOne : Nat := 0xFFFFFFFFFFFFFFFF

/-- The scheduler, memory, and what the message calls have done. -/
structure System where
  kernel : Kernel
  mem : Nat → Nat
  /-- Ghost: for each process the sends to it that returned 1, in order: the pid of the sender and
  the eight words after the first in the sender's buffer. -/
  sent : Nat → List (Nat × List Nat)
  /-- Ghost: what receiving calls left in the buffer of a process, in order. -/
  received : Nat → List (List Nat)
  /-- Ghost: how many messages the last receiving call of a process has copied. -/
  copied : Nat → Option Nat

/-- Where the nine words at a virtual address are. -/
def bufferAt (mem : Nat → Nat) (satp virAddr : Nat) : List Nat :=
  (List.range 9).map fun i => uvmTranslate mem satp (wrap (virAddr + 8 * i))

/-- Every byte of the buffer is where the translation of its first byte puts it. -/
def FlatAt (mem : Nat → Nat) (satp virAddr : Nat) : Prop :=
  ∀ k < 72, uvmTranslate mem satp (wrap (virAddr + k)) = wrap (uvmTranslate mem satp virAddr + k)

/-- The nine words of a mailbox. -/
def message (mailbox : Nat → Nat) : List Nat := (List.range 9).map mailbox

namespace System

variable (s : System)

def withKernel (k : Kernel) : System := { s with kernel := k }

/-- A store into a process. -/
def modify (a : Nat) (f : Process → Process) : System := s.withKernel (s.kernel.modify a f)

/-- What a call leaves in `a0`. -/
def reply (x : Nat) : System :=
  s.modify (s.kernel.curr 0) fun p =>
    { p with tf := { p.tf with uContext := Function.update p.tf.uContext 10 x } }

/-- The program counter moves behind the `ecall`. -/
def enter : System :=
  s.modify (s.kernel.curr 0) fun p => { p with tf := { p.tf with epc := wrap (p.tf.epc + 4) } }

/-- The loop that copies a message into a mailbox. -/
def copyIn (target physAddr : Nat) : System :=
  s.modify target fun q =>
    { q with mailbox := fun i => if i < 9 then s.mem (wrap (physAddr + 8 * i)) else q.mailbox i }

/-- The loop that copies a message out of a mailbox. -/
def copyOut (mailbox : Nat → Nat) (physAddr : Nat) : System :=
  { s with
    mem := (List.range 9).foldl
      (fun mem i => Function.update mem (wrap (physAddr + 8 * i)) (mailbox i)) s.mem }

/-- The part of case 8 in which the message goes into the mailbox. -/
def deliver (target physAddr : Nat) : Outcome System Unit :=
  let p := s.kernel.procs (s.kernel.curr 0)
  let buffer := bufferAt s.mem p.satp (p.tf.uContext 11)
  let s := (s.copyIn target physAddr).modify target fun q =>
    { q with mailbox := Function.update q.mailbox 0 p.pid }
  (if (s.kernel.procs target).state = .ipcBlocked then
    (s.kernel.unblockIpcProcess 0 target).within s.withKernel
  else .done () s).bind fun _ s =>
    let s := (s.modify target fun q => { q with mailboxStatus := 1 }).reply 1
    .done () { s with
      sent := Function.update s.sent target (s.sent target ++ [(p.pid, (buffer.map s.mem).tail)]) }

/-- Case 8. -/
def sendMsg : Outcome System Unit :=
  let curr := s.kernel.curr 0
  let p := s.kernel.procs curr
  let physAddr := uvmTranslate s.mem p.satp (p.tf.uContext 11)
  if physAddr = 0 then (s.kernel.exitProcess 0 minusOne).within s.withKernel
  else
    (s.kernel.getProcessByPid (p.tf.uContext 10)).within s.withKernel |>.bind fun target s =>
      let q := s.kernel.procs target
      if target = 0 then .done () (s.reply minusOne)
      else if p.capabilityRoot (q.pid / 16) &&& 15 <<< (q.pid % 16 * 4) = 0 then
        .done () (s.reply minusOne)
      else if p.capabilityRoot (q.pid / 16) &&& 2 <<< (q.pid % 16 * 4) = 0 then
        .done () (s.reply minusOne)
      else if q.capabilityRoot (p.pid / 16) &&& 1 <<< (p.pid % 16 * 4) = 0 then
        .done () (s.reply minusOne)
      else if q.mailboxStatus = 0 then s.deliver target physAddr
      else
        let s := s.modify curr fun p =>
          { p with tf := { p.tf with epc := wrapSub p.tf.epc 4 }, ipcPendingPid := q.pid }
        (s.kernel.blockIpcSendProcess 0 curr).within s.withKernel

/-- The part of case 9 in which the message goes out of the mailbox. -/
def fetch (physAddr : Nat) : Outcome System Unit :=
  let curr := s.kernel.curr 0
  let p := s.kernel.procs curr
  let buffer := bufferAt s.mem p.satp (p.tf.uContext 10)
  let s := s.copyOut p.mailbox physAddr
  let s := { s with
    received := Function.update s.received curr (s.received curr ++ [buffer.map s.mem])
    copied := Function.update s.copied curr (some 1) }
  let s := (s.modify curr fun p => { p with mailboxStatus := 0 }).reply 1
  (Kernel.wakeSenders 0 p.pid (s.kernel.existing.length + 1) s.kernel).within s.withKernel

/-- Case 9. -/
def recvMsg : Outcome System Unit :=
  let curr := s.kernel.curr 0
  let p := s.kernel.procs curr
  let physAddr := uvmTranslate s.mem p.satp (p.tf.uContext 10)
  if physAddr = 0 then (s.kernel.exitProcess 0 minusOne).within s.withKernel
  else if p.mailboxStatus = 0 then
    let s := { s with copied := Function.update s.copied curr (some 0) }
    (s.kernel.blockIpcProcess 0 curr).within s.withKernel
  else s.fetch physAddr

end System

/-! ## Runs -/

/-- What may happen: user code runs, which stands for the calls that change rights and tables,
too; a message call; or another call. -/
inductive Event where
  | user (regs : Nat → Nat) (epc : Nat) (mem : Nat → Nat) (rights : Nat → Nat → Nat)
  | sendMsg
  | recvMsg
  | call (c : Call)

/-- The calls that are not births and not part of a message call. -/
def plain : Call → Bool
  | .spawn _ _ _ => false
  | .blockIpc => false
  | .blockIpcSend => false
  | .unblockIpc _ => false
  | .unblockIpcSend _ => false
  | _ => true

instance (k : Kernel) : Decidable k.UserRuns := inferInstanceAs (Decidable (_ ∧ _))

instance (k : Kernel) : (c : Call) → Decidable (k.Callable c)
  | .spawn new _ priority => inferInstanceAs (Decidable (new ∉ k.existing ∧ priority ≤ 30))
  | .block => inferInstanceAs (Decidable k.UserRuns)
  | .blockIpc => inferInstanceAs (Decidable k.UserRuns)
  | .blockIpcSend => inferInstanceAs (Decidable k.UserRuns)
  | .sleep _ => inferInstanceAs (Decidable k.UserRuns)
  | .exit _ => inferInstanceAs (Decidable k.UserRuns)
  | .yield => inferInstanceAs (Decidable k.UserRuns)
  | .wait => inferInstanceAs (Decidable k.UserRuns)
  | .unblock target => inferInstanceAs (Decidable (target ∈ k.existing ∧ _ = ProcState.blocked))
  | .unblockIpc target =>
      inferInstanceAs (Decidable (target ∈ k.existing ∧ _ = ProcState.ipcBlocked))
  | .unblockIpcSend target =>
    inferInstanceAs (Decidable (target ∈ k.existing ∧ _ = ProcState.sendBlocked))
  | .schedule => inferInstanceAs (Decidable True)
  | .updateSleepList => inferInstanceAs (Decidable True)
  | .sweep => inferInstanceAs (Decidable True)

namespace System

/-- User code of the running process. -/
def user (s : System) (regs : Nat → Nat) (epc : Nat) (mem : Nat → Nat) (rights : Nat → Nat → Nat) :
    System :=
  { s with
    mem := mem
    kernel := { s.kernel with
      procs := fun a =>
        let p := s.kernel.procs a
        { p with
          capabilityRoot := rights a
          tf := if a = s.kernel.curr 0 then { p.tf with uContext := regs, epc := epc } else p.tf } }
            }

/-- One event, where it can happen; `none` if the kernel stops. -/
def step (s : System) : Event → Option System
  | .user regs epc mem rights =>
    if s.kernel.UserRuns then some (s.user regs epc mem rights) else none
  | .sendMsg => if s.kernel.UserRuns then s.enter.sendMsg.returned else none
  | .recvMsg => if s.kernel.UserRuns then s.enter.recvMsg.returned else none
  | .call c =>
    if plain c ∧ s.kernel.Callable c then (s.kernel.call c).map s.withKernel else none

/-- Processes in their places, none of which has made a message call. -/
structure Fresh (s : System) : Prop where
  sound : ∃ v, Sound s.kernel v
  mailbox : ∀ a ∈ s.kernel.existing, (s.kernel.procs a).mailboxStatus = 0
  state : ∀ a ∈ s.kernel.existing,
    (s.kernel.procs a).state ≠ .ipcBlocked ∧ (s.kernel.procs a).state ≠ .sendBlocked
  sent : s.sent = fun _ => []
  received : s.received = fun _ => []
  copied : s.copied = fun _ => none

/-- Two processes, at 0x2000 with pid 1 and at 0x3000 with pid 2. -/
def pair : System where
  kernel :=
    ((bootedKernel.spawnProcess 0 0x2000 ⟨0, 0⟩ 16).state.spawnProcess 0 0x3000 ⟨0, 0⟩ 16).state
  mem := fun _ => 0x401
  sent := fun _ => []
  received := fun _ => []
  copied := fun _ => none

/-- The example has two processes. -/
theorem fresh_pair : pair.Fresh := by
  obtain ⟨v, hs⟩ := sound_schedulerInit (fun _ => blankProcess) (show 0x1000 ≠ 0 by decide)
  obtain ⟨n, s₁, v₁, hrun₁, hs₁, _⟩ := Sound.spawnProcess (s := bootedKernel) hs
    (show 0x2000 ∉ bootedKernel.existing by decide) (show 16 ≤ 30 by decide) (by decide) ⟨0, 0⟩
  have he₁ : (bootedKernel.spawnProcess 0 0x2000 ⟨0, 0⟩ 16).state = s₁ := by rw [hrun₁]; rfl
  have hnew : 0x3000 ∉ s₁.existing ∧ s₁.nextPid < pidMax := by
    rw [← he₁]
    decide +kernel
  obtain ⟨m, s₂, v₂, hrun₂, hs₂, _⟩ :=
    hs₁.spawnProcess hnew.1 (show 16 ≤ 30 by decide) hnew.2 ⟨0, 0⟩
  have he₂ : pair.kernel = s₂ := by
    show ((bootedKernel.spawnProcess 0 0x2000 ⟨0, 0⟩ 16).state.spawnProcess 0 0x3000
      ⟨0, 0⟩ 16).state = s₂
    rw [he₁, hrun₂]
    rfl
  exact ⟨⟨v₂, he₂ ▸ hs₂⟩, by decide +kernel, by decide +kernel, rfl, rfl, rfl⟩

/-- The user code of a process: it sets `a0` and `a1`. -/
def userCode (a0 a1 : Nat) : Event :=
  .user (fun i => if i = 10 then a0 else if i = 11 then a1 else 0) 0 (fun _ => 0x401)
    fun _ _ => 0xFFFFFFFF

end System

end RexOS.Ipc
