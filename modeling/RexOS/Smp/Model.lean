import RexOS.Core.Runs
import RexOS.Ipc.Handlers

/-!
# Several harts

The handlers of `strap_router` on any number of harts, `steal_process` and `orphan_cleaner` of
the idle loops, and the start of a hart in `smp_kmain`. Each runs to its end before another one
starts on any hart. A software interrupt that a handler triggers is taken later, but before the
hart runs user code again, so a syscall is only made where none is pending.

Memory and rights are left out here: which branch a message call takes by its pointer, the rights
and the mailboxes is given with the call, as is what `uart_getc` reads.
-/

namespace RexOS.Scheduler.Kernel

open Bits

variable (s : Kernel) (h target : Nat)

/-! ## Stealing -/

/-- The search of `steal_process` in a circle for a process other than `curr`; 0 if there is
none. -/
def findOther (curr head : Nat) : Nat → Nat → Outcome Kernel Nat
  | 0, _ => .spin s
  | n + 1, ptr =>
    if ptr ≠ curr then .done ptr s
    else if (s.procs ptr).next ≠ head then findOther curr head n (s.procs ptr).next
    else .done 0 s

/-- The loop over the circles of a hart. -/
def findStealable (core : Nat) : List Nat → Outcome Kernel Nat
  | [] => .done 0 s
  | i :: is =>
    if (s.queues core).lookupBitmap.testBit i then
      let head := (s.queues core).activeProcessCircles i
      (s.findOther (s.curr core) head (s.existing.length + 1) head).bind fun target s =>
        if target ≠ 0 then .done target s else findStealable core is
    else findStealable core is

/-- The loop over the other harts; it gives the process and its hart. -/
def findVictim : List Nat → Outcome Kernel (Nat × Nat)
  | [] => .done (0, 0) s
  | core :: cores =>
    if s.started core ∧ core ≠ h ∧ 1 < (s.queues core).processCount then
      (s.findStealable core (List.range 31)).bind fun target s =>
        if target ≠ 0 then .done (target, core) s else findVictim cores
    else findVictim cores

/-- A ready process of one hart comes to another one. -/
def moveOver (core : Nat) : Kernel :=
  ((s.leaveCircle core target).joinCircle h target).modify target fun p =>
    { p with tf := { p.tf with kernelTp := h } }

def stealProcess : Outcome Kernel Nat :=
  (s.findVictim h (List.range s.hart)).bind fun x s =>
    if x.1 = 0 then .done 0 s else .done 1 (s.moveOver h x.1 x.2)

/-! ## Orphans -/

/-- A zombie is unlinked and forgotten. -/
def reap : Kernel :=
  { s.unlinkList target .zombie with
    aliveThreadCounter := s.aliveThreadCounter - 1
    pidRegistry := Function.update s.pidRegistry (s.procs target).pid false
    existing := s.existing.erase target }

/-- The loop of `orphan_cleaner`. Where an orphan is the last of several on the list, `head->prev`
is stored at offset 488 of a null pointer, which faults. -/
def orphanCleanerFrom : Nat → Nat → Kernel → Outcome Kernel Unit
  | 0, _, s => .spin s
  | n + 1, ptr, s =>
    if ptr = 0 then .done () s
    else
      let nextPtr := (s.procs ptr).next
      if (s.procs ptr).parentPid = 0 then
        if ptr ≠ s.heads .zombie ∧ nextPtr = 0 then .panic 15 488 s
        else orphanCleanerFrom n nextPtr (s.reap ptr)
      else orphanCleanerFrom n nextPtr s

def orphanCleaner : Outcome Kernel Unit :=
  orphanCleanerFrom (s.existing.length + 1) (s.heads .zombie) s

/-! ## Other handlers -/

/-- `smp_kmain` up to `idle_loop`, with the idle process at the address `idle`. -/
def smpKmain (idle : Nat) : Kernel :=
  let s := s.modify idle fun _ =>
    { tf := ⟨fun _ => 0, 0, 0⟩, satp := 0, pid := 0, parentPid := 0, state := .running,
      priority := 31, timeSlice := 31 * 4 + 4, ticksLeft := 31 * 4 + 4, cpuTime := 0,
      capabilityRoot := fun _ => 0, mailbox := fun _ => 0, ipcPendingPid := 0, mailboxStatus := 0,
      activeGrant := 0, grantWhitelist := fun _ => 0, next := idle, prev := idle, exitCode := 0,
      magic := processMagic }
  { s with
    queues := Function.update s.queues h
      ⟨Function.update (fun _ => 0) 31 idle, 2 ^ 31, idle, idle, 1, (s.queues h).ssip⟩
    started := Function.update s.started h true
    existing := idle :: s.existing }

/-- A character goes into the register of a process that reads. -/
def putChar (c : Nat) : Kernel :=
  s.modify target fun p =>
    { p with tf := { p.tf with uContext := Function.update p.tf.uContext 10 c } }

/-- The pending bit is cleared and a tick of the running process is spent. -/
def tick : Kernel :=
  (s.onQueue h fun q => { q with ssip := false }).modify (s.curr h) fun p =>
    { p with cpuTime := p.cpuTime + 1, ticksLeft := p.ticksLeft - 1 }

end RexOS.Scheduler.Kernel

namespace RexOS.Smp

open Scheduler

/-- The scheduler with `starv_ticks` of each hart and `uart_buff`. -/
structure Machine where
  kernel : Kernel
  starvTicks : Nat → Nat
  uartBuff : Nat

/-- How case 8 goes on: the pointer is bad, the target is missing or a right is, or the mailbox of
the target is empty or full. -/
inductive SendCase where
  | badPointer
  | refused
  | empty (target : Nat)
  | full (target : Nat)

/-- How case 9 goes on. -/
inductive RecvCase where
  | badPointer
  | empty
  | full

/-- The syscalls that the scheduler has a part in. -/
inductive Syscall where
  | getc
  | exit (code : Nat)
  | yield
  | sleep (ticks : Nat)
  | wait
  | sendMsg (c : SendCase)
  | recvMsg (c : RecvCase)

/-- What may happen on a hart. -/
inductive Event where
  /-- The hart comes up. -/
  | start (h idle : Nat)
  | spawn (h new : Nat) (image : Image) (priority : Nat)
  /-- `mtrap_router` takes a timer interrupt. -/
  | timer (h : Nat)
  | softInterrupt (h : Nat)
  | external (h irq c : Nat)
  | syscall (h : Nat) (c : Syscall)
  /-- The idle loop steals a process, or cleans up orphans. -/
  | steal (h : Nat)
  | clean

namespace Machine

variable (m : Machine) (h : Nat)

def withKernel (k : Kernel) : Machine := { m with kernel := k }

/-- The part of the handler before the decision to reschedule. -/
def beforeSchedule : Outcome Machine Unit :=
  (((m.kernel.tick h).updateSleepList h).within m.withKernel).bind fun _ m =>
    if m.starvTicks h + 1 = 1000 then
      .done () { m with
        kernel := m.kernel.antiStarvationSweeper h
        starvTicks := Function.update m.starvTicks h 0 }
    else .done () { m with starvTicks := Function.update m.starvTicks h (m.starvTicks h + 1) }

/-- The running process has used up its slice, or does not run any more. -/
def Due : Prop :=
  (m.kernel.procs (m.kernel.curr h)).ticksLeft = 0 ∨
    (m.kernel.procs (m.kernel.curr h)).state ≠ .running

instance : Decidable (m.Due h) := inferInstanceAs (Decidable (_ ∨ _))

/-- Cause 1 of `strap_router`. -/
def softInterrupt : Outcome Machine Unit :=
  (m.beforeSchedule h).bind fun _ m =>
    if m.Due h then (m.kernel.schedule h).within m.withKernel else .done () m

/-- Cause 9. -/
def external (irq c : Nat) : Outcome Machine Unit :=
  if irq = 10 then
    if m.kernel.shellPtr ≠ 0 ∧ (m.kernel.procs m.kernel.shellPtr).state = .blocked then
      let k := m.kernel.putChar m.kernel.shellPtr c
      (k.unblockProcess h k.shellPtr).within m.withKernel
    else .done () { m with uartBuff := c }
  else .done () m

/-- Case 2. -/
def getc : Outcome Machine Unit :=
  let m := m.withKernel { m.kernel with shellPtr := m.kernel.curr h }
  if m.uartBuff ≠ 0 then
    .done () { m with kernel := m.kernel.putChar (m.kernel.curr h) m.uartBuff, uartBuff := 0 }
  else (m.kernel.blockProcess h m.kernel.shellPtr).within m.withKernel

/-- Case 8. -/
def sendMsg : SendCase → Outcome Machine Unit
  | .badPointer => (m.kernel.exitProcess h Ipc.minusOne).within m.withKernel
  | .refused => .done () m
  | .empty target =>
    if (m.kernel.procs target).state = .ipcBlocked then
      (m.kernel.unblockIpcProcess h target).within m.withKernel
    else .done () m
  | .full target =>
    let k := m.kernel.modify (m.kernel.curr h) fun p =>
      { p with ipcPendingPid := (m.kernel.procs target).pid }
    (k.blockIpcSendProcess h (k.curr h)).within m.withKernel

/-- Case 9. -/
def recvMsg : RecvCase → Outcome Machine Unit
  | .badPointer => (m.kernel.exitProcess h Ipc.minusOne).within m.withKernel
  | .empty => (m.kernel.blockIpcProcess h (m.kernel.curr h)).within m.withKernel
  | .full =>
    (Kernel.wakeSenders h (m.kernel.procs (m.kernel.curr h)).pid (m.kernel.existing.length + 1)
      m.kernel).within m.withKernel

def syscall : Syscall → Outcome Machine Unit
  | .getc => m.getc h
  | .exit code => (m.kernel.exitProcess h code).within m.withKernel
  | .yield => .done () (m.withKernel (m.kernel.yieldProcess h))
  | .sleep ticks => (m.kernel.sleepProcess h (m.kernel.curr h) (ticks % 2 ^ 32)).within m.withKernel
  | .wait => ((m.kernel.waitProcess h).within m.withKernel).bind fun _ m => .done () m
  | .sendMsg c => m.sendMsg h c
  | .recvMsg c => m.recvMsg h c

/-- The idle loop calls `steal_process`, and reschedules if it has got one. -/
def steal : Outcome Machine Unit :=
  ((m.kernel.stealProcess h).within m.withKernel).bind fun got m =>
    if got = 1 then .done () (m.withKernel (m.kernel.trigger h)) else .done () m

def exec : Event → Outcome Machine Unit
  | .start h idle => .done () (m.withKernel (m.kernel.smpKmain h idle))
  | .spawn h new image priority =>
    ((m.kernel.spawnProcess h new image priority).within m.withKernel).bind fun _ m => .done () m
  | .timer h => .done () (m.withKernel (m.kernel.trigger h))
  | .softInterrupt h => m.softInterrupt h
  | .external h irq c => m.external h irq c
  | .syscall h c => m.syscall h c
  | .steal h => m.steal h
  | .clean => m.kernel.orphanCleaner.within m.withKernel

/-- The target of a message call exists. -/
def TargetExists : Syscall → Prop
  | .sendMsg (.empty target) => target ∈ m.kernel.existing
  | .sendMsg (.full target) => target ∈ m.kernel.existing
  | _ => True

/-- Where an event can happen: a hart is up once, `kvmalloc` gives addresses that are not in use, a
pending software interrupt is taken before a syscall can be made, and the idle loop runs in the idle
process. -/
def Enabled : Event → Prop
  | .start h idle =>
    h < m.kernel.hart ∧ m.kernel.started h = false ∧ idle ≠ 0 ∧ idle ∉ m.kernel.existing
  | .spawn h new _ priority => m.kernel.started h ∧ new ∉ m.kernel.existing ∧ priority ≤ 30 ∧
      (m.kernel.procs (m.kernel.curr h)).state = .running
  | .timer h => m.kernel.started h
  | .softInterrupt h => m.kernel.started h ∧ (m.kernel.queues h).ssip
  | .external h _ _ => m.kernel.started h
  | .syscall h c => m.kernel.started h ∧ (m.kernel.queues h).ssip = false ∧
      (m.kernel.procs (m.kernel.curr h)).pid ≠ 0 ∧ m.TargetExists c
  | .steal h => m.kernel.started h ∧ m.kernel.curr h = (m.kernel.queues h).idleProcess
  | .clean => m.kernel.started 0 ∧ m.kernel.curr 0 = (m.kernel.queues 0).idleProcess

instance : (c : Syscall) → Decidable (m.TargetExists c)
  | .getc | .exit _ | .yield | .sleep _ | .wait | .recvMsg _ => inferInstanceAs (Decidable True)
  | .sendMsg .badPointer | .sendMsg .refused => inferInstanceAs (Decidable True)
  | .sendMsg (.empty target) | .sendMsg (.full target) =>
    inferInstanceAs (Decidable (target ∈ m.kernel.existing))

instance : (e : Event) → Decidable (m.Enabled e)
  | .start _ _ => inferInstanceAs (Decidable (_ ∧ _ = false ∧ _ ∧ _))
  | .spawn _ _ _ _ => inferInstanceAs (Decidable (_ = true ∧ _ ∧ _ ∧ _))
  | .timer _ => inferInstanceAs (Decidable (_ = true))
  | .softInterrupt _ => inferInstanceAs (Decidable (_ = true ∧ _ = true))
  | .external _ _ _ => inferInstanceAs (Decidable (_ = true))
  | .syscall _ _ => inferInstanceAs (Decidable (_ = true ∧ _ = false ∧ _ ∧ _))
  | .steal _ => inferInstanceAs (Decidable (_ = true ∧ _))
  | .clean => inferInstanceAs (Decidable (_ = true ∧ _))

/-- An event where it can happen; `none` if the kernel stops. -/
def step (e : Event) : Option Machine := if m.Enabled e then (m.exec e).returned else none

end Machine

/-- Hart 0 after `scheduler_init`, with the given number of harts still to come up. -/
def booted (procs : Nat → Process) (harts idle : Nat) : Machine :=
  ⟨{ (Kernel.boot procs).schedulerInit 0 idle with hart := harts + 1 }, fun _ => 0, 0⟩

end RexOS.Smp
