import RexOS.Core.Bits
import RexOS.Core.Outcome
import Mathlib.Logic.Function.Basic

/-!
# The scheduler of `kernel/scheduler.c`

A process is a structure in memory, known by its address. Those that can run are linked in
circles, one for each hart and priority; the others stand on one of five lists for all harts.
Both use the same two link fields. The first node of a circle is in
`active_process_circles`, and the low bits of `lookup_bitmap` tell which circles have one.

Every routine runs to its end before the next one starts, so the locks are left out, as are
the registers that `_switch_context` saves. What `spawn_process` allocates and loads is given
with the call. Counters of processes stay in their range and are plain numbers. `existing`
is not part of the program: it records the addresses of the processes spawned and not yet
reaped. No chain is longer than that list, which bounds the loops that follow one.
-/

namespace RexOS.Scheduler

open Bits

/-- The field `state`, from 0 to 6. -/
inductive ProcState where
  | ready
  | running
  | blocked
  | zombie
  | sleeping
  | ipcBlocked
  | sendBlocked
  deriving DecidableEq, Repr

/-- `struct trapframe`, as far as the kernel reads it; `kernel_tp` as the number of a hart. -/
structure Trapframe where
  uContext : Nat → Nat
  epc : Nat
  kernelTp : Nat

/-- `struct process`, as far as the routines here and the message calls read it. -/
structure Process where
  tf : Trapframe
  satp : Nat
  pid : Nat
  parentPid : Nat
  state : ProcState
  priority : Nat
  timeSlice : Nat
  ticksLeft : Nat
  cpuTime : Nat
  capabilityRoot : Nat → Nat
  mailbox : Nat → Nat
  ipcPendingPid : Nat
  mailboxStatus : Nat
  activeGrant : Nat
  grantWhitelist : Nat → Nat
  next : Nat
  prev : Nat
  exitCode : Nat
  magic : Nat

/-- `struct hart_runqueue`, and the pending bit of the hart's software interrupt. -/
structure Runqueue where
  activeProcessCircles : Nat → Nat
  lookupBitmap : Nat
  currProcess : Nat
  idleProcess : Nat
  processCount : Nat
  ssip : Bool

/-- The five lists. -/
inductive WaitList where
  | blocked
  | zombie
  | sleeping
  | blockedIpc
  | blockedIpcSend
  deriving DecidableEq, Repr

/-- The state of the processes on a list. -/
def WaitList.state : WaitList → ProcState
  | .blocked => .blocked
  | .zombie => .zombie
  | .sleeping => .sleeping
  | .blockedIpc => .ipcBlocked
  | .blockedIpcSend => .sendBlocked

/-- The data of the scheduler. -/
structure Kernel where
  procs : Nat → Process
  queues : Nat → Runqueue
  /-- The number of harts, and which of them have a queue in `global_closet`. -/
  hart : Nat
  started : Nat → Bool
  heads : WaitList → Nat
  emergencyProcess : Nat
  aliveThreadCounter : Nat
  nextPid : Nat
  pidRegistry : Nat → Bool
  shellPtr : Nat
  /-- Ghost: the processes spawned and not yet reaped. -/
  existing : List Nat

/-- The value of `magic`. -/
def processMagic : Nat := 0xC00C33E1

/-- `PID_MAX`. -/
def pidMax : Nat := 32768

/-- What loading a program gives. -/
structure Image where
  satp : Nat
  epc : Nat

namespace Kernel

variable (s : Kernel) (h target : Nat)

/-! ## Stores -/

/-- A store into a process. -/
def modify (a : Nat) (f : Process → Process) : Kernel :=
  { s with procs := Function.update s.procs a (f (s.procs a)) }

/-- A store into the queue of a hart. -/
def onQueue (f : Runqueue → Runqueue) : Kernel :=
  { s with queues := Function.update s.queues h (f (s.queues h)) }

def setNext (a x : Nat) : Kernel := s.modify a fun p => { p with next := x }

def setPrev (a x : Nat) : Kernel := s.modify a fun p => { p with prev := x }

def setState (a : Nat) (x : ProcState) : Kernel := s.modify a fun p => { p with state := x }

def setHead (w : WaitList) (x : Nat) : Kernel := { s with heads := Function.update s.heads w x }

def setCircle (i x : Nat) : Kernel :=
  s.onQueue h fun q => { q with activeProcessCircles := Function.update q.activeProcessCircles i x }

def setBitmap (x : Nat) : Kernel := s.onQueue h fun q => { q with lookupBitmap := x }

def mapCount (f : Nat → Nat) : Kernel :=
  s.onQueue h fun q => { q with processCount := f q.processCount }

def setCurr (x : Nat) : Kernel := s.onQueue h fun q => { q with currProcess := x }

/-- `_trigger_smode_software_interrupt` on the hart. -/
def trigger : Kernel := s.onQueue h fun q => { q with ssip := true }

/-- The process a hart runs. -/
def curr : Nat := (s.queues h).currProcess

/-! ## Moving a process -/

/-- A process leaves its circle. -/
def leaveCircle : Kernel :=
  let i := (s.procs target).priority
  let s :=
    if (s.procs target).next = target then
      (s.setCircle h i 0).setBitmap h (andNot (s.queues h).lookupBitmap (2 ^ i))
    else
      let head := (s.procs target).next
      let tail := (s.procs target).prev
      let s := (s.setPrev head tail).setNext tail head
      if target = (s.queues h).activeProcessCircles i then
        s.setCircle h i (s.procs target).next
      else s
  s.mapCount h (· - 1)

/-- A process enters the circle of its priority at the end. -/
def joinCircle : Kernel :=
  let i := (s.procs target).priority
  let s :=
    if (s.queues h).lookupBitmap.testBit i then
      let s := s.setNext target ((s.queues h).activeProcessCircles i)
      let tail := (s.procs ((s.queues h).activeProcessCircles i)).prev
      let s := (s.setPrev target tail).setNext tail target
      s.setPrev ((s.queues h).activeProcessCircles i) target
    else
      let s := (s.setNext target target).setPrev target target
      (s.setCircle h i target).setBitmap h ((s.queues h).lookupBitmap ||| 2 ^ i)
  s.mapCount h (· + 1)

/-- A process enters a list at the head. -/
def pushList (w : WaitList) : Kernel :=
  let s := s.setNext target (s.heads w)
  let s := if s.heads w ≠ 0 then s.setPrev (s.heads w) target else s
  (s.setPrev target 0).setHead w target

/-- A process is taken out of a list. -/
def unlinkList (w : WaitList) : Kernel :=
  if target = s.heads w then
    let s := s.setHead w (s.procs target).next
    if s.heads w ≠ 0 then s.setPrev (s.heads w) 0 else s
  else
    let head := (s.procs target).next
    let tail := (s.procs target).prev
    let s := if head ≠ 0 then s.setPrev head tail else s
    s.setNext tail head

/-- What the four blocking routines and `exit_process` have in common. -/
def park (w : WaitList) : Outcome Kernel Unit :=
  if (s.procs target).pid = 0 then .panic 113 (s.procs target).tf.epc s
  else if (s.procs target).magic ≠ processMagic then .panic 114 (s.procs target).pid s
  else
    let s := if s.emergencyProcess = target then { s with emergencyProcess := 0 } else s
    .done () (((s.leaveCircle h target).pushList target w).setState target w.state)

/-- What the three unblocking routines and the wake-up of sleepers have in common. -/
def unpark (w : WaitList) : Outcome Kernel Unit :=
  if (s.procs target).state ≠ w.state then .panic 115 (s.procs target).pid s
  else if (s.procs target).magic ≠ processMagic then .panic 114 (s.procs target).pid s
  else
    let s := (((s.setState target .ready).unlinkList target w).joinCircle h target)
    .done () (s.modify target fun p => { p with tf := { p.tf with kernelTp := h } })

/-- The running process loses its slice to one of smaller priority number. -/
def curtail : Kernel :=
  if (s.procs target).priority < (s.procs (s.curr h)).priority then
    s.modify (s.curr h) fun p => { p with ticksLeft := 0 }
  else s

/-- The same with a software interrupt. -/
def preempt : Kernel :=
  if (s.procs target).priority < (s.procs (s.curr h)).priority then
    (s.modify (s.curr h) fun p => { p with ticksLeft := 0 }).trigger h
  else s

/-! ## Blocking and unblocking -/

def blockProcess : Outcome Kernel Unit :=
  (s.park h target .blocked).bind fun _ s => .done () (s.trigger h)

def unblockProcess : Outcome Kernel Unit :=
  (s.unpark h target .blocked).bind fun _ s => .done () (s.preempt h target)

def blockIpcProcess : Outcome Kernel Unit :=
  (s.park h target .blockedIpc).bind fun _ s => .done () (s.trigger h)

def unblockIpcProcess : Outcome Kernel Unit :=
  (s.unpark h target .blockedIpc).bind fun _ s => .done () (s.preempt h target)

def blockIpcSendProcess : Outcome Kernel Unit :=
  (s.park h target .blockedIpcSend).bind fun _ s => .done () (s.trigger h)

def unblockIpcSendProcess : Outcome Kernel Unit :=
  (s.unpark h target .blockedIpcSend).bind fun _ s => .done () (s.preempt h target)

def sleepProcess (ticks : Nat) : Outcome Kernel Unit :=
  (s.park h target .sleeping).bind fun _ s =>
    .done () ((s.modify target fun p => { p with ticksLeft := ticks }).trigger h)

/-- Syscall 5. -/
def yieldProcess : Kernel := (s.setState (s.curr h) .ready).trigger h

/-! ## Exit -/

/-- A child of `pid` becomes one of the idle process. -/
def adopt (pid a : Nat) : Kernel :=
  if (s.procs a).parentPid = pid then s.modify a fun p => { p with parentPid := 0 } else s

/-- The loop over a list in `exit_process`. -/
def adoptList (pid : Nat) : Nat → Nat → Kernel → Outcome Kernel Unit
  | 0, _, s => .spin s
  | n + 1, ptr, s =>
    if ptr = 0 then .done () s
    else
      let s := s.adopt pid ptr
      adoptList pid n (s.procs ptr).next s

/-- The loop over a circle in `exit_process`. -/
def adoptCircle (pid head : Nat) : Nat → Nat → Kernel → Outcome Kernel Unit
  | 0, _, s => .spin s
  | n + 1, ptr, s =>
    let s := s.adopt pid ptr
    if (s.procs ptr).next ≠ head then adoptCircle pid head n (s.procs ptr).next s
    else .done () s

/-- The loop over the circles of a hart. -/
def adoptCircles (h pid : Nat) : List Nat → Kernel → Outcome Kernel Unit
  | [], s => .done () s
  | i :: is, s =>
    if (s.queues h).lookupBitmap.testBit i then
      let head := (s.queues h).activeProcessCircles i
      (adoptCircle pid head (s.existing.length + 1) head s).bind fun _ s => adoptCircles h pid is s
    else adoptCircles h pid is s

/-- The loop over the harts; it reads the circles of its own hart each time. -/
def adoptHarts (h pid : Nat) : List Nat → Kernel → Outcome Kernel Unit
  | [], s => .done () s
  | j :: js, s =>
    if s.started j then
      (adoptCircles h pid (List.range 32) s).bind fun _ s => adoptHarts h pid js s
    else adoptHarts h pid js s

/-- The loops over the lists. -/
def adoptLists (pid : Nat) : List WaitList → Kernel → Outcome Kernel Unit
  | [], s => .done () s
  | w :: ws, s =>
    (adoptList pid (s.existing.length + 1) (s.heads w) s).bind fun _ s => adoptLists pid ws s

def exitProcess (code : Nat) : Outcome Kernel Unit :=
  let target := s.curr h
  (s.park h target .zombie).bind fun _ s =>
    let s := s.modify target fun p => { p with exitCode := code }
    let pid := (s.procs target).pid
    (adoptHarts h pid (List.range s.hart) s).bind fun _ s =>
      (adoptLists pid [.blocked, .zombie, .sleeping, .blockedIpc, .blockedIpcSend] s).bind
        fun _ s => .done () (s.trigger h)

/-- The search of `wait_process`; 0 if there is no such zombie. -/
def findChild (pid : Nat) : Nat → Nat → Outcome Kernel Nat
  | 0, _ => .spin s
  | n + 1, header =>
    if header ≠ 0 ∧ (s.procs header).parentPid ≠ pid then findChild pid n (s.procs header).next
    else .done header s

/-- The structure goes back to the slab allocator, which keeps all fields above as they are. -/
def waitProcess : Outcome Kernel Nat :=
  (s.findChild (s.procs (s.curr h)).pid (s.existing.length + 1) (s.heads .zombie)).bind
    fun header s =>
      if header = 0 then .done 0xFFFFFFFFFFFFFFFF s
      else
        let s := s.unlinkList header .zombie
        let pid := (s.procs header).pid
        .done (s.procs header).exitCode
          { s with
            aliveThreadCounter := s.aliveThreadCounter - 1
            pidRegistry := Function.update s.pidRegistry pid false
            existing := s.existing.erase header }

/-! ## Sleepers and starving processes -/

/-- The loop of `update_sleep_list`. -/
def updateSleepListFrom (h : Nat) : Nat → Nat → Kernel → Outcome Kernel Unit
  | 0, _, s => .spin s
  | n + 1, ptr, s =>
    if ptr = 0 then .done () s
    else
      let nextPtr := (s.procs ptr).next
      -- `ticks_left` has 32 bits
      let s := s.modify ptr fun p => { p with ticksLeft := (p.ticksLeft + (2 ^ 32 - 1)) % 2 ^ 32 }
      if (s.procs ptr).ticksLeft = 0 then
        (s.unpark h ptr .sleeping).bind fun _ s => updateSleepListFrom h n nextPtr (s.curtail h ptr)
      else updateSleepListFrom h n nextPtr s

def updateSleepList : Outcome Kernel Unit :=
  updateSleepListFrom h (s.existing.length + 1) (s.heads .sleeping) s

/-- Bits 32 and up of the bitmap mark the circles that were passed over. -/
def antiStarvationSweeper : Kernel :=
  let bitmap := (s.queues h).lookupBitmap
  if bitmap >>> 32 = 0 then s
  else
    let s := match (List.range 31).reverse.find? fun i => bitmap.testBit (i + 32) &&
        bitmap.testBit i with
      | some i => { s with emergencyProcess := (s.queues h).activeProcessCircles i }
      | none => s
    s.setBitmap h (bitmap &&& 0xFFFFFFFF)

/-! ## Dispatch -/

/-- The running process goes back to being ready, and its circle moves on. -/
def putBack : Kernel :=
  let out := s.curr h
  if (s.procs out).state = .running then
    let s := s.modify out fun p => { p with state := .ready, ticksLeft := p.timeSlice }
    let i := (s.procs out).priority
    s.setCircle h i (s.procs ((s.queues h).activeProcessCircles i)).next
  else s

/-- The choice of the next process. -/
def choose : Outcome Kernel Unit :=
  if s.emergencyProcess ≠ 0 then
    .done () { s.setCurr h s.emergencyProcess with emergencyProcess := 0 }
  else
    match (List.range 32).find? fun i => (s.queues h).lookupBitmap.testBit i with
    | none => .done () s
    | some i =>
      let s := s.setCurr h ((s.queues h).activeProcessCircles i)
      if (s.procs (s.curr h)).magic ≠ processMagic then .panic 114 (s.procs (s.curr h)).pid s
      else if i < 31 then
        let bitmap := (s.queues h).lookupBitmap
        .done () (s.setBitmap h
          (bitmap ||| andNot (bitmap &&& 0xFFFFFFFF) (2 ^ (i + 1) - 1) <<< 32))
      else .done () s

def schedule : Outcome Kernel Unit :=
  if (s.procs (s.curr h)).magic ≠ processMagic then .panic 114 (s.procs (s.curr h)).pid s
  else
    ((s.putBack h).choose h).bind fun _ s =>
      if (s.procs (s.curr h)).state ≠ .ready then .panic 114 (s.procs (s.curr h)).pid s
      else .done () (s.setState (s.curr h) .running)

/-! ## Birth -/

/-- Rights on `pid` are added to the table of a process. -/
def addRights (a pid rights : Nat) : Kernel :=
  s.modify a fun p =>
    { p with
      capabilityRoot := Function.update p.capabilityRoot (pid / 16)
        (p.capabilityRoot (pid / 16) ||| rights <<< (pid % 16 * 4)) }

/-- A pid is given out; `bit` is its place in the registry. -/
def givePid (bit : Nat) : Outcome Kernel Nat :=
  .done s.nextPid
    { s with
      pidRegistry := Function.update s.pidRegistry bit true
      aliveThreadCounter := s.aliveThreadCounter + 1
      nextPid := s.nextPid + 1 }

/-- The search for a free pid. -/
def searchPid : Nat → Nat → Kernel → Outcome Kernel Nat
  | 0, _, s => .spin s
  | n + 1, bit, s =>
    if s.pidRegistry bit then
      let bit := s.nextPid + 1
      searchPid n bit { s with nextPid := if s.nextPid + 1 ≥ pidMax then 1 else s.nextPid + 1 }
    else s.givePid bit

/-- Where a round over all pids finds none free, no later one does. -/
def takePid : Outcome Kernel Nat :=
  if s.nextPid < pidMax ∧ s.pidRegistry s.nextPid = false then s.givePid s.nextPid
  else
    searchPid (2 * pidMax) s.nextPid
      { s with nextPid := if s.nextPid ≥ pidMax then 1 else s.nextPid }

/-- The first fields of a new process. -/
def bear (new pid : Nat) (image : Image) : Kernel :=
  s.modify new fun p =>
    { p with
      pid := pid
      state := .ready
      tf := ⟨Function.update (fun _ => 0) 2 0x80000000, image.epc, h⟩
      satp := image.satp
      magic := processMagic
      parentPid := if s.curr h ≠ 0 then (s.procs (s.curr h)).pid else 0
      mailboxStatus := 0
      capabilityRoot := Function.update (fun _ => 0) 0 (3 <<< 4) }

/-- The rights on a new process that its parent, the shell and itself get. -/
def giveRights (new pid : Nat) : Kernel :=
  let s := s.addRights (s.curr h) pid 7
  let s := if s.shellPtr ≠ 0 ∧ pid ≠ 1 then s.addRights s.shellPtr pid 15 else s
  s.addRights new pid 1

/-- All fields of a new process but its links. -/
def enroll (new pid : Nat) (image : Image) (priority : Nat) : Kernel :=
  ((s.bear h new pid image).giveRights h new pid).modify new fun p =>
    { p with
      activeGrant := 0
      grantWhitelist := fun _ => 0
      priority := priority
      timeSlice := priority * 4 + 4
      ticksLeft := priority * 4 + 4
      cpuTime := 0 }

/-- `new` is what `kvmalloc` returns; the result is the new process, or 0. -/
def spawnProcess (new : Nat) (image : Image) (priority : Nat) : Outcome Kernel Nat :=
  if new = 0 then .done 0 s
  else if s.aliveThreadCounter ≥ pidMax then .done 0 s
  else
    s.takePid.bind fun pid s =>
      .done new
        { (s.enroll h new pid image priority).joinCircle h new with existing := new :: s.existing }

/-- `scheduler_init` with the idle process at the address `idle`; the queue is zero before. -/
def schedulerInit (idle : Nat) : Kernel :=
  let s := s.modify idle fun p =>
    { p with
      pid := 0
      state := .running
      capabilityRoot := fun _ => 0
      magic := processMagic
      next := idle
      prev := idle
      priority := 31
      timeSlice := 31 * 4 + 4
      ticksLeft := 31 * 4 + 4
      cpuTime := 0 }
  { s with
    queues := Function.update s.queues h
      ⟨Function.update (s.queues h).activeProcessCircles 31 idle,
        (s.queues h).lookupBitmap ||| 2 ^ 31, idle, idle, 1, (s.queues h).ssip⟩
    aliveThreadCounter := s.aliveThreadCounter + 1
    pidRegistry := Function.update (fun _ => false) 0 true
    existing := [idle] }

end Kernel

end RexOS.Scheduler
