import Mathlib.Data.Finset.Basic
import RexOS.Core.Skeleton

/-!
# Locks and the interrupt bit

Each routine of the kernel is kept as the skeleton of its acts on the spinlocks and on
`sstatus.SIE`. Code without such an act (loops over lists and circles, stores, `_switch_context`,
which goes on in a thread that left `schedule` the same way) leaves no trace. `hart` is the number
of harts, `core` the one that runs the routine.
-/

namespace RexOS.Locks

open Skeleton

/-- The spinlocks of `smp.c`, and one in the run queue of each hart. -/
inductive Lock where
  | kalloc
  | kvmalloc
  | uart
  | blockedList
  | zombieList
  | sleepingList
  | blockedIpcList
  | blockedIpcSendList
  | pidRegistry
  | aliveCounter
  | runqueue (core : Nat)
  deriving DecidableEq

/-- A hart: the bit `SIE` of its `sstatus` and the locks it holds. -/
structure Cpu where
  sie : Bool
  held : Finset Lock
  deriving DecidableEq

inductive Act where
  | acquire (l : Lock)
  | release (l : Lock)
  | setSsie
  | setSeie
  | offSsie
  deriving DecidableEq

namespace Cpu

variable (c : Cpu)

/-- One more lock is held. -/
def hold (l : Lock) : Cpu := { c with held := insert l c.held }

/-- `spinlock_acquire` swaps until it finds 0: a lock that another hart holds comes free, one that
this hart holds never does. -/
def step : Act → Option Cpu
  | .acquire l => if l ∈ c.held then none else some (c.hold l)
  | .release l => some { c with held := c.held.erase l }
  | .setSsie => some { c with sie := true }
  | .setSeie => some { c with sie := true }
  | .offSsie => some { c with sie := false }

/-- What the hardware leaves on the entry of a trap. -/
def trapped : Cpu := { c with sie := false }

end Cpu

abbrev Code := Skeleton Act

def acquire (l : Lock) : Code := .act (.acquire l)
def release (l : Lock) : Code := .act (.release l)
def setSsie : Code := .act .setSsie
def setSeie : Code := .act .setSeie
def offSsie : Code := .act .offSsie

/-- A part between the acquire and the release of a lock. -/
def locked (l : Lock) (p : Code) : Code := .block [acquire l, p, release l]

/-- One part for each hart. -/
def eachHart (hart : Nat) (p : Nat → Code) : Code := .block ((List.range hart).map p)

section Output

/-- `uart_putc`, `uart_puts`, `uart_puth` and `uart_getc`. -/
def uart : Code := locked .uart .skip

/-- A text in parts. -/
def message : Code := .loop uart

def kpanic : Code := .block [message, .halt]

/-- A test that stops the machine. -/
def orPanic : Code := .maybe kpanic

end Output

section Memory

/-- Orders 100 and 101. -/
def kalloc : Code := locked .kalloc (.block [orPanic, .loop orPanic])

def kfree : Code := locked .kalloc (.block [orPanic, orPanic, orPanic, orPanic])

/-- A new table, where the entry above it is not valid. -/
def newTable : Code := .maybe (.block [kalloc, orPanic])

/-- One round for each leaf: of the first, of the second or of the third level. -/
def mapLeaves : Code :=
  .loop (.branch orPanic (.branch (.block [newTable, orPanic])
    (.block [newTable, newTable, orPanic])))

def kvmMap : Code := mapLeaves
def uvmMap : Code := mapLeaves

def kvmInit : Code :=
  .block [kalloc, orPanic, kvmMap, kvmMap, kvmMap, kvmMap, kvmMap, kvmMap, kvmMap, kvmMap, kvmMap]

def createUserTable : Code := .block [kalloc, kvmMap, kvmMap]

def uvmFree : Code :=
  .block [.loop (.maybe (.branch (.maybe kfree) (.block
      [.loop (.maybe (.branch (.maybe kfree) (.block [.loop (.maybe kfree), kfree]))), kfree]))),
    kfree]

/-- `kvmem_cache_alloc` for a cache whose headers are in its pages, as those of the cache that the
recursive call names are. -/
def onSlabAlloc : Code := .maybe (.block [kalloc, orPanic])

def kvmemCacheAlloc : Code :=
  .maybe (.block [kalloc, orPanic, .maybe (.block [onSlabAlloc, orPanic])])

def kvmalloc : Code := locked .kvmalloc (.maybe (.branch kvmemCacheAlloc kalloc))

/-- Nothing to free; a slot of a slab, freed in one of the two loops; or pages. -/
def kvmfree : Code :=
  .maybe (.seq (acquire .kvmalloc)
    (.branch (release .kvmalloc) (.block [kfree, release .kvmalloc])))

end Memory

section Processes

variable (hart core : Nat)

def schedulerInit : Code := .block [kvmalloc, locked .aliveCounter .skip, kalloc, kalloc]

def schedule : Code :=
  locked (.runqueue core) (.block [orPanic, .loop orPanic, orPanic])

/-- Each `return 0` leaves the rest out. -/
def spawnProcess : Code :=
  .seq kvmalloc <| .maybe <| .maybe <|
    .seq (locked .pidRegistry (locked .aliveCounter .skip)) <| .seq kalloc <| .maybe <|
      .block [createUserTable, orPanic, .loop (.maybe (.block [kalloc, uvmMap])), kalloc, uvmMap,
        kalloc, locked (.runqueue core) .skip]

/-- `block_process`, `sleep_process`, `block_ipc_process` and `block_ipc_send_process`, each with
the lock of its list. -/
def park (l : Lock) : Code := locked l (.block [orPanic, orPanic, locked (.runqueue core) .skip])

def blockProcess : Code := park core .blockedList
def sleepProcess : Code := park core .sleepingList
def blockIpcProcess : Code := park core .blockedIpcList
def blockIpcSendProcess : Code := park core .blockedIpcSendList

/-- `unblock_process`, `unblock_ipc_process` and `unblock_ipc_send_process`. -/
def unpark (l : Lock) : Code := locked l (.block [orPanic, orPanic, locked (.runqueue core) .skip])

def unblockProcess : Code := unpark core .blockedList
def unblockIpcProcess : Code := unpark core .blockedIpcList
def unblockIpcSendProcess : Code := unpark core .blockedIpcSendList

def exitProcess : Code :=
  .block [locked .zombieList (locked (.runqueue core) (.block [orPanic, orPanic])),
    eachHart hart fun j => .maybe (locked (.runqueue j) .skip),
    locked .blockedList .skip, locked .zombieList .skip, locked .sleepingList .skip,
    locked .blockedIpcList .skip, locked .blockedIpcSendList .skip]

/-- What reaping a process frees. -/
def reap : Code :=
  .block [locked .aliveCounter .skip, locked .pidRegistry .skip, uvmFree, kfree, kfree, kvmfree]

def waitProcess : Code :=
  .block [acquire .zombieList, offSsie,
    .branch (.block [setSsie, release .zombieList])
      (.block [reap, setSsie, release .zombieList])]

def orphanCleaner : Code := locked .zombieList (.loop (.maybe reap))

def updateSleepList : Code :=
  locked .sleepingList
    (.loop (.maybe (.block [orPanic, orPanic, locked (.runqueue core) .skip])))

/-- The queues of the other harts are searched, that of this hart takes what was found. -/
def stealProcess : Code :=
  .seq (eachHart hart fun j => if j = core then .skip else .maybe (locked (.runqueue j) .skip))
    (.maybe (locked (.runqueue core) .skip))

def getProcessByPid : Code :=
  .block [eachHart hart fun j => .maybe (locked (.runqueue j) .skip), locked .blockedList .skip,
    locked .blockedIpcList .skip, locked .blockedIpcSendList .skip, locked .sleepingList .skip]

end Processes

section Traps

variable (hart core : Nat)

/-- A pointer without a page ends its process. -/
def orFault (p : Code) : Code := .branch (.block [message, exitProcess hart core]) p

/-- A search for a process, and what is done with the one found. -/
def withTarget (p : Code) : Code := .seq (getProcessByPid hart) (.maybe p)

/-- A check that ends in a message. -/
def orDenied (p : Code) : Code := .branch message p

/-- One round of the loop of case 9: the list is left before the sender is woken. -/
def wakeSender : Code :=
  .seq (acquire .blockedIpcSendList)
    (.branch (.block [release .blockedIpcSendList, unblockIpcSendProcess core])
      (release .blockedIpcSendList))

/-- The cases of `strap_router` for a system call, by `a7`. -/
def syscall : Nat → Code
  | 1 => uart
  | 2 => .maybe (blockProcess core)
  | 3 => exitProcess hart core
  | 6 => sleepProcess core
  | 7 => waitProcess
  | 8 => orFault hart core <| withTarget hart <| orDenied <| orDenied <| orDenied <|
      .branch (.maybe (unblockIpcProcess core)) (blockIpcSendProcess core)
  | 9 => orFault hart core (.branch (blockIpcProcess core) (.loop (wakeSender core)))
  | 10 => withTarget hart (orDenied (orDenied (.maybe (.maybe message))))
  | 11 => withTarget hart (orDenied .skip)
  | 13 => orFault hart core <| orDenied <|
      .block [eachHart hart fun j => .maybe (locked (.runqueue j) .skip),
        locked .blockedList .skip, locked .blockedIpcList .skip, locked .sleepingList .skip,
        locked .blockedIpcSendList .skip, locked .zombieList .skip]
  | 14 => .maybe message
  | 15 => orFault hart core (withTarget hart (orDenied uvmMap))
  | 16 => withTarget hart (orDenied .skip)
  | 17 => .maybe message
  | _ => .skip

/-- Case 1 of the interrupts: the tick. -/
def softInterrupt : Code := .seq (updateSleepList core) (.maybe (schedule core))

/-- Case 9: a character. -/
def externalInterrupt : Code := .maybe (.seq uart (.maybe (unblockProcess core)))

end Traps

section Loops

variable (hart core : Nat)

def oxomocoLoop : Code :=
  .loop (.block [offSsie, orphanCleaner, stealProcess hart core, setSsie, setSeie])

def idleLoop : Code := .loop (.block [offSsie, stealProcess hart core, setSsie, setSeie])

def timerInit : Code := setSsie

/-- `kmain` up to `scheduler_init`. -/
def kmainSetup : Code :=
  .block [orPanic, message, orPanic, kvmInit, kvmalloc, schedulerInit]

def kmain : Code :=
  .block [kmainSetup, timerInit, setSsie, setSeie, kvmalloc, .loop (.block [kalloc, kalloc]),
    spawnProcess 0, spawnProcess 0, oxomocoLoop hart 0]

def smpKmain : Code :=
  .block [kvmalloc, kvmalloc, kalloc, kalloc, timerInit, setSsie, setSeie, idleLoop hart core]

end Loops

section Entries

/-- Where the paths of a hart begin. -/
inductive Entry where
  | kmain
  | smpKmain
  | oxomocoLoop
  | idleLoop
  | softInterrupt
  | externalInterrupt
  | syscall (a7 : Nat)
  | exception
  deriving DecidableEq

namespace Entry

def code (hart core : Nat) : Entry → Code
  | kmain => Locks.kmain hart
  | smpKmain => Locks.smpKmain hart core
  | oxomocoLoop => Locks.oxomocoLoop hart core
  | idleLoop => Locks.idleLoop hart core
  | softInterrupt => Locks.softInterrupt core
  | externalInterrupt => Locks.externalInterrupt core
  | syscall a7 => Locks.syscall hart core a7
  | exception => Locks.kpanic

/-- A hart leaves reset with `SIE` clear and a trap clears it. The two loops clear it themselves. -/
def Starts : Entry → Cpu → Prop
  | oxomocoLoop, c => c.held = ∅
  | idleLoop, c => c.held = ∅
  | _, c => c = ⟨false, ∅⟩

def Interrupt (e : Entry) : Prop := e = softInterrupt ∨ e = externalInterrupt

end Entry

/-- The states of a hart on the paths of an entry. Wherever `SIE` is set an interrupt may come in,
and its handler takes over the locks of the code it interrupts. -/
inductive Reached (hart core : Nat) (e : Entry) : Cpu → Prop
  | runs {c d} : e.Starts c → Meets Cpu.step (e.code hart core) c d → Reached hart core e d
  | interrupt {i c d} : Reached hart core e c → c.sie = true → Entry.Interrupt i →
      Meets Cpu.step (i.code hart core) c.trapped d → Reached hart core e d

end Entries

end RexOS.Locks
