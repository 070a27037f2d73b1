import RexOS.Locks.Model

/-!
# No lock is held where an interrupt may come in

The locks have an order, and each routine takes only locks below those that its callers hold. So a
routine that runs with `SIE` clear never waits for its own hart and leaves the hart as it found it.
Two paths take locks with `SIE` set: `kmain` behind `timer_init`, and `wait_process`, which sets
the bit before it releases the list of zombies.
-/

namespace RexOS.Locks

open Skeleton

/-- `SIE` is clear wherever a lock is held. -/
def Cpu.Guarded (c : Cpu) : Prop := c.held.Nonempty → c.sie = false

/-- With interrupts off nothing has to be free. -/
theorem Cpu.Guarded.of_clear {c : Cpu} (h : c.sie = false) : c.Guarded := fun _ => h

/-- Each lock comes below those under which it is taken. -/
def Lock.rank : Lock → Nat
  | .uart => 0
  | .kalloc => 1
  | .kvmalloc => 2
  | .aliveCounter => 3
  | .pidRegistry => 4
  | .runqueue _ => 5
  | _ => 6

/-- All locks held are of rank `n` or above. -/
def Cpu.Above (n : Nat) (c : Cpu) : Prop := ∀ l ∈ c.held, n ≤ l.rank

/-- Called with no lock below rank `n`, a routine meets only guarded states while `SIE` is clear,
waits for none of its own locks and leaves the hart as it was. -/
def Quiet (n : Nat) (p : Code) : Prop :=
  ∀ c : Cpu, c.sie = false → c.Above n → Triple Cpu.step Cpu.Guarded (· = c) p (· = c)

/-- It has a path that returns, with the hart as it was. -/
def Passes (n : Nat) (p : Code) : Prop := ∀ c : Cpu, c.Above n → Ends Cpu.step p c c

/-- A routine that may be called under locks of rank `n` and above. -/
structure Calm (n : Nat) (p : Code) : Prop where
  quiet : Quiet n p
  passes : Passes n p

section Rules

variable {n m : Nat} {p q : Code} {ps : List Code}

namespace Calm

/-- Code that may be called under some locks may be called under the higher ones of them. -/
theorem mono (h : Calm n p) (hnm : n ≤ m) : Calm m p where
  quiet c hc hm := h.quiet c hc fun l hl => hnm.trans (hm l hl)
  passes c hm := h.passes c fun l hl => hnm.trans (hm l hl)

/-- Code without an act is calm. -/
theorem skip : Calm n .skip where
  quiet _ hc _ := Triple.skip fun _ hd => .of_clear (hd ▸ hc)
  passes _ _ := .skip

/-- Two calm pieces in a row are calm. -/
theorem seq (hp : Calm n p) (hq : Calm n q) : Calm n (.seq p q) where
  quiet c hc hn := (hp.quiet c hc hn).seq (hq.quiet c hc hn)
  passes c hn := .seq (hp.passes c hn) (hq.passes c hn)

/-- Only one of two ways has to return. -/
theorem branch (hp : Calm n p) (hq : Quiet n q) : Calm n (.branch p q) where
  quiet c hc hn := (hp.quiet c hc hn).branch (hq c hc hn)
  passes c hn := .left (hp.passes c hn)

/-- So is a piece that may be left out. -/
theorem maybe (hp : Quiet n p) : Calm n p.maybe := skip.branch hp

/-- So is a loop over a calm piece. -/
theorem loop (hp : Calm n p) : Calm n (.loop p) where
  quiet c hc hn := (hp.quiet c hc hn).loop
  passes _ _ := .leave

/-- The empty block is calm. -/
theorem nil : Calm n (.block []) := skip

/-- A block is calm if its pieces are. -/
theorem cons (hp : Calm n p) (hps : Calm n (.block ps)) : Calm n (.block (p :: ps)) := hp.seq hps

/-- So is a loop over the harts. -/
theorem eachHart {f : Nat → Code} (h : ∀ j, Calm n (f j)) (hart : Nat) :
    Calm n (eachHart hart f) := by
  unfold Locks.eachHart
  induction List.range hart with
  | nil => exact nil
  | cons j js ih => exact (h j).cons ih

end Calm

/-- Under the lock `l` a routine gives this lock back and leaves the hart as it was before. -/
structure Closes (l : Lock) (p : Code) : Prop where
  quiet : ∀ c : Cpu, c.sie = false → c.Above (l.rank + 1) →
    Triple Cpu.step Cpu.Guarded (· = c.hold l) p (· = c)
  passes : ∀ c : Cpu, c.Above (l.rank + 1) → Ends Cpu.step p (c.hold l) c

variable {l : Lock} {c : Cpu}

/-- A hart that holds only higher locks does not hold this one. -/
theorem Cpu.Above.free (h : c.Above (l.rank + 1)) : l ∉ c.held :=
  fun hl => absurd (h l hl) (Nat.not_succ_le_self _)

/-- Once it holds the lock, it holds only locks from its rank on. -/
theorem Cpu.Above.hold (h : c.Above (l.rank + 1)) : (c.hold l).Above l.rank := by
  intro k hk
  rcases Finset.mem_insert.mp hk with rfl | hk
  · exact le_rfl
  · exact (Nat.le_succ _).trans (h k hk)

/-- It takes the lock without waiting for itself. -/
theorem Cpu.Above.acquire (h : c.Above (l.rank + 1)) : c.step (.acquire l) = some (c.hold l) :=
  if_neg h.free

/-- After the release it holds what it held before. -/
theorem Cpu.Above.release (h : c.Above (l.rank + 1)) : (c.hold l).step (.release l) = some c := by
  simp only [Cpu.step, Cpu.hold, Finset.erase_insert h.free]

namespace Closes

/-- The release closes the lock. -/
theorem release : Closes l (release l) where
  quiet c hc hn := by
    refine Triple.act (fun d hd => .of_clear (hd ▸ hc)) ?_
    rintro d rfl
    exact ⟨c, hn.release, .of_clear hc, rfl⟩
  passes _ hn := .act hn.release

/-- What runs under the lock may take lower ones only. -/
theorem under (hp : Calm l.rank p) (hq : Closes l q) : Closes l (.seq p q) where
  quiet c hc hn := (hp.quiet (c.hold l) hc hn.hold).seq (hq.quiet c hc hn)
  passes c hn := .seq (hp.passes (c.hold l) hn.hold) (hq.passes c hn)

/-- A calm piece may come behind the release. -/
theorem before (hp : Closes l p) (hq : Calm (l.rank + 1) q) : Closes l (.seq p q) where
  quiet c hc hn := (hp.quiet c hc hn).seq (hq.quiet c hc hn)
  passes c hn := .seq (hp.passes c hn) (hq.passes c hn)

/-- Both ways may give the lock back. -/
theorem branch (hp : Closes l p) (hq : Closes l q) : Closes l (.branch p q) where
  quiet c hc hn := (hp.quiet c hc hn).branch (hq.quiet c hc hn)
  passes c hn := .left (hp.passes c hn)

/-- Taking the lock first makes the whole calm. -/
theorem acquire (hp : Closes l p) : Calm (l.rank + 1) (.seq (acquire l) p) where
  quiet c hc hn := by
    have hacquire : Triple Cpu.step Cpu.Guarded (· = c) (Locks.acquire l) (· = c.hold l) := by
      refine Triple.act (fun d hd => .of_clear (hd ▸ hc)) ?_
      rintro d rfl
      exact ⟨d.hold l, hn.acquire, .of_clear hc, rfl⟩
    exact hacquire.seq (hp.quiet c hc hn)
  passes c hn := .seq (.act hn.acquire) (hp.passes c hn)

end Closes

/-- A lock is taken under locks of a greater rank only, and what it protects runs under it. -/
theorem Calm.locked (hp : Calm l.rank p) : Calm (l.rank + 1) (locked l p) :=
  (Closes.under hp (Closes.release.before .nil)).acquire

end Rules

section Output

/-- `uart_putc` and its kin take the lock of the uart for themselves. -/
theorem uart_calm : Calm 1 uart := Calm.locked (l := .uart) .skip

/-- A line on the console is some of these. -/
theorem message_calm : Calm 1 message := uart_calm.loop

/-- The panic may come under every lock but that of the console. -/
theorem kpanic_quiet : Quiet 1 kpanic := by
  intro c hc hn
  have hstop : Triple Cpu.step Cpu.Guarded (· = c) (.block [.halt]) (· = c) :=
    (Triple.halt fun d hd => .of_clear (hd ▸ hc)).seq (Triple.skip fun d hd => .of_clear (hd ▸ hc))
  exact (message_calm.quiet c hc hn).seq hstop

/-- A check that may panic is calm, for a panic does not come back. -/
theorem orPanic_calm : Calm 1 orPanic := .maybe kpanic_quiet

end Output

section Memory

/-- `kalloc` takes its own lock and those of the console. -/
theorem kalloc_calm : Calm 2 kalloc :=
  Calm.locked (l := .kalloc) (orPanic_calm.cons (orPanic_calm.loop.cons .nil))

/-- So does `kfree`. -/
theorem kfree_calm : Calm 2 kfree :=
  Calm.locked (l := .kalloc)
    (orPanic_calm.cons (orPanic_calm.cons (orPanic_calm.cons (orPanic_calm.cons .nil))))

/-- A new table is a page, or a panic. -/
theorem newTable_calm : Calm 2 newTable :=
  .maybe (kalloc_calm.cons ((orPanic_calm.mono (by decide)).cons .nil)).quiet

/-- Mapping takes tables as it goes. -/
theorem mapLeaves_calm : Calm 2 mapLeaves := by
  have hpanic : Calm 2 orPanic := orPanic_calm.mono (by decide)
  have hsecond : Calm 2 (.block [newTable, orPanic]) := newTable_calm.cons (hpanic.cons .nil)
  have hthird : Calm 2 (.block [newTable, newTable, orPanic]) := newTable_calm.cons hsecond
  exact (hpanic.branch (hsecond.branch hthird.quiet).quiet).loop

/-- `kvm_map` is such a loop. -/
theorem kvmMap_calm : Calm 2 kvmMap := mapLeaves_calm

/-- `uvm_map` is such a loop. -/
theorem uvmMap_calm : Calm 2 uvmMap := mapLeaves_calm

/-- `kvm_init` is a table and some calls of `kvm_map`. -/
theorem kvmInit_calm : Calm 2 kvmInit := by
  have hmaps : Calm 2 (.block (List.replicate 9 kvmMap)) :=
    kvmMap_calm.cons <| kvmMap_calm.cons <| kvmMap_calm.cons <| kvmMap_calm.cons <|
      kvmMap_calm.cons <| kvmMap_calm.cons <| kvmMap_calm.cons <| kvmMap_calm.cons <|
        kvmMap_calm.cons .nil
  exact kalloc_calm.cons ((orPanic_calm.mono (by decide)).cons hmaps)

/-- `create_user_table` is a table and two calls of `uvm_map`. -/
theorem createUserTable_calm : Calm 2 createUserTable :=
  kalloc_calm.cons (kvmMap_calm.cons (kvmMap_calm.cons .nil))

/-- `uvm_free` only calls `kfree`, level by level. -/
theorem uvmFree_calm : Calm 2 uvmFree := by
  have hleaf : Calm 2 (.maybe kfree) := .maybe kfree_calm.quiet
  have hthird : Calm 2 (.block [.loop (.maybe kfree), kfree]) :=
    hleaf.loop.cons (kfree_calm.cons .nil)
  have hsecond : Calm 2 (.block [.loop (.maybe (.branch (.maybe kfree)
      (.block [.loop (.maybe kfree), kfree]))), kfree]) :=
    (Calm.maybe (hleaf.branch hthird.quiet).quiet).loop.cons (kfree_calm.cons .nil)
  exact (Calm.maybe (hleaf.branch hsecond.quiet).quiet).loop.cons (kfree_calm.cons .nil)

/-- A slab is a page, and perhaps another one for the headers. -/
theorem kvmemCacheAlloc_calm : Calm 2 kvmemCacheAlloc := by
  have hpanic : Calm 2 orPanic := orPanic_calm.mono (by decide)
  have hslab : Calm 2 onSlabAlloc := .maybe (kalloc_calm.cons (hpanic.cons .nil)).quiet
  have hheader : Calm 2 (.maybe (.block [onSlabAlloc, orPanic])) :=
    .maybe (hslab.cons (hpanic.cons .nil)).quiet
  exact .maybe (kalloc_calm.cons (hpanic.cons (hheader.cons .nil))).quiet

/-- `kvmalloc` calls `kalloc` under its own lock. -/
theorem kvmalloc_calm : Calm 3 kvmalloc :=
  Calm.locked (l := .kvmalloc) (.maybe (kvmemCacheAlloc_calm.branch kalloc_calm.quiet).quiet)

/-- `kvmfree` calls `kfree` under it, and gives it back on both ways. -/
theorem kvmfree_calm : Calm 3 kvmfree := by
  have hpages : Closes .kvmalloc (.block [kfree, release .kvmalloc]) :=
    .under kfree_calm (Closes.release.before .nil)
  exact .maybe (Closes.release.branch hpages).acquire.quiet

end Memory

section Processes

variable (hart core : Nat)

/-- `scheduler_init` holds the lock of the counter while it calls nothing. -/
theorem schedulerInit_calm : Calm 4 schedulerInit := by
  have hkalloc : Calm 4 kalloc := kalloc_calm.mono (by decide)
  have hcount : Calm 4 (locked .aliveCounter .skip) := Calm.locked (l := .aliveCounter) .skip
  exact (kvmalloc_calm.mono (by decide)).cons (hcount.cons (hkalloc.cons (hkalloc.cons .nil)))

/-- The lock of a run queue comes above those of the allocators. -/
theorem runqueue_calm {p : Code} (hp : Calm 5 p) : Calm 6 (locked (.runqueue core) p) :=
  Calm.locked (l := .runqueue core) hp

/-- `schedule` runs under the lock of its own run queue. -/
theorem schedule_calm : Calm 6 (schedule core) := by
  have hpanic : Calm 5 orPanic := orPanic_calm.mono (by decide)
  exact runqueue_calm core (hpanic.cons (hpanic.loop.cons (hpanic.cons .nil)))

/-- A list is locked around a queue. -/
theorem park_calm {l : Lock} (hl : l.rank = 6) : Calm 7 (park core l) := by
  have hpanic : Calm 6 orPanic := orPanic_calm.mono (by decide)
  have hin := hpanic.cons (hpanic.cons ((runqueue_calm core .skip).cons .nil))
  rw [← hl] at hin
  exact hin.locked.mono (by rw [hl])

/-- Waking takes the same locks. -/
theorem unpark_calm {l : Lock} (hl : l.rank = 6) : Calm 7 (unpark core l) := park_calm core hl

/-- A walk along a list runs under its lock alone. -/
theorem list_calm {l : Lock} (hl : l.rank = 6) : Calm 7 (locked l .skip) :=
  Calm.skip.locked.mono (by rw [hl])

/-- A walk over the run queues takes their locks one after the other. -/
theorem queues_calm : Calm 7 (eachHart hart fun j => .maybe (locked (.runqueue j) .skip)) :=
  .eachHart (fun j => .maybe ((runqueue_calm j .skip).mono (by decide)).quiet) hart

/-- `exit_process` takes the locks of the queues and lists one after the other. -/
theorem exitProcess_calm : Calm 7 (exitProcess hart core) := by
  have hpanic : Calm 5 orPanic := orPanic_calm.mono (by decide)
  have hzombie :
      Calm 7 (locked .zombieList (locked (.runqueue core) (.block [orPanic, orPanic]))) :=
    Calm.locked (l := .zombieList) (runqueue_calm core (hpanic.cons (hpanic.cons .nil)))
  exact hzombie.cons <| (queues_calm hart).cons <| (list_calm rfl).cons <| (list_calm rfl).cons <|
    (list_calm rfl).cons <| (list_calm rfl).cons <| (list_calm rfl).cons .nil

/-- What reaping frees may be freed under the lock of the zombies. -/
theorem reap_calm : Calm 5 reap := by
  have hkfree : Calm 5 kfree := kfree_calm.mono (by decide)
  have hcount : Calm 5 (locked .aliveCounter .skip) :=
    (Calm.locked (l := .aliveCounter) .skip).mono (by decide)
  have hpid : Calm 5 (locked .pidRegistry .skip) := Calm.locked (l := .pidRegistry) .skip
  exact hcount.cons <| hpid.cons <| (uvmFree_calm.mono (by decide)).cons <| hkfree.cons <|
    hkfree.cons <| (kvmfree_calm.mono (by decide)).cons .nil

/-- `orphan_cleaner` reaps under this lock. -/
theorem orphanCleaner_calm : Calm 7 orphanCleaner :=
  Calm.locked (l := .zombieList) ((Calm.maybe (reap_calm.mono (by decide)).quiet).loop)

/-- `update_sleep_list` fills the run queue under the lock of the sleepers. -/
theorem updateSleepList_calm : Calm 7 (updateSleepList core) := by
  have hpanic : Calm 6 orPanic := orPanic_calm.mono (by decide)
  have hwake := hpanic.cons (hpanic.cons ((runqueue_calm core .skip).cons .nil))
  exact Calm.locked (l := .sleepingList) (Calm.maybe hwake.quiet).loop

/-- `steal_process` leaves one run queue before it takes the next. -/
theorem stealProcess_calm : Calm 6 (stealProcess hart core) := by
  refine Calm.seq (.eachHart (fun j => ?_) hart) (.maybe (runqueue_calm core .skip).quiet)
  by_cases hj : j = core
  · simpa only [if_pos hj] using Calm.skip
  · simpa only [if_neg hj] using Calm.maybe (runqueue_calm j .skip).quiet

/-- `get_process_by_pid` leaves each queue and list before it takes the next. -/
theorem getProcessByPid_calm : Calm 7 (getProcessByPid hart) :=
  (queues_calm hart).cons <| (list_calm rfl).cons <| (list_calm rfl).cons <| (list_calm rfl).cons <|
    (list_calm rfl).cons .nil

end Processes

section Traps

variable (hart core : Nat)

/-- A console line is calm below all locks. -/
theorem message_above : Calm 7 message := message_calm.mono (by decide)

variable {p : Code}

/-- A check that ends the process in front of a calm piece. -/
theorem orFault_calm (hp : Calm 7 p) : Calm 7 (orFault hart core p) :=
  (message_above.cons ((exitProcess_calm hart core).cons .nil)).branch hp.quiet

/-- A search for a process in front of a calm piece. -/
theorem withTarget_calm (hp : Calm 7 p) : Calm 7 (withTarget hart p) :=
  (getProcessByPid_calm hart).seq (.maybe hp.quiet)

/-- A check that ends in a message in front of a calm piece. -/
theorem orDenied_calm (hp : Calm 7 p) : Calm 7 (orDenied p) := message_above.branch hp.quiet

/-- The lock of the list is given back before the sender is woken. -/
theorem wakeSender_calm : Calm 7 (wakeSender core) := by
  have hfound : Closes .blockedIpcSendList
      (.block [release .blockedIpcSendList, unblockIpcSendProcess core]) :=
    Closes.release.before ((unpark_calm core rfl).cons .nil)
  exact (hfound.branch .release).acquire

/-- Every call but the wait. -/
theorem syscall_calm {a7 : Nat} (h : a7 ≠ 7) : Calm 7 (syscall hart core a7) := by
  have hmessage : Calm 7 (.maybe message) := .maybe message_above.quiet
  have hunblock : Calm 7 (unblockIpcProcess core) := unpark_calm core rfl
  have hsend : Calm 7 (.branch (.maybe (unblockIpcProcess core)) (blockIpcSendProcess core)) :=
    (Calm.maybe hunblock.quiet).branch (park_calm core rfl).quiet
  have hreceive : Calm 7 (.branch (blockIpcProcess core) (.loop (wakeSender core))) :=
    Calm.branch (park_calm core rfl) (wakeSender_calm core).loop.quiet
  unfold syscall
  split
  · exact uart_calm.mono (by decide)
  · exact .maybe (park_calm core rfl).quiet
  · exact exitProcess_calm hart core
  · exact park_calm core rfl
  · exact absurd rfl h
  · exact orFault_calm hart core (withTarget_calm hart
      (orDenied_calm (orDenied_calm (orDenied_calm hsend))))
  · exact orFault_calm hart core hreceive
  · exact withTarget_calm hart (orDenied_calm (orDenied_calm (.maybe hmessage.quiet)))
  · exact withTarget_calm hart (orDenied_calm .skip)
  · exact orFault_calm hart core (orDenied_calm ((queues_calm hart).cons <| (list_calm rfl).cons <|
      (list_calm rfl).cons <| (list_calm rfl).cons <| (list_calm rfl).cons <|
        (list_calm rfl).cons .nil))
  · exact hmessage
  · exact orFault_calm hart core (withTarget_calm hart
      (orDenied_calm (uvmMap_calm.mono (by decide))))
  · exact withTarget_calm hart (orDenied_calm .skip)
  · exact hmessage
  · exact .skip

/-- A tick wakes sleepers and dispatches. -/
theorem softInterrupt_calm : Calm 7 (softInterrupt core) :=
  (updateSleepList_calm core).seq (.maybe ((schedule_calm core).mono (by decide)).quiet)

/-- A character goes to the console and wakes a reader. -/
theorem externalInterrupt_calm : Calm 7 (externalInterrupt core) :=
  .maybe ((uart_calm.mono (by decide)).seq
    (.maybe (unpark_calm core (l := .blockedList) rfl).quiet)).quiet

end Traps

section Loops

variable (hart core : Nat)

/-- A hart without locks. -/
def Cpu.Empty (c : Cpu) : Prop := c.held = ∅

/-- A hart that holds no lock may be interrupted. -/
theorem Cpu.Empty.guarded {c : Cpu} (h : c.Empty) : c.Guarded :=
  fun hn => absurd h hn.ne_empty

/-- It may take any lock. -/
theorem Cpu.Empty.above {c : Cpu} {n : Nat} (h : c.Empty) : c.Above n := by
  intro l hl
  rw [h] at hl
  exact absurd hl (Finset.notMem_empty l)

/-- The bit may be set or cleared where no lock is held. -/
theorem bit_triple {a : Act} {b : Bool} (ha : ∀ c, Cpu.step c a = some { c with sie := b }) :
    Triple Cpu.step Cpu.Guarded Cpu.Empty (.act a) (fun c => c.Empty ∧ c.sie = b) := by
  refine Triple.act (fun c hc => hc.guarded) ?_
  intro c hc
  have hempty : Cpu.Empty { c with sie := b } := hc
  exact ⟨_, ha c, hempty.guarded, hempty, rfl⟩

variable {p : Code}

/-- Without locks, what is calm may run with the bit clear. -/
theorem Calm.clear (hp : Calm 7 p) :
    Triple Cpu.step Cpu.Guarded (fun c => c.Empty ∧ c.sie = false) p
      (fun c => c.Empty ∧ c.sie = false) := by
  refine Triple.of_each fun c hc => ?_
  exact (hp.quiet c hc.2 hc.1.above).post fun d hd => hd ▸ hc

/-- The bit is set twice and the hart has no lock. -/
theorem enable_triple {P : Cpu → Prop} (hP : ∀ c, P c → c.Empty)
    (hp : Triple Cpu.step Cpu.Guarded Cpu.Empty p Cpu.Empty) :
    Triple Cpu.step Cpu.Guarded P (.seq setSsie (.seq setSeie p)) Cpu.Empty := by
  have hset : ∀ a, (∀ c, Cpu.step c a = some { c with sie := true }) →
      Triple Cpu.step Cpu.Guarded Cpu.Empty (.act a) Cpu.Empty :=
    fun a ha => (bit_triple ha).post fun _ hc => hc.1
  exact ((hset .setSsie fun _ => rfl).pre hP).seq ((hset .setSeie fun _ => rfl).seq hp)

/-- Nothing happens in an empty block. -/
theorem nil_triple : Triple Cpu.step Cpu.Guarded Cpu.Empty (.block []) Cpu.Empty :=
  Triple.skip fun _ hc => hc.guarded

/-- `idle_loop` holds no lock when it comes round. -/
theorem idleLoop_triple :
    Triple Cpu.step Cpu.Guarded Cpu.Empty (idleLoop hart core) Cpu.Empty := by
  have hsteal : Calm 7 (stealProcess hart core) := (stealProcess_calm hart core).mono (by decide)
  have hoff := bit_triple (a := .offSsie) fun _ => rfl
  exact Triple.loop (hoff.seq (hsteal.clear.seq (enable_triple (fun _ hc => hc.1) nil_triple)))

/-- `oxomoco_loop` holds no lock when it comes round. -/
theorem oxomocoLoop_triple :
    Triple Cpu.step Cpu.Guarded Cpu.Empty (oxomocoLoop hart core) Cpu.Empty := by
  have hsteal : Calm 7 (stealProcess hart core) := (stealProcess_calm hart core).mono (by decide)
  have hoff := bit_triple (a := .offSsie) fun _ => rfl
  exact Triple.loop (hoff.seq (orphanCleaner_calm.clear.seq
    (hsteal.clear.seq (enable_triple (fun _ hc => hc.1) nil_triple))))

/-- The other harts allocate before they set the bit. -/
theorem smpKmain_triple :
    Triple Cpu.step Cpu.Guarded (fun c => c.Empty ∧ c.sie = false) (smpKmain hart core)
      Cpu.Empty := by
  have hkvmalloc : Calm 7 kvmalloc := kvmalloc_calm.mono (by decide)
  have hkalloc : Calm 7 kalloc := kalloc_calm.mono (by decide)
  have hidle := (idleLoop_triple hart core).seq nil_triple
  have htimer : Triple Cpu.step Cpu.Guarded Cpu.Empty timerInit Cpu.Empty :=
    (bit_triple fun _ => rfl).post fun _ hc => hc.1
  exact hkvmalloc.clear.seq <| hkvmalloc.clear.seq <| hkalloc.clear.seq <| hkalloc.clear.seq <|
    (htimer.pre fun _ hc => hc.1).seq (enable_triple (fun _ hc => hc) hidle)

end Loops

section Entries

variable {hart core : Nat} {e : Entry} {c d : Cpu}

/-- On every path of the entry `SIE` is clear wherever a lock is held, and no interrupt that comes
in waits for a lock of its own hart. -/
def Disciplined (hart core : Nat) (e : Entry) : Prop :=
  ∀ c, Reached hart core e c → c.Guarded ∧ (c.sie = true → ∀ i : Entry, i.Interrupt →
    ¬ Stuck Cpu.step (i.code hart core) c.trapped)

/-- A trap from user mode. -/
theorem Quiet.from_user {p : Code} (hp : Quiet 7 p) :
    Triple Cpu.step Cpu.Guarded (· = ⟨false, ∅⟩) p (· = ⟨false, ∅⟩) :=
  hp ⟨false, ∅⟩ rfl (Cpu.Empty.above rfl)

/-- The handlers of interrupts are quiet. -/
theorem Entry.Interrupt.quiet {i : Entry} (hi : i.Interrupt) : Quiet 7 (i.code hart core) := by
  rcases hi with rfl | rfl
  · exact (softInterrupt_calm core).quiet
  · exact (externalInterrupt_calm core).quiet

/-- All entries but two. -/
theorem Entry.meets (hk : e ≠ .kmain) (hw : e ≠ .syscall 7) (hc : e.Starts c)
    (hm : Meets Cpu.step (e.code hart core) c d) : d.Guarded := by
  cases e with
  | kmain => exact absurd rfl hk
  | smpKmain =>
    exact (smpKmain_triple hart core).meets ⟨congrArg Cpu.held hc, congrArg Cpu.sie hc⟩ hm
  | oxomocoLoop => exact (oxomocoLoop_triple hart core).meets hc hm
  | idleLoop => exact (idleLoop_triple hart core).meets hc hm
  | softInterrupt => exact (softInterrupt_calm core).quiet.from_user.meets hc hm
  | externalInterrupt => exact (externalInterrupt_calm core).quiet.from_user.meets hc hm
  | syscall a7 =>
    have ha7 : a7 ≠ 7 := fun h => hw (congrArg Entry.syscall h)
    exact (syscall_calm hart core ha7).quiet.from_user.meets hc hm
  | exception =>
    have hpanic : Quiet 7 kpanic := fun c hc hn =>
      kpanic_quiet c hc fun l hl => (by decide : 1 ≤ 7).trans (hn l hl)
    exact hpanic.from_user.meets hc hm

/-- An interrupt that comes in under guarded code finds no lock held. -/
theorem Cpu.Guarded.trapped (hc : c.Guarded) (hs : c.sie = true) : c.trapped = ⟨false, ∅⟩ := by
  have hempty : c.held = ∅ := by
    rw [← Finset.not_nonempty_iff_eq_empty]
    intro hn
    exact Bool.false_ne_true ((hc hn).symm.trans hs)
  simp only [Cpu.trapped, hempty]

/-- By induction on the interrupts: each one starts where a trap from user mode would. -/
theorem Reached.guarded (hk : e ≠ .kmain) (hw : e ≠ .syscall 7) (hr : Reached hart core e c) :
    c.Guarded := by
  induction hr with
  | runs hc hm => exact Entry.meets hk hw hc hm
  | interrupt _ hs hi hm ih => exact hi.quiet.from_user.meets (ih.trapped hs) hm

/-- `wait_process` sets the bit while it holds the list of zombies. -/
theorem waitProcess_meets : Meets Cpu.step waitProcess ⟨false, ∅⟩ ⟨true, {.zombieList}⟩ :=
  .second (.act rfl) (.second (.act rfl) (.first (.left (.first (.act rfl)))))

/-- `spawn_process` queues the new process under the lock of its hart. -/
theorem spawnProcess_meets (b : Bool) :
    Meets Cpu.step (spawnProcess core) ⟨b, ∅⟩ ⟨b, {.runqueue core}⟩ := by
  have passes : ∀ {n p}, Calm n p → Ends Cpu.step p ⟨b, ∅⟩ ⟨b, ∅⟩ :=
    fun hp => hp.passes _ (Cpu.Empty.above rfl)
  have hqueue : Meets Cpu.step (locked (.runqueue core) .skip) ⟨b, ∅⟩ ⟨b, {.runqueue core}⟩ :=
    .first (.act rfl)
  have hpid : Calm 5 (locked .pidRegistry (locked .aliveCounter .skip)) :=
    Calm.locked (l := .pidRegistry) (Calm.locked (l := .aliveCounter) .skip)
  have hload : Calm 2 (.loop (.maybe (.block [kalloc, uvmMap]))) :=
    (Calm.maybe (kalloc_calm.cons (uvmMap_calm.cons .nil)).quiet).loop
  refine .second (passes kvmalloc_calm) (.right (.right ?_))
  refine .second (passes hpid) (.second (passes kalloc_calm) (.right ?_))
  exact .second (passes createUserTable_calm) <| .second (passes orPanic_calm) <|
    .second (passes hload) <| .second (passes kalloc_calm) <| .second (passes uvmMap_calm) <|
      .second (passes kalloc_calm) (.first hqueue)

/-- At boot a process is queued with `SIE` set. -/
theorem kmain_meets : Meets Cpu.step (kmain hart) ⟨false, ∅⟩ ⟨true, {.runqueue 0}⟩ := by
  have passes : ∀ {n p}, Calm n p → ∀ b, Ends Cpu.step p ⟨b, ∅⟩ ⟨b, ∅⟩ :=
    fun hp _ => hp.passes _ (Cpu.Empty.above rfl)
  have hpanic : Calm 4 orPanic := orPanic_calm.mono (by decide)
  have hsetup : Calm 4 kmainSetup :=
    hpanic.cons <| (message_calm.mono (by decide)).cons <| hpanic.cons <|
      (kvmInit_calm.mono (by decide)).cons <| (kvmalloc_calm.mono (by decide)).cons <|
        schedulerInit_calm.cons .nil
  have hstacks : Calm 2 (.loop (.block [kalloc, kalloc])) :=
    (kalloc_calm.cons (kalloc_calm.cons .nil)).loop
  refine .second (passes hsetup false) (.second (t := ⟨true, ∅⟩) (.act rfl) ?_)
  refine .second (t := ⟨true, ∅⟩) (.act rfl) (.second (t := ⟨true, ∅⟩) (.act rfl) ?_)
  exact .second (passes kvmalloc_calm true) (.second (passes hstacks true)
    (.first (spawnProcess_meets true)))

/-- The discipline is kept on every path of an entry exactly when the entry is neither `kmain` nor
the wait. -/
theorem disciplined_iff (hart core : Nat) (e : Entry) :
    Disciplined hart core e ↔ e ≠ .kmain ∧ e ≠ .syscall 7 := by
  constructor
  · intro h
    constructor
    · rintro rfl
      have hr : Reached hart core .kmain ⟨true, {.runqueue 0}⟩ := .runs rfl kmain_meets
      exact absurd ((h _ hr).1 (Finset.singleton_nonempty _)) Bool.false_ne_true.symm
    · rintro rfl
      have hr : Reached hart core (.syscall 7) ⟨true, {.zombieList}⟩ := .runs rfl waitProcess_meets
      exact absurd ((h _ hr).1 (Finset.singleton_nonempty _)) Bool.false_ne_true.symm
  · rintro ⟨hk, hw⟩ c hr
    have hc := hr.guarded hk hw
    refine ⟨hc, fun hs i hi => ?_⟩
    rw [hc.trapped hs]
    exact hi.quiet.from_user.going rfl

/-- A tick in `spawn_process` at boot waits for ever for the queue of its own hart; and the wait
holds the list of zombies with `SIE` set. -/
theorem boot_deadlock :
    (Reached 1 0 .kmain ⟨true, {.runqueue 0}⟩ ∧
      Stuck Cpu.step (softInterrupt 0) (Cpu.trapped ⟨true, {.runqueue 0}⟩)) ∧
    Reached 1 0 (.syscall 7) ⟨true, {.zombieList}⟩ ∧
    ¬ ∀ e, Disciplined 1 0 e := by
  have hwait : Reached 1 0 (.syscall 7) ⟨true, {.zombieList}⟩ := .runs rfl waitProcess_meets
  have hsleepers :
      Ends Cpu.step (updateSleepList 0) ⟨false, {.runqueue 0}⟩ ⟨false, {.runqueue 0}⟩ :=
    .seq (.act rfl) (.seq .leave (.seq (.act (by decide)) .skip))
  refine ⟨⟨.runs rfl kmain_meets, ?_⟩, hwait, ?_⟩
  · exact .second hsleepers (.right (.first (.act rfl)))
  · intro h
    exact absurd ((h _ _ hwait).1 (Finset.singleton_nonempty _)) Bool.false_ne_true.symm

end Entries

end RexOS.Locks
