import RexOS.Core.Bytes
import RexOS.Core.Quota
import RexOS.Ipc.Buffers
import RexOS.Smp.Rights
import RexOS.Traps.UserPointers

/-!
# The process list

Syscall 13 of `strap_router` writes a record of 56 bytes for each process: first those on the
circles of every hart, the idle processes of harts other than 0 left out, then those on the five
lists. The loops over the lists test before each record whether `a1` records are written. The loop
over a circle tests behind each record, so that every circle gives one. The records follow the
physical address of the first byte of the buffer.
-/

namespace RexOS.Smp

open Bits Scheduler Paging Kernel

/-- The scheduler, the names of the processes, and memory in bytes. -/
structure Listing where
  kernel : Kernel
  names : Nat → Nat → UInt8
  bytes : Nat → UInt8
  /-- Ghost: the bytes written, in order. -/
  written : List (Nat × UInt8)

/-- The variables `pif` and `idx`. -/
structure Cursor where
  pif : Nat
  idx : Nat

/-- Bytes, each with the address it is written to. -/
def writes (d : Nat → Nat) (xs : List UInt8) : List (Nat × UInt8) := xs.mapIdx fun k x => (d k, x)

/-- The cursor behind one record. -/
def Cursor.next (c : Cursor) : Cursor := ⟨wrap (c.pif + 56), c.idx + 1⟩

namespace Listing

variable (s : Listing) (h : Nat)

/-- Memory in words. -/
def words (addr : Nat) : Nat := Bytes.load s.bytes addr 8

def withKernel (k : Kernel) : Listing := { s with kernel := k }

/-- A store of `n` bytes. -/
def store (addr x n : Nat) : Listing :=
  { s with
    bytes := Bytes.store s.bytes addr x n
    written := s.written ++ writes (fun k => wrap (addr + k)) (Bytes.word x n) }

/-- The loop that copies a name. -/
def putName (addr ptr n : Nat) : Listing :=
  (List.range n).foldl (fun s i => s.store (wrap (addr + i)) (s.names ptr i).toNat 1) s

/-- The stores into a `struct process_info`. -/
@[irreducible] def putInfo (pif ptr : Nat) : Listing :=
  let p := s.kernel.procs ptr
  let s := s.store pif p.pid 8
  let s := s.store (wrap (pif + 8)) p.parentPid 8
  let s := s.store (wrap (pif + 16)) (Traps.stateCode p.state) 4
  let s := s.store (wrap (pif + 20)) p.priority 4
  let s := s.store (wrap (pif + 24)) p.cpuTime 8
  s.putName (wrap (pif + 32)) ptr 24

/-- The loop over circle `head` of hart `j`. -/
def listCircle (j target head : Nat) : Nat → Nat → Cursor → Listing → Outcome Listing Cursor
  | 0, _, _, s => .spin s
  | n + 1, ptr, c, s =>
    if (s.kernel.procs ptr).pid = 0 ∧ j ≠ 0 then
      -- `continue` tests the condition with the same `ptr`
      if ptr ≠ head ∧ c.idx < target then listCircle j target head n ptr c s else .done c s
    else
      let s := s.putInfo c.pif ptr
      let ptr := (s.kernel.procs ptr).next
      if ptr ≠ head ∧ c.next.idx < target then listCircle j target head n ptr c.next s
      else .done c.next s

/-- The loop over the circles of a hart. -/
def listCircles (j target : Nat) : List Nat → Cursor → Listing → Outcome Listing Cursor
  | [], c, s => .done c s
  | i :: is, c, s =>
    if (s.kernel.queues j).lookupBitmap.testBit i then
      let head := (s.kernel.queues j).activeProcessCircles i
      (listCircle j target head (s.kernel.existing.length + 1) head c s).bind
        (listCircles j target is)
    else listCircles j target is c s

/-- The loop over the harts. -/
def listHarts (target : Nat) : List Nat → Cursor → Listing → Outcome Listing Cursor
  | [], c, s => .done c s
  | j :: js, c, s =>
    if s.kernel.started j then
      (listCircles j target (List.range 32) c s).bind (listHarts target js)
    else listHarts target js c s

/-- The loop over a list. -/
def listWaiting (target : Nat) : Nat → Nat → Cursor → Listing → Outcome Listing Cursor
  | 0, _, _, s => .spin s
  | n + 1, ptr, c, s =>
    if ptr ≠ 0 ∧ c.idx < target then
      let s := s.putInfo c.pif ptr
      listWaiting target n (s.kernel.procs ptr).next c.next s
    else .done c s

/-- The loops over the lists. -/
def listLists (target : Nat) : List WaitList → Cursor → Listing → Outcome Listing Cursor
  | [], c, s => .done c s
  | w :: ws, c, s =>
    (listWaiting target (s.kernel.existing.length + 1) (s.kernel.heads w) c s).bind
      (listLists target ws)

/-- The calling process. -/
def caller : Process := s.kernel.procs (s.kernel.curr h)

def a0 : Nat := (s.caller h).tf.uContext 10

def a1 : Nat := (s.caller h).tf.uContext 11

/-- The physical address of the first byte of the buffer, or 0. -/
def physAddr : Nat := uvmTranslate s.words (s.caller h).satp (s.a0 h)

/-- Case 13. -/
def listProcesses : Outcome Listing Unit :=
  if s.physAddr h = 0 then (s.kernel.exitProcess h Ipc.minusOne).within s.withKernel
  else if s.a1 h = 0 then .done () (s.withKernel (s.kernel.reply h Ipc.minusOne))
  else
    (listHarts (s.a1 h) (List.range s.kernel.hart) ⟨s.physAddr h, 0⟩ s).bind fun c t =>
      (listLists (s.a1 h) [.blocked, .blockedIpc, .sleeping, .blockedIpcSend, .zombie] c t).bind
        fun c t => .done () (t.withKernel (t.kernel.reply h c.idx))

/-! ## What it should do -/

/-- The processes of a place that are listed. -/
def shown (k : Kernel) (v : Place → List Nat) : Place → List Nat
  | .circle j i => (v (.circle j i)).filter fun a => ¬ ((k.procs a).pid = 0 ∧ j ≠ 0)
  | .wait w => v (.wait w)

/-- The circles in the order in which they are listed. -/
def circles (k : Kernel) (v : Place → List Nat) : List (List Nat) :=
  (List.range k.hart).flatMap fun j => (List.range 32).map fun i => shown k v (.circle j i)

/-- The circles before the last one with a process to list. -/
def earlier (k : Kernel) (v : Place → List Nat) : List (List Nat) :=
  ((circles k v).filter (· ≠ [])).dropLast

/-- The lists in this order. -/
def chains (v : Place → List Nat) : List (List Nat) :=
  [.blocked, .blockedIpc, .sleeping, .blockedIpcSend, .zombie].map fun w => v (.wait w)

/-- The processes there are, with the idle process of hart 0 and none of the others. -/
def processes : List Nat :=
  s.kernel.existing.filter fun a => (s.kernel.procs a).pid ≠ 0 ∨ a = (s.kernel.queues 0).idleProcess

/-- Memory after bytes have been written one after the other. -/
def write (ws : List (Nat × UInt8)) : Listing :=
  { s with
    bytes := ws.foldl (fun m w => Function.update m w.1 w.2) s.bytes
    written := s.written ++ ws }

/-- The 56 bytes that show a process. -/
def record (a : Nat) : List UInt8 :=
  let p := s.kernel.procs a
  Bytes.word p.pid 8 ++ (Bytes.word p.parentPid 8 ++ (Bytes.word (Traps.stateCode p.state) 4 ++
    (Bytes.word p.priority 4 ++ (Bytes.word p.cpuTime 8 ++ (List.range 24).map (s.names a)))))

/-- The user may write the `a1` records of the buffer; byte `k` lies at `d k` in memory. -/
def Writable (d : Nat → Nat) : Prop :=
  ∀ k < 56 * s.a1 h, ∃ flags, sv39 s.words (satpTable (s.caller h).satp) (wrap (s.a0 h + k)) =
    some ⟨d k, flags⟩ ∧ flags.testBit 4 = true ∧ flags.testBit 2 = true

/-- The number of processes that the caller asks for and that there are. -/
def due : Nat := min (s.a1 h) s.processes.length

/-- The call leaves the records of the processes `l` in the buffer, and touches nothing else. -/
structure Listed (d : Nat → Nat) (l : List Nat) (s' : Listing) : Prop where
  value : (s'.caller h).tf.uContext 10 = s.due h
  length : l.length = s.due h
  written : s'.written = s.written ++ writes d (l.flatMap s.record)
  bytes : s'.bytes = (s.write (writes d (l.flatMap s.record))).bytes
  process : ∀ a ∈ l, a ∈ s.processes
  once : l.Nodup
  all : s.processes.length ≤ s.a1 h → ∀ a ∈ s.processes, a ∈ l

/-- Where this holds: the limit is not reached before the last circle, the kernel finds the first
byte of the buffer, and a page of it that is written lies in memory where the page before it
ends. -/
structure Fits (v : Place → List Nat) (d : Nat → Nat) : Prop where
  early : (earlier s.kernel v).flatten.length < s.a1 h
  found : s.physAddr h = d 0
  nonzero : d 0 ≠ 0
  row : ∀ k < 56 * s.due h, wrap (s.a0 h + k) % 4096 = 0 → d k = wrap (d 0 + k)

/-- The call comes to an end and lists as many processes as it should. -/
def Lists (d : Nat → Nat) : Prop :=
  ∃ l s', s.listProcesses h = .done () s' ∧ s.Listed h d l s'

end Listing

/-! ## What is written -/

variable {d e : Nat → Nat} {xs ys : List UInt8} {s : Listing} {c : Cursor} {a n : Nat}
  {l r : List Nat}

/-- The stores for two strings, one behind the other. -/
theorem writes_append (d : Nat → Nat) (xs ys : List UInt8) :
    writes d (xs ++ ys) = writes d xs ++ writes (fun k => d (xs.length + k)) ys := by
  unfold writes
  rw [List.mapIdx_append]
  congr 2
  funext k x
  rw [Nat.add_comm]

/-- The bytes written and where are known from what is recorded. -/
theorem writes_eq_iff : writes d xs = writes e ys ↔ xs = ys ∧ ∀ k < xs.length, d k = e k := by
  have hbytes : ∀ (d : Nat → Nat) (xs : List UInt8), (writes d xs).map Prod.snd = xs := by
    intro d xs
    apply List.ext_getElem?
    intro i
    rw [List.getElem?_map, writes, List.getElem?_mapIdx, Option.map_map]
    exact congrFun Option.map_id _
  constructor
  · intro h
    obtain rfl : xs = ys := by rw [← hbytes d xs, h, hbytes]
    refine ⟨rfl, fun k hk => ?_⟩
    exact congrArg Prod.fst (List.mapIdx_eq_mapIdx_iff.mp h k hk)
  · rintro ⟨rfl, h⟩
    exact List.mapIdx_eq_mapIdx_iff.mpr fun k hk => congrArg (·, xs[k]) (h k hk)

/-- The second string is stored behind the first one. -/
theorem writes_shift (addr n : Nat) (xs : List UInt8) :
    writes (fun k => wrap (wrap (addr + n) + k)) xs =
      writes (fun k => wrap (addr + (n + k))) xs := by
  refine writes_eq_iff.mpr ⟨rfl, fun k _ => ?_⟩
  unfold wrap
  omega

namespace Listing

/-- A record has 56 bytes. -/
theorem length_record (s : Listing) (a : Nat) : (s.record a).length = 56 := by
  simp [record, Bytes.word]

/-- The records of a list have 56 bytes each. -/
theorem length_records (s : Listing) (l : List Nat) :
    (l.flatMap s.record).length = 56 * l.length := by
  induction l with
  | nil => rfl
  | cons a l ih =>
    rw [List.flatMap_cons, List.length_append, length_record, ih, List.length_cons]
    omega

/-- Some stores and then some more. -/
theorem write_write (s : Listing) (ws us : List (Nat × UInt8)) :
    (s.write ws).write us = s.write (ws ++ us) := by
  unfold write
  rw [List.foldl_append, List.append_assoc]

/-- The stores do not change what will be stored. -/
theorem record_write (s : Listing) (ws : List (Nat × UInt8)) : (s.write ws).record = s.record := rfl

theorem length_word (x n : Nat) : (Bytes.word x n).length = n := by
  simp [Bytes.word]

/-- A store of a word is the stores of its bytes. -/
theorem store_eq (s : Listing) (addr x n : Nat) :
    s.store addr x n = s.write (writes (fun k => wrap (addr + k)) (Bytes.word x n)) := by
  suffices hbytes : Bytes.store s.bytes addr x n = (s.write (writes (fun k => wrap (addr + k))
      (Bytes.word x n))).bytes by
    rw [store, hbytes]
    rfl
  induction n with
  | zero => rfl
  | succ n ih =>
    have hword : Bytes.word x (n + 1) = Bytes.word x n ++ [Bytes.byteOf x n] := by
      rw [Bytes.word, List.range_succ, List.map_append]
      rfl
    rw [Bytes.store, ih, hword, writes_append, ← write_write, length_word]
    rfl

/-- The loop over the name stores its bytes. -/
theorem putName_eq (s : Listing) (addr ptr n : Nat) : s.putName addr ptr n =
    s.write (writes (fun k => wrap (addr + k)) ((List.range n).map (s.names ptr))) := by
  induction n with
  | zero => exact congrArg (Listing.mk _ _ _) (List.append_nil _).symm
  | succ n ih =>
    have hbyte : Bytes.word (s.names ptr n).toNat 1 = [s.names ptr n] := by
      simp [Bytes.word, Bytes.byteOf]
    have hlast : s.putName addr ptr (n + 1) = (s.putName addr ptr n).store (wrap (addr + n))
        ((s.putName addr ptr n).names ptr n).toNat 1 := by
      unfold putName
      rw [List.range_succ, List.foldl_append]
      rfl
    have hnames : (s.putName addr ptr n).names = s.names := by rw [ih, write]
    rw [hlast, hnames, store_eq, hbyte, ih, write_write, writes_shift, List.range_succ,
      List.map_append, writes_append, List.length_map, List.length_range]
    rfl

/-- The stores into a structure write the bytes of its record one after the other. -/
theorem putInfo_eq (s : Listing) (pif ptr : Nat) :
    s.putInfo pif ptr = s.write (writes (fun k => wrap (pif + k)) (s.record ptr)) := by
  unfold putInfo record
  simp only [store_eq, putName_eq, write_write, writes_shift, writes_append, length_word,
    List.append_assoc, ← Nat.add_assoc]
  rfl

/-- The stores go to the user, not to the kernel. -/
theorem kernel_putInfo (s : Listing) (pif ptr : Nat) : (s.putInfo pif ptr).kernel = s.kernel := by
  rw [putInfo_eq, write]

/-! ## Records in a row -/

/-- The records of processes from the cursor on. -/
def putAll (s : Listing) : Cursor → List Nat → Listing
  | _, [] => s
  | c, a :: l => (s.putInfo c.pif a).putAll c.next l

/-- What the loops do: they write records, and leave the cursor behind them. -/
def wrote (s : Listing) (c : Cursor) (l : List Nat) : Outcome Listing Cursor :=
  .done (Cursor.next^[l.length] c) (s.putAll c l)

theorem kernel_putAll (s : Listing) (c : Cursor) (l : List Nat) :
    (s.putAll c l).kernel = s.kernel := by
  induction l generalizing s c with
  | nil => rfl
  | cons a l ih => rw [putAll, ih, kernel_putInfo]

/-- The index counts the records. -/
theorem idx_iterate (c : Cursor) (n : Nat) : (Cursor.next^[n] c).idx = c.idx + n := by
  induction n with
  | zero => rfl
  | succ n ih =>
    rw [Function.iterate_succ_apply', Cursor.next, ih]
    rfl

/-- Some records and then some more. -/
theorem putAll_append (s : Listing) (c : Cursor) (l r : List Nat) :
    s.putAll c (l ++ r) = (s.putAll c l).putAll (Cursor.next^[l.length] c) r := by
  induction l generalizing s c with
  | nil => rfl
  | cons a l ih => exact ih _ _

/-- The records are stored one behind the other. -/
theorem putAll_eq (s : Listing) (c : Cursor) (l : List Nat) :
    s.putAll c l = s.write (writes (fun k => wrap (c.pif + k)) (l.flatMap s.record)) := by
  induction l generalizing s c with
  | nil => exact congrArg (Listing.mk _ _ _) (List.append_nil _).symm
  | cons a l ih =>
    rw [putAll, ih, putInfo_eq, record_write, write_write, List.flatMap_cons,
      writes_append, length_record, Cursor.next, writes_shift]

/-- A loop behind another one. -/
theorem wrote_bind {f : Cursor → Listing → Outcome Listing Cursor}
    (h : f (Cursor.next^[l.length] c) (s.putAll c l) =
      wrote (s.putAll c l) (Cursor.next^[l.length] c) r) :
    (s.wrote c l).bind f = s.wrote c (l ++ r) := by
  rw [wrote, Outcome.bind_done, h, wrote, wrote, putAll_append, List.length_append, Nat.add_comm,
    Function.iterate_add_apply]

/-! ## The loops -/

variable {k : Kernel} {v : Place → List Nat} {j i target head ptr p : Nat}

/-- From a process of a circle on, the loop writes one record and goes on as far as the limit
allows. -/
theorem listCircle_eq (hk : s.kernel = k) (hc : (ptr :: r).IsChain fun a b => k.next a = b)
    (hlast : k.next (r.getLast?.getD ptr) = head) (hhead : head ∉ r) (hn : r.length < n)
    (hshow : ∀ a ∈ ptr :: r, ¬ ((k.procs a).pid = 0 ∧ j ≠ 0)) :
    listCircle j target head n ptr c s = s.wrote c ((ptr :: r).take (max 1 (target - c.idx))) := by
  induction r generalizing s c ptr n with
  | nil =>
    cases n with
    | zero => exact absurd hn (Nat.not_lt_zero _)
    | succ n =>
      have hnext : ((s.putInfo c.pif ptr).kernel.procs ptr).next = head := by
        rw [kernel_putInfo, hk]
        exact hlast
      have hone : [ptr].take (max 1 (target - c.idx)) = [ptr] :=
        List.take_of_length_le (Nat.le_max_left 1 _)
      rw [listCircle, hk, if_neg (hshow ptr List.mem_cons_self), hone]
      dsimp only
      rw [hnext, if_neg fun h => h.1 rfl]
      rfl
  | cons x r ih =>
    cases n with
    | zero => exact absurd hn (Nat.not_lt_zero _)
    | succ n =>
      rw [List.isChain_cons_cons] at hc
      have hnext : ((s.putInfo c.pif ptr).kernel.procs ptr).next = x := by
        rw [kernel_putInfo, hk]
        exact hc.1
      have hxh : x ≠ head := fun he => hhead (he ▸ List.mem_cons_self)
      rw [List.getLast?_cons, Option.getD_some] at hlast
      rw [listCircle, hk, if_neg (hshow ptr List.mem_cons_self)]
      dsimp only
      rw [hnext]
      by_cases hlt : c.next.idx < target
      · have hrest := ih (s := s.putInfo c.pif ptr) (c := c.next) (n := n)
          ((kernel_putInfo s c.pif ptr).trans hk) hc.2 hlast
            (fun hm => hhead (List.mem_cons_of_mem _ hm))
          (Nat.lt_of_succ_lt_succ hn) fun a ha => hshow a (List.mem_cons_of_mem _ ha)
        have hidx : c.next.idx = c.idx + 1 := rfl
        have hmax : max 1 (target - c.idx) = max 1 (target - c.next.idx) + 1 := by omega
        rw [if_pos ⟨hxh, hlt⟩, hrest, hmax, List.take_succ_cons]
        rfl
      · have hidx : c.next.idx = c.idx + 1 := rfl
        have hmax : max 1 (target - c.idx) = 1 := by omega
        rw [if_neg fun h => hlt h.2, hmax]
        rfl

/-- The loop over a list tests the limit first. -/
theorem listWaiting_eq (hk : s.kernel = k) (hseg : Dll.Seg k.next k.prev 0 p ptr r)
    (hn : r.length < n) :
    listWaiting target n ptr c s = s.wrote c (r.take (target - c.idx)) := by
  induction r generalizing s c p ptr n with
  | nil =>
    cases n with
    | zero => exact absurd hn (Nat.not_lt_zero _)
    | succ n =>
      have h0 : ptr = 0 := hseg
      rw [listWaiting, if_neg fun h => h.1 h0, List.take_nil]
      rfl
  | cons x r ih =>
    obtain ⟨rfl, hne, _, htail⟩ := hseg
    cases n with
    | zero => exact absurd hn (Nat.not_lt_zero _)
    | succ n =>
      rw [listWaiting]
      dsimp only
      by_cases hlt : c.idx < target
      · have hnext : ((s.putInfo c.pif ptr).kernel.procs ptr).next = k.next ptr := by
          rw [kernel_putInfo, hk]
          rfl
        have hrest := ih (s := s.putInfo c.pif ptr) (c := c.next) (n := n)
          ((kernel_putInfo s c.pif ptr).trans hk) htail (Nat.lt_of_succ_lt_succ hn)
        have hidx : c.next.idx = c.idx + 1 := rfl
        have htake : target - c.idx = target - c.next.idx + 1 := by omega
        rw [if_pos ⟨hne, hlt⟩, hnext, hrest, htake, List.take_succ_cons]
        rfl
      · have hzero : target - c.idx = 0 := by omega
        rw [if_neg fun h => hlt h.2, hzero, List.take_zero]
        rfl

/-- An idle process is alone on its circle. -/
theorem idle_alone (hs : Settled k v) (ha : a ∈ v (.circle j i)) (hpid : (k.procs a).pid = 0) :
    v (.circle j i) = [a] := by
  have hup := (hs.valid.circle ha).1
  have hidle : a = (k.queues j).idleProcess := hs.valid.idles ha hpid
  have hlast := hs.idle_circle hup
  rw [← hidle] at hlast
  have hplace := hs.threaded.apart _ _ a ha (hlast ▸ List.mem_singleton_self a)
  rw [hplace, hlast]

/-- The loops over the circles of a hart list what is shown of each. -/
theorem listCircles_eq {is : List Nat} (hs : Settled k v) (hk : s.kernel = k)
    (his : ∀ i ∈ is, i < 32) :
    listCircles j target is c s =
      s.wrote c (Quota.read 1 target c.idx (is.map fun i => shown k v (.circle j i))) := by
  induction is generalizing s c with
  | nil => rfl
  | cons i is ih =>
    have hrest : ∀ i ∈ is, i < 32 := fun i hi => his i (List.mem_cons_of_mem _ hi)
    have hbits := hs.threaded.bits j i (his i List.mem_cons_self)
    rw [listCircles, hk, List.map_cons]
    cases hv : v (.circle j i) with
    | nil =>
      have hbit : ¬ (k.queues j).lookupBitmap.testBit i = true := fun hb => hbits.mp hb hv
      have hshown : shown k v (.circle j i) = [] := by
        rw [shown, hv]
        rfl
      rw [if_neg hbit, ih hk hrest, hshown, Quota.read_empty]
    | cons y zs =>
      have hbit : (k.queues j).lookupBitmap.testBit i = true :=
        hbits.mpr (hv ▸ List.cons_ne_nil y zs)
      have hmem : ∀ a ∈ y :: zs, a ∈ v (.circle j i) := fun a ha => hv ▸ ha
      have hfirst : (k.queues j).activeProcessCircles i = y := by
        have hf := hs.threaded.first_circle j i
        rw [hv] at hf
        exact hf
      rw [if_pos hbit]
      dsimp only
      rw [hfirst]
      by_cases hidle : (k.procs y).pid = 0 ∧ j ≠ 0
      · have hlone := idle_alone hs (hmem y List.mem_cons_self) hidle.1
        have hshown : shown k v (.circle j i) = [] := by
          rw [shown, hlone]
          simp [hidle]
        rw [listCircle, hk, if_pos hidle, if_neg fun h => h.1 rfl, Outcome.bind_done, ih hk hrest,
          hshown, Quota.read_empty]
      · have hall : ∀ a ∈ y :: zs, ¬ ((k.procs a).pid = 0 ∧ j ≠ 0) := by
          rintro a ha ⟨hpid, hj⟩
          have hlone := idle_alone hs (hmem a ha) hpid
          rw [hv] at hlone
          exact hidle ⟨(List.cons.inj hlone).1 ▸ hpid, hj⟩
        have hshown : shown k v (.circle j i) = y :: zs := by
          rw [shown, hv]
          exact List.filter_eq_self.mpr fun a ha => decide_eq_true (hall a ha)
        have hw : Wheel k.next k.prev (y :: zs) := hv ▸ hs.threaded.wheel j i
        have hlen := hs.length_le (.circle j i)
        rw [hv, List.length_cons] at hlen
        rw [listCircle_eq hk (hw.inner.imp fun _ _ h => h.1) hw.next_last
          (List.nodup_cons.mp hw.nodup).1 (by omega) hall, hshown, Quota.read_cons]
        apply wrote_bind
        rw [ih ((kernel_putAll _ _ _).trans hk) hrest, idx_iterate]

/-- The loops over the harts list their circles. -/
theorem listHarts_eq (hs : Settled k v) (hk : s.kernel = k) (js : List Nat) :
    listHarts target js c s = s.wrote c (Quota.read 1 target c.idx
      (js.flatMap fun j => (List.range 32).map fun i => shown k v (.circle j i))) := by
  induction js generalizing s c with
  | nil => rfl
  | cons j js ih =>
    rw [listHarts, hk, List.flatMap_cons, Quota.read_append]
    by_cases hj : k.started j = true
    · rw [if_pos hj, listCircles_eq hs hk fun i hi => List.mem_range.mp hi]
      apply wrote_bind
      rw [ih ((kernel_putAll _ _ _).trans hk), idx_iterate]
    · have hnone : ∀ xs ∈ (List.range 32).map fun i => shown k v (.circle j i), xs = [] := by
        intro xs hxs
        obtain ⟨i, -, rfl⟩ := List.mem_map.mp hxs
        rw [shown, hs.circle_nil (Bool.eq_false_iff.mpr hj)]
        rfl
      rw [if_neg hj, ih hk, Quota.read_eq_nil hnone]
      rfl

/-- The loops over the wait lists list them, and may be one record late. -/
theorem listLists_eq (hs : Settled k v) (hk : s.kernel = k) (ws : List WaitList) :
    listLists target ws c s =
      s.wrote c (Quota.read 0 target c.idx (ws.map fun w => v (.wait w))) := by
  induction ws generalizing s c with
  | nil => rfl
  | cons w ws ih =>
    have hwait : listWaiting target (k.existing.length + 1) (k.heads w) c s =
        s.wrote c ((v (.wait w)).take (target - c.idx)) :=
      listWaiting_eq hk (hs.threaded.dll w).seg (Nat.lt_succ_of_le (hs.length_le (.wait w)))
    rw [listLists, hk, List.map_cons, Quota.read_cons, Nat.zero_max, hwait]
    apply wrote_bind
    rw [ih ((kernel_putAll _ _ _).trans hk), idx_iterate]

/-! ## The call -/

/-- The processes that the call lists. -/
def visited (k : Kernel) (v : Place → List Nat) (target : Nat) : List Nat :=
  Quota.read 1 target 0 (circles k v) ++
    Quota.read 0 target (Quota.read 1 target 0 (circles k v)).length (chains v)

/-- All processes that the loops come by. -/
def everyone (k : Kernel) (v : Place → List Nat) : List Nat := (circles k v).flatten ++
    (chains v).flatten

/-- So the whole call stores the records of what it visits, and returns their number. -/
theorem listProcesses_eq {h : Nat} (hs : Settled s.kernel v) (hphys : s.physAddr h ≠ 0)
    (ha : s.a1 h ≠ 0) :
    s.listProcesses h = .done ()
      ((s.putAll ⟨s.physAddr h, 0⟩ (visited s.kernel v (s.a1 h))).withKernel
        (s.kernel.reply h (visited s.kernel v (s.a1 h)).length)) := by
  let c : Cursor := ⟨s.physAddr h, 0⟩
  let l := Quota.read 1 (s.a1 h) 0 (circles s.kernel v)
  let r := Quota.read 0 (s.a1 h) l.length (chains v)
  have hidx : (Cursor.next^[l.length] c).idx = l.length := by
    rw [idx_iterate]
    exact Nat.zero_add _
  have hharts : listHarts (s.a1 h) (List.range s.kernel.hart) c s = s.wrote c l :=
    listHarts_eq hs rfl _
  have hlists : listLists (s.a1 h) [.blocked, .blockedIpc, .sleeping, .blockedIpcSend, .zombie]
      (Cursor.next^[l.length] c) (s.putAll c l) =
      (s.putAll c l).wrote (Cursor.next^[l.length] c) r := by
    rw [listLists_eq hs (kernel_putAll s c l), hidx]
    rfl
  rw [listProcesses, if_neg hphys, if_neg ha, hharts, wrote, Outcome.bind_done, hlists, wrote,
    Outcome.bind_done, ← putAll_append, kernel_putAll, idx_iterate, hidx, ← List.length_append]
  rfl

/-- With fewer processes before the last list the buffer is not overrun. -/
theorem visited_of_lt (h : (earlier k v).flatten.length < target) :
    visited k v target = (everyone k v).take target := by
  have hflat : ((circles k v).filter (· ≠ [])).flatten = (circles k v).flatten :=
    List.flatten_filter_ne_nil
  have hread : Quota.read 1 target 0 (circles k v) = (circles k v).flatten.take target := by
    rw [← Quota.read_filter, Quota.read_of_lt le_rfl (by rw [Nat.zero_add]; exact h),
      hflat, Nat.sub_zero]
  have hrest : target - min target (circles k v).flatten.length =
      target - (circles k v).flatten.length := by
    omega
  rw [visited, hread, Quota.read_zero, List.length_take, hrest, everyone, List.take_append]

/-- Otherwise one record too many is stored. -/
theorem lt_length_visited (hpos : 0 < target) (h : target ≤ (earlier k v).flatten.length) :
    target < (visited k v target).length := by
  have hne : (circles k v).filter (· ≠ []) ≠ [] := by
    intro he
    rw [earlier, he] at h
    exact absurd (Nat.lt_of_lt_of_le hpos h) (Nat.lt_irrefl 0)
  have hall : ∀ xs ∈ (circles k v).filter (· ≠ []), xs ≠ [] := fun xs hxs =>
    of_decide_eq_true (List.mem_filter.mp hxs).2
  have hread : target < 0 + (Quota.read 1 target 0 ((circles k v).filter (· ≠ []))).length :=
    Quota.lt_length_read hall hne (by rw [Nat.zero_add]; exact h)
  rw [Quota.read_filter, Nat.zero_add] at hread
  rw [visited, List.length_append]
  exact Nat.lt_of_lt_of_le hread (Nat.le_add_right _ _)

/-- The places in the order in which the loops come by them. -/
def places (k : Kernel) : List Place :=
  ((List.range k.hart).flatMap fun j => (List.range 32).map (Place.circle j)) ++
    [.blocked, .blockedIpc, .sleeping, .blockedIpcSend, .zombie].map Place.wait

/-- Everyone is what is shown of all places. -/
theorem everyone_eq (k : Kernel) (v : Place → List Nat) :
    everyone k v = (places k).flatMap (shown k v) := by
  have hcircles : circles k v =
      ((List.range k.hart).flatMap fun j => (List.range 32).map (Place.circle j)).map
        (shown k v) := by
    simp only [List.map_flatMap, List.map_map]
    rfl
  rw [everyone, hcircles, ← List.flatMap_def, places, List.flatMap_append]
  rfl

/-- No place is listed twice. -/
theorem places_nodup (k : Kernel) : (places k).Nodup := by
  have hcircle :
      ((List.range k.hart).flatMap fun j => (List.range 32).map (Place.circle j)).Nodup := by
    refine List.nodup_flatMap.mpr ⟨fun j _ => ?_, ?_⟩
    · exact List.nodup_range.map fun i i' he => (Place.circle.inj he).2
    · refine List.nodup_range.imp fun hne => ?_
      intro p hp hq
      obtain ⟨i, -, rfl⟩ := List.mem_map.mp hp
      obtain ⟨i', -, he⟩ := List.mem_map.mp hq
      exact hne (Place.circle.inj he).1.symm
  refine List.nodup_append.mpr ⟨hcircle, by decide, ?_⟩
  rintro p hp q hq rfl
  obtain ⟨j, -, hj⟩ := List.mem_flatMap.mp hp
  obtain ⟨i, -, rfl⟩ := List.mem_map.mp hj
  obtain ⟨w, -, he⟩ := List.mem_map.mp hq
  exact absurd he (by simp)

/-- Of a place only its members are shown. -/
theorem shown_sublist (k : Kernel) (v : Place → List Nat) (q : Place) :
    (shown k v q).Sublist (v q) := by
  cases q with
  | circle j i => exact List.filter_sublist
  | wait w => exact List.Sublist.refl _

/-- Nobody is listed twice. -/
theorem everyone_nodup (hs : Settled k v) : (everyone k v).Nodup := by
  rw [everyone_eq]
  refine List.nodup_flatMap.mpr ⟨fun q _ => ?_, (places_nodup k).imp fun {p q} hne => ?_⟩
  · exact (hs.threaded.linked q).nodup.sublist (shown_sublist k v q)
  · intro a hp hq
    exact hne
      (hs.threaded.apart p q a ((shown_sublist k v p).subset hp) ((shown_sublist k v q).subset hq))

/-- Everyone but the idle processes is listed. -/
theorem mem_everyone (hs : Settled s.kernel v) (h0 : s.kernel.started 0 = true) :
    a ∈ everyone s.kernel v ↔ a ∈ s.processes := by
  obtain ⟨hfirst, hpid⟩ := hs.valid.idle h0
  rw [everyone_eq, List.mem_flatMap, processes, List.mem_filter, decide_eq_true_iff]
  constructor
  · rintro ⟨q, -, hq⟩
    have hv := (shown_sublist s.kernel v q).subset hq
    refine ⟨hs.mem_existing hv, ?_⟩
    cases q with
    | circle j i =>
      have hno := of_decide_eq_true (List.mem_filter.mp hq).2
      by_contra hc
      obtain ⟨hp, hne⟩ := not_or.mp hc
      have hp := not_not.mp hp
      have hj : j = 0 := by
        by_contra hj
        exact hno ⟨hp, hj⟩
      subst hj
      exact hne (hs.valid.idles hv hp)
    | wait w => exact Or.inl (hs.valid.wait hv).2
  · rintro ⟨hex, hcase⟩
    obtain ⟨q, hq⟩ := (hs.mem a).mp hex
    refine ⟨q, ?_, ?_⟩
    · cases q with
      | circle j i =>
        have hj := hs.range j (hs.valid.circle hq).1
        refine List.mem_append_left _ (List.mem_flatMap.mpr ⟨j, List.mem_range.mpr hj, ?_⟩)
        exact List.mem_map_of_mem (List.mem_range.mpr (hs.threaded.lt_of_mem hq))
      | wait w =>
        refine List.mem_append_right _ (List.mem_map_of_mem ?_)
        cases w <;> decide
    · cases q with
      | circle j i =>
        refine List.mem_filter.mpr ⟨hq, decide_eq_true ?_⟩
        rintro ⟨hp, hj⟩
        rcases hcase with hne | rfl
        · exact hne hp
        · exact hj (Place.circle.inj (hs.threaded.apart _ _ _ hq hfirst)).1
      | wait w => exact hq

/-- So the list is the processes, in some order. -/
theorem everyone_perm (hs : Settled s.kernel v) (h0 : s.kernel.started 0 = true) :
    (everyone s.kernel v).Perm s.processes :=
  (List.perm_ext_iff_of_nodup (everyone_nodup hs) (hs.nodup.filter _)).mpr fun _ =>
    mem_everyone hs h0

/-! ## What the call leaves -/

variable {h : Nat} {s' : Listing}

/-- Hart 0 has its idle process, so there is something to list. -/
theorem due_pos (hs : Settled s.kernel v) (h0 : s.kernel.started 0 = true) (ha : 1 ≤ s.a1 h) :
    0 < s.due h := by
  obtain ⟨hidle, -⟩ := hs.valid.idle h0
  have hmem : (s.kernel.queues 0).idleProcess ∈ s.processes :=
    List.mem_filter.mpr ⟨hs.mem_existing hidle, decide_eq_true (Or.inr rfl)⟩
  exact lt_min ha (List.length_pos_of_mem hmem)

/-- A byte of the buffer lies behind the one before it, if no page begins there. -/
theorem Writable.next {k : Nat} (hd : s.Writable h d) (hk : k + 1 < 56 * s.a1 h)
    (hin : wrap (s.a0 h + (k + 1)) % 4096 ≠ 0) : d (k + 1) = d k + 1 := by
  obtain ⟨flags, hat, -⟩ := hd k (by omega)
  obtain ⟨flags', hat', -⟩ := hd (k + 1) hk
  have hva : wrap (s.a0 h + (k + 1)) = wrap (s.a0 h + k) + 1 := by
    unfold wrap at hin ⊢
    omega
  rw [hva] at hat' hin
  have hphys : d (k + 1) + wrap (s.a0 h + k) % 4096 = d k + (wrap (s.a0 h + k) + 1) % 4096 :=
    phys_of_page (by omega) hat hat'
  omega

/-- The buffer is in physical memory. -/
theorem Writable.lt {k : Nat} (hd : s.Writable h d) (hk : k < 56 * s.a1 h) : d k < 2 ^ 56 := by
  obtain ⟨flags, hat, -⟩ := hd k hk
  exact phys_lt_of_sv39 hat

/-- Where every page follows the one before, so does every byte. -/
theorem Fits.row_all (hf : s.Fits h v d) (hd : s.Writable h d) {k : Nat} (hk : k < 56 * s.due h) :
    d k = wrap (d 0 + k) := by
  have hle : s.due h ≤ s.a1 h := min_le_left _ _
  induction k with
  | zero =>
    have h0 := hd.lt (k := 0) (by omega)
    rw [Nat.add_zero, wrap_of_lt (by omega)]
  | succ k ih =>
    by_cases hin : wrap (s.a0 h + (k + 1)) % 4096 = 0
    · exact hf.row (k + 1) hk hin
    · have hbefore := ih (by omega)
      have hlt := hd.lt (k := k + 1) (by omega)
      have hnext := hd.next (by omega) hin
      unfold wrap at hbefore ⊢
      omega

/-- Where the limit holds, the call lists as it should if its writes go to the buffer. -/
theorem Fits.listed (hf : s.Fits h v d) (hs : Settled s.kernel v) (h0 : s.kernel.started 0 = true)
    (hd : s.Writable h d) (ha : 1 ≤ s.a1 h) : s.Lists h d := by
  have hperm := everyone_perm hs h0
  have hvisited := visited_of_lt hf.early
  have hlen : (visited s.kernel v (s.a1 h)).length = s.due h := by
    rw [hvisited, List.length_take, hperm.length_eq]
    rfl
  have hphys : s.physAddr h ≠ 0 := hf.found ▸ hf.nonzero
  have hput : s.putAll ⟨s.physAddr h, 0⟩ (visited s.kernel v (s.a1 h)) =
      s.write (writes d ((visited s.kernel v (s.a1 h)).flatMap s.record)) := by
    rw [putAll_eq]
    refine congrArg s.write (writes_eq_iff.mpr ⟨rfl, fun k hk => ?_⟩)
    rw [length_records, hlen] at hk
    rw [hf.row_all hd hk, ← hf.found]
  refine ⟨_, _, listProcesses_eq hs hphys (Nat.one_le_iff_ne_zero.mp ha), ?_, hlen,
    ?_, ?_, ?_, ?_, ?_⟩
  · rw [← hlen]
    exact a0_reply _ _ _
  · have hwritten := congrArg Listing.written hput
    exact hwritten
  · have hbytes := congrArg Listing.bytes hput
    exact hbytes
  · intro a hl
    rw [hvisited] at hl
    exact hperm.mem_iff.mp (List.mem_of_mem_take hl)
  · rw [hvisited]
    exact (everyone_nodup hs).sublist (List.take_sublist _ _)
  · intro hall a hin
    rw [hvisited, List.take_of_length_le (hperm.length_eq ▸ hall)]
    exact hperm.mem_iff.mpr hin

/-- A call without a buffer writes nothing. -/
theorem written_of_zero (hphys : s.physAddr h = 0) (hrun : s.listProcesses h = .done () s') :
    s'.written = s.written := by
  rw [listProcesses, if_pos hphys] at hrun
  obtain ⟨k, -, rfl⟩ := Outcome.within_eq_done.mp hrun
  rfl

/-- The call lists as it should exactly where the circles before the last one leave room for it, and
the buffer is one piece of memory that the kernel finds. -/
theorem lists_iff (hs : Settled s.kernel v) (h0 : s.kernel.started 0 = true)
    (hd : s.Writable h d) (ha : 1 ≤ s.a1 h) : s.Lists h d ↔ s.Fits h v d := by
  refine ⟨?_, fun hf => hf.listed hs h0 hd ha⟩
  rintro ⟨l, s', hrun, hl⟩
  have hdue := due_pos hs h0 ha
  have hbytes : (l.flatMap s.record).length = 56 * s.due h := by rw [length_records, hl.length]
  have hphys : s.physAddr h ≠ 0 := by
    intro hzero
    have hw := hl.written
    rw [written_of_zero hzero hrun] at hw
    have hnone : l.flatMap s.record = [] :=
      List.mapIdx_eq_nil_iff.mp (List.self_eq_append_right.mp hw)
    rw [hnone, List.length_nil] at hbytes
    omega
  have hrun' := listProcesses_eq hs hphys (Nat.one_le_iff_ne_zero.mp ha)
  obtain rfl : _ = s' := (Outcome.done.inj (hrun'.symm.trans hrun)).2
  have hw := (congrArg Listing.written (putAll_eq s ⟨s.physAddr h, 0⟩ _)).symm.trans hl.written
  obtain ⟨hrecords, hat⟩ := writes_eq_iff.mp (List.append_cancel_left hw)
  have hlen : (visited s.kernel v (s.a1 h)).length = s.due h := by
    rw [← hrecords, length_records] at hbytes
    omega
  rw [hrecords, hbytes] at hat
  have hfound : s.physAddr h = d 0 := by
    have hfirst : wrap (s.physAddr h) = d 0 := hat 0 (by omega)
    have hlt : s.physAddr h < 2 ^ 64 := uvmTranslate_lt _ _ _
    rwa [wrap_of_lt hlt] at hfirst
  refine ⟨?_, hfound, hfound ▸ hphys, fun k hk _ => ?_⟩
  · by_contra hlate
    have hmore := lt_length_visited ha (Nat.not_lt.mp hlate)
    rw [hlen, due] at hmore
    omega
  · rw [← hfound]
    exact (hat k hk).symm

/-! ## Two harts with one user process -/

/-- A call with these arguments, where the user has three pages. -/
def calling (k : Kernel) (h a0 a1 : Nat) : Listing where
  kernel := k.modify (k.curr h) fun p =>
    { p with
      tf := { p.tf with uContext := fun i => if i = 10 then a0 else if i = 11 then a1 else 0 } }
  names := fun _ _ => 0
  bytes := Ipc.Board.tables
  written := []

/-- The call comes from a settled state. -/
theorem calling_settled (hs : Settled k v) (h a0 a1 : Nat) : Settled (calling k h a0 a1).kernel v :=
  hs.modify (k.curr h) (f := fun p => { p with tf := { p.tf with
    uContext := fun i => if i = 10 then a0 else if i = 11 then a1 else 0 } })
    (fun _ => ⟨rfl, rfl, rfl, rfl⟩) (fun _ => ⟨rfl, rfl⟩) fun _ => ⟨rfl, rfl⟩

/-- Hart 0 is up, there are two processes to list, and a user process gets two if it asks for
`a1`. -/
def Asked (s : Listing) (a1 : Nat) : Prop :=
  s.kernel.started 0 = true ∧ (s.caller 0).pid ≠ 0 ∧ (s.caller 0).satp = 0 ∧ s.a0 0 = 0x5000 ∧
    s.a1 0 = a1 ∧
    s.processes.length = 2 ∧ ((s.listProcesses 0).state.caller 0).tf.uContext 10 = 2

instance (s : Listing) (a1 : Nat) : Decidable (s.Asked a1) :=
  inferInstanceAs (Decidable (_ = true ∧ _ ≠ _ ∧ _ = _ ∧ _ = _ ∧ _ = _ ∧ _ = _ ∧ _ = _))

/-- Hart 0 runs a process that has been spawned on it, and hart 1 its idle process. -/
def listingActs : List Part :=
  [.event (.start 1 2), .event (.spawn 0 3 ⟨0, 0⟩ 16), .wait 0 127] ++ interrupt 0

/-- There are such calls. -/
theorem exists_asked (a1 : Nat) (hreach : Reaches Machine.Careful
    (fun m => (calling m.kernel 0 0x5000 a1).Asked a1) (booted emptyMemory 1 1) listingActs) :
    ∃ (s : Listing) (v : Place → List Nat), Settled s.kernel v ∧ s.Asked a1 ∧
      s.bytes = Ipc.Board.tables := by
  obtain ⟨g, m, hr, hc, hm⟩ := hreach.exists_run .careful .nil Run.Steps.nil
  obtain ⟨v, hv⟩ := steady_run (by decide) hr hc
  exact ⟨_, v, calling_settled hv.settled 0 0x5000 a1, hm, rfl⟩

/-- The buffer lies in one frame. -/
theorem asked_writable {a1 : Nat} (hm : s.Asked a1) (hbytes : s.bytes = Ipc.Board.tables)
    (ha : a1 ≤ 2) :
    s.Writable 0 (0x80200000 + ·) := by
  have hpage : ∀ k < 112, sv39 (fun x => Bytes.load Ipc.Board.tables x 8) 0 (wrap (0x5000 + k)) =
      some ⟨0x80200000 + k, 0xD7⟩ := by decide +kernel
  have hwords : s.words = fun x => Bytes.load Ipc.Board.tables x 8 := by
    funext x
    rw [words, hbytes]
  obtain ⟨-, -, hsatp, h0, h1, -⟩ := hm
  intro k hk
  rw [h1] at hk
  rw [hwords, hsatp, h0]
  exact ⟨0xD7, hpage k (by omega), by decide, by decide⟩

/-- A caller that asks for two processes gets both. -/
theorem lists_two : ∃ (s : Listing) (d : Nat → Nat), s.a1 0 = 2 ∧ s.processes.length = 2 ∧
    s.Lists 0 d := by
  obtain ⟨s, v, hs, hm, hbytes⟩ := exists_asked 2 (by decide +kernel)
  have hd := asked_writable hm hbytes le_rfl
  have hphys : uvmTranslate (fun x => Bytes.load Ipc.Board.tables x 8) 0 0x5000 = 0x80200000 := by
    decide +kernel
  obtain ⟨h0, -, hsatp, ha0, h1, hcount, hvalue⟩ := hm
  have hwords : s.words = fun x => Bytes.load Ipc.Board.tables x 8 := by
    funext x
    rw [words, hbytes]
  have hfound : s.physAddr 0 = 0x80200000 := by rw [physAddr, hwords, hsatp, ha0, hphys]
  have hne : s.physAddr 0 ≠ 0 := by
    rw [hfound]
    decide
  refine ⟨s, _, h1, hcount, (lists_iff hs h0 hd (by rw [h1]; decide)).mpr
    ⟨?_, hfound, by decide, ?_⟩⟩
  · -- the call has listed two
    by_contra hlate
    have hmore := lt_length_visited (by rw [h1]; decide) (Nat.not_lt.mp hlate)
    have hrun := listProcesses_eq hs hne (by rw [h1]; decide)
    rw [hrun] at hvalue
    have htwo : (visited s.kernel v (s.a1 0)).length = 2 := (a0_reply _ _ _).symm.trans hvalue
    omega
  · intro k hk _
    have hdue : s.due 0 ≤ s.a1 0 := min_le_left _ _
    unfold wrap
    omega

/-- The caller asks for one process and gets two: its own circle holds one, and so does that of the
idle process. -/
theorem lists_too_many : ∃ (s : Listing) (v : Place → List Nat) (d : Nat → Nat),
    Settled s.kernel v ∧
    s.kernel.started 0 = true ∧ (s.caller 0).pid ≠ 0 ∧ s.Writable 0 d ∧ s.a1 0 = 1 ∧
    s.processes.length = 2 ∧ ¬ s.Lists 0 d := by
  obtain ⟨s, v, hs, hm, hbytes⟩ := exists_asked 1 (by decide +kernel)
  have hd := asked_writable hm hbytes (by decide)
  obtain ⟨h0, hpid, -, -, h1, hcount, hvalue⟩ := hm
  refine ⟨s, v, _, hs, h0, hpid, hd, h1, hcount, ?_⟩
  rintro ⟨l, s', hrun, hl⟩
  have hdue : s.due 0 = 1 := by
    rw [due, h1, hcount]
    rfl
  have hone := hl.value
  rw [hrun, Outcome.state_done, hone, hdue] at hvalue
  exact absurd hvalue (by decide)

end Listing

end RexOS.Smp
