import RexOS.Scheduler.Model
import RexOS.Traps.Sharing

/-!
# Pointers of user processes

Syscalls 8, 9, 13 and 15 of `strap_router` follow a pointer of their caller. `uvm_translate` gives
a physical address for its first byte, and 0 ends the caller. There is no other check: neither
the U bit nor a right of the page is looked at, and the bytes after the first are those that
follow it in physical memory. What a call touches is recorded. It is memory that the caller may
touch itself, and a pointer that is none to such memory ends the caller, exactly when the way to
the pointer's page is not there, or its bytes are in pages for users with the right and their
frames follow one another.
-/

namespace RexOS.Traps

open Bits RexOS.Kalloc RexOS.Paging
open RexOS.Scheduler (ProcState WaitList)

/-- What the four calls read of a process. -/
structure Task extends Process where
  parentPid : Nat
  state : ProcState
  priority : Nat
  cpuTime : Nat
  /-- The 24 bytes of the name, in three words. -/
  name : Nat → Nat
  mailbox : Nat → Nat
  ipcPendingPid : Nat
  mailboxStatus : Nat

/-- A byte that a call reads or writes through a pointer, or a page that it shares. -/
inductive Access where
  | read (addr : Nat)
  | write (addr : Nat)
  | share (addr : Nat)
  deriving DecidableEq

/-- What a call leaves: a value in `a0`, a caller that is no more, or one that sleeps. -/
inductive Ending where
  | value (a0 : Nat)
  | exited
  | asleep
  deriving DecidableEq

/-- Memory, and the processes by their places: for each hart that has a queue its circles, each from
the head on, and the lists. -/
structure Host (β : Type) where
  space : Space β
  harts : List (List (List Task))
  lists : WaitList → List Task
  /-- Ghost: what the call has touched. -/
  touched : List Access

/-- The bytes that follow an address in physical memory. -/
def bytes (f : Nat → Access) (physAddr n : Nat) : List Access :=
  (List.range n).map fun k => f (wrap (physAddr + k))

/-- The number of a state. -/
def stateCode : ProcState → Nat
  | .ready => 0
  | .running => 1
  | .blocked => 2
  | .zombie => 3
  | .sleeping => 4
  | .ipcBlocked => 5
  | .sendBlocked => 6

/-- The seven words of a `struct process_info`. -/
def processInfo (t : Task) : List Nat :=
  [t.pid, t.parentPid, stateCode t.state + t.priority * 2 ^ 32, t.cpuTime, t.name 0,
    t.name 1, t.name 2]

namespace Host

variable {β : Type} (h : Host β) (hart : Nat) (curr : Task)

def touch (xs : List Access) : Host β := { h with touched := h.touched ++ xs }

/-- A process leaves its place. -/
def remove (pid : Nat) : Host β :=
  { h with
    harts := h.harts.map fun circles => circles.map fun ts => ts.filter fun t => t.pid != pid
    lists := fun w => (h.lists w).filter fun t => t.pid != pid }

/-- It comes to the head of a list. -/
def push (w : WaitList) (t : Task) : Host β :=
  { h with lists := Function.update h.lists w ({ t with state := w.state } :: h.lists w) }

/-- It comes to the end of the circle of its priority. -/
def append (t : Task) : Host β :=
  { h with harts := h.harts.modify hart fun circles => circles.modify t.priority fun ts =>
      ts ++ [{ t with state := .ready }] }

/-- A store into a process. -/
def change (pid : Nat) (f : Task → Task) : Host β :=
  let g := fun t : Task => if t.pid = pid then f t else t
  { h with
    harts := h.harts.map fun circles => circles.map fun ts => ts.map g
    lists := fun w => (h.lists w).map g }

/-- Write words one after the other. -/
def storeWords (physAddr : Nat) (ws : List Nat) : Host β :=
  { h with space := (ws.zipIdx).foldl (fun s x => s.store (wrap (physAddr + 8 * x.2)) x.1) h.space }

/-- The caller becomes a zombie, and its children on the circles of its hart and on the lists become
children of the idle process. -/
def exitProcess : Host β :=
  let h := (h.remove curr.pid).push .zombie curr
  let g := fun t : Task => if t.parentPid = curr.pid then { t with parentPid := 0 } else t
  { h with
    harts := h.harts.modify hart fun circles => circles.map fun ts => ts.map g
    lists := fun w => (h.lists w).map g }

/-- Pids are unique, so the order of the search does not matter. -/
def getProcessByPid (pid : Nat) : Option Task :=
  (h.harts.flatten.flatten ++ h.lists .blocked ++ h.lists .blockedIpc ++ h.lists .blockedIpcSend ++
    h.lists .sleeping).find? fun t => t.pid == pid

/-! ## Messages -/

/-- The caller may write to the target, and the target may read from the caller. -/
def MaySend (target : Task) : Prop :=
  curr.capabilityRoot (target.pid / 16) &&& 15 <<< (target.pid % 16 * 4) ≠ 0 ∧
    curr.capabilityRoot (target.pid / 16) &&& 2 <<< (target.pid % 16 * 4) ≠ 0 ∧
    target.capabilityRoot (curr.pid / 16) &&& 1 <<< (curr.pid % 16 * 4) ≠ 0

instance (target : Task) : Decidable (MaySend curr target) :=
  inferInstanceAs (Decidable (_ ∧ _ ∧ _))

/-- Case 8. -/
def sendMsg (a0 a1 : Nat) : Outcome (Host β) Ending :=
  let physAddr := uvmTranslate h.space.mem curr.satp a1
  if physAddr = 0 then .done .exited (h.exitProcess hart curr)
  else
    match h.getProcessByPid a0 with
    | none => .done (.value minusOne) h
    | some target =>
      if ¬ MaySend curr target then .done (.value minusOne) h
      else if target.mailboxStatus = 0 then
        let q := { target with
          mailbox := Function.update (fun i => h.space.mem (wrap (physAddr + 8 * i))) 0 curr.pid
          mailboxStatus := 1 }
        let h := h.touch (bytes .read physAddr 72)
        if target.state = .ipcBlocked then .done (.value 1) ((h.remove target.pid).append hart q)
        else .done (.value 1) (h.change target.pid fun _ => q)
      else
        .done .asleep ((h.remove curr.pid).push .blockedIpcSend
          { curr with ipcPendingPid := target.pid })

/-- Case 9. -/
def recvMsg (a0 : Nat) : Outcome (Host β) Ending :=
  let physAddr := uvmTranslate h.space.mem curr.satp a0
  if physAddr = 0 then .done .exited (h.exitProcess hart curr)
  else if curr.mailboxStatus = 0 then .done .asleep ((h.remove curr.pid).push .blockedIpc curr)
  else
    let h :=
      (h.storeWords physAddr ((List.range 9).map curr.mailbox)).touch (bytes .write physAddr 72)
    let h := h.change curr.pid fun p => { p with mailboxStatus := 0 }
    let senders := (h.lists .blockedIpcSend).filter fun t => t.ipcPendingPid == curr.pid
    .done (.value 1) (senders.foldl (fun h t => (h.remove t.pid).append hart t) h)

/-! ## The process list -/

/-- The processes of a circle from one of them on that case 13 visits: `idx` are visited already,
and the loop is left when `targetIdx` are, but never before the head. The idle process of another
hart is not listed; behind the head it would hold up the loop for ever. -/
def walkCircle (foreign : Bool) (targetIdx : Nat) : Bool → Nat → List Task → List Task × Bool
  | _, _, [] => ([], true)
  | head, idx, t :: ts =>
    if t.pid = 0 ∧ foreign then ([], head)
    else if idx + 1 < targetIdx then
      let r := walkCircle foreign targetIdx false (idx + 1) ts
      (t :: r.1, r.2)
    else ([t], true)

/-- The walks over one circle after the other; the last one is not left if it goes on for ever. -/
def walkCircles (targetIdx : Nat) : Nat → List (Bool × List Task) → List Task × Bool
  | _, [] => ([], true)
  | idx, (foreign, ts) :: cs =>
    let r := walkCircle foreign targetIdx true idx ts
    if r.2 then
      let r' := walkCircles targetIdx (idx + r.1.length) cs
      (r.1 ++ r'.1, r'.2)
    else r

/-- The processes that case 13 lists, and whether it comes to an end. -/
def walk (targetIdx : Nat) : List Task × Bool :=
  let circles := h.harts.zipIdx.flatMap fun x => x.1.map fun ts => (x.2 != 0, ts)
  let r := walkCircles targetIdx 0 circles
  if r.2 then
    (r.1 ++ (h.lists .blocked ++ h.lists .blockedIpc ++ h.lists .sleeping ++
      h.lists .blockedIpcSend ++ h.lists .zombie).take (targetIdx - r.1.length), true)
  else r

/-- The records from an address on. -/
def putRecords (physAddr : Nat) (ts : List Task) : Host β :=
  ts.zipIdx.foldl (fun h x => (h.storeWords (wrap (physAddr + 56 * x.2)) (processInfo x.1)).touch
    (bytes .write (wrap (physAddr + 56 * x.2)) 56)) h

/-- Case 13. -/
def listProcess (a0 a1 : Nat) : Outcome (Host β) Ending :=
  let physAddr := uvmTranslate h.space.mem curr.satp a0
  if physAddr = 0 then .done .exited (h.exitProcess hart curr)
  else if a1 = 0 then .done (.value minusOne) h
  else
    let r := h.walk a1
    let h := h.putRecords physAddr r.1
    if r.2 then .done (.value r.1.length) h else .spin h

/-! ## Sharing a page -/

/-- Case 15. -/
def mapSharedPage (A : PageAlloc β) (a0 a1 a2 a3 : Nat) : Outcome (Host β) Ending :=
  let physAddr := uvmTranslate h.space.mem curr.satp a1
  if physAddr = 0 then .done .exited (h.exitProcess hart curr)
  else
    match h.getProcessByPid a0 with
    | none => .done (.value minusOne) h
    | some target =>
      if curr.rightsOn target.pid &&& 4 = 0 ∧ curr.pid ≠ target.pid then .done (.value minusOne) h
      else
        let h := h.touch [.share physAddr]
        ((uvmMap A (satpTable target.satp) a2 physAddr 4096 (a3 % 2 ^ 32) h.space).within
          fun s => { h with space := s }).bind fun _ h => .done (.value 1) h

/-- A call of one of the four. -/
inductive PointerCall where
  | sendMsg (a0 a1 : Nat)
  | recvMsg (a0 : Nat)
  | listProcess (a0 a1 : Nat)
  | mapSharedPage (a0 a1 a2 a3 : Nat)

/-- The pointer that a call is given. -/
def PointerCall.pointer : PointerCall → Nat
  | .sendMsg _ a1 => a1
  | .recvMsg a0 => a0
  | .listProcess a0 _ => a0
  | .mapSharedPage _ a1 _ _ => a1

/-- The call, with nothing touched before. -/
def exec (A : PageAlloc β) : PointerCall → Outcome (Host β) Ending
  | .sendMsg a0 a1 => { h with touched := [] }.sendMsg hart curr a0 a1
  | .recvMsg a0 => { h with touched := [] }.recvMsg hart curr a0
  | .listProcess a0 a1 => { h with touched := [] }.listProcess hart curr a0 a1
  | .mapSharedPage a0 a1 a2 a3 => { h with touched := [] }.mapSharedPage hart curr A a0 a1 a2 a3

/-- The right that a call needs of the pages of its pointer, as a bit of an entry: R for what 8
reads and 15 shares, W for what 9 and 13 write. -/
def PointerCall.right : PointerCall → Nat
  | .sendMsg _ _ => 1
  | .recvMsg _ => 2
  | .listProcess _ _ => 2
  | .mapSharedPage _ _ _ _ => 1

/-- How many processes of a circle case 13 gets to see: all, or those before the idle process of
another hart. -/
def visible (circle : Bool × List Task) : Nat :=
  if circle.1 then (circle.2.takeWhile fun t => t.pid != 0).length else circle.2.length

/-- How many records there are in the end if there are `idx` now: each circle adds what is wanted
still, and one at least, as far as it has them; one that holds up the loop is the last; `rest`
processes are on the lists. -/
def recordsFrom (targetIdx rest : Nat) : Nat → List (Bool × List Task) → Nat
  | idx, [] => idx + min rest (targetIdx - idx)
  | idx, circle :: cs =>
    let idx' := idx + min (visible circle) (max 1 (targetIdx - idx))
    if 0 < visible circle ∧ visible circle < circle.2.length ∧ idx' < targetIdx then idx'
    else recordsFrom targetIdx rest idx' cs

/-- The number of records of case 13. -/
def records (targetIdx : Nat) : Nat :=
  recordsFrom targetIdx (h.lists .blocked ++ h.lists .blockedIpc ++ h.lists .sleeping ++
    h.lists .blockedIpcSend ++ h.lists .zombie).length 0
    (h.harts.zipIdx.flatMap fun x => x.1.map fun ts => (x.2 != 0, ts))

/-- How many bytes from its pointer on a call is for: a message in 8 and 9, the records in 13, and
where there are none, or only the page counts, the byte that the pointer names. -/
def span : PointerCall → Nat
  | .sendMsg _ _ => 72
  | .recvMsg _ => 72
  | .listProcess _ a1 => if a1 = 0 then 1 else max 1 (56 * h.records a1)
  | .mapSharedPage _ _ _ _ => 1

/-- The table of the caller maps all these bytes for users, with the right. -/
def Usable (c : PointerCall) : Prop :=
  ∀ k < h.span c, ∃ hit, sv39 h.space.mem curr.root (wrap (c.pointer + k)) = some hit ∧
    hit.flags.testBit 4 = true ∧ hit.flags.testBit c.right = true

/-- The table of the caller maps some page to a frame for users, with the right. -/
def UserFrame (right frame : Nat) : Prop :=
  ∃ virAddr hit, sv39 h.space.mem curr.root virAddr = some hit ∧ hit.phys / 4096 = frame ∧
    hit.flags.testBit 4 = true ∧ hit.flags.testBit right = true

/-- The caller may do the same itself. -/
def Permitted : Access → Prop
  | .read addr => h.UserFrame curr 1 (addr / 4096)
  | .write addr => h.UserFrame curr 2 (addr / 4096)
  | .share addr => h.UserFrame curr 1 (addr / 4096)

/-- A call touches only what its caller may touch, and a pointer that is not one to pages for users
with the right ends the caller and leaves memory alone. -/
def Confined (A : PageAlloc β) (c : PointerCall) : Prop :=
  (∀ x ∈ (h.exec hart curr A c).state.touched, h.Permitted curr x) ∧
    (¬ h.Usable curr c → ∃ h', h.exec hart curr A c = .done .exited h' ∧ h'.space = h.space)

/-- The entries on the way to the page of the pointer are not all valid, or they lead to physical
address 0. -/
def Missing (c : PointerCall) : Prop :=
  ∀ slot, leafSlot h.space.mem curr.satp c.pointer = some slot →
    h.space.mem slot / 1024 % 2 ^ 52 = 0 ∧ c.pointer % 4096 = 0

/-- The call is refused, or sleeps, or has nothing to list. -/
def Unused : PointerCall → Prop
  | .sendMsg a0 _ => ∀ target, h.getProcessByPid a0 = some target →
      MaySend curr target → target.mailboxStatus ≠ 0
  | .recvMsg _ => curr.mailboxStatus = 0
  | .listProcess _ a1 => a1 = 0 ∨ h.records a1 = 0
  | .mapSharedPage a0 _ _ _ => ∀ target, h.getProcessByPid a0 = some target →
      curr.rightsOn target.pid &&& 4 = 0 ∧ curr.pid ≠ target.pid

/-- How many ends of pages lie among the bytes of a call. -/
def crossings (c : PointerCall) : Nat := (c.pointer % 4096 + h.span c - 1) / 4096

/-- So many frames of physical memory from one on are frames of the caller, with the right. -/
def UserFrames (right first n : Nat) : Prop :=
  ∀ j < n, h.UserFrame curr right ((first + j) % 2 ^ 52)

/-- The pointer leads nowhere, or its bytes are in pages for users with the right and either are
not used or go on, behind the frame of the first page, through frames for users with the right.
Below a leaf larger than a page it is not the frame of the first page but the one that a word of
the data names which stands where the entry of the page would be. -/
def Harmless (c : PointerCall) : Prop :=
  h.Missing curr c ∨ h.Usable curr c ∧ (h.Unused curr c ∨
    (Small curr.root h.space c.pointer ∧
      ∀ hit, sv39 h.space.mem curr.root (wrap c.pointer) = some hit →
        h.UserFrames curr c.right (hit.phys / 4096 + 1) (h.crossings c)) ∨
    (¬ Small curr.root h.space c.pointer ∧
      ∀ slot, leafSlot h.space.mem curr.satp c.pointer = some slot →
        h.UserFrames curr c.right (h.space.mem slot / 1024) (h.crossings c + 1)))

/-! ## Ranges of bytes -/

variable {h hart curr}

/-- A range of bytes lies in the frames from that of its first byte on. -/
theorem forall_userFrame {right physAddr n : Nat} (hn : 0 < n) :
    (∀ k < n, h.UserFrame curr right (wrap (physAddr + k) / 4096)) ↔
      h.UserFrames curr right (physAddr / 4096) ((physAddr % 4096 + n - 1) / 4096 + 1) := by
  constructor
  · intro hall j hj
    have hk : 4096 * j - physAddr % 4096 < n := by omega
    have hframe : wrap (physAddr + (4096 * j - physAddr % 4096)) / 4096 =
        (physAddr / 4096 + j) % 2 ^ 52 := by
      unfold wrap
      rcases Nat.eq_zero_or_pos j with rfl | hpos
      · omega
      · omega
    exact hframe ▸ hall _ hk
  · intro hall k hk
    have hframe : wrap (physAddr + k) / 4096 =
        (physAddr / 4096 + (physAddr % 4096 + k) / 4096) % 2 ^ 52 := by
      unfold wrap
      omega
    rw [hframe]
    exact hall _ (by omega)

/-- Reading a buffer is permitted when each page of it may be read. -/
theorem forall_bytes_read {physAddr n : Nat} : (∀ x ∈ bytes .read physAddr n, h.Permitted curr x) ↔
    ∀ k < n, h.UserFrame curr 1 (wrap (physAddr + k) / 4096) := by
  simp [bytes, Permitted]

/-- Writing it is permitted when each page of it may be written. -/
theorem forall_bytes_write {physAddr n : Nat} :
    (∀ x ∈ bytes .write physAddr n, h.Permitted curr x) ↔
      ∀ k < n, h.UserFrame curr 2 (wrap (physAddr + k) / 4096) := by
  simp [bytes, Permitted]

@[simp] theorem touched_exitProcess : (h.exitProcess hart curr).touched = h.touched := rfl

/-- The senders that are woken are no user memory. -/
theorem touched_wakeAll (senders : List Task) (h : Host β) :
    (senders.foldl (fun h t => (h.remove t.pid).append hart t) h).touched = h.touched := by
  induction senders generalizing h with
  | nil => rfl
  | cons t senders ih => exact ih _

/-- The stores of the records, one behind the other. -/
theorem touched_putRecords (physAddr : Nat) (ts : List Task) :
    (h.putRecords physAddr ts).touched = h.touched ++
      (List.range ts.length).flatMap fun i => bytes .write (wrap (physAddr + 56 * i)) 56 := by
  suffices hfrom : ∀ (ts : List Task) (i : Nat) (h : Host β),
      ((ts.zipIdx i).foldl (fun h x =>
        (h.storeWords (wrap (physAddr + 56 * x.2)) (processInfo x.1)).touch
          (bytes .write (wrap (physAddr + 56 * x.2)) 56)) h).touched = h.touched ++
        (List.range' i ts.length).flatMap fun i => bytes .write (wrap (physAddr + 56 * i)) 56 by
    rw [List.range_eq_range']
    exact hfrom ts 0 h
  intro ts
  induction ts with
  | nil => simp
  | cons t ts ih =>
    intro i h
    rw [List.zipIdx_cons, List.foldl_cons, ih (i + 1), List.length_cons, List.range'_succ,
      List.flatMap_cons, ← List.append_assoc]
    rfl

/-- Mapping the page touches nothing else. -/
theorem touched_mapSharedPage (o : Outcome (Space β) Unit) (h : Host β) :
    ((o.within fun s => { h with space := s }).bind fun _ h =>
      Outcome.done (Ending.value 1) h).state.touched = h.touched := by
  cases o <;> rfl

/-! ## How many records there are -/

/-- One circle: what is listed of it, and whether it holds up the loop. -/
theorem length_walkCircle {targetIdx : Nat} (foreign : Bool) (ts : List Task) (head : Bool)
    (idx : Nat) (hidx : head = false → idx < targetIdx) :
    (walkCircle foreign targetIdx head idx ts).1.length =
      min (visible (foreign, ts)) (max 1 (targetIdx - idx)) ∧
    ((walkCircle foreign targetIdx head idx ts).2 = false ↔
      (head = false ∨ 0 < visible (foreign, ts)) ∧ visible (foreign, ts) < ts.length ∧
        idx + min (visible (foreign, ts)) (max 1 (targetIdx - idx)) < targetIdx) := by
  induction ts generalizing head idx with
  | nil => simp [walkCircle, visible]
  | cons t ts ih =>
    by_cases hidle : t.pid = 0 ∧ foreign = true
    · obtain ⟨hpid, rfl⟩ := hidle
      have hnone : visible (true, t :: ts) = 0 := by simp [visible, hpid]
      simp only [walkCircle, hpid, hnone, List.length_cons]
      cases head with
      | true => simp
      | false => simpa using hidx rfl
    · have hseen : visible (foreign, t :: ts) = visible (foreign, ts) + 1 := by
        unfold visible
        cases foreign with
        | false => simp
        | true =>
          have hpid : t.pid ≠ 0 := fun h => hidle ⟨h, rfl⟩
          simp [hpid]
      rw [walkCircle, if_neg hidle, hseen, List.length_cons]
      by_cases hmore : idx + 1 < targetIdx
      · obtain ⟨hlen, hend⟩ := ih false (idx + 1) fun _ => hmore
        rw [if_pos hmore]
        dsimp only
        rw [List.length_cons, hlen, hend]
        refine ⟨by omega, ?_⟩
        simp only [true_or, true_and]
        omega
      · rw [if_neg hmore]
        refine ⟨by simp; omega, iff_of_false (by simp) ?_⟩
        omega

/-- All circles and the lists. -/
theorem length_walkCircles {targetIdx : Nat} (rest : Nat) (cs : List (Bool × List Task))
    (idx : Nat) : recordsFrom targetIdx rest idx cs =
      idx + (walkCircles targetIdx idx cs).1.length +
        if (walkCircles targetIdx idx cs).2 then
          min rest (targetIdx - (idx + (walkCircles targetIdx idx cs).1.length))
        else 0 := by
  induction cs generalizing idx with
  | nil => simp [recordsFrom, walkCircles]
  | cons circle cs ih =>
    obtain ⟨foreign, ts⟩ := circle
    have hidx : true = false → idx < targetIdx := fun h => absurd h (by simp)
    obtain ⟨hlen, hend⟩ := length_walkCircle foreign ts true idx hidx
    simp only [Bool.true_eq_false, false_or] at hend
    rw [recordsFrom, walkCircles]
    dsimp only
    cases hr : (walkCircle foreign targetIdx true idx ts).2 with
    | false =>
      rw [if_pos (hend.mp hr)]
      simp [hlen, hr]
    | true =>
      rw [if_neg fun hc => absurd (hend.mpr hc) (by simp [hr]), ih, hlen]
      simp [hlen, Nat.add_assoc]

/-- The walk makes the records that are counted. -/
theorem length_walk (targetIdx : Nat) : (h.walk targetIdx).1.length = h.records targetIdx := by
  unfold records walk
  rw [length_walkCircles]
  dsimp only
  rw [Nat.zero_add]
  split
  · rw [List.length_append, List.length_take, Nat.min_comm]
  · rfl

/-! ## What a call touches -/

/-- A send touches the 72 bytes of the message, if it comes that far. -/
theorem forall_touched_sendMsg (a0 a1 : Nat) (hne : uvmTranslate h.space.mem curr.satp a1 ≠ 0)
    (h0 : h.touched = []) :
    (∀ x ∈ (h.sendMsg hart curr a0 a1).state.touched, h.Permitted curr x) ↔
      h.Unused curr (.sendMsg a0 a1) ∨ ∀ k < 72,
        h.UserFrame curr 1 (wrap (uvmTranslate h.space.mem curr.satp a1 + k) / 4096) := by
  unfold sendMsg Unused
  rw [if_neg hne, ← forall_bytes_read]
  cases hfind : h.getProcessByPid a0 with
  | none => simp [h0, hfind]
  | some target =>
    by_cases hmay : MaySend curr target
    · by_cases hfull : target.mailboxStatus = 0
      · have hread : ∀ a f, (if target.state = .ipcBlocked then
            Outcome.done (Ending.value 1) (((h.touch a).remove target.pid).append hart f)
          else .done (.value 1) ((h.touch a).change target.pid fun _ => f)).state.touched = a := by
          intro a f
          split <;> simp [touch, remove, append, change, h0]
        simp only [hmay, hfull, not_true_eq_false, if_false, if_true, hread]
        simp [hfind, hmay, hfull]
      · simp [hfind, hmay, hfull, push, remove, h0]
    · simp [hfind, hmay, h0]

/-- So does a receive. -/
theorem forall_touched_recvMsg (a0 : Nat) (hne : uvmTranslate h.space.mem curr.satp a0 ≠ 0)
    (h0 : h.touched = []) :
    (∀ x ∈ (h.recvMsg hart curr a0).state.touched, h.Permitted curr x) ↔
      h.Unused curr (.recvMsg a0) ∨ ∀ k < 72,
        h.UserFrame curr 2 (wrap (uvmTranslate h.space.mem curr.satp a0 + k) / 4096) := by
  unfold recvMsg Unused
  rw [if_neg hne, ← forall_bytes_write]
  by_cases hempty : curr.mailboxStatus = 0
  · simp [hempty, push, remove, h0]
  · simp only [hempty, if_false, Outcome.state_done, touched_wakeAll, false_or]
    simp [change, touch, storeWords, h0]

/-- The records stand one behind the other. -/
theorem forall_touched_listProcess (a0 a1 : Nat)
    (hne : uvmTranslate h.space.mem curr.satp a0 ≠ 0) (h0 : h.touched = []) :
    (∀ x ∈ (h.listProcess hart curr a0 a1).state.touched, h.Permitted curr x) ↔
      a1 = 0 ∨ ∀ k < 56 * h.records a1,
        h.UserFrame curr 2 (wrap (uvmTranslate h.space.mem curr.satp a0 + k) / 4096) := by
  unfold listProcess
  rw [if_neg hne]
  by_cases hcount : a1 = 0
  · simp [hcount, h0]
  · have hstate : ∀ (b : Bool) (v : Ending) (h : Host β),
        (if b then Outcome.done v h else Outcome.spin h).state = h := by
      intro b v h
      cases b <;> rfl
    simp only [hcount, if_false, hstate, touched_putRecords, h0, List.nil_append, false_or,
      length_walk]
    have hwrap : ∀ a i k : Nat, wrap (wrap (a + 56 * i) + k) = wrap (a + (56 * i + k)) := by
      intro a i k
      unfold wrap
      omega
    constructor
    · intro hall k hk
      have hrecord : wrap (wrap (uvmTranslate h.space.mem curr.satp a0 + 56 * (k / 56)) + k % 56) =
          wrap (uvmTranslate h.space.mem curr.satp a0 + k) := by
        rw [hwrap, Nat.div_add_mod]
      rw [← hrecord]
      refine forall_bytes_write.mp (fun x hx => hall x ?_) _ (Nat.mod_lt k (by decide))
      exact List.mem_flatMap.mpr ⟨k / 56, List.mem_range.mpr (by omega), hx⟩
    · intro hall x hx
      obtain ⟨i, hi, hx⟩ := List.mem_flatMap.mp hx
      have hi := List.mem_range.mp hi
      refine forall_bytes_write.mpr (fun k hk => ?_) x hx
      rw [hwrap]
      exact hall _ (by omega)

/-- Sharing a page touches its frame. -/
theorem forall_touched_mapSharedPage (A : PageAlloc β) (a0 a1 a2 a3 : Nat)
    (hne : uvmTranslate h.space.mem curr.satp a1 ≠ 0) (h0 : h.touched = []) :
    (∀ x ∈ (h.mapSharedPage hart curr A a0 a1 a2 a3).state.touched, h.Permitted curr x) ↔
      h.Unused curr (.mapSharedPage a0 a1 a2 a3) ∨
      h.UserFrame curr 1 (uvmTranslate h.space.mem curr.satp a1 / 4096) := by
  unfold mapSharedPage Unused
  rw [if_neg hne]
  cases hfind : h.getProcessByPid a0 with
  | none => simp [h0, hfind]
  | some target =>
    by_cases hdenied : curr.rightsOn target.pid &&& 4 = 0 ∧ curr.pid ≠ target.pid
    · simp [hfind, hdenied, h0]
    · simp only [hdenied, if_false, touched_mapSharedPage]
      simp [touch, hfind, h0, Permitted, hdenied]

/-- A call that comes past `uvm_translate` touches its bytes, in the frames from the one it got on,
or none. -/
theorem forall_touched (A : PageAlloc β) (c : PointerCall)
    (hne : uvmTranslate h.space.mem curr.satp c.pointer ≠ 0) :
    (∀ x ∈ (h.exec hart curr A c).state.touched, h.Permitted curr x) ↔
      h.Unused curr c ∨ ∀ k < h.span c,
        h.UserFrame curr c.right
          (wrap (uvmTranslate h.space.mem curr.satp c.pointer + k) / 4096) := by
  cases c with
  | sendMsg a0 a1 => exact forall_touched_sendMsg (h := { h with touched := [] }) a0 a1 hne rfl
  | recvMsg a0 => exact forall_touched_recvMsg (h := { h with touched := [] }) a0 hne rfl
  | listProcess a0 a1 =>
    refine (forall_touched_listProcess (h := { h with touched := [] }) a0 a1 hne rfl).trans ?_
    show a1 = 0 ∨ (∀ k < 56 * h.records a1, _) ↔ (a1 = 0 ∨ h.records a1 = 0) ∨ ∀ k < h.span _, _
    by_cases hcount : a1 = 0
    · simp [hcount]
    · by_cases hnone : h.records a1 = 0
      · simp [hnone]
      · have hspan : h.span (.listProcess a0 a1) = 56 * h.records a1 := by
          rw [span, if_neg hcount]
          omega
        rw [hspan]
        simp only [hcount, hnone, false_or]
        rfl
  | mapSharedPage a0 a1 a2 a3 =>
    refine (forall_touched_mapSharedPage (h := { h with touched := [] }) A a0 a1 a2 a3 hne
      rfl).trans (or_congr_right ?_)
    have hphys : wrap (uvmTranslate h.space.mem curr.satp a1 + 0) / 4096 =
        uvmTranslate h.space.mem curr.satp a1 / 4096 := by
      rw [Nat.add_zero, wrap_of_lt (uvmTranslate_lt _ _ _)]
    constructor
    · intro hframe k hk
      rw [show k = 0 by simpa [span] using hk]
      exact hphys ▸ hframe
    · intro hall
      exact hphys ▸ hall 0 Nat.one_pos

/-- A pointer to no page ends the caller, with memory as it was. -/
theorem exec_eq_exited (A : PageAlloc β) (c : PointerCall)
    (h0 : uvmTranslate h.space.mem curr.satp c.pointer = 0) :
    h.exec hart curr A c = .done .exited ({ h with touched := [] }.exitProcess hart curr) := by
  cases c <;> exact if_pos h0

/-- Nothing else ends it. -/
theorem exec_ne_exited (A : PageAlloc β) (c : PointerCall) {h' : Host β}
    (hne : uvmTranslate h.space.mem curr.satp c.pointer ≠ 0) :
    h.exec hart curr A c ≠ .done .exited h' := by
  cases c with
  | sendMsg a0 a1 =>
    unfold exec sendMsg
    dsimp only
    rw [if_neg (show ¬ uvmTranslate h.space.mem curr.satp a1 = 0 from hne)]
    split
    · simp
    · split_ifs <;> simp
  | recvMsg a0 =>
    unfold exec recvMsg
    dsimp only
    rw [if_neg (show ¬ uvmTranslate h.space.mem curr.satp a0 = 0 from hne)]
    split_ifs <;> simp
  | listProcess a0 a1 =>
    unfold exec listProcess
    dsimp only
    rw [if_neg (show ¬ uvmTranslate h.space.mem curr.satp a0 = 0 from hne)]
    split_ifs <;> simp
  | mapSharedPage a0 a1 a2 a3 =>
    unfold exec mapSharedPage
    dsimp only
    rw [if_neg (show ¬ uvmTranslate h.space.mem curr.satp a1 = 0 from hne)]
    split
    · simp
    · split_ifs
      · simp
      · intro hrun
        obtain ⟨_, _, _, hend⟩ := Outcome.bind_eq_done.mp hrun
        exact absurd (Outcome.done.inj hend).1 (by simp)

/-! ## The pointers that are harmless -/

/-- A pointer is missing where the code finds no frame. -/
theorem missing_iff {c : PointerCall} :
    h.Missing curr c ↔ uvmTranslate h.space.mem curr.satp c.pointer = 0 := by
  unfold Missing
  cases hslot : leafSlot h.space.mem curr.satp c.pointer with
  | none =>
    refine iff_of_true (by simp) ?_
    rw [uvmTranslate_eq, hslot]
  | some slot =>
    rw [uvmTranslate_of_slot hslot]
    simp only [Option.some.injEq, forall_eq']
    omega

/-- The frames of a call from that of its pointer's page on. -/
theorem userFrames_crossings {c : PointerCall} {slot : Nat}
    (hslot : leafSlot h.space.mem curr.satp c.pointer = some slot) (hspan : 0 < h.span c) :
    (∀ k < h.span c, h.UserFrame curr c.right
      (wrap (uvmTranslate h.space.mem curr.satp c.pointer + k) / 4096)) ↔
    h.UserFrames curr c.right (h.space.mem slot / 1024) (h.crossings c + 1) := by
  rw [forall_userFrame hspan, uvmTranslate_of_slot hslot]
  have hoff : (h.space.mem slot / 1024 % 2 ^ 52 * 4096 + c.pointer % 4096) % 4096 =
      c.pointer % 4096 := by omega
  have hframe : ∀ j, ((h.space.mem slot / 1024 % 2 ^ 52 * 4096 + c.pointer % 4096) / 4096 + j) %
      2 ^ 52 = (h.space.mem slot / 1024 + j) % 2 ^ 52 := by
    intro j
    omega
  unfold UserFrames crossings
  rw [hoff]
  simp only [hframe]

/-- Each call has a byte to touch. -/
theorem span_pos (c : PointerCall) : 0 < h.span c := by
  cases c with
  | listProcess a0 a1 =>
    rw [span]
    split <;> omega
  | _ => exact Nat.succ_pos _

/-- Where the page of the pointer is one of its own, its frame is the first. -/
theorem userFrames_small {c : PointerCall} (hu : h.Usable curr c)
    (hsmall : Small curr.root h.space c.pointer) :
    ∃ slot, leafSlot h.space.mem curr.satp c.pointer = some slot ∧
      (h.UserFrames curr c.right (h.space.mem slot / 1024) (h.crossings c + 1) ↔
        ∀ hit, sv39 h.space.mem curr.root (wrap c.pointer) = some hit →
          h.UserFrames curr c.right (hit.phys / 4096 + 1) (h.crossings c)) := by
  obtain ⟨hit, hhit, huser, hright⟩ := hu 0 (span_pos c)
  rw [Nat.add_zero] at hhit
  have hindices : indices (wrap c.pointer) = indices c.pointer := by
    rw [indices_eq_iff]
    unfold wrap
    omega
  have hsmall' : Small curr.root h.space (wrap c.pointer) := by
    unfold Paging.Small
    rw [hindices]
    exact hsmall
  obtain ⟨slot, hslot, hacc, rfl⟩ := leafSlot_of_sv39 hhit hsmall'
  rw [leafSlot_congr hindices] at hslot
  have hframe : (h.space.mem slot / 1024 * 4096 + wrap c.pointer % 4096) / 4096 =
      h.space.mem slot / 1024 := by omega
  refine ⟨slot, hslot, ?_⟩
  rw [hhit]
  simp only [Option.some.injEq, forall_eq', hframe]
  constructor
  · intro hall j hj
    rw [Nat.add_assoc, Nat.add_comm 1 j]
    exact hall (j + 1) (Nat.succ_lt_succ hj)
  · intro hall j hj
    rcases Nat.eq_zero_or_pos j with rfl | hpos
    · have hlt := hacc.small
      rw [Nat.add_zero, Nat.mod_eq_of_lt (by omega)]
      exact ⟨_, _, hhit, hframe, huser, hright⟩
    · have hnext := hall (j - 1) (by omega)
      rwa [Nat.add_assoc, Nat.add_sub_cancel' hpos] at hnext

/-- A call stays within the memory of its caller exactly with a harmless pointer. -/
theorem confined_iff (h : Host β) (hart : Nat) (curr : Task) (A : PageAlloc β) (c : PointerCall) :
    h.Confined hart curr A c ↔ h.Harmless curr c := by
  by_cases h0 : uvmTranslate h.space.mem curr.satp c.pointer = 0
  · have hexit : h.exec hart curr A c = _ := exec_eq_exited A c h0
    refine iff_of_true ⟨?_, fun _ => ⟨_, hexit, rfl⟩⟩ (Or.inl (missing_iff.mpr h0))
    rw [hexit]
    intro x hx
    simp at hx
  · have hmissing : ¬ h.Missing curr c := fun hm => h0 (missing_iff.mp hm)
    have hsecond : (¬ h.Usable curr c →
        ∃ h', h.exec hart curr A c = .done .exited h' ∧ h'.space = h.space) ↔ h.Usable curr c :=
      ⟨fun hall => by_contra fun hu => exec_ne_exited A c h0 (hall hu).choose_spec.1,
        fun hu hn => absurd hu hn⟩
    unfold Confined Harmless
    rw [hsecond, or_iff_right hmissing, and_comm, and_congr_right_iff]
    intro hu
    rw [forall_touched A c h0]
    refine or_congr_right ?_
    by_cases hsmall : Small curr.root h.space c.pointer
    · obtain ⟨slot, hslot, hframes⟩ := userFrames_small hu hsmall
      rw [userFrames_crossings hslot (span_pos c), hframes]
      simp [hsmall]
    · cases hslot : leafSlot h.space.mem curr.satp c.pointer with
      | none =>
        refine absurd ?_ h0
        rw [uvmTranslate_eq, hslot]
      | some slot =>
        rw [userFrames_crossings hslot (span_pos c)]
        simp [hsmall]

/-- No frame is user memory where no word of memory has the U bit. -/
theorem not_userFrame (hmem : ∀ a, (h.space.mem a).testBit 4 = false) (right frame : Nat) :
    ¬ h.UserFrame curr right frame := by
  rintro ⟨virAddr, hit, hs, -, huser, -⟩
  obtain ⟨a, ha⟩ := flags_of_sv39 hs
  rw [ha, ← testBit_flags _ (by decide), hmem a] at huser
  exact absurd huser (by decide)

end Host

/-- The words of a table that `create_user_table` makes, with the trampoline at 0x80001000 and a
kernel stack at 0x80200000. -/
def createdTable (addr : Nat) : Nat :=
  if addr = 0x801007F8 then linkPte 0x80101000
  else if addr = 0x80101FF8 then linkPte 0x80102000
  else if addr = 0x80102FF8 then leafPte 0 8 0x80001000
  else if addr = 0x80102FF0 then leafPte 0 6 0x80200000
  else 0

/-- A process on such a table with a message in its mailbox. -/
def addressee : Task :=
  { pid := 1, satp := satpOf 0x80100000, kstack := 0x80200000, capabilityRoot := fun _ => 0,
    parentPid := 0, state := .running, priority := 10, cpuTime := 0, name := fun _ => 0,
    mailbox := fun _ => 0, ipcPendingPid := 0, mailboxStatus := 1 }

/-- It runs, and there is no other. -/
def alone : Host Unit :=
  { space := ⟨createdTable, (), [], []⟩, harts := [(List.replicate 32 []).set 10 [addressee]],
    lists := fun _ => [], touched := [] }

/-- It has its message written to its kernel stack. -/
theorem stack_overwritten :
    ¬ ∃ A : PageAlloc Unit, alone.Confined 0 addressee A (.recvMsg 0x3FFFFFE000) := by
  have hphys : uvmTranslate createdTable addressee.satp 0x3FFFFFE000 = 0x80200000 := by decide
  have hne : uvmTranslate alone.space.mem addressee.satp 0x3FFFFFE000 ≠ 0 :=
    fun he => absurd (hphys.symm.trans he) (by decide)
  have hmem : ∀ a, (createdTable a).testBit 4 = false := by
    intro a
    unfold createdTable
    split_ifs <;> decide
  rintro ⟨A, htouched, -⟩
  rcases (Host.forall_touched_recvMsg 0x3FFFFFE000 hne rfl).mp htouched with hempty | hframed
  · have hfull : addressee.mailboxStatus = 0 := hempty
    exact absurd hfull (by decide)
  · exact Host.not_userFrame hmem _ _ (hframed 0 (by decide))

end RexOS.Traps
