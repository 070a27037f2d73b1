import RexOS.Smp.Console

/-!
# Rights of processes

Each process has a table with four bits for each pid. Syscalls 10, 11 and 14 of `strap_router` let
a process pass rights on, take them away and edit the list of those it may pass rights to. They
join the events of the harts here, as does the line of `kmain` that spawns the shell.
-/

namespace RexOS.Scheduler

open Bits

/-- The four bits a process holds on a pid. -/
def Process.rightsOn (p : Process) (pid : Nat) : Nat :=
  p.capabilityRoot (pid / 16) >>> (pid % 16 * 4) &&& 15

/-- The process holds the right with the number `i` on a pid. -/
def Process.Holds (p : Process) (pid i : Nat) : Prop := (p.rightsOn pid).testBit i = true

instance (p : Process) (pid i : Nat) : Decidable (p.Holds pid i) :=
  inferInstanceAs (Decidable (_ = true))

/-- The place of a pid in the list, if it is there. -/
def Process.whitelisted (p : Process) (pid : Nat) : Option Nat :=
  (List.range p.activeGrant).find? fun i => p.grantWhitelist i == pid

namespace Kernel

variable (s : Kernel) (h target : Nat)

/-- The program counter of the caller moves behind the `ecall`. -/
def enter : Kernel :=
  s.modify (s.curr h) fun p => { p with tf := { p.tf with epc := wrap (p.tf.epc + 4) } }

/-- What a call leaves in `a0`. -/
def reply (x : Nat) : Kernel :=
  s.modify (s.curr h) fun p =>
    { p with tf := { p.tf with uContext := Function.update p.tf.uContext 10 x } }

/-- The caller finds the return value in `a0`. -/
theorem a0_reply (s : Kernel) (h x : Nat) :
    ((s.reply h x).procs (s.curr h)).tf.uContext 10 = x :=
  Smp.register_putChar s (s.curr h) x

/-- An entry of a table is replaced. -/
def setEntry (idx offset rights : Nat) : Kernel :=
  s.modify target fun p =>
    { p with
      capabilityRoot := Function.update p.capabilityRoot idx
        (andNot (p.capabilityRoot idx) (15 <<< offset) ||| rights <<< offset) }

/-- An entry of a table is cleared. -/
def clearEntry (idx offset : Nat) : Kernel :=
  s.modify target fun p =>
    { p with
      capabilityRoot := Function.update p.capabilityRoot idx
        (andNot (p.capabilityRoot idx) (15 <<< offset)) }

/-- Case 10; `idx` has 32 bits. -/
def grantRights (a0 a1 a2 : Nat) : Outcome Kernel Unit :=
  (s.getProcessByPid a0).bind fun target s =>
    if target = 0 then .done () (s.reply h Ipc.minusOne)
    else
      let idx := a1 / 16 % 2 ^ 32
      let offset := a1 % 16 * 4
      let curr := s.procs (s.curr h)
      let rights := curr.capabilityRoot idx >>> offset &&& 15
      if rights &&& 4 = 0 then .done () (s.reply h Ipc.minusOne)
      else if rights &&& (a2 &&& 15) ≠ a2 &&& 15 then .done () (s.reply h Ipc.minusOne)
      else if rights &&& 8 ≠ 0 ∨ curr.pid = 1 then
        .done () ((s.setEntry target idx offset (a2 &&& 15)).reply h 1)
      else if (curr.whitelisted a0).isSome then
        .done () ((s.setEntry target idx offset (a2 &&& 15)).reply h 1)
      else .done () (s.reply h Ipc.minusOne)

/-- Case 11. -/
def revokeRights (a0 a1 : Nat) : Outcome Kernel Unit :=
  (s.getProcessByPid a0).bind fun target s =>
    if target = 0 then .done () (s.reply h Ipc.minusOne)
    else
      let curr := s.procs (s.curr h)
      if (s.procs target).parentPid ≠ curr.pid ∧ curr.pid ≠ 1 then
        .done () (s.reply h Ipc.minusOne)
      else .done () ((s.clearEntry target (a1 / 16 % 2 ^ 32) (a1 % 16 * 4)).reply h 1)

/-- Case 14, for `a1 = 1`. -/
def addToWhitelist (a0 : Nat) : Kernel :=
  let curr := s.procs (s.curr h)
  if (curr.whitelisted a0).isSome then s.reply h 1
  else if curr.activeGrant = 8 then s.reply h Ipc.minusOne
  else
    (s.modify (s.curr h) fun p =>
      { p with
        grantWhitelist := Function.update p.grantWhitelist p.activeGrant a0
        activeGrant := p.activeGrant + 1 }).reply h 1

/-- Case 14, for `a1 = 0`: the last entry takes the place of the one that goes. -/
def removeFromWhitelist (a0 : Nat) : Kernel :=
  let curr := s.procs (s.curr h)
  match curr.whitelisted a0 with
  | none => s.reply h 1
  | some idx =>
    (s.modify (s.curr h) fun p =>
      let last := p.activeGrant - 1
      { p with
        grantWhitelist := Function.update (Function.update p.grantWhitelist idx
          (p.grantWhitelist last)) last 0
        activeGrant := last }).reply h 1

def editWhitelist (a0 a1 : Nat) : Kernel :=
  match a1 with
  | 1 => s.addToWhitelist h a0
  | 0 => s.removeFromWhitelist h a0
  | _ => s.reply h Ipc.minusOne

end Kernel

end RexOS.Scheduler

namespace RexOS.Smp

open Scheduler Kernel

/-- Syscalls 10, 11 and 14. -/
inductive RightsCall where
  | grant (a0 a1 a2 : Nat)
  | revoke (a0 a1 : Nat)
  | whitelist (a0 a1 : Nat)

/-- The pid an entry of which is written has a place in the table. -/
def RightsCall.InRange : RightsCall → Prop
  | grant _ a1 _ => a1 < pidMax
  | revoke _ a1 => a1 < pidMax
  | whitelist _ _ => True

/-- What may happen, rights included. -/
inductive Deed where
  | event (e : Event)
  /-- `kmain` spawns the shell. -/
  | launch (new : Nat) (image : Image)
  | rights (h : Nat) (c : RightsCall)

def rightsCall (s : Kernel) (h : Nat) : RightsCall → Outcome Kernel Unit
  | .grant a0 a1 a2 => s.grantRights h a0 a1 a2
  | .revoke a0 a1 => s.revokeRights h a0 a1
  | .whitelist a0 a1 => .done () (s.editWhitelist h a0 a1)

namespace Machine

variable (m : Machine)

/-- Nothing has been spawned before the shell; the three calls are made where any syscall is. -/
def Allowed : Deed → Prop
  | .event e => m.Enabled e
  | .launch new image =>
    m.Enabled (.spawn 0 new image 16) ∧ m.kernel.existing = [m.kernel.curr 0]
  | .rights h _ => m.kernel.started h ∧ (m.kernel.queues h).ssip = false ∧
      (m.kernel.procs (m.kernel.curr h)).pid ≠ 0

instance : (d : Deed) → Decidable (m.Allowed d)
  | .event e => inferInstanceAs (Decidable (m.Enabled e))
  | .launch _ _ => inferInstanceAs (Decidable (_ ∧ _ = [_]))
  | .rights _ _ => inferInstanceAs (Decidable (_ = true ∧ _ = false ∧ _))

def perform : Deed → Outcome Machine Unit
  | .event e => m.exec e
  | .launch new image => m.spawnShell new image
  | .rights h c => (rightsCall (m.kernel.enter h) h c).within m.withKernel

def act (d : Deed) : Option Machine := if m.Allowed d then (m.perform d).returned else none

/-- An event of the machine is a step of the run. -/
theorem act_event (m : Machine) (e : Event) : m.act (.event e) = m.step e := rfl

/-- A step is allowed and comes to its end. -/
theorem act_eq_some {m m' : Machine} {d : Deed} :
    m.act d = some m' ↔ m.Allowed d ∧ m.perform d = .done () m' := by
  unfold act
  split
  · rename_i hd
    rw [Outcome.returned_eq_some]
    exact ⟨fun ⟨_, h⟩ => ⟨hd, h⟩, fun h => ⟨(), h.2⟩⟩
  · rename_i hd
    simp [hd]

end Machine

end RexOS.Smp
