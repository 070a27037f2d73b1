import RexOS.Smp.Births

/-!
# Careful events

The events after which harts do not get into each other's way. No hart wakes up or reaps a process
that another one has parked or ended and not yet left, and none reschedules while the emergency
process is on the circles of another.
-/

namespace RexOS.Smp

open Scheduler Kernel

/-- The nodes of a circle. They come around again where the circle is shorter than the list of
processes. -/
def ring (s : Kernel) (h i : Nat) : List Nat :=
  if (s.queues h).lookupBitmap.testBit i then
    List.iterate s.next ((s.queues h).activeProcessCircles i) s.existing.length
  else []

/-- A process is linked in a circle of a hart. -/
def InRing (s : Kernel) (h a : Nat) : Prop := ∃ i < 32, a ∈ ring s h i

instance (s : Kernel) (h a : Nat) : Decidable (InRing s h a) :=
  inferInstanceAs (Decidable (∃ i < 32, _))

variable {s : Kernel} {v : Place → List Nat} {h a i : Nat}

/-- Walking a circle from its pointer finds its members. -/
theorem Settled.mem_ring (hs : Settled s v) (hi : i < 32) :
    a ∈ ring s h i ↔ a ∈ v (.circle h i) := by
  unfold ring
  by_cases hbit : (s.queues h).lookupBitmap.testBit i = true
  · obtain ⟨y, zs, hxs, hfirst, -, -, -, -⟩ := hs.circle_of_bit hi hbit
    have hw : Wheel s.next s.prev (y :: zs) := hxs ▸ hs.threaded.wheel h i
    have hlen := hs.length_le (.circle h i)
    rw [if_pos hbit, hfirst, hxs, List.mem_iterate]
    constructor
    · rintro ⟨n, -, rfl⟩
      exact hw.iterate_mem List.mem_cons_self n
    · intro ha
      rw [hw.eq_iterate, List.mem_iterate] at ha
      obtain ⟨n, hn, he⟩ := ha
      rw [hxs, List.length_cons] at hlen
      exact ⟨n, by omega, he⟩
  · have hempty : v (.circle h i) = [] := by
      by_contra hne
      exact hbit ((hs.threaded.bits h i hi).mpr hne)
    rw [if_neg hbit, hempty]

/-- A process is in some circle of a hart exactly when the places say so. -/
theorem Settled.inRing_iff (hs : Settled s v) : InRing s h a ↔ ∃ i, a ∈ v (.circle h i) := by
  constructor
  · rintro ⟨i, hi, ha⟩
    exact ⟨i, (hs.mem_ring hi).mp ha⟩
  · rintro ⟨i, ha⟩
    have hi := hs.threaded.lt_of_mem ha
    exact ⟨i, hi, (hs.mem_ring hi).mpr ha⟩

/-- The hart that an event happens on. -/
def Event.hart : Event → Nat
  | .start h _ => h
  | .spawn h _ _ _ => h
  | .timer h => h
  | .softInterrupt h => h
  | .external h _ _ => h
  | .syscall h _ => h
  | .steal h => h
  | .clean => 0

/-- No hart but `h` has the process as its current one. -/
def Free (s : Kernel) (h t : Nat) : Prop := ∀ k < s.hart, s.started k = true → s.curr k = t → k = h

instance (s : Kernel) (h t : Nat) : Decidable (Free s h t) :=
  inferInstanceAs (Decidable (∀ k < s.hart, s.started k = true → s.curr k = t → k = h))

/-- The zombie that `wait_process` finds; 0 if there is none. -/
def child (s : Kernel) (h : Nat) : Nat :=
  match s.findChild (s.procs (s.curr h)).pid (s.existing.length + 1) (s.heads .zombie) with
  | .done x _ => x
  | _ => 0

/-- The process that `steal_process` finds; 0 if there is none. -/
def victim (s : Kernel) (h : Nat) : Nat :=
  match s.findVictim h (List.range s.hart) with
  | .done x _ => x.1
  | _ => 0

/-- What an event may do to a process. -/
inductive Touch where
  | wake
  | reap
  | steal
  | exit
  | spawn

instance {p : Touch → Prop} [DecidablePred p] : Decidable (∀ c, p c) :=
  decidable_of_iff (p .wake ∧ p .reap ∧ p .steal ∧ p .exit ∧ p .spawn)
    ⟨fun ⟨hw, hr, hs, he, hb⟩ c =>
      by cases c <;> assumption, fun hp => ⟨hp _, hp _, hp _, hp _, hp _⟩⟩

namespace Machine

variable (m : Machine)

/-- The state in which a software interrupt comes to `schedule`. -/
def atSchedule (h : Nat) : Option Machine :=
  match m.beforeSchedule h with
  | .done _ m => if m.Due h then some m else none
  | _ => none

/-- The processes that an event may wake up, reap, steal, end or spawn. -/
def touched : Event → Touch → List Nat
  | .softInterrupt h, .wake => m.kernel.existing.filter fun t =>
      (m.kernel.procs t).state = .sleeping ∧ LastTick (m.kernel.tick h) t
  | .external _ irq _, .wake => [m.kernel.shellPtr].filter fun t =>
      irq = 10 ∧ t ≠ 0 ∧ (m.kernel.procs t).state = .blocked
  | .syscall _ (.sendMsg (.empty target)), .wake =>
    [target].filter fun t => (m.kernel.procs t).state = .ipcBlocked
  | .syscall h (.recvMsg .full), .wake => m.kernel.existing.filter fun t =>
      (m.kernel.procs t).state = .sendBlocked ∧
        (m.kernel.procs t).ipcPendingPid = (m.kernel.procs (m.kernel.curr h)).pid
  | .syscall h .wait, .reap => [child m.kernel h].filter (· ≠ 0)
  | .clean, .reap => m.kernel.existing.filter fun t =>
      (m.kernel.procs t).state = .zombie ∧ (m.kernel.procs t).parentPid = 0
  | .steal h, .steal => [victim m.kernel h].filter (· ≠ 0)
  | .syscall h (.exit _), .exit => [m.kernel.curr h]
  | .syscall h (.sendMsg .badPointer), .exit => [m.kernel.curr h]
  | .syscall h (.recvMsg .badPointer), .exit => [m.kernel.curr h]
  | .spawn _ new _ _, .spawn => [new]
  | _, _ => []

def Touches (e : Event) (c : Touch) (t : Nat) : Prop := t ∈ m.touched e c

instance (e : Event) (c : Touch) (t : Nat) : Decidable (m.Touches e c t) :=
  inferInstanceAs (Decidable (t ∈ m.touched e c))

/-- Where a hart reschedules, the emergency process is none or one of its own. -/
def AnswersOwn : Event → Prop
  | .softInterrupt h =>
    ∀ k ∈ m.atSchedule h, k.kernel.emergencyProcess ≠ 0 →
      InRing k.kernel h k.kernel.emergencyProcess
  | _ => True

instance : (e : Event) → Decidable (m.AnswersOwn e)
  | .softInterrupt h => inferInstanceAs (Decidable (∀ k ∈ m.atSchedule h,
      k.kernel.emergencyProcess ≠ 0 → InRing k.kernel h k.kernel.emergencyProcess))
  | .start _ _ | .spawn _ _ _ _ | .timer _ | .external _ _ _ | .syscall _ _ | .steal _ | .clean =>
    inferInstanceAs (Decidable True)

/-- An event that touches no process which another hart has not left yet, and answers no alarm of
another hart. -/
def Careful (e : Event) : Prop :=
  (∀ t ∈ m.kernel.existing, ∀ c ∈ [Touch.wake, .reap, .steal], m.Touches e c t →
    Free m.kernel e.hart t) ∧ m.AnswersOwn e

instance (e : Event) : Decidable (m.Careful e) :=
  inferInstanceAs (Decidable ((∀ t ∈ m.kernel.existing, ∀ c ∈ [Touch.wake, .reap, .steal],
    m.Touches e c t → Free m.kernel e.hart t) ∧ _))

end Machine

end RexOS.Smp
