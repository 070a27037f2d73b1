import RexOS.Scheduler.Places
import Mathlib.Data.Set.Insert

/-!
# Where processes are

What the scheduler of several harts keeps, without links and without an order on the places: the
processes on each place, the one that each hart runs, and the fields that decide between them. A
board is valid when a process is on one place at most, that place fits its state, a hart runs
only what is on its own circles or parked, and no two harts run the same.

A process that has been parked stays the current one of its hart until the hart dispatches
another. The moves below keep a board valid as long as nobody else touches it in between.
-/

namespace RexOS.Smp

open Scheduler

structure Board where
  on : Place → Set Nat
  state : Nat → ProcState
  priority : Nat → Nat
  pid : Nat → Nat
  kernelTp : Nat → Nat
  up : Set Nat
  curr : Nat → Nat
  idle : Nat → Nat
  emergency : Nat

namespace Board

/-- Two boards are the same if every place has the same processes and all else agrees. -/
@[ext] theorem ext {b c : Board} (hon : ∀ q a, a ∈ b.on q ↔ a ∈ c.on q) (hstate : b.state = c.state)
    (hprio : b.priority = c.priority) (hpid : b.pid = c.pid) (htp : b.kernelTp = c.kernelTp)
    (hup : b.up = c.up) (hcurr : b.curr = c.curr) (hidle : b.idle = c.idle)
    (hem : b.emergency = c.emergency) : b = c := by
  cases b
  cases c
  obtain rfl := funext fun q => Set.ext (hon q)
  simp_all

variable (b : Board) (h t : Nat)

/-! ## Moves -/

/-- A process leaves its place, if it has one, for another. -/
def move (p : Place) : Place → Set Nat := fun q => {a | a = t ∧ q = p ∨ a ≠ t ∧ a ∈ b.on q}

/-- The current process of a hart goes to a list. -/
def park (w : WaitList) : Board :=
  { b with
    on := b.move (b.curr h) (.wait w)
    state := Function.update b.state (b.curr h) w.state
    emergency := if b.emergency = b.curr h then 0 else b.emergency }

/-- A process is put on the circle of a hart, ready. -/
def unpark : Board :=
  { b with
    on := b.move t (.circle h (b.priority t))
    state := Function.update b.state t .ready
    kernelTp := Function.update b.kernelTp t h }

/-- The current process of a hart becomes ready. -/
def yield : Board := { b with state := Function.update b.state (b.curr h) .ready }

/-- The same where the process is running. -/
def release : Board := if b.state (b.curr h) = .running then b.yield h else b

/-- A hart runs another process. -/
def dispatch : Board :=
  { b with
    state := Function.update b.state t .running
    curr := Function.update b.curr h t
    emergency := 0 }

/-- Where a sweeper finds one that starves. -/
def alarm : Board := { b with emergency := t }

/-- A process comes to the circles of another hart. -/
def steal : Board :=
  { b with
    on := b.move t (.circle h (b.priority t))
    kernelTp := Function.update b.kernelTp t h }

/-- A process is forgotten. -/
def reap : Board := { b with on := fun q => {a | a ≠ t ∧ a ∈ b.on q} }

/-- A new process. -/
def spawn (priority pid : Nat) : Board :=
  { b with
    on := b.move t (.circle h priority)
    state := Function.update b.state t .ready
    priority := Function.update b.priority t priority
    pid := Function.update b.pid t pid
    kernelTp := Function.update b.kernelTp t h }

/-- A hart comes up with its idle process. -/
def start : Board :=
  { b with
    on := b.move t (.circle h 31)
    state := Function.update b.state t .running
    priority := Function.update b.priority t 31
    pid := Function.update b.pid t 0
    kernelTp := Function.update b.kernelTp t 0
    up := insert h b.up
    curr := Function.update b.curr h t
    idle := Function.update b.idle h t }

variable {b h t}

/-- A process that moves is in its new place, and the others are where they were. -/
@[simp] theorem mem_move {p q : Place} {a : Nat} :
    a ∈ b.move t p q ↔ a = t ∧ q = p ∨ a ≠ t ∧ a ∈ b.on q := Iff.rfl

/-! ## Validity -/

structure Valid (b : Board) : Prop where
  apart : ∀ {a p q}, a ∈ b.on p → a ∈ b.on q → p = q
  circle : ∀ {a k i}, a ∈ b.on (.circle k i) →
    k ∈ b.up ∧ b.priority a = i ∧ (b.state a = .ready ∨ b.state a = .running)
  wait : ∀ {a w}, a ∈ b.on (.wait w) → b.state a = w.state ∧ b.pid a ≠ 0
  user : ∀ {a k i}, a ∈ b.on (.circle k i) → b.pid a ≠ 0 → b.kernelTp a = k
  low : ∀ {a q}, a ∈ b.on q → b.pid a = 0 ∨ b.priority a ≤ 30
  idle : ∀ {k}, k ∈ b.up → b.idle k ∈ b.on (.circle k 31) ∧ b.pid (b.idle k) = 0
  idles : ∀ {a k i}, a ∈ b.on (.circle k i) → b.pid a = 0 → a = b.idle k
  curr : ∀ {k}, k ∈ b.up → ∃ q, b.curr k ∈ b.on q
  alone : ∀ {k l}, k ∈ b.up → l ∈ b.up → b.curr k = b.curr l → k = l
  home : ∀ {k l i}, k ∈ b.up → b.curr k ∈ b.on (.circle l i) → l = k
  running : ∀ {a k i}, a ∈ b.on (.circle k i) → b.state a = .running → a = b.curr k
  emergency : b.emergency ≠ 0 → ∃ k i, b.emergency ∈ b.on (.circle k i) ∧ i ≤ 30

namespace Valid

/-- A move of one process keeps it on one place. -/
theorem move_apart (hv : b.Valid) {p q r : Place} {a : Nat} (hq : a ∈ b.move t p q)
    (hr : a ∈ b.move t p r) : q = r := by
  rcases hq with ⟨rfl, rfl⟩ | ⟨hne, hq⟩
  · rcases hr with ⟨-, rfl⟩ | ⟨hne, -⟩
    · rfl
    · exact absurd rfl hne
  · rcases hr with ⟨rfl, -⟩ | ⟨-, hr⟩
    · exact absurd rfl hne
    · exact hv.apart hq hr

/-- The running process may be parked, unless it is an idle one. -/
theorem park (hv : b.Valid) (hh : h ∈ b.up) (hpid : b.pid (b.curr h) ≠ 0) (w : WaitList) :
    (b.park h w).Valid := by
  obtain ⟨p, hp⟩ := hv.curr hh
  constructor <;> simp only [Board.park, mem_move]
  · exact hv.move_apart
  · grind [hv.circle]
  · grind [hv.wait]
  · grind [hv.user]
  · grind [hv.low]
  · grind [hv.idle]
  · grind [hv.idles]
  · grind [hv.curr]
  · grind [hv.alone]
  · grind [hv.home]
  · grind [hv.running]
  · intro hne
    split at hne
    · exact absurd rfl hne
    · obtain ⟨k, i, he, hi⟩ := hv.emergency hne
      grind

/-- A parked process is woken, on its own hart if it is still current there. -/
theorem unpark (hv : b.Valid) (hh : h ∈ b.up) {w : WaitList} (ht : t ∈ b.on (.wait w))
    (hcurr : ∀ k ∈ b.up, b.curr k = t → k = h) : (b.unpark h t).Valid := by
  obtain ⟨hst, hpid⟩ := hv.wait ht
  have hlow := hv.low ht
  constructor <;> simp only [Board.unpark, mem_move]
  · exact hv.move_apart
  · grind [hv.circle]
  · grind [hv.wait]
  · grind [hv.user]
  · grind [hv.low]
  · grind [hv.idle]
  · grind [hv.idles]
  · grind [hv.curr]
  · grind [hv.alone]
  · grind [hv.home]
  · grind [hv.running]
  · intro hne
    obtain ⟨k, i, he, hi⟩ := hv.emergency hne
    grind

/-- The running process may become ready. -/
theorem yield (hv : b.Valid) (hst : b.state (b.curr h) = .running) :
    (b.yield h).Valid := by
  constructor <;> simp only [Board.yield]
  · exact hv.apart
  · grind [hv.circle]
  · intro a w ha
    have hne : a ≠ b.curr h := by
      rintro rfl
      have := (hv.wait ha).1
      cases w <;> simp_all [WaitList.state]
    rw [Function.update_of_ne hne]
    exact hv.wait ha
  · exact hv.user
  · exact hv.low
  · exact hv.idle
  · exact hv.idles
  · exact hv.curr
  · exact hv.alone
  · exact hv.home
  · grind [hv.running]
  · exact hv.emergency

/-- After the release of a hart its process is not running. -/
theorem release (hv : b.Valid) :
    (b.release h).Valid ∧ (b.release h).curr = b.curr ∧ (b.release h).on = b.on ∧
      (b.release h).state (b.curr h) ≠ .running := by
  unfold Board.release
  split
  · rename_i hst
    refine ⟨hv.yield hst, rfl, rfl, ?_⟩
    simp [Board.yield]
  · exact ⟨hv, rfl, rfl, ‹_›⟩

/-- A hart whose process is ready or parked dispatches one of its own. -/
theorem dispatch (hv : b.Valid) (hh : h ∈ b.up) {i : Nat} (ht : t ∈ b.on (.circle h i))
    (hst : b.state (b.curr h) ≠ .running) : (b.dispatch h t).Valid := by
  have hcirc := hv.circle ht
  have hready : ∀ {a j}, a ∈ b.on (.circle h j) → b.state a ≠ .running := by
    rintro a j ha hr
    exact hst (hv.running ha hr ▸ hr)
  constructor <;> simp only [Board.dispatch]
  · exact hv.apart
  · grind [hv.circle]
  · intro a w ha
    have hne : a ≠ t := by
      rintro rfl
      exact absurd (hv.apart ha ht) (by simp)
    rw [Function.update_of_ne hne]
    exact hv.wait ha
  · exact hv.user
  · exact hv.low
  · exact hv.idle
  · exact hv.idles
  · grind [hv.curr]
  · grind [hv.alone, hv.home]
  · intro k l i hk ha
    by_cases hkh : k = h
    · subst hkh
      rw [Function.update_self] at ha
      exact (Place.circle.inj (hv.apart ha ht)).1
    · rw [Function.update_of_ne hkh] at ha
      exact hv.home hk ha
  · intro a k i ha hr
    by_cases hat : a = t
    · subst hat
      obtain rfl := (Place.circle.inj (hv.apart ha ht)).1
      rw [Function.update_self]
    · rw [Function.update_of_ne hat] at hr
      have hkh : k ≠ h := fun he => hready (he ▸ ha) hr
      rw [Function.update_of_ne hkh]
      exact hv.running ha hr
  · exact fun hne => absurd rfl hne

/-- A process on a circle may be the emergency process. -/
theorem alarm (hv : b.Valid) {k i : Nat} (ht : t ∈ b.on (.circle k i)) (hi : i ≤ 30) :
    (b.alarm t).Valid :=
  ⟨hv.apart, hv.circle, hv.wait, hv.user, hv.low, hv.idle, hv.idles, hv.curr, hv.alone, hv.home,
    hv.running, fun _ => ⟨k, i, ht, hi⟩⟩

/-- A process that its hart does not run is moved to another hart. -/
theorem steal (hv : b.Valid) (hh : h ∈ b.up) {k i : Nat} (ht : t ∈ b.on (.circle k i)) (hi : i ≤ 30)
    (hne : t ≠ b.curr k) : (b.steal h t).Valid := by
  obtain ⟨hk, hprio, hst⟩ := hv.circle ht
  have hcurr : ∀ l ∈ b.up, b.curr l ≠ t := by
    rintro l hl rfl
    exact hne (hv.home hl ht ▸ rfl)
  have hpid : b.pid t ≠ 0 := by
    intro h0
    have h31 := (hv.circle (hv.idle hk).1).2.1
    rw [← hv.idles ht h0, hprio] at h31
    omega
  constructor <;> simp only [Board.steal, mem_move]
  · exact hv.move_apart
  · grind [hv.circle]
  · grind [hv.wait]
  · grind [hv.user]
  · grind [hv.low]
  · grind [hv.idle]
  · grind [hv.idles]
  · grind [hv.curr]
  · exact hv.alone
  · grind [hv.home]
  · grind [hv.running]
  · intro hne
    obtain ⟨l, j, he, hj⟩ := hv.emergency hne
    grind

/-- A parked process that no hart runs any more is forgotten. -/
theorem reap (hv : b.Valid) {w : WaitList} (ht : t ∈ b.on (.wait w))
    (hcurr : ∀ k ∈ b.up, b.curr k ≠ t) : (b.reap t).Valid := by
  constructor <;> simp only [Board.reap, Set.mem_ofPred_eq]
  · grind [hv.apart]
  · grind [hv.circle]
  · grind [hv.wait]
  · grind [hv.user]
  · grind [hv.low]
  · grind [hv.idle, hv.apart]
  · grind [hv.idles]
  · grind [hv.curr]
  · exact hv.alone
  · grind [hv.home]
  · grind [hv.running]
  · intro hne
    obtain ⟨l, j, he, hj⟩ := hv.emergency hne
    grind [hv.apart]

/-- A new process may join a circle. -/
theorem spawn (hv : b.Valid) (hh : h ∈ b.up) (ht : ∀ q, t ∉ b.on q) {priority pid : Nat}
    (hprio : priority ≤ 30) (hpid : pid ≠ 0) : (b.spawn h t priority pid).Valid := by
  have hcurr : ∀ k ∈ b.up, b.curr k ≠ t := by
    rintro k hk rfl
    obtain ⟨q, hq⟩ := hv.curr hk
    exact ht q hq
  constructor <;> simp only [Board.spawn, mem_move]
  · exact hv.move_apart
  · grind [hv.circle]
  · grind [hv.wait]
  · grind [hv.user]
  · grind [hv.low]
  · grind [hv.idle]
  · grind [hv.idles]
  · grind [hv.curr]
  · exact hv.alone
  · grind [hv.home]
  · grind [hv.running]
  · intro hne
    obtain ⟨l, j, he, hj⟩ := hv.emergency hne
    grind

/-- A hart may come up with an idle process. -/
theorem start (hv : b.Valid) (hh : h ∉ b.up) (ht : ∀ q, t ∉ b.on q) : (b.start h t).Valid := by
  have hcurr : ∀ k ∈ b.up, b.curr k ≠ t := by
    rintro k hk rfl
    obtain ⟨q, hq⟩ := hv.curr hk
    exact ht q hq
  have hnone : ∀ {a i}, a ∉ b.on (.circle h i) := fun ha => hh (hv.circle ha).1
  constructor <;> simp only [Board.start, mem_move, Set.mem_insert_iff]
  · exact hv.move_apart
  · grind [hv.circle]
  · grind [hv.wait]
  · grind [hv.user]
  · grind [hv.low]
  · grind [hv.idle]
  · grind [hv.idles]
  · grind [hv.curr]
  · grind [hv.alone]
  · grind [hv.home]
  · grind [hv.running]
  · intro hne
    obtain ⟨l, j, he, hj⟩ := hv.emergency hne
    grind

/-- One hart with its idle process alone. -/
theorem single {idle : Nat} (hon : ∀ q a, a ∈ b.on q ↔ a = idle ∧ q = .circle 0 31)
    (hup : ∀ l, l ∈ b.up ↔ l = 0) (hst : b.state idle = .running) (hprio : b.priority idle = 31)
    (hpid : b.pid idle = 0) (hcurr : b.curr 0 = idle) (hidle : b.idle 0 = idle)
    (hem : b.emergency = 0) : b.Valid := by
  constructor
  · grind
  · grind
  · grind
  · grind
  · grind
  · grind
  · grind
  · intro k hk
    obtain rfl := (hup k).mp hk
    exact ⟨.circle 0 31, (hon _ _).mpr ⟨hcurr, rfl⟩⟩
  · grind
  · grind
  · grind
  · exact fun hne => absurd hem hne

end Valid

end Board

end RexOS.Smp
