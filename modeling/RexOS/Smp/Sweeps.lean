import Mathlib.Data.Finset.Max
import RexOS.Smp.Frames
import RexOS.Smp.RoundRobin

/-!
# What the sweeper serves

`schedule` marks the circles above the one it takes a process from. After a thousand ticks the
sweeper chooses the marked circle of the greatest priority number and clears all marks. As long as
the same circles have processes this is always the same one, however often it has been served
before.
-/

namespace RexOS.Scheduler.Kernel

variable (s : Kernel) (h : Nat)

/-- The level of the emergency process, if there is one. -/
def alarm : Option Nat :=
  if s.emergencyProcess = 0 then none else some (s.procs s.emergencyProcess).priority

/-- The levels that are marked. -/
def marked : Finset Nat :=
  (Finset.range 32).filter fun i => (s.queues h).lookupBitmap.testBit (i + 32) = true

end RexOS.Scheduler.Kernel

namespace RexOS.Smp

open Bits Scheduler Kernel

variable {procs : Nat → Process} {s s' k : Kernel} {v v' : Place → List Nat} {m m' m₀ : Machine}
  {e : Event} {g g₀ : List (Machine × Event)} {idle h i j l c M : Nat} {R S : Finset Nat}
  {cs : List Nat}

/-! ## The law -/

/-- What serves the levels. -/
inductive Act where
  /-- The sweeper is called where these levels are marked, and chooses a level or none. -/
  | sweep (marked : Finset Nat) (choice : Option Nat)
  /-- A process of the level is dispatched, as the emergency process or as one of the lowest
  level. -/
  | dispatch (emergency : Bool) (level : Nat)
  deriving DecidableEq

namespace Machine

/-- The levels of the processes that are ready or run. -/
def readyLevels (m : Machine) : Finset Nat :=
  ((m.kernel.existing.filter fun a => (m.kernel.procs a).OnCircle).map fun a =>
    (m.kernel.procs a).priority).toFinset

/-- The scheduler where a software interrupt calls the sweeper, if it does. -/
def atSweep (m : Machine) (h : Nat) : Option Kernel :=
  if m.starvTicks h + 1 = 1000 then ((m.kernel.tick h).updateSleepList h).returned else none

def sweeps (m : Machine) : Event → List Act
  | .softInterrupt h => (m.atSweep h).toList.map fun k =>
      .sweep (k.marked h) (k.antiStarvationSweeper h).alarm
  | _ => []

def dispatches (m : Machine) : Event → List Act
  | .softInterrupt h =>
    match m.atSchedule h, m.step (.softInterrupt h) with
    | some k, some m' =>
      [.dispatch (k.kernel.emergencyProcess ≠ 0) (m'.kernel.procs (m'.kernel.curr h)).priority]
    | _, _ => []
  | _ => []

end Machine

/-- A run in which the same levels have processes. -/
structure Stretch (R : Finset Nat) (m₀ : Machine) (g : List (Machine × Event)) (m : Machine) :
    Prop where
  run : Run Machine.step m₀ g m
  before : ∀ x ∈ g, x.1.readyLevels = R
  last : m.readyLevels = R

/-- The acts of a history, the last one first. The sweeper is called before `schedule`. -/
def acts (g : List (Machine × Event)) : List Act :=
  g.flatMap fun x => x.1.dispatches x.2 ++ x.1.sweeps x.2

/-- One round after the other: `schedule` marks, the sweeper chooses a level, and its process is
dispatched. -/
inductive Rounds : List Act → List Nat → Prop
  | nil : Rounds [] []
  | round {as : List Act} {cs ls : List Nat} {marked : Finset Nat} {c : Nat} :
      Rounds as cs → ls ≠ [] →
      Rounds (.dispatch true c :: .sweep marked (some c) :: (ls.map (.dispatch false) ++ as))
        (c :: cs)

/-- The levels dispatched since the last sweep. -/
def sinceSweep : List Act → List Nat
  | [] => []
  | .sweep .. :: _ => []
  | .dispatch _ l :: as => l :: sinceSweep as

/-- No sweep chooses a level dispatched since the one before and leaves out a marked level of `S`
that was not. -/
def FairTo (S : Finset Nat) (as : List Act) : Prop :=
  ∀ marked c before, .sweep marked (some c) :: before <:+ as → c ∈ sinceSweep before →
    ∀ i ∈ S, i ∈ marked → i ∈ sinceSweep before

/-! ## Bits -/

/-- The bit is not cleared. -/
def Keeps (j : Nat) (s s' : Kernel) : Prop :=
  (s.queues 0).lookupBitmap.testBit j = true → (s'.queues 0).lookupBitmap.testBit j = true

/-- Most routines clear no bit. -/
theorem Keeps.frame (j : Nat) : Frame (Keeps j) where
  refl _ := id
  trans hk hs := hs ∘ hk
  node _ _ _ _ _ _ _ := id
  queue s h f hf := by
    unfold Keeps Kernel.onQueue
    dsimp only
    by_cases h0 : 0 = h
    · subst h0
      rw [Function.update_self]
      exact hf j
    · rw [Function.update_of_ne h0]
      exact id
  rest _ hqueues _ _ := by
    unfold Keeps
    rw [hqueues]
    exact id

/-- A process that leaves its circle takes the bit of its level only. -/
theorem Keeps.leaves (hj : (s.procs i).priority ≠ j) : Leaves (Keeps j) s 0 i := by
  intro k _ hprio
  have hF := Keeps.frame j
  unfold Kernel.leaveCircle
  dsimp only
  refine hF.trans ?_ (hF.mapCount _ 0 _)
  split
  · refine hF.trans (hF.setCircle k 0 (k.procs i).priority 0) ?_
    unfold Keeps Kernel.setBitmap Kernel.setCircle Kernel.onQueue
    simp only [Function.update_self]
    intro hbit
    rw [testBit_andNot, hbit, Nat.testBit_two_pow, hprio, decide_eq_false hj]
    rfl
  · have hlinks : Keeps j k ((k.setPrev (k.procs i).next (k.procs i).prev).setNext (k.procs i).prev
        (k.procs i).next) := hF.trans (hF.setPrev k _ _) (hF.setNext _ _ _)
    split
    · exact hF.trans hlinks (hF.setCircle _ 0 _ _)
    · exact hlinks

/-- The search from above finds the greatest. -/
theorem find_greatest {p : Nat → Bool} {n : Nat} (hM : M < n) (hp : p M = true)
    (hgt : ∀ i < n, M < i → p i = false) : (List.range n).reverse.find? p = some M := by
  induction n with
  | zero => exact absurd hM (Nat.not_lt_zero M)
  | succ n ih =>
    rw [List.range_succ, List.reverse_append, List.reverse_singleton, List.singleton_append,
      List.find?_cons]
    rcases Nat.lt_succ_iff_lt_or_eq.mp hM with hlt | rfl
    · rw [hgt n n.lt_succ_self hlt]
      exact ih hlt fun i hi => hgt i (Nat.lt_succ_of_lt hi)
    · rw [hp]

/-- The sweeper chooses the greatest level up to 30 that is marked and has a process. -/
theorem alarm_sweeper (hM : M ≤ 30) (hbit : (s.queues 0).lookupBitmap.testBit M = true)
    (hmark : (s.queues 0).lookupBitmap.testBit (M + 32) = true)
    (hgt : ∀ i ≤ 30, M < i → (s.queues 0).lookupBitmap.testBit i = false) :
    (s.antiStarvationSweeper 0).emergencyProcess = (s.queues 0).activeProcessCircles M := by
  have hsome : (s.queues 0).lookupBitmap >>> 32 ≠ 0 := by
    intro h0
    have hzero := congrArg (Nat.testBit · M) h0
    simp only [Nat.testBit_shiftRight, Nat.zero_testBit, Nat.add_comm 32, hmark] at hzero
    exact absurd hzero (by decide)
  have hfind : (List.range 31).reverse.find? (fun i => (s.queues 0).lookupBitmap.testBit (i + 32) &&
      (s.queues 0).lookupBitmap.testBit i) = some M := by
    refine find_greatest (by omega) (by rw [hmark, hbit]; rfl) fun i hi hlt => ?_
    rw [hgt i (by omega) hlt, Bool.and_false]
  unfold antiStarvationSweeper
  dsimp only
  rw [if_neg hsome, hfind]
  rfl

/-- The sweeper leaves the low bits alone. -/
theorem sweeper_low (hi : i < 32) : ((s.antiStarvationSweeper 0).queues 0).lookupBitmap.testBit i =
    (s.queues 0).lookupBitmap.testBit i := by
  have hmask : ∀ k : Kernel, (((k.setBitmap 0 ((s.queues 0).lookupBitmap &&& 0xFFFFFFFF)).queues
      0).lookupBitmap.testBit i) = (s.queues 0).lookupBitmap.testBit i := by
    intro k
    unfold Kernel.setBitmap Kernel.onQueue
    dsimp only
    rw [Function.update_self, Nat.testBit_and, show (0xFFFFFFFF : Nat) = 2 ^ 32 - 1 from rfl,
      Nat.testBit_two_pow_sub_one, decide_eq_true hi, Bool.and_true]
  unfold antiStarvationSweeper
  dsimp only
  split
  · rfl
  · exact hmask _

/-- It leaves the circles alone. -/
theorem sweeper_circles : ((s.antiStarvationSweeper 0).queues 0).activeProcessCircles =
    (s.queues 0).activeProcessCircles := by
  have hkeep : ∀ (k : Kernel) x, ((k.setBitmap 0 x).queues 0).activeProcessCircles =
      (k.queues 0).activeProcessCircles := by
    intro k x
    unfold Kernel.setBitmap Kernel.onQueue
    dsimp only
    rw [Function.update_self]
  unfold antiStarvationSweeper
  dsimp only
  split
  · rfl
  · rw [hkeep]
    split <;> rfl

/-- Without an emergency the first process of the lowest circle is dispatched, and the circles above
are marked. -/
theorem schedule_lowest (hem : s.emergencyProcess = 0) (hi : i < 31)
    (hbit : (s.queues 0).lookupBitmap.testBit i = true)
    (hlow : ∀ j < i, (s.queues 0).lookupBitmap.testBit j = false)
    (hrun : s.schedule 0 = .done () s') :
    s'.curr 0 = (s'.queues 0).activeProcessCircles i ∧ ∀ j, i < j → j < 32 →
      (s.queues 0).lookupBitmap.testBit j = true → (s'.queues 0).lookupBitmap.testBit (j + 32) =
        true := by
  have hback : ((s.putBack 0).queues 0).lookupBitmap = (s.queues 0).lookupBitmap ∧
      (s.putBack 0).emergencyProcess = 0 := by
    unfold Kernel.putBack
    dsimp only
    split
    · exact ⟨by simp [Kernel.setCircle, Kernel.onQueue, Kernel.modify], hem⟩
    · exact ⟨rfl, hem⟩
  have hfind : (List.range 32).find? (fun i => ((s.putBack 0).queues 0).lookupBitmap.testBit i) =
      some i := by
    rw [hback.1, List.find?_range_eq_some]
    refine ⟨hbit, List.mem_range.mpr (by omega), fun j hj => ?_⟩
    rw [hlow j hj]
    rfl
  unfold Kernel.schedule at hrun
  split at hrun
  · cases hrun
  · obtain ⟨_, k, hchoose, hrest⟩ := Outcome.bind_eq_done.mp hrun
    split at hrest
    · cases hrest
    · cases hrest
      unfold Kernel.choose at hchoose
      rw [if_neg (not_not.mpr hback.2), hfind] at hchoose
      dsimp only at hchoose
      split at hchoose
      · cases hchoose
      · cases hchoose
        refine ⟨?_, fun j hij hj hset => ?_⟩
        · simp [Kernel.curr, Kernel.setState, Kernel.setBitmap, Kernel.setCurr,
            Kernel.onQueue, Kernel.modify]
        · simp only [Kernel.setState, Kernel.setBitmap, Kernel.setCurr,
            Kernel.onQueue, Kernel.modify, Function.update_self, hback.1]
          rw [Nat.testBit_or, Nat.testBit_shiftLeft, testBit_andNot, Nat.testBit_and]
          have hmask : (2 ^ (i + 1) - 1).testBit j = false := by
            rw [Nat.testBit_two_pow_sub_one]
            exact decide_eq_false (by omega)
          have hword : (0xFFFFFFFF : Nat).testBit j = true := by
            rw [show (0xFFFFFFFF : Nat) = 2 ^ 32 - 1 from rfl, Nat.testBit_two_pow_sub_one]
            exact decide_eq_true hj
          rw [Nat.add_sub_cancel, hset, hmask, hword]
          simp

/-! ## Levels -/

/-- A level has processes when some process is on its circle. -/
theorem mem_readyLevels : i ∈ m.readyLevels ↔
    ∃ a ∈ m.kernel.existing, (m.kernel.procs a).OnCircle ∧ (m.kernel.procs a).priority = i := by
  unfold Machine.readyLevels
  simp [and_assoc]

/-- On one hart the bitmap shows the levels. -/
theorem Lone.bit (hm : Lone m.kernel v) (hi : i < 32) :
    (m.kernel.queues 0).lookupBitmap.testBit i = true ↔ i ∈ m.readyLevels := by
  have hbits : (m.kernel.queues 0).lookupBitmap.testBit i = true ↔ v (.circle 0 i) ≠ [] :=
    hm.steady.settled.threaded.bits 0 i hi
  rw [hbits, mem_readyLevels, List.ne_nil_iff_exists_cons]
  constructor
  · rintro ⟨a, r, hv⟩
    exact ⟨a, hm.mem_circle.mp (hv ▸ List.mem_cons_self)⟩
  · rintro ⟨a, ha⟩
    obtain ⟨x, xs, hv⟩ := List.exists_cons_of_ne_nil (List.ne_nil_of_mem (hm.mem_circle.mpr ha))
    exact ⟨x, xs, hv⟩

/-- The first process of a circle that has one. -/
theorem Settled.first_priority (hs : Settled s v) (hi : i < 32)
    (hbit : (s.queues 0).lookupBitmap.testBit i = true) :
    (s.queues 0).activeProcessCircles i ≠ 0 ∧
      (s.procs ((s.queues 0).activeProcessCircles i)).priority = i := by
  have hmem : (s.queues 0).activeProcessCircles i ∈ v (.circle 0 i) :=
    List.mem_of_head? (hs.first_of_bit hi hbit)
  refine ⟨fun h0 => hs.threaded.nonzero _ (h0 ▸ hmem), (hs.valid.circle hmem).2.1⟩

/-- The current process has one of the 32 priorities. -/
theorem Settled.curr_low (hs : Settled s v) (hh : s.started h = true) :
    (s.procs (s.curr h)).priority < 32 := by
  obtain ⟨q, hq⟩ := hs.valid.curr hh
  cases q with
  | circle k i =>
    have hprio : (s.procs (s.curr h)).priority = i := (hs.valid.circle hq).2.1
    by_contra hlarge
    have hnone := hs.threaded.low k i (by omega)
    have hmem : s.curr h ∈ v (.circle k i) := hq
    rw [hnone] at hmem
    exact List.not_mem_nil hmem
  | wait w =>
    have hprio : (s.procs (s.curr h)).priority ≤ 30 :=
      (hs.valid.low hq).resolve_left (hs.valid.wait hq).2
    omega

/-- On one hart there is nothing to steal. -/
theorem Lone.steal (hm : Lone m.kernel v) (hstep : m.step (.steal h) = some m') :
    m'.kernel = m.kernel := by
  obtain ⟨hen, hrun⟩ := Machine.step_eq_some.mp hstep
  obtain rfl : h = 0 := hm.event hen
  have hnone : m.kernel.stealProcess 0 = .done 0 m.kernel := by
    unfold Kernel.stealProcess
    rw [hm.hart, show List.range 1 = [0] from rfl, Kernel.findVictim, if_neg fun hc => hc.2.1 rfl]
    rfl
  obtain ⟨a, m₁, hsteal, hdone⟩ := Outcome.bind_eq_done.mp hrun
  obtain ⟨k, hk, rfl⟩ := Outcome.within_eq_done.mp hsteal
  rw [hnone] at hk
  cases hk
  rw [if_neg (by decide)] at hdone
  cases hdone
  rfl

/-- A birth clears no bit. -/
theorem Lone.spawn {new priority : Nat} {image : Image} (hm : Lone m.kernel v)
    (hstep : m.step (.spawn h new image priority) = some m') (j : Nat) :
    Keeps j m.kernel m'.kernel := by
  obtain ⟨-, hrun⟩ := Machine.step_eq_some.mp hstep
  obtain ⟨a, m₁, hborn, hdone⟩ := Outcome.bind_eq_done.mp hrun
  obtain ⟨k, hk, rfl⟩ := Outcome.within_eq_done.mp hborn
  cases hdone
  unfold Kernel.spawnProcess at hk
  split at hk
  · cases hk
    exact id
  · split at hk
    · cases hk
      exact id
    · obtain ⟨pid, k₁, htake, hdone⟩ := Outcome.bind_eq_done.mp hk
      cases hdone
      have hqueues : (k₁.enroll h new pid image priority).queues = m.kernel.queues := by
        obtain ⟨-, bit, rfl⟩ := takePid_taken hm.steady.settled.given htake
        exact rest_enroll Kernel.queues (fun _ _ => rfl) ..
      intro hbit
      rw [← hqueues] at hbit
      exact (Keeps.frame j).joinCircle _ h new hbit

/-- No event but a software interrupt clears a mark. -/
theorem Lone.keeps (hm : Lone m.kernel v) (hne : ∀ h, e ≠ .softInterrupt h) (hj : 32 ≤ j)
    (hstep : m.step e = some m') : Keeps j m.kernel m'.kernel := by
  have hen := (Machine.step_eq_some.mp hstep).1
  by_cases he : e.Special
  · cases e with
    | start h idle =>
      obtain rfl : h = 0 := hm.event hen
      exact absurd (hen.2.1.symm.trans hm.up) (by simp)
    | spawn h new image priority => exact hm.spawn hstep j
    | softInterrupt h => exact absurd rfl (hne h)
    | steal h =>
      rw [hm.steal hstep]
      exact id
    | timer | external | syscall | clean => exact he.elim
  · have hlow := hm.steady.settled.curr_low hm.up
    refine (Keeps.frame j).step he ?_ hstep
    rw [hm.event hen]
    exact Keeps.leaves (by omega)

/-! ## One event -/

/-- All levels above the lowest one are marked. -/
def AllMarked (R : Finset Nat) (s : Kernel) : Prop :=
  ∀ i ∈ R, (∃ r ∈ R, r < i) → (s.queues 0).lookupBitmap.testBit (i + 32) = true

/-- What precedes the dispatch is the walk over the sleepers, and perhaps a sweep. -/
theorem beforeSchedule_eq (hrun : m.beforeSchedule 0 = .done () m') :
    ∃ k, (m.kernel.tick 0).updateSleepList 0 = .done () k ∧
      (m.atSweep 0 = some k ∧ m'.kernel = k.antiStarvationSweeper 0 ∨
        m.atSweep 0 = none ∧ m'.kernel = k) := by
  obtain ⟨_, m₁, hsleep, hrest⟩ := Outcome.bind_eq_done.mp hrun
  obtain ⟨k, hk, rfl⟩ := Outcome.within_eq_done.mp hsleep
  refine ⟨k, hk, ?_⟩
  unfold Machine.atSweep
  split at hrest
  · rename_i hthousand
    have hthousand : m.starvTicks 0 + 1 = 1000 := hthousand
    cases hrest
    rw [if_pos hthousand, hk]
    exact Or.inl ⟨rfl, rfl⟩
  · rename_i hthousand
    have hthousand : ¬ m.starvTicks 0 + 1 = 1000 := hthousand
    cases hrest
    rw [if_neg hthousand]
    exact Or.inr ⟨rfl, rfl⟩

/-- The low bits show the levels. -/
def Shows (R : Finset Nat) (s : Kernel) : Prop :=
  ∀ i < 32, ((s.queues 0).lookupBitmap.testBit i = true ↔ i ∈ R)

/-- The low bits show the levels that have processes. -/
theorem Lone.shows (hm : Lone m.kernel v) : Shows m.readyLevels m.kernel := fun _ hi => hm.bit hi

/-- The level that the sweeper can choose. -/
structure Greatest (R : Finset Nat) (M : Nat) : Prop where
  small : ∀ i ∈ R, i < 32
  mem : M ∈ R
  le : M ≤ 30
  greatest : ∀ i ∈ R, i ≤ 30 → i ≤ M
  above : ∃ r ∈ R, r < M

/-- Where all is marked, the sweeper chooses the greatest level. -/
theorem Greatest.chosen (hG : Greatest R M) (hs : Shows R s) (hall : AllMarked R s)
    (hafter : Settled (s.antiStarvationSweeper 0) v) :
    (s.antiStarvationSweeper 0).alarm = some M ∧ ∀ i ∈ R, (∃ r ∈ R, r < i) → i ∈ s.marked 0 := by
  have hM := hG.small M hG.mem
  have hem : (s.antiStarvationSweeper 0).emergencyProcess =
      ((s.antiStarvationSweeper 0).queues 0).activeProcessCircles M := by
    rw [sweeper_circles]
    refine alarm_sweeper hG.le ((hs M hM).mpr hG.mem) (hall M hG.mem hG.above) fun i hi hlt => ?_
    rw [Bool.eq_false_iff, ne_eq, hs i (by omega)]
    intro hmem
    have hle := hG.greatest i hmem hi
    omega
  obtain ⟨h0, hprio⟩ := hafter.first_priority hM (by rw [sweeper_low hM, hs M hM]; exact hG.mem)
  refine ⟨?_, fun i hi habove => ?_⟩
  · unfold Kernel.alarm
    rw [if_neg (hem ▸ h0), hem, hprio]
  · exact Finset.mem_filter.mpr ⟨Finset.mem_range.mpr (hG.small i hi), hall i hi habove⟩

/-- What an event does about levels while the same ones have processes. -/
structure Served (R : Finset Nat) (M : Nat) (m m' : Machine) (ds ss : List Act) : Prop where
  sweep : ss = [] ∨ ∃ marked c, ss = [.sweep marked c] ∧ (AllMarked R m.kernel →
    c = some M ∧ ∀ i ∈ R, (∃ r ∈ R, r < i) → i ∈ marked)
  dispatch : ds = [] ∨ (∃ l, ds = [.dispatch true l]) ∨
    ∃ l, ds = [.dispatch false l] ∧ (∀ r ∈ R, l ≤ r) ∧ AllMarked R m'.kernel
  kept : ss = [] → AllMarked R m.kernel → AllMarked R m'.kernel

/-- Marks stay where no high bit is cleared. -/
theorem AllMarked.kept (hall : AllMarked R s) (hk : ∀ j, 32 ≤ j → Keeps j s s') : AllMarked R s' :=
  fun i hi habove => hk _ (Nat.le_add_left 32 i) (hall i hi habove)

/-- Up to the decision to reschedule. -/
theorem Prepared.swept (hp : Prepared m 0 v m₀ v') (hG : Greatest R M) (hs₀ : Shows R m₀.kernel) :
    (m.sweeps (.softInterrupt 0) = [] ∨ ∃ marked c, m.sweeps (.softInterrupt 0) =
      [.sweep marked c] ∧
      (AllMarked R m.kernel → c = some M ∧ ∀ i ∈ R, (∃ r ∈ R, r < i) → i ∈ marked)) ∧
    (m.sweeps (.softInterrupt 0) = [] → ∀ j, Keeps j m.kernel m₀.kernel) := by
  obtain ⟨k, hk, ⟨hat, hsame⟩ | ⟨hat, hsame⟩⟩ := beforeSchedule_eq hp.run
  · have hsweeps :
        m.sweeps (.softInterrupt 0) = [.sweep (k.marked 0) (k.antiStarvationSweeper 0).alarm] := by
      simp only [Machine.sweeps, hat, Option.toList_some, List.map_cons, List.map_nil]
    refine ⟨Or.inr ⟨_, _, hsweeps, fun hall => ?_⟩, fun hnil => ?_⟩
    · have hticks : ∀ j, Keeps j m.kernel k := fun j => (Keeps.frame j).tick hk
      have hshows : Shows R k := by
        intro i hi
        rw [← hs₀ i hi, hsame, sweeper_low hi]
      exact hG.chosen hshows (hall.kept fun j _ => hticks j) (hsame ▸ hp.settled)
    · rw [hsweeps] at hnil
      exact absurd hnil (List.cons_ne_nil _ _)
  · have hsweeps : m.sweeps (.softInterrupt 0) = [] := by
      simp only [Machine.sweeps, hat, Option.toList_none, List.map_nil]
    refine ⟨Or.inl hsweeps, fun _ j => ?_⟩
    rw [hsame]
    exact (Keeps.frame j).tick hk

/-- A dispatch. -/
theorem Lone.dispatch (hm' : Lone s' v') (hG : Greatest R M) (hs : Shows R s) (hs' : Shows R s')
    (hem : s.emergencyProcess = 0) (hrun : s.schedule 0 = .done () s') :
    (∀ r ∈ R, (s'.procs (s'.curr 0)).priority ≤ r) ∧ AllMarked R s' := by
  obtain ⟨r₀, hr₀, hr₀M⟩ := hG.above
  obtain ⟨i, hi, hleast⟩ : ∃ i ∈ R, ∀ r ∈ R, i ≤ r :=
    ⟨R.min' ⟨r₀, hr₀⟩, R.min'_mem _, fun r hr => R.min'_le r hr⟩
  have hi31 : i < 31 := by
    have hle : i ≤ r₀ := hleast r₀ hr₀
    have hM := hG.le
    omega
  obtain ⟨hcurr, hmarks⟩ := schedule_lowest hem hi31 ((hs i (by omega)).mpr hi) (fun j hj => by
    rw [Bool.eq_false_iff, ne_eq, hs j (by omega)]
    intro hmem
    exact absurd (hleast j hmem) (Nat.not_le.mpr hj)) hrun
  obtain ⟨-, hprio⟩ := hm'.steady.settled.first_priority (by omega) ((hs' i (by omega)).mpr hi)
  refine ⟨fun r hr => ?_, fun j hj ⟨r, hr, hrj⟩ => ?_⟩
  · rw [hcurr, hprio]
    exact hleast r hr
  · have hj32 := hG.small j hj
    exact hmarks j ((hleast r hr : i ≤ r).trans_lt hrj) hj32 ((hs j hj32).mpr hj)

/-- What one event does about the levels. -/
theorem Lone.served (hm : Lone m.kernel v) (hG : Greatest R M) (hR : m.readyLevels = R)
    (hR' : m'.readyLevels = R) (hstep : m.step e = some m') :
    Served R M m m' (m.dispatches e) (m.sweeps e) := by
  obtain ⟨v', hcourse, hm'⟩ := hm.course hstep
  have hs : Shows R m.kernel := hR ▸ hm.shows
  have hs' : Shows R m'.kernel := hR' ▸ hm'.shows
  have hzero := hm.event (Machine.step_eq_some.mp hstep).1
  cases hcourse with
  | calls hne hcalls =>
    have hnone : m.dispatches e = [] ∧ m.sweeps e = [] := by
      cases e with
      | softInterrupt h => exact absurd rfl (hne h)
      | start | spawn | timer | external | syscall | steal | clean => exact ⟨rfl, rfl⟩
    exact ⟨Or.inl hnone.2, Or.inl hnone.1, fun _ hall => hall.kept
      fun j hj => hm.keeps hne hj hstep⟩
  | @stays h _ v₁ hp hdue =>
    obtain rfl : h = 0 := hzero
    have hnone : m.dispatches (.softInterrupt 0) = [] := by
      have hat : m.atSchedule 0 = none := by
        unfold Machine.atSchedule
        rw [hp.run]
        exact if_neg hdue
      simp only [Machine.dispatches, hat]
    obtain ⟨hsweep, hkeep⟩ := hp.swept hG hs'
    exact ⟨hsweep, Or.inl hnone, fun hnil hall => hall.kept fun j _ => hkeep hnil j⟩
  | @dispatches h x m₁ v₁ s' hp hdue hrun hd =>
    obtain rfl : h = 0 := hzero
    have hsched : ∀ j, Keeps j m₁.kernel s' := fun j => (Keeps.frame j).schedule hrun
    have hlow : ∀ i < 32, Keeps i m.kernel m₁.kernel := by
      obtain ⟨k, hk, ⟨-, hsame⟩ | ⟨-, hsame⟩⟩ := beforeSchedule_eq hp.run
      · intro i hi hbit
        rw [hsame, sweeper_low hi]
        exact (Keeps.frame i).tick hk hbit
      · intro i _
        rw [hsame]
        exact (Keeps.frame i).tick hk
    have hs₁ : Shows R m₁.kernel := fun i hi =>
      ⟨fun hbit => (hs' i hi).mp (hsched i hbit), fun hmem => hlow i hi ((hs i hi).mpr hmem)⟩
    have hone : m.dispatches (.softInterrupt 0) =
        [.dispatch (m₁.kernel.emergencyProcess ≠ 0) (s'.procs (s'.curr 0)).priority] := by
      have hat : m.atSchedule 0 = some m₁ := by
        unfold Machine.atSchedule
        rw [hp.run]
        exact if_pos hdue
      simp only [Machine.dispatches, hat, hstep]
      rfl
    obtain ⟨hsweep, hkeep⟩ := hp.swept hG hs₁
    refine ⟨hsweep, Or.inr ?_, fun hnil hall => hall.kept fun j _ => (hsched j) ∘ hkeep hnil j⟩
    by_cases hem : m₁.kernel.emergencyProcess = 0
    · refine Or.inr ⟨_, ?_, Lone.dispatch hm' hG hs₁ hs' hem hrun⟩
      rw [hone, decide_eq_false (not_not.mpr hem)]
      rfl
    · refine Or.inl ⟨(s'.procs (s'.curr 0)).priority, ?_⟩
      rw [hone, decide_eq_true hem]

/-! ## Runs -/

/-- The acts of a run, event by event. -/
theorem acts_cons (m : Machine) (e : Event) (g : List (Machine × Event)) :
    acts ((m, e) :: g) = m.dispatches e ++ (m.sweeps e ++ acts g) := by
  unfold acts
  rw [List.flatMap_cons, List.append_assoc]

/-- A sweep after a dispatch that has marked chooses the greatest level, though the others are
marked, too. -/
def ChoosesGreatest (R : Finset Nat) (M : Nat) (as : List Act) : Prop :=
  ∀ marked c l before, .sweep marked c :: .dispatch false l :: before <:+ as →
    c = some M ∧ ∀ i ∈ R, (∃ r ∈ R, r < i) → i ∈ marked

/-- What holds of the acts while the same levels have processes. -/
structure Swept (R : Finset Nat) (M : Nat) (as : List Act) (s : Kernel) : Prop where
  marked : ∀ l before, as = .dispatch false l :: before → AllMarked R s
  lowest : ∀ l, .dispatch false l ∈ as → ∀ r ∈ R, l ≤ r
  greatest : ChoosesGreatest R M as

/-- The sweeper is called. -/
theorem Swept.sweep {as : List Act} {marked : Finset Nat} {choice : Option Nat}
    (hs : Swept R M as s)
    (hchoice : AllMarked R s → choice = some M ∧ ∀ i ∈ R, (∃ r ∈ R, r < i) → i ∈ marked) :
    Swept R M (.sweep marked choice :: as) s' := by
  refine ⟨fun l before he => (by cases he), fun l hl => ?_, fun mk c l before hsuff => ?_⟩
  · exact hs.lowest l ((List.mem_cons.mp hl).resolve_left (by simp))
  · rcases List.suffix_cons_iff.mp hsuff with he | hsuff
    · cases he
      exact hchoice (hs.marked l before rfl)
    · exact hs.greatest mk c l before hsuff

/-- A process is dispatched. -/
theorem Swept.dispatch {as : List Act} {b : Bool} (hs : Swept R M as s)
    (hl : b = false → (∀ r ∈ R, l ≤ r) ∧ AllMarked R s') : Swept R M (.dispatch b l :: as) s' := by
  refine ⟨fun l' before he => ?_, fun l' hmem => ?_, fun mk c l' before hsuff => ?_⟩
  · cases he
    exact (hl rfl).2
  · rcases List.mem_cons.mp hmem with he | hmem
    · cases he
      exact (hl rfl).1
    · exact hs.lowest l' hmem
  · rcases List.suffix_cons_iff.mp hsuff with he | hsuff
    · cases he
    · exact hs.greatest mk c l' before hsuff

/-- One event of the stretch. -/
theorem Swept.step {as ds ss : List Act} (hs : Swept R M as m.kernel)
    (hserved : Served R M m m' ds ss) :
    Swept R M (ds ++ (ss ++ as)) m'.kernel := by
  have hdispatch : ∀ {as' : List Act} {k : Kernel}, Swept R M as' k → ds ≠ [] →
      Swept R M (ds ++ as') m'.kernel := by
    intro as' k hk hne
    rcases hserved.dispatch with hnil | ⟨l, rfl⟩ | ⟨l, rfl, hlow, hall⟩
    · exact absurd hnil hne
    · exact hk.dispatch fun hb => absurd hb (by decide)
    · exact hk.dispatch fun _ => ⟨hlow, hall⟩
  have hswept : ss ≠ [] → ∀ k, Swept R M (ss ++ as) k := by
    intro hne k
    obtain ⟨marked, c, rfl, hc⟩ := hserved.sweep.resolve_left hne
    exact hs.sweep hc
  by_cases hds : ds = []
  · by_cases hss : ss = []
    · rw [hds, hss]
      refine ⟨fun l before he => hserved.kept hss (hs.marked l before he), hs.lowest, hs.greatest⟩
    · rw [hds]
      exact hswept hss _
  · by_cases hss : ss = []
    · rw [hss]
      exact hdispatch hs hds
    · exact hdispatch (hswept hss m.kernel) hds

/-- The whole stretch. -/
theorem swept_run (hm : Lone m₀.kernel v) (hG : Greatest R M) (hs : Stretch R m₀ g m) :
    (∃ v', Lone m.kernel v') ∧ Swept R M (acts g) m.kernel := by
  obtain ⟨hr, hbefore, hlast⟩ := hs
  induction hr with
  | nil => exact ⟨⟨v, hm⟩, fun _ _ he => absurd he.symm (List.cons_ne_nil _ _),
      fun _ hl => absurd hl List.not_mem_nil, fun _ _ _ _ hsuff =>
        absurd (List.suffix_nil.mp hsuff) (by simp)⟩
  | snoc hr hstep ih =>
    obtain ⟨ht, hall⟩ := List.forall_mem_cons.mp hbefore
    obtain ⟨⟨v₁, hlone⟩, hs⟩ := ih hall ht
    obtain ⟨v', -, hm'⟩ := hlone.course hstep
    refine ⟨⟨v', hm'⟩, ?_⟩
    rw [acts_cons]
    exact hs.step (hlone.served hG ht hlast hstep)

/-! ## Rounds -/

/-- It holds of earlier acts. -/
theorem ChoosesGreatest.suffix {as bs : List Act} (hc : ChoosesGreatest R M as)
    (hsuff : bs <:+ as) :
    ChoosesGreatest R M bs :=
  fun marked c l before hb => hc marked c l before (hb.trans hsuff)

/-- The sweep of a round. -/
theorem ChoosesGreatest.round {as : List Act} {ls : List Nat} {marked : Finset Nat}
    (hc : ChoosesGreatest R M
      (.dispatch true c :: .sweep marked (some c) :: (ls.map (.dispatch false) ++ as)))
    (hls : ls ≠ []) : c = M ∧ ∀ i ∈ R, (∃ r ∈ R, r < i) → i ∈ marked := by
  obtain ⟨l, ls, rfl⟩ := List.exists_cons_of_ne_nil hls
  obtain ⟨hchoice, hmarked⟩ :=
    hc marked (some c) l (ls.map (.dispatch false) ++ as) (List.suffix_cons _ _)
  exact ⟨Option.some.inj hchoice, hmarked⟩

/-- So every round chooses the greatest level. -/
theorem Rounds.greatest {as : List Act} (hr : Rounds as cs) (hc : ChoosesGreatest R M as) :
    ∀ c ∈ cs, c = M := by
  induction hr with
  | nil => exact fun c hc => absurd hc List.not_mem_nil
  | @round as cs ls marked c hr hls ih =>
    refine List.forall_mem_cons.mpr ⟨(hc.round hls).1, ih (hc.suffix ?_)⟩
    exact ((List.suffix_append _ _).trans (List.suffix_cons _ _)).trans (List.suffix_cons _ _)

/-- The dispatches since the last sweep. -/
theorem sinceSweep_marking (ls : List Nat) (as : List Act) :
    sinceSweep (ls.map (.dispatch false) ++ as) = ls ++ sinceSweep as := by
  induction ls with
  | nil => rfl
  | cons l ls ih => exact congrArg (l :: ·) ih

/-- The second of two rounds serves the level of the first one again. -/
theorem Rounds.unfair {as : List Act} (hr : Rounds as cs) (h2 : 2 ≤ cs.length) (hs : Swept R M as s)
    (hS : S ⊆ R) (hlow : ∀ i ∈ S, ∃ r ∈ R, r < i) (hother : ∃ i ∈ S, i ≠ M) : ¬ FairTo S as := by
  intro hfair
  obtain ⟨i, hi, hne⟩ := hother
  cases hr with
  | nil => exact absurd h2 (by decide)
  | @round as₁ cs₁ ls marked c hr₁ hls =>
    cases hr₁ with
    | nil => exact absurd h2 (by simp)
    | @round as₂ cs₂ ls₂ marked₂ c₂ hr₂ hls₂ =>
      obtain ⟨rfl, hmarked⟩ := hs.greatest.round hls
      have hsuff :
        Act.dispatch true c₂ :: .sweep marked₂ (some c₂) :: (ls₂.map (.dispatch false) ++ as₂) <:+
          .dispatch true c :: .sweep marked (some c) :: (ls.map (.dispatch false) ++
            .dispatch true c₂ :: .sweep marked₂ (some c₂) :: (ls₂.map (.dispatch false) ++ as₂)) :=
        ((List.suffix_append _ _).trans (List.suffix_cons _ _)).trans (List.suffix_cons _ _)
      obtain ⟨rfl, -⟩ := (hs.greatest.suffix hsuff).round hls₂
      have hsince := hfair marked c₂ _ (List.suffix_cons _ _) (by
        rw [sinceSweep_marking]
        exact List.mem_append_right ls List.mem_cons_self) i hi (hmarked i (hS hi) (hlow i hi))
      rw [sinceSweep_marking] at hsince
      rcases List.mem_append.mp hsince with hl | hl
      · -- what `schedule` takes without an emergency is of the lowest level
        obtain ⟨r, hr, hlt⟩ := hlow i hi
        have hle := hs.lowest i (List.mem_cons_of_mem _ (List.mem_cons_of_mem _
          (List.mem_append_left _ (List.mem_map_of_mem hl)))) r hr
        omega
      · exact hne (List.mem_singleton.mp hl)

/-- On one hart, while the same levels have processes: of two or more levels above another one, not
all are chosen in as many rounds, and a level just served is chosen again. -/
theorem sweeper_starves (h0 : idle ≠ 0) (hr₀ : Run Machine.step (booted procs 0 idle) g₀ m₀)
    (hs : Stretch R m₀ g m) (hS : S ⊆ R) (h2 : 2 ≤ S.card) (h30 : ∀ i ∈ S, i ≤ 30)
    (hlow : ∃ r ∈ R, ∀ i ∈ S, r < i) (hrounds : Rounds (acts g) cs) (hn : cs.length = S.card) :
    ¬ (∀ i ∈ S, i ∈ cs) ∧ ¬ FairTo S (acts g) := by
  obtain ⟨v, hm⟩ := lone_run h0 hr₀
  obtain ⟨r, hr', hlow⟩ := hlow
  obtain ⟨t, ht⟩ : S.Nonempty := Finset.card_pos.mp (by omega)
  have htop : (R.filter (· ≤ 30)).Nonempty := ⟨t, Finset.mem_filter.mpr ⟨hS ht, h30 t ht⟩⟩
  generalize hM : (R.filter (· ≤ 30)).max' htop = M
  have hmem := Finset.max'_mem _ htop
  have hmax : ∀ i ∈ R, i ≤ 30 → i ≤ M := fun i hi hle =>
    hM ▸ Finset.le_max' _ i (Finset.mem_filter.mpr ⟨hi, hle⟩)
  rw [hM] at hmem
  obtain ⟨hMR, hM30⟩ := Finset.mem_filter.mp hmem
  have hsmall : ∀ i ∈ R, i < 32 := by
    intro i hi
    obtain ⟨v', hm'⟩ := lone_run h0 (hr₀.append hs.run)
    rw [← hs.last, mem_readyLevels] at hi
    obtain ⟨a, ha⟩ := hi
    by_contra hlarge
    have hnone := hm'.steady.settled.threaded.low 0 i (by omega)
    exact List.not_mem_nil (hnone ▸ hm'.mem_circle.mpr ha)
  have hG : Greatest R M :=
    ⟨hsmall, hMR, hM30, hmax, r, hr', (hlow t ht).trans_le (hmax t (hS ht) (h30 t ht))⟩
  obtain ⟨-, hswept⟩ := swept_run hm hG hs
  obtain ⟨i, hi, hne⟩ := Finset.exists_mem_ne h2 M
  refine ⟨fun hall => hne (hrounds.greatest hswept.greatest i (hall i hi)), ?_⟩
  exact hrounds.unfair (hn ▸ h2) hswept hS (fun i hi => ⟨r, hr', hlow i hi⟩) ⟨i, hi, hne⟩

/-! ## Long stretches -/

/-- Links and ticks do not matter to the levels. -/
theorem readyLevels_congr (hex : m'.kernel.existing = m.kernel.existing)
    (hst : ∀ a, (m'.kernel.procs a).state = (m.kernel.procs a).state)
    (hprio : ∀ a, (m'.kernel.procs a).priority = (m.kernel.procs a).priority) :
    m'.readyLevels = m.readyLevels := by
  ext i
  simp only [mem_readyLevels, Process.OnCircle, hex, hst, hprio]

/-- Waiting does not change them. -/
theorem readyLevels_waited (m : Machine) (h n : Nat) :
    (m.waited h n).readyLevels = m.readyLevels := by
  refine readyLevels_congr rfl (m.state_waited h n) fun a => ?_
  rw [m.procs_waited]
  split <;> rfl

/-- Spinning takes time only. -/
theorem procs_idled (m : Machine) (h n a : Nat) : (m.idled h n).kernel.procs a =
    if a = m.kernel.curr h then { m.kernel.procs a with cpuTime := (m.kernel.procs a).cpuTime + n }
    else m.kernel.procs a := by
  by_cases ha : a = m.kernel.curr h
  · rw [if_pos ha, ha]
    exact Function.update_self ..
  · rw [if_neg ha]
    exact Function.update_of_ne ha ..

/-- It does not change the levels either. -/
theorem readyLevels_idled (m : Machine) (h n : Nat) :
    (m.idled h n).readyLevels = m.readyLevels := by
  refine readyLevels_congr rfl (fun a => ?_) fun a => ?_
  · rw [procs_idled]
    split <;> rfl
  · rw [procs_idled]
    split <;> rfl

/-- Ticks of a hart that is left alone. -/
theorem Stretch.ticks {g' : List (Machine × Event)} {u : Machine} (hs : Stretch R m₀ g m)
    (hr : Run Machine.step m₀ (g' ++ g) u) (hu : u.readyLevels = R)
    (hin : ∀ x ∈ g', ∃ i, m.InTick h i x) : Stretch R m₀ (g' ++ g) u ∧ acts (g' ++ g) = acts g := by
  have hsilent : ∀ x ∈ g', x.1.dispatches x.2 = [] ∧ x.1.sweeps x.2 = [] ∧ x.1.readyLevels = R := by
    intro x hx
    obtain ⟨i, rfl | ⟨rfl, halone⟩⟩ := hin x hx
    · exact ⟨rfl, rfl, (readyLevels_waited m h i).trans hs.last⟩
    · refine ⟨?_, ?_, (readyLevels_waited m h i).trans hs.last⟩
      · simp only [Machine.dispatches, halone.atSchedule]
      · have hcalm := halone.calm
        have hnone : Machine.atSweep _ h = none := if_neg (Nat.ne_of_lt hcalm)
        simp only [Machine.sweeps, hnone, Option.toList_none, List.map_nil]
  refine ⟨⟨hr, fun x hx => ?_, hu⟩, ?_⟩
  · exact (List.mem_append.mp hx).elim (fun hx => (hsilent x hx).2.2) (hs.before x)
  · unfold acts
    rw [List.flatMap_append, List.flatMap_eq_nil_iff.mpr fun x hx => ?_, List.nil_append]
    rw [(hsilent x hx).1, (hsilent x hx).2.1, List.nil_append]

/-- One event more. -/
theorem Stretch.event {u : Machine} (hs : Stretch R m₀ g m) (hstep : m.step e = some u)
    (hu : u.readyLevels = R) : Stretch R m₀ ((m, e) :: g) u :=
  ⟨hs.run.snoc hstep, List.forall_mem_cons.mpr ⟨hs.last, hs.before⟩, hu⟩

/-- A slice of a process that is alone on the lowest circle. -/
theorem Stretch.slice {p n : Nat} (hs : Stretch R m₀ g m) (hi : m.Spins h p n) :
    ∃ g', Stretch R m₀ g' (m.idled h (n + 1)) ∧ acts g' = .dispatch false p :: acts g := by
  obtain ⟨g', hr, hin⟩ := hi.alone.ticks hs.run hi.quiet.2
  obtain ⟨hwaited, hacts⟩ := hs.ticks hr ((readyLevels_waited m h n).trans hs.last) hin
  have htimer := hwaited.event (Machine.step_timer (h := h) _ hi.alone.up) hwaited.last
  have hsoft := htimer.event hi.softInterrupt ((readyLevels_idled m h (n + 1)).trans hs.last)
  refine ⟨_, hsoft, ?_⟩
  have hlevel : ((m.idled h (n + 1)).kernel.procs ((m.idled h (n + 1)).kernel.curr h)).priority =
      p := by
    rw [show (m.idled h (n + 1)).kernel.curr h = m.kernel.curr h from rfl, procs_idled, if_pos rfl]
    exact hi.priority
  have hdispatches :
    Machine.dispatches ((m.waited h n).withKernel ((m.waited h n).kernel.trigger h))
      (.softInterrupt h) = [.dispatch false p] := by
    have hem : (m.waited h (n + 1)).kernel.emergencyProcess = 0 := hi.quiet.1
    simp only [Machine.dispatches, hi.atSchedule, hi.softInterrupt, hlevel, hem, ne_eq,
      not_true_eq_false, decide_false]
  have hsweeps : Machine.sweeps ((m.waited h n).withKernel ((m.waited h n).kernel.trigger h))
      (.softInterrupt h) = [] := by
    have hstarv : (m.waited h n).starvTicks h = m.starvTicks h + n := Function.update_self ..
    have hcalm := hi.calm
    have hnone : Machine.atSweep ((m.waited h n).withKernel ((m.waited h n).kernel.trigger h)) h =
        none := by
      refine if_neg ?_
      show (m.waited h n).starvTicks h + 1 ≠ 1000
      omega
    simp only [Machine.sweeps, hnone, Option.toList_none, List.map_nil]
  rw [acts_cons, acts_cons, hdispatches, hsweeps, hacts]
  rfl

/-- Some slices more. -/
theorem Stretch.slices {p n k : Nat} (hs : Stretch R m₀ g m) (hi : m.Spins h p n)
    (hcalm : m.starvTicks h + (n + 1) * k < 1000) :
    ∃ g', Stretch R m₀ g' (m.idled h ((n + 1) * k)) ∧
      acts g' = List.replicate k (.dispatch false p) ++ acts g := by
  induction k with
  | zero =>
    rw [Nat.mul_zero, Machine.idled_zero]
    exact ⟨g, hs, rfl⟩
  | succ k ih =>
    rw [Nat.mul_succ] at hcalm ⊢
    obtain ⟨g', hg', hacts⟩ := ih (by omega)
    obtain ⟨g₁, hnext, hacts₁⟩ := hg'.slice (hi.idled (by omega))
    rw [Machine.idled_idled] at hnext
    exact ⟨g₁, hnext, hacts₁.trans (congrArg _ hacts)⟩

/-- A part of a stretch: an event, or ticks or slices of a hart that is left alone. -/
inductive Phase where
  | event (e : Event)
  | wait (h n : Nat)
  | slices (h p n k : Nat)

/-- The phases can follow one another, from the acts `as` on, to acts and a machine in `Q`. -/
def Logs (R : Finset Nat) (Q : List Act → Machine → Prop) : List Act → Machine → List Phase → Prop
  | as, m, [] => Q as m
  | as, m, .event e :: ps => ∃ u, m.step e = some u ∧ u.readyLevels = R ∧
      Logs R Q (m.dispatches e ++ (m.sweeps e ++ as)) u ps
  | as, m, .wait h n :: ps =>
    ((m.kernel.queues h).ssip = false ∧ m.Alone h n) ∧ Logs R Q as (m.waited h n) ps
  | as, m, .slices h p n k :: ps => (m.Spins h p n ∧ m.starvTicks h + (n + 1) * k < 1000) ∧
      Logs R Q (List.replicate k (.dispatch false p) ++ as) (m.idled h ((n + 1) * k)) ps

instance Logs.decidable {Q : List Act → Machine → Prop} [∀ as m, Decidable (Q as m)] :
    (as : List Act) → (m : Machine) → (ps : List Phase) → Decidable (Logs R Q as m ps)
  | as, m, [] => inferInstanceAs (Decidable (Q as m))
  | as, m, .event e :: ps =>
    match h : m.step e with
    | none => isFalse fun ⟨_, hu, _⟩ => Option.some_ne_none _ (hu.symm.trans h)
    | some u =>
      have := Logs.decidable (Q := Q) (m.dispatches e ++ (m.sweeps e ++ as)) u ps
      decidable_of_iff (u.readyLevels = R ∧ Logs R Q (m.dispatches e ++ (m.sweeps e ++ as)) u ps)
        ⟨fun hq => ⟨u, h, hq⟩, fun ⟨_, hu, hq⟩ => Option.some.inj (h.symm.trans hu) ▸ hq⟩
  | as, m, .wait h n :: ps =>
    have := Logs.decidable (Q := Q) as (m.waited h n) ps
    inferInstanceAs (Decidable ((_ ∧ _) ∧ _))
  | as, m, .slices h p n k :: ps =>
    have : Decidable
        (Logs R Q (List.replicate k (.dispatch false p) ++ as) (m.idled h ((n + 1) * k)) ps) :=
      Logs.decidable ..
    inferInstanceAs (Decidable ((_ ∧ _) ∧ _))

/-- Phases that can follow one another are a stretch. -/
theorem Logs.exists_stretch {Q : List Act → Machine → Prop} {ps : List Phase}
    (hs : Stretch R m₀ g m)
    (hps : Logs R Q (acts g) m ps) : ∃ g' u, Stretch R m₀ g' u ∧ Q (acts g') u := by
  induction ps generalizing m g with
  | nil => exact ⟨g, m, hs, hps⟩
  | cons p ps ih =>
    cases p with
    | event e =>
      obtain ⟨u, hstep, hu, hps⟩ := hps
      exact ih (hs.event hstep hu) ((acts_cons m e g).symm ▸ hps)
    | wait h n =>
      obtain ⟨⟨hssip, ha⟩, hps⟩ := hps
      obtain ⟨g', hr, hin⟩ := ha.ticks hs.run hssip
      obtain ⟨hwaited, hacts⟩ := hs.ticks hr ((readyLevels_waited m h n).trans hs.last) hin
      exact ih hwaited (hacts.symm ▸ hps)
    | slices h p n k =>
      obtain ⟨⟨hi, hcalm⟩, hps⟩ := hps
      obtain ⟨g', hg', hacts⟩ := hs.slices hi hcalm
      exact ih hg' (hacts.symm ▸ hps)

/-- A wait and the tick after it. -/
def Phase.until (n : Nat) : List Phase := [.wait 0 n, .event (.timer 0), .event (.softInterrupt 0)]

/-- Processes of the levels 28, 29 and 30 are there. The one of level 28 runs but for the slices
that the sweeper gives away, and both times it gives them to level 30. -/
theorem served_twice : ∃ g₀ m₀ g, ∃ m : Machine, Run Machine.step (booted emptyMemory 0 1) g₀ m₀ ∧
    Stretch {28, 29, 30, 31} m₀ g m ∧ Rounds (acts g) [30, 30] := by
  have hreach : Reaches (fun _ _ => True) (fun m => m.readyLevels = {28, 29, 30, 31} ∧
      Logs {28, 29, 30, 31} (fun as _ => as =
        .dispatch true 30 :: .sweep {29, 30, 31} (some 30) ::
          ((List.replicate 8 28).map (.dispatch false) ++
          .dispatch true 30 :: .sweep {29, 30, 31} (some 30) ::
            ((List.replicate 8 28).map (.dispatch false) ++ [])))
        [] m (Phase.until 127 ++ [.slices 0 28 115 7] ++ Phase.until 59 ++ Phase.until 55 ++
          Phase.until 123 ++
          [.slices 0 28 115 7] ++ Phase.until 7 ++ Phase.until 107)) (booted emptyMemory 0 1)
      [.event (.spawn 0 3 ⟨0, 0⟩ 28), .event (.spawn 0 4 ⟨0, 0⟩ 29),
        .event (.spawn 0 5 ⟨0, 0⟩ 30)] := by
    decide +kernel
  obtain ⟨g₀, m₀, hr₀, hready, hlogs⟩ := hreach.run
  have hstart : Stretch {28, 29, 30, 31} m₀ [] m₀ :=
    ⟨.nil, fun _ hx => absurd hx List.not_mem_nil, hready⟩
  obtain ⟨g, m, hstretch, hacts⟩ := Logs.exists_stretch hstart hlogs
  refine ⟨g₀, m₀, g, m, hr₀, hstretch, ?_⟩
  rw [hacts]
  exact .round (.round .nil (by decide)) (by decide)

/-- Level 29 is not served. -/
theorem sweeper_starves_level :
    ∃ g₀ m₀ g, ∃ m : Machine, Run Machine.step (booted emptyMemory 0 1) g₀ m₀ ∧
    Stretch {28, 29, 30, 31} m₀ g m ∧ Rounds (acts g) [30, 30] ∧
    ¬ (∀ i ∈ ({29, 30} : Finset Nat), i ∈ [30, 30]) ∧ ¬ FairTo {29, 30} (acts g) := by
  obtain ⟨g₀, m₀, g, m, hr₀, hs, hrounds⟩ := served_twice
  exact ⟨g₀, m₀, g, m, hr₀, hs, hrounds, sweeper_starves (by decide) hr₀ hs (by decide)
    (by decide) (by decide) ⟨28, by decide, by decide⟩ hrounds rfl⟩

/-- In as many rounds as there are levels above 28, one of them is not chosen. -/
theorem level_not_chosen :
    ∃ g₀ m₀ g, ∃ m : Machine, Run Machine.step (booted emptyMemory 0 1) g₀ m₀ ∧
    Stretch {28, 29, 30, 31} m₀ g m ∧ ∃ cs, Rounds (acts g) cs ∧
      cs.length = ({29, 30} : Finset Nat).card ∧
    29 ∉ cs := by
  obtain ⟨g₀, m₀, g, m, hr₀, hs, hrounds⟩ := served_twice
  exact ⟨g₀, m₀, g, m, hr₀, hs, [30, 30], hrounds, rfl, by decide⟩

end RexOS.Smp
