import RexOS.Core.Runs
import RexOS.Scheduler.Carried

/-!
# The run queue over whole runs

From `scheduler_init` on, whatever the trap handlers of one hart call in whatever order, each
process stands on the one structure its state names, every structure is well formed and the
bitmap shows the circles that are not empty. Each call returns.
-/

namespace RexOS.Scheduler

open Kernel

/-- The calls of the trap handlers, and births. Those that block, put to sleep or end a process
do so with the running one. -/
inductive Call where
  | spawn (new : Nat) (image : Image) (priority : Nat)
  | schedule
  | block
  | blockIpc
  | blockIpcSend
  | sleep (ticks : Nat)
  | exit (code : Nat)
  | yield
  | unblock (target : Nat)
  | unblockIpc (target : Nat)
  | unblockIpcSend (target : Nat)
  | updateSleepList
  | sweep
  | wait

namespace Kernel

/-- One call on hart 0; `none` if it does not return. -/
def call (s : Kernel) : Call → Option Kernel
  | .spawn new image priority => (s.spawnProcess 0 new image priority).returned
  | .schedule => (s.schedule 0).returned
  | .block => (s.blockProcess 0 (s.curr 0)).returned
  | .blockIpc => (s.blockIpcProcess 0 (s.curr 0)).returned
  | .blockIpcSend => (s.blockIpcSendProcess 0 (s.curr 0)).returned
  | .sleep ticks => (s.sleepProcess 0 (s.curr 0) ticks).returned
  | .exit code => (s.exitProcess 0 code).returned
  | .yield => some (s.yieldProcess 0)
  | .unblock target => (s.unblockProcess 0 target).returned
  | .unblockIpc target => (s.unblockIpcProcess 0 target).returned
  | .unblockIpcSend target => (s.unblockIpcSendProcess 0 target).returned
  | .updateSleepList => (s.updateSleepList 0).returned
  | .sweep => some (s.antiStarvationSweeper 0)
  | .wait => (s.waitProcess 0).returned

/-- A user process is running. -/
def UserRuns (s : Kernel) : Prop :=
  (s.procs (s.curr 0)).state = .running ∧ (s.procs (s.curr 0)).pid ≠ 0

/-- The handlers block the process that made the call, and wake one that is on the list. A new
process gets an address that no other has. -/
def Callable (s : Kernel) : Call → Prop
  | .spawn new _ priority => new ∉ s.existing ∧ priority ≤ 30
  | .block => s.UserRuns
  | .blockIpc => s.UserRuns
  | .blockIpcSend => s.UserRuns
  | .sleep _ => s.UserRuns
  | .exit _ => s.UserRuns
  | .yield => s.UserRuns
  | .wait => s.UserRuns
  | .unblock target => target ∈ s.existing ∧ (s.procs target).state = .blocked
  | .unblockIpc target => target ∈ s.existing ∧ (s.procs target).state = .ipcBlocked
  | .unblockIpcSend target => target ∈ s.existing ∧ (s.procs target).state = .sendBlocked
  | .schedule => True
  | .updateSleepList => True
  | .sweep => True

/-- The data of one hart before `scheduler_init`; `procs` is what memory happens to hold. -/
def boot (procs : Nat → Process) : Kernel where
  procs := procs
  queues := fun _ => ⟨fun _ => 0, 0, 0, 0, 0, false⟩
  hart := 1
  started := fun j => j == 0
  heads := fun _ => 0
  emergencyProcess := 0
  aliveThreadCounter := 0
  nextPid := 1
  pidRegistry := fun _ => false
  shellPtr := 0
  existing := []

end Kernel

/-- The number of births in a run. -/
def births (g : List (Kernel × Call)) : Nat :=
  g.countP fun x => match x.2 with
    | .spawn _ _ _ => true
    | _ => false

/-- Each process is on the structure its state names and on no other; circles and lists are well
formed; the bitmap and the count agree with the circles. -/
structure InPlace (s : Kernel) (v : Place → List Nat) : Prop where
  place : ∀ a ∈ s.existing, ∀ q, a ∈ v q ↔ q = (s.procs a).place
  members : ∀ q, ∀ a ∈ v q, a ∈ s.existing
  circle : ∀ i, Wheel s.next s.prev (v (.circle 0 i)) ∧
    ∀ a ∈ v (.circle 0 i), (s.procs a).OnCircle ∧ (s.procs a).priority = i
  list : ∀ w, Dll s.next s.prev 0 (s.heads w) (v (.wait w)) ∧
    ∀ a ∈ v (.wait w), (s.procs a).state = w.state
  bitmap : ∀ i < 32, ((s.queues 0).lookupBitmap.testBit i = true ↔ v (.circle 0 i) ≠ []) ∧
    (s.queues 0).activeProcessCircles i = (v (.circle 0 i)).head?.getD 0
  count : (s.queues 0).processCount = load v 0

variable {s s' : Kernel} {v : Place → List Nat} {t idle : Nat} {w : WaitList}

/-- A sound state is one in which every process is in its place. -/
theorem Sound.inPlace (hs : Sound s v) : InPlace s v := by
  have hq := hs.queued
  refine ⟨fun a ha q => ?_, fun q a ha => ((hq.mem q a).mp ha).1, fun i => ⟨hq.threaded.wheel 0 i,
    fun a ha => Process.onCircle_of_place ((hq.mem _ a).mp ha).2⟩, fun w => ⟨hq.threaded.dll w,
    fun a ha => Process.state_of_place ((hq.mem _ a).mp ha).2⟩,
    fun i hi => ⟨hq.threaded.bits 0 i hi, hq.threaded.first_circle 0 i⟩, hq.threaded.counted 0⟩
  rw [hq.mem]
  constructor
  · rintro ⟨_, rfl⟩
    rfl
  · rintro rfl
    exact ⟨ha, rfl⟩

/-! ## The start -/

/-- The idle process alone, on its circle. -/
def onlyIdle (idle : Nat) (q : Place) : List Nat := if q = .circle 0 31 then [idle] else []

/-- After the start only hart 0 has a process to run. -/
theorem load_onlyIdle (idle k : Nat) : load (onlyIdle idle) k = if k = 0 then 1 else 0 := by
  unfold load onlyIdle
  by_cases hk : k = 0
  · subst hk
    rw [if_pos rfl, Finset.sum_eq_single_of_mem 31 (Finset.mem_range.mpr (by decide))]
    · rfl
    · intro i _ hi
      rw [if_neg fun he => hi (Place.circle.inj he).2]
      rfl
  · rw [if_neg hk]
    refine Finset.sum_eq_zero fun i _ => ?_
    rw [if_neg fun he => hk (Place.circle.inj he).1]
    rfl

/-- After the start there is the idle process, on the last circle of hart 0. -/
theorem mem_onlyIdle {a : Nat} {q : Place} : a ∈ onlyIdle idle q ↔ a = idle ∧ q = .circle 0 31 := by
  unfold onlyIdle
  by_cases hq : q = .circle 0 31 <;> simp [hq]

/-- `scheduler_init` leaves a sound state. -/
theorem sound_schedulerInit (procs : Nat → Process) (h0 : idle ≠ 0) :
    ∃ v, Sound ((boot procs).schedulerInit 0 idle) v := by
  generalize hs : (boot procs).schedulerInit 0 idle = s
  have hex : s.existing = [idle] := by rw [← hs]; rfl
  have hself : ∀ a ∈ s.existing, a = idle := fun a ha => List.mem_singleton.mp (hex ▸ ha)
  have hidle : (s.queues 0).idleProcess = idle ∧ s.curr 0 = idle := by rw [← hs]; exact ⟨rfl, rfl⟩
  have hproc : s.next idle = idle ∧ s.prev idle = idle ∧ (s.procs idle).pid = 0 ∧
      (s.procs idle).state = .running ∧ (s.procs idle).priority = 31 ∧
      (s.procs idle).magic = processMagic := by
    rw [← hs]
    simp [schedulerInit, Kernel.modify, Kernel.next, Kernel.prev]
  obtain ⟨hnext, hprev, hpid, hstate, hprio, hmagic⟩ := hproc
  have hon : (s.procs idle).OnCircle := Or.inr hstate
  have hplace : (s.procs idle).place = .circle 0 31 :=
    (Process.place_circle hon).trans (by rw [hprio])
  have hfirst : ∀ q, s.first q = if q = .circle 0 31 then idle else 0 := by
    intro q
    rw [← hs]
    cases q with
    | circle k i =>
      by_cases hk : k = 0 <;> by_cases hi : i = 31 <;>
        simp [first, schedulerInit, boot, Kernel.modify, hk, hi]
    | wait w => rfl
  have hbit : ∀ k, s.bitmap k = if k = 0 then 2 ^ 31 else 0 := by
    intro k
    rw [← hs]
    by_cases hk : k = 0 <;> simp [bitmap, schedulerInit, boot, Kernel.modify, hk]
  have hcount : ∀ k, s.count k = if k = 0 then 1 else 0 := by
    intro k
    rw [← hs]
    by_cases hk : k = 0 <;> simp [count, schedulerInit, boot, Kernel.modify, hk]
  refine ⟨onlyIdle idle, ⟨⟨⟨fun q => ?_, fun p q a hp hq => ?_, fun q hq => ?_, fun k i hi => ?_,
    fun k i hi => ?_, fun k => ?_⟩, fun q a => ?_⟩, ?_⟩⟩
  · by_cases hq : q = .circle 0 31
    · subst hq
      exact ⟨Wheel.single hnext hprev, (hfirst _).trans (if_pos rfl)⟩
    · have h1 : s.first q = 0 := (hfirst q).trans (if_neg hq)
      rw [onlyIdle, if_neg hq]
      cases q with
      | circle k i => exact ⟨Wheel.empty, h1⟩
      | wait w =>
        show Dll s.next s.prev 0 (s.first (.wait w)) []
        rw [h1]
        exact Dll.empty
  · exact (mem_onlyIdle.mp hp).2.trans (mem_onlyIdle.mp hq).2.symm
  · exact h0 (mem_onlyIdle.mp hq).1.symm
  · refine if_neg fun he => ?_
    have hi31 := (Place.circle.inj he).2
    omega
  · rw [hbit, onlyIdle]
    by_cases hk : k = 0
    · subst hk
      rw [if_pos rfl, Nat.testBit_two_pow]
      by_cases hi31 : i = 31
      · simp [hi31]
      · have hne : 31 ≠ i := fun he => hi31 he.symm
        simp [hi31, hne]
    · simp [hk]
  · rw [hcount, load_onlyIdle]
  · rw [mem_onlyIdle, hex, List.mem_singleton]
    constructor
    · rintro ⟨rfl, rfl⟩
      exact ⟨rfl, hplace⟩
    · rintro ⟨rfl, hpl⟩
      exact ⟨rfl, hpl.symm.trans hplace⟩
  · have hreg : s.pidRegistry = Function.update (fun _ => false) 0 true ∧ s.nextPid = 1 ∧
        s.aliveThreadCounter = 1 ∧ s.emergencyProcess = 0 := by
      rw [← hs]
      exact ⟨rfl, rfl, rfl, rfl⟩
    obtain ⟨hregistry, hnpid, halive, hem⟩ := hreg
    refine ⟨?_, ?_, fun a ha => ?_, ?_, fun a ha hne => ?_, ?_, fun a ha _ => ?_, Or.inl hem,
      fun a ha b hb _ => (hself a ha).trans (hself b hb).symm, fun a ha => ?_, fun pid hp => ?_, ?_⟩
    · rw [hex]
      exact List.nodup_singleton idle
    · rw [halive, hex]
      rfl
    · rw [hself a ha]
      exact hmagic
    · rw [hidle.1, hex]
      exact ⟨List.mem_singleton_self idle, hpid, hprio, hon⟩
    · rw [hidle.1] at hne
      exact absurd (hself a ha) hne
    · rw [hidle.2, hex]
      exact List.mem_singleton_self idle
    · rw [hidle.2]
      exact hself a ha
    · rw [hself a ha, hpid, hnpid]
      exact Nat.one_pos
    · rw [hregistry, Function.update_of_ne (by omega)]
    · rw [hex, hnpid]
      rfl

/-! ## One call -/

/-- A preemption keeps the state sound. -/
theorem preempt_sound (hs : Sound s v) (t : Nat) : Sound (s.preempt 0 t) v := by
  unfold preempt
  split
  · have htouch : Touched s (s.modify (s.curr 0) fun p => { p with ticksLeft := 0 }) :=
      Touched.modify s _ _ (fun _ => rfl) (fun _ => rfl) fun _ => ⟨rfl, rfl, rfl, rfl⟩
    exact (htouch.sound hs).trigger 0
  · exact hs

/-- A permitted call returns and leaves everything in place. -/
theorem Sound.call (hs : Sound s v) {c : Call} (hc : s.Callable c)
    (hpid : ∀ new image priority, c = .spawn new image priority → s.nextPid < pidMax) :
    ∃ s' v', s.call c = some s' ∧ Sound s' v' := by
  have ho := hs.orderly
  have hpark : s.UserRuns → ∀ w, ∃ s' v', s.park 0 (s.curr 0) w = .done () s' ∧ Sound s' v' := by
    intro hu w
    obtain ⟨s', v', hrun, hs', _⟩ := hs.park ho.curr (Or.inr hu.1) hu.2 w
    exact ⟨s', v', hrun, hs'⟩
  have hunpark : ∀ t w, t ∈ s.existing ∧ (s.procs t).state = w.state →
      ∃ s' v', s.unpark 0 t w = .done () s' ∧ Sound s' v' := by
    rintro t w ⟨hex, hst⟩
    obtain ⟨s', hrun, _, hs'⟩ := hs.unpark hex hst
    exact ⟨s', _, hrun, hs'⟩
  cases c with
  | spawn new image priority =>
    obtain ⟨n, s', v', hrun, hs', _⟩ := hs.spawnProcess hc.1 hc.2 (hpid _ _ _ rfl) image
    exact ⟨s', v', by rw [Kernel.call, hrun]; rfl, hs'⟩
  | schedule =>
    obtain ⟨s', v', hrun, hs', _⟩ := hs.schedule
    exact ⟨s', v', by rw [Kernel.call, hrun]; rfl, hs'⟩
  | block =>
    obtain ⟨s', v', hrun, hs'⟩ := hpark hc .blocked
    exact ⟨s'.trigger 0, v', by rw [Kernel.call, blockProcess, hrun]; rfl, hs'.trigger 0⟩
  | blockIpc =>
    obtain ⟨s', v', hrun, hs'⟩ := hpark hc .blockedIpc
    exact ⟨s'.trigger 0, v', by rw [Kernel.call, blockIpcProcess, hrun]; rfl, hs'.trigger 0⟩
  | blockIpcSend =>
    obtain ⟨s', v', hrun, hs'⟩ := hpark hc .blockedIpcSend
    exact ⟨s'.trigger 0, v', by rw [Kernel.call, blockIpcSendProcess, hrun]; rfl, hs'.trigger 0⟩
  | sleep ticks =>
    obtain ⟨s', v', hrun, hs'⟩ := hpark hc .sleeping
    have htouch : Touched s' (s'.modify (s.curr 0) fun p => { p with ticksLeft := ticks }) :=
      Touched.modify s' _ _ (fun _ => rfl) (fun _ => rfl) fun _ => ⟨rfl, rfl, rfl, rfl⟩
    exact ⟨_, v', by rw [Kernel.call, sleepProcess, hrun]; rfl, (htouch.sound hs').trigger 0⟩
  | exit code =>
    obtain ⟨s', v', hrun, hs'⟩ := hs.exitProcess hc.1 hc.2 code
    exact ⟨s', v', by rw [Kernel.call, hrun]; rfl, hs'⟩
  | yield =>
    exact ⟨_, v, rfl, (hs.setState (Or.inr hc.1) (Or.inl rfl)).trigger 0⟩
  | unblock t =>
    obtain ⟨s', v', hrun, hs'⟩ := hunpark t .blocked hc
    exact ⟨_, v', by rw [Kernel.call, unblockProcess, hrun]; rfl, preempt_sound hs' t⟩
  | unblockIpc t =>
    obtain ⟨s', v', hrun, hs'⟩ := hunpark t .blockedIpc hc
    exact ⟨_, v', by rw [Kernel.call, unblockIpcProcess, hrun]; rfl, preempt_sound hs' t⟩
  | unblockIpcSend t =>
    obtain ⟨s', v', hrun, hs'⟩ := hunpark t .blockedIpcSend hc
    exact ⟨_, v', by rw [Kernel.call, unblockIpcSendProcess, hrun]; rfl, preempt_sound hs' t⟩
  | updateSleepList =>
    obtain ⟨s', v', hrun, hs'⟩ := hs.updateSleepList
    exact ⟨s', v', by rw [Kernel.call, hrun]; rfl, hs'⟩
  | sweep => exact ⟨_, v, rfl, hs.antiStarvationSweeper⟩
  | wait =>
    obtain ⟨n, s', v', hrun, hs'⟩ := hs.waitProcess hc.1
    exact ⟨s', v', by rw [Kernel.call, hrun]; rfl, hs'⟩

/-! ## Every run -/

/-- A call, no birth or reaping, parks the running process in a state that `W` allows. -/
def Enters (W : Nat → ProcState → Prop) (s : Kernel) : Call → Prop
  | .spawn _ _ _ => False
  | .wait => False
  | .block => W (s.curr 0) .blocked
  | .blockIpc => W (s.curr 0) .ipcBlocked
  | .blockIpcSend => W (s.curr 0) .sendBlocked
  | .sleep _ => W (s.curr 0) .sleeping
  | .exit _ => W (s.curr 0) .zombie
  | _ => True

/-- No call changes message data, and none enters a state that it is not there for. -/
theorem call_carried {W : Nat → ProcState → Prop} (hr : ∀ a, W a .ready) (hw : ∀ a, W a .running)
    {c : Call} (hc : Enters W s c) (hcall : s.call c = some s') : Carried W s s' := by
  have hkeep : ∀ {α : Type} {o : Outcome Kernel α}, (∀ x k, o = .done x k → Carried W s k) →
      o.returned = some s' → Carried W s s' := by
    intro α o ho hret
    cases o with
    | done x k =>
      obtain rfl := Option.some.inj hret
      exact ho x k rfl
    | panic => exact absurd hret (by simp [Outcome.returned])
    | spin => exact absurd hret (by simp [Outcome.returned])
  have hthen : ∀ {o : Outcome Kernel Unit} {f : Unit → Kernel → Outcome Kernel Unit},
      (∀ k, o = .done () k → Carried W s k) → (∀ k x k', f () k = .done x k' → Carried W k k') →
      ∀ x k, o.bind f = .done x k → Carried W s k := by
    intro o f ho hf x k hrun
    obtain ⟨_, k₁, h₁, h₂⟩ := Outcome.bind_eq_done.mp hrun
    exact (ho k₁ h₁).trans (hf k₁ x k h₂)
  have htrigger : ∀ (k : Kernel) (x : Unit) (k' : Kernel),
      (Outcome.done () (k.trigger 0) : Outcome Kernel Unit) = .done x k' → Carried W k k' := by
    rintro k x k' he
    obtain ⟨_, rfl⟩ := Outcome.done.inj he
    exact Carried.trigger k 0
  have hpreempt : ∀ (t : Nat) (k : Kernel) (x : Unit) (k' : Kernel),
      (Outcome.done () (k.preempt 0 t) : Outcome Kernel Unit) = .done x k' → Carried W k k' := by
    rintro t k x k' he
    obtain ⟨_, rfl⟩ := Outcome.done.inj he
    exact Carried.preempt k 0 t
  cases c with
  | spawn new image priority => exact hc.elim
  | wait => exact hc.elim
  | schedule => exact hkeep (fun _ _ => Carried.schedule hr hw) hcall
  | block => exact hkeep (hthen (fun _ => Carried.park (w := .blocked) hc) htrigger) hcall
  | blockIpc => exact hkeep (hthen (fun _ => Carried.park (w := .blockedIpc) hc) htrigger) hcall
  | blockIpcSend =>
      exact hkeep (hthen (fun _ => Carried.park (w := .blockedIpcSend) hc) htrigger) hcall
  | sleep ticks =>
    refine hkeep (hthen (fun _ => Carried.park (w := .sleeping) hc) fun k x k' he => ?_) hcall
    obtain ⟨_, rfl⟩ := Outcome.done.inj he
    exact (Carried.ticks k (s.curr 0) fun _ => ticks).trans (Carried.trigger _ 0)
  | exit code => exact hkeep (fun _ _ => Carried.exitProcess hc) hcall
  | yield =>
    obtain rfl := Option.some.inj hcall
    exact (Carried.setState s _ (hr _)).trans (Carried.trigger _ 0)
  | unblock t => exact hkeep (hthen (fun _ => Carried.unpark (hr t)) (hpreempt t)) hcall
  | unblockIpc t => exact hkeep (hthen (fun _ => Carried.unpark (hr t)) (hpreempt t)) hcall
  | unblockIpcSend t => exact hkeep (hthen (fun _ => Carried.unpark (hr t)) (hpreempt t)) hcall
  | updateSleepList => exact hkeep (fun _ _ => Carried.updateSleepListFrom hr) hcall
  | sweep =>
    obtain rfl := Option.some.inj hcall
    exact Carried.antiStarvationSweeper s 0

/-- Only a birth gives out a pid. -/
theorem nextPid_call (hs : Sound s v) {c : Call} (hc : s.Callable c) (hpid : s.nextPid < pidMax)
    (hcall : s.call c = some s') : s'.nextPid ≤ s.nextPid + births [(s, c)] := by
  cases c with
  | spawn new image priority =>
    obtain ⟨n, k, _, hrun, _, hle⟩ := hs.spawnProcess hc.1 hc.2 hpid image
    rw [Kernel.call, hrun] at hcall
    obtain rfl := Option.some.inj hcall
    exact hle
  | wait =>
    rw [Kernel.call] at hcall
    cases hrun : s.waitProcess 0 with
    | done n k =>
      rw [hrun] at hcall
      obtain rfl := Option.some.inj hcall
      exact (Carried.waitProcess (W := fun _ _ => True) hrun).nextPid.le
    | panic => simp [hrun, Outcome.returned] at hcall
    | spin => simp [hrun, Outcome.returned] at hcall
  | _ => exact (call_carried (W := fun _ _ => True) (fun _ => trivial) (fun _ => trivial)
    (by exact trivial) hcall).nextPid.le

/-- A birth counts once. -/
theorem births_cons {x : Kernel × Call} {g : List (Kernel × Call)} :
    births (x :: g) = births g + births [x] := by
  unfold births
  rw [List.countP_cons, List.countP_singleton]

/-- Everything is in place in every state that a run reaches before the pids wrap. -/
theorem sound_of_run {procs : Nat → Process} (h0 : idle ≠ 0) {g : List (Kernel × Call)}
    (hr : Run Kernel.call ((boot procs).schedulerInit 0 idle) g s) (hP : Run.Steps Callable g)
    (hbirths : births g < 32767) : (∃ v, Sound s v) ∧ s.nextPid < pidMax := by
  have hinv := hr.invariant_along (I := fun g s => births g < 32767 →
    (∃ v, Sound s v) ∧ s.nextPid ≤ 1 + births g) hP
    (fun _ => ⟨sound_schedulerInit procs h0, Nat.le_refl 1⟩) ?_
  · obtain ⟨hs, hle⟩ := hinv hbirths
    exact ⟨hs, by unfold pidMax; omega⟩
  · intro g s c t ih hc hcall hlt
    rw [births_cons] at hlt ⊢
    obtain ⟨⟨v, hs⟩, hle⟩ := ih (by omega)
    have hpid : s.nextPid < pidMax := by unfold pidMax; omega
    obtain ⟨t', v', hcall', hs'⟩ := hs.call hc fun _ _ _ _ => hpid
    obtain rfl := Option.some.inj (hcall.symm.trans hcall')
    have hnext := nextPid_call hs hc hpid hcall
    exact ⟨⟨v', hs'⟩, by omega⟩

/-- In every reached state each process is in its place, and every call that the handlers may make
returns. -/
theorem inPlace_of_run {procs : Nat → Process} (h0 : idle ≠ 0) {g : List (Kernel × Call)}
    (hr : Run Kernel.call ((boot procs).schedulerInit 0 idle) g s) (hP : Run.Steps Callable g)
    (hbirths : births g < 32767) :
    (∃ v, InPlace s v) ∧ ∀ c, s.Callable c → ∃ s', s.call c = some s' := by
  obtain ⟨⟨v, hs⟩, hpid⟩ := sound_of_run h0 hr hP hbirths
  refine ⟨⟨v, hs.inPlace⟩, fun c hc => ?_⟩
  obtain ⟨s', _, hcall, _⟩ := hs.call hc fun _ _ _ _ => hpid
  exact ⟨s', hcall⟩

/-- Memory that holds zeros. -/
def blankProcess : Process :=
  ⟨⟨fun _ => 0, 0, 0⟩, 0, 0, 0, .ready, 0, 0, 0, 0, fun _ => 0, fun _ => 0, 0, 0, 0,
    fun _ => 0, 0, 0, 0, 0⟩

/-- The kernel with its idle process at 0x1000. -/
def bootedKernel : Kernel := (boot fun _ => blankProcess).schedulerInit 0 0x1000

/-- A process is spawned at 0x2000 and dispatched. -/
theorem first_dispatch : ∃ s₁ s₂, Run Kernel.call bootedKernel
    [(s₁, .schedule), (bootedKernel, .spawn 0x2000 ⟨0, 0⟩ 16)] s₂ ∧
    Run.Steps Callable [(s₁, .schedule), (bootedKernel, .spawn 0x2000 ⟨0, 0⟩ 16)] := by
  obtain ⟨v, hs⟩ := sound_schedulerInit (fun _ => blankProcess) (show 0x1000 ≠ 0 by decide)
  have hcallable : bootedKernel.Callable (.spawn 0x2000 ⟨0, 0⟩ 16) := ⟨by decide, by decide⟩
  obtain ⟨s₁, v₁, hcall₁, hs₁⟩ := Sound.call (s := bootedKernel) hs hcallable
    fun _ _ _ _ => by decide
  have hnext := nextPid_call (s := bootedKernel) hs hcallable (by decide) hcall₁
  have hlt : s₁.nextPid < pidMax := hnext.trans_lt (by decide)
  obtain ⟨s₂, v₂, hcall₂, _⟩ := hs₁.call (c := .schedule) trivial fun _ _ _ _ => hlt
  exact ⟨s₁, s₂, .snoc (.snoc .nil hcall₁) hcall₂,
    Run.steps_cons.mpr ⟨trivial, Run.steps_cons.mpr ⟨hcallable, Run.Steps.nil⟩⟩⟩

/-- A process is born, and then there is a dispatch. -/
theorem inPlace_of_run_first : ∃ s₁ s₂, Run Kernel.call bootedKernel
    [(s₁, .schedule), (bootedKernel, .spawn 0x2000 ⟨0, 0⟩ 16)] s₂ ∧
    (∃ v, InPlace s₂ v) ∧ ∀ c, s₂.Callable c → ∃ s', s₂.call c = some s' := by
  obtain ⟨s₁, s₂, hr, hP⟩ := first_dispatch
  exact ⟨s₁, s₂, hr, inPlace_of_run (by decide) hr hP (by show 1 < 32767; decide)⟩

/-- In every reached state a dispatch does what it should. -/
theorem dispatched_of_run {procs : Nat → Process} (h0 : idle ≠ 0) {g : List (Kernel × Call)}
    (hr : Run Kernel.call ((boot procs).schedulerInit 0 idle) g s) (hP : Run.Steps Callable g)
    (hbirths : births g < 32767) :
    ∃ s' v v', s.schedule 0 = .done () s' ∧ InPlace s v ∧ InPlace s' v' ∧ Dispatched s v s' v' := by
  obtain ⟨⟨v, hs⟩, _⟩ := sound_of_run h0 hr hP hbirths
  obtain ⟨s', v', hrun, hs', hd⟩ := hs.schedule
  exact ⟨s', v, v', hrun, hs.inPlace, hs'.inPlace, hd⟩

/-- The next dispatch after these calls. -/
theorem dispatched_of_run_first : ∃ s₁ s₂, Run Kernel.call bootedKernel
    [(s₁, .schedule), (bootedKernel, .spawn 0x2000 ⟨0, 0⟩ 16)] s₂ ∧
    ∃ s' v v', s₂.schedule 0 = .done () s' ∧ InPlace s₂ v ∧ InPlace s' v' ∧
      Dispatched s₂ v s' v' := by
  obtain ⟨s₁, s₂, hr, hP⟩ := first_dispatch
  exact ⟨s₁, s₂, hr, dispatched_of_run (by decide) hr hP (by show 1 < 32767; decide)⟩

end RexOS.Scheduler
