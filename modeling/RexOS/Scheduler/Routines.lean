import RexOS.Scheduler.Order

/-!
# What each routine does to the order

A specification for each routine of the scheduler: called as the trap handlers call it, it
returns, and every process is in its place again.
-/

namespace RexOS.Scheduler

open Kernel

variable {s s' s'' : Kernel} {v : Place → List Nat} {a h t pid : Nat} {w : WaitList}
  {p r : Place}

/-! ## Facts that links do not change -/

/-- Whether the processes are in order is bare data. -/
theorem orderly_congr (h : s'.bare = s''.bare) (ho : Orderly s'') : Orderly s' := by
  rw [← orderly_bare, h, orderly_bare]
  exact ho

/-- So is the place of a process. -/
theorem place_congr (h : s'.bare = s''.bare) (a : Nat) :
    (s'.procs a).place = (s''.procs a).place := by
  have hp : (s'.bare.procs a).place = (s''.bare.procs a).place := by rw [h]
  exact hp

/-- So is which processes there are. -/
theorem existing_congr (h : s'.bare = s''.bare) : s'.existing = s''.existing := by
  have he : s'.bare.existing = s''.bare.existing := by rw [h]
  exact he

/-- A new state goes into the bare data. -/
theorem bare_setState (s : Kernel) (a : Nat) (x : ProcState) :
    (s.setState a x).bare = s.bare.setState a x := s.bare_modify a fun _ => rfl

/-- So does the thread pointer in a trap frame. -/
theorem bare_setTp (s : Kernel) (t x : Nat) :
    (s.modify t fun p => { p with tf := { p.tf with kernelTp := x } }).bare =
      s.bare.modify t fun p => { p with tf := { p.tf with kernelTp := x } } :=
  s.bare_modify t fun _ => rfl

/-- What `park` does apart from the links. -/
def Kernel.parked (s : Kernel) (t : Nat) (w : WaitList) : Kernel :=
  { s with emergencyProcess := if s.emergencyProcess = t then 0 else s.emergencyProcess }.setState t
    w.state

/-- What `unpark` does apart from the links. -/
def Kernel.unparked (s : Kernel) (t : Nat) : Kernel :=
  (s.setState t .ready).modify t fun p => { p with tf := { p.tf with kernelTp := 0 } }

/-- A new state for one process. -/
theorem procs_setState (s : Kernel) (t a : Nat) (x : ProcState) : (s.setState t x).procs a =
    if a = t then { s.procs t with state := x } else s.procs a := Function.update_apply ..

/-- What waking a process does to the processes. -/
theorem procs_unparked (s : Kernel) (t a : Nat) : (s.unparked t).procs a =
    if a = t then { s.procs t with state := .ready, tf := { (s.procs t).tf with kernelTp := 0 } }
    else s.procs a := by
  by_cases ha : a = t
  · subst ha
    simp [unparked, setState, Kernel.modify]
  · simp [unparked, setState, Kernel.modify, ha]

/-! ## Moves from one place to another -/

namespace Threaded

/-- A process moves from its place to the front of another one. -/
theorem mem_front (ht : Threaded s v) (hmem : t ∈ v p) (hne : r ≠ p) (q : Place) (a : Nat) :
    a ∈ Function.update (Function.update v p ((v p).erase t)) r (t :: v r) q ↔
      a = t ∧ q = r ∨ a ≠ t ∧ a ∈ v q := by
  have hpush := mem_pushed (Function.update v p ((v p).erase t)) r q t a
  rw [Function.update_of_ne hne, ht.mem_erased hmem] at hpush
  exact hpush

/-- A process moves from its place to the end of another one. -/
theorem mem_back (ht : Threaded s v) (hmem : t ∈ v p) (hne : r ≠ p) (q : Place) (a : Nat) :
    a ∈ Function.update (Function.update v p ((v p).erase t)) r (v r ++ [t]) q ↔
      a = t ∧ q = r ∨ a ≠ t ∧ a ∈ v q := by
  have happ := mem_appended (Function.update v p ((v p).erase t)) r q t a
  rw [Function.update_of_ne hne, ht.mem_erased hmem] at happ
  exact happ

/-- No place holds the null pointer. -/
theorem ne_zero (ht : Threaded s v) (hmem : t ∈ v p) : t ≠ 0 := by
  rintro rfl
  exact ht.nonzero p hmem

/-- A process that leaves its place is on none. -/
theorem not_mem_erased (ht : Threaded s v) (hmem : t ∈ v p) (q : Place) :
    t ∉ Function.update v p ((v p).erase t) q := fun hin =>
  ((ht.mem_erased hmem q t).mp hin).1 rfl

/-- From a circle to the front of a list. -/
theorem park (ht : Threaded s v) (hmem : t ∈ v (.circle h (s.procs t).priority))
    (hpid : (s.procs t).pid ≠ 0) (hmagic : (s.procs t).magic = processMagic) (w : WaitList) :
    ∃ s', s.park h t w = .done () s' ∧ s'.bare = (s.parked t w).bare ∧
      Threaded s' (Function.update (Function.update v (.circle h (s.procs t).priority)
        ((v (.circle h (s.procs t).priority)).erase t)) (.wait w) (t :: v (.wait w))) := by
  generalize hs₀ : (if s.emergencyProcess = t then { s with emergencyProcess := 0 } else s) = s₀
  have hem :
      s₀ = { s with emergencyProcess :=
        if s.emergencyProcess = t then 0 else s.emergencyProcess } := by
    rw [← hs₀]
    split <;> rfl
  have ht₀ : Threaded s₀ v := by
    rw [hem]
    refine ht.congr rfl rfl ?_ (fun _ _ _ => rfl) rfl
    funext q
    cases q <;> rfl
  have hprio : (s₀.procs t).priority = (s.procs t).priority := by rw [hem]
  have hleft := ht₀.leave (h := h) (t := t) (by rw [hprio]; exact hmem)
  rw [hprio] at hleft
  have hpushed := hleft.push (w := w) (ht₀.not_mem_erased hmem) (ht.ne_zero hmem)
  rw [Function.update_of_ne (by simp)] at hpushed
  refine ⟨((s₀.leaveCircle h t).pushList t w).setState t w.state, ?_, ?_,
    hpushed.modify (fun p => { p with state := w.state }) (fun _ => rfl) fun _ => rfl⟩
  · unfold Kernel.park
    rw [if_neg hpid, if_neg (not_not.mpr hmagic), hs₀]
  · rw [bare_setState, bare_pushList, bare_leaveCircle, hem, Kernel.parked, bare_setState]

/-- From a list to the back of a circle. -/
theorem unpark (ht : Threaded s v) (hmem : t ∈ v (.wait w))
    (hst : (s.procs t).state = w.state) (hlt : (s.procs t).priority < 32)
    (hmagic : (s.procs t).magic = processMagic) (h : Nat) :
    ∃ s', s.unpark h t w = .done () s' ∧
      s'.bare = ((s.setState t .ready).modify t fun p =>
        { p with tf := { p.tf with kernelTp := h } }).bare ∧
      Threaded s' (Function.update (Function.update v (.wait w) ((v (.wait w)).erase t))
        (.circle h (s.procs t).priority) (v (.circle h (s.procs t).priority) ++ [t])) := by
  have ht₀ : Threaded (s.setState t .ready) v :=
    ht.modify (fun p => { p with state := .ready }) (fun _ => rfl) (fun _ => rfl)
  have hb₁ : ((s.setState t .ready).unlinkList t w).bare = (s.setState t .ready).bare :=
    bare_unlinkList ..
  have hprio : (((s.setState t .ready).unlinkList t w).procs t).priority =
      (s.procs t).priority := by
    have hp : (((s.setState t .ready).unlinkList t w).bare.procs t).priority =
        ((s.setState t .ready).bare.procs t).priority := by rw [hb₁]
    have hset := congrArg Process.priority (procs_setState s t t .ready)
    rw [if_pos rfl] at hset
    exact hp.trans hset
  have hin := (ht₀.unlink hmem).join (h := h) (ht₀.not_mem_erased hmem)
    (ht.ne_zero hmem) (by rwa [hprio])
  rw [hprio, Function.update_of_ne (by simp)] at hin
  refine ⟨_, ?_, ?_, hin.modify (a := t) (fun p => { p with tf := { p.tf with kernelTp := h } })
    (fun _ => rfl) fun _ => rfl⟩
  · unfold Kernel.unpark
    rw [if_neg (not_not.mpr hst), if_neg (not_not.mpr hmagic)]
  · rw [bare_setTp, bare_joinCircle, hb₁, bare_setTp]

end Threaded

/-! ## Parking -/

/-- The processes stay in order when one of them is parked. -/
theorem Orderly.parked (ho : Orderly s) (hpid : (s.procs t).pid ≠ 0) : Orderly (s.parked t w) := by
  have hprocs : ∀ a, (s.parked t w).procs a =
      if a = t then { s.procs t with state := w.state } else s.procs a :=
    fun a => procs_setState _ t a w.state
  have hrest : ∀ a, a ≠ t → (s.parked t w).procs a = s.procs a := fun a ha => by
    rw [hprocs, if_neg ha]
  have hidle : (s.queues 0).idleProcess ≠ t := by
    rintro rfl
    exact hpid ho.idle.2.1
  have hw : w.state ≠ .running := by cases w <;> simp [WaitList.state]
  refine ho.restated rfl (fun a => ?_) ?_ (fun a ha hr => ?_) ?_
  · rw [hprocs]
    split
    · rename_i ha
      rw [ha]
      exact ⟨rfl, rfl, rfl⟩
    · exact ⟨rfl, rfl, rfl⟩
  · rw [hrest _ hidle]
    exact ho.idle.2.2.2
  · by_cases hat : a = t
    · rw [hprocs, if_pos hat] at hr
      exact absurd hr hw
    · rw [hrest a hat] at hr
      exact ho.running a ha hr
  · by_cases he : s.emergencyProcess = t
    · exact Or.inl (if_pos he)
    · refine Or.inr ⟨if_neg he, fun hc => ?_⟩
      rw [hrest _ he]
      exact hc

/-- A process that can run, other than the idle one, is parked on a list. -/
theorem Sound.park (hs : Sound s v) (ha : t ∈ s.existing) (hc : (s.procs t).OnCircle)
    (hpid : (s.procs t).pid ≠ 0) (w : WaitList) : ∃ s' v', s.park 0 t w = .done () s' ∧
      Sound s' v' ∧ s'.bare = (s.parked t w).bare := by
  have hq := hs.queued
  have hmem := hq.mem_circle ha hc
  obtain ⟨s', hrun, hbare, ht⟩ := hq.threaded.park hmem hpid (hs.orderly.magic t ha) w
  have hplace := place_congr hbare
  refine ⟨s', _, hrun, ⟨hq.moved (t := t) (p := .wait w) ht
    (hq.threaded.mem_front hmem (by simp)) (fun a => ?_) (fun a hat => ?_) ?_,
      orderly_congr hbare (hs.orderly.parked hpid)⟩, hbare⟩
  · rw [existing_congr hbare]
    constructor
    · exact Or.inr
    · rintro (rfl | hin)
      · exact ha
      · exact hin
  · rw [hplace, Kernel.parked, procs_setState, if_neg hat]
  · rw [hplace, Kernel.parked, procs_setState, if_pos rfl]
    exact Process.place_wait rfl

/-- They stay in order when one of them is woken. -/
theorem Orderly.unparked (ho : Orderly s) (t : Nat) : Orderly (s.unparked t) := by
  have hprocs := procs_unparked s t
  have hcircle : ∀ a, (s.procs a).OnCircle → ((s.unparked t).procs a).OnCircle := by
    intro a ha
    rw [hprocs]
    split
    · exact Or.inl rfl
    · exact ha
  refine ho.restated rfl (fun a => ?_) (hcircle _ ho.idle.2.2.2) (fun a ha hr => ?_)
    (Or.inr ⟨rfl, hcircle _⟩)
  · rw [hprocs]
    split
    · rename_i ha
      rw [ha]
      exact ⟨rfl, rfl, rfl⟩
    · exact ⟨rfl, rfl, rfl⟩
  · rw [hprocs] at hr
    split at hr
    · exact absurd hr (by simp)
    · exact ho.running a ha hr

/-- A process has one of the 32 priorities. -/
theorem Orderly.priority_lt (ho : Orderly s) (ha : a ∈ s.existing) : (s.procs a).priority < 32 := by
  by_cases hi : a = (s.queues 0).idleProcess
  · rw [hi, ho.idle.2.2.1]
    decide
  · exact (ho.users a ha hi).2.trans_lt (by decide)

/-- A process on a list is put back on its circle. -/
theorem Sound.unpark (hs : Sound s v) (ha : t ∈ s.existing) (hst : (s.procs t).state = w.state) :
    ∃ s', s.unpark 0 t w = .done () s' ∧ s'.bare = (s.unparked t).bare ∧
      Sound s' (Function.update (Function.update v (.wait w) ((v (.wait w)).erase t))
        (.circle 0 (s.procs t).priority) (v (.circle 0 (s.procs t).priority) ++ [t])) := by
  have hq := hs.queued
  have hmem : t ∈ v (.wait w) := hq.mem_wait ha hst
  obtain ⟨s', hrun, hbare, ht⟩ := hq.threaded.unpark hmem hst (hs.orderly.priority_lt ha)
    (hs.orderly.magic t ha) 0
  have hbare : s'.bare = (s.unparked t).bare := hbare
  have hplace := place_congr hbare
  refine ⟨s', hrun, hbare, ⟨?_, orderly_congr hbare (hs.orderly.unparked t)⟩⟩
  · refine hq.moved (t := t) (p := .circle 0 (s.procs t).priority) ht
      (hq.threaded.mem_back hmem (by simp)) (fun a => ?_) (fun a hat => ?_) ?_
    · rw [existing_congr hbare]
      constructor
      · exact Or.inr
      · rintro (rfl | hin)
        · exact ha
        · exact hin
    · rw [hplace, procs_unparked, if_neg hat]
    · rw [hplace, procs_unparked, if_pos rfl]
      rfl

end RexOS.Scheduler
