import RexOS.Scheduler.Routines
import RexOS.Smp.Board
import RexOS.Smp.Model

/-!
# The board of the kernel

The places spelled by the links and the fields of the processes are a board, and each routine of
the scheduler that moves one process is a move of the board. The kernel is settled when its links
are sound and its board is valid.
-/

namespace RexOS.Smp

open Scheduler Kernel

/-- The board that the kernel and its places show. -/
def board (s : Kernel) (v : Place → List Nat) : Board where
  on := fun q => {a | a ∈ v q}
  state := fun a => (s.procs a).state
  priority := fun a => (s.procs a).priority
  pid := fun a => (s.procs a).pid
  kernelTp := fun a => (s.procs a).tf.kernelTp
  up := {k | s.started k = true}
  curr := s.curr
  idle := fun k => (s.queues k).idleProcess
  emergency := s.emergencyProcess

/-- What holds between two events. -/
structure Settled (s : Kernel) (v : Place → List Nat) : Prop where
  threaded : Threaded s v
  mem : ∀ a, a ∈ s.existing ↔ ∃ q, a ∈ v q
  nodup : s.existing.Nodup
  magic : ∀ a ∈ s.existing, (s.procs a).magic = processMagic
  range : ∀ k, s.started k = true → k < s.hart
  given : s.nextPid ≠ 0
  valid : (board s v).Valid

variable {s s' k : Kernel} {v v' u : Place → List Nat} {h t a : Nat} {w : WaitList} {p q : Place}

/-! ## Boards of changed kernels -/

/-- Links do not show. -/
theorem board_congr (hb : s'.bare = k.bare) (hv : ∀ q a, a ∈ v' q ↔ a ∈ u q) :
    board s' v' = board k u := by
  have hshow : ∀ x : Kernel, board x v' = board x.bare v' := fun _ => rfl
  rw [hshow s', hb]
  ext q a <;> first | exact hv q a | rfl

/-- What does not depend on links is as in a kernel that differs in links alone. -/
theorem field_bare {α : Type} (g : Kernel → α) (hg : ∀ x : Kernel, g x.bare = g x)
    (hb : s'.bare = k.bare) :
    g s' = g k := by
  rw [← hg s', hb, hg]

/-- A field of the processes after a store into one of them. -/
theorem field_modify {α : Type} (g : Process → α) (s : Kernel) (a : Nat) (f : Process → Process) :
    (fun y => g ((s.modify a f).procs y)) = Function.update (fun y => g (s.procs y)) a
      (g (f (s.procs a))) := by
  funext y
  by_cases hy : y = a
  · subst hy
    simp [Kernel.modify]
  · simp [Kernel.modify, hy]

/-- A store into a field that does not show. -/
theorem field_modify_same {α : Type} {g : Process → α} (s : Kernel) (a : Nat)
    {f : Process → Process}
    (hg : ∀ x, g (f x) = g x) : (fun y => g ((s.modify a f).procs y)) = fun y => g (s.procs y) := by
  rw [field_modify, hg, Function.update_eq_self_iff]

/-- A store into fields that do not show. -/
theorem board_modify (s : Kernel) (v : Place → List Nat) (a : Nat) {f : Process → Process}
    (hf : ∀ x, (f x).state = x.state ∧ (f x).priority = x.priority ∧ (f x).pid = x.pid ∧
      (f x).tf.kernelTp = x.tf.kernelTp) : board (s.modify a f) v = board s v := by
  ext q b
  · rfl
  · exact congrFun (field_modify_same (g := Process.state) s a fun x => (hf x).1) _
  · exact congrFun (field_modify_same (g := Process.priority) s a fun x => (hf x).2.1) _
  · exact congrFun (field_modify_same (g := Process.pid) s a fun x => (hf x).2.2.1) _
  · exact congrFun (field_modify_same (g := fun p => p.tf.kernelTp) s a fun x => (hf x).2.2.2) _
  all_goals rfl

/-- A new state, told on the board. -/
theorem board_setState (s : Kernel) (v : Place → List Nat) (a : Nat) (x : ProcState) :
    board (s.setState a x) v =
      { board s v with state := Function.update (board s v).state a x } := by
  let f : Process → Process := fun p => { p with state := x }
  ext q b
  · rfl
  · exact congrFun (field_modify Process.state s a f) _
  · exact congrFun (field_modify_same (g := Process.priority) (f := f) s a fun _ => rfl) _
  · exact congrFun (field_modify_same (g := Process.pid) (f := f) s a fun _ => rfl) _
  · exact congrFun (field_modify_same (g := fun p => p.tf.kernelTp) (f := f) s a fun _ => rfl) _
  all_goals rfl

/-- A new thread pointer, told on the board. -/
theorem board_setTp (s : Kernel) (v : Place → List Nat) (a x : Nat) :
    board (s.modify a fun p => { p with tf := { p.tf with kernelTp := x } }) v =
      { board s v with kernelTp := Function.update (board s v).kernelTp a x } := by
  let f : Process → Process := fun p => { p with tf := { p.tf with kernelTp := x } }
  ext q b
  · rfl
  · exact congrFun (field_modify_same (g := Process.state) (f := f) s a fun _ => rfl) _
  · exact congrFun (field_modify_same (g := Process.priority) (f := f) s a fun _ => rfl) _
  · exact congrFun (field_modify_same (g := Process.pid) (f := f) s a fun _ => rfl) _
  · exact congrFun (field_modify (fun p => p.tf.kernelTp) s a f) _
  all_goals rfl

/-! ## Settled kernels -/

/-- The same processes exist with the same pids, and the same harts are up. -/
structure Same (s s' : Kernel) : Prop where
  existing : s'.existing = s.existing
  magic : ∀ a, (s'.procs a).magic = (s.procs a).magic
  pid : ∀ a, (s'.procs a).pid = (s.procs a).pid
  harts : s'.started = s.started ∧ s'.hart = s.hart
  pids : s'.nextPid = s.nextPid ∧ s'.pidRegistry = s.pidRegistry ∧
    s'.aliveThreadCounter = s.aliveThreadCounter

namespace Same

theorem refl (s : Kernel) : Same s s :=
  ⟨rfl, fun _ => rfl, fun _ => rfl, ⟨rfl, rfl⟩, ⟨rfl, rfl, rfl⟩⟩

/-- Two calls in a row. -/
theorem trans (hk : Same s k) (h' : Same k s') : Same s s' :=
  ⟨h'.existing.trans hk.existing, fun a => (h'.magic a).trans (hk.magic a),
    fun a => (h'.pid a).trans (hk.pid a),
    ⟨h'.harts.1.trans hk.harts.1, h'.harts.2.trans hk.harts.2⟩,
    ⟨h'.pids.1.trans hk.pids.1, h'.pids.2.1.trans hk.pids.2.1, h'.pids.2.2.trans hk.pids.2.2⟩⟩

/-- Links do not matter. -/
theorem of_bare (hk : Same s k) (hb : s'.bare = k.bare) : Same s s' := by
  have hbare : Same s'.bare k.bare := hb ▸ refl _
  exact hk.trans ⟨hbare.existing.symm, fun a => (hbare.magic a).symm, fun a => (hbare.pid a).symm,
    ⟨hbare.harts.1.symm, hbare.harts.2.symm⟩,
    ⟨hbare.pids.1.symm, hbare.pids.2.1.symm, hbare.pids.2.2.symm⟩⟩

/-- Nor do updates that keep pid and magic. -/
theorem modify (s : Kernel) (a : Nat) {f : Process → Process}
    (hf : ∀ x, (f x).magic = x.magic ∧ (f x).pid = x.pid) : Same s (s.modify a f) :=
  ⟨rfl, fun b => congrFun (field_modify_same (g := Process.magic) s a fun x => (hf x).1) b,
    fun b => congrFun (field_modify_same (g := Process.pid) s a fun x => (hf x).2) b,
    ⟨rfl, rfl⟩, ⟨rfl, rfl, rfl⟩⟩

/-- Processes and pids are as they were. -/
theorem rest (hrest : s' = { s with
      queues := s'.queues, heads := s'.heads, emergencyProcess := s'.emergencyProcess,
      shellPtr := s'.shellPtr }) : Same s s' := by
  rw [hrest]
  exact ⟨rfl, fun _ => rfl, fun _ => rfl, ⟨rfl, rfl⟩, ⟨rfl, rfl, rfl⟩⟩

/-- Nor does a new state. -/
theorem setState (s : Kernel) (a : Nat) (x : ProcState) : Same s (s.setState a x) :=
  modify s a (f := fun p => { p with state := x }) fun _ => ⟨rfl, rfl⟩

end Same

/-- What `unpark` does apart from the links. -/
def woken (s : Kernel) (h t : Nat) : Kernel :=
  (s.setState t .ready).modify t fun p => { p with tf := { p.tf with kernelTp := h } }

theorem procs_modify (s : Kernel) (t a : Nat) (f : Process → Process) :
    (s.modify t f).procs a = if a = t then f (s.procs t) else s.procs a := Function.update_apply ..

/-- What waking a process does to the processes. -/
theorem procs_woken (s : Kernel) (h t a : Nat) : (woken s h t).procs a =
    if a = t then { s.procs t with state := .ready, tf := { (s.procs t).tf with kernelTp := h } }
    else s.procs a := by
  unfold woken
  simp only [procs_modify, procs_setState]
  split <;> simp

/-- A field that a wake-up does not write. -/
theorem field_woken {α : Type} (g : Process → α)
    (hg : ∀ x st tf, g { x with state := st, tf := tf } = g x)
    (s : Kernel) (h t a : Nat) : g ((woken s h t).procs a) = g (s.procs a) := by
  rw [procs_woken]
  split
  · rename_i ha
    rw [ha]
    exact hg _ _ _
  · rfl

/-- The places after a process has left its circle for a list. -/
def parkedPlaces (s : Kernel) (v : Place → List Nat) (h t : Nat) (w : WaitList) :
    Place → List Nat :=
  Function.update (Function.update v (.circle h (s.procs t).priority)
    ((v (.circle h (s.procs t).priority)).erase t)) (.wait w) (t :: v (.wait w))

/-- The places after it has come back to a circle. -/
def wokenPlaces (s : Kernel) (v : Place → List Nat) (h t : Nat) (w : WaitList) : Place → List Nat :=
  Function.update (Function.update v (.wait w) ((v (.wait w)).erase t))
    (.circle h (s.procs t).priority) (v (.circle h (s.procs t).priority) ++ [t])

namespace Settled

/-- The processes keep to valid places. -/
theorem rearranged (hs : Settled s v) (ht : Threaded s' v') (hsame : Same s s')
    (hmem : ∀ a, (∃ q, a ∈ v' q) ↔ ∃ q, a ∈ v q) (hv : (board s' v').Valid) : Settled s' v' where
  threaded := ht
  mem a := by rw [hsame.existing, hmem, hs.mem]
  nodup := hsame.existing ▸ hs.nodup
  magic a ha := by
    rw [hsame.existing] at ha
    exact (hsame.magic a).trans (hs.magic a ha)
  range k hk := by
    rw [hsame.harts.1] at hk
    rw [hsame.harts.2]
    exact hs.range k hk
  given := hsame.pids.1 ▸ hs.given
  valid := hv

/-- A process that has a place gets another. -/
theorem mem_moved (hp : t ∈ v p) (hv : ∀ r a, a ∈ v' r ↔ a = t ∧ r = q ∨ a ≠ t ∧ a ∈ v r)
    (a : Nat) :
    (∃ r, a ∈ v' r) ↔ ∃ r, a ∈ v r := by
  constructor
  · rintro ⟨r, hr⟩
    rcases (hv r a).mp hr with ⟨rfl, rfl⟩ | ⟨-, hr⟩
    · exact ⟨p, hp⟩
    · exact ⟨r, hr⟩
  · rintro ⟨r, hr⟩
    by_cases ha : a = t
    · exact ⟨q, (hv q a).mpr (Or.inl ⟨ha, rfl⟩)⟩
    · exact ⟨r, (hv r a).mpr (Or.inr ⟨ha, hr⟩)⟩

/-- Stores into fields that neither links nor the board show. -/
theorem modify (hs : Settled s v) (a : Nat) {f : Process → Process}
    (hf : ∀ x, (f x).state = x.state ∧ (f x).priority = x.priority ∧ (f x).pid = x.pid ∧
      (f x).tf.kernelTp = x.tf.kernelTp) (hl : ∀ x, (f x).next = x.next ∧ (f x).prev = x.prev)
    (hm : ∀ x, (f x).magic = x.magic ∧ (f x).pid = x.pid) : Settled (s.modify a f) v := by
  refine hs.rearranged (hs.threaded.modify f (fun x => (hl x).1) fun x => (hl x).2)
    (Same.modify s a hm) (fun _ => Iff.rfl) ?_
  rw [board_modify s v a hf]
  exact hs.valid

/-- Whoever is in a place exists. -/
theorem mem_existing (hs : Settled s v) (ha : a ∈ v q) : a ∈ s.existing := (hs.mem a).mpr ⟨q, ha⟩

/-- The null pointer is no process. -/
theorem nonzero (hs : Settled s v) (ha : a ∈ s.existing) : a ≠ 0 := by
  rintro rfl
  obtain ⟨q, hq⟩ := (hs.mem 0).mp ha
  exact hs.threaded.nonzero q hq

/-- A place holds no more processes than there are. -/
theorem length_le (hs : Settled s v) (q : Place) : (v q).length ≤ s.existing.length :=
  ((hs.threaded.linked q).nodup.subperm fun _ ha => hs.mem_existing ha).length_le

/-- The current process of a hart that is up exists. -/
theorem curr_existing (hs : Settled s v) (hh : s.started h = true) : s.curr h ∈ s.existing := by
  obtain ⟨q, hq⟩ := hs.valid.curr hh
  exact hs.mem_existing hq

/-- The state of a process on a list is none of those on a circle. -/
theorem onCircle_of_mem (hs : Settled s v) {i : Nat} (ha : a ∈ v (.circle h i)) :
    (s.procs a).OnCircle := (hs.valid.circle ha).2.2

/-- A process in the state of a wait list is on it. -/
theorem mem_wait (hs : Settled s v) (ha : a ∈ s.existing) (hst : (s.procs a).state = w.state) :
    a ∈ v (.wait w) := by
  obtain ⟨q, hq⟩ := (hs.mem a).mp ha
  cases q with
  | circle k i =>
    have hon := hs.onCircle_of_mem hq
    unfold Process.OnCircle at hon
    rw [hst] at hon
    cases w <;> simp [WaitList.state] at hon
  | wait w' =>
    have hw : w'.state = w.state := (hs.valid.wait hq).1.symm.trans hst
    have he : w' = w := by
      cases w <;> cases w' <;> simp [WaitList.state] at hw <;> rfl
    exact he ▸ hq

/-- A process that is ready or running is on a circle of a hart that is up. -/
theorem mem_circle (hs : Settled s v) (ha : a ∈ s.existing) (hon : (s.procs a).OnCircle) :
    ∃ l, s.started l = true ∧ a ∈ v (.circle l (s.procs a).priority) := by
  obtain ⟨q, hq⟩ := (hs.mem a).mp ha
  cases q with
  | circle l i =>
    obtain ⟨hl, hi, _⟩ := hs.valid.circle hq
    obtain rfl : (s.procs a).priority = i := hi
    exact ⟨l, hl, hq⟩
  | wait w =>
    have hw : (s.procs a).state = w.state := (hs.valid.wait hq).1
    unfold Process.OnCircle at hon
    rw [hw] at hon
    cases w <;> simp [WaitList.state] at hon

/-- What a hart runs is on its own circles. -/
theorem curr_mem (hs : Settled s v) (hh : s.started h = true)
    (hon : (s.procs (s.curr h)).OnCircle) :
    s.curr h ∈ v (.circle h (s.procs (s.curr h)).priority) := by
  obtain ⟨l, -, hl⟩ := hs.mem_circle (hs.curr_existing hh) hon
  obtain rfl := hs.valid.home hh hl
  exact hl

/-- The idle process of a hart is alone on the last circle. -/
theorem idle_circle (hs : Settled s v) (hh : s.started h = true) :
    v (.circle h 31) = [(s.queues h).idleProcess] := by
  obtain ⟨hmem, -⟩ := hs.valid.idle hh
  have hall : ∀ a ∈ v (.circle h 31), a = (s.queues h).idleProcess := by
    intro a ha
    rcases hs.valid.low ha with hpid | hlow
    · exact hs.valid.idles ha hpid
    · have hprio := (hs.valid.circle ha).2.1
      omega
  apply List.perm_singleton.mp
  refine (List.perm_ext_iff_of_nodup (hs.threaded.wheel h 31).nodup (List.nodup_singleton _)).mpr
    fun a => ?_
  rw [List.mem_singleton]
  exact ⟨hall a, fun he => he ▸ hmem⟩

/-- A process that is no idle one has one of the 32 priorities. -/
theorem priority_lt (hs : Settled s v) (ha : a ∈ s.existing) (hpid : (s.procs a).pid ≠ 0) :
    (s.procs a).priority < 32 := by
  obtain ⟨q, hq⟩ := (hs.mem a).mp ha
  have hlow : (s.procs a).priority ≤ 30 := (hs.valid.low hq).resolve_left hpid
  omega

/-! ## Parking and waking -/

/-- Where the processes are when one has been parked. -/
theorem mem_parkedPlaces (hs : Settled s v) (hmem : t ∈ v (.circle h (s.procs t).priority))
    (w : WaitList) (q : Place) (a : Nat) :
    a ∈ parkedPlaces s v h t w q ↔ a = t ∧ q = .wait w ∨ a ≠ t ∧ a ∈ v q :=
  hs.threaded.mem_front hmem (by simp) q a

/-- Where they are when one has been woken. -/
theorem mem_wokenPlaces (hs : Settled s v) (hmem : t ∈ v (.wait w)) (h : Nat)
    (q : Place) (a : Nat) :
    a ∈ wokenPlaces s v h t w q ↔ a = t ∧ q = .circle h (s.procs t).priority ∨ a ≠ t ∧ a ∈ v q :=
  hs.threaded.mem_back hmem (by simp) q a

/-- The current process of a hart is parked. -/
theorem park (hs : Settled s v) (hh : s.started h = true) (hon : (s.procs (s.curr h)).OnCircle)
    (hpid : (s.procs (s.curr h)).pid ≠ 0) (w : WaitList) :
    ∃ s', s.park h (s.curr h) w = .done () s' ∧ Settled s' (parkedPlaces s v h (s.curr h) w) ∧
      s'.bare = (s.parked (s.curr h) w).bare ∧
      board s' (parkedPlaces s v h (s.curr h) w) = (board s v).park h w := by
  have hex := hs.curr_existing hh
  have hmem := hs.curr_mem hh hon
  have hmagic := hs.magic _ hex
  have hcurr : (board s v).curr h = s.curr h := rfl
  generalize ht : s.curr h = t at hon hpid hex hmem hmagic hcurr ⊢
  obtain ⟨s', hrun, hbare, ht'⟩ := hs.threaded.park hmem hpid hmagic w
  have hmoved := hs.mem_parkedPlaces hmem w
  have hboard : board s' (parkedPlaces s v h t w) = (board s v).park h w := by
    rw [board_congr hbare fun _ _ => Iff.rfl, Kernel.parked, board_setState, Board.park, hcurr]
    ext r a
    · exact hmoved r a
    all_goals rfl
  refine ⟨s', hrun, hs.rearranged ht' ?_ (mem_moved hmem hmoved) ?_, hbare, hboard⟩
  · refine Same.of_bare ?_ hbare
    exact Same.trans (k :=
      { s with emergencyProcess := if s.emergencyProcess = t then 0 else s.emergencyProcess })
      (Same.rest rfl) (Same.setState _ t w.state)
  · rw [hboard]
    exact hs.valid.park hh (hcurr ▸ hpid) w

/-- A process on a list is woken by a hart; no other hart runs it any more. -/
theorem unpark (hs : Settled s v) (hh : s.started h = true) (ha : t ∈ s.existing)
    (hst : (s.procs t).state = w.state) (hcurr : ∀ k, s.started k = true → s.curr k = t → k = h) :
    ∃ s', s.unpark h t w = .done () s' ∧ Settled s' (wokenPlaces s v h t w) ∧
      s'.bare = (woken s h t).bare ∧ board s' (wokenPlaces s v h t w) = (board s v).unpark h t := by
  have hmem := hs.mem_wait ha hst
  obtain ⟨s', hrun, hbare, ht'⟩ := hs.threaded.unpark hmem hst
    (hs.priority_lt ha (hs.valid.wait hmem).2) (hs.magic t ha) h
  have hmoved := hs.mem_wokenPlaces hmem h
  have hbare : s'.bare = (woken s h t).bare := hbare
  have hboard : board s' (wokenPlaces s v h t w) = (board s v).unpark h t := by
    rw [board_congr hbare fun _ _ => Iff.rfl, woken, board_setTp, board_setState, Board.unpark]
    ext r a
    · exact hmoved r a
    all_goals rfl
  refine ⟨s', hrun, hs.rearranged ht' ?_ (mem_moved hmem hmoved) ?_, hbare, hboard⟩
  · exact Same.of_bare ((Same.setState s t .ready).trans
      (Same.modify _ t (f := fun p => { p with tf := { p.tf with kernelTp := h } })
        fun _ => ⟨rfl, rfl⟩)) hbare
  · rw [hboard]
    exact hs.valid.unpark hh hmem fun k hk he => hcurr k hk he

end Settled

end RexOS.Smp
