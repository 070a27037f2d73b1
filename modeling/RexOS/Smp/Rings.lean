import RexOS.Core.Requeue
import RexOS.Smp.Naps
import RexOS.Smp.Single

/-!
# The order of a ring

A process leaves its ring anywhere and enters it at the end. So as long as the same processes are on
the ring of one hart, it only turns, and it turns where `schedule` is called in a process that still
runs.
-/

namespace RexOS.Smp

open Scheduler Kernel

variable {T : Touch → Nat → Prop} {s s' k : Kernel} {v v' : Place → List Nat} {a h i t : Nat}
  {m m' m₁ : Machine} {v₁ : Place → List Nat} {e : Event}

/-! ## What is touched -/

/-- What an event may wake up waits. -/
theorem Machine.touched_wake (ht : m.Touches e .wake t) : ¬ (m.kernel.procs t).OnCircle := by
  have hno : ∀ {st : ProcState}, (m.kernel.procs t).state = st → st ≠ .ready → st ≠ .running →
      ¬ (m.kernel.procs t).OnCircle := by
    rintro st rfl hready hrunning (hon | hon)
    · exact hready hon
    · exact hrunning hon
  cases e with
  | softInterrupt h => exact hno (of_decide_eq_true (List.mem_filter.mp ht).2).1 (by simp) (by simp)
  | external h irq c =>
    obtain ⟨hin, hx⟩ := List.mem_filter.mp ht
    obtain rfl := List.mem_singleton.mp hin
    exact hno (of_decide_eq_true hx).2.2 (by simp) (by simp)
  | syscall h c =>
    cases c with
    | sendMsg c =>
      cases c with
      | empty target =>
        obtain ⟨hin, hx⟩ := List.mem_filter.mp ht
        obtain rfl := List.mem_singleton.mp hin
        exact hno (of_decide_eq_true hx) (by simp) (by simp)
      | badPointer | refused | full => exact absurd ht List.not_mem_nil
    | recvMsg c =>
      cases c with
      | full => exact hno (of_decide_eq_true (List.mem_filter.mp ht).2).1 (by simp) (by simp)
      | badPointer | empty => exact absurd ht List.not_mem_nil
    | getc | exit | yield | sleep | wait => exact absurd ht List.not_mem_nil
  | start | spawn | timer | steal | clean => exact absurd ht List.not_mem_nil

/-- What an event spawns is new. -/
theorem Machine.touched_spawn (he : m.Enabled e) (ht : m.Touches e .spawn t) :
    t ∉ m.kernel.existing := by
  cases e with
  | spawn h new image priority =>
    obtain rfl := List.mem_singleton.mp ht
    exact he.2.1
  | syscall h c =>
    cases c with
    | sendMsg c | recvMsg c => cases c <;> exact absurd ht List.not_mem_nil
    | getc | exit | yield | sleep | wait => exact absurd ht List.not_mem_nil
  | start | timer | softInterrupt | external | steal | clean => exact absurd ht List.not_mem_nil

/-! ## Calls -/

/-- Parking takes at most the parked process from a circle. -/
theorem parkedPlaces_circle (s : Kernel) (v : Place → List Nat) (t : Nat) (w : WaitList)
    (D : Nat → Prop) :
    Requeued D (v (.circle 0 i)) (parkedPlaces s v 0 t w (.circle 0 i)) := by
  unfold parkedPlaces
  rw [Function.update_of_ne (by simp)]
  by_cases hi : i = (s.procs t).priority
  · subst hi
    rw [Function.update_self]
    exact Requeued.erase D _ t
  · rw [Function.update_of_ne (by simp [hi])]
    exact Requeued.refl D _

/-- Waking puts the process at the end of its circle. -/
theorem wokenPlaces_circle {D : Nat → Prop} (s : Kernel) (v : Place → List Nat)
    (h : Nat) (w : WaitList)
    (ht : D t) : Requeued D (v (.circle h i)) (wokenPlaces s v h t w (.circle h i)) := by
  unfold wokenPlaces
  by_cases hi : i = (s.procs t).priority
  · subst hi
    rw [Function.update_self]
    exact Requeued.append ht _
  · rw [Function.update_of_ne (by simp [hi]), Function.update_of_ne (by simp)]
    exact Requeued.refl D _

/-- A call requeues only what it wakes or creates. -/
theorem Call.circle (hm : Lone s v) (hc : Call T 0 (s, v) (s', v')) (i : Nat) :
    Requeued (fun a => T .wake a ∨ T .spawn a) (v (.circle 0 i)) (v' (.circle 0 i)) := by
  cases hc with
  | trigger | shell | pending | char | yield => exact Requeued.refl _ _
  | park hh w hw hws hrun hpid hb => exact parkedPlaces_circle s v _ w _
  | sleep hh ticks hrun hpid hb => exact parkedPlaces_circle s v _ .sleeping _
  | exit hh code xs hT hrun hpid hxs hb => exact parkedPlaces_circle s v _ .zombie _
  | wake hh t w hT hw hws ht hfree hb => exact wokenPlaces_circle s v 0 w (Or.inl hT)
  | reap t hT ht hcurr hb =>
    unfold reapedPlaces
    rw [Function.update_of_ne (by simp)]
    exact Requeued.refl _ _
  | steal hh t core hT ht hidle hb =>
    obtain ⟨j, -, hmem⟩ := ht.mem
    have hup : s.started core = true := (hm.steady.settled.valid.circle hmem).1
    exact absurd (hm.up_iff.mp hup) ht.other
  | spawn hh new pid priority image hT hrun hnew h0 hprio halive htake hk hb =>
    unfold bornPlaces
    by_cases hi : i = priority
    · subst hi
      rw [Function.update_self]
      exact Requeued.append (D := fun a => T .wake a ∨ T .spawn a) (Or.inr hT) _
    · rw [Function.update_of_ne (by simp [hi])]
      exact Requeued.refl _ _
  | start idle hh h0 hidle =>
    rw [hm.up] at hh
    exact absurd hh (by simp)

/-- One hart stays alone. -/
theorem Lone.calls {x y : Scene} (hm : Lone x.1 x.2) (hc : Relation.ReflTransGen (Calls T 0) x y) :
    Lone y.1 y.2 := by
  induction hc with
  | refl => exact hm
  | tail _ hlast ih =>
    exact ⟨ih.steady.call hlast, hlast.2.2.hart.trans ih.hart, (hlast.2.2.curr ih.up).1⟩

/-- So does a series of calls. -/
theorem Lone.circles {x y : Scene} (hm : Lone x.1 x.2) (hc : Relation.ReflTransGen (Calls T 0) x y)
    (i : Nat) :
    Requeued (fun a => T .wake a ∨ T .spawn a) (x.2 (.circle 0 i)) (y.2 (.circle 0 i)) := by
  induction hc with
  | refl => exact Requeued.refl _ _
  | tail hcalls hlast ih => exact ih.trans (hlast.2.2.circle (hm.calls hcalls) i)

/-- The walk requeues a sleeper that wakes. -/
theorem Nap.circle (hn : Nap T h (s, v) (s', v')) (i : Nat) :
    Requeued (T .wake) (v (.circle h i)) (v' (.circle h i)) := by
  cases hn with
  | count | alarm => exact Requeued.refl _ _
  | wake t ht hlast hT hfree hb => exact wokenPlaces_circle s v h .sleeping hT

/-- So does the whole walk. -/
theorem Naps.circle {x y : Scene} (hn : Relation.ReflTransGen (Naps T h) x y) (i : Nat) :
    Requeued (T .wake) (x.2 (.circle h i)) (y.2 (.circle h i)) := by
  induction hn with
  | refl => exact Requeued.refl _ _
  | tail _ hlast ih => exact ih.trans (hlast.2.2.circle i)

/-! ## Members -/

/-- No process is twice on a circle. -/
theorem Settled.circle_nodup (hs : Settled s v) (h i : Nat) : (v (.circle h i)).Nodup :=
  (hs.threaded.wheel h i).nodup

/-- On one hart the rings are made of what is ready or runs. -/
theorem Lone.mem_circle (hm : Lone s v) :
    a ∈ v (.circle 0 i) ↔ a ∈ s.existing ∧ (s.procs a).OnCircle ∧ (s.procs a).priority = i := by
  have hs := hm.steady.settled
  constructor
  · intro ha
    obtain ⟨-, hprio, hon⟩ := hs.valid.circle ha
    exact ⟨hs.mem_existing ha, hon, hprio⟩
  · rintro ⟨hex, hon, rfl⟩
    obtain ⟨l, -, hl⟩ := hs.mem_circle hex hon
    exact hm.circle hl

end RexOS.Smp
