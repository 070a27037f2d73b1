import RexOS.Smp.Effects

/-!
# One hart

On one hart every event is careful: there is no other hart to get in the way of.
-/

namespace RexOS.Smp

open Scheduler Kernel

variable {procs : Nat → Process} {T : Touch → Nat → Prop} {s s' : Kernel} {v v' : Place → List Nat}
  {h l idle : Nat} {m m' : Machine} {e : Event} {g : List (Machine × Event)}

/-- The number of harts does not change. -/
theorem Call.hart (hc : Call T h (s, v) (s', v')) : s'.hart = s.hart := by
  rcases hc.rest Kernel.hart (fun _ => rfl) (fun _ _ => rfl) (fun _ => rfl) (fun _ _ => rfl)
    (fun _ _ => rfl) fun _ _ _ _ _ => rfl with he | ⟨-, idle, -, rfl⟩
  · exact he
  · rfl

/-- A dispatch keeps what is no process, and the processes of other harts. -/
theorem Dispatched.rest {α : Type} {x : Nat} (g : Kernel → α) (hg : ∀ x : Kernel, g x.bare = g x)
    (hp : ∀ x p, g { x with procs := p } = g x)
    (he : ∀ x a, g { x with emergencyProcess := a } = g x)
    (hq : ∀ x h a, g (Kernel.setCurr x h a) = g x) (hd : Dispatched h x s v s') : g s' = g s :=
  (field_bare g hg hd.bare).trans ((hp _ _).trans ((he _ _).trans ((hq _ h x).trans
    (rest_refilled g hp s h))))

/-- No event changes the number of harts. -/
theorem Course.hart (hc : Course m v e m' v') : m'.kernel.hart = m.kernel.hart := by
  cases hc with
  | calls hne hcalls =>
    have hchain :
      ∀ {b : Scene}, Relation.ReflTransGen (Calls (m.Touches e) e.hart) (m.kernel, v) b →
        b.1.hart = m.kernel.hart := by
      intro b hb
      induction hb with
      | refl => rfl
      | tail _ hlast ih => exact hlast.2.2.hart.trans ih
    exact hchain hcalls
  | stays hp hdue => exact hp.rest Kernel.hart (fun _ => rfl) (fun _ _ => rfl) (fun _ _ => rfl) rfl
  | dispatches hp hdue hrun hd =>
    exact (hd.rest Kernel.hart (fun _ => rfl) (fun _ _ => rfl) (fun _ _ => rfl)
      fun _ _ _ => rfl).trans
      (hp.rest Kernel.hart (fun _ => rfl) (fun _ _ => rfl) (fun _ _ => rfl) rfl)

/-- A hart that is up stays up. -/
theorem Course.started (hc : Course m v e m' v') (hl : m.kernel.started l = true) :
    m'.kernel.started l = true := by
  cases hc with
  | calls hne hcalls => exact (Calls.curr hcalls hl).1
  | stays hp hdue => exact hp.up hl
  | dispatches hp hdue hrun hd =>
    refine (congrFun (hd.rest Kernel.started (fun _ => rfl) (fun _ _ => rfl) (fun _ _ => rfl)
      fun _ _ _ => rfl) l).trans (hp.up hl)

/-! ## Runs -/

/-- There is hart 0 alone. -/
structure Lone (s : Kernel) (v : Place → List Nat) : Prop where
  steady : Steady s v
  hart : s.hart = 1
  up : s.started 0 = true

/-- Only hart 0 is up. -/
theorem Lone.up_iff (hm : Lone s v) : s.started l = true ↔ l = 0 := by
  constructor
  · intro hl
    have hlt := hm.steady.settled.range l hl
    rw [hm.hart] at hlt
    omega
  · rintro rfl
    exact hm.up

/-- So every event is on hart 0. -/
theorem Lone.event (hm : Lone m.kernel v) (he : m.Enabled e) : e.hart = 0 := by
  cases e with
  | start h idle =>
    obtain ⟨hlt, hdown, -⟩ := he
    rw [hm.hart] at hlt
    obtain rfl : h = 0 := by omega
    exact absurd (hdown.symm.trans hm.up) (by simp)
  | spawn | softInterrupt | syscall | steal => exact hm.up_iff.mp he.1
  | timer | external => exact hm.up_iff.mp he
  | clean => rfl

/-- What has a place on a circle has one on the circles of hart 0. -/
theorem Lone.circle (hm : Lone s v) {a k i : Nat} (ha : a ∈ v (.circle k i)) :
    a ∈ v (.circle 0 i) := by
  obtain rfl := hm.up_iff.mp (hm.steady.settled.valid.circle ha).1
  exact ha

/-- With one hart no other can be in the way. -/
theorem Lone.careful (hm : Lone m.kernel v) (he : m.Enabled e) : m.Careful e := by
  have hs := hm.steady.settled
  have hzero := hm.event he
  have hfree : ∀ t ∈ m.kernel.existing, ∀ c ∈ [Touch.wake, .reap, .steal], m.Touches e c t →
      Free m.kernel e.hart t := by
    intro t _ c _ _ k hlt _ _
    rw [hm.hart] at hlt
    omega
  refine ⟨hfree, ?_⟩
  cases e with
  | softInterrupt h =>
    obtain rfl : h = 0 := hzero
    intro k hk hne
    obtain ⟨m₁, v₁, hp⟩ := hs.beforeSchedule hm.up hfree
    have hk₁ : m₁ = k := by
      unfold Machine.atSchedule at hk
      rw [hp.run] at hk
      dsimp only at hk
      split at hk
      · exact Option.some.inj hk
      · exact absurd hk (by simp)
    subst hk₁
    have hs₁ := hp.settled
    obtain ⟨l, i, hin, -⟩ := hs₁.valid.emergency hne
    have hlt := hs₁.range l (hs₁.valid.circle hin).1
    rw [hp.rest Kernel.hart (fun _ => rfl) (fun _ _ => rfl) (fun _ _ => rfl) rfl, hm.hart] at hlt
    obtain rfl : l = 0 := by omega
    exact hs₁.inRing_iff.mpr ⟨i, hin⟩
  | start | spawn | timer | external | syscall | steal | clean => trivial

/-- Each event keeps the hart alone. -/
theorem Lone.course (hm : Lone m.kernel v) (hstep : m.step e = some m') :
    ∃ v', Course m v e m' v' ∧ Lone m'.kernel v' := by
  obtain ⟨v', hc, hm'⟩ := hm.steady.course (hm.careful (Machine.step_eq_some.mp hstep).1) hstep
  exact ⟨v', hc, hm', hc.hart.trans hm.hart, hc.started hm.up⟩

/-- At the start hart 0 is alone. -/
theorem lone_booted (procs : Nat → Process) (h0 : idle ≠ 0) :
    ∃ v, Lone (booted procs 0 idle).kernel v := by
  obtain ⟨v, hm⟩ := steady_booted procs 0 h0
  exact ⟨v, hm, rfl, rfl⟩

/-- So it is in every state of a run without other harts. -/
theorem lone_run (h0 : idle ≠ 0) (hr : Run Machine.step (booted procs 0 idle) g m) :
    ∃ v, Lone m.kernel v := by
  refine hr.invariant (I := fun m => ∃ v, Lone m.kernel v) (P := fun _ _ => True)
    (fun _ _ => trivial) (lone_booted procs h0) fun _ _ _ ⟨_, hm⟩ _ hstep => ?_
  obtain ⟨v', -, hm'⟩ := hm.course hstep
  exact ⟨v', hm'⟩

end RexOS.Smp
