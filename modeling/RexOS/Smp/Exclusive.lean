import RexOS.Smp.Slice

/-!
# A process and the hart that runs it

In a run of careful events no two harts run one process, and what a hart dispatches is a ready
process of its own circles. Without the care of one hart for what another has parked but not yet
left, two harts run the same process; with an alarm raised on one hart, another hart dispatches a
process that it does not have.
-/

namespace RexOS.Smp

open Scheduler Kernel

variable {procs : Nat → Process} {harts idle h a : Nat} {m m₁ : Machine}
  {g : List (Machine × Event)} {s : Kernel} {v : Place → List Nat}

/-- No two harts have one current process, and a running process is on the circles of the hart that
has it as its current one. -/
def OneHartEach (s : Kernel) : Prop :=
  (∀ k l, s.started k = true → s.started l = true → s.curr k = s.curr l → k = l) ∧
    ∀ a ∈ s.existing, (s.procs a).state = .running →
      ∃ h, s.started h = true ∧ s.curr h = a ∧ InRing s h a

/-- In a settled state no two harts run one process. -/
theorem Settled.oneHartEach (hs : Settled s v) : OneHartEach s := by
  refine ⟨fun k l hk hl he => hs.valid.alone hk hl he, fun a ha hrun => ?_⟩
  obtain ⟨h, hh, hmem⟩ := hs.mem_circle ha (Or.inr hrun)
  have hc : a = s.curr h := hs.valid.running hmem hrun
  exact ⟨h, hh, hc.symm, hs.inRing_iff.mpr ⟨_, hmem⟩⟩

/-- So it is in every state of a careful run. -/
theorem oneHartEach_run (h0 : idle ≠ 0) (hr : Run Machine.step (booted procs harts idle) g m)
    (hc : Run.Steps Machine.Careful g) : OneHartEach m.kernel := by
  obtain ⟨v, hm⟩ := steady_run h0 hr hc
  exact hm.settled.oneHartEach

/-- Hart 1 comes up, and hart 0 spawns a process. -/
theorem oneHartEach_run_three : ∃ g m, Run Machine.step (booted emptyMemory 1 1) g m ∧
    m.kernel.existing = [3, 2, 1] ∧ OneHartEach m.kernel := by
  have htakes : Run.Takes Machine.step Machine.Careful (fun m => m.kernel.existing = [3, 2, 1])
      (booted emptyMemory 1 1) [.start 1 2, .spawn 0 3 ⟨0, 0⟩ 16, .timer 0] := by
    decide +kernel
  obtain ⟨g, m, hr, hc, -, hex⟩ := htakes.exists_run .nil Run.Steps.nil
  exact ⟨g, m, hr, hex, oneHartEach_run (by decide) hr hc⟩

/-- Hart 1 has stolen a process, which blocks. Before hart 1 has left it, hart 0 takes the interrupt
of the UART, wakes it up and dispatches it. -/
theorem run_by_two : ∃ g m, Run Machine.step (booted emptyMemory 1 1) g m ∧
    m.kernel.started 0 = true ∧ m.kernel.started 1 = true ∧ m.kernel.curr 0 = m.kernel.curr 1 ∧
    (m.kernel.procs (m.kernel.curr 0)).state = .running ∧
      ¬ InRing m.kernel 1 (m.kernel.curr 1) := by
  have hreach :
    Reaches (fun _ _ => True) (fun m => m.kernel.started 0 = true ∧ m.kernel.started 1 = true ∧
      m.kernel.curr 0 = m.kernel.curr 1 ∧ (m.kernel.procs (m.kernel.curr 0)).state = .running ∧
      ¬ InRing m.kernel 1 (m.kernel.curr 1)) (booted emptyMemory 1 1)
      ([.event (.start 1 2), .event (.spawn 0 3 ⟨0, 0⟩ 16), .event (.steal 1),
        .event (.softInterrupt 1), .wait 1 126] ++ interrupt 1 ++
        [.event (.syscall 1 .getc), .event (.external 0 10 65), .event (.softInterrupt 0)]) := by
    decide +kernel
  exact hreach.run

/-! ## Dispatches -/

/-- What a hart dispatches is ready, on its own circles, and knows the hart. -/
theorem dispatches_own (h0 : idle ≠ 0) (hr : Run Machine.step (booted procs harts idle) g m)
    (hc : Run.Steps Machine.Careful g) (he : m.Enabled (.softInterrupt h))
    (hcare : m.Careful (.softInterrupt h)) (hat : m.atSchedule h = some m₁) :
    ∃ k, m₁.kernel.schedule h = .done () k ∧ m.step (.softInterrupt h) = some (m₁.withKernel k) ∧
      InRing k h (k.curr h) ∧ ((m₁.kernel.putBack h).procs (k.curr h)).state = .ready ∧
      ((k.procs (k.curr h)).pid ≠ 0 → (k.procs (k.curr h)).tf.kernelTp = h) := by
  obtain ⟨v, hm⟩ := steady_run h0 hr hc
  obtain ⟨m₂, v₂, hp, hend⟩ := hm.settled.softInterrupt he.1 hcare
  have hat' : m.atSchedule h = if m₂.Due h then some m₂ else none := by
    unfold Machine.atSchedule
    rw [hp.run]
  rw [hat'] at hat
  have hdue : m₂.Due h := by
    by_contra hno
    rw [if_neg hno] at hat
    exact absurd hat (by simp)
  rw [if_pos hdue] at hat
  cases hat
  rcases hend with ⟨hno, -⟩ | ⟨-, k, x, hsched, hrun, hd⟩
  · exact absurd hdue hno
  · have hstep : m.step (.softInterrupt h) = some (m₁.withKernel k) := by
      unfold Machine.step
      rw [if_pos he]
      exact congrArg Outcome.returned hrun
    have hcurr : k.curr h = x := by
      rw [field_bare Kernel.curr (fun _ => rfl) hd.bare, curr_dispatched, if_pos rfl]
    obtain ⟨i, hx⟩ := hd.chosen.own
    have hup : m₁.kernel.started h = true := by
      rw [hp.rest Kernel.started (fun _ => rfl) (fun _ _ => rfl) (fun _ _ => rfl) rfl]
      exact he.1
    have hback : (m₁.kernel.putBack h).bare = (refilled m₁.kernel h).bare :=
      (hd.before.putBack hup).2
    refine ⟨k, hsched, hstep, ?_, ?_, fun hpid => ?_⟩
    · rw [hcurr]
      exact hd.after.inRing_iff.mpr ⟨i, hx⟩
    · rw [hcurr, field_bare (fun s => (s.procs x).state) (fun _ => rfl) hback]
      exact hd.ready
    · rw [hcurr] at hpid ⊢
      exact hd.after.valid.user hx hpid

/-- Hart 0 has spent the slice of its idle process and dispatches the process it has spawned. -/
theorem dispatches_own_first : ∃ m m₁ : Machine, ∃ k : Kernel, m.atSchedule 0 = some m₁ ∧
    m₁.kernel.schedule 0 = .done () k ∧
    m.step (.softInterrupt 0) = some (m₁.withKernel k) ∧ InRing k 0 (k.curr 0) ∧
    ((m₁.kernel.putBack 0).procs (k.curr 0)).state = .ready ∧
    ((k.procs (k.curr 0)).pid ≠ 0 → (k.procs (k.curr 0)).tf.kernelTp = 0) := by
  have hreach : Reaches Machine.Careful
      (fun m => m.Enabled (.softInterrupt 0) ∧ m.Careful (.softInterrupt 0) ∧
        (m.atSchedule 0).isSome)
      (booted emptyMemory 1 1) [.event (.spawn 0 3 ⟨0, 0⟩ 16), .wait 0 127, .event (.timer 0)] := by
    decide +kernel
  obtain ⟨g, m, hr, hc, he, hcare, hat⟩ := hreach.exists_run .careful .nil Run.Steps.nil
  obtain ⟨m₁, hm₁⟩ := Option.isSome_iff_exists.mp hat
  obtain ⟨k, hk⟩ := dispatches_own (by decide) hr hc he hcare hm₁
  exact ⟨m, m₁, k, hm₁, hk⟩

/-- An alarm that the sweep of hart 0 raises is answered by hart 1, which does not have the
process. -/
theorem dispatched_elsewhere : ∃ g m u, Run Machine.step (booted emptyMemory 1 1) g m ∧
    m.step (.softInterrupt 1) = some u ∧ u.kernel.curr 1 = 4 ∧ ¬ InRing u.kernel 1 4 ∧
    (u.kernel.procs 4).pid ≠ 0 ∧ (u.kernel.procs 4).tf.kernelTp = 0 := by
  have hidles : (booted emptyMemory 1 1).Idles 0 := by
    constructor <;> decide +kernel
  obtain ⟨g, hr⟩ := hidles.runs (n := 6) .nil (by decide)
  have hreach : Reaches (fun _ _ => True)
      (fun m => ∃ u ∈ m.step (.softInterrupt 1), u.kernel.curr 1 = 4 ∧ ¬ InRing u.kernel 1 4 ∧
        (u.kernel.procs 4).pid ≠ 0 ∧ (u.kernel.procs 4).tf.kernelTp = 0)
      ((booted emptyMemory 1 1).idled 0 (128 * 6))
      ([.event (.start 1 2), .event (.spawn 0 3 ⟨0, 0⟩ 29), .event (.spawn 0 4 ⟨0, 0⟩ 30),
        .wait 0 127] ++
        interrupt 0 ++ [.wait 0 103] ++ interrupt 0 ++ [.wait 1 127, .event (.timer 1)]) := by
    decide +kernel
  obtain ⟨g', m, hr', -, u, hu, hbad⟩ := hreach.exists_run .true hr fun _ _ => trivial
  exact ⟨g', m, u, hr', hu, hbad⟩

end RexOS.Smp
