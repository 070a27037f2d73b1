import RexOS.Smp.Effects
import RexOS.Smp.Slice

/-!
# What is reaped is not in use

A process that is reaped is the current one of no hart, and afterwards nothing in the kernel points
to it, where the events are careful and none reaps the process that `shell_ptr` names. An exiting
process is on the list of zombies while its own hart still runs it, and another hart may reap it
there.
-/

namespace RexOS.Smp

open Scheduler Kernel

variable {procs : Nat → Process} {T : Touch → Nat → Prop} {s s' : Kernel} {v v' : Place → List Nat}
  {a h l idle harts : Nat} {m m' : Machine} {e : Event} {g : List (Machine × Event)}

/-- What the kernel points to exists. -/
structure Grounded (s : Kernel) : Prop where
  curr : ∀ h, s.started h = true → s.curr h ∈ s.existing
  emergency : s.emergencyProcess = 0 ∨ s.emergencyProcess ∈ s.existing
  circle : ∀ h i, (s.queues h).activeProcessCircles i = 0 ∨
    (s.queues h).activeProcessCircles i ∈ s.existing
  head : ∀ w, s.heads w = 0 ∨ s.heads w ∈ s.existing
  next : ∀ a ∈ s.existing, (s.procs a).next = 0 ∨ (s.procs a).next ∈ s.existing
  prev : ∀ a ∈ s.existing, (s.procs a).prev = 0 ∨ (s.procs a).prev ∈ s.existing
  shell : s.shellPtr = 0 ∨ s.shellPtr ∈ s.existing

/-- The first of a place. -/
theorem Settled.head_existing (hs : Settled s v) (q : Place) :
    (v q).head?.getD 0 = 0 ∨ (v q).head?.getD 0 ∈ s.existing := by
  cases hq : v q with
  | nil => exact Or.inl rfl
  | cons x xs =>
    have hx : x ∈ v q := hq ▸ List.mem_cons_self
    exact Or.inr (hs.mem_existing hx)

/-- In a settled state every reference is to a process that exists. -/
theorem Settled.grounded (hs : Settled s v) (hshell : s.shellPtr = 0 ∨ s.shellPtr ∈ s.existing) :
    Grounded s := by
  constructor
  · exact fun h hh => hs.curr_existing hh
  · by_cases h0 : s.emergencyProcess = 0
    · exact Or.inl h0
    · obtain ⟨k, i, hmem, -⟩ := hs.valid.emergency h0
      exact Or.inr (hs.mem_existing hmem)
  · intro h i
    have hfirst : (s.queues h).activeProcessCircles i = (v (.circle h i)).head?.getD 0 :=
      hs.threaded.first_circle h i
    rw [hfirst]
    exact hs.head_existing _
  · intro w
    have hhead : s.heads w = (v (.wait w)).head?.getD 0 := (hs.threaded.dll w).seg.head_eq
    rw [hhead]
    exact hs.head_existing _
  · intro a ha
    obtain ⟨q, hq⟩ := (hs.mem a).mp ha
    cases q with
    | circle k i => exact Or.inr (hs.mem_existing ((hs.threaded.wheel k i).next_mem hq))
    | wait w =>
      by_cases h0 : (s.procs a).next = 0
      · exact Or.inl h0
      · exact Or.inr (hs.mem_existing ((hs.threaded.dll w).next_mem hq h0))
  · intro a ha
    obtain ⟨q, hq⟩ := (hs.mem a).mp ha
    cases q with
    | circle k i => exact Or.inr (hs.mem_existing ((hs.threaded.wheel k i).prev_mem hq))
    | wait w =>
      by_cases h0 : (s.procs a).prev = 0
      · exact Or.inl h0
      · exact Or.inr (hs.mem_existing ((hs.threaded.dll w).prev_mem hq h0))
  · exact hshell

/-! ## Reaping -/

/-- A call leaves `shell_ptr` or sets it to the process of its hart. -/
theorem Call.shellPtr (hc : Call T h (s, v) (s', v')) :
    s'.shellPtr = s.shellPtr ∨ s.started h = true ∧ s'.shellPtr = s.curr h := by
  cases hc with
  | shell hh hb => exact Or.inr ⟨hh, (field_bare Kernel.shellPtr (fun _ => rfl) hb).trans rfl⟩
  | trigger hb | pending _ hb | char _ _ hb | park _ _ _ _ _ _ hb | sleep _ _ _ _ hb
  | exit _ _ _ _ _ _ _ hb | yield _ _ hb | steal _ _ _ _ _ _ hb | reap _ _ _ _ hb =>
    exact Or.inl ((field_bare Kernel.shellPtr (fun _ => rfl) hb).trans rfl)
  | wake hh t w hT hw hws ht hfree hb =>
    exact Or.inl ((field_bare Kernel.shellPtr (fun _ => rfl) hb).trans
      (rest_preempt Kernel.shellPtr (fun _ _ => rfl) (fun _ => rfl) _ t))
  | spawn hh new pid priority image hT hrun hnew h0 hprio halive htake hk hb =>
    obtain ⟨-, bit, rfl⟩ := hk
    exact Or.inl ((field_bare Kernel.shellPtr (fun _ => rfl) hb).trans
      (rest_enroll Kernel.shellPtr (fun _ _ => rfl) _ h new pid image priority))
  | start idle hh h0 hidle => exact Or.inl rfl

/-- What `shell_ptr` names exists, and it is not to be reaped or a hart runs it. -/
structure Shelled (T : Touch → Nat → Prop) (s : Kernel) : Prop where
  known : s.shellPtr = 0 ∨ s.shellPtr ∈ s.existing
  kept : ¬ T .reap s.shellPtr ∨ ∃ l, s.started l = true ∧ s.shellPtr = s.curr l

/-- A call that does not reap the shell keeps the shell pointer good. -/
theorem Shelled.call (hk : Shelled T s) (hc : Calls T h (s, v) (s', v')) : Shelled T s' := by
  obtain ⟨-, hs', hc⟩ := hc
  rcases hc.shellPtr with hsame | ⟨hh, hset⟩
  · constructor
    · rw [hsame]
      rcases hc.existing with he | ⟨t, -, hT, hcurr, he⟩ | ⟨new, -, he⟩
      · exact he ▸ hk.known
      · have hne : s.shellPtr ≠ t := by
          rintro rfl
          rcases hk.kept with hno | ⟨l, hl, hlc⟩
          · exact hno hT
          · exact hcurr l hl hlc.symm
        rw [he, List.mem_erase_of_ne hne]
        exact hk.known
      · rw [he]
        exact hk.known.imp_right (List.mem_cons_of_mem _)
    · rw [hsame]
      exact hk.kept.imp_right fun ⟨l, hl, hlc⟩ => ⟨l, (hc.curr hl).1, hlc.trans (hc.curr hl).2.symm⟩
  · obtain ⟨hh', hcurr⟩ := hc.curr hh
    have hshell : s'.shellPtr = s'.curr h := hset.trans hcurr.symm
    exact ⟨Or.inr (hshell ▸ hs'.curr_existing hh'), Or.inr ⟨h, hh', hshell⟩⟩

/-- So does a series of such calls. -/
theorem Shelled.calls {x y : Scene} (hk : Shelled T x.1)
    (hc : Relation.ReflTransGen (Calls T h) x y) :
    Shelled T y.1 := by
  induction hc with
  | refl => exact hk
  | tail _ hlast ih => exact ih.call hlast

/-- What calls reap is the current process of no hart. -/
theorem Calls.reaped {x y : Scene} (hc : Relation.ReflTransGen (Calls T h) x y)
    (ha : a ∈ x.1.existing)
    (hno : a ∉ y.1.existing) (hl : x.1.started l = true) : x.1.curr l ≠ a := by
  induction hc with
  | refl => exact absurd ha hno
  | @tail y z hcalls hlast ih =>
    by_cases hay : a ∈ y.1.existing
    · obtain ⟨hup, hcurr⟩ := Calls.curr hcalls hl
      rcases hlast.2.2.existing with he | ⟨t, -, -, hfree, he⟩ | ⟨new, -, he⟩
      · exact absurd (he ▸ hay) hno
      · rintro rfl
        have hne : x.1.curr l ≠ t := fun hlt => hfree l hup (hcurr.trans hlt)
        rw [he] at hno
        exact hno ((List.mem_erase_of_ne hne).mpr hay)
      · rw [he] at hno
        exact absurd (List.mem_cons_of_mem _ hay) hno
    · exact ih hay

/-! ## Runs -/

/-- The event is careful and does not reap the process that `shell_ptr` names. -/
def Machine.Spares (m : Machine) (e : Event) : Prop :=
  m.Careful e ∧ ¬ m.Touches e .reap m.kernel.shellPtr

instance (m : Machine) (e : Event) : Decidable (m.Spares e) :=
  inferInstanceAs (Decidable (m.Careful e ∧ ¬ m.Touches e .reap m.kernel.shellPtr))

/-- The timer reaps nobody. -/
theorem Machine.Quiet.spares : Machine.Quiet Machine.Spares :=
  ⟨fun _ _ => ⟨Machine.Quiet.careful.timer _ _, fun hT => List.not_mem_nil hT⟩,
    fun ha => ⟨Machine.Quiet.careful.tick ha, fun hT => List.not_mem_nil hT⟩⟩

/-- What holds between two events. -/
def Tidy (s : Kernel) (v : Place → List Nat) : Prop :=
  Steady s v ∧ (s.shellPtr = 0 ∨ s.shellPtr ∈ s.existing)

/-- One event keeps this, and what it reaps no hart runs. -/
theorem Tidy.step (hm : Tidy m.kernel v) (hc : m.Spares e) (hstep : m.step e = some m') :
    (∃ v', Tidy m'.kernel v') ∧ ∀ a ∈ m.kernel.existing, a ∉ m'.kernel.existing →
      ∀ h, m.kernel.started h = true → m.kernel.curr h ≠ a := by
  obtain ⟨v', hcourse, hm'⟩ := hm.1.course hc.1 hstep
  have hsame : ∀ {s : Kernel}, s.shellPtr = m.kernel.shellPtr → s.existing = m.kernel.existing →
      (s.shellPtr = 0 ∨ s.shellPtr ∈ s.existing) ∧ ∀ a ∈ m.kernel.existing, a ∉ s.existing →
        ∀ h, m.kernel.started h = true → m.kernel.curr h ≠ a := by
    intro s hshell hex
    rw [hshell, hex]
    exact ⟨hm.2, fun a ha hno => absurd ha hno⟩
  cases hcourse with
  | calls hne hcalls =>
    have hshelled : Shelled (m.Touches e) m.kernel := ⟨hm.2, Or.inl hc.2⟩
    exact ⟨⟨v', hm', (hshelled.calls hcalls).known⟩,
      fun a ha hno h hh => Calls.reaped hcalls ha hno hh⟩
  | stays hp hdue =>
    obtain ⟨hshell, hreaped⟩ := hsame
      (hp.rest Kernel.shellPtr (fun _ => rfl) (fun _ _ => rfl) (fun _ _ => rfl) rfl)
      (hp.rest Kernel.existing (fun _ => rfl) (fun _ _ => rfl) (fun _ _ => rfl) rfl)
    exact ⟨⟨v', hm', hshell⟩, hreaped⟩
  | @dispatches h x m₁ v₁ s' hp hdue hrun hd =>
    obtain ⟨hshell, hreaped⟩ := hsame (s := s')
      ((field_bare Kernel.shellPtr (fun _ => rfl) hd.bare).trans
        ((rest_refilled Kernel.shellPtr (fun _ _ => rfl) m₁.kernel h).trans
          (hp.rest Kernel.shellPtr (fun _ => rfl) (fun _ _ => rfl) (fun _ _ => rfl) rfl)))
      ((field_bare Kernel.existing (fun _ => rfl) hd.bare).trans
        ((rest_refilled Kernel.existing (fun _ _ => rfl) m₁.kernel h).trans
          (hp.rest Kernel.existing (fun _ => rfl) (fun _ _ => rfl) (fun _ _ => rfl) rfl)))
    exact ⟨⟨_, hm', hshell⟩, hreaped⟩

/-- So does a whole run. -/
theorem tidy_run (h0 : idle ≠ 0) (hr : Run Machine.step (booted procs harts idle) g m)
    (hc : Run.Steps Machine.Spares g) : ∃ v, Tidy m.kernel v := by
  obtain ⟨v, hm⟩ := steady_booted procs harts h0
  exact hr.invariant (I := fun m => ∃ v, Tidy m.kernel v) hc ⟨v, hm, Or.inl rfl⟩
    fun _ _ _ ⟨_, hs⟩ hcare hstep => (hs.step hcare hstep).1

/-- What an event reaps is the current process of no hart, and then nothing points to what does not
exist. -/
theorem reaps_unused (h0 : idle ≠ 0) (hr : Run Machine.step (booted procs harts idle) g m)
    (hc : Run.Steps Machine.Spares g) (hcare : m.Spares e) (hstep : m.step e = some m') :
    (∀ a ∈ m.kernel.existing, a ∉ m'.kernel.existing → ∀ h, m.kernel.started h = true →
      m.kernel.curr h ≠ a) ∧
      Grounded m'.kernel := by
  obtain ⟨v, hm⟩ := tidy_run h0 hr hc
  obtain ⟨⟨v', hm'⟩, hreaped⟩ := hm.step hcare hstep
  exact ⟨hreaped, hm'.1.settled.grounded hm'.2⟩

/-- Hart 0 reaps the process that has exited and that it has left. -/
theorem reaps_unused_orphan : ∃ m m' : Machine, m.step .clean = some m' ∧ 3 ∈ m.kernel.existing ∧
    3 ∉ m'.kernel.existing ∧ (∀ a ∈ m.kernel.existing, a ∉ m'.kernel.existing →
      ∀ h, m.kernel.started h = true → m.kernel.curr h ≠ a) ∧ Grounded m'.kernel := by
  have hreach : Reaches Machine.Spares
      (fun m => m.Spares .clean ∧ 3 ∈ m.kernel.existing ∧ ∃ u ∈ m.step .clean,
        3 ∉ u.kernel.existing)
      (booted emptyMemory 1 1) ([.event (.start 1 2), .event (.spawn 0 3 ⟨0, 0⟩ 16), .wait 0 127] ++
        interrupt 0 ++ [.event (.syscall 0 (.exit 7)), .event (.softInterrupt 0)]) := by
    decide +kernel
  obtain ⟨g, m, hr, hc, hcare, hin, u, hu, hno⟩ := hreach.exists_run .spares .nil Run.Steps.nil
  exact ⟨m, u, hu, hin, hno, reaps_unused (by decide) hr hc hcare hu⟩

/-- A process exits on hart 1. Before hart 1 has left it, hart 0 reaps it. -/
theorem reaped_running : ∃ g, ∃ m m' : Machine, Run Machine.step (booted emptyMemory 1 1) g m ∧
    m.step .clean = some m' ∧ 3 ∈ m.kernel.existing ∧ 3 ∉ m'.kernel.existing ∧
    m'.kernel.started 1 = true ∧ m'.kernel.curr 1 = 3 := by
  have hreach : Reaches (fun _ _ => True)
      (fun m => 3 ∈ m.kernel.existing ∧ ∃ u ∈ m.step .clean, 3 ∉ u.kernel.existing ∧
        u.kernel.started 1 = true ∧ u.kernel.curr 1 = 3)
      (booted emptyMemory 1 1) [.event (.start 1 2), .event (.spawn 0 3 ⟨0, 0⟩ 16), .wait 1 127,
        .event (.steal 1), .event (.softInterrupt 1), .event (.syscall 1 (.exit 7))] := by
    decide +kernel
  obtain ⟨g, m, hr, hin, u, hu, hno, hup, hcurr⟩ := hreach.run
  exact ⟨g, m, u, hr, hu, hin, hno, hup, hcurr⟩

end RexOS.Smp
