import RexOS.Smp.Effects
import RexOS.Smp.Slice

/-!
# A dispatch in two steps

`schedule` releases the lock of the run queue before `_switch_context` saves the registers of the
process that it leaves and loads those of the process that it has picked. In between, other harts go
on. Where they do not touch a process that is being left, none of them loads a context that is not
saved yet; where one steals such a process, it does.
-/

namespace RexOS.Smp

open Scheduler Kernel

/-- `ra`, `sp` and `s0` to `s11`. -/
abbrev Context := Fin 14 → Nat

/-- The machine with the registers of the harts and the saved contexts. A hart that has picked a
process and not switched yet is leaving `out_process` for `in_process`. -/
structure Switching where
  machine : Machine
  leaving : Nat → Option (Nat × Nat)
  registers : Nat → Context
  contexts : Nat → Context

/-- What may happen: an event up to the release of the lock, other work of a hart with its
registers, or `_switch_context`. A spawn gives the addresses of `_process_bootstrap` and of the
kernel stack. -/
inductive Move where
  | event (e : Event) (bootstrap stack : Nat)
  | work (h : Nat) (r : Context)
  | switchContext (h : Nat)

namespace Switching

variable (s : Switching)

/-- The context of a new process. -/
def firstContext (bootstrap stack : Nat) : Context := fun i =>
  if i = 0 then bootstrap else if i = 1 then stack else 0

/-- Where an event comes to `schedule`, its hart starts to leave its process. -/
def leavingAfter (e : Event) (m : Machine) : Nat → Option (Nat × Nat) :=
  match e with
  | .softInterrupt h =>
    if (s.machine.atSchedule h).isSome then
      Function.update s.leaving h (some (s.machine.kernel.curr h, m.kernel.curr h))
    else s.leaving
  | _ => s.leaving

/-- A spawn fills in the context of the new process. -/
def contextsAfter (e : Event) (bootstrap stack : Nat) (m : Machine) : Nat → Context :=
  match e with
  | .spawn _ new _ _ =>
    if new ∈ m.kernel.existing then Function.update s.contexts new (firstContext bootstrap stack)
    else s.contexts
  | _ => s.contexts

/-- An event, up to the release of the lock where it comes to `schedule`. -/
def event (e : Event) (bootstrap stack : Nat) : Option Switching :=
  if s.leaving e.hart = none then
    (s.machine.step e).map fun m =>
      ⟨m, s.leavingAfter e m, s.registers, s.contextsAfter e bootstrap stack m⟩
  else none

def work (h : Nat) (r : Context) : Option Switching :=
  if s.leaving h = none then some { s with registers := Function.update s.registers h r } else none

/-- `_switch_context(out_process, in_process)`. -/
def switchContext (h : Nat) : Option Switching :=
  match s.leaving h with
  | none => none
  | some (outProcess, inProcess) =>
    let contexts := Function.update s.contexts outProcess (s.registers h)
    some { s with
      leaving := Function.update s.leaving h none
      contexts := contexts
      registers := Function.update s.registers h (contexts inProcess) }

def step : Move → Option Switching
  | .event e bootstrap stack => s.event e bootstrap stack
  | .work h r => s.work h r
  | .switchContext h => s.switchContext h

/-- The event is careful, and it does not wake up, reap or steal a process that a hart is
leaving. -/
def Careful : Move → Prop
  | .event e _ _ =>
    s.machine.Careful e ∧ ∀ k < s.machine.kernel.hart, ∀ x ∈ s.leaving k, ∀ c,
      ¬ s.machine.Touches e c x.1
  | _ => True

instance : (a : Move) → Decidable (s.Careful a)
  | .event e _ _ => inferInstanceAs (Decidable (_ ∧ ∀ k < s.machine.kernel.hart, ∀ x ∈ s.leaving k,
      ∀ c, ¬ s.machine.Touches e c x.1))
  | .work _ _ | .switchContext _ => inferInstanceAs (Decidable True)

/-- No hart is leaving its process. -/
def Whole : Prop := ∀ h, s.leaving h = none

end Switching

variable {procs : Nat → Process} {T : Touch → Nat → Prop} {s s' : Kernel} {v v' : Place → List Nat}
  {h i j k l o x idle harts : Nat} {m m' : Machine} {e : Event}

/-! ## Processes that are being left -/

/-- The hart `k` has picked `i` and is leaving `o`, which no other hart can run. -/
structure Parting (s : Kernel) (v : Place → List Nat) (k o i : Nat) : Prop where
  up : s.started k = true
  curr : s.curr k = i
  linked : ∃ j, i ∈ v (.circle k j)
  known : o ∈ s.existing
  own : ∀ {l j}, o ∈ v (.circle l j) → l = k

/-- A call of another hart that does not touch the process. -/
theorem Parting.call (hp : Parting s v k o i) (hc : Calls T h (s, v) (s', v')) (hkh : k ≠ h)
    (ho : ∀ c, ¬ T c o) : Parting s' v' k o i := by
  obtain ⟨hs, -, hc⟩ := hc
  obtain ⟨hup, hcurr⟩ := hc.curr hp.up
  obtain ⟨j, hj⟩ := hp.linked
  refine ⟨hup, hcurr.trans hp.curr, ⟨j, ?_⟩, ?_, fun hin => ?_⟩
  · have hi := hp.curr
    subst hi
    exact hc.stays hs hp.up hkh hj
  · rcases hc.existing with he | ⟨t, -, hT, -, he⟩ | ⟨new, -, he⟩
    · exact he ▸ hp.known
    · have hne : o ≠ t := fun hot => ho _ (hot ▸ hT)
      exact he ▸ (List.mem_erase_of_ne hne).mpr hp.known
    · exact he ▸ List.mem_cons_of_mem _ hp.known
  · rcases hc.entered hs hin with hin | ⟨c, hT⟩ | hnew
    · exact hp.own hin
    · exact absurd hT (ho c)
    · exact absurd hp.known hnew

/-- What the other harts call does not touch who is being left. -/
theorem Parting.calls {a b : Scene} (hp : Parting a.1 a.2 k o i)
    (hc : Relation.ReflTransGen (Calls T h) a b)
    (hkh : k ≠ h) (ho : ∀ c, ¬ T c o) : Parting b.1 b.2 k o i := by
  induction hc with
  | refl => exact hp
  | tail _ hlast ih => exact ih.call hlast hkh ho

/-- Where neither the processes that exist nor the harts change, and no process but one in `T` comes
to a circle. -/
theorem Parting.kept (hp : Parting s v k o i) (hst : s'.started = s.started)
    (hcurr : s'.curr k = s.curr k)
    (hex : s'.existing = s.existing) (hin : ∀ {l j}, o ∈ v' (.circle l j) → o ∈ v (.circle l j))
    (hstays : ∀ {j}, i ∈ v (.circle k j) → i ∈ v' (.circle k j)) : Parting s' v' k o i := by
  obtain ⟨j, hj⟩ := hp.linked
  exact ⟨hst ▸ hp.up, hcurr.trans hp.curr, ⟨j, hstays hj⟩, hex ▸ hp.known,
    fun ho => hp.own (hin ho)⟩

/-- Nor does what they do before a dispatch. -/
theorem Parting.prepared {m₁ : Machine} {v₁ : Place → List Nat} (hp : Parting m.kernel v k o i)
    (hprep : Prepared m h v m₁ v₁) (ho : ∀ c, ¬ m.Touches (.softInterrupt h) c o) :
    Parting m₁.kernel v₁ k o i := by
  have htick : Parting (m.kernel.tick h) v k o i :=
    hp.kept rfl (congrFun (curr_tick m.kernel h) k) rfl id id
  have hnaps : ∀ {b : Scene}, Relation.ReflTransGen (Naps (m.Touches (.softInterrupt h)) h)
      (m.kernel.tick h, v) b → Parting b.1 b.2 k o i := by
    intro b hb
    induction hb with
    | refl => exact htick
    | tail _ hlast ih =>
      obtain ⟨hs, -, hn⟩ := hlast
      refine ih.kept (hn.rest Kernel.started (fun _ => rfl) (fun _ _ => rfl) fun _ _ => rfl)
        (congrFun (hn.rest Kernel.curr (fun _ => rfl) (fun _ _ => rfl) fun _ _ => rfl) k)
        (hn.rest Kernel.existing (fun _ => rfl) (fun _ _ => rfl) fun _ _ => rfl) (fun hin => ?_)
        (hn.stays hs)
      exact (hn.entered hs hin).resolve_right (ho .wake)
  exact hnaps hprep.naps

/-- The dispatch of another hart. -/
theorem Parting.dispatch (hp : Parting s v k o i) (hd : Dispatched h x s v s') (hkh : k ≠ h) :
    Parting s' (rotated s h v) k o i := by
  refine hp.kept ?_ ?_ ?_ (mem_rotated _ o).mp (mem_rotated _ i).mpr
  · exact (field_bare Kernel.started (fun _ => rfl) hd.bare).trans
      (rest_refilled Kernel.started (fun _ _ => rfl) s h)
  · refine (congrFun (field_bare Kernel.curr (fun _ => rfl) hd.bare) k).trans ?_
    rw [curr_dispatched, if_neg hkh]
  · exact (field_bare Kernel.existing (fun _ => rfl) hd.bare).trans
      (rest_refilled Kernel.existing (fun _ _ => rfl) s h)

/-- The dispatch of the hart itself. -/
theorem Parting.start (hh : s.started h = true) (hd : Dispatched h x s v s') :
    Parting s' (rotated s h v) h (s.curr h) x := by
  refine ⟨?_, ?_, hd.chosen.own, ?_, fun hin => ?_⟩
  · rw [field_bare Kernel.started (fun _ => rfl) hd.bare]
    exact (congrFun (rest_refilled Kernel.started (fun _ _ => rfl) s h) h).trans hh
  · rw [field_bare Kernel.curr (fun _ => rfl) hd.bare, curr_dispatched, if_pos rfl]
  · rw [field_bare Kernel.existing (fun _ => rfl) hd.bare]
    exact (rest_refilled Kernel.existing (fun _ _ => rfl) s h).symm ▸ hd.before.curr_existing hh
  · exact hd.before.valid.home hh ((mem_rotated _ _).mp hin)

/-! ## Runs -/

namespace Switching

variable {s s' : Switching} {a : Move}

/-- What holds between two moves. -/
structure Apart (s : Switching) (v : Place → List Nat) : Prop where
  steady : Steady s.machine.kernel v
  parting : ∀ {k o i}, s.leaving k = some (o, i) → Parting s.machine.kernel v k o i

/-- A dispatch begins to leave the current process. -/
theorem leavingAfter_soft (s : Switching) (h : Nat) (m : Machine) :
    s.leavingAfter (.softInterrupt h) m =
    if (s.machine.atSchedule h).isSome then
      Function.update s.leaving h (some (s.machine.kernel.curr h, m.kernel.curr h))
    else s.leaving := rfl

/-- No other event does. -/
theorem leavingAfter_other (hne : ∀ h, e ≠ .softInterrupt h) : s.leavingAfter e m = s.leaving := by
  cases e <;> first | rfl | exact absurd rfl (hne _)

/-- A hart starts to leave its process, or none does. -/
theorem leavingAfter_cases (s : Switching) (e : Event) (m : Machine) :
    s.leavingAfter e m = s.leaving ∨
    ∃ h x, s.leavingAfter e m = Function.update s.leaving h (some x) := by
  by_cases hsoft : ∃ h, e = .softInterrupt h
  · obtain ⟨h, rfl⟩ := hsoft
    rw [leavingAfter_soft]
    split
    · exact Or.inr ⟨h, _, rfl⟩
    · exact Or.inl rfl
  · exact Or.inl (leavingAfter_other fun h he => hsoft ⟨h, he⟩)

/-- An event of a hart that is not leaving anybody. -/
theorem step_event {bootstrap stack : Nat} (hstep : s.step (.event e bootstrap stack) = some s') :
    s.leaving e.hart = none ∧ ∃ m, s.machine.step e = some m ∧
      s' = ⟨m, s.leavingAfter e m, s.registers, s.contextsAfter e bootstrap stack m⟩ := by
  change s.event e bootstrap stack = some s' at hstep
  unfold event at hstep
  split at hstep
  · rename_i hnone
    obtain ⟨m, hm, rfl⟩ := Option.map_eq_some_iff.mp hstep
    exact ⟨hnone, m, hm, rfl⟩
  · exact absurd hstep (by simp)

/-- A careful event keeps the leaving processes apart. -/
theorem Apart.event (ha : Apart s v) {bootstrap stack : Nat}
    (hc : s.Careful (.event e bootstrap stack))
    (hstep : s.step (.event e bootstrap stack) = some s') : ∃ v', Apart s' v' := by
  obtain ⟨hnone, m, hm, rfl⟩ := step_event hstep
  obtain ⟨hcare, htouch⟩ := hc
  obtain ⟨v', hcourse, hsteady⟩ := ha.steady.course hcare hm
  have hother : ∀ {k o i}, s.leaving k = some (o, i) → k ≠ e.hart ∧ ∀ c,
      ¬ s.machine.Touches e c o := by
    intro k o i hk
    refine ⟨?_, htouch k ?_ _ hk⟩
    · rintro rfl
      exact absurd (hk.symm.trans hnone) (by simp)
    · exact ha.steady.settled.range k (ha.parting hk).up
  refine ⟨v', hsteady, fun {k o i} hk => ?_⟩
  cases hcourse with
  | calls hne hcalls =>
    change s.leavingAfter e m k = some (o, i) at hk
    rw [leavingAfter_other hne] at hk
    exact (ha.parting hk).calls hcalls (hother hk).1 (hother hk).2
  | @stays h _ _ hp hdue =>
    have hnone : s.machine.atSchedule h = none := by
      unfold Machine.atSchedule
      rw [hp.run]
      exact if_neg hdue
    change s.leavingAfter (.softInterrupt h) m k = some (o, i) at hk
    rw [leavingAfter_soft, hnone] at hk
    exact (ha.parting hk).prepared hp (hother hk).2
  | @dispatches h x m₁ v₁ k' hp hdue hrun hd =>
    have hsome : (s.machine.atSchedule h).isSome = true := by
      unfold Machine.atSchedule
      rw [hp.run]
      dsimp only
      rw [if_pos hdue]
      rfl
    have hup := (Machine.step_eq_some.mp hm).1.1
    have hcurr : m₁.kernel.curr h = s.machine.kernel.curr h :=
      congrFun (hp.rest Kernel.curr (fun _ => rfl) (fun _ _ => rfl) (fun _ _ => rfl)
        (curr_tick _ h)) h
    have hnext : k'.curr h = x := by
      rw [field_bare Kernel.curr (fun _ => rfl) hd.bare, curr_dispatched, if_pos rfl]
    change s.leavingAfter (.softInterrupt h) (m₁.withKernel k') k = some (o, i) at hk
    rw [leavingAfter_soft, if_pos hsome] at hk
    by_cases hkh : k = h
    · subst hkh
      rw [Function.update_self] at hk
      cases hk
      have hstart := Parting.start (hp.up hup) hd
      rw [hcurr] at hstart
      exact hnext ▸ hstart
    · rw [Function.update_of_ne hkh] at hk
      exact ((ha.parting hk).prepared hp (hother hk).2).dispatch hd hkh

/-- So does every move. -/
theorem Apart.step (ha : Apart s v) (hc : s.Careful a) (hstep : s.step a = some s') :
    ∃ v', Apart s' v' := by
  cases a with
  | event e bootstrap stack => exact ha.event hc hstep
  | work h r =>
    change s.work h r = some s' at hstep
    unfold work at hstep
    split at hstep
    · cases hstep
      exact ⟨v, ha.steady, ha.parting⟩
    · exact absurd hstep (by simp)
  | switchContext h =>
    change s.switchContext h = some s' at hstep
    unfold switchContext at hstep
    split at hstep
    · exact absurd hstep (by simp)
    · cases hstep
      refine ⟨v, ha.steady, fun {k o i} hk => ?_⟩
      change Function.update s.leaving h none k = some (o, i) at hk
      by_cases hkh : k = h
      · rw [hkh, Function.update_self] at hk
        exact absurd hk (by simp)
      · rw [Function.update_of_ne hkh] at hk
        exact ha.parting hk

/-- Hart 0 after `scheduler_init`, with any registers and contexts. -/
def booted (procs : Nat → Process) (harts idle : Nat) (registers contexts : Nat → Context) :
    Switching :=
  ⟨Smp.booted procs harts idle, fun _ => none, registers, contexts⟩

variable {registers contexts : Nat → Context} {g : List (Switching × Move)}
  {outProcess inProcess : Nat}

/-- So does a whole run. -/
theorem apart_run (h0 : idle ≠ 0) (hr : Run step (booted procs harts idle registers contexts) g s)
    (hc : Run.Steps Careful g) : ∃ v, Apart s v := by
  obtain ⟨v, hm⟩ := steady_booted procs harts h0
  refine hr.invariant (I := fun s => ∃ v, Apart s v) hc ⟨v, hm, fun hk => ?_⟩
    fun _ _ _ ⟨_, ha⟩ hcare hstep => ha.step hcare hstep
  exact absurd hk (by simp [booted])

/-- A hart that may handle an event comes to `schedule`. -/
theorem step_pick {f : Nat → Option (Nat × Nat)} (hl : s.leaving h = none)
    (hstep : s.machine.step (.softInterrupt h) = some m) (hat : (s.machine.atSchedule h).isSome)
    (hf : f = Function.update s.leaving h (some (s.machine.kernel.curr h, m.kernel.curr h))) :
    s.step (.event (.softInterrupt h) 0 0) = some ⟨m, f, s.registers, s.contexts⟩ := by
  show s.event (.softInterrupt h) 0 0 = _
  unfold event
  rw [if_pos (show s.leaving (Event.hart (.softInterrupt h)) = none from hl), hstep,
    Option.map_some, leavingAfter_soft, if_pos hat, hf]
  rfl

/-- The conditions on a run of the machine, where no hart is leaving its process. -/
theorem Whole.careful (hs : s.Whole) (hc : s.machine.Careful e) : s.Careful (.event e 0 0) := by
  refine ⟨hc, fun k _ x hx => ?_⟩
  rw [hs k] at hx
  exact absurd hx (by simp)

/-- A run of the machine where each dispatch is followed by its switch at once. -/
theorem exists_run {P : Machine → Event → Prop} {Q : Switching → Move → Prop}
    {f : List (Machine × Event)}
    (hr : Run Machine.step s.machine f m) (hP : Run.Steps P f) (hs : s.Whole)
    (hQ : ∀ t : Switching, t.Whole → ∀ e, P t.machine e → Q t (.event e 0 0))
    (hQ' : ∀ t h, Q t (.switchContext h)) :
    ∃ g t, Run step s g t ∧ Run.Steps Q g ∧ t.machine = m ∧ t.Whole := by
  induction hr with
  | nil => exact ⟨[], s, .nil, Run.Steps.nil, rfl, hs⟩
  | @snoc f m m' e hr hstep ih =>
    obtain ⟨hp, hps⟩ := Run.steps_cons.mp hP
    obtain ⟨g, t, hg, hgQ, rfl, ht⟩ := ih hps
    have hevent : t.step (.event e 0 0) = some ⟨m', t.leavingAfter e m', t.registers,
        t.contextsAfter e 0 0 m'⟩ := by
      show t.event e 0 0 = _
      unfold event
      rw [if_pos (ht e.hart), hstep]
      rfl
    have hgQ' := Run.steps_cons.mpr ⟨hQ t ht e hp, hgQ⟩
    have hg' := hg.snoc hevent
    rcases t.leavingAfter_cases e m' with hl | ⟨h, x, hl⟩
    · rw [hl] at hg'
      exact ⟨_, _, hg', hgQ', rfl, ht⟩
    · rw [hl] at hg'
      have hswitch : ∀ r c, (⟨m', Function.update t.leaving h (some x), r, c⟩ : Switching).step
          (.switchContext h) =
            some ⟨m', t.leaving, Function.update r h (Function.update c x.1 (r h) x.2),
            Function.update c x.1 (r h)⟩ := by
        intro r c
        show switchContext _ h = _
        unfold switchContext
        dsimp only
        rw [Function.update_self]
        dsimp only
        rw [Function.update_idem, ← ht h, Function.update_eq_self]
      exact ⟨_, _, hg'.snoc (hswitch _ _), Run.steps_cons.mpr ⟨hQ' _ h, hgQ'⟩, rfl, ht⟩

/-- No hart is about to load a context that another one has not saved yet. -/
theorem loads_saved (h0 : idle ≠ 0) (hr : Run step (booted procs harts idle registers contexts) g s)
    (hc : Run.Steps Careful g) (hl : s.leaving h = some (outProcess, inProcess)) :
    ∀ k o i, s.leaving k = some (o, i) → o = inProcess → k = h := by
  obtain ⟨v, ha⟩ := apart_run h0 hr hc
  rintro k o i hk rfl
  obtain ⟨j, hj⟩ := (ha.parting hl).linked
  exact ((ha.parting hk).own hj).symm

/-- Hart 0 is about to load the context of the process that it has spawned. -/
theorem loads_saved_first :
    ∃ g s, Run step (booted emptyMemory 1 1 (fun _ _ => 0) fun _ _ => 0) g s ∧
    s.leaving 0 = some (1, 3) ∧ ∀ k o i, s.leaving k = some (o, i) → o = 3 → k = 0 := by
  have hreach : Reaches Machine.Careful
      (fun m => m.Careful (.softInterrupt 0) ∧ (m.atSchedule 0).isSome ∧ m.kernel.curr 0 = 1 ∧
        ∃ u ∈ m.step (.softInterrupt 0), u.kernel.curr 0 = 3)
      (Smp.booted emptyMemory 1 1)
      [.event (.start 1 2), .event (.spawn 0 3 ⟨0, 0⟩ 16), .wait 0 127, .event (.timer 0)] := by
    decide +kernel
  obtain ⟨f, m, hf, hcf, hcare, hat, hcurr, u, hu, hnext⟩ :=
    hreach.exists_run .careful .nil Run.Steps.nil
  obtain ⟨g, t, hr, hc, rfl, ht⟩ :=
    exists_run (s := booted emptyMemory 1 1 (fun _ _ => 0) fun _ _ => 0)
    (Q := Careful) hf hcf (fun _ => rfl) (fun _ ht _ he => ht.careful he) fun _ _ => trivial
  have hpick := step_pick (ht 0) hu hat (by rw [hcurr, hnext])
  have hr' := hr.snoc hpick
  have hl : (Function.update t.leaving 0 (some (1, 3))) 0 = some (1, 3) := Function.update_self ..
  exact ⟨_, _, hr', hl, loads_saved (by decide) hr' (Run.steps_cons.mpr ⟨ht.careful hcare, hc⟩) hl⟩

/-- Hart 0 has left a process at the end of its slice and not saved its context yet. Hart 1 steals
the process and is about to load the context. -/
theorem loads_unsaved : ∃ g s, Run step (booted emptyMemory 1 1 (fun _ _ => 0) fun _ _ => 0) g s ∧
    s.leaving 0 = some (3, 4) ∧ s.leaving 1 = some (2, 3) := by
  have hreach : Reaches (fun _ _ => True)
      (fun m => (m.atSchedule 0).isSome ∧ m.kernel.curr 0 = 3 ∧
        ∃ u ∈ m.step (.softInterrupt 0), u.kernel.curr 0 = 4 ∧
        ∃ u₁ ∈ u.step (.steal 1), (u₁.atSchedule 1).isSome ∧ u₁.kernel.curr 1 = 2 ∧
        ∃ u₂ ∈ u₁.step (.softInterrupt 1), u₂.kernel.curr 1 = 3)
      (Smp.booted emptyMemory 1 1)
      ([.event (.start 1 2), .event (.spawn 0 3 ⟨0, 0⟩ 16), .event (.spawn 0 4 ⟨0, 0⟩ 16),
        .wait 0 127] ++ interrupt 0 ++ [.wait 1 127, .wait 0 67, .event (.timer 0)]) := by
    decide +kernel
  obtain ⟨f, m, hf, -, hat, hcurr, u, hu, hnext, u₁, hu₁, hat₁, hcurr₁, u₂, hu₂, hnext₂⟩ :=
    hreach.exists_run .true .nil Run.Steps.nil
  obtain ⟨g, t, hr, -, rfl, ht⟩ :=
    exists_run (s := booted emptyMemory 1 1 (fun _ _ => 0) fun _ _ => 0)
    (P := fun _ _ => True) (Q := fun _ _ => True) hf (fun _ _ => trivial) (fun _ => rfl)
    (fun _ _ _ _ => trivial) fun _ _ => trivial
  have hpick := step_pick (ht 0) hu hat (by rw [hcurr, hnext])
  have hone : Function.update t.leaving 0 (some (3, 4)) 1 = none := by
    rw [Function.update_of_ne (by decide)]
    exact ht 1
  have hsteal :
    (⟨u, Function.update t.leaving 0 (some (3, 4)), t.registers, t.contexts⟩ : Switching).step
      (.event (.steal 1) 0 0) =
        some ⟨u₁, Function.update t.leaving 0 (some (3, 4)), t.registers, t.contexts⟩ := by
    show event _ (.steal 1) 0 0 = _
    unfold event
    rw [if_pos (show Function.update t.leaving 0 (some (3, 4)) (Event.hart (.steal 1)) =
      none from hone), show u.step (.steal 1) = some u₁ from hu₁]
    rfl
  have hpick₁ :=
    step_pick (s := ⟨u₁, Function.update t.leaving 0 (some (3, 4)), t.registers, t.contexts⟩)
    hone hu₂ hat₁ (by rw [hcurr₁, hnext₂])
  refine ⟨_, _, ((hr.snoc hpick).snoc hsteal).snoc hpick₁, ?_, ?_⟩
  · simp
  · simp

end Switching

end RexOS.Smp
