import RexOS.Smp.Steady

/-!
# Ticks in which nothing else happens

A hart that is left alone but for its timer spends the slice of its process tick by tick. Long
runs are put together from such waits and from single events.
-/

namespace RexOS.Smp

open Scheduler Kernel

namespace Machine

variable {m u : Machine} {h n : Nat} {P : Machine → Event → Prop}

/-- For `n` ticks there is nothing for the hart to do: its process has a longer slice, nobody
sleeps, and no sweep is due. -/
structure Alone (m : Machine) (h n : Nat) : Prop where
  up : m.kernel.started h = true
  runs : (m.kernel.procs (m.kernel.curr h)).state = .running
  slice : n < (m.kernel.procs (m.kernel.curr h)).ticksLeft
  heads : m.kernel.heads .sleeping = 0
  awake : ∀ t ∈ m.kernel.existing, (m.kernel.procs t).state ≠ .sleeping
  calm : m.starvTicks h + n < 1000

instance (m : Machine) (h n : Nat) : Decidable (m.Alone h n) :=
  decidable_of_iff (m.kernel.started h = true ∧
    (m.kernel.procs (m.kernel.curr h)).state = .running ∧
      n < (m.kernel.procs (m.kernel.curr h)).ticksLeft ∧ m.kernel.heads .sleeping = 0 ∧
      (∀ t ∈ m.kernel.existing, (m.kernel.procs t).state ≠ .sleeping) ∧ m.starvTicks h + n < 1000)
    ⟨fun ⟨h1, h2, h3, h4, h5, h6⟩ => ⟨h1, h2, h3, h4, h5, h6⟩,
      fun ⟨h1, h2, h3, h4, h5, h6⟩ => ⟨h1, h2, h3, h4, h5, h6⟩⟩

/-- The machine after `n` such ticks. -/
def waited (m : Machine) (h n : Nat) : Machine :=
  { m with
    kernel := (m.kernel.onQueue h fun q => { q with ssip := false }).modify (m.kernel.curr h)
      fun p =>
      { p with cpuTime := p.cpuTime + n, ticksLeft := p.ticksLeft - n }
    starvTicks := Function.update m.starvTicks h (m.starvTicks h + n) }

/-- Waiting changes nobody's turn. -/
theorem curr_waited (m : Machine) (h n : Nat) : (m.waited h n).kernel.curr = m.kernel.curr := by
  funext l
  by_cases hl : l = h <;> simp [waited, Kernel.curr, Kernel.modify, Kernel.onQueue, hl]

/-- It takes from the slice of the current process. -/
theorem procs_waited (m : Machine) (h n a : Nat) : (m.waited h n).kernel.procs a =
    if a = m.kernel.curr h then
      { m.kernel.procs a with
        cpuTime := (m.kernel.procs a).cpuTime + n
        ticksLeft := (m.kernel.procs a).ticksLeft - n }
    else m.kernel.procs a := by
  by_cases ha : a = m.kernel.curr h
  · rw [if_pos ha, ha]
    exact Function.update_self ..
  · rw [if_neg ha]
    exact Function.update_of_ne ha ..

/-- It changes no state. -/
theorem state_waited (m : Machine) (h n a : Nat) :
    ((m.waited h n).kernel.procs a).state = (m.kernel.procs a).state := by
  rw [procs_waited]
  split <;> rfl

/-- With a timer interrupt the hart is at the next tick. -/
theorem waited_trigger (m : Machine) (h n : Nat) :
    ((m.waited h n).withKernel ((m.waited h n).kernel.trigger h)).waited h 1 =
      m.waited h (n + 1) := by
  have hcurr : ((m.waited h n).kernel.trigger h).curr h = m.kernel.curr h := by
    rw [curr_trigger, curr_waited]
  unfold withKernel
  rw [waited, hcurr]
  unfold waited Kernel.modify Kernel.trigger Kernel.onQueue
  simp only [Function.update_idem, Function.update_self, Nat.add_assoc, Nat.sub_sub]

/-- No tick has passed. -/
theorem waited_zero (hssip : (m.kernel.queues h).ssip = false) : m.waited h 0 = m := by
  unfold waited Kernel.modify Kernel.onQueue
  simp only [Nat.add_zero, Nat.sub_zero, Function.update_eq_self]
  have hq : Function.update m.kernel.queues h { m.kernel.queues h with ssip := false } =
      m.kernel.queues := by
    rw [← hssip]
    exact Function.update_eq_self ..
  rw [hq]

/-- Where nobody sleeps and no sweep is due, a software interrupt takes a tick. -/
theorem beforeSchedule_waited (hheads : m.kernel.heads .sleeping = 0)
    (hcalm : m.starvTicks h + 1 < 1000) :
    m.beforeSchedule h = .done () (m.waited h 1) := by
  have hsleep : (m.kernel.tick h).updateSleepList h = .done () (m.kernel.tick h) := by
    unfold Kernel.updateSleepList
    rw [show (m.kernel.tick h).heads .sleeping = 0 from hheads]
    rfl
  unfold beforeSchedule
  rw [hsleep]
  exact if_neg (show ¬ (m.starvTicks h + 1 = 1000) by omega)

namespace Alone

/-- One tick more of the wait. -/
theorem next (ha : m.Alone h (n + 1)) :
    ((m.waited h n).withKernel ((m.waited h n).kernel.trigger h)).Alone h 1 := by
  have hc : ((m.waited h n).kernel.trigger h).curr h = m.kernel.curr h := by
    rw [curr_trigger, curr_waited]
  have hslice := ha.slice
  refine ⟨ha.up, ?_, ?_, ha.heads, fun t ht => ?_, ?_⟩
  · show ((m.waited h n).kernel.procs (((m.waited h n).kernel.trigger h).curr h)).state = _
    rw [hc, state_waited]
    exact ha.runs
  · show 1 < ((m.waited h n).kernel.procs (((m.waited h n).kernel.trigger h).curr h)).ticksLeft
    rw [hc, procs_waited, if_pos rfl]
    show 1 < (m.kernel.procs (m.kernel.curr h)).ticksLeft - n
    omega
  · show ((m.waited h n).kernel.procs t).state ≠ _
    rw [state_waited]
    exact ha.awake t ht
  · show (m.waited h n).starvTicks h + 1 < 1000
    have hs : (m.waited h n).starvTicks h = m.starvTicks h + n := Function.update_self ..
    have hcalm := ha.calm
    omega

/-- What the tick does when nothing is due. -/
theorem beforeSchedule (ha : m.Alone h 1) : m.beforeSchedule h = .done () (m.waited h 1) :=
  beforeSchedule_waited ha.heads ha.calm

/-- No sweep is due. -/
theorem not_due (ha : m.Alone h 1) : ¬ (m.waited h 1).Due h := by
  have hslice := ha.slice
  unfold Due
  rw [curr_waited, state_waited, procs_waited, if_pos rfl]
  rintro (hzero | hst)
  · have hzero' : (m.kernel.procs (m.kernel.curr h)).ticksLeft - 1 = 0 := hzero
    omega
  · exact hst ha.runs

/-- There is no dispatch. -/
theorem atSchedule (ha : m.Alone h 1) : m.atSchedule h = none := by
  unfold Machine.atSchedule
  rw [ha.beforeSchedule]
  exact if_neg ha.not_due

/-- The whole tick. -/
theorem softInterrupt (ha : m.Alone h 1) (hssip : (m.kernel.queues h).ssip = true) :
    m.step (.softInterrupt h) = some (m.waited h 1) := by
  unfold step
  rw [if_pos (show m.Enabled (.softInterrupt h) from ⟨ha.up, hssip⟩)]
  show (m.softInterrupt h).returned = _
  unfold Machine.softInterrupt
  rw [ha.beforeSchedule, Outcome.bind_done, if_neg ha.not_due]
  rfl

end Alone

/-- A condition on steps that such ticks meet. -/
structure Quiet (P : Machine → Event → Prop) : Prop where
  timer : ∀ m h, P m (.timer h)
  tick : ∀ {m h}, m.Alone h 1 → P m (.softInterrupt h)

/-- No condition at all. -/
theorem Quiet.true : Quiet fun _ _ => True := ⟨fun _ _ => trivial, fun _ => trivial⟩

/-- A tick in which nothing is due touches nobody. -/
theorem Quiet.careful : Quiet Careful := by
  refine ⟨fun _ _ => ⟨fun _ _ _ _ hT => absurd hT List.not_mem_nil, trivial⟩,
    fun {m h} ha => ⟨fun t ht c _ hT => ?_, fun k hk => ?_⟩⟩
  · cases c with
    | wake => exact absurd (of_decide_eq_true (List.mem_filter.mp hT).2).1 (ha.awake t ht)
    | reap | steal | exit | spawn => exact absurd hT List.not_mem_nil
  · rw [ha.atSchedule] at hk
    exact absurd hk (by simp)

/-- The two steps of a tick of a hart that is left alone. -/
def InTick (m : Machine) (h n : Nat) (x : Machine × Event) : Prop :=
  x = (m.waited h n, .timer h) ∨
    x = ((m.waited h n).withKernel ((m.waited h n).kernel.trigger h), .softInterrupt h) ∧
      x.1.Alone h 1

/-- The timer makes the software interrupt pending. -/
theorem step_timer (m : Machine) (hup : m.kernel.started h = true) :
    m.step (.timer h) = some (m.withKernel (m.kernel.trigger h)) := by
  unfold step
  rw [if_pos (show m.Enabled (.timer h) from hup)]
  rfl

/-- A hart that is left alone can spend ticks. -/
theorem Alone.ticks {s : Machine} {g : List (Machine × Event)} (hr : Run step s g m)
    (hssip : (m.kernel.queues h).ssip = false) (ha : m.Alone h n) :
    ∃ g', Run step s (g' ++ g) (m.waited h n) ∧ ∀ x ∈ g', ∃ i, m.InTick h i x := by
  induction n with
  | zero =>
    rw [waited_zero hssip]
    exact ⟨[], hr, fun x hx => absurd hx List.not_mem_nil⟩
  | succ n ih =>
    have hslice := ha.slice
    have hcalm := ha.calm
    obtain ⟨g', hg', hin⟩ := ih ⟨ha.up, ha.runs, by omega, ha.heads, ha.awake, by omega⟩
    have htimer := step_timer (h := h) (m.waited h n) ha.up
    have hsoft := ha.next.softInterrupt (by
      show (((m.waited h n).kernel.trigger h).queues h).ssip = true
      rw [ssip_trigger, if_pos rfl])
    rw [waited_trigger] at hsoft
    refine ⟨(_, .softInterrupt h) :: (_, .timer h) :: g', (hg'.snoc htimer).snoc hsoft, ?_⟩
    rintro x (_ | ⟨_, _ | ⟨_, hx⟩⟩)
    · exact ⟨n, Or.inr ⟨rfl, ha.next⟩⟩
    · exact ⟨n, Or.inl rfl⟩
    · exact hin x hx

/-- A run can go on with such ticks. -/
theorem Alone.run {s : Machine} {g : List (Machine × Event)} (hq : Quiet P) (hr : Run step s g m)
    (hP : Run.Steps P g) (hssip : (m.kernel.queues h).ssip = false) (ha : m.Alone h n) :
    ∃ g', Run step s g' (m.waited h n) ∧ Run.Steps P g' := by
  obtain ⟨g', hg', hin⟩ := ha.ticks hr hssip
  refine ⟨g' ++ g, hg', fun x hx => ?_⟩
  rcases List.mem_append.mp hx with hx | hx
  · obtain ⟨i, rfl | ⟨rfl, halone⟩⟩ := hin x hx
    · exact hq.timer _ h
    · exact hq.tick halone
  · exact hP x hx

/-! ## Idle slices -/

/-- Two updates of one process. -/
theorem modify_modify (s : Kernel) (a : Nat) (f g : Process → Process) :
    (s.modify a f).modify a g = s.modify a fun p => g (f p) := by
  unfold Kernel.modify
  simp only [Function.update_self, Function.update_idem]

/-- Two updates that agree on the process. -/
theorem modify_congr {s : Kernel} {a : Nat} {f g : Process → Process}
    (hfg : f (s.procs a) = g (s.procs a)) :
    s.modify a f = s.modify a g := by
  unfold Kernel.modify
  rw [hfg]

/-- An update that changes nothing. -/
theorem onQueue_self {s : Kernel} {f : Runqueue → Runqueue} (hf : f (s.queues h) = s.queues h) :
    s.onQueue h f = s := by
  unfold Kernel.onQueue
  rw [hf, Function.update_eq_self]

/-- The hart has a process alone on its lowest circle, `p`, at the start of a slice of `n + 1`
ticks, and `schedule` has marked what is above. -/
structure Spins (m : Machine) (h p n : Nat) : Prop where
  alone : m.Alone h n
  fresh : (m.kernel.procs (m.kernel.curr h)).ticksLeft = n + 1
  slice : (m.kernel.procs (m.kernel.curr h)).timeSlice = n + 1
  priority : (m.kernel.procs (m.kernel.curr h)).priority = p
  magic : (m.kernel.procs (m.kernel.curr h)).magic = processMagic
  only : (List.range 32).find? (fun i => (m.kernel.queues h).lookupBitmap.testBit i) = some p
  marks : p < 31 → (m.kernel.queues h).lookupBitmap |||
    Bits.andNot ((m.kernel.queues h).lookupBitmap &&& 0xFFFFFFFF) (2 ^ (p + 1) - 1) <<< 32 =
      (m.kernel.queues h).lookupBitmap
  first : (m.kernel.queues h).activeProcessCircles p = m.kernel.curr h
  itself : (m.kernel.procs (m.kernel.curr h)).next = m.kernel.curr h
  calm : m.starvTicks h + (n + 1) < 1000
  quiet : m.kernel.emergencyProcess = 0 ∧ (m.kernel.queues h).ssip = false

instance (m : Machine) (h p n : Nat) : Decidable (m.Spins h p n) :=
  decidable_of_iff ((m.Alone h n ∧ (m.kernel.procs (m.kernel.curr h)).ticksLeft = n + 1 ∧
      (m.kernel.procs (m.kernel.curr h)).timeSlice = n + 1 ∧
      (m.kernel.procs (m.kernel.curr h)).priority = p ∧
      (m.kernel.procs (m.kernel.curr h)).magic = processMagic) ∧
    ((List.range 32).find? (fun i => (m.kernel.queues h).lookupBitmap.testBit i) = some p ∧
      (p < 31 → (m.kernel.queues h).lookupBitmap |||
        Bits.andNot ((m.kernel.queues h).lookupBitmap &&& 0xFFFFFFFF) (2 ^ (p + 1) - 1) <<< 32 =
          (m.kernel.queues h).lookupBitmap) ∧
      (m.kernel.queues h).activeProcessCircles p = m.kernel.curr h) ∧
    (m.kernel.procs (m.kernel.curr h)).next = m.kernel.curr h ∧ m.starvTicks h + (n + 1) < 1000 ∧
      m.kernel.emergencyProcess = 0 ∧ (m.kernel.queues h).ssip = false)
    ⟨fun ⟨⟨h1, h2, h3, h4, h5⟩, ⟨h6, h7, h8⟩, h9, h10, h11⟩ => ⟨h1, h2, h3, h4, h5, h6, h7,
      h8, h9, h10, h11⟩, fun ⟨h1, h2, h3, h4, h5, h6, h7, h8, h9, h10, h11⟩ =>
        ⟨⟨h1, h2, h3, h4, h5⟩, ⟨h6, h7, h8⟩, h9, h10, h11⟩⟩

/-- The hart has its idle process alone, at the start of a slice. -/
structure Idles (m : Machine) (h : Nat) : Prop where
  alone : m.Alone h 127
  fresh : (m.kernel.procs (m.kernel.curr h)).ticksLeft = 128
  slice : (m.kernel.procs (m.kernel.curr h)).timeSlice = 128
  priority : (m.kernel.procs (m.kernel.curr h)).priority = 31
  magic : (m.kernel.procs (m.kernel.curr h)).magic = processMagic
  only : (List.range 32).find? (fun i => (m.kernel.queues h).lookupBitmap.testBit i) = some 31
  first : (m.kernel.queues h).activeProcessCircles 31 = m.kernel.curr h
  itself : (m.kernel.procs (m.kernel.curr h)).next = m.kernel.curr h
  calm : m.starvTicks h + 128 < 1000
  quiet : m.kernel.emergencyProcess = 0 ∧ (m.kernel.queues h).ssip = false

/-- An idle hart spins on circle 31. -/
theorem Idles.spins (hi : m.Idles h) : m.Spins h 31 127 :=
  ⟨hi.alone, hi.fresh, hi.slice, hi.priority, hi.magic, hi.only, fun h31 => absurd h31 (by decide),
    hi.first, hi.itself, hi.calm, hi.quiet⟩

/-- The machine after the process of the hart has run for `n` ticks and is at the start of a
slice. -/
def idled (m : Machine) (h n : Nat) : Machine :=
  { m with
    kernel := m.kernel.modify (m.kernel.curr h) fun p => { p with cpuTime := p.cpuTime + n }
    starvTicks := Function.update m.starvTicks h (m.starvTicks h + n) }

/-- The process is put back and dispatched again. -/
theorem Spins.schedule {p : Nat} (hi : m.Spins h p n) :
    (m.waited h (n + 1)).kernel.schedule h = .done () (m.idled h (n + 1)).kernel := by
  have hfresh := hi.fresh
  have hslice := hi.slice
  have hprio := hi.priority
  have hruns := hi.alone.runs
  have hself := hi.itself
  have hmagic := hi.magic
  have hcurr : (m.waited h (n + 1)).kernel.curr h = m.kernel.curr h := by rw [curr_waited]
  have hproc : ∀ a, (m.waited h (n + 1)).kernel.procs a = _ := procs_waited m h (n + 1)
  have hqueue : (m.waited h (n + 1)).kernel.queues h = { m.kernel.queues h with ssip := false } :=
    Function.update_self ..
  generalize hk : (m.waited h (n + 1)).kernel = k at hcurr hproc hqueue ⊢
  generalize hc : m.kernel.curr h = c at *
  have hkc := hproc c
  rw [if_pos rfl] at hkc
  have hback : k.putBack h =
      k.modify c fun p => { p with state := .ready, ticksLeft := p.timeSlice } := by
    have hp :
      ((k.modify c fun p => { p with state := .ready, ticksLeft := p.timeSlice }).procs
        c).priority =
        p := by
      rw [procs_modify, if_pos rfl, hkc]
      exact hprio
    have hn :
      ((k.modify c fun p => { p with state := .ready, ticksLeft := p.timeSlice }).procs c).next =
        c := by
      rw [procs_modify, if_pos rfl, hkc]
      exact hself
    have hf : (k.queues h).activeProcessCircles p = c := by
      rw [hqueue]
      exact hi.first.trans hc
    unfold Kernel.putBack
    rw [hcurr, if_pos (by rw [hkc]; exact hruns)]
    dsimp only
    rw [hp, queues_modify, hf, hn]
    refine onQueue_self ?_
    rw [queues_modify, ← hf, Function.update_eq_self]
  have hkept : ∀ l, (k.putBack h).queues l = k.queues l := by
    intro l
    rw [hback]
    rfl
  have hsame : (k.putBack h).setCurr h c = k.putBack h := by
    refine onQueue_self ?_
    rw [hkept, ← hcurr]
    rfl
  have hem : (k.putBack h).emergencyProcess = 0 := by
    rw [hback, ← hk]
    exact hi.quiet.1
  have hfind : (List.range 32).find? (fun i => ((k.putBack h).queues h).lookupBitmap.testBit i) =
      some p := by
    rw [hkept, hqueue]
    exact hi.only
  have hfirst : ((k.putBack h).queues h).activeProcessCircles p = c := by
    rw [hkept, hqueue]
    exact hi.first.trans hc
  have hat : (k.putBack h).curr h = c := by
    show ((k.putBack h).queues h).currProcess = c
    rw [hkept]
    exact hcurr
  have hbackc : (k.putBack h).procs c =
      { m.kernel.procs c with
        cpuTime := (m.kernel.procs c).cpuTime + (n + 1), state := .ready, ticksLeft := n + 1 } := by
    rw [hback, procs_modify, if_pos rfl, hkc]
    simp only [hslice]
  have hmarked : ∀ b, (p < 31 → b = ((k.putBack h).queues h).lookupBitmap) → p < 31 →
      (k.putBack h).setBitmap h b = k.putBack h := by
    intro b hb h31
    refine onQueue_self ?_
    rw [hb h31]
  have hchoose : (k.putBack h).choose h = .done () (k.putBack h) := by
    unfold Kernel.choose
    rw [if_neg (not_not.mpr hem), hfind]
    dsimp only
    rw [hfirst, hsame, hat, if_neg (not_not.mpr ((congrArg Process.magic hbackc).trans hmagic))]
    split
    · rw [hmarked _ (fun h31 => ?_) ‹_›]
      rw [hkept, hqueue]
      exact hi.marks h31
    · rfl
  unfold Kernel.schedule
  rw [hcurr, if_neg (not_not.mpr ((congrArg Process.magic hkc).trans hmagic)), hchoose,
    Outcome.bind_done, hat, if_neg (not_not.mpr (congrArg Process.state hbackc))]
  have hkm : k = m.kernel.modify c fun p =>
      { p with cpuTime := p.cpuTime + (n + 1), ticksLeft := p.ticksLeft - (n + 1) } := by
    rw [← hk, ← hc, waited]
    dsimp only
    rw [onQueue_self]
    rw [← hi.quiet.2]
  rw [hback, hkm, modify_modify, Kernel.setState, modify_modify]
  refine congrArg (Outcome.done ()) ?_
  rw [show (m.idled h (n + 1)).kernel =
      m.kernel.modify c fun p => { p with cpuTime := p.cpuTime + (n + 1) } by
    rw [← hc]
    rfl]
  refine modify_congr ?_
  generalize m.kernel.procs c = p at hslice hfresh hruns
  cases p
  cases hslice
  cases hfresh
  cases hruns
  rfl

/-- At the last tick of the slice. -/
theorem Spins.atSchedule {p : Nat} (hi : m.Spins h p n) :
    ((m.waited h n).withKernel ((m.waited h n).kernel.trigger h)).atSchedule h =
      some (m.waited h (n + 1)) := by
  have hcalm := hi.calm
  have hbefore := beforeSchedule_waited (h := h)
    (m := (m.waited h n).withKernel ((m.waited h n).kernel.trigger h)) hi.alone.heads (by
      have hs : (m.waited h n).starvTicks h = m.starvTicks h + n := Function.update_self ..
      show (m.waited h n).starvTicks h + 1 < 1000
      omega)
  rw [waited_trigger] at hbefore
  have hdue : (m.waited h (n + 1)).Due h := by
    refine Or.inl ?_
    rw [curr_waited, procs_waited, if_pos rfl]
    show (m.kernel.procs (m.kernel.curr h)).ticksLeft - (n + 1) = 0
    rw [hi.fresh, Nat.sub_self]
  unfold Machine.atSchedule
  rw [hbefore]
  exact if_pos hdue

/-- At the end of its slice the process is dispatched again. -/
theorem Spins.softInterrupt {p : Nat} (hi : m.Spins h p n) :
    ((m.waited h n).withKernel ((m.waited h n).kernel.trigger h)).step (.softInterrupt h) =
      some (m.idled h (n + 1)) := by
  have hssip : (((m.waited h n).kernel.trigger h).queues h).ssip = true := by
    rw [ssip_trigger, if_pos rfl]
  have hat := hi.atSchedule
  unfold Machine.atSchedule at hat
  unfold step
  rw [if_pos (show ((m.waited h n).withKernel ((m.waited h n).kernel.trigger h)).Enabled
    (.softInterrupt h) from ⟨hi.alone.up, hssip⟩)]
  show (Machine.softInterrupt _ h).returned = _
  unfold Machine.softInterrupt
  split at hat
  · rename_i hbefore
    split at hat
    · obtain rfl := Option.some.inj hat
      rw [hbefore, Outcome.bind_done, if_pos ‹_›, hi.schedule]
      rfl
    · cases hat
  · cases hat

/-- The process spends its slice and gets the next one. -/
theorem Spins.run {p : Nat} {s : Machine} {g : List (Machine × Event)} (hr : Run step s g m)
    (hi : m.Spins h p n) : ∃ g', Run step s g' (m.idled h (n + 1)) := by
  obtain ⟨g', hg', -⟩ := hi.alone.ticks hr hi.quiet.2
  exact ⟨_, (hg'.snoc (step_timer _ hi.alone.up)).snoc hi.softInterrupt⟩

/-- No tick has passed. -/
theorem idled_zero (m : Machine) (h : Nat) : m.idled h 0 = m := by
  unfold idled Kernel.modify
  simp only [Nat.add_zero, Function.update_eq_self]

/-- Some ticks and then some more. -/
theorem idled_idled (m : Machine) (h a b : Nat) : (m.idled h a).idled h b = m.idled h (a + b) := by
  have hcurr : (m.idled h a).kernel.curr h = m.kernel.curr h := rfl
  rw [idled, hcurr]
  unfold idled Kernel.modify
  simp only [Function.update_idem, Function.update_self, Nat.add_assoc]

/-- It spins on. -/
theorem Spins.idled {p k : Nat} (hi : m.Spins h p n) (hcalm : m.starvTicks h + k + (n + 1) < 1000) :
    (m.idled h k).Spins h p n := by
  have hproc : (m.idled h k).kernel.procs (m.kernel.curr h) =
      { m.kernel.procs (m.kernel.curr h) with
        cpuTime := (m.kernel.procs (m.kernel.curr h)).cpuTime + k } := Function.update_self ..
  have hstate : ∀ a, ((m.idled h k).kernel.procs a).state = (m.kernel.procs a).state := by
    intro a
    by_cases ha : a = m.kernel.curr h
    · rw [ha, hproc]
    · exact congrArg Process.state (Function.update_of_ne ha ..)
  have hstarv : (m.idled h k).starvTicks h = m.starvTicks h + k := Function.update_self ..
  have hfield : ∀ {α : Type} (f : Process → α), (∀ x c, f { x with cpuTime := c } = f x) →
      f ((m.idled h k).kernel.procs (m.kernel.curr h)) = f (m.kernel.procs (m.kernel.curr h)) := by
    intro α f hf
    rw [hproc, hf]
  refine ⟨⟨hi.alone.up, (hstate _).trans hi.alone.runs, ?_, hi.alone.heads, fun t ht => ?_, ?_⟩,
    (hfield Process.ticksLeft fun _ _ => rfl).trans hi.fresh,
    (hfield Process.timeSlice fun _ _ => rfl).trans hi.slice,
    (hfield Process.priority fun _ _ => rfl).trans hi.priority,
    (hfield Process.magic fun _ _ => rfl).trans hi.magic, hi.only, hi.marks, hi.first,
    (hfield Process.next fun _ _ => rfl).trans hi.itself, ?_, hi.quiet⟩
  · rw [show (m.idled h k).kernel.curr h = m.kernel.curr h from rfl,
      hfield Process.ticksLeft fun _ _ => rfl]
    exact hi.alone.slice
  · rw [hstate]
    exact hi.alone.awake t ht
  · omega
  · omega

/-- Slice after slice. -/
theorem Idles.runs {s : Machine} {g : List (Machine × Event)} (hr : Run step s g m) (hi : m.Idles h)
    (hcalm : m.starvTicks h + 128 * n < 1000) : ∃ g', Run step s g' (m.idled h (128 * n)) := by
  induction n with
  | zero =>
    rw [Nat.mul_zero, idled_zero]
    exact ⟨g, hr⟩
  | succ n ih =>
    obtain ⟨g', hg'⟩ := ih (by omega)
    have hnext := (hi.spins.idled (k := 128 * n) (by omega)).run hg'
    rwa [idled_idled] at hnext

end Machine

/-! ## Long runs -/

/-- A part of a run: an event, or ticks of a hart that is left alone. -/
inductive Part where
  | event (e : Event)
  | wait (h n : Nat)

/-- The parts can follow one another with events in `P`, to a machine in `Q`. -/
def Reaches (P : Machine → Event → Prop) (Q : Machine → Prop) : Machine → List Part → Prop
  | m, [] => Q m
  | m, .event e :: ps => P m e ∧ ∃ u, m.step e = some u ∧ Reaches P Q u ps
  | m, .wait h n :: ps =>
    (m.kernel.queues h).ssip = false ∧ m.Alone h n ∧ Reaches P Q (m.waited h n) ps

instance Reaches.decidable {P : Machine → Event → Prop}
    {Q : Machine → Prop} [∀ m e, Decidable (P m e)]
    [DecidablePred Q] : (m : Machine) → (ps : List Part) → Decidable (Reaches P Q m ps)
  | m, [] => inferInstanceAs (Decidable (Q m))
  | m, .event e :: ps =>
    match h : m.step e with
    | none => isFalse fun ⟨_, _, hu, _⟩ => Option.some_ne_none _ (hu.symm.trans h)
    | some u =>
      have := Reaches.decidable (P := P) (Q := Q) u ps
      decidable_of_iff (P m e ∧ Reaches P Q u ps)
        ⟨fun ⟨hp, hq⟩ => ⟨hp, u, h, hq⟩,
          fun ⟨hp, _, hu, hq⟩ => ⟨hp, Option.some.inj (h.symm.trans hu) ▸ hq⟩⟩
  | m, .wait h n :: ps =>
    have := Reaches.decidable (P := P) (Q := Q) (m.waited h n) ps
    inferInstanceAs (Decidable (_ ∧ _ ∧ _))

/-- A plan that can be followed is a run. -/
theorem Reaches.exists_run {P : Machine → Event → Prop} {Q : Machine → Prop} {s m : Machine}
    {g : List (Machine × Event)} {ps : List Part} (hps : Reaches P Q m ps) (hq : Machine.Quiet P)
    (hr : Run Machine.step s g m) (hP : Run.Steps P g) :
    ∃ g' u, Run Machine.step s g' u ∧ Run.Steps P g' ∧ Q u := by
  induction ps generalizing m g with
  | nil => exact ⟨g, m, hr, hP, hps⟩
  | cons p ps ih =>
    cases p with
    | event e =>
      obtain ⟨hp, u, hu, hps⟩ := hps
      exact ih hps (hr.snoc hu) (Run.steps_cons.mpr ⟨hp, hP⟩)
    | wait h n =>
      obtain ⟨hssip, ha, hps⟩ := hps
      obtain ⟨g', hg', hP'⟩ := ha.run hq hr hP hssip
      exact ih hps hg' hP'

/-- The same from the start, with any events. -/
theorem Reaches.run {Q : Machine → Prop} {s : Machine} {ps : List Part}
    (hps : Reaches (fun _ _ => True) Q s ps) : ∃ g u, Run Machine.step s g u ∧ Q u := by
  obtain ⟨g, u, hr, -, hQ⟩ := hps.exists_run .true .nil Run.Steps.nil
  exact ⟨g, u, hr, hQ⟩

/-- Memory that holds nothing. -/
def emptyMemory (_ : Nat) : Process :=
  { tf := ⟨fun _ => 0, 0, 0⟩, satp := 0, pid := 0, parentPid := 0, state := .ready, priority := 0,
    timeSlice := 0, ticksLeft := 0, cpuTime := 0, capabilityRoot := fun _ => 0, mailbox :=
      fun _ => 0,
    ipcPendingPid := 0, mailboxStatus := 0, activeGrant := 0, grantWhitelist := fun _ => 0, next :=
      0,
    prev := 0, exitCode := 0, magic := 0 }

/-- A tick and the software interrupt that it brings. -/
def interrupt (h : Nat) : List Part := [.event (.timer h), .event (.softInterrupt h)]

end RexOS.Smp
