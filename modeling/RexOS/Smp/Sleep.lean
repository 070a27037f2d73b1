import RexOS.Smp.Naps
import RexOS.Smp.Single
import RexOS.Smp.Slice

/-!
# How long a process sleeps

`ticks_left` of a sleeper is counted down by every software interrupt of the hart, by the first one
twice, since the sleeper is still the current process then, and it is counted down before it is
compared with zero. The first of these interrupts is the one that `sleep_process` triggers itself.
-/

namespace RexOS.Smp

open Scheduler Kernel

variable {procs : Nat → Process} {T : Touch → Nat → Prop} {s s' k : Kernel}
  {v v' : Place → List Nat} {n t idle : Nat} {m m' m₀ m₁ : Machine} {e : Event}
  {g g₀ : List (Machine × Event)}

def Event.isSoft : Event → Bool
  | .softInterrupt _ => true
  | _ => false

def Event.isTimer : Event → Bool
  | .timer _ => true
  | _ => false

/-- The software interrupts of a history. -/
def softs (g : List (Machine × Event)) : Nat := g.countP fun x => x.2.isSoft

def timers (g : List (Machine × Event)) : Nat := g.countP fun x => x.2.isTimer

/-- There has been a timer interrupt, and there have been `n` of them, and then a software
interrupt. -/
def Answered (n : Nat) : List (Machine × Event) → Prop
  | [] => False
  | x :: g => Answered n g ∨ x.2.isSoft = true ∧ max n 1 ≤ timers g

instance Answered.decidable (n : Nat) : (g : List (Machine × Event)) → Decidable (Answered n g)
  | [] => inferInstanceAs (Decidable False)
  | x :: g =>
    have := Answered.decidable n g
    inferInstanceAs (Decidable (Answered n g ∨ x.2.isSoft = true ∧ max n 1 ≤ timers g))

/-- The process has been on a ring of the hart. -/
def MovedBack (t : Nat) (g : List (Machine × Event)) (m : Machine) : Prop :=
  InRing m.kernel 0 t ∨ ∃ x ∈ g, InRing x.1.kernel 0 t

instance (t : Nat) (g : List (Machine × Event)) (m : Machine) : Decidable (MovedBack t g m) :=
  inferInstanceAs (Decidable (InRing m.kernel 0 t ∨ ∃ x ∈ g, InRing x.1.kernel 0 t))

/-- The event wakes up a process of smaller priority number. -/
def Machine.Robs (m : Machine) (e : Event) (t : Nat) : Prop :=
  ∃ u ∈ m.touched e .wake, (m.kernel.procs u).priority < (m.kernel.procs t).priority

instance (m : Machine) (e : Event) (t : Nat) : Decidable (m.Robs e t) :=
  inferInstanceAs (Decidable (∃ u ∈ m.touched e .wake, _))

/-- The software interrupt that wakes up a process after it has called `sleep(n)`. Until the first
one, `ticks_left` is set to zero where the process is robbed of its slice. -/
def wakesAt (t n : Nat) : List (Machine × Event) → Nat
  | [] => if n ≤ 1 then 2 ^ 32 else n - 1
  | x :: g =>
    if softs g = 0 ∧ x.1.Robs x.2 t then
      if x.2.isSoft = false then 2 ^ 32 else if wakesAt t n g = 1 then 1 else 2 ^ 32 + 1
    else wakesAt t n g

/-- A process sleeps, and its count is the number of software interrupts that are still to come. -/
structure Dozing (t n : Nat) (g : List (Machine × Event)) (s : Kernel) (v : Place → List Nat) :
    Prop where
  lone : Lone s v
  mem : t ∈ v (.wait .sleeping)
  fresh : softs g = 0 → s.curr 0 = t ∧ (∃ r, v (.wait .sleeping) = t :: r) ∧
    (s.procs t).ticksLeft < 2 ^ 32 ∧
    wakesAt t n g = if (s.procs t).ticksLeft ≤ 1 then 2 ^ 32 else (s.procs t).ticksLeft - 1
  later : softs g ≠ 0 → s.curr 0 ≠ t ∧ softs g < wakesAt t n g ∧ wakesAt t n g ≤ softs g + 2 ^ 32 ∧
    (s.procs t).ticksLeft = (wakesAt t n g - softs g) % 2 ^ 32

/-- The count of a sleeper after the next tick. -/
theorem countDown_pred {c : Nat} (hc : c < 2 ^ 32) :
    countDown (c - 1) = if c ≤ 1 then 2 ^ 32 - 1 else c - 2 := by
  unfold countDown
  rw [Nat.mod_eq_of_lt (by omega)]
  split <;> split <;> omega

/-- A count that is left, in 32 bits. -/
theorem countDown_left {c : Nat} (h1 : 1 ≤ c) (hc : c ≤ 2 ^ 32) :
    countDown (c % 2 ^ 32) = c - 1 := by
  unfold countDown
  rw [Nat.mod_mod]
  by_cases hmax : c = 2 ^ 32
  · subst hmax
    rfl
  · rw [Nat.mod_eq_of_lt (by omega), if_neg (by omega)]

namespace Dozing

/-- A sleeper has ticks left. -/
theorem lt_wakesAt (hd : Dozing t n g s v) : softs g < wakesAt t n g := by
  by_cases h0 : softs g = 0
  · obtain ⟨-, -, -, hw⟩ := hd.fresh h0
    rw [h0, hw]
    split <;> omega
  · exact (hd.later h0).2.1

/-- It is on no circle. -/
theorem not_inRing (hd : Dozing t n g s v) : ¬ InRing s 0 t := by
  rw [hd.lone.steady.settled.inRing_iff]
  rintro ⟨i, hi⟩
  exact absurd (hd.lone.steady.settled.valid.apart hd.mem hi) (by simp)

/-- It sleeps. -/
theorem state (hd : Dozing t n g s v) : (s.procs t).state = .sleeping :=
  (hd.lone.steady.settled.valid.wait hd.mem).1

end Dozing

/-- The software interrupts of a run, event by event. -/
theorem softs_cons (x : Machine × Event) (g : List (Machine × Event)) :
    softs (x :: g) = if x.2.isSoft = true then softs g + 1 else softs g := by
  unfold softs
  rw [List.countP_cons]
  split <;> rfl

/-- What happens after the first one does not move the wake-up. -/
theorem wakesAt_later (x : Machine × Event) (h0 : softs g ≠ 0) :
    wakesAt t n (x :: g) = wakesAt t n g :=
  if_neg fun hx => h0 hx.1

/-! ## Steps -/

/-- The call of `sleep`. -/
theorem dozing_start (hm : Lone m₀.kernel v) (hcall : m₀.step (.syscall 0 (.sleep n)) = some m₁) :
    ∃ v', Dozing (m₀.kernel.curr 0) (n % 2 ^ 32) [] m₁.kernel v' := by
  obtain ⟨⟨hh, hq, hpid, -⟩, hrun⟩ := Machine.step_eq_some.mp hcall
  have hs := hm.steady.settled
  have hst := hm.steady.runs 0 hh hq
  obtain ⟨s', hsleep, hb, hcalls⟩ :=
    hs.sleeps (T := m₀.Touches (.syscall 0 (.sleep n))) hh hst hpid (n % 2 ^ 32)
  obtain ⟨k, hk, rfl⟩ := Outcome.within_eq_done.mp hrun
  cases hsleep.symm.trans hk
  have hcurr := hcalls.2.2.curr hh
  have hplaces : parkedPlaces m₀.kernel v 0 (m₀.kernel.curr 0) .sleeping (.wait .sleeping) =
      m₀.kernel.curr 0 :: v (.wait .sleeping) := by
    simp [parkedPlaces]
  have hticks : (s'.procs (m₀.kernel.curr 0)).ticksLeft = n % 2 ^ 32 := by
    refine (field_bare (fun x => (x.procs (m₀.kernel.curr 0)).ticksLeft) (fun _ => rfl) hb).trans ?_
    rw [procs_trigger, procs_modify, if_pos rfl]
  refine ⟨_, ⟨hm.steady.call hcalls, hcalls.2.2.hart.trans hm.hart, hcurr.1⟩, ?_, fun _ => ?_, ?_⟩
  · rw [hplaces]
    exact List.mem_cons_self
  · refine ⟨hcurr.2, ⟨_, hplaces⟩, ?_, ?_⟩
    · rw [show (m₀.withKernel s').kernel = s' from rfl, hticks]
      exact Nat.mod_lt _ (by decide)
    · rw [show (m₀.withKernel s').kernel = s' from rfl, hticks]
      rfl
  · exact fun h0 => absurd rfl h0

namespace Dozing

/-- Once another process runs, nothing but software interrupts touches the sleeper. -/
theorem calls (hd : Dozing t n g m.kernel v) (h0 : softs g ≠ 0) (he : e.isSoft = false)
    (hstep : m.step e = some m') : ∃ v', Dozing t n ((m, e) :: g) m'.kernel v' := by
  obtain ⟨hcurr, hlt, hle, hticks⟩ := hd.later h0
  obtain ⟨v', hcourse, hm'⟩ := hd.lone.course hstep
  have hzero := hd.lone.event (Machine.step_eq_some.mp hstep).1
  cases hcourse with
  | stays | dispatches => exact absurd he (by simp [Event.isSoft])
  | calls hne hcalls =>
    rw [hzero] at hcalls
    have hkept : ∀ {y : Scene}, Relation.ReflTransGen (Calls (m.Touches e) 0) (m.kernel, v) y →
        t ∈ y.2 (.wait .sleeping) ∧ (y.1.procs t).ticksLeft = (m.kernel.procs t).ticksLeft := by
      intro y hy
      induction hy with
      | refl => exact ⟨hd.mem, rfl⟩
      | tail hcalls hlast ih =>
        obtain ⟨hup, hc⟩ := Calls.curr hcalls hd.lone.up
        have hat := hlast.2.2.sleeper hlast.1 ih.1 hup fun ht => hcurr (hc.symm.trans ht.symm)
        exact ⟨hat.1, hat.2.trans ih.2⟩
    obtain ⟨hmem, hsame⟩ := hkept hcalls
    have hsofts : softs ((m, e) :: g) = softs g := by
      rw [softs_cons, if_neg (by simp [he])]
    refine ⟨v', hm', hmem, fun hz => absurd (hsofts ▸ hz) h0, fun _ => ?_⟩
    rw [hsofts, wakesAt_later _ h0]
    exact ⟨(Calls.curr hcalls hd.lone.up).2 ▸ hcurr, hlt, hle, hsame.trans hticks⟩

/-- Until the first software interrupt the hart may only take others. -/
theorem waits (hd : Dozing t n g m.kernel v) (h0 : softs g = 0) (he : e.isSoft = false)
    (hstep : m.step e = some m') : ∃ v', Dozing t n ((m, e) :: g) m'.kernel v' := by
  obtain ⟨hcurr, ⟨r, hr⟩, hlt, hw⟩ := hd.fresh h0
  obtain ⟨hen, hrun⟩ := Machine.step_eq_some.mp hstep
  have hs := hd.lone.steady.settled
  have hst := hd.state
  have hsofts : softs ((m, e) :: g) = 0 := by
    rw [softs_cons, if_neg (by simp [he]), h0]
  have hidle : m.kernel.curr 0 ≠ (m.kernel.queues 0).idleProcess := by
    intro hi
    have hmem : (m.kernel.queues 0).idleProcess ∈ v (.circle 0 31) := (hs.valid.idle hd.lone.up).1
    rw [← hi, hcurr] at hmem
    exact absurd (hs.valid.apart hd.mem hmem) (by simp)
  have hsame : ¬ m.Robs e t → ∀ {s' : Kernel}, Lone s' v → s'.curr = m.kernel.curr →
      (s'.procs t).ticksLeft = (m.kernel.procs t).ticksLeft → Dozing t n ((m, e) :: g) s' v := by
    intro hno s' hm' hc htick
    refine ⟨hm', hd.mem, fun _ => ⟨hc ▸ hcurr, ⟨r, hr⟩, htick ▸ hlt, ?_⟩,
      fun hz => absurd hsofts hz⟩
    rw [htick, ← hw]
    exact if_neg fun hx => hno hx.2
  cases e with
  | start h idle =>
    obtain rfl : h = 0 := hd.lone.event hen
    exact absurd (hen.2.1.symm.trans hd.lone.up) (by simp)
  | spawn h new image priority =>
    obtain rfl : h = 0 := hd.lone.event hen
    have hruns := hen.2.2.2
    rw [hcurr, hst] at hruns
    exact absurd hruns (by simp)
  | timer h =>
    cases hrun
    have htrigger := hs.triggers (T := fun _ _ => False) h
    refine ⟨v, hsame ?_ ⟨hd.lone.steady.call htrigger, hd.lone.hart, hd.lone.up⟩
      (curr_trigger _ h) rfl⟩
    rintro ⟨u, hu, -⟩
    exact List.not_mem_nil hu
  | softInterrupt h => exact absurd he (by simp [Event.isSoft])
  | external h irq c =>
    obtain rfl : h = 0 := hd.lone.event hen
    change m.external 0 irq c = _ at hrun
    unfold Machine.external at hrun
    have hnone : ∀ u, u ∈ m.touched (.external 0 irq c) .wake → irq = 10 ∧ m.kernel.shellPtr ≠ 0 ∧
        (m.kernel.procs m.kernel.shellPtr).state = .blocked ∧ u = m.kernel.shellPtr := by
      intro u hu
      obtain ⟨hin, hx⟩ := List.mem_filter.mp hu
      obtain rfl := List.mem_singleton.mp hin
      obtain ⟨h10, hx0, hb⟩ := of_decide_eq_true hx
      exact ⟨h10, hx0, hb, rfl⟩
    by_cases hgo : irq = 10 ∧ m.kernel.shellPtr ≠ 0 ∧
      (m.kernel.procs m.kernel.shellPtr).state = .blocked
    · rw [if_pos hgo.1, if_pos hgo.2] at hrun
      have hex := hd.lone.steady.shell hgo.2.1 hgo.2.2
      have hchar := hs.chars (T := fun _ _ => True) 0 m.kernel.shellPtr c
      have hprio := fun a => field_putChar Process.priority (fun _ _ => rfl) m.kernel
        m.kernel.shellPtr c a
      have hblocked : ((m.kernel.putChar m.kernel.shellPtr c).procs m.kernel.shellPtr).state =
          .blocked := (field_putChar Process.state (fun _ _ => rfl) _ _ _ _).trans hgo.2.2
      obtain ⟨s', hwake, hb, hcalls⟩ :=
        hchar.2.1.wakes (w := .blocked) (T := fun _ _ => True) hd.lone.up trivial hex
        hblocked (by simp) (by simp) fun l hl _ => hd.lone.up_iff.mp hl
      obtain ⟨k, hk, rfl⟩ := Outcome.within_eq_done.mp hrun
      cases hwake.symm.trans hk
      have hc : s'.started 0 = true ∧ s'.curr 0 = m.kernel.curr 0 := hcalls.2.2.curr hd.lone.up
      have hhart : s'.hart = m.kernel.hart := hcalls.2.2.hart
      have hlist : wokenPlaces (m.kernel.putChar m.kernel.shellPtr c) v 0 m.kernel.shellPtr
          .blocked (.wait .sleeping) = v (.wait .sleeping) := by
        simp [wokenPlaces]
      have hne : t ≠ m.kernel.shellPtr := by
        rintro rfl
        rw [hst] at hgo
        exact absurd hgo.2.2 (by simp)
      have htick : (s'.procs t).ticksLeft =
          if (m.kernel.procs m.kernel.shellPtr).priority < (m.kernel.procs t).priority then 0
          else (m.kernel.procs t).ticksLeft := by
        have hwoken : (woken (m.kernel.putChar m.kernel.shellPtr c) 0
            m.kernel.shellPtr).curr 0 = t := hcurr
        refine (field_bare (fun x => (x.procs t).ticksLeft) (fun _ => rfl) hb).trans ?_
        rw [procs_preempt, hwoken, procs_woken, procs_woken, if_pos rfl, if_neg hne]
        dsimp only
        rw [hprio, hprio, ← field_putChar Process.ticksLeft (fun _ _ => rfl) m.kernel
          m.kernel.shellPtr c t]
        by_cases hlt : (m.kernel.procs m.kernel.shellPtr).priority < (m.kernel.procs t).priority
        · rw [if_pos ⟨rfl, hlt⟩, if_pos hlt]
        · rw [if_neg fun hx => hlt hx.2, if_neg hlt]
      have hrobs : m.Robs (.external 0 irq c) t ↔
          (m.kernel.procs m.kernel.shellPtr).priority < (m.kernel.procs t).priority := by
        constructor
        · rintro ⟨u, hu, hlt⟩
          obtain ⟨-, -, -, rfl⟩ := hnone u hu
          exact hlt
        · intro hlt
          exact ⟨_, List.mem_filter.mpr ⟨List.mem_singleton.mpr rfl, decide_eq_true hgo⟩, hlt⟩
      refine ⟨_, ⟨(hd.lone.steady.call hchar).call hcalls, hhart.trans hd.lone.hart, hc.1⟩, ?_,
        fun _ => ⟨hc.2.trans hcurr, ⟨r, hlist.trans hr⟩, ?_⟩, fun hz => absurd hsofts hz⟩
      · rw [hlist]
        exact hd.mem
      · rw [show (m.withKernel s').kernel = s' from rfl, htick, wakesAt]
        by_cases hrob : (m.kernel.procs m.kernel.shellPtr).priority < (m.kernel.procs t).priority
        · rw [if_pos hrob, if_pos ⟨h0, hrobs.mpr hrob⟩]
          exact ⟨by decide, rfl⟩
        · rw [if_neg hrob, if_neg fun hx => hrob (hrobs.mp hx.2)]
          exact ⟨hlt, hw⟩
    · have hkeep : m'.kernel = m.kernel := by
        by_cases h10 : irq = 10
        · rw [if_pos h10, if_neg fun hx => hgo ⟨h10, hx⟩] at hrun
          cases hrun
          rfl
        · rw [if_neg h10] at hrun
          cases hrun
          rfl
      refine ⟨v, hsame ?_ (hkeep ▸ hd.lone) (hkeep ▸ rfl) (hkeep ▸ rfl)⟩
      rintro ⟨u, hu, -⟩
      obtain ⟨h10, hx0, hb, -⟩ := hnone u hu
      exact hgo ⟨h10, hx0, hb⟩
  | syscall h c =>
    obtain rfl : h = 0 := hd.lone.event hen
    have hruns := hd.lone.steady.runs 0 hd.lone.up hen.2.1
    rw [hcurr, hst] at hruns
    exact absurd hruns (by simp)
  | steal h =>
    obtain rfl : h = 0 := hd.lone.event hen
    exact absurd hen.2 hidle
  | clean => exact absurd hen.2 hidle

/-- What the software interrupt does to the sleeper: it is counted, and it may lose what is left. -/
theorem counts (hd : Dozing t n g m.kernel v) {m₁ : Machine} {v₁ : Place → List Nat}
    (hp : Prepared m 0 v m₁ v₁) (e : Event) (he : e = .softInterrupt 0) :
    if softs g + 1 = wakesAt t n ((m, e) :: g) then (m₁.kernel.procs t).state = .ready
    else (m₁.kernel.procs t).state = .sleeping ∧ softs g + 1 < wakesAt t n ((m, e) :: g) ∧
      wakesAt t n ((m, e) :: g) ≤ softs g + 1 + 2 ^ 32 ∧
      (m₁.kernel.procs t).ticksLeft = (wakesAt t n ((m, e) :: g) - (softs g + 1)) % 2 ^ 32 := by
  have hs := hd.lone.steady.settled
  have hnodup := hs.sleepers_nodup
  have hst := hd.state
  rw [hp.proc Process.state fun _ _ _ => rfl, hp.proc Process.ticksLeft fun _ _ _ => rfl]
  by_cases h0 : softs g = 0
  · obtain ⟨hcurr, ⟨r, hr⟩, hlt, hw⟩ := hd.fresh h0
    rw [hr] at hnodup ⊢
    obtain ⟨htr, hnodup⟩ := List.nodup_cons.mp hnodup
    have htick : (m.kernel.tick 0).procs t = { m.kernel.procs t with
        cpuTime := (m.kernel.procs t).cpuTime + 1, ticksLeft :=
          (m.kernel.procs t).ticksLeft - 1 } := by
      rw [procs_tick, if_pos hcurr.symm]
    have hother : ∀ u ∈ r, (m.kernel.tick 0).procs u = m.kernel.procs u := by
      intro u hu
      rw [procs_tick, if_neg]
      rintro rfl
      exact htr (hcurr ▸ hu)
    obtain ⟨hself, hstate⟩ := napped_self 0 (m.kernel.tick 0) t
    have hc : (napped 0 (m.kernel.tick 0) t).curr 0 = t :=
      (congrFun (rest_napped Kernel.curr (fun _ _ => rfl) 0 _ t) 0).trans
        ((congrFun (curr_tick m.kernel 0) 0).trans hcurr)
    have hcr : (napped 0 (m.kernel.tick 0) t).curr 0 ∉ r := by
      rw [hc]
      exact htr
    have hrest := nappedAll_curr hnodup hcr
    rw [hc] at hrest
    have hrobs : (∃ u ∈ r, LastTick (napped 0 (m.kernel.tick 0) t) u ∧
        ((napped 0 (m.kernel.tick 0) t).procs u).priority <
          ((napped 0 (m.kernel.tick 0) t).procs t).priority) ↔ m.Robs e t := by
      have hprio : ((napped 0 (m.kernel.tick 0) t).procs t).priority =
          (m.kernel.procs t).priority := by
        have hn := field_napped Process.priority (fun _ _ _ _ => rfl) 0 (m.kernel.tick 0) t t
        rw [hn, htick]
      have hsame : ∀ u ∈ r, (napped 0 (m.kernel.tick 0) t).procs u = (m.kernel.tick 0).procs u := by
        intro u hu
        refine napped_apart (fun he => htr (he ▸ hu)) fun he => htr ?_
        rw [curr_tick, hcurr] at he
        exact he ▸ hu
      rw [hprio]
      constructor
      · rintro ⟨u, hu, hlast, hless⟩
        have hin : u ∈ v (.wait .sleeping) := hr ▸ List.mem_cons_of_mem _ hu
        rw [hsame u hu, hother u hu] at hless
        unfold LastTick at hlast
        rw [hsame u hu] at hlast
        subst he
        exact ⟨u, List.mem_filter.mpr ⟨hs.mem_existing hin,
          decide_eq_true ⟨(hs.valid.wait hin).1, hlast⟩⟩, hless⟩
      · rintro ⟨u, hu, hless⟩
        subst he
        obtain ⟨hex, hx⟩ := List.mem_filter.mp hu
        obtain ⟨hsleep, hlast⟩ := of_decide_eq_true hx
        have hin : u ∈ v (.wait .sleeping) := hs.mem_wait (w := .sleeping) hex hsleep
        have hur : u ∈ r := by
          rw [hr] at hin
          refine (List.mem_cons.mp hin).resolve_left ?_
          rintro rfl
          exact Nat.lt_irrefl _ hless
        refine ⟨u, hur, ?_, ?_⟩
        · unfold LastTick
          rw [hsame u hur]
          exact hlast
        · rw [hsame u hur, hother u hur]
          exact hless
    have hfirst : countDown (m.kernel.procs t).ticksLeft.pred = wakesAt t n g - 1 := by
      rw [hw, Nat.pred_eq_sub_one, countDown_pred hlt]
      split <;> omega
    have hpos : 1 ≤ wakesAt t n g ∧ wakesAt t n g ≤ 2 ^ 32 := by
      rw [hw]
      split <;> omega
    have hlast : LastTick (m.kernel.tick 0) t ↔ wakesAt t n g = 1 := by
      unfold LastTick
      rw [htick]
      show countDown ((m.kernel.procs t).ticksLeft - 1) = 0 ↔ _
      rw [← Nat.pred_eq_sub_one, hfirst]
      omega
    have hstate' : ((napped 0 (m.kernel.tick 0) t).procs t).state =
        if wakesAt t n g = 1 then .ready else .sleeping := by
      rw [hstate, htick]
      simp only [hlast, hst]
    have hself' : ((napped 0 (m.kernel.tick 0) t).procs t).ticksLeft = wakesAt t n g - 1 := by
      rw [hself, htick]
      exact hfirst
    show if _ then ((nappedAll 0 (napped 0 (m.kernel.tick 0) t) r).procs t).state = _ else
      ((nappedAll 0 (napped 0 (m.kernel.tick 0) t) r).procs t).state = _ ∧ _ ∧ _ ∧
        ((nappedAll 0 (napped 0 (m.kernel.tick 0) t) r).procs t).ticksLeft = _
    rw [hrest, h0]
    by_cases hrob : m.Robs e t
    · have hwakes : wakesAt t n ((m, e) :: g) = if wakesAt t n g = 1 then 1 else 2 ^ 32 + 1 := by
        rw [wakesAt, if_pos ⟨h0, hrob⟩, if_neg]
        subst he
        simp [Event.isSoft]
      rw [if_pos (hrobs.mpr hrob), hwakes]
      by_cases hone : wakesAt t n g = 1
      · rw [if_pos hone, if_pos (Nat.zero_add 1)]
        rw [if_pos hone] at hstate'
        exact hstate'
      · rw [if_neg hone] at hstate' ⊢
        rw [if_neg (by decide)]
        exact ⟨hstate', by decide, by decide, rfl⟩
    · have hwakes : wakesAt t n ((m, e) :: g) = wakesAt t n g := if_neg fun hx => hrob hx.2
      rw [if_neg fun hx => hrob (hrobs.mp hx), hwakes, hstate', hself']
      by_cases hone : wakesAt t n g = 1
      · rw [if_pos hone, if_pos (by omega)]
      · rw [if_neg hone, if_neg (by omega), Nat.mod_eq_of_lt (by omega)]
        exact ⟨rfl, by omega, by omega, by omega⟩
  · obtain ⟨hcurr, hlt, hle, hticks⟩ := hd.later h0
    have htick : (m.kernel.tick 0).procs t = m.kernel.procs t := by
      rw [procs_tick, if_neg fun he => hcurr he.symm]
    obtain ⟨hself, hstate⟩ := nappedAll_sleeper (s := m.kernel.tick 0) (h := 0) hnodup hd.mem (by
      rw [curr_tick]
      exact fun he => hcurr he.symm)
    have hleft : countDown ((m.kernel.tick 0).procs t).ticksLeft = wakesAt t n g - softs g - 1 := by
      rw [htick, hticks]
      exact countDown_left (by omega) (by omega)
    have hlast : LastTick (m.kernel.tick 0) t ↔ softs g + 1 = wakesAt t n g := by
      unfold LastTick
      rw [hleft]
      omega
    rw [wakesAt_later _ h0, hself, hstate, hleft, htick]
    by_cases hend : softs g + 1 = wakesAt t n g
    · rw [if_pos hend, if_pos (hlast.mpr hend)]
    · rw [if_neg hend, if_neg fun hx => hend (hlast.mp hx), Nat.mod_eq_of_lt (by omega)]
      exact ⟨hst, by omega, by omega, by omega⟩

/-- A software interrupt counts the sleeper down, or it is back on its ring. -/
theorem soft (hd : Dozing t n g m.kernel v) (he : e.isSoft = true) (hstep : m.step e = some m') :
    (∃ v', Dozing t n ((m, e) :: g) m'.kernel v') ∨
      InRing m'.kernel 0 t ∧ wakesAt t n ((m, e) :: g) ≤ softs ((m, e) :: g) ∧
        softs ((m, e) :: g) ≠ 0 := by
  obtain ⟨v', hcourse, hm'⟩ := hd.lone.course hstep
  have hzero := hd.lone.event (Machine.step_eq_some.mp hstep).1
  have hsofts : softs ((m, e) :: g) = softs g + 1 := by
    rw [softs_cons, if_pos he]
  have hex : t ∈ m.kernel.existing := hd.lone.steady.settled.mem_existing hd.mem
  have hback : ∀ {s' : Kernel} {v' : Place → List Nat}, Lone s' v' → t ∈ s'.existing →
      (s'.procs t).OnCircle → InRing s' 0 t := by
    intro s' v' hm' hex hon
    obtain ⟨l, -, hl⟩ := hm'.steady.settled.mem_circle hex hon
    exact hm'.steady.settled.inRing_iff.mpr ⟨_, hm'.circle hl⟩
  cases hcourse with
  | calls hne hcalls =>
    cases e with
    | softInterrupt h => exact absurd rfl (hne h)
    | start | spawn | timer | external | syscall | steal | clean =>
        exact absurd he (by simp [Event.isSoft])
  | @stays h _ _ hp hdue =>
    obtain rfl : h = 0 := hzero
    have hcount := hd.counts hp _ rfl
    have hex' : t ∈ m'.kernel.existing := by
      rw [hp.rest Kernel.existing (fun _ => rfl) (fun _ _ => rfl) (fun _ _ => rfl) rfl]
      exact hex
    have hruns : (m'.kernel.procs (m'.kernel.curr 0)).state = .running := by
      unfold Machine.Due at hdue
      exact not_not.mp fun hst => hdue (Or.inr hst)
    by_cases hend : softs g + 1 = wakesAt t n ((m, .softInterrupt 0) :: g)
    · rw [if_pos hend] at hcount
      exact Or.inr ⟨hback hm' hex' (Or.inl hcount), by omega, by omega⟩
    · rw [if_neg hend] at hcount
      obtain ⟨hst, hlt, hle, hticks⟩ := hcount
      refine Or.inl ⟨v', hm', hm'.steady.settled.mem_wait (w := .sleeping) hex' hst,
        fun h0 => by omega, fun _ => ⟨?_, by omega, by omega, hsofts ▸ hticks⟩⟩
      rintro rfl
      rw [hst] at hruns
      exact absurd hruns (by simp)
  | @dispatches h x m₁ v₁ s' hp hdue hrun hdis =>
    obtain rfl : h = 0 := hzero
    have hcount := hd.counts hp _ rfl
    have hex' : t ∈ s'.existing := by
      rw [hdis.rest Kernel.existing (fun _ => rfl) (fun _ _ => rfl) (fun _ _ => rfl)
        fun _ _ _ => rfl,
        hp.rest Kernel.existing (fun _ => rfl) (fun _ _ => rfl) (fun _ _ => rfl) rfl]
      exact hex
    by_cases hend : softs g + 1 = wakesAt t n ((m, .softInterrupt 0) :: g)
    · rw [if_pos hend] at hcount
      exact Or.inr ⟨hback hm' hex' (hdis.onCircle hcount), by omega, by omega⟩
    · rw [if_neg hend] at hcount
      obtain ⟨hst, hlt, hle, hticks⟩ := hcount
      obtain ⟨hst', hticks', hcurr⟩ := hdis.sleeper hst
      exact Or.inl ⟨_, hm', hm'.steady.settled.mem_wait (w := .sleeping) hex' hst',
        fun h0 => by omega, fun _ => ⟨hcurr, by omega, by omega, hsofts ▸ hticks'.trans hticks⟩⟩

end Dozing

/-! ## Runs -/

/-- The sleeper has moved back by now, or had before. -/
theorem movedBack_cons {t : Nat} {g : List (Machine × Event)} {m m' : Machine} {e : Event} :
    MovedBack t ((m, e) :: g) m' ↔ InRing m'.kernel 0 t ∨ MovedBack t g m := by
  unfold MovedBack
  simp only [List.mem_cons, exists_eq_or_imp]

/-- A process sleeps or has been moved back. -/
theorem dozing_run (hm : Lone m₀.kernel v) (hcall : m₀.step (.syscall 0 (.sleep n)) = some m₁)
    (hr : Run Machine.step m₁ g m) :
    (∃ v', Dozing (m₀.kernel.curr 0) (n % 2 ^ 32) g m.kernel v') ∧
      ¬ MovedBack (m₀.kernel.curr 0) g m ∨
      MovedBack (m₀.kernel.curr 0) g m ∧ wakesAt (m₀.kernel.curr 0) (n % 2 ^ 32) g ≤ softs g ∧
        softs g ≠ 0 := by
  induction hr with
  | nil =>
    obtain ⟨v', hd⟩ := dozing_start hm hcall
    refine Or.inl ⟨⟨v', hd⟩, ?_⟩
    rintro (hin | ⟨x, hx, -⟩)
    · exact hd.not_inRing hin
    · exact List.not_mem_nil hx
  | @snoc g m m' e hr hstep ih =>
    rw [movedBack_cons]
    rcases ih with ⟨⟨v', hd⟩, hno⟩ | ⟨hback, hle, h0⟩
    · have hkeep : (∃ v', Dozing (m₀.kernel.curr 0) (n % 2 ^ 32) ((m, e) :: g) m'.kernel v') ∨
          InRing m'.kernel 0 (m₀.kernel.curr 0) ∧
            wakesAt (m₀.kernel.curr 0) (n % 2 ^ 32) ((m, e) :: g) ≤ softs ((m, e) :: g) ∧
            softs ((m, e) :: g) ≠ 0 := by
        cases he : e.isSoft with
        | true => exact hd.soft he hstep
        | false =>
          by_cases h0 : softs g = 0
          · exact Or.inl (hd.waits h0 he hstep)
          · exact Or.inl (hd.calls h0 he hstep)
      rcases hkeep with ⟨v'', hd'⟩ | ⟨hin, hle⟩
      · exact Or.inl ⟨⟨v'', hd'⟩, fun hx => hx.elim hd'.not_inRing hno⟩
      · exact Or.inr ⟨Or.inl hin, hle⟩
    · have hsofts : softs g ≤ softs ((m, e) :: g) := by
        rw [softs_cons]
        split <;> omega
      refine Or.inr ⟨Or.inr hback, ?_, by omega⟩
      rw [wakesAt_later _ h0]
      omega

/-- The sleeper is back exactly from its wake-up on. -/
theorem movedBack_iff (h0 : idle ≠ 0) (hr₀ : Run Machine.step (booted procs 0 idle) g₀ m₀)
    (hcall : m₀.step (.syscall 0 (.sleep n)) = some m₁) (hr : Run Machine.step m₁ g m) :
    MovedBack (m₀.kernel.curr 0) g m ↔ wakesAt (m₀.kernel.curr 0) (n % 2 ^ 32) g ≤ softs g := by
  obtain ⟨v, hm⟩ := lone_run h0 hr₀
  rcases dozing_run hm hcall hr with ⟨⟨v', hd⟩, hno⟩ | ⟨hback, hle, -⟩
  · exact iff_of_false hno (Nat.not_le.mpr hd.lt_wakesAt)
  · exact iff_of_true hback hle

/-- After each part of a run the process has been moved back exactly if there has been a software
interrupt after enough timer interrupts. This is so where, up to the first such interrupt, the hart
takes one software interrupt less than the process wants to sleep, or as many as 32 bits can
count. -/
theorem sleeps_iff (h0 : idle ≠ 0) (hr₀ : Run Machine.step (booted procs 0 idle) g₀ m₀)
    (hcall : m₀.step (.syscall 0 (.sleep n)) = some m₁) (hr : Run Machine.step m₁ g m) :
    (∀ g' m', g' <:+ g → Run Machine.step m₁ g' m' →
      (MovedBack (m₀.kernel.curr 0) g' m' ↔ Answered (n % 2 ^ 32) g')) ↔
    ∀ g', g' <:+ g →
      (wakesAt (m₀.kernel.curr 0) (n % 2 ^ 32) g' ≤ softs g' ↔ Answered (n % 2 ^ 32) g') := by
  constructor
  · intro hall g' hg
    obtain ⟨m', hr'⟩ := hr.suffix hg
    rw [← movedBack_iff h0 hr₀ hcall hr']
    exact hall g' m' hg hr'
  · intro hall g' m' hg hr'
    rw [movedBack_iff h0 hr₀ hcall hr']
    exact hall g' hg

/-- A process that sleeps for two ticks, where both timer interrupts come before the first software
interrupt. -/
theorem sleeps_iff_two : ∃ g, ∃ m₀ m₁ m : Machine, ∃ t : Nat, g ≠ [] ∧
    m₀.step (.syscall 0 (.sleep 2)) = some m₁ ∧
    Run Machine.step m₁ g m ∧ InRing m.kernel 0 t ∧
    ((∀ g' m', g' <:+ g → Run Machine.step m₁ g' m' → (MovedBack t g' m' ↔ Answered 2 g')) ↔
      ∀ g', g' <:+ g → (wakesAt t 2 g' ≤ softs g' ↔ Answered 2 g')) := by
  have hreach : Reaches (fun _ _ => True)
      (fun m => ∃ m₁ ∈ m.step (.syscall 0 (.sleep 2)), ∃ m₂ ∈ m₁.step (.timer 0),
        ∃ m₃ ∈ m₂.step (.timer 0),
        ∃ m₄ ∈ m₃.step (.softInterrupt 0), InRing m₄.kernel 0 (m.kernel.curr 0))
      (booted emptyMemory 0 1) ([.event (.spawn 0 3 ⟨0, 0⟩ 16), .wait 0 127] ++ interrupt 0) := by
    decide +kernel
  obtain ⟨g₀, m₀, hr₀, m₁, h1, m₂, h2, m₃, h3, m₄, h4, hin⟩ := hreach.run
  have hr := ((Run.nil.snoc h2).snoc h3).snoc h4
  exact ⟨_, m₀, m₁, m₄, m₀.kernel.curr 0, List.cons_ne_nil _ _, h1, hr, hin,
    sleeps_iff (by decide) hr₀ h1 hr⟩

/-- A process that sleeps for two ticks is moved back before the timer has interrupted once. -/
theorem sleeps_short : ∃ g₀, ∃ m₀ m₁ m : Machine, Run Machine.step (booted emptyMemory 0 1) g₀ m₀ ∧
    m₀.step (.syscall 0 (.sleep 2)) = some m₁ ∧ m₁.step (.softInterrupt 0) = some m ∧
    MovedBack (m₀.kernel.curr 0) [(m₁, .softInterrupt 0)] m ∧
      ¬ Answered 2 [(m₁, .softInterrupt 0)] := by
  have hreach : Reaches (fun _ _ => True)
      (fun m => ∃ m₁ ∈ m.step (.syscall 0 (.sleep 2)), ∃ m₂ ∈ m₁.step (.softInterrupt 0),
        MovedBack (m.kernel.curr 0) [(m₁, .softInterrupt 0)] m₂ ∧
          ¬ Answered 2 [(m₁, .softInterrupt 0)])
      (booted emptyMemory 0 1) ([.event (.spawn 0 3 ⟨0, 0⟩ 16), .wait 0 127] ++ interrupt 0) := by
    decide +kernel
  obtain ⟨g₀, m₀, hr₀, m₁, h1, m₂, h2, hback, hno⟩ := hreach.run
  exact ⟨g₀, m₀, m₁, m₂, hr₀, h1, h2, hback, hno⟩

end RexOS.Smp
