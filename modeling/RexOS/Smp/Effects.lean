import RexOS.Smp.Steady

/-!
# What a call leaves alone

Which fields a call leaves as they are, which processes come to a circle by it and which leave one,
and the same for what a software interrupt does before it reschedules.
-/

namespace RexOS.Smp

open Scheduler Kernel

variable {T : Touch → Nat → Prop} {s s' k : Kernel} {v v' : Place → List Nat} {h a i j l t : Nat}
  {w : WaitList}

/-! ## Fields -/

/-- What calls leave as it is, unless a hart comes up. -/
theorem Call.rest {α : Type} (g : Kernel → α) (hg : ∀ x : Kernel, g x.bare = g x)
    (hp : ∀ x p, g { x with procs := p } = g x) (ht : ∀ x : Kernel, g (x.trigger h) = g x)
    (he : ∀ x a, g { x with emergencyProcess := a } = g x)
    (hsh : ∀ x a, g { x with shellPtr := a } = g x)
    (hreg : ∀ x n r p xs, g { x with
      aliveThreadCounter := n
      pidRegistry := r
      nextPid := p
      existing := xs } = g x)
    (hc : Call T h (s, v) (s', v')) :
    g s' = g s ∨ s.started h = false ∧ ∃ idle, idle ∉ s.existing ∧ s' = s.smpKmain h idle := by
  have hpark : ∀ t w, g (s.parked t w) = g s := fun t w => (hp _ _).trans (he s _)
  cases hc with
  | trigger hb => exact Or.inl ((field_bare g hg hb).trans (ht s))
  | shell hh hb => exact Or.inl ((field_bare g hg hb).trans (hsh s _))
  | pending pid hb => exact Or.inl ((field_bare g hg hb).trans (hp s _))
  | char t c hb => exact Or.inl ((field_bare g hg hb).trans (hp s _))
  | park hh w hw hws hrun hpid hb =>
      exact Or.inl ((field_bare g hg hb).trans ((ht _).trans (hpark _ _)))
  | sleep hh ticks hrun hpid hb =>
    exact Or.inl ((field_bare g hg hb).trans ((ht _).trans ((hp _ _).trans (hpark _ _))))
  | exit hh code xs hT hrun hpid hxs hb =>
    exact Or.inl
      ((field_bare g hg hb).trans ((ht _).trans ((hp _ _).trans ((hp _ _).trans (hpark _ _)))))
  | yield hh hrun hb => exact Or.inl ((field_bare g hg hb).trans ((ht _).trans (hp s _)))
  | wake hh t w hT hw hws ht' hfree hb =>
    exact Or.inl
      ((field_bare g hg hb).trans ((rest_preempt g hp ht _ t).trans ((hp _ _).trans (hp s _))))
  | reap t hT ht' hcurr hb =>
    exact Or.inl ((field_bare g hg hb).trans (hreg s _ _ s.nextPid _))
  | steal hh t core hT ht' hidle hb =>
      exact Or.inl ((field_bare g hg hb).trans ((ht _).trans (hp s _)))
  | spawn hh new pid priority image hT hrun hnew h0 hprio halive htake hk hb =>
    obtain ⟨-, bit, rfl⟩ := hk
    have hborn : ∀ x : Kernel, g (born x h new pid image priority) = g x := fun x =>
      (hreg _ (x.enroll h new pid image priority).aliveThreadCounter
        (x.enroll h new pid image priority).pidRegistry
          (x.enroll h new pid image priority).nextPid _).trans
        (rest_enroll g hp x h new pid image priority)
    exact Or.inl ((field_bare g hg hb).trans ((hborn _).trans (hreg s _ _ _ s.existing)))
  | start idle hh h0 hidle => exact Or.inr ⟨hh, idle, hidle, rfl⟩

/-- A hart that is up runs what it ran. -/
theorem Call.curr (hc : Call T h (s, v) (s', v')) (hl : s.started l = true) :
    s'.started l = true ∧ s'.curr l = s.curr l := by
  have hstart := hc.rest Kernel.started (fun _ => rfl) (fun _ _ => rfl) (fun _ => rfl)
    (fun _ _ => rfl) (fun _ _ => rfl) fun _ _ _ _ _ => rfl
  have hcurr := hc.rest Kernel.curr (fun _ => rfl) (fun _ _ => rfl) (fun x => curr_trigger x h)
    (fun _ _ => rfl) (fun _ _ => rfl) fun _ _ _ _ _ => rfl
  rcases hcurr with hcurr | ⟨hh, idle, -, rfl⟩
  · rcases hstart with hstart | ⟨hh, idle, -, rfl⟩
    · rw [hstart, hcurr]
      exact ⟨hl, rfl⟩
    · refine ⟨?_, congrFun hcurr l⟩
      by_cases hlh : l = h <;> simp [smpKmain, Kernel.modify, hlh, hl]
  · have hlh : l ≠ h := by
      rintro rfl
      exact absurd (hh.symm.trans hl) (by simp)
    exact ⟨by simp [smpKmain, Kernel.modify, hlh, hl],
      by simp [smpKmain, Kernel.curr, Kernel.modify, hlh]⟩

/-- Calls leave the processes of the harts as they are. -/
theorem Calls.curr {x y : Scene} (hc : Relation.ReflTransGen (Calls T h) x y)
    (hl : x.1.started l = true) :
    y.1.started l = true ∧ y.1.curr l = x.1.curr l := by
  induction hc with
  | refl => exact ⟨hl, rfl⟩
  | tail _ hlast ih =>
    obtain ⟨hup, hcurr⟩ := hlast.2.2.curr ih.1
    exact ⟨hup, hcurr.trans ih.2⟩

/-- The processes that exist after a call. -/
theorem Call.existing (hc : Call T h (s, v) (s', v')) : s'.existing = s.existing ∨
    (∃ t ∈ v (.wait .zombie), T .reap t ∧ (∀ k, s.started k = true → s.curr k ≠ t) ∧
      s'.existing = s.existing.erase t) ∨
    ∃ new, new ∉ s.existing ∧ s'.existing = new :: s.existing := by
  cases hc with
  | trigger hb | shell _ hb | pending _ hb | char _ _ hb | park _ _ _ _ _ _ hb | sleep _ _ _ _ hb
  | exit _ _ _ _ _ _ _ hb | yield _ _ hb | steal _ _ _ _ _ _ hb =>
    exact Or.inl ((field_bare Kernel.existing (fun _ => rfl) hb).trans rfl)
  | wake hh t w hT hw hws ht hfree hb =>
    exact Or.inl ((field_bare Kernel.existing (fun _ => rfl) hb).trans
      (rest_preempt Kernel.existing (fun _ _ => rfl) (fun _ => rfl) _ t))
  | reap t hT ht hcurr hb =>
    exact Or.inr
      (Or.inl ⟨t, ht, hT, hcurr, (field_bare Kernel.existing (fun _ => rfl) hb).trans rfl⟩)
  | spawn hh new pid priority image hT hrun hnew h0 hprio halive htake hk hb =>
    obtain ⟨-, bit, rfl⟩ := hk
    exact Or.inr (Or.inr ⟨new, hnew, (field_bare Kernel.existing (fun _ => rfl) hb).trans rfl⟩)
  | start idle hh h0 hidle => exact Or.inr (Or.inr ⟨idle, hidle, rfl⟩)

/-- A field of the processes that exist that no call writes, but that an exit may write where it
changes parents. -/
theorem Call.field {α : Type} (g : Process → α)
    (hg : ∀ x st n tf pid cap code, g { x with
      state := st
      ticksLeft := n
      tf := tf
      ipcPendingPid := pid
      capabilityRoot := cap
      exitCode := code } = g x)
    (hl : ∀ x n p, g { x with next := n, prev := p } = g x)
    (hadopt : (∀ x, g { x with parentPid := 0 } = g x) ∨ ∀ t, ¬ T .exit t)
    (hc : Call T h (s, v) (s', v')) (ha : a ∈ s.existing) : g (s'.procs a) = g (s.procs a) := by
  have hbare : ∀ {k : Kernel}, s'.bare = k.bare → g (k.procs a) = g (s.procs a) →
      g (s'.procs a) = g (s.procs a) := fun hb hk =>
    (field_bare (fun x => g (x.procs a)) (fun x => hl (x.procs a) 0 0) hb).trans hk
  have hst : ∀ x st, g { x with state := st } = g x := fun x st =>
    hg x st x.ticksLeft x.tf x.ipcPendingPid x.capabilityRoot x.exitCode
  have hparked : ∀ t w, g ((s.parked t w).procs a) = g (s.procs a) := by
    intro t w
    rw [procs_parked]
    split
    · rename_i hat
      rw [hst, hat]
    · rfl
  cases hc with
  | trigger hb | shell _ hb => exact hbare hb rfl
  | reap _ _ _ _ hb => exact hbare hb rfl
  | char t c hb =>
    exact hbare hb (field_putChar g (fun x regs => hg x x.state x.ticksLeft
      { x.tf with uContext := regs } x.ipcPendingPid x.capabilityRoot x.exitCode) s t c a)
  | pending pid hb =>
    refine hbare hb ?_
    rw [procs_modify]
    split
    · rename_i hat
      rw [hat]
      exact hg _ _ _ _ pid _ _
    · rfl
  | park hh w hw hws hrun hpid hb => exact hbare hb (hparked _ w)
  | sleep hh ticks hrun hpid hb =>
    refine hbare hb (Eq.trans ?_ (hparked (s.curr h) .sleeping))
    rw [procs_trigger, procs_modify]
    split
    · rename_i hat
      rw [hat]
      exact hg _ _ ticks _ _ _ _
    · rfl
  | exit hh code xs hT hrun hpid hxs hb =>
    rcases hadopt with hadopt | hno
    · refine hbare hb ((congrFun (field_adoptAll g hadopt _ _ xs) a).trans (Eq.trans ?_
        (hparked (s.curr h) .zombie)))
      rw [procs_modify]
      split
      · rename_i hat
        rw [hat]
        exact hg _ _ _ _ _ _ code
      · rfl
    · exact absurd hT (hno _)
  | yield hh hrun hb =>
    refine hbare hb ?_
    rw [procs_trigger, procs_setState]
    split
    · rename_i hat
      rw [hst, hat]
    · rfl
  | wake hh t w hT hw hws ht hfree hb =>
    refine hbare hb
      ((field_preempt g (fun x n => hg x x.state n x.tf x.ipcPendingPid x.capabilityRoot
      x.exitCode) _ h t a).trans ?_)
    exact field_woken g
      (fun x st tf => hg x st x.ticksLeft tf x.ipcPendingPid x.capabilityRoot x.exitCode)
      s h t a
  | steal hh t core hT ht hidle hb =>
    refine hbare hb ?_
    rw [procs_trigger, procs_modify]
    split
    · rename_i hat
      rw [hat]
      exact hg _ _ _ _ _ _ _
    · rfl
  | spawn hh new pid priority image hT hrun hnew h0 hprio halive htake hk hb =>
    obtain ⟨-, bit, rfl⟩ := hk
    have hne : a ≠ new := fun he => hnew (he ▸ ha)
    refine hbare hb
      ((congrFun (field_enroll g (fun x c => hg x x.state x.ticksLeft x.tf x.ipcPendingPid c
      x.exitCode) _ h new pid image priority) a).trans (Function.update_of_ne hne ..))
  | start idle hh h0 hidle =>
    have hne : a ≠ idle := fun he => hidle (he ▸ ha)
    exact congrArg g (Function.update_of_ne hne ..)

/-- Where nothing exits, there are no new zombies. -/
theorem Call.zombie (hs : Settled s v) (hno : ∀ t, ¬ T .exit t) (hc : Call T h (s, v) (s', v'))
    (ha : a ∈ v' (.wait .zombie)) : a ∈ v (.wait .zombie) := by
  cases hc with
  | trigger | shell | pending | char | yield => exact ha
  | park hh w hw hws hrun hpid hb =>
    rcases (hs.mem_parkedPlaces (hs.curr_mem hh (Or.inr hrun)) w _ a).mp ha with ⟨-, hq⟩ | ⟨-, ha⟩
    · exact absurd (Place.wait.inj hq).symm hw
    · exact ha
  | sleep hh ticks hrun hpid hb =>
    rcases (hs.mem_parkedPlaces (hs.curr_mem hh (Or.inr hrun)) .sleeping _ a).mp ha
      with ⟨-, hq⟩ | ⟨-, ha⟩
    · exact absurd hq (by simp)
    · exact ha
  | exit hh code xs hT hrun hpid hxs hb => exact absurd hT (hno _)
  | wake hh t w hT hw hws ht hfree hb =>
    rcases (hs.mem_wokenPlaces ht h _ a).mp ha with ⟨-, hq⟩ | ⟨-, ha⟩
    · exact absurd hq (by simp)
    · exact ha
  | reap t hT ht hcurr hb => exact ((hs.threaded.mem_erased ht _ a).mp ha).2
  | steal hh t core hT ht hidle hb =>
    rcases (hs.mem_stolenPlaces ht _ a).mp ha with ⟨-, hq⟩ | ⟨-, ha⟩
    · exact absurd hq (by simp)
    · exact ha
  | spawn hh new pid priority image hT hrun hnew h0 hprio halive htake hk hb =>
    rcases (mem_bornPlaces v h new priority _ a).mp ha with ⟨-, hq⟩ | ha
    · exact absurd hq (by simp)
    · exact ha
  | start idle hh h0 hidle =>
    rcases (mem_startedPlaces (hs.circle_nil hh 31) idle _ a).mp ha with ⟨-, hq⟩ | ha
    · exact absurd hq (by simp)
    · exact ha

/-! ## Circles -/

/-- A process comes to a circle by being woken or stolen, or it is new. -/
theorem Call.entered (hs : Settled s v) (hc : Call T h (s, v) (s', v'))
    (ha : a ∈ v' (.circle l j)) :
    a ∈ v (.circle l j) ∨ (∃ c, T c a) ∨ a ∉ s.existing := by
  cases hc with
  | trigger | shell | pending | char | yield => exact Or.inl ha
  | park hh w hw hws hrun hpid hb =>
    rcases (hs.mem_parkedPlaces (hs.curr_mem hh (Or.inr hrun)) w _ a).mp ha with ⟨-, hq⟩ | ⟨-, ha⟩
    · exact absurd hq (by simp)
    · exact Or.inl ha
  | sleep hh ticks hrun hpid hb =>
    rcases (hs.mem_parkedPlaces (hs.curr_mem hh (Or.inr hrun)) .sleeping _ a).mp ha
      with ⟨-, hq⟩ | ⟨-, ha⟩
    · exact absurd hq (by simp)
    · exact Or.inl ha
  | exit hh code xs hT hrun hpid hxs hb =>
    rcases (hs.mem_parkedPlaces (hs.curr_mem hh (Or.inr hrun)) .zombie _ a).mp ha
      with ⟨-, hq⟩ | ⟨-, ha⟩
    · exact absurd hq (by simp)
    · exact Or.inl ha
  | wake hh t w hT hw hws ht hfree hb =>
    rcases (hs.mem_wokenPlaces ht h _ a).mp ha with ⟨rfl, -⟩ | ⟨-, ha⟩
    · exact Or.inr (Or.inl ⟨_, hT⟩)
    · exact Or.inl ha
  | reap t hT ht hcurr hb => exact Or.inl ((hs.threaded.mem_erased ht _ a).mp ha).2
  | steal hh t core hT ht hidle hb =>
    rcases (hs.mem_stolenPlaces ht _ a).mp ha with ⟨rfl, -⟩ | ⟨-, ha⟩
    · exact Or.inr (Or.inl ⟨_, hT⟩)
    · exact Or.inl ha
  | spawn hh new pid priority image hT hrun hnew h0 hprio halive htake hk hb =>
    rcases (mem_bornPlaces v h new priority _ a).mp ha with ⟨rfl, -⟩ | ha
    · exact Or.inr (Or.inr hnew)
    · exact Or.inl ha
  | start idle hh h0 hidle =>
    rcases (mem_startedPlaces (hs.circle_nil hh 31) idle _ a).mp ha with ⟨rfl, -⟩ | ha
    · exact Or.inr (Or.inr hidle)
    · exact Or.inl ha

/-- What another hart runs stays on its circle. -/
theorem Call.stays (hs : Settled s v) (hc : Call T h (s, v) (s', v')) (hl : s.started l = true)
    (hlh : l ≠ h) (ha : s.curr l ∈ v (.circle l j)) : s.curr l ∈ v' (.circle l j) := by
  have hother : s.started h = true → s.curr l ≠ s.curr h :=
    fun hh he => hlh (hs.valid.alone hl hh he)
  cases hc with
  | trigger | shell | pending | char | yield => exact ha
  | park hh w hw hws hrun hpid hb =>
    exact (hs.mem_parkedPlaces (hs.curr_mem hh (Or.inr hrun)) w _ _).mpr (Or.inr ⟨hother hh, ha⟩)
  | sleep hh ticks hrun hpid hb =>
    exact (hs.mem_parkedPlaces (hs.curr_mem hh (Or.inr hrun)) .sleeping _ _).mpr
      (Or.inr ⟨hother hh, ha⟩)
  | exit hh code xs hT hrun hpid hxs hb =>
    exact (hs.mem_parkedPlaces (hs.curr_mem hh (Or.inr hrun)) .zombie _ _).mpr
      (Or.inr ⟨hother hh, ha⟩)
  | wake hh t w hT hw hws ht hfree hb =>
    exact (hs.mem_wokenPlaces ht h _ _).mpr (Or.inr ⟨fun he => hlh (hfree l hl he), ha⟩)
  | reap t hT ht hcurr hb => exact (hs.threaded.mem_erased ht _ _).mpr ⟨hcurr l hl, ha⟩
  | steal hh t core hT ht hidle hb =>
    refine (hs.mem_stolenPlaces ht _ _).mpr (Or.inr ⟨?_, ha⟩)
    rintro rfl
    obtain ⟨i, -, hmem⟩ := ht.mem
    exact ht.idle (by rw [(Place.circle.inj (hs.valid.apart hmem ha)).1])
  | spawn hh new pid priority image hT hrun hnew h0 hprio halive htake hk hb =>
    exact (mem_bornPlaces v h new priority _ _).mpr (Or.inr ha)
  | start idle hh h0 hidle =>
    exact (mem_startedPlaces (hs.circle_nil hh 31) idle _ _).mpr (Or.inr ha)

/-! ## Naps -/

/-- Only a sleeper that wakes joins a circle. -/
theorem Nap.entered (hs : Settled s v) (hn : Nap T h (s, v) (s', v')) (ha : a ∈ v' (.circle l j)) :
    a ∈ v (.circle l j) ∨ T .wake a := by
  cases hn with
  | count | alarm => exact Or.inl ha
  | wake t ht hlast hT hfree hb =>
    rcases (hs.mem_wokenPlaces ht h _ a).mp ha with ⟨rfl, -⟩ | ⟨-, ha⟩
    · exact Or.inr hT
    · exact Or.inl ha

/-- Nobody leaves a circle. -/
theorem Nap.stays (hs : Settled s v) (hn : Nap T h (s, v) (s', v')) (ha : a ∈ v (.circle l j)) :
    a ∈ v' (.circle l j) := by
  cases hn with
  | count | alarm => exact ha
  | wake t ht hlast hT hfree hb =>
    refine (hs.mem_wokenPlaces ht h _ _).mpr (Or.inr ⟨?_, ha⟩)
    rintro rfl
    exact absurd (hs.valid.apart ht ha) (by simp)

/-- Nobody becomes a zombie. -/
theorem Nap.zombie (hs : Settled s v) (hn : Nap T h (s, v) (s', v')) (ha : a ∈ v' (.wait .zombie)) :
    a ∈ v (.wait .zombie) := by
  cases hn with
  | count | alarm => exact ha
  | wake t ht hlast hT hfree hb =>
    rcases (hs.mem_wokenPlaces ht h _ a).mp ha with ⟨-, hq⟩ | ⟨-, ha⟩
    · exact absurd hq (by simp)
    · exact ha

section SoftInterrupt

variable {α : Type} (g : Process → α)
  (hg : ∀ x st n tf c, g { x with state := st, ticksLeft := n, tf := tf, cpuTime := c } = g x)
  (hl : ∀ x n p, g { x with next := n, prev := p } = g x)

include hg hl

/-- A field that software interrupts do not write. -/
theorem Nap.field (hn : Nap T h (s, v) (s', v')) (a : Nat) : g (s'.procs a) = g (s.procs a) := by
  have hbare : ∀ {k : Kernel}, s'.bare = k.bare → g (k.procs a) = g (s.procs a) →
      g (s'.procs a) = g (s.procs a) := fun hb hk =>
    (field_bare (fun x => g (x.procs a)) (fun x => hl (x.procs a) 0 0) hb).trans hk
  have hcount : ∀ t, g ((counted s t).procs a) = g (s.procs a) := by
    intro t
    unfold counted
    rw [procs_modify]
    split
    · rename_i hat
      rw [hat]
      exact hg _ _ _ _ _
    · rfl
  cases hn with
  | count t ht hlast hb => exact hbare hb (hcount t)
  | wake t ht hlast hT hfree hb =>
    refine hbare hb (Eq.trans ?_ (hcount t))
    rw [procs_curtail]
    refine Eq.trans ?_ (field_woken g (fun x st tf => hg x st x.ticksLeft tf x.cpuTime)
      (counted s t) h t a)
    split
    · exact hg _ _ 0 _ _
    · rfl
  | alarm hb hem => exact hbare hb rfl

/-- What precedes the dispatch keeps every field that ticks do not touch. -/
theorem Prepared.field {m m₁ : Machine} {v₁ : Place → List Nat} (hp : Prepared m h v m₁ v₁)
    (a : Nat) :
    g (m₁.kernel.procs a) = g (m.kernel.procs a) := by
  have htick : g ((m.kernel.tick h).procs a) = g (m.kernel.procs a) := by
    rw [procs_tick]
    split
    · exact hg _ _ _ _ _
    · rfl
  have hnaps : ∀ {b : Scene}, Relation.ReflTransGen (Naps (m.Touches (.softInterrupt h)) h)
      (m.kernel.tick h, v) b → g (b.1.procs a) = g (m.kernel.procs a) := by
    intro b hb
    induction hb with
    | refl => exact htick
    | tail _ hlast ih => exact (hlast.2.2.field g hg hl a).trans ih
  exact hnaps hp.naps

/-- So does the dispatch, for fields without state and slice. -/
theorem Dispatched.field {x : Nat} (hd : Dispatched h x s v s') (a : Nat) :
    g (s'.procs a) = g (s.procs a) := by
  have hback : g ((refilled s h).procs a) = g (s.procs a) := by
    rw [procs_refilled]
    split
    · exact hg _ _ _ _ _
    · rfl
  refine (field_bare (fun y => g (y.procs a)) (fun y => hl (y.procs a) 0 0) hd.bare).trans
    (Eq.trans ?_ hback)
  rw [procs_dispatched]
  split
  · rename_i hax
    rw [hax]
    exact hg _ _ _ _ _
  · rfl

end SoftInterrupt

end RexOS.Smp
