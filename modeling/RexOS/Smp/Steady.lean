import RexOS.Smp.Moves

/-!
# Harts that keep out of each other's way

In a run of careful events the kernel stays settled, and a hart with no software interrupt
pending has its current process running.
-/

namespace RexOS.Smp

open Scheduler Kernel

variable {T : Touch → Nat → Prop} {s s' k : Kernel} {v v' : Place → List Nat}
  {h t a n pid idle harts : Nat} {w : WaitList} {m m' : Machine} {e : Event}

/-- The timer makes the interrupt of its hart pending. -/
theorem ssip_trigger (s : Kernel) (h l : Nat) :
    ((s.trigger h).queues l).ssip = if l = h then true else (s.queues l).ssip := by
  by_cases hl : l = h <;> simp [Kernel.trigger, Kernel.onQueue, hl]

/-- A preemption clears nothing. -/
theorem ssip_preempt (hl : ((s.preempt h t).queues n).ssip = false) :
    (s.queues n).ssip = false := by
  unfold Kernel.preempt at hl
  split at hl
  · rw [ssip_trigger] at hl
    split at hl
    · exact absurd hl (by simp)
    · exact hl
  · exact hl

/-- A process that does not run any more, or that has come back, is not run by a hart without a
pending interrupt. -/
theorem Steady.not_waiting (hm : Steady s v) (hh : s.started h = true)
    (hssip : (s.queues h).ssip = false)
    (ht : t ∈ v (.wait w)) : s.curr h ≠ t := by
  rintro rfl
  have hrun := hm.runs h hh hssip
  have hst : (s.procs (s.curr h)).state = w.state := (hm.settled.valid.wait ht).1
  rw [hrun] at hst
  cases w <;> simp [WaitList.state] at hst

/-- Links do not matter. -/
theorem Aware.of_bare (hb : s'.bare = k.bare) (hk : Aware k) : Aware s' := by
  have hbare : Aware k.bare := ⟨hk.runs, hk.shell⟩
  rw [← hb] at hbare
  exact ⟨hbare.runs, hbare.shell⟩

/-- Where no current process stops running and no other is blocked, all is known as before. -/
theorem Aware.kept (hk : Aware s) (hst : s'.started = s.started) (hc : s'.curr = s.curr)
    (hssip : ∀ l, (s'.queues l).ssip = false → (s.queues l).ssip = false)
    (hstate : ∀ l, s.started l = true → (s'.queues l).ssip = false →
      (s.procs (s.curr l)).state = .running → (s'.procs (s.curr l)).state = .running)
    (hshell : s'.shellPtr = s.shellPtr ∨ s'.shellPtr ∈ s'.existing)
    (hblocked : ∀ a, (s'.procs a).state = .blocked →
      (s.procs a).state = .blocked ∧ (a ∈ s.existing → a ∈ s'.existing) ∨ a ∈ s'.existing) :
        Aware s' := by
  refine ⟨fun l hl hq => ?_, fun h0 hb => ?_⟩
  · rw [hst] at hl
    rw [hc]
    exact hstate l hl hq (hk.runs l hl (hssip l hq))
  · rcases hshell with he | he
    · rw [he] at h0 hb ⊢
      exact (hblocked _ hb).elim (fun hb' => hb'.2 (hk.shell h0 hb'.1)) id
    · exact he

/-- What changes the current process of a hart and triggers an interrupt there. -/
theorem Steady.left (hm : Steady s v) (hh : s.started h = true) (hst : k.started = s.started)
    (hc : k.curr = s.curr) (hssip : ∀ l, (k.queues l).ssip = (s.queues l).ssip)
    (hproc : ∀ a, a ≠ s.curr h → (k.procs a).state = (s.procs a).state)
    (hshell : k.shellPtr = s.shellPtr) (hex : k.existing = s.existing) : Aware (k.trigger h) := by
  refine hm.toAware.kept hst ((curr_trigger k h).trans hc) (fun l hl => ?_)
    (fun l hl hl' hrun => ?_) (Or.inl hshell) fun a ha => ?_
  · rw [ssip_trigger, hssip] at hl
    split at hl
    · exact absurd hl (by simp)
    · exact hl
  · rw [ssip_trigger] at hl'
    split at hl'
    · exact absurd hl' (by simp)
    · rename_i hne
      have hcne : s.curr l ≠ s.curr h := fun he => hne (hm.settled.valid.alone hl hh he)
      rw [procs_trigger, hproc _ hcne]
      exact hrun
  · have hex' : (k.trigger h).existing = s.existing := hex
    rw [hex']
    by_cases hac : a = s.curr h
    · exact Or.inr (hac ▸ hm.settled.curr_existing hh)
    · rw [procs_trigger, hproc a hac] at ha
      exact Or.inl ⟨ha, id⟩

/-- What parking does to the processes. -/
theorem procs_parked (s : Kernel) (t a : Nat) (w : WaitList) : (s.parked t w).procs a =
    if a = t then { s.procs t with state := w.state } else s.procs a := procs_setState _ t a w.state

/-- After a call, a hart whose process does not run has an interrupt pending. -/
theorem aware_call (hm : Steady s v) (hcall : Call T h (s, v) (s', v')) : Aware s' := by
  have hs := hm.settled
  have hex : ∀ l, s.started l = true → s.curr l ∈ s.existing := fun l hl => hs.curr_existing hl
  cases hcall with
  | trigger hb =>
    refine Aware.of_bare hb
      (hm.toAware.kept rfl (curr_trigger s h) (fun l hl => ?_) (fun l _ _ hrun => hrun)
      (Or.inl rfl) fun a ha => Or.inl ⟨ha, id⟩)
    rw [ssip_trigger] at hl
    split at hl
    · exact absurd hl (by simp)
    · exact hl
  | shell hh hb =>
    exact Aware.of_bare hb
      (hm.toAware.kept rfl rfl (fun _ => id) (fun _ _ _ => id) (Or.inr (hex h hh))
      fun a ha => Or.inl ⟨ha, id⟩)
  | pending pid hb =>
    refine Aware.of_bare hb
      (hm.toAware.kept rfl rfl (fun _ => id) (fun l _ _ hrun => ?_) (Or.inl rfl)
      fun a ha => Or.inl ⟨?_, id⟩)
    · rw [procs_modify]
      split <;> simp_all
    · rw [procs_modify] at ha
      split at ha <;> simp_all
  | char t c hb =>
    have hst := field_putChar Process.state (fun _ _ => rfl) s t c
    exact Aware.of_bare hb
      (hm.toAware.kept rfl rfl (fun _ => id) (fun l _ _ hrun => (hst _).trans hrun) (Or.inl rfl)
      fun a ha => Or.inl ⟨(hst a).symm.trans ha, id⟩)
  | park hh w hw hws hrun hpid hb =>
    refine Aware.of_bare hb (hm.left hh rfl rfl (fun _ => rfl) (fun a ha => ?_) rfl rfl)
    rw [procs_parked, if_neg ha]
  | sleep hh ticks hrun hpid hb =>
    refine Aware.of_bare hb (hm.left hh rfl rfl (fun _ => rfl) (fun a ha => ?_) rfl rfl)
    rw [procs_modify, if_neg ha, procs_parked, if_neg ha]
  | exit hh code xs hT hrun hpid hxs hb =>
    refine Aware.of_bare hb (hm.left hh rfl rfl (fun _ => rfl) (fun a ha => ?_) rfl rfl)
    refine (congrFun (field_adoptAll Process.state (fun _ => rfl) _ _ xs) a).trans ?_
    rw [procs_modify, if_neg ha, procs_parked, if_neg ha]
  | yield hh hrun hb =>
    refine Aware.of_bare hb (hm.left hh rfl rfl (fun _ => rfl) (fun a ha => ?_) rfl rfl)
    rw [procs_setState, if_neg ha]
  | wake hh t w hT hw hws ht hfree hb =>
    refine Aware.of_bare hb (hm.toAware.kept ?_ ?_ (fun l hl => ssip_preempt (s := woken s h t) hl)
      (fun l hl hl' hrun => ?_) (Or.inl ?_) fun a ha => Or.inl ⟨?_, ?_⟩)
    · exact rest_preempt Kernel.started (fun _ _ => rfl) (fun _ => rfl) _ t
    · exact rest_preempt Kernel.curr (fun _ _ => rfl) (fun x => curr_trigger x h) _ t
    · have hne := hm.not_waiting hl (ssip_preempt (s := woken s h t) hl') ht
      rw [field_preempt Process.state fun _ _ => rfl, procs_woken, if_neg hne]
      exact hrun
    · exact rest_preempt Kernel.shellPtr (fun _ _ => rfl) (fun _ => rfl) _ t
    · rw [field_preempt Process.state fun _ _ => rfl, procs_woken] at ha
      split at ha
      · exact absurd ha (by simp)
      · exact ha
    · rw [rest_preempt Kernel.existing (fun _ _ => rfl) (fun _ => rfl)]
      exact id
  | reap t hT ht hcurr hb =>
    refine Aware.of_bare hb
      (hm.toAware.kept rfl rfl (fun _ => id) (fun l _ _ hrun => hrun) (Or.inl rfl)
      fun a ha => Or.inl ⟨ha, fun hin => ?_⟩)
    have hne : a ≠ t := by
      rintro rfl
      have hst : (s.procs a).state = .zombie := (hs.valid.wait ht).1
      exact absurd (hst.symm.trans ha) (by simp)
    exact (hs.nodup.mem_erase_iff).mpr ⟨hne, hin⟩
  | steal hh t core hT ht hidle hb =>
    have hst :
      ∀ a, ((s.modify t fun p => { p with tf := { p.tf with kernelTp := h } }).procs a).state =
        (s.procs a).state := by
      intro a
      rw [procs_modify]
      split <;> simp_all
    exact Aware.of_bare hb (hm.left hh rfl rfl (fun _ => rfl) (fun a _ => hst a) rfl rfl)
  | spawn hh new pid priority image hT hrun hnew h0 hprio halive htake hk hb =>
    obtain ⟨-, bit, rfl⟩ := hk
    have hst := field_enroll Process.state (fun _ _ => rfl) { s with
      pidRegistry := Function.update s.pidRegistry bit true
      aliveThreadCounter := s.aliveThreadCounter + 1
      nextPid := pid + 1 } h new pid image priority
    have hrest : ∀ {α : Type} (g : Kernel → α), (∀ x p, g { x with procs := p } = g x) → _ :=
        fun g hg =>
      rest_enroll g hg { s with
        pidRegistry := Function.update s.pidRegistry bit true
        aliveThreadCounter := s.aliveThreadCounter + 1
        nextPid := pid + 1 } h new pid image priority
    refine Aware.of_bare hb (hm.toAware.kept (hrest Kernel.started fun _ _ => rfl)
      (hrest Kernel.curr fun _ _ => rfl) (fun l hl => ?_) (fun l hl _ hr => ?_)
      (Or.inl (hrest Kernel.shellPtr fun _ _ => rfl)) fun a ha =>
        Or.inl ⟨?_, List.mem_cons_of_mem _⟩)
    · have hq := hrest Kernel.queues fun _ _ => rfl
      rwa [show (born _ h new pid image priority).queues = s.queues from hq] at hl
    · have hne : s.curr l ≠ new := fun he => hnew (he ▸ hex l hl)
      exact (congrFun hst _).trans ((Function.update_of_ne hne ..).trans hr)
    · have ha' := (congrFun hst a).symm.trans ha
      rw [Function.update_apply] at ha'
      split at ha'
      · exact absurd ha' (by simp [newborn])
      · exact ha'
  | start idle hh h0 hidle =>
    have hne : ∀ l, s.started l = true → s.curr l ≠ idle := fun l hl he => hidle (he ▸ hex l hl)
    have hproc : ∀ a, a ≠ idle → (s.smpKmain h idle).procs a = s.procs a := fun a ha =>
      Function.update_of_ne ha ..
    have hself : ((s.smpKmain h idle).procs idle).state = .running := by
      simp [smpKmain, Kernel.modify]
    refine ⟨fun l hl hq => ?_, fun h0' hb => ?_⟩
    · by_cases hlh : l = h
      · have hc : (s.smpKmain h idle).curr l = idle := by
          simp [smpKmain, Kernel.curr, hlh]
        rw [hc]
        exact hself
      · have hl' : s.started l = true := by
          simpa [smpKmain, Kernel.modify, hlh] using hl
        have hc : (s.smpKmain h idle).curr l = s.curr l := by
          simp [smpKmain, Kernel.curr, Kernel.modify, hlh]
        have hq' : (s.queues l).ssip = false := by
          simpa [smpKmain, Kernel.modify, hlh] using hq
        rw [hc, hproc _ (hne l hl')]
        exact hm.runs l hl' hq'
    · have hshell : (s.smpKmain h idle).shellPtr = s.shellPtr := rfl
      rw [hshell] at h0' hb ⊢
      by_cases hsi : s.shellPtr = idle
      · rw [hsi, hself] at hb
        exact absurd hb (by simp)
      · rw [hproc _ hsi] at hb
        exact List.mem_cons_of_mem _ (hm.shell h0' hb)

/-- A call keeps the state steady. -/
theorem Steady.call (hm : Steady s v) (hcall : Calls T h (s, v) (s', v')) : Steady s' v' :=
  ⟨aware_call hm hcall.2.2, hcall.2.1⟩

/-- So does a series of calls. -/
theorem Steady.after {x y : Scene} (hm : Steady x.1 x.2)
    (hcalls : Relation.ReflTransGen (Calls T h) x y) :
    Steady y.1 y.2 := by
  induction hcalls with
  | refl => exact hm
  | tail _ hlast ih => exact ih.call hlast

/-! ## Software interrupts -/

/-- What is known within a software interrupt. -/
structure Handling (s : Kernel) (h : Nat) : Prop where
  runs : ∀ l, l ≠ h → s.started l = true → (s.queues l).ssip = false →
    (s.procs (s.curr l)).state = .running
  shell : s.shellPtr ≠ 0 → (s.procs s.shellPtr).state = .blocked → s.shellPtr ∈ s.existing

/-- Links do not matter within the handler either. -/
theorem Handling.of_bare (hb : s'.bare = k.bare) (hk : Handling k h) : Handling s' h := by
  have hbare : Handling k.bare h := ⟨hk.runs, hk.shell⟩
  rw [← hb] at hbare
  exact ⟨hbare.runs, hbare.shell⟩

/-- The handler begins with the tick. -/
theorem Handling.tick (ha : Aware s) (h : Nat) : Handling (s.tick h) h := by
  have hstate : ∀ a, ((s.tick h).procs a).state = (s.procs a).state := by
    intro a
    rw [procs_tick]
    split <;> rfl
  refine ⟨fun l hlh hl hq => ?_, fun h0 hb => ?_⟩
  · have hq' : (s.queues l).ssip = false := by
      simpa [Kernel.tick, Kernel.modify, Kernel.onQueue, hlh] using hq
    rw [curr_tick, hstate]
    exact ha.runs l hl hq'
  · rw [hstate] at hb
    exact ha.shell h0 hb

/-- One sleeper of the walk. -/
theorem Handling.nap (hs : Settled s v) (hk : Handling s h) (hnap : Nap T h (s, v) (s', v')) :
    Handling s' h := by
  cases hnap with
  | count t ht hlast hb =>
    have hstate : ∀ a, ((counted s t).procs a).state = (s.procs a).state := by
      intro a
      unfold counted
      rw [procs_modify]
      split
      · rename_i ha
        rw [ha]
      · rfl
    refine .of_bare hb ⟨fun l hlh hl hq => (hstate _).trans (hk.runs l hlh hl hq), fun h0 hbl => ?_⟩
    exact hk.shell h0 ((hstate _).symm.trans hbl)
  | wake t ht hlast hT hfree hb =>
    have hsleep : (s.procs t).state = .sleeping := (hs.valid.wait ht).1
    have hstate : ∀ a, (((woken (counted s t) h t).curtail h t).procs a).state =
        if a = t then .ready else (s.procs a).state := by
      intro a
      have hcurtail : (((woken (counted s t) h t).curtail h t).procs a).state =
          ((woken (counted s t) h t).procs a).state := by
        rw [procs_curtail]
        split <;> rfl
      rw [hcurtail, procs_woken]
      by_cases ha : a = t
      · rw [if_pos ha, if_pos ha]
      · rw [if_neg ha, if_neg ha]
        unfold counted
        rw [procs_modify, if_neg ha]
    have hrest : ∀ {α : Type} (g : Kernel → α), (∀ x p, g { x with procs := p } = g x) →
        g ((woken (counted s t) h t).curtail h t) = g s := fun g hp =>
      (rest_curtail g hp _ h t).trans ((hp _ _).trans ((hp _ _).trans (hp s _)))
    have hst := hrest Kernel.started fun _ _ => rfl
    have hc := hrest Kernel.curr fun _ _ => rfl
    have hqueues := hrest Kernel.queues fun _ _ => rfl
    have hshell := hrest Kernel.shellPtr fun _ _ => rfl
    have hex := hrest Kernel.existing fun _ _ => rfl
    refine .of_bare hb ⟨fun l hlh hl hq => ?_, fun h0 hbl => ?_⟩
    · rw [hst] at hl
      rw [hqueues] at hq
      have hrun := hk.runs l hlh hl hq
      have hne : s.curr l ≠ t := by
        intro he
        rw [he, hsleep] at hrun
        exact absurd hrun (by simp)
      rw [hc, hstate, if_neg hne]
      exact hrun
    · rw [hshell] at h0 hbl ⊢
      rw [hstate] at hbl
      split at hbl
      · exact absurd hbl (by simp)
      · rw [hex]
        exact hk.shell h0 hbl
  | alarm hb hem => exact .of_bare hb ⟨hk.runs, hk.shell⟩

/-- The whole walk. -/
theorem Handling.naps {x y : Scene} (hk : Handling x.1 h)
    (hnaps : Relation.ReflTransGen (Naps T h) x y) :
    Handling y.1 h := by
  induction hnaps with
  | refl => exact hk
  | tail _ hlast ih => exact Handling.nap hlast.1 ih hlast.2.2

/-- What putting back does to the processes. -/
theorem procs_refilled (s : Kernel) (h a : Nat) : (refilled s h).procs a =
    if a = s.curr h ∧ (s.procs a).state = .running then
      { s.procs a with state := .ready, ticksLeft := (s.procs a).timeSlice }
    else s.procs a := by
  unfold refilled
  by_cases hr : (s.procs (s.curr h)).state = .running
  · rw [if_pos hr, procs_modify]
    by_cases ha : a = s.curr h
    · rw [if_pos ha, if_pos ⟨ha, ha ▸ hr⟩, ha]
    · rw [if_neg ha, if_neg fun hac => ha hac.1]
  · have hnone : ¬ (a = s.curr h ∧ (s.procs a).state = .running) := by
      rintro ⟨rfl, hrun⟩
      exact hr hrun
    rw [if_neg hr, if_neg hnone]

/-- It leaves the rest of the kernel alone. -/
theorem rest_refilled {α : Type} (g : Kernel → α) (hp : ∀ x p, g { x with procs := p } = g x)
    (s : Kernel) (h : Nat) : g (refilled s h) = g s := by
  unfold refilled
  split
  · exact hp s _
  · rfl

/-- What a dispatch does to the processes. -/
theorem procs_dispatched (s : Kernel) (h x a : Nat) : (dispatched s h x).procs a =
    if a = x then { (refilled s h).procs x with state := .running } else (refilled s h).procs a :=
  procs_setState _ x a .running

/-- It changes the turn of its own hart. -/
theorem curr_dispatched (s : Kernel) (h x l : Nat) :
    (dispatched s h x).curr l = if l = h then x else s.curr l := by
  have hqueues := rest_refilled Kernel.queues (fun _ _ => rfl) s h
  show (((refilled s h).setCurr h x).queues l).currProcess = _
  by_cases hl : l = h
  · subst hl
    simp [Kernel.setCurr, Kernel.onQueue]
  · rw [if_neg hl]
    have hq : ((refilled s h).setCurr h x).queues l = (refilled s h).queues l :=
      Function.update_of_ne hl ..
    rw [hq, hqueues]
    rfl

/-- It starts no timer. -/
theorem ssip_dispatched (s : Kernel) (h x l : Nat) :
    ((dispatched s h x).queues l).ssip = (s.queues l).ssip := by
  have hqueues := rest_refilled Kernel.queues (fun _ _ => rfl) s h
  show (((refilled s h).setCurr h x).queues l).ssip = _
  by_cases hl : l = h
  · subst hl
    simp [Kernel.setCurr, Kernel.onQueue, hqueues]
  · have hq : ((refilled s h).setCurr h x).queues l = (refilled s h).queues l :=
      Function.update_of_ne hl ..
    rw [hq, hqueues]

/-- The dispatch ends the handler. -/
theorem Handling.dispatch (hk : Handling s h) (hh : s.started h = true) {x : Nat}
    (hd : Dispatched h x s v s') : Aware s' := by
  have hs := hd.before
  have hst : (dispatched s h x).started = s.started :=
    rest_refilled Kernel.started (fun _ _ => rfl) s h
  have hshell : (dispatched s h x).shellPtr = s.shellPtr :=
    rest_refilled Kernel.shellPtr (fun _ _ => rfl) s h
  have hex : (dispatched s h x).existing = s.existing :=
    rest_refilled Kernel.existing (fun _ _ => rfl) s h
  obtain ⟨i, hx⟩ := hd.chosen.own
  have hx := (mem_rotated _ _).mp hx
  refine Aware.of_bare hd.bare ⟨fun l hl hq => ?_, fun h0 hb => ?_⟩
  · rw [hst] at hl
    rw [ssip_dispatched] at hq
    rw [curr_dispatched, procs_dispatched]
    by_cases hlh : l = h
    · rw [if_pos hlh, if_pos rfl]
    · have hcx : s.curr l ≠ x := by
        rintro rfl
        exact hlh (hs.valid.home hl hx).symm
      have hcc : s.curr l ≠ s.curr h := fun he => hlh (hs.valid.alone hl hh he)
      rw [if_neg hlh, if_neg hcx, procs_refilled, if_neg fun hac => hcc hac.1]
      exact hk.runs l hlh hl hq
  · rw [hshell] at h0 hb ⊢
    rw [hex]
    rw [procs_dispatched] at hb
    split at hb
    · exact absurd hb (by simp)
    · rw [procs_refilled] at hb
      split at hb
      · exact absurd hb (by simp)
      · exact hk.shell h0 hb

/-- What a careful event does to the machine and its places. -/
inductive Course (m : Machine) (v : Place → List Nat) : Event → Machine → (Place → List Nat) → Prop
  | calls {e : Event} {m' : Machine} {v' : Place → List Nat} (hne : ∀ h, e ≠ .softInterrupt h)
      (hcalls : Relation.ReflTransGen (Calls (m.Touches e) e.hart) (m.kernel, v) (m'.kernel, v')) :
      Course m v e m' v'
  | stays {h : Nat} {m₁ : Machine} {v₁ : Place → List Nat} (hp : Prepared m h v m₁ v₁)
      (hdue : ¬ m₁.Due h) : Course m v (.softInterrupt h) m₁ v₁
  | dispatches {h x : Nat} {m₁ : Machine} {v₁ : Place → List Nat} {s' : Kernel}
      (hp : Prepared m h v m₁ v₁) (hdue : m₁.Due h) (hrun : m₁.kernel.schedule h = .done () s')
      (hd : Dispatched h x m₁.kernel v₁ s') :
      Course m v (.softInterrupt h) (m₁.withKernel s') (rotated m₁.kernel h v₁)

/-- A hart is up after a software interrupt as before. -/
theorem Prepared.up {m₁ : Machine} {v₁ : Place → List Nat} (hp : Prepared m h v m₁ v₁)
    (hl : m.kernel.started n = true) : m₁.kernel.started n = true := by
  rw [hp.rest Kernel.started (fun _ => rfl) (fun _ _ => rfl) (fun _ _ => rfl) rfl]
  exact hl

/-- A careful tick goes through and keeps the state steady. -/
theorem Steady.softInterrupt (hm : Steady m.kernel v) (hh : m.kernel.started h = true)
    (hc : m.Careful (.softInterrupt h)) :
    ∃ m' v', m.softInterrupt h = .done () m' ∧ Course m v (.softInterrupt h) m' v' ∧
      Steady m'.kernel v' := by
  obtain ⟨m₁, v₁, hp, hend⟩ := hm.settled.softInterrupt hh hc
  have hk : Handling m₁.kernel h := Handling.naps (Handling.tick hm.toAware h) hp.naps
  rcases hend with ⟨hdue, hrun⟩ | ⟨hdue, s', x, hsched, hrun, hd⟩
  · refine ⟨m₁, v₁, hrun, .stays hp hdue, ⟨⟨fun l hl hq => ?_, hk.shell⟩, hp.settled⟩⟩
    by_cases hlh : l = h
    · unfold Machine.Due at hdue
      rw [hlh]
      exact not_not.mp fun hst => hdue (Or.inr hst)
    · exact hk.runs l hlh hl hq
  · exact ⟨_, rotated m₁.kernel h v₁, hrun, .dispatches hp hdue hsched hd,
      ⟨hk.dispatch (hp.up hh) hd, hd.after⟩⟩

/-! ## Runs -/

/-- A step is enabled and comes to its end. -/
theorem Machine.step_eq_some : m.step e = some m' ↔ m.Enabled e ∧ m.exec e = .done () m' := by
  unfold Machine.step
  split
  · rename_i he
    constructor
    · intro hstep
      refine ⟨he, ?_⟩
      cases hexec : m.exec e with
      | done a k =>
        rw [hexec] at hstep
        exact congrArg (Outcome.done a) (Option.some.inj hstep)
      | panic c x k =>
        rw [hexec] at hstep
        exact absurd hstep (by simp [Outcome.returned])
      | spin k =>
        rw [hexec] at hstep
        exact absurd hstep (by simp [Outcome.returned])
    · rintro ⟨-, hexec⟩
      rw [hexec]
      rfl
  · rename_i hno
    exact ⟨fun hstep => absurd hstep (by simp), fun hstep => absurd hstep.1 hno⟩

/-- A careful event leaves harts out of each other's way. -/
theorem Steady.course (hm : Steady m.kernel v) (hc : m.Careful e) (hstep : m.step e = some m') :
    ∃ v', Course m v e m' v' ∧ Steady m'.kernel v' := by
  obtain ⟨he, hrun⟩ := Machine.step_eq_some.mp hstep
  by_cases hsoft : ∃ h, e = .softInterrupt h
  · obtain ⟨h, rfl⟩ := hsoft
    obtain ⟨k, v', hdone, hcourse, hk⟩ := hm.softInterrupt he.1 hc
    cases hdone.symm.trans hrun
    exact ⟨v', hcourse, hk⟩
  · have hne : ∀ h, e ≠ .softInterrupt h := fun h he' => hsoft ⟨h, he'⟩
    obtain ⟨v', hcalls⟩ := hm.calls he hc hne hrun
    exact ⟨v', .calls hne hcalls, hm.after hcalls⟩

/-- A careful event keeps the state steady. -/
theorem Steady.step (hm : Steady m.kernel v) (hc : m.Careful e) (hstep : m.step e = some m') :
    ∃ v', Steady m'.kernel v' := by
  obtain ⟨v', -, hm'⟩ := hm.course hc hstep
  exact ⟨v', hm'⟩

/-- It is steady after the start. -/
theorem steady_booted (procs : Nat → Process) (harts : Nat) (h0 : idle ≠ 0) :
    ∃ v, Steady (booted procs harts idle).kernel v := by
  obtain ⟨v, hs⟩ := settled_booted procs harts h0
  refine ⟨v, ⟨fun l hl _ => ?_, fun h0 _ => absurd rfl h0⟩, hs⟩
  have hl0 : l = 0 := beq_iff_eq.mp hl
  subst hl0
  simp [booted, schedulerInit, Kernel.modify, Kernel.curr]

/-- The harts keep out of each other's way through every run of careful events. -/
theorem steady_run {procs : Nat → Process} {g : List (Machine × Event)} (h0 : idle ≠ 0)
    (hr : Run Machine.step (booted procs harts idle) g m) (hc : Run.Steps Machine.Careful g) :
    ∃ v, Steady m.kernel v :=
  hr.invariant (I := fun m => ∃ v, Steady m.kernel v) hc (steady_booted procs harts h0)
    fun _ _ _ ⟨_, hs⟩ ha hstep => hs.step ha hstep

end RexOS.Smp
