import RexOS.Smp.Effects

/-!
# Single sleepers

What a software interrupt does to one process before it reschedules. A sleeper is counted down once.
The process of the hart loses its slice where one of smaller priority number wakes up.
-/

namespace RexOS.Smp

open Scheduler Kernel

variable {T : Touch → Nat → Prop} {s s' k : Kernel} {v v' : Place → List Nat} {h a t u : Nat}
  {w : WaitList} {r : List Nat}

/-! ## One sleeper -/

/-- One sleeper of the walk leaves the rest of the kernel alone. -/
theorem rest_napped {α : Type} (g : Kernel → α) (hp : ∀ x p, g { x with procs := p } = g x)
    (h : Nat) (s : Kernel) (t : Nat) : g (napped h s t) = g s := by
  unfold napped
  split
  · exact (rest_curtail g hp _ h t).trans ((hp _ _).trans ((hp _ _).trans (hp s _)))
  · exact hp s _

/-- What counting down does to the processes. -/
theorem procs_counted (s : Kernel) (t a : Nat) : (counted s t).procs a =
    if a = t then { s.procs t with ticksLeft := countDown (s.procs t).ticksLeft } else s.procs a :=
  procs_modify s t a _

/-- A sleeper has one tick less, and is ready where that was the last one. -/
theorem napped_self (h : Nat) (s : Kernel) (t : Nat) :
    ((napped h s t).procs t).ticksLeft = countDown (s.procs t).ticksLeft ∧
      ((napped h s t).procs t).state = if LastTick s t then .ready else (s.procs t).state := by
  unfold napped
  by_cases hlast : LastTick s t
  · have hself :
      ¬ (t = (woken (counted s t) h t).curr h ∧ ((woken (counted s t) h t).procs t).priority <
        ((woken (counted s t) h t).procs ((woken (counted s t) h t).curr h)).priority) := by
      rintro ⟨hc, hlt⟩
      rw [← hc] at hlt
      exact Nat.lt_irrefl _ hlt
    rw [if_pos hlast, if_pos hlast, procs_curtail, if_neg hself, procs_woken,
      if_pos rfl, procs_counted, if_pos rfl]
    exact ⟨rfl, rfl⟩
  · rw [if_neg hlast, if_neg hlast, procs_counted, if_pos rfl]
    exact ⟨rfl, rfl⟩

/-- Others are left alone. -/
theorem napped_apart (hat : a ≠ t) (hac : a ≠ s.curr h) : (napped h s t).procs a = s.procs a := by
  have hcount : (counted s t).procs a = s.procs a := by
    rw [procs_counted, if_neg hat]
  unfold napped
  split
  · have hc : (woken (counted s t) h t).curr h = s.curr h := rfl
    rw [procs_curtail, hc, if_neg fun hx => hac hx.1, procs_woken, if_neg hat, hcount]
  · exact hcount

/-- But the process of the hart is pushed aside by one of smaller priority number. -/
theorem napped_curr (hct : s.curr h ≠ t) : (napped h s t).procs (s.curr h) =
    if LastTick s t ∧ (s.procs t).priority < (s.procs (s.curr h)).priority then
      { s.procs (s.curr h) with ticksLeft := 0 }
    else s.procs (s.curr h) := by
  have hcount : (counted s t).procs (s.curr h) = s.procs (s.curr h) := by
    rw [procs_counted, if_neg hct]
  unfold napped
  by_cases hlast : LastTick s t
  · have hc : (woken (counted s t) h t).curr h = s.curr h := rfl
    have hwoken : (woken (counted s t) h t).procs (s.curr h) = s.procs (s.curr h) := by
      rw [procs_woken, if_neg hct, hcount]
    have hprio : ((woken (counted s t) h t).procs t).priority = (s.procs t).priority := by
      rw [procs_woken, if_pos rfl, procs_counted, if_pos rfl]
    rw [if_pos hlast, procs_curtail, hc, hwoken, hprio]
    by_cases hlt : (s.procs t).priority < (s.procs (s.curr h)).priority
    · rw [if_pos ⟨rfl, hlt⟩, if_pos ⟨hlast, hlt⟩]
    · rw [if_neg fun hx => hlt hx.2, if_neg fun hx => hlt hx.2]
  · rw [if_neg hlast, if_neg fun hx => hlast hx.1, hcount]

/-- A field that is no tick, state or trapframe. -/
theorem field_napped {α : Type} (g : Process → α)
    (hg : ∀ x st n tf, g { x with state := st, ticksLeft := n, tf := tf } = g x)
    (h : Nat) (s : Kernel)
    (t a : Nat) : g ((napped h s t).procs a) = g (s.procs a) := by
  have hcount : g ((counted s t).procs a) = g (s.procs a) := by
    rw [procs_counted]
    split
    · rename_i hat
      rw [hat]
      exact hg _ _ _ _
    · rfl
  unfold napped
  split
  · have hwoken := field_woken g (fun x st tf => hg x st x.ticksLeft tf) (counted s t) h t a
    rw [procs_curtail]
    split
    · exact (hg _ _ 0 _).trans (hwoken.trans hcount)
    · exact hwoken.trans hcount
  · exact hcount

/-! ## All sleepers -/

/-- A process that does not sleep and is not current stays as it is. -/
theorem nappedAll_apart (har : a ∉ r) (hac : a ≠ s.curr h) :
    (nappedAll h s r).procs a = s.procs a := by
  induction r generalizing s with
  | nil => rfl
  | cons t r ih =>
    obtain ⟨hat, har⟩ := List.ne_and_not_mem_of_not_mem_cons har
    have hc := rest_napped Kernel.curr (fun _ _ => rfl) h s t
    exact (ih (s := napped h s t) har (hc ▸ hac)).trans (napped_apart hat hac)

/-- Each sleeper counts down, and wakes at its last tick. -/
theorem nappedAll_sleeper (hr : r.Nodup) (ha : a ∈ r) (hac : a ≠ s.curr h) :
    ((nappedAll h s r).procs a).ticksLeft = countDown (s.procs a).ticksLeft ∧
      ((nappedAll h s r).procs a).state = if LastTick s a then .ready else (s.procs a).state := by
  induction r generalizing s with
  | nil => exact absurd ha List.not_mem_nil
  | cons t r ih =>
    obtain ⟨htr, hr⟩ := List.nodup_cons.mp hr
    have hc := rest_napped Kernel.curr (fun _ _ => rfl) h s t
    show ((nappedAll h (napped h s t) r).procs a).ticksLeft = _ ∧
      ((nappedAll h (napped h s t) r).procs a).state = _
    by_cases hat : a = t
    · subst hat
      rw [nappedAll_apart htr (hc ▸ hac)]
      exact napped_self h s a
    · have hsame := napped_apart hat hac
      have hlast : LastTick (napped h s t) a ↔ LastTick s a := by
        unfold LastTick
        rw [hsame]
      have hrest := ih (s := napped h s t) hr ((List.mem_cons.mp ha).resolve_left hat) (hc ▸ hac)
      simpa only [hlast, hsame] using hrest

/-- The process of the hart, where it does not sleep itself. -/
theorem nappedAll_curr (hr : r.Nodup) (hcr : s.curr h ∉ r) : (nappedAll h s r).procs (s.curr h) =
    if ∃ u ∈ r, LastTick s u ∧ (s.procs u).priority < (s.procs (s.curr h)).priority then
      { s.procs (s.curr h) with ticksLeft := 0 }
    else s.procs (s.curr h) := by
  induction r generalizing s with
  | nil =>
    rw [if_neg fun ⟨u, hu, _⟩ => List.not_mem_nil hu]
    rfl
  | cons t r ih =>
    obtain ⟨htr, hr⟩ := List.nodup_cons.mp hr
    obtain ⟨hct, hcr⟩ := List.ne_and_not_mem_of_not_mem_cons hcr
    have hc : (napped h s t).curr h = s.curr h :=
      congrFun (rest_napped Kernel.curr (fun _ _ => rfl) h s t) h
    have hrest := ih (s := napped h s t) hr (hc ▸ hcr)
    rw [hc] at hrest
    have hprio : ((napped h s t).procs (s.curr h)).priority = (s.procs (s.curr h)).priority := by
      rw [napped_curr hct]
      split <;> rfl
    have hsame : ∀ u ∈ r, (LastTick (napped h s t) u ∧ ((napped h s t).procs u).priority <
        ((napped h s t).procs (s.curr h)).priority) ↔
        LastTick s u ∧ (s.procs u).priority < (s.procs (s.curr h)).priority := by
      intro u hu
      have hut : u ≠ t := fun he => htr (he ▸ hu)
      have huc : u ≠ s.curr h := fun he => hcr (he ▸ hu)
      rw [hprio]
      unfold LastTick
      rw [napped_apart hut huc]
    have hany : (∃ u ∈ r, LastTick (napped h s t) u ∧ ((napped h s t).procs u).priority <
        ((napped h s t).procs (s.curr h)).priority) ↔
        ∃ u ∈ r, LastTick s u ∧ (s.procs u).priority < (s.procs (s.curr h)).priority :=
      exists_congr fun u => and_congr_right (hsame u)
    show (nappedAll h (napped h s t) r).procs (s.curr h) = _
    rw [hrest]
    by_cases hex : ∃ u ∈ r, LastTick s u ∧ (s.procs u).priority < (s.procs (s.curr h)).priority
    · obtain ⟨u, hu, hx⟩ := hex
      rw [if_pos (hany.mpr ⟨u, hu, hx⟩), if_pos ⟨u, List.mem_cons_of_mem _ hu, hx⟩, napped_curr hct]
      split <;> rfl
    · rw [if_neg fun hx => hex (hany.mp hx), napped_curr hct]
      by_cases ht : LastTick s t ∧ (s.procs t).priority < (s.procs (s.curr h)).priority
      · rw [if_pos ht, if_pos ⟨t, List.mem_cons_self, ht⟩]
      · rw [if_neg ht, if_neg]
        rintro ⟨u, hu, hx⟩
        rcases List.mem_cons.mp hu with rfl | hu
        · exact ht hx
        · exact hex ⟨u, hu, hx⟩

/-- A field of a process before the hart reschedules. -/
theorem Prepared.proc {α : Type} {m m₁ : Machine} {v₁ : Place → List Nat} (g : Process → α)
    (hl : ∀ x n p, g { x with next := n, prev := p } = g x) (hp : Prepared m h v m₁ v₁) (a : Nat) :
    g (m₁.kernel.procs a) = g ((nappedAll h (m.kernel.tick h) (v (.wait .sleeping))).procs a) :=
  (field_bare (fun x => g (x.procs a)) (fun x => hl (x.procs a) 0 0) hp.bare).trans rfl

/-- The sleepers are different. -/
theorem Settled.sleepers_nodup (hs : Settled s v) : (v (.wait .sleeping)).Nodup :=
  (hs.threaded.dll .sleeping).nodup

/-- A sleeper that no hart runs is not touched by calls. -/
theorem Call.sleeper (hs : Settled s v) (hc : Call T h (s, v) (s', v'))
    (ha : a ∈ v (.wait .sleeping))
    (hup : s.started h = true) (hac : a ≠ s.curr h) :
    a ∈ v' (.wait .sleeping) ∧ (s'.procs a).ticksLeft = (s.procs a).ticksLeft := by
  have hbare : ∀ {k : Kernel}, s'.bare = k.bare → (k.procs a).ticksLeft = (s.procs a).ticksLeft →
      (s'.procs a).ticksLeft = (s.procs a).ticksLeft := fun hb hk =>
    (field_bare (fun x => (x.procs a).ticksLeft) (fun _ => rfl) hb).trans hk
  have hparked : ∀ w, ((s.parked (s.curr h) w).procs a).ticksLeft = (s.procs a).ticksLeft := by
    intro w
    rw [procs_parked, if_neg hac]
  have hmem : ∀ (hon : (s.procs (s.curr h)).OnCircle) w,
      a ∈ parkedPlaces s v h (s.curr h) w (.wait .sleeping) :=
    fun hon w => (hs.mem_parkedPlaces (hs.curr_mem hup hon) w _ a).mpr (Or.inr ⟨hac, ha⟩)
  cases hc with
  | trigger hb => exact ⟨ha, hbare hb rfl⟩
  | shell hh hb => exact ⟨ha, hbare hb rfl⟩
  | pending pid hb =>
    refine ⟨ha, hbare hb ?_⟩
    rw [procs_modify, if_neg hac]
  | char t c hb => exact ⟨ha, hbare hb (field_putChar Process.ticksLeft (fun _ _ => rfl) s t c a)⟩
  | park hh w hw hws hrun hpid hb => exact ⟨hmem (Or.inr hrun) w, hbare hb (hparked w)⟩
  | sleep hh ticks hrun hpid hb =>
    refine ⟨hmem (Or.inr hrun) .sleeping, hbare hb ?_⟩
    rw [procs_trigger, procs_modify, if_neg hac]
    exact hparked .sleeping
  | exit hh code xs hT hrun hpid hxs hb =>
    refine ⟨hmem (Or.inr hrun) .zombie,
      hbare hb ((congrFun (field_adoptAll Process.ticksLeft (fun _ => rfl) _ _ xs) a).trans ?_)⟩
    rw [procs_modify, if_neg hac]
    exact hparked .zombie
  | yield hh hrun hb =>
    refine ⟨ha, hbare hb ?_⟩
    rw [procs_trigger, procs_setState, if_neg hac]
  | wake hh t w hT hw hws ht hfree hb =>
    have hat : a ≠ t := by
      rintro rfl
      exact hws (Place.wait.inj (hs.valid.apart ht ha))
    refine ⟨(hs.mem_wokenPlaces ht h _ a).mpr (Or.inr ⟨hat, ha⟩), hbare hb ?_⟩
    have hcurr : (woken s h t).curr h = s.curr h := rfl
    rw [procs_preempt, hcurr, if_neg fun hx => hac hx.1, procs_woken, if_neg hat]
  | reap t hT ht hcurr hb =>
    have hat : a ≠ t := by
      rintro rfl
      exact absurd (hs.valid.apart ht ha) (by simp)
    exact ⟨(hs.threaded.mem_erased ht _ a).mpr ⟨hat, ha⟩, hbare hb rfl⟩
  | steal hh t core hT ht hidle hb =>
    have hat : a ≠ t := by
      rintro rfl
      obtain ⟨i, -, hmem⟩ := ht.mem
      exact absurd (hs.valid.apart hmem ha) (by simp)
    refine ⟨(hs.mem_stolenPlaces ht _ a).mpr (Or.inr ⟨hat, ha⟩), hbare hb ?_⟩
    rw [procs_trigger, procs_modify, if_neg hat]
  | spawn hh new pid priority image hT hrun hnew h0 hprio halive htake hk hb =>
    obtain ⟨-, bit, rfl⟩ := hk
    have hat : a ≠ new := fun he => hnew (he ▸ hs.mem_existing ha)
    exact ⟨(mem_bornPlaces v h new priority _ a).mpr (Or.inr ha), hbare hb ((congrFun (field_enroll
      Process.ticksLeft (fun _ _ => rfl) _ h new pid image priority) a).trans
        (Function.update_of_ne hat ..))⟩
  | start idle hh h0 hidle =>
    rw [hup] at hh
    exact absurd hh (by simp)

/-! ## Dispatches -/

/-- What sleeps is not dispatched. -/
theorem Dispatched.sleeper {x : Nat} (hd : Dispatched h x s v s')
    (hst : (s.procs a).state = .sleeping) :
    (s'.procs a).state = .sleeping ∧ (s'.procs a).ticksLeft = (s.procs a).ticksLeft ∧
      s'.curr h ≠ a := by
  have hback : (refilled s h).procs a = s.procs a := by
    rw [procs_refilled, if_neg]
    rintro ⟨-, hrun⟩
    rw [hst] at hrun
    exact absurd hrun (by simp)
  have hax : a ≠ x := by
    rintro rfl
    have hready := hd.ready
    rw [hback, hst] at hready
    exact absurd hready (by simp)
  have hproc : (dispatched s h x).procs a = s.procs a := by
    rw [procs_dispatched, if_neg hax, hback]
  have hcurr : s'.curr h = x := (congrFun (field_bare Kernel.curr (fun _ => rfl) hd.bare) h).trans
    ((curr_dispatched s h x h).trans (if_pos rfl))
  refine ⟨(field_bare (fun y => (y.procs a).state) (fun _ => rfl) hd.bare).trans ?_,
    (field_bare (fun y => (y.procs a).ticksLeft) (fun _ => rfl) hd.bare).trans ?_, fun he => ?_⟩
  · rw [hproc, hst]
  · rw [hproc]
  · exact hax (he.symm.trans hcurr)

/-- What is ready stays on its circle. -/
theorem Dispatched.onCircle {x : Nat} (hd : Dispatched h x s v s')
    (hst : (s.procs a).state = .ready) :
    (s'.procs a).OnCircle := by
  have hback : (refilled s h).procs a = s.procs a := by
    rw [procs_refilled, if_neg]
    rintro ⟨-, hrun⟩
    rw [hst] at hrun
    exact absurd hrun (by simp)
  have hstate := field_bare (fun y => (y.procs a).state) (fun _ => rfl) hd.bare
  unfold Process.OnCircle
  rw [hstate, procs_dispatched]
  split
  · exact Or.inr rfl
  · rw [hback]
    exact Or.inl hst

end RexOS.Smp
