import RexOS.Smp.Effects
import RexOS.Smp.Slice

/-!
# Parents

`exit_process` gives the children of the process that ends to the idle process, but it looks for
them on the circles of its own hart only, once for each hart. Where none is on the circles of
another hart, every process keeps a parent that has not exited, or the idle process.
-/

namespace RexOS.Smp

open Scheduler Kernel

variable {procs : Nat → Process} {T : Touch → Nat → Prop} {s s' : Kernel} {v v' : Place → List Nat}
  {a h idle harts : Nat} {m m' : Machine} {e : Event} {g : List (Machine × Event)}

/-- Every process has the idle process as its parent, or one that has not exited. -/
def Parented (s : Kernel) : Prop :=
  ∀ a ∈ s.existing, (s.procs a).parentPid = 0 ∨
    ∃ b ∈ s.existing, (s.procs b).state ≠ .zombie ∧ (s.procs b).pid = (s.procs a).parentPid

/-- What does not end keeps its pid, and what has a parent has the one it had, the idle process, or
one that does not end. -/
structure Familiar (s s' : Kernel) : Prop where
  alive : ∀ b ∈ s.existing, (s.procs b).state ≠ .zombie →
    b ∈ s'.existing ∧ (s'.procs b).state ≠ .zombie ∧ (s'.procs b).pid = (s.procs b).pid
  parent : ∀ a ∈ s'.existing, a ∈ s.existing ∧ (s'.procs a).parentPid = (s.procs a).parentPid ∨
    (s'.procs a).parentPid = 0 ∨
    ∃ b ∈ s.existing, (s.procs b).state ≠ .zombie ∧ (s.procs b).pid = (s'.procs a).parentPid

/-- Parents stay as long as nobody exits and nobody gets another one. -/
theorem Parented.next (hp : Parented s) (hf : Familiar s s') : Parented s' := by
  have hkeep : ∀ {x}, (∃ b ∈ s.existing, (s.procs b).state ≠ .zombie ∧ (s.procs b).pid = x) →
      ∃ b ∈ s'.existing, (s'.procs b).state ≠ .zombie ∧ (s'.procs b).pid = x := by
    rintro x ⟨b, hb, hst, rfl⟩
    obtain ⟨hb', hst', hpid⟩ := hf.alive b hb hst
    exact ⟨b, hb', hst', hpid⟩
  intro a ha
  rcases hf.parent a ha with ⟨hin, hsame⟩ | hzero | hnew
  · rw [hsame]
    exact (hp a hin).imp_right hkeep
  · exact Or.inl hzero
  · exact Or.inr (hkeep hnew)

/-! ## Calls -/

/-- The parent of a new process is the process of the hart, or the idle process. -/
theorem Call.parent (hc : Call T h (s, v) (s', v')) (ha : a ∈ s'.existing) (hno : a ∉ s.existing) :
    (s'.procs a).parentPid = 0 ∨ s.started h = true ∧ (s.procs (s.curr h)).state = .running ∧
      (s'.procs a).parentPid = (s.procs (s.curr h)).pid := by
  cases hc with
  | trigger hb | shell _ hb | pending _ hb | char _ _ hb | park _ _ _ _ _ _ hb | sleep _ _ _ _ hb
  | exit _ _ _ _ _ _ _ hb | yield _ _ hb | steal _ _ _ _ _ _ hb =>
    have he := field_bare Kernel.existing (fun _ => rfl) hb
    exact absurd (he ▸ ha) hno
  | wake hh t w hT hw hws ht hfree hb =>
    have he := (field_bare Kernel.existing (fun _ => rfl) hb).trans
      (rest_preempt Kernel.existing (fun _ _ => rfl) (fun _ => rfl) _ t)
    exact absurd (he ▸ ha) hno
  | reap t hT ht hcurr hb =>
    have he : s'.existing = s.existing.erase t :=
      (field_bare Kernel.existing (fun _ => rfl) hb).trans rfl
    rw [he] at ha
    exact absurd (List.mem_of_mem_erase ha) hno
  | spawn hh new pid priority image hT hrun hnew h0 hprio halive htake hk hb =>
    obtain ⟨-, bit, rfl⟩ := hk
    have he : s'.existing = new :: s.existing :=
      (field_bare Kernel.existing (fun _ => rfl) hb).trans rfl
    rw [he] at ha
    obtain rfl := (List.mem_cons.mp ha).resolve_right hno
    have hp := (field_bare (fun x => (x.procs a).parentPid) (fun _ => rfl) hb).trans
      ((congrFun (field_enroll Process.parentPid (fun _ _ => rfl) _ h a pid image priority) a).trans
        (Function.update_self ..))
    rw [hp]
    unfold newborn
    dsimp only
    split
    · exact Or.inr ⟨hh, hrun, rfl⟩
    · exact Or.inl rfl
  | start idle hh h0 hidle =>
    obtain rfl := (List.mem_cons.mp ha).resolve_right hno
    exact Or.inl (by simp [smpKmain, Kernel.modify])

/-- A process is a zombie exactly when it is on the list of them. -/
theorem Settled.zombie_iff (hs : Settled s v) (ha : a ∈ s.existing) :
    (s.procs a).state = .zombie ↔ a ∈ v (.wait .zombie) :=
  ⟨hs.mem_wait (w := .zombie) ha, fun hz => (hs.valid.wait hz).1⟩

/-- A call that ends nothing. -/
theorem Call.familiar (hs : Settled s v) (hs' : Settled s' v') (hno : ∀ t, ¬ T .exit t)
    (hc : Call T h (s, v) (s', v')) : Familiar s s' := by
  constructor
  · intro b hb hst
    have hb' : b ∈ s'.existing := by
      rcases hc.existing with he | ⟨t, ht, -, -, he⟩ | ⟨new, -, he⟩
      · exact he ▸ hb
      · have hne : b ≠ t := by
          rintro rfl
          exact hst (hs.valid.wait ht).1
        exact he ▸ (List.mem_erase_of_ne hne).mpr hb
      · exact he ▸ List.mem_cons_of_mem _ hb
    refine ⟨hb', fun hz => hst ((hs.zombie_iff hb).mpr (hc.zombie hs hno ?_)), ?_⟩
    · exact (hs'.zombie_iff hb').mp hz
    · exact hc.field Process.pid (fun _ _ _ _ _ _ _ => rfl) (fun _ _ _ => rfl)
        (Or.inl fun _ => rfl) hb
  · intro a ha
    by_cases hin : a ∈ s.existing
    · exact Or.inl ⟨hin, hc.field Process.parentPid (fun _ _ _ _ _ _ _ => rfl) (fun _ _ _ => rfl)
        (Or.inr hno) hin⟩
    · refine Or.inr ((hc.parent ha hin).imp_right fun ⟨hh, hrun, hp⟩ => ?_)
      exact ⟨s.curr h, hs.curr_existing hh, by rw [hrun]; simp, hp.symm⟩

/-- Calls without an exit keep the parents. -/
theorem Parented.calls {x y : Scene} (hp : Parented x.1) (hno : ∀ t, ¬ T .exit t)
    (hc : Relation.ReflTransGen (Calls T h) x y) : Parented y.1 := by
  induction hc with
  | refl => exact hp
  | tail _ hlast ih => exact ih.next (hlast.2.2.familiar hlast.1 hlast.2.1 hno)

/-! ## Exit -/

/-- What an event does that ends a process. -/
theorem Steady.exits (hm : Steady m.kernel v) {t : Nat} (ht : m.Touches e .exit t)
    (hstep : m.step e = some m') :
    t = m.kernel.curr e.hart ∧ m.kernel.started e.hart = true ∧
      (m.kernel.procs t).state = .running ∧ ∃ code xs,
        m'.kernel.bare = (exited m.kernel e.hart code xs).bare ∧
        ∀ a, a ∈ xs ↔ (∃ i < 32, a ∈ parkedPlaces m.kernel v e.hart t .zombie (.circle e.hart i)) ∨
          ∃ w, a ∈ parkedPlaces m.kernel v e.hart t .zombie (.wait w) := by
  obtain ⟨he, hrun⟩ := Machine.step_eq_some.mp hstep
  have hexit : ∀ {h code : Nat}, m.kernel.started h = true → (m.kernel.queues h).ssip = false →
      (m.kernel.procs (m.kernel.curr h)).pid ≠ 0 →
      (m.kernel.exitProcess h code).within m.withKernel = .done () m' →
      m.kernel.started h = true ∧ (m.kernel.procs (m.kernel.curr h)).state = .running ∧
      ∃ code xs, m'.kernel.bare = (exited m.kernel h code xs).bare ∧
        ∀ a, a ∈ xs ↔
          (∃ i < 32, a ∈ parkedPlaces m.kernel v h (m.kernel.curr h) .zombie (.circle h i)) ∨
          ∃ w, a ∈ parkedPlaces m.kernel v h (m.kernel.curr h) .zombie (.wait w) := by
    intro h code hh hq hpid hdone
    have hst := hm.runs h hh hq
    obtain ⟨s', xs, hx, -, hb, -, hxs⟩ := hm.settled.exitProcess hh (Or.inr hst) hpid code
    obtain ⟨k, hk, rfl⟩ := Outcome.within_eq_done.mp hdone
    cases hx.symm.trans hk
    exact ⟨hh, hst, code, xs, hb, hxs⟩
  cases e with
  | syscall h c =>
    obtain ⟨hh, hq, hpid, -⟩ := he
    cases c with
    | exit code =>
      obtain rfl : t = m.kernel.curr h := List.mem_singleton.mp ht
      exact ⟨rfl, hexit hh hq hpid hrun⟩
    | sendMsg c =>
      cases c with
      | badPointer =>
        obtain rfl : t = m.kernel.curr h := List.mem_singleton.mp ht
        exact ⟨rfl, hexit hh hq hpid hrun⟩
      | refused | empty | full => exact absurd ht List.not_mem_nil
    | recvMsg c =>
      cases c with
      | badPointer =>
        obtain rfl : t = m.kernel.curr h := List.mem_singleton.mp ht
        exact ⟨rfl, hexit hh hq hpid hrun⟩
      | empty | full => exact absurd ht List.not_mem_nil
    | getc | yield | sleep | wait => exact absurd ht List.not_mem_nil
  | start | spawn | timer | softInterrupt | external | steal | clean =>
      exact absurd ht List.not_mem_nil

/-- The event is careful, and if it ends a process, no child of that process is on a circle of
another hart. -/
def Machine.Adopts (m : Machine) (e : Event) : Prop :=
  m.Careful e ∧ ∀ t ∈ m.kernel.existing, m.Touches e .exit t → ∀ a ∈ m.kernel.existing,
    (m.kernel.procs a).parentPid = (m.kernel.procs t).pid → ∀ k < m.kernel.hart,
      InRing m.kernel k a → k = e.hart

instance (m : Machine) (e : Event) : Decidable (m.Adopts e) :=
  inferInstanceAs (Decidable (m.Careful e ∧ ∀ t ∈ m.kernel.existing, m.Touches e .exit t →
    ∀ a ∈ m.kernel.existing, _ → ∀ k < m.kernel.hart, InRing m.kernel k a → k = e.hart))

/-- The timer makes no orphan. -/
theorem Machine.Quiet.adopts : Machine.Quiet Machine.Adopts :=
  ⟨fun _ _ => ⟨Machine.Quiet.careful.timer _ _, fun _ _ hT => absurd hT List.not_mem_nil⟩,
    fun ha => ⟨Machine.Quiet.careful.tick ha, fun _ _ hT => absurd hT List.not_mem_nil⟩⟩

/-- Where it finds all its children, an exit leaves none of them. -/
theorem Parented.exit {code : Nat} {xs : List Nat} (hp : Parented s)
    (hb : s'.bare = (exited s h code xs).bare)
    (hxs : ∀ a ∈ s.existing, (s.procs a).parentPid = (s.procs (s.curr h)).pid → a ∈ xs) :
    Parented s' := by
  have hex : s'.existing = s.existing := (field_bare Kernel.existing (fun _ => rfl) hb).trans rfl
  have hfield : ∀ {α : Type} (g : Process → α), (∀ x, g { x with parentPid := 0 } = g x) →
      (∀ x n p, g { x with next := n, prev := p } = g x) → ∀ b, b ≠ s.curr h →
      g (s'.procs b) = g (s.procs b) := by
    intro α g hg hl b hne
    refine (field_bare (fun x => g (x.procs b)) (fun x => hl (x.procs b) 0 0) hb).trans
      ((congrFun (field_adoptAll g hg _ _ xs) b).trans ?_)
    rw [procs_modify, if_neg hne, procs_parked, if_neg hne]
  have hpid : ∀ b, (s'.procs b).pid = (s.procs b).pid := by
    intro b
    refine (field_bare (fun x => (x.procs b).pid) (fun _ => rfl) hb).trans
      ((congrFun (field_adoptAll Process.pid (fun _ => rfl) _ _ xs) b).trans ?_)
    rw [procs_modify]
    split
    · rename_i hbc
      rw [procs_parked, if_pos rfl, hbc]
    · rename_i hbc
      rw [procs_parked, if_neg hbc]
  intro a ha
  rw [hex] at ha
  have hparent : (s'.procs a).parentPid =
      if a ∈ xs ∧ (s.procs a).parentPid =
          (s.procs (s.curr h)).pid then 0 else (s.procs a).parentPid := by
    have hsame :
      (((s.parked (s.curr h) .zombie).modify (s.curr h) fun p => { p with exitCode := code }).procs
        a).parentPid = (s.procs a).parentPid := by
      rw [procs_modify]
      split
      · rename_i hac
        rw [procs_parked, if_pos rfl, hac]
      · rename_i hac
        rw [procs_parked, if_neg hac]
    refine (field_bare (fun x => (x.procs a).parentPid) (fun _ => rfl) hb).trans ?_
    show (if a ∈ xs ∧ _ = _ then _ else _ : Process).parentPid = _
    rw [hsame]
    split
    · rfl
    · exact hsame
  rw [hparent, hex]
  by_cases hchild : (s.procs a).parentPid = (s.procs (s.curr h)).pid
  · exact Or.inl (if_pos ⟨hxs a ha hchild, hchild⟩)
  · rw [if_neg fun hac => hchild hac.2]
    refine (hp a ha).imp_right fun ⟨b, hbe, hst, hbp⟩ => ?_
    have hne : b ≠ s.curr h := by
      rintro rfl
      exact hchild hbp.symm
    exact ⟨b, hbe,
      by rwa [hfield Process.state (fun _ => rfl) (fun _ _ _ => rfl) b hne], (hpid b).trans hbp⟩

/-- All places but the circles of other harts are searched. -/
theorem Settled.found (hs : Settled s v) (hh : s.started h = true)
    (hrun : (s.procs (s.curr h)).state = .running) {xs : List Nat} (ha : a ∈ s.existing)
    (hown : ∀ k < s.hart, InRing s k a → k = h)
    (hxs : ∀ a, a ∈ xs ↔ (∃ i < 32, a ∈ parkedPlaces s v h (s.curr h) .zombie (.circle h i)) ∨
      ∃ w, a ∈ parkedPlaces s v h (s.curr h) .zombie (.wait w)) : a ∈ xs := by
  have hparked := hs.mem_parkedPlaces (hs.curr_mem hh (Or.inr hrun)) .zombie
  by_cases hac : a = s.curr h
  · exact (hxs a).mpr (Or.inr ⟨.zombie, (hparked _ a).mpr (Or.inl ⟨hac, rfl⟩)⟩)
  · obtain ⟨q, hq⟩ := (hs.mem a).mp ha
    have hq' := (hparked q a).mpr (Or.inr ⟨hac, hq⟩)
    cases q with
    | circle k i =>
      obtain rfl := hown k (hs.range k (hs.valid.circle hq).1) (hs.inRing_iff.mpr ⟨i, hq⟩)
      exact (hxs a).mpr (Or.inl ⟨i, hs.threaded.lt_of_mem hq, hq'⟩)
    | wait w => exact (hxs a).mpr (Or.inr ⟨w, hq'⟩)

/-! ## Runs -/

/-- Before it reschedules, a software interrupt makes no zombies. -/
theorem Prepared.zombie {m₁ : Machine} {v₁ : Place → List Nat} (hp : Prepared m h v m₁ v₁)
    (ha : a ∈ v₁ (.wait .zombie)) : a ∈ v (.wait .zombie) := by
  have hnaps : ∀ {b : Scene}, Relation.ReflTransGen (Naps (m.Touches (.softInterrupt h)) h)
      (m.kernel.tick h, v) b → a ∈ b.2 (.wait .zombie) → a ∈ v (.wait .zombie) := by
    intro b hb hin
    induction hb with
    | refl => exact hin
    | tail _ hlast ih => exact ih (hlast.2.2.zombie hlast.1 hin)
  exact hnaps hp.naps ha

/-- What keeps the processes, their pids and parents, and makes no zombies. -/
theorem Familiar.of_places (hs : Settled s v) (hs' : Settled s' v') (hex : s'.existing = s.existing)
    (hz : ∀ a, a ∈ v' (.wait .zombie) → a ∈ v (.wait .zombie))
    (hpid : ∀ a, (s'.procs a).pid = (s.procs a).pid)
    (hparent : ∀ a, (s'.procs a).parentPid = (s.procs a).parentPid) : Familiar s s' := by
  refine ⟨fun b hb hst => ⟨hex ▸ hb, fun hzb => hst ?_, hpid b⟩,
    fun a ha => Or.inl ⟨hex ▸ ha, hparent a⟩⟩
  exact (hs.zombie_iff hb).mpr (hz b ((hs'.zombie_iff (hex ▸ hb)).mp hzb))

/-- One event of a run on one hart keeps the parents. -/
theorem Parented.step (hm : Steady m.kernel v) (hp : Parented m.kernel) (hc : m.Adopts e)
    (hstep : m.step e = some m') : (∃ v', Steady m'.kernel v') ∧ Parented m'.kernel := by
  obtain ⟨v', hcourse, hm'⟩ := hm.course hc.1 hstep
  refine ⟨⟨v', hm'⟩, ?_⟩
  by_cases hexit : ∃ t, m.Touches e .exit t
  · obtain ⟨t, ht⟩ := hexit
    obtain ⟨rfl, hh, hrun, code, xs, hb, hxs⟩ := hm.exits ht hstep
    refine hp.exit hb fun a ha hchild => ?_
    exact hm.settled.found hh hrun ha (hc.2 _ (hm.settled.curr_existing hh) ht a ha hchild) hxs
  · cases hcourse with
    | calls hne hcalls => exact hp.calls (fun t ht => hexit ⟨t, ht⟩) hcalls
    | stays hprep hdue =>
      refine hp.next (Familiar.of_places hm.settled hprep.settled ?_ (fun a => hprep.zombie) ?_ ?_)
      · exact hprep.rest Kernel.existing (fun _ => rfl) (fun _ _ => rfl) (fun _ _ => rfl) rfl
      · exact hprep.field Process.pid (fun _ _ _ _ _ => rfl) fun _ _ _ => rfl
      · exact hprep.field Process.parentPid (fun _ _ _ _ _ => rfl) fun _ _ _ => rfl
    | @dispatches h x m₁ v₁ s' hprep hdue hrun hd =>
      refine hp.next (Familiar.of_places hm.settled hd.after ?_ (fun a ha => ?_) (fun a => ?_)
        fun a => ?_)
      · exact (field_bare Kernel.existing (fun _ => rfl) hd.bare).trans
          ((rest_refilled Kernel.existing (fun _ _ => rfl) m₁.kernel h).trans
            (hprep.rest Kernel.existing (fun _ => rfl) (fun _ _ => rfl) (fun _ _ => rfl) rfl))
      · exact hprep.zombie ((mem_rotated _ _).mp ha)
      · exact (hd.field Process.pid (fun _ _ _ _ _ => rfl) (fun _ _ _ => rfl) a).trans
          (hprep.field Process.pid (fun _ _ _ _ _ => rfl) (fun _ _ _ => rfl) a)
      · exact (hd.field Process.parentPid (fun _ _ _ _ _ => rfl) (fun _ _ _ => rfl) a).trans
          (hprep.field Process.parentPid (fun _ _ _ _ _ => rfl) (fun _ _ _ => rfl) a)

/-- Where `parent_pid` of the first idle process holds 0, which `scheduler_init` does not write,
every process has a parent that has not exited, or the idle process, and every zombie is on the list
that `wait_process` and `orphan_cleaner` go through. -/
theorem parented_run (h0 : idle ≠ 0) (hidle : (procs idle).parentPid = 0)
    (hr : Run Machine.step (booted procs harts idle) g m) (hc : Run.Steps Machine.Adopts g) :
    Parented m.kernel ∧ ∀ z ∈ m.kernel.existing, (m.kernel.procs z).state = .zombie →
      ∃ n, m.kernel.next^[n] (m.kernel.heads .zombie) = z := by
  have hstart : Parented (booted procs harts idle).kernel := by
    intro a ha
    obtain rfl := List.mem_singleton.mp ha
    refine Or.inl (Eq.trans ?_ hidle)
    simp [booted, schedulerInit, Kernel.modify, boot]
  obtain ⟨v₀, hm₀⟩ := steady_booted procs harts h0
  obtain ⟨⟨v, hm⟩, hp⟩ :=
    hr.invariant (I := fun m => (∃ v, Steady m.kernel v) ∧ Parented m.kernel) hc
    ⟨⟨v₀, hm₀⟩, hstart⟩ (by
      rintro m e m' ⟨⟨v, hs⟩, hp⟩ hcare hstep
      exact hp.step hs hcare hstep)
  refine ⟨hp, fun z hz hst => ?_⟩
  exact (hm.settled.threaded.dll .zombie).seg.exists_iterate ((hm.settled.zombie_iff hz).mp hst)

/-- A process exits on its hart, where its child is. -/
theorem parented_run_exit : ∃ m : Machine, (m.kernel.procs 3).state = .zombie ∧
    4 ∈ m.kernel.existing ∧
    Parented m.kernel ∧ ∀ z ∈ m.kernel.existing, (m.kernel.procs z).state = .zombie →
      ∃ n, m.kernel.next^[n] (m.kernel.heads .zombie) = z := by
  have hreach : Reaches Machine.Adopts
      (fun m => (m.kernel.procs 3).state = .zombie ∧ 4 ∈ m.kernel.existing)
      (booted emptyMemory 1 1) ([.event (.start 1 2), .event (.spawn 0 3 ⟨0, 0⟩ 16), .wait 0 127] ++
        interrupt 0 ++ [.event (.spawn 0 4 ⟨0, 0⟩ 16), .event (.syscall 0 (.exit 7))]) := by
    decide +kernel
  obtain ⟨g, m, hr, hc, hz, hin⟩ := hreach.exists_run .adopts .nil Run.Steps.nil
  exact ⟨m, hz, hin, parented_run (by decide) rfl hr hc⟩

/-- Hart 1 steals a child. Then its parent exits on hart 0 and does not find it. -/
theorem orphan_elsewhere : ∃ g m, Run Machine.step (booted emptyMemory 1 1) g m ∧
    ∃ a ∈ m.kernel.existing, (m.kernel.procs a).parentPid ≠ 0 ∧
      ∀ b ∈ m.kernel.existing, (m.kernel.procs b).pid = (m.kernel.procs a).parentPid →
        (m.kernel.procs b).state = .zombie := by
  have hreach : Reaches (fun _ _ => True)
      (fun m => ∃ a ∈ m.kernel.existing, (m.kernel.procs a).parentPid ≠ 0 ∧
        ∀ b ∈ m.kernel.existing, (m.kernel.procs b).pid = (m.kernel.procs a).parentPid →
          (m.kernel.procs b).state = .zombie)
      (booted emptyMemory 1 1) ([.event (.start 1 2), .event (.spawn 0 3 ⟨0, 0⟩ 16), .wait 0 127] ++
        interrupt 0 ++
          [.event (.spawn 0 4 ⟨0, 0⟩ 16), .event (.steal 1), .event (.syscall 0 (.exit 7))]) := by
    decide +kernel
  exact hreach.run

end RexOS.Smp
