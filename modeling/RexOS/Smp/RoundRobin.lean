import RexOS.Smp.Rings
import RexOS.Smp.Slice
import Mathlib.Data.Finset.Card

/-!
# Round robin

The ring of a priority turns where `schedule` finds the process that it leaves still running, so
when the slice of this process is used up. A process that yields is ready by then, and it is
dispatched again.
-/

namespace RexOS.Smp

open Scheduler Kernel

variable {procs : Nat → Process} {T : Touch → Nat → Prop} {s : Kernel} {v : Place → List Nat}
  {P : Finset Nat} {i idle : Nat} {m m' m₀ : Machine} {e : Event} {g g₀ : List (Machine × Event)}

/-- The processes of priority `i` that can run are those of `P`, and there are none of a smaller
number. -/
structure Machine.Shares (m : Machine) (P : Finset Nat) (i : Nat) : Prop where
  ready : ∀ a ∈ P, a ∈ m.kernel.existing ∧ (m.kernel.procs a).OnCircle ∧
    (m.kernel.procs a).priority = i
  only : ∀ a ∈ m.kernel.existing, (m.kernel.procs a).OnCircle → (m.kernel.procs a).priority ≤ i →
    a ∈ P

/-- They do so before the event, and the event answers no alarm. -/
structure Machine.Calm (P : Finset Nat) (i : Nat) (m : Machine) (e : Event) : Prop where
  shares : m.Shares P i
  quiet : ∀ h, e = .softInterrupt h → ∀ k ∈ m.atSchedule h, k.kernel.emergencyProcess = 0

instance (p : Process) : Decidable p.OnCircle := inferInstanceAs (Decidable (_ ∨ _))

instance (m : Machine) (P : Finset Nat) (i : Nat) : Decidable (m.Shares P i) :=
  decidable_of_iff ((∀ a ∈ P, a ∈ m.kernel.existing ∧ (m.kernel.procs a).OnCircle ∧
      (m.kernel.procs a).priority = i) ∧
      ∀ a ∈ m.kernel.existing, (m.kernel.procs a).OnCircle → (m.kernel.procs a).priority ≤ i →
        a ∈ P)
    ⟨fun ⟨hready, honly⟩ => ⟨hready, honly⟩, fun hs => ⟨hs.ready, hs.only⟩⟩

instance (P : Finset Nat) (i : Nat) (m : Machine) : (e : Event) → Decidable (Machine.Calm P i m e)
  | .softInterrupt h =>
    decidable_of_iff (m.Shares P i ∧ ∀ k ∈ m.atSchedule h, k.kernel.emergencyProcess = 0)
      ⟨fun ⟨hs, hq⟩ => ⟨hs, fun _ he => Event.softInterrupt.inj he ▸ hq⟩,
        fun hc => ⟨hc.shares, hc.quiet h rfl⟩⟩
  | .start _ _ | .spawn _ _ _ _ | .timer _ | .external _ _ _ | .syscall _ _ | .steal _ | .clean =>
    decidable_of_iff (m.Shares P i) ⟨fun hs => ⟨hs, fun _ he => Event.noConfusion he⟩,
      fun hc => hc.shares⟩

/-- Where an event dispatches a process: the state of the one that is left, and the one that
comes. -/
def Machine.turn (m : Machine) : Event → Option (ProcState × Nat)
  | .softInterrupt h => (m.atSchedule h).bind fun k => (m.step (.softInterrupt h)).map fun m' =>
      ((k.kernel.procs (k.kernel.curr h)).state, m'.kernel.curr h)
  | _ => none

/-- The dispatches of a history. -/
def turns (g : List (Machine × Event)) : List (ProcState × Nat) := g.filterMap fun x => x.1.turn x.2

/-- Each process of `P` once, in the order of their ring. -/
structure RoundRobin (s : Kernel) (P : Finset Nat) (ds : List Nat) : Prop where
  once : ds.Nodup
  all : ∀ a, a ∈ ds ↔ a ∈ P
  order : ds.IsChain fun a b => s.next a = b

/-- The circle that the processes share has exactly them. -/
theorem Lone.mem_shared (hm : Lone m.kernel v) (hs : m.Shares P i) {a : Nat} :
    a ∈ v (.circle 0 i) ↔ a ∈ P := by
  rw [hm.mem_circle]
  constructor
  · rintro ⟨hex, hon, hprio⟩
    exact hs.only a hex hon hprio.le
  · exact hs.ready a

/-- So it has as many turns. -/
theorem Lone.length_shared (hm : Lone m.kernel v) (hs : m.Shares P i) :
    (v (.circle 0 i)).length = P.card := by
  have hset : (v (.circle 0 i)).toFinset = P := by
    ext a
    rw [List.mem_toFinset, hm.mem_shared hs]
  rw [← hset, List.toFinset_card_of_nodup (hm.steady.settled.circle_nodup 0 i)]

/-- The ring is as before, or it has turned, and its first process is dispatched. -/
theorem Lone.turning (hm : Lone m.kernel v) (hc : m.Calm P i e) (hs' : m'.Shares P i)
    (hstep : m.step e = some m') : ∃ v', Lone m'.kernel v' ∧
      (m.turn e = none ∧ v' (.circle 0 i) = v (.circle 0 i) ∧ m'.kernel.curr 0 = m.kernel.curr 0 ∨
        ∃ st x, m.turn e = some (st, x) ∧ m'.kernel.curr 0 = x ∧
          (P.Nonempty → (v' (.circle 0 i)).head? = some x) ∧
          (m.kernel.curr 0 ∈ P → v' (.circle 0 i) =
            if st = .running then (v (.circle 0 i)).rotate 1 else v (.circle 0 i))) := by
  obtain ⟨v', hcourse, hm'⟩ := hm.course hstep
  have hen := (Machine.step_eq_some.mp hstep).1
  have hzero := hm.event hen
  have hs := hm.steady.settled
  have hs₁ := hm'.steady.settled
  -- nobody of the ring has come to it in between
  have hold : ∀ a ∈ v (.circle 0 i), ¬ (m.Touches e .wake a ∨ m.Touches e .spawn a) := by
    intro a ha ht
    obtain ⟨hex, hon, -⟩ := hm.mem_circle.mp ha
    rcases ht with ht | ht
    · exact Machine.touched_wake ht hon
    · exact Machine.touched_spawn hen ht hex
  have hmem : ∀ a, a ∈ v' (.circle 0 i) ↔ a ∈ v (.circle 0 i) := fun a => by
    rw [hm'.mem_shared hs', hm.mem_shared hc.shares]
  refine ⟨v', hm', ?_⟩
  cases hcourse with
  | calls hne hcalls =>
    rw [hzero] at hcalls
    have hturn : m.turn e = none := by
      cases e with
      | softInterrupt h => exact absurd rfl (hne h)
      | start | spawn | timer | external | syscall | steal | clean => rfl
    exact Or.inl ⟨hturn, (hm.circles hcalls i).eq_of_mem (hs.circle_nodup 0 i)
      (hs₁.circle_nodup 0 i) hmem hold, (Calls.curr hcalls hm.up).2⟩
  | @stays h m₁ v₁ hp hdue =>
    obtain rfl : h = 0 := hzero
    have hat : m.atSchedule 0 = none := by
      unfold Machine.atSchedule
      rw [hp.run]
      exact if_neg hdue
    have hturn : m.turn (.softInterrupt 0) = none := by
      show (m.atSchedule 0).bind _ = none
      rw [hat]
      rfl
    refine Or.inl ⟨hturn, (Naps.circle hp.naps i).eq_of_mem (hs.circle_nodup 0 i)
      (hs₁.circle_nodup 0 i) hmem fun a ha ht => hold a ha (Or.inl ht), ?_⟩
    exact congrFun (hp.rest Kernel.curr (fun _ => rfl) (fun _ _ => rfl) (fun _ _ => rfl)
      (curr_tick _ _)) 0
  | @dispatches h x m₁ v₁ s' hp hdue hrun hd =>
    obtain rfl : h = 0 := hzero
    have hat : m.atSchedule 0 = some m₁ := by
      unfold Machine.atSchedule
      rw [hp.run]
      exact if_pos hdue
    have hcurr : s'.curr 0 = x := (congrFun (field_bare Kernel.curr (fun _ => rfl) hd.bare) 0).trans
      ((curr_dispatched m₁.kernel 0 x 0).trans (if_pos rfl))
    have hcurr₁ : m₁.kernel.curr 0 = m.kernel.curr 0 :=
      congrFun (hp.rest Kernel.curr (fun _ => rfl) (fun _ _ => rfl) (fun _ _ => rfl)
        (curr_tick _ _)) 0
    have hring : v₁ (.circle 0 i) = v (.circle 0 i) := by
      refine (Naps.circle hp.naps i).eq_of_mem (hs.circle_nodup 0 i) (hp.settled.circle_nodup 0 i)
        (fun a => ?_) fun a ha ht => hold a ha (Or.inl ht)
      rw [← hmem, mem_rotated]
    refine Or.inr ⟨(m₁.kernel.procs (m₁.kernel.curr 0)).state, x, ?_, hcurr,
      fun hP => ?_, fun hP => ?_⟩
    · show ((m.atSchedule 0).bind fun k => (m.step (.softInterrupt 0)).map fun m' =>
        ((k.kernel.procs (k.kernel.curr 0)).state, m'.kernel.curr 0)) = _
      rw [hat, hstep]
      exact congrArg (fun y => some ((m₁.kernel.procs (m₁.kernel.curr 0)).state, y)) hcurr
    · obtain ⟨j, hj, hhead, hlow⟩ := hd.chosen.lowest (hc.quiet 0 rfl m₁ hat)
      have hx : x ∈ rotated m₁.kernel 0 v₁ (.circle 0 j) := List.mem_of_head? hhead
      obtain ⟨hex, hon, hprio⟩ := hm'.mem_circle.mp hx
      obtain ⟨a, ha⟩ := hP
      have hin : a ∈ rotated m₁.kernel 0 v₁ (.circle 0 i) := (hm'.mem_shared hs').mpr ha
      have hji : j = i := by
        rcases Nat.lt_trichotomy j i with hlt | heq | hgt
        · have hxP := hs'.only x hex hon (by omega)
          exact hprio.symm.trans (hs'.ready x hxP).2.2
        · exact heq
        · rw [hlow i hgt] at hin
          exact absurd hin List.not_mem_nil
      rw [← hji]
      exact hhead
    · have hprio : (m₁.kernel.procs (m₁.kernel.curr 0)).priority = i := by
        rw [hp.field Process.priority (fun _ _ _ _ _ => rfl) (fun _ _ _ => rfl), hcurr₁]
        exact (hc.shares.ready _ hP).2.2
      unfold rotated
      rw [hprio, ← hring]
      split
      · exact Function.update_self ..
      · rfl

/-- The dispatches of a history, and the ring after them. -/
structure Turned (g : List (Machine × Event)) (t : ProcState × Nat) (ts : List (ProcState × Nat))
    (s : Kernel) (ring : List Nat) : Prop where
  list : turns g = t :: ts
  first : ∃ r, ring = t.2 :: r
  curr : s.curr 0 = t.2
  fair : (∀ x ∈ (t :: ts).dropLast, x.1 = .running) →
    ((t :: ts).map Prod.snd).reverse <:+ ring.rotate 1
  unfair : (∃ x ∈ (t :: ts).dropLast, x.1 ≠ .running) → ¬ ((t :: ts).map Prod.snd).Nodup

/-- The turns of a run, event by event. -/
theorem turns_cons (x : Machine × Event) (g : List (Machine × Event)) :
    turns (x :: g) = (x.1.turn x.2).toList ++ turns g := by
  unfold turns
  rw [List.filterMap_cons]
  cases x.1.turn x.2 <;> rfl

/-- A circle that moves on. -/
theorem rotate_one {α : Type} (x : α) (r : List α) : (x :: r).rotate 1 = r ++ [x] := by
  rw [List.rotate_cons_succ, List.rotate_zero]

/-- A further dispatch. -/
theorem Turned.next {t x : ProcState × Nat} {ts : List (ProcState × Nat)} {ring ring' : List Nat}
    {g' : List (Machine × Event)} {s' : Kernel} (ht : Turned g t ts s ring)
    (hlist : turns g' = x :: turns g) (hcurr : s'.curr 0 = x.2) (hhead : ring'.head? = some x.2)
    (hring : ring' = if x.1 = .running then ring.rotate 1 else ring)
    (hlen : (turns g').length ≤ ring.length) : Turned g' x (t :: ts) s' ring' := by
  obtain ⟨r, rfl⟩ := ht.first
  have hfirst : ∃ r', ring' = x.2 :: r' := by
    cases ring' with
    | nil => exact absurd hhead (by simp)
    | cons y r' => exact ⟨r', by rw [Option.some.inj hhead]⟩
  have hdrop : (x :: t :: ts).dropLast = x :: (t :: ts).dropLast := rfl
  rw [hlist, ht.list] at hlen
  refine ⟨by rw [hlist, ht.list], hfirst, hcurr, fun hall => ?_, ?_⟩
  · rw [hdrop] at hall
    have hrun : x.1 = .running := hall x List.mem_cons_self
    have hsuffix := ht.fair fun y hy => hall y (List.mem_cons_of_mem _ hy)
    rw [rotate_one] at hsuffix
    rw [if_pos hrun, rotate_one] at hring
    obtain ⟨r', hr'⟩ := hfirst
    cases r with
    | nil =>
      simp only [List.length_cons, List.length_nil] at hlen
      omega
    | cons y r =>
      rw [hring] at hr'
      rw [List.cons_append] at hsuffix hr'
      obtain ⟨rfl, rfl⟩ := List.cons.inj hr'
      have hin : ((t :: ts).map Prod.snd).reverse <:+ r ++ [t.2] := by
        refine (List.suffix_cons_iff.mp hsuffix).resolve_left fun he => ?_
        have hl := congrArg List.length he
        simp only [List.length_reverse, List.length_map, List.length_cons, List.length_append]
          at hl hlen
        omega
      obtain ⟨p, hp⟩ := hin
      refine ⟨p, ?_⟩
      rw [hring, List.cons_append, rotate_one, List.map_cons, List.reverse_cons,
        ← List.append_assoc, hp]
  · rintro ⟨y, hy, hst⟩
    rw [hdrop] at hy
    rw [List.map_cons, List.nodup_cons]
    rintro ⟨hnot, hnodup⟩
    rcases List.mem_cons.mp hy with rfl | hy
    · -- the process that has yielded is the first of the ring still
      rw [if_neg hst] at hring
      rw [hring] at hhead
      apply hnot
      rw [← Option.some.inj hhead]
      exact List.mem_cons_self
    · exact ht.unfair ⟨y, hy, hst⟩ hnodup

/-! ## Runs -/

/-- In a calm stretch the turns go around the circle. -/
theorem turned_run (hm : Lone m₀.kernel v) (hr : Run Machine.step m₀ g m)
    (hc : Run.Steps (Machine.Calm P i) g) (hs : m.Shares P i) (hlen : (turns g).length ≤ P.card) :
    ∃ v', Lone m.kernel v' ∧
      (turns g = [] ∨ ∃ t ts, Turned g t ts m.kernel (v' (.circle 0 i))) := by
  induction hr with
  | nil => exact ⟨v, hm, Or.inl rfl⟩
  | @snoc g m m' e hr hstep ih =>
    obtain ⟨hcalm, hc⟩ := Run.steps_cons.mp hc
    have hcons := turns_cons (m, e) g
    have hshort : (turns g).length ≤ P.card := by
      rw [hcons, List.length_append] at hlen
      omega
    obtain ⟨v₁, hm₁, hturned⟩ := ih hc hcalm.shares hshort
    obtain ⟨v₂, hm₂, hcase⟩ := hm₁.turning hcalm hs hstep
    refine ⟨v₂, hm₂, ?_⟩
    rcases hcase with ⟨hnone, hring, hcurr⟩ | ⟨st, x, hsome, hcurr, hhead, hring⟩
    · rw [hnone] at hcons
      rw [hring]
      rcases hturned with hnil | ⟨t, ts, ht⟩
      · exact Or.inl (hcons.trans hnil)
      · exact Or.inr ⟨t, ts, hcons.trans ht.list, ht.first, hcurr.trans ht.curr, ht.fair, ht.unfair⟩
    · rw [hsome] at hcons
      have hlist : turns ((m, e) :: g) = (st, x) :: turns g := hcons
      have hP : P.Nonempty := by
        rw [← Finset.card_pos]
        rw [hlist, List.length_cons] at hlen
        omega
      have hhead := hhead hP
      refine Or.inr ?_
      rcases hturned with hnil | ⟨t, ts, ht⟩
      · obtain ⟨r, hr⟩ : ∃ r, v₂ (.circle 0 i) = x :: r := by
          cases hv : v₂ (.circle 0 i) with
          | nil =>
            rw [hv] at hhead
            exact absurd hhead (by simp)
          | cons y r =>
            rw [hv] at hhead
            exact ⟨r, by rw [Option.some.inj hhead]⟩
        refine ⟨(st, x), [], by rw [hlist, hnil], ⟨r, hr⟩, hcurr, fun _ => ⟨r, ?_⟩, ?_⟩
        · rw [hr, rotate_one]
          rfl
        · rintro ⟨y, hy, -⟩
          exact absurd hy List.not_mem_nil
      · have hin : m.kernel.curr 0 ∈ P := by
          obtain ⟨r, hr⟩ := ht.first
          rw [ht.curr, ← hm₁.mem_shared hcalm.shares, hr]
          exact List.mem_cons_self
        refine ⟨(st, x), t :: ts, ht.next hlist hcurr hhead (hring hin) ?_⟩
        rw [hm₁.length_shared hcalm.shares]
        exact hlen

/-- While the processes of `P` share a priority and nothing of a smaller number is ready, as many
dispatches as there are processes run each of them once, in the order of their ring, exactly if from
the first of these dispatches to the last one only processes are left whose slices are used up. -/
theorem round_robin_iff (h0 : idle ≠ 0) (hr₀ : Run Machine.step (booted procs 0 idle) g₀ m₀)
    (hr : Run Machine.step m₀ g m) (hc : Run.Steps (Machine.Calm P i) g) (hs : m.Shares P i)
    (hlen : (turns g).length = P.card) :
    RoundRobin m.kernel P ((turns g).map Prod.snd).reverse ↔
      ∀ x ∈ (turns g).dropLast, x.1 = .running := by
  obtain ⟨v, hm⟩ := lone_run h0 hr₀
  obtain ⟨v', hm', hturned⟩ := turned_run hm hr hc hs hlen.le
  rcases hturned with hnil | ⟨t, ts, ht⟩
  · rw [hnil] at hlen ⊢
    have hP : P = ∅ := Finset.card_eq_zero.mp hlen.symm
    subst hP
    exact iff_of_true ⟨List.nodup_nil, fun a => by simp, List.IsChain.nil⟩ fun x hx =>
      absurd hx List.not_mem_nil
  · have hlist := ht.list
    rw [hlist]
    constructor
    · intro hrr
      by_contra hno
      push Not at hno
      exact ht.unfair hno (List.nodup_reverse.mp hrr.once)
    · intro hall
      have hlength : (v' (.circle 0 i)).length = (turns g).length :=
        (hm'.length_shared hs).trans hlen.symm
      have hwhole : ((t :: ts).map Prod.snd).reverse = (v' (.circle 0 i)).rotate 1 := by
        refine (ht.fair hall).eq_of_length ?_
        rw [List.length_reverse, List.length_map, List.length_rotate, hlength, hlist]
      have hwheel := (hm'.steady.settled.threaded.wheel 0 i).turn (List.IsRotated.forall _ 1).symm
      rw [hwhole]
      refine ⟨hwheel.nodup, fun a => ?_, ?_⟩
      · rw [List.mem_rotate, hm'.mem_shared hs]
      · cases hv : (v' (.circle 0 i)).rotate 1 with
        | nil => exact List.IsChain.nil
        | cons x ys =>
          rw [hv] at hwheel
          exact hwheel.inner.imp fun _ _ hxy => hxy.1

/-- Two processes of priority 0, the first of which uses up its slice of four ticks. -/
theorem round_robin_two : ∃ g, ∃ m : Machine, (turns g).map Prod.snd = [4, 3] ∧
    RoundRobin m.kernel {3, 4} ((turns g).map Prod.snd).reverse := by
  have hreach : Reaches (fun _ _ => True)
      (fun m => Run.Leads Machine.step (fun g m => Run.Steps (Machine.Calm {3, 4} 0) g ∧
        m.Shares {3, 4} 0 ∧
        (turns g).map Prod.snd = [4, 3] ∧ ∀ x ∈ (turns g).dropLast, x.1 = .running) [] m
        ([.timer 0, .softInterrupt 0] ++ [.timer 0, .softInterrupt 0] ++
          [.timer 0, .softInterrupt 0] ++
          [.timer 0, .softInterrupt 0] ++ [.timer 0, .softInterrupt 0]))
      (booted emptyMemory 0 1) [.event (.spawn 0 3 ⟨0, 0⟩ 0), .event (.spawn 0 4 ⟨0, 0⟩ 0),
        .wait 0 127] := by
    decide +kernel
  obtain ⟨g₀, m₀, hr₀, hleads⟩ := hreach.run
  obtain ⟨g, m, hr, hc, hs, hlist, hall⟩ := hleads.exists_run .nil
  have hlen : (turns g).length = ({3, 4} : Finset Nat).card := by
    have hl := congrArg List.length hlist
    rw [List.length_map] at hl
    exact hl
  exact ⟨g, m, hlist, (round_robin_iff (by decide) hr₀ hr hc hs hlen).mpr hall⟩

/-- The first of two processes yields, and is dispatched again. -/
theorem yields_again : ∃ g₀, ∃ m₀ : Machine, ∃ g, ∃ m : Machine,
    Run Machine.step (booted emptyMemory 0 1) g₀ m₀ ∧ Run Machine.step m₀ g m ∧
    Run.Steps (Machine.Calm {3, 4} 16) g ∧ m.Shares {3, 4} 16 ∧
      (turns g).length = ({3, 4} : Finset Nat).card ∧
    ¬ RoundRobin m.kernel {3, 4} ((turns g).map Prod.snd).reverse := by
  have hreach : Reaches (fun _ _ => True)
      (fun m => Run.Leads Machine.step (fun g m => Run.Steps (Machine.Calm {3, 4} 16) g ∧
        m.Shares {3, 4} 16 ∧ (turns g).map Prod.snd = [3, 3]) [] m
        [.timer 0, .softInterrupt 0, .syscall 0 .yield, .softInterrupt 0])
      (booted emptyMemory 0 1) [.event (.spawn 0 3 ⟨0, 0⟩ 16), .event (.spawn 0 4 ⟨0, 0⟩ 16),
        .wait 0 127] := by
    decide +kernel
  obtain ⟨g₀, m₀, hr₀, hleads⟩ := hreach.run
  obtain ⟨g, m, hr, hc, hs, hlist⟩ := hleads.exists_run .nil
  have hl := congrArg List.length hlist
  rw [List.length_map] at hl
  refine ⟨g₀, m₀, g, m, hr₀, hr, hc, hs, hl, fun hrr => ?_⟩
  have honce := hrr.once
  rw [hlist] at honce
  exact absurd honce (by decide)

end RexOS.Smp
