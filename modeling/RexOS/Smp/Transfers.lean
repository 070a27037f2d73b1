import RexOS.Ipc.Searches
import RexOS.Smp.Loops

/-!
# Processes that change their hart

`steal_process` takes a process from a circle of another hart that does not run it. The loop of
a receiving call wakes the senders that wait for it, and they come to the circles of its hart.
-/

namespace RexOS.Smp

open Scheduler Kernel

variable {s s' k : Kernel} {v v' : Place → List Nat} {h a t n ptr p head pid core : Nat}
  {r l : List Nat}

/-! ## Stealing -/

/-- The search in a circle finds the first process that is not the current one. -/
theorem findOther_eq {curr : Nat} (hc : (ptr :: r).IsChain fun a b => s.next a = b)
    (hlast : s.next (r.getLast?.getD ptr) = head) (hne : head ∉ r) (hn : r.length < n) :
    s.findOther curr head n ptr = .done (((ptr :: r).find? fun a => a != curr).getD 0) s := by
  induction r generalizing ptr n with
  | nil =>
    cases n with
    | zero => exact absurd hn (Nat.not_lt_zero _)
    | succ n =>
      have hnext : (s.procs ptr).next = head := hlast
      rw [Kernel.findOther]
      by_cases hp : ptr = curr
      · rw [if_neg (not_not.mpr hp), if_neg (not_not.mpr hnext),
          List.find?_cons_of_neg (by simp [hp])]
        rfl
      · rw [if_pos hp, List.find?_cons_of_pos (by simpa using hp)]
        rfl
  | cons x r ih =>
    cases n with
    | zero => exact absurd hn (Nat.not_lt_zero _)
    | succ n =>
      rw [List.isChain_cons_cons] at hc
      have hnext : (s.procs ptr).next = x := hc.1
      have hxh : x ≠ head := fun he => hne (he ▸ List.mem_cons_self)
      rw [List.getLast?_cons, Option.getD_some] at hlast
      rw [Kernel.findOther]
      by_cases hp : ptr = curr
      · rw [if_neg (not_not.mpr hp), hnext, if_pos hxh, List.find?_cons_of_neg (by simp [hp])]
        exact ih hc.2 hlast (fun hm => hne (List.mem_cons_of_mem _ hm)) (Nat.lt_of_succ_lt_succ hn)
      · rw [if_pos hp, List.find?_cons_of_pos (by simpa using hp)]
        rfl

/-- What a search in the circles of a hart gives. -/
theorem Settled.findStealable (hs : Settled s v) {is : List Nat} (his : ∀ i ∈ is, i < 31) :
    ∃ t, s.findStealable core is = .done t s ∧
      (t ≠ 0 → ∃ i < 31, t ∈ v (.circle core i) ∧ t ≠ s.curr core) := by
  induction is with
  | nil => exact ⟨0, rfl, fun h0 => absurd rfl h0⟩
  | cons i is ih =>
    have hi := his i List.mem_cons_self
    obtain ⟨u, hrest, hu⟩ := ih fun j hj => his j (List.mem_cons_of_mem _ hj)
    rw [Kernel.findStealable]
    by_cases hbit : (s.queues core).lookupBitmap.testBit i = true
    · obtain ⟨y, zs, hxs, hfirst, hc, hlast, hne, hlen⟩ :=
        hs.circle_of_bit (h := core) (by omega) hbit
      rw [if_pos hbit]
      dsimp only
      rw [hfirst, findOther_eq hc hlast hne hlen, Outcome.bind_done]
      cases hfind : (y :: zs).find? fun a => a != s.curr core with
      | none =>
        rw [Option.getD_none, if_neg (not_not.mpr rfl)]
        exact ⟨u, hrest, hu⟩
      | some t =>
        have hmem : t ∈ v (.circle core i) := hxs ▸ List.mem_of_find?_eq_some hfind
        have hne : t ≠ s.curr core := by simpa using List.find?_some hfind
        rw [Option.getD_some, if_pos (hs.nonzero (hs.mem_existing hmem))]
        exact ⟨t, rfl, fun _ => ⟨i, hi, hmem, hne⟩⟩
    · rw [if_neg hbit]
      exact ⟨u, hrest, hu⟩

/-- A process that can be stolen by a hart, and the hart it is on. -/
structure Stealable (s : Kernel) (v : Place → List Nat) (h t core : Nat) : Prop where
  other : core ≠ h
  up : s.started core = true
  mem : ∃ i < 31, t ∈ v (.circle core i)
  idle : t ≠ s.curr core

/-- The search finds a process that can be stolen, or none. -/
theorem Settled.findVictim (hs : Settled s v) (cores : List Nat) :
    ∃ t core, s.findVictim h cores = .done (t, core) s ∧ (t ≠ 0 → Stealable s v h t core) := by
  induction cores with
  | nil => exact ⟨0, 0, rfl, fun h0 => absurd rfl h0⟩
  | cons core cores ih =>
    rw [Kernel.findVictim]
    split
    · rename_i hcore
      obtain ⟨t, hrun, ht⟩ : ∃ t, s.findStealable core (List.range 31) = .done t s ∧ _ :=
        hs.findStealable fun i (hi : i ∈ List.range 31) => List.mem_range.mp hi
      rw [hrun, Outcome.bind_done]
      by_cases h0 : t = 0
      · rw [if_neg (not_not.mpr h0)]
        exact ih
      · obtain ⟨i, hi, hmem, hne⟩ := ht h0
        rw [if_pos h0]
        exact ⟨t, core, rfl, fun _ => ⟨hcore.2.1, hcore.1, ⟨i, hi, hmem⟩, hne⟩⟩
    · exact ih

/-- The places after a process has come to another hart. -/
def stolenPlaces (s : Kernel) (v : Place → List Nat) (h t core : Nat) : Place → List Nat :=
  Function.update (Function.update v (.circle core (s.procs t).priority)
    ((v (.circle core (s.procs t).priority)).erase t)) (.circle h (s.procs t).priority)
    (v (.circle h (s.procs t).priority) ++ [t])

/-- The stolen process is on a circle of its new hart. -/
theorem Settled.mem_stolenPlaces (hs : Settled s v) (ht : Stealable s v h t core)
    (q : Place) (a : Nat) :
    a ∈ stolenPlaces s v h t core q ↔ a = t ∧ q = .circle h (s.procs t).priority ∨ a ≠ t ∧
      a ∈ v q := by
  obtain ⟨i, -, hmem⟩ := ht.mem
  obtain rfl : (s.procs t).priority = i := (hs.valid.circle hmem).2.1
  have hne : Place.circle h (s.procs t).priority ≠ .circle core (s.procs t).priority :=
    fun he => ht.other (Place.circle.inj he).1.symm
  exact hs.threaded.mem_back hmem hne q a

/-- A process comes from a circle of one hart to the end of a circle of another one. -/
theorem threaded_moveOver (hs : Threaded s v) (hmem : t ∈ v (.circle core (s.procs t).priority))
    (hco : core ≠ h) :
    Threaded (s.moveOver h t core) (stolenPlaces s v h t core) := by
  have hlt := hs.lt_of_mem hmem
  have hne : Place.circle h (s.procs t).priority ≠ .circle core (s.procs t).priority :=
    fun he => hco (Place.circle.inj he).1.symm
  have hprio : ((s.leaveCircle core t).procs t).priority = (s.procs t).priority := by
    have hp : ((s.leaveCircle core t).bare.procs t).priority = (s.bare.procs t).priority := by
      rw [bare_leaveCircle]
    exact hp
  have hin := (hs.leave hmem).join (h := h) (hs.not_mem_erased hmem) (hs.ne_zero hmem)
    (by rw [hprio]; exact hlt)
  rw [hprio, Function.update_of_ne hne] at hin
  exact hin.modify _ (fun _ => rfl) fun _ => rfl

theorem bare_moveOver : (s.moveOver h t core).bare =
    (s.modify t fun p => { p with tf := { p.tf with kernelTp := h } }).bare := by
  rw [Kernel.moveOver, bare_setTp, bare_joinCircle, bare_leaveCircle, bare_setTp]

/-- A process that can be stolen moves over. -/
theorem Settled.moveOver (hs : Settled s v) (hh : s.started h = true)
    (ht : Stealable s v h t core) :
    Settled (s.moveOver h t core) (stolenPlaces s v h t core) ∧
      (s.moveOver h t core).bare =
        (s.modify t fun p => { p with tf := { p.tf with kernelTp := h } }).bare ∧
      board (s.moveOver h t core) (stolenPlaces s v h t core) = (board s v).steal h t := by
  obtain ⟨i, hi, hmem⟩ := ht.mem
  obtain ⟨_, hprio, _⟩ := hs.valid.circle hmem
  obtain rfl : (s.procs t).priority = i := hprio
  have hfinal := threaded_moveOver hs.threaded hmem ht.other
  have hbare : (s.moveOver h t core).bare =
      (s.modify t fun p => { p with tf := { p.tf with kernelTp := h } }).bare := bare_moveOver
  have hmoved := hs.mem_stolenPlaces ht
  have hboard : board (s.moveOver h t core) (stolenPlaces s v h t core) =
      (board s v).steal h t := by
    rw [board_congr hbare fun _ _ => Iff.rfl, board_setTp, Board.steal]
    ext q a
    · exact hmoved q a
    all_goals rfl
  refine ⟨hs.rearranged hfinal ?_ (Settled.mem_moved hmem hmoved) ?_, hbare, hboard⟩
  · exact Same.of_bare
      (Same.modify s t (f := fun p => { p with tf := { p.tf with kernelTp := h } })
        fun _ => ⟨rfl, rfl⟩) hbare
  · rw [hboard]
    exact hs.valid.steal hh hmem (by omega) ht.idle

/-- A thief finds nothing, or a process that another hart does not run. -/
theorem Settled.stealProcess (hs : Settled s v) (hh : s.started h = true) :
    s.stealProcess h = .done 0 s ∨ ∃ t core,
      (s.findVictim h (List.range s.hart) = .done (t, core) s ∧ t ≠ 0) ∧ Stealable s v h t core ∧
      s.stealProcess h = .done 1 (s.moveOver h t core) ∧
      Settled (s.moveOver h t core) (stolenPlaces s v h t core) ∧
      (s.moveOver h t core).bare =
        (s.modify t fun p => { p with tf := { p.tf with kernelTp := h } }).bare ∧
      board (s.moveOver h t core) (stolenPlaces s v h t core) = (board s v).steal h t := by
  obtain ⟨t, core, hrun, ht⟩ := hs.findVictim (h := h) (List.range s.hart)
  unfold Kernel.stealProcess
  rw [hrun, Outcome.bind_done]
  by_cases h0 : t = 0
  · exact Or.inl (if_pos h0)
  · exact Or.inr ⟨t, core, ⟨rfl, h0⟩, ht h0, if_neg h0, hs.moveOver hh (ht h0)⟩

end RexOS.Smp
