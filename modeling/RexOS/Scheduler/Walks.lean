import RexOS.Scheduler.Routines

/-!
# The loops that follow links

Each loop is started with more steps than there are processes, and so it comes to the end of
its list or back to the first node of its circle.
-/

namespace RexOS.Scheduler

open Kernel

variable {s s' : Kernel} {v : Place → List Nat} {a t n ptr p head : Nat} {r l : List Nat}

/-! ## Adoption -/

/-- A new parent touches no queue. -/
theorem adopt_touched (s : Kernel) (pid a : Nat) : Touched s (s.adopt pid a) := by
  unfold adopt
  split
  · exact Touched.modify s a _ (fun _ => rfl) (fun _ => rfl) fun _ => ⟨rfl, rfl, rfl, rfl⟩
  · exact Touched.refl s

/-- The walk along a list returns, and touches no queue. -/
theorem adoptList_eq (pid : Nat) (hseg : Dll.Seg s.next s.prev 0 p ptr r) (hn : r.length < n) :
    ∃ s', adoptList pid n ptr s = .done () s' ∧ Touched s s' := by
  induction r generalizing s p ptr n with
  | nil =>
    cases n with
    | zero => exact absurd hn (Nat.not_lt_zero _)
    | succ n => exact ⟨s, if_pos hseg, Touched.refl s⟩
  | cons x r ih =>
    obtain ⟨rfl, hne, _, htail⟩ := hseg
    cases n with
    | zero => exact absurd hn (Nat.not_lt_zero _)
    | succ n =>
      have htouch := adopt_touched s pid ptr
      have hnext : ((s.adopt pid ptr).procs ptr).next = s.next ptr := congrFun htouch.next ptr
      rw [← htouch.next, ← htouch.prev] at htail
      obtain ⟨s', hrun, hs'⟩ := ih htail (n := n) (Nat.lt_of_succ_lt_succ hn)
      refine ⟨s', ?_, htouch.trans hs'⟩
      rw [adoptList, if_neg hne]
      exact hrun

/-- So does the walk around a circle. -/
theorem adoptCircle_eq (pid : Nat) (hc : (ptr :: r).IsChain fun a b => s.next a = b)
    (hlast : s.next (r.getLast?.getD ptr) = head) (hne : head ∉ r) (hn : r.length < n) :
    ∃ s', adoptCircle pid head n ptr s = .done () s' ∧ Touched s s' := by
  induction r generalizing s ptr n with
  | nil =>
    cases n with
    | zero => exact absurd hn (Nat.not_lt_zero _)
    | succ n =>
      have htouch := adopt_touched s pid ptr
      have hnext : ((s.adopt pid ptr).procs ptr).next = head :=
        (congrFun htouch.next ptr).trans hlast
      exact ⟨s.adopt pid ptr, if_neg (not_not.mpr hnext), htouch⟩
  | cons x r ih =>
    cases n with
    | zero => exact absurd hn (Nat.not_lt_zero _)
    | succ n =>
      have htouch := adopt_touched s pid ptr
      rw [List.isChain_cons_cons] at hc
      have hnext : ((s.adopt pid ptr).procs ptr).next = x := (congrFun htouch.next ptr).trans hc.1
      rw [List.getLast?_cons, Option.getD_some] at hlast
      have hxh : x ≠ head := fun he => hne (he ▸ List.mem_cons_self)
      rw [← htouch.next] at hc hlast
      obtain ⟨s', hrun, hs'⟩ := ih hc.2 hlast (fun hm => hne (List.mem_cons_of_mem _ hm)) (n := n)
        (Nat.lt_of_succ_lt_succ hn)
      refine ⟨s', ?_, htouch.trans hs'⟩
      rw [adoptCircle, hnext, if_pos hxh]
      exact hrun

/-- So does the walk around the circles of a hart. -/
theorem adoptCircles_eq (pid : Nat) {is : List Nat} (hq : Queued s v) (his : ∀ i ∈ is, i < 32) :
    ∃ s', adoptCircles 0 pid is s = .done () s' ∧ Touched s s' := by
  induction is generalizing s with
  | nil => exact ⟨s, rfl, Touched.refl s⟩
  | cons i is ih =>
    have hrest : ∀ j ∈ is, j < 32 := fun j hj => his j (List.mem_cons_of_mem _ hj)
    rw [adoptCircles]
    by_cases hbit : (s.queues 0).lookupBitmap.testBit i = true
    · obtain ⟨y, zs, hxs⟩ : ∃ y zs, v (.circle 0 i) = y :: zs :=
        List.exists_cons_of_ne_nil ((hq.threaded.bits 0 i (his i List.mem_cons_self)).mp hbit)
      have hw : Wheel s.next s.prev (y :: zs) := hxs ▸ hq.threaded.wheel 0 i
      have hfirst : (s.queues 0).activeProcessCircles i = y := by
        have hf := hq.threaded.first_circle 0 i
        rw [hxs] at hf
        exact hf
      have hlen := hq.length_le (.circle 0 i)
      rw [hxs, List.length_cons] at hlen
      obtain ⟨s₁, hrun, htouch⟩ := adoptCircle_eq pid (n := s.existing.length + 1)
        (hw.inner.imp fun _ _ h => h.1) hw.next_last (List.nodup_cons.mp hw.nodup).1 (by omega)
      obtain ⟨s', hrun', htouch'⟩ := ih (htouch.queued hq) hrest
      refine ⟨s', ?_, htouch.trans htouch'⟩
      rw [if_pos hbit]
      dsimp only
      rw [hfirst, hrun, Outcome.bind_done]
      exact hrun'
    · rw [if_neg hbit]
      exact ih hq hrest

/-- So does the walk over the harts. -/
theorem adoptHarts_eq (pid : Nat) (js : List Nat) (hq : Queued s v) :
    ∃ s', adoptHarts 0 pid js s = .done () s' ∧ Touched s s' := by
  induction js generalizing s with
  | nil => exact ⟨s, rfl, Touched.refl s⟩
  | cons j js ih =>
    rw [adoptHarts]
    split
    · obtain ⟨s₁, hrun, htouch⟩ := adoptCircles_eq pid hq
        (fun i (hi : i ∈ List.range 32) => List.mem_range.mp hi)
      obtain ⟨s', hrun', htouch'⟩ := ih (htouch.queued hq)
      refine ⟨s', ?_, htouch.trans htouch'⟩
      rw [hrun, Outcome.bind_done]
      exact hrun'
    · exact ih hq

/-- So does the walk along the wait lists. -/
theorem adoptLists_eq (pid : Nat) (ws : List WaitList) (hq : Queued s v) :
    ∃ s', adoptLists pid ws s = .done () s' ∧ Touched s s' := by
  induction ws generalizing s with
  | nil => exact ⟨s, rfl, Touched.refl s⟩
  | cons w ws ih =>
    obtain ⟨s₁, hrun, htouch⟩ := adoptList_eq pid (n := s.existing.length + 1)
      (hq.threaded.dll w).seg (Nat.lt_succ_of_le (hq.length_le (.wait w)))
    obtain ⟨s', hrun', htouch'⟩ := ih (htouch.queued hq)
    refine ⟨s', ?_, htouch.trans htouch'⟩
    have hrun₁ : adoptList pid (s.existing.length + 1) (s.heads w) s = .done () s₁ := hrun
    rw [adoptLists, hrun₁, Outcome.bind_done]
    exact hrun'

/-! ## The search for a zombie child -/

/-- The search along a list finds the first child in it. -/
theorem findChild_eq (pid : Nat) (hseg : Dll.Seg s.next s.prev 0 p ptr r) (hn : r.length < n) :
    s.findChild pid n ptr =
      .done ((r.find? fun a => (s.procs a).parentPid == pid).getD 0) s := by
  induction r generalizing p ptr n with
  | nil =>
    cases n with
    | zero => exact absurd hn (Nat.not_lt_zero _)
    | succ n =>
      have h0 : ptr = 0 := hseg
      rw [findChild, if_neg fun hc => hc.1 h0, h0]
      rfl
  | cons x r ih =>
    obtain ⟨rfl, hne, _, htail⟩ := hseg
    cases n with
    | zero => exact absurd hn (Nat.not_lt_zero _)
    | succ n =>
      rw [findChild, List.find?_cons]
      by_cases hp : (s.procs ptr).parentPid = pid
      · rw [if_neg fun hc => hc.2 hp, beq_iff_eq.mpr hp]
        rfl
      · rw [if_pos ⟨hne, hp⟩, beq_eq_false_iff_ne.mpr hp]
        exact ih htail (Nat.lt_of_succ_lt_succ hn)

/-! ## Sleepers -/

/-- A time slice cut short touches no queue. -/
theorem curtail_touched (s : Kernel) (h t : Nat) : Touched s (s.curtail h t) := by
  unfold curtail
  split
  · exact Touched.modify s _ _ (fun _ => rfl) (fun _ => rfl) fun _ => ⟨rfl, rfl, rfl, rfl⟩
  · exact Touched.refl s

/-- The sleepers from `ptr` on are counted down, and those whose time has come wake up. -/
theorem Sound.updateSleepListFrom (hs : Sound s v) (hv : v (.wait .sleeping) = l ++ r)
    (hn : r.length < n) :
    ∃ s' v', updateSleepListFrom 0 n (r.head?.getD 0) s = .done () s' ∧ Sound s' v' := by
  induction r generalizing s v l n with
  | nil =>
    cases n with
    | zero => exact absurd hn (Nat.not_lt_zero _)
    | succ n => exact ⟨s, v, rfl, hs⟩
  | cons x r ih =>
    cases n with
    | zero => exact absurd hn (Nat.not_lt_zero _)
    | succ n =>
      have hx : x ∈ v (.wait .sleeping) := by
        rw [hv]
        exact List.mem_append_right _ List.mem_cons_self
      obtain ⟨hex, hpl⟩ := (hs.queued.mem _ x).mp hx
      have hdll := hs.queued.threaded.dll .sleeping
      rw [hv] at hdll
      have hnext : (s.procs x).next = r.head?.getD 0 := hdll.seg.around.2
      have hx0 : x ≠ 0 := hdll.ne_nil x (List.mem_append_right _ List.mem_cons_self)
      have htick : Touched s (s.modify x fun p =>
          { p with ticksLeft := (p.ticksLeft + (2 ^ 32 - 1)) % 2 ^ 32 }) :=
        Touched.modify s x _ (fun _ => rfl) (fun _ => rfl) fun _ => ⟨rfl, rfl, rfl, rfl⟩
      have hs₁ := htick.sound hs
      rw [List.head?_cons, Option.getD_some, Kernel.updateSleepListFrom, if_neg hx0]
      dsimp only
      rw [hnext]
      split
      · have hst : ((s.modify x fun p =>
            { p with ticksLeft := (p.ticksLeft + (2 ^ 32 - 1)) % 2 ^ 32 }).procs x).state =
            WaitList.sleeping.state := (htick.same x).1.trans (Process.state_of_place hpl)
        obtain ⟨s₂, hrun, _, hs₂⟩ := hs₁.unpark (w := .sleeping) (htick.existing ▸ hex) hst
        have hs₃ := (curtail_touched s₂ 0 x).sound hs₂
        have hv₃ :
          Function.update (Function.update v (.wait .sleeping) ((v (.wait .sleeping)).erase x))
            (.circle 0 ((s.modify x fun p =>
              { p with ticksLeft := (p.ticksLeft + (2 ^ 32 - 1)) % 2 ^ 32 }).procs x).priority)
            (v (.circle 0 ((s.modify x fun p =>
              { p with ticksLeft := (p.ticksLeft + (2 ^ 32 - 1)) % 2 ^ 32 }).procs x).priority) ++
                [x])
            (.wait .sleeping) = l ++ r := by
          have hxl : x ∉ l := fun hm =>
            (List.nodup_append.mp hdll.nodup).2.2 x hm x List.mem_cons_self rfl
          rw [Function.update_of_ne (by simp), Function.update_self, hv,
            List.erase_append_right _ hxl, List.erase_cons_head]
        obtain ⟨s', v', hrun', hs'⟩ := ih hs₃ hv₃ (n := n) (Nat.lt_of_succ_lt_succ hn)
        refine ⟨s', v', ?_, hs'⟩
        rw [hrun, Outcome.bind_done]
        exact hrun'
      · have hv₁ : v (.wait .sleeping) = (l ++ [x]) ++ r := by
          rw [hv, List.append_assoc]
          rfl
        exact ih hs₁ hv₁ (Nat.lt_of_succ_lt_succ hn)

/-- The walk over the sleepers returns, and wakes them to their places. -/
theorem Sound.updateSleepList (hs : Sound s v) :
    ∃ s' v', s.updateSleepList 0 = .done () s' ∧ Sound s' v' := by
  have hhead : s.heads .sleeping = (v (.wait .sleeping)).head?.getD 0 :=
    (hs.queued.threaded.dll .sleeping).seg.head_eq
  obtain ⟨s', v', hrun, hs'⟩ := hs.updateSleepListFrom (l := []) (n := s.existing.length + 1) rfl
    (Nat.lt_succ_of_le (hs.queued.length_le _))
  refine ⟨s', v', ?_, hs'⟩
  rw [Kernel.updateSleepList, hhead]
  exact hrun

end RexOS.Scheduler
