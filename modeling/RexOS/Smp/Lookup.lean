import RexOS.Ipc.Searches
import RexOS.Smp.Slice

/-!
# The search for a pid on all harts

`get_process_by_pid` looks through the circles of one hart after the other and then through four of
the lists. It goes on with the other circles of a hart when it has found something, and it leaves
out the zombies. Where pids are given once, there is one process that it can find.
-/

namespace RexOS.Smp

open Scheduler Kernel
open Ipc (Sought findInCircle_sought findInList_sought)

/-- Rings and lists are in order and apart, a pid other than 0 names one process, and the processes
with pid 0 are the idle processes of the harts that are up. -/
structure Searchable (s : Kernel) (v : Place → List Nat) : Prop where
  ring : ∀ j i, v (.circle j i) ≠ [] → s.Linked (.circle j i) (v (.circle j i))
  list : ∀ w, s.Linked (.wait w) (v (.wait w))
  bits : ∀ j i, s.started j = true → i < 32 →
    ((s.bitmap j).testBit i = true ↔ v (.circle j i) ≠ [])
  up : ∀ j i, v (.circle j i) ≠ [] → s.started j = true ∧ j < s.hart ∧ i < 32
  apart : ∀ p q a, a ∈ v p → a ∈ v q → p = q
  nonzero : ∀ p, 0 ∉ v p
  existing : ∀ p, ∀ a ∈ v p, a ∈ s.existing
  unique : ∀ p q, ∀ a ∈ v p, ∀ b ∈ v q, (s.procs a).pid = (s.procs b).pid → (s.procs a).pid ≠ 0 →
    a = b
  first : s.started 0 = true
  idle : ∀ j, s.started j = true →
    (s.queues j).idleProcess ∈ v (.circle j 31) ∧ (s.procs (s.queues j).idleProcess).pid = 0
  idles : ∀ p, ∀ a ∈ v p, (s.procs a).pid = 0 → ∃ j, p = .circle j 31 ∧ a = (s.queues j).idleProcess

/-- What a search should find: the process with the pid that has not exited, for pid 0 the idle
process of hart 0, and nothing else. -/
structure Named (s : Kernel) (v : Place → List Nat) (pid t : Nat) : Prop where
  found : pid ≠ 0 → ∀ q, q ≠ .wait .zombie → ∀ a ∈ v q, (s.procs a).pid = pid → t = a
  idle : pid = 0 → t = (s.queues 0).idleProcess
  none : pid ≠ 0 → (∀ q, q ≠ .wait .zombie → ∀ a ∈ v q, (s.procs a).pid ≠ pid) → t = 0
  zombie : ∀ a ∈ v (.wait .zombie), (s.procs a).pid = pid → t = 0

variable {s : Kernel} {v : Place → List Nat} {pid n ptr head target t u p j : Nat}
  {r xs ys : List Nat}

/-! ## The loops -/

namespace Searchable

/-- A place holds no more processes than there are. -/
theorem length_le (hs : Searchable s v) {q : Place} (hd : (v q).Nodup) :
    (v q).length ≤ s.existing.length :=
  (hd.subperm fun a ha => hs.existing q a ha).length_le

/-- The search through the circles of a hart finds a process with the pid, or keeps what was
found. -/
theorem findInCircles (hs : Searchable s v) (hj : s.started j = true) {is : List Nat}
    (his : ∀ i ∈ is, i < 32) (pid target : Nat) :
    ∃ t, s.findInCircles pid j is target = .done t s ∧
      Sought s pid (is.flatMap fun i => v (.circle j i)) target t := by
  induction is generalizing target with
  | nil => exact ⟨target, rfl, Sought.nil s pid target⟩
  | cons i is ih =>
    have hrest : ∀ i ∈ is, i < 32 := fun i hi => his i (List.mem_cons_of_mem _ hi)
    have hbits := hs.bits j i hj (his i List.mem_cons_self)
    rw [Kernel.findInCircles, List.flatMap_cons]
    cases hv : v (.circle j i) with
    | nil =>
      have hbit : ¬ (s.queues j).lookupBitmap.testBit i = true := fun hb => hbits.mp hb hv
      rw [if_neg hbit]
      exact ih hrest target
    | cons y zs =>
      have hne : v (.circle j i) ≠ [] := hv ▸ List.cons_ne_nil y zs
      have hbit : (s.queues j).lookupBitmap.testBit i = true := hbits.mpr hne
      obtain ⟨hw, hfirst⟩ := hs.ring j i hne
      have hlen := hs.length_le hw.nodup
      rw [hv] at hw hfirst hlen
      have hhead : (s.queues j).activeProcessCircles i = y := hfirst
      rw [List.length_cons] at hlen
      obtain ⟨t, hrun, ht⟩ := findInCircle_sought (n := s.existing.length + 1) pid target
        (hw.inner.imp fun _ _ h => h.1) hw.next_last (List.nodup_cons.mp hw.nodup).1 (by omega)
      obtain ⟨u, hrun', hu⟩ := ih hrest t
      refine ⟨u, ?_, ht.append hu⟩
      rw [if_pos hbit]
      dsimp only
      rw [hhead, hrun, Outcome.bind_done]
      exact hrun'

/-- The processes on the circles of harts, in the order in which they are looked at. -/
def onRings (v : Place → List Nat) (js : List Nat) : List Nat :=
  js.flatMap fun j => (List.range 32).flatMap fun i => v (.circle j i)

/-- So does the search through the harts. -/
theorem findInHarts (hs : Searchable s v) (js : List Nat) (pid target : Nat) :
    ∃ t, s.findInHarts pid js target = .done t s ∧ Sought s pid (onRings v js) target t := by
  induction js generalizing target with
  | nil => exact ⟨target, rfl, Sought.nil s pid target⟩
  | cons j js ih =>
    rw [Kernel.findInHarts, onRings, List.flatMap_cons]
    by_cases hj : s.started j = true
    · obtain ⟨t, hrun, ht⟩ := hs.findInCircles hj
        (fun i (hi : i ∈ List.range 32) => List.mem_range.mp hi) pid target
      rw [if_pos hj, hrun, Outcome.bind_done]
      by_cases h0 : t = 0
      · obtain ⟨u, hrun', hu⟩ := ih t
        exact ⟨u, (if_neg (not_not.mpr h0)).trans hrun', ht.append hu⟩
      · exact ⟨t, if_pos h0, ht.append (Sought.skip s pid _ h0)⟩
    · have hnone : ((List.range 32).flatMap fun i => v (.circle j i)) = [] := by
        refine List.flatMap_eq_nil_iff.mpr fun i _ => ?_
        by_contra hne
        exact hj (hs.up j i hne).1
      rw [if_neg hj, hnone]
      exact ih target

/-- So does the search through the wait lists. -/
theorem findInLists (hs : Searchable s v) (ws : List WaitList) (pid target : Nat) :
    ∃ t, s.findInLists pid ws target = .done t s ∧
      Sought s pid (ws.flatMap fun w => v (.wait w)) target t := by
  induction ws generalizing target with
  | nil => exact ⟨target, rfl, Sought.nil s pid target⟩
  | cons w ws ih =>
    have hd : Dll s.next s.prev 0 (s.first (.wait w)) (v (.wait w)) := hs.list w
    have hlen := hs.length_le hd.nodup
    obtain ⟨t, hrun, ht⟩ := findInList_sought (n := s.existing.length + 1) pid target hd.seg
      (Nat.lt_succ_of_le hlen)
    obtain ⟨u, hrun', hu⟩ := ih t
    have hfirst : s.findInList pid (s.existing.length + 1) (s.heads w) target = .done t s := hrun
    refine ⟨u, ?_, ht.append hu⟩
    rw [Kernel.findInLists, hfirst, Outcome.bind_done]
    exact hrun'

/-! ## The search -/

/-- Every circle of a started hart is searched. -/
theorem mem_onRings (hs : Searchable s v) {a i : Nat} (ha : a ∈ v (.circle j i)) :
    a ∈ onRings v (List.range s.hart) := by
  obtain ⟨-, hj, hi⟩ := hs.up j i (List.ne_nil_of_mem ha)
  exact List.mem_flatMap.mpr ⟨j, List.mem_range.mpr hj,
    List.mem_flatMap.mpr ⟨i, List.mem_range.mpr hi, ha⟩⟩

/-- The lists that are looked through. -/
def searchedLists : List WaitList := [.blocked, .blockedIpc, .blockedIpcSend, .sleeping]

/-- Every process but the zombies is looked at. -/
theorem mem_searched (hs : Searchable s v) {q : Place} {a : Nat} :
    a ∈ onRings v (List.range s.hart) ++ searchedLists.flatMap (fun w => v (.wait w)) ∧ a ∈ v q ↔
      q ≠ .wait .zombie ∧ a ∈ v q := by
  refine and_congr_left fun hq => ?_
  rw [List.mem_append]
  constructor
  · rintro (hring | hlist) rfl
    · obtain ⟨j, -, hj⟩ := List.mem_flatMap.mp hring
      obtain ⟨i, -, hi⟩ := List.mem_flatMap.mp hj
      exact absurd (hs.apart _ _ a hi hq) (by simp)
    · obtain ⟨w, hw, ha⟩ := List.mem_flatMap.mp hlist
      obtain rfl := Place.wait.inj (hs.apart _ _ a ha hq)
      exact absurd hw (by decide)
  · intro hne
    cases q with
    | circle j i => exact Or.inl (hs.mem_onRings hq)
    | wait w =>
      refine Or.inr (List.mem_flatMap.mpr ⟨w, ?_, hq⟩)
      cases w with
      | zombie => exact absurd rfl hne
      | blocked | sleeping | blockedIpc | blockedIpcSend => decide

/-- Whatever a search has looked at has a place. -/
theorem exists_place {a : Nat}
    (ha : a ∈ onRings v (List.range s.hart) ++ searchedLists.flatMap (fun w => v (.wait w))) :
    ∃ q, a ∈ v q := by
  rcases List.mem_append.mp ha with hring | hlist
  · obtain ⟨j, -, hj⟩ := List.mem_flatMap.mp hring
    obtain ⟨i, -, hi⟩ := List.mem_flatMap.mp hj
    exact ⟨_, hi⟩
  · obtain ⟨w, -, hw⟩ := List.mem_flatMap.mp hlist
    exact ⟨_, hw⟩

/-- The whole search. -/
theorem getProcessByPid (hs : Searchable s v) (pid : Nat) : ∃ t, s.getProcessByPid pid = .done t s ∧
    Sought s pid (onRings v (List.range s.hart) ++ searchedLists.flatMap fun w => v (.wait w)) 0
      t := by
  obtain ⟨t, hrun, ht⟩ := hs.findInHarts (List.range s.hart) pid 0
  obtain ⟨u, hrun', hu⟩ := hs.findInLists searchedLists pid t
  refine ⟨u, ?_, ht.append hu⟩
  rw [Kernel.getProcessByPid, hrun, Outcome.bind_done]
  exact hrun'

/-- The idle process of hart 0 is the only one with its pid on that hart, and its hart comes
first. -/
theorem getProcessByPid_zero (hs : Searchable s v) :
    s.getProcessByPid 0 = .done (s.queues 0).idleProcess s := by
  obtain ⟨hidle, hpid⟩ := hs.idle 0 hs.first
  have hidle0 : (s.queues 0).idleProcess ≠ 0 := fun he => hs.nonzero _ (he ▸ hidle)
  obtain ⟨t, hrun, ht⟩ := hs.findInCircles hs.first
    (fun i (hi : i ∈ List.range 32) => List.mem_range.mp hi) 0 0
  have hfound : t = (s.queues 0).idleProcess := by
    rcases ht with ⟨-, hnone⟩ | ⟨hmem, hp⟩
    · have hin : (s.queues 0).idleProcess ∈ (List.range 32).flatMap fun i => v (.circle 0 i) :=
        List.mem_flatMap.mpr ⟨31, by decide, hidle⟩
      exact absurd hpid (hnone rfl _ hin)
    · obtain ⟨i, -, hi⟩ := List.mem_flatMap.mp hmem
      obtain ⟨j, hq, rfl⟩ := hs.idles _ t hi hp
      rw [(Place.circle.inj hq).1]
  subst hfound
  obtain ⟨-, hhart, -⟩ := hs.up 0 31 (List.ne_nil_of_mem hidle)
  obtain ⟨js, hjs⟩ : ∃ js, List.range s.hart = 0 :: js := by
    obtain ⟨n, hn⟩ := Nat.exists_eq_succ_of_ne_zero hhart.ne'
    rw [hn, List.range_succ_eq_map]
    exact ⟨_, rfl⟩
  have hharts : s.findInHarts 0 (List.range s.hart) 0 = .done (s.queues 0).idleProcess s := by
    rw [hjs, Kernel.findInHarts, if_pos hs.first, hrun, Outcome.bind_done, if_pos hidle0]
  obtain ⟨u, hrun', hu⟩ := hs.findInLists searchedLists 0 (s.queues 0).idleProcess
  have hlast : u = (s.queues 0).idleProcess := by
    rcases hu with ⟨rfl, -⟩ | ⟨hmem, hp⟩
    · rfl
    · -- no list holds an idle process
      obtain ⟨w, -, hw⟩ := List.mem_flatMap.mp hmem
      obtain ⟨j, hq, -⟩ := hs.idles _ u hw hp
      exact absurd hq (by simp)
  rw [hlast] at hrun'
  rw [Kernel.getProcessByPid, hharts, Outcome.bind_done]
  exact hrun'

end Searchable

/-- A settled kernel can be searched where hart 0 is up and no pid is given twice. -/
theorem Settled.searchable (hs : Settled s v) (h0 : s.started 0 = true)
    (hu : ∀ a ∈ s.existing, ∀ b ∈ s.existing, (s.procs a).pid = (s.procs b).pid →
      (s.procs a).pid ≠ 0 → a = b) :
    Searchable s v where
  ring j i _ := hs.threaded.linked (.circle j i)
  list w := hs.threaded.linked (.wait w)
  bits j i _ hi := hs.threaded.bits j i hi
  up j i hne := by
    obtain ⟨a, ha⟩ := List.exists_mem_of_ne_nil _ hne
    obtain ⟨hup, -⟩ := hs.valid.circle ha
    exact ⟨hup, hs.range j hup, hs.threaded.lt_of_mem ha⟩
  apart := hs.threaded.apart
  nonzero := hs.threaded.nonzero
  existing q _ ha := hs.mem_existing ha
  unique p q a ha b hb := hu a (hs.mem_existing ha) b (hs.mem_existing hb)
  first := h0
  idle _ hj := hs.valid.idle hj
  idles q a ha hpid := by
    cases q with
    | circle j i =>
      obtain rfl : a = (s.queues j).idleProcess := hs.valid.idles ha hpid
      obtain ⟨hidle, -⟩ := hs.valid.idle (hs.valid.circle ha).1
      exact ⟨j, hs.threaded.apart _ _ _ ha hidle, rfl⟩
    | wait w => exact absurd hpid (hs.valid.wait ha).2

/-- The search ends, and finds the process that the pid names, if there is one that has not
exited. -/
theorem getProcessByPid_names (hs : Searchable s v) (pid : Nat) :
    ∃ t, s.getProcessByPid pid = .done t s ∧ Named s v pid t := by
  by_cases h0 : pid = 0
  · subst h0
    refine ⟨_, hs.getProcessByPid_zero, fun h => absurd rfl h, fun _ => rfl, fun h => absurd rfl h,
      fun a ha hpid => ?_⟩
    obtain ⟨j, hq, -⟩ := hs.idles _ a ha hpid
    exact absurd hq (by simp)
  · obtain ⟨t, hrun, ht⟩ := hs.getProcessByPid pid
    have hnone : (∀ q, q ≠ .wait .zombie → ∀ a ∈ v q, (s.procs a).pid ≠ pid) → t = 0 := by
      intro hno
      rcases ht with ⟨rfl, -⟩ | ⟨hmem, hpid⟩
      · rfl
      · obtain ⟨q, hq⟩ := Searchable.exists_place hmem
        exact absurd hpid (hno q (hs.mem_searched.mp ⟨hmem, hq⟩).1 t hq)
    refine ⟨t, hrun, fun _ q hne a ha hpid => ?_, fun h => absurd h h0, fun _ => hnone,
      fun z hz hpid => ?_⟩
    · have hin := (hs.mem_searched.mpr ⟨hne, ha⟩).1
      rcases ht with ⟨-, hno⟩ | ⟨hmem, htpid⟩
      · exact absurd hpid (hno rfl a hin)
      · obtain ⟨q', hq'⟩ := Searchable.exists_place hmem
        exact hs.unique q' q t hq' a ha (htpid.trans hpid.symm) (htpid ▸ h0)
    · -- the pid of a zombie is the pid of nobody else
      refine hnone fun q hne a ha hpid' => hne ?_
      obtain rfl := hs.unique q _ a ha z hz (hpid'.trans hpid.symm) (hpid' ▸ h0)
      exact hs.apart q _ a ha hz

/-- Two harts, and a process on one of them. -/
theorem finds_spawned : ∃ (s : Kernel) (v : Place → List Nat), Searchable s v ∧ s.hart = 2 ∧
    3 ∈ s.existing ∧ (s.procs 3).pid = 1 ∧ ∃ t, s.getProcessByPid 1 = .done t s ∧
      Named s v 1 t := by
  have hreach : Reaches Machine.Careful
      (fun m => m.kernel.hart = 2 ∧ m.kernel.started 0 = true ∧ 3 ∈ m.kernel.existing ∧
        (m.kernel.procs 3).pid = 1 ∧ ∀ a ∈ m.kernel.existing, ∀ b ∈ m.kernel.existing,
          (m.kernel.procs a).pid = (m.kernel.procs b).pid → (m.kernel.procs a).pid ≠ 0 → a = b)
      (booted emptyMemory 1 1) [.event (.start 1 2), .event (.spawn 0 3 ⟨0, 0⟩ 16)] := by
    decide +kernel
  obtain ⟨g, m, hr, hc, hhart, h0, hex, hpid, hu⟩ := hreach.exists_run .careful .nil Run.Steps.nil
  obtain ⟨v, hv⟩ := steady_run (by decide) hr hc
  have hs := hv.settled.searchable h0 hu
  exact ⟨m.kernel, v, hs, hhart, hex, hpid, getProcessByPid_names hs 1⟩

end RexOS.Smp
