import RexOS.Smp.Slice
import Mathlib.Data.List.Perm.Subperm

/-!
# Work stealing

`steal_process` on any kernel whose circles are well formed, whatever its lists and its pids are.
The victim is the first hart that has a process to spare, and the process is the first one on the
circle of the smallest number.
-/

namespace RexOS.Scheduler

open Kernel

variable {s : Kernel} {h i k j a t core x : Nat}

/-- The part of a queue that is linked, if its hart is up. -/
def Runqueue.guard (up : Bool) (q : Runqueue) : Runqueue :=
  { q with
    activeProcessCircles := fun i => if up = true ∧ i < 32 then q.activeProcessCircles i else 0
    lookupBitmap := if up = true then q.lookupBitmap else 0
    processCount := if up = true then q.processCount else 0 }

/-- The circles of the harts that are up, and no lists. -/
def Kernel.circlesOnly (s : Kernel) : Kernel :=
  { s with
    queues := fun h => (s.queues h).guard (s.started h)
    heads := fun _ => 0 }

namespace Kernel

/-- An update of a queue that is up does not mind the queues that are not. -/
theorem circlesOnly_onQueue {f : Runqueue → Runqueue} (hh : s.started h = true)
    (hf : (f (s.queues h)).guard true = f ((s.queues h).guard true)) :
    (s.onQueue h f).circlesOnly = s.circlesOnly.onQueue h f := by
  unfold onQueue circlesOnly
  congr 1
  funext k
  by_cases hk : k = h
  · subst hk
    simp only [Function.update_self]
    rw [hh]
    exact hf
  · simp only [Function.update_of_ne hk]

/-- Nor does one of a circle pointer. -/
theorem circlesOnly_setCircle (hh : s.started h = true) (hi : i < 32) :
    (s.setCircle h i x).circlesOnly = s.circlesOnly.setCircle h i x := by
  refine circlesOnly_onQueue hh ?_
  unfold Runqueue.guard
  congr 1
  funext j
  by_cases hj : j = i
  · subst hj
    simp [hi]
  · simp [Function.update_of_ne hj]

/-- Nor does one of the bitmap. -/
theorem circlesOnly_setBitmap (hh : s.started h = true) :
    (s.setBitmap h x).circlesOnly = s.circlesOnly.setBitmap h x := circlesOnly_onQueue hh rfl

/-- Nor does one of the count. -/
theorem circlesOnly_mapCount (f : Nat → Nat) (hh : s.started h = true) :
    (s.mapCount h f).circlesOnly = s.circlesOnly.mapCount h f := circlesOnly_onQueue hh rfl

/-- The circles of a hart that is up are the same. -/
theorem circles_circlesOnly (hh : s.started h = true) (hi : i < 32) :
    (s.circlesOnly.queues h).activeProcessCircles i = (s.queues h).activeProcessCircles i :=
  if_pos ⟨hh, hi⟩

/-- So is its bitmap. -/
theorem bitmap_circlesOnly (hh : s.started h = true) :
    (s.circlesOnly.queues h).lookupBitmap = (s.queues h).lookupBitmap := if_pos hh

/-- Leaving a circle minds its own queue only. -/
theorem circlesOnly_leaveCircle (hh : s.started h = true) (hi : (s.procs t).priority < 32) :
    (s.leaveCircle h t).circlesOnly = s.circlesOnly.leaveCircle h t := by
  have hprocs : s.circlesOnly.procs = s.procs := rfl
  unfold leaveCircle
  dsimp only
  rw [hprocs]
  by_cases hself : (s.procs t).next = t
  · rw [if_pos hself, if_pos hself, circlesOnly_mapCount _ (by exact hh),
      circlesOnly_setBitmap (by exact hh), circlesOnly_setCircle hh hi, bitmap_circlesOnly hh]
  · rw [if_neg hself, if_neg hself, circlesOnly_mapCount _ (by split <;> exact hh)]
    congr 1
    have hhead :
      ((((s.circlesOnly.setPrev (s.procs t).next (s.procs t).prev).setNext (s.procs t).prev
        (s.procs t).next).queues h).activeProcessCircles (s.procs t).priority) =
        ((((s.setPrev (s.procs t).next (s.procs t).prev).setNext (s.procs t).prev
        (s.procs t).next).queues h).activeProcessCircles (s.procs t).priority) :=
          circles_circlesOnly hh hi
    rw [hhead]
    split
    · rw [circlesOnly_setCircle (by exact hh) hi]
      rfl
    · rfl

/-- So does joining one. -/
theorem circlesOnly_joinCircle (hh : s.started h = true) (hi : (s.procs t).priority < 32) :
    (s.joinCircle h t).circlesOnly = s.circlesOnly.joinCircle h t := by
  have hprocs : s.circlesOnly.procs = s.procs := rfl
  unfold joinCircle
  dsimp only
  rw [hprocs, bitmap_circlesOnly hh, circles_circlesOnly hh hi]
  split
  · rw [circlesOnly_mapCount _ (by exact hh)]
    congr 1
    show _ = Kernel.setPrev _ ((s.circlesOnly.queues h).activeProcessCircles _) _
    rw [show (s.circlesOnly.setNext t
      ((s.queues h).activeProcessCircles (s.procs t).priority)).queues =
      s.circlesOnly.queues from rfl, circles_circlesOnly hh hi]
    rfl
  · have hbit : (((s.circlesOnly.setNext t t).setPrev t t).queues h).lookupBitmap =
        (((s.setNext t t).setPrev t t).queues h).lookupBitmap := bitmap_circlesOnly hh
    rw [hbit, circlesOnly_mapCount _ (by exact hh), circlesOnly_setBitmap (by exact hh),
      circlesOnly_setCircle (by exact hh) hi]
    rfl

/-- So does moving over. -/
theorem circlesOnly_moveOver (hh : s.started h = true) (hc : s.started core = true)
    (hi : (s.procs t).priority < 32) :
    (s.moveOver h t core).circlesOnly = s.circlesOnly.moveOver h t core := by
  have hprio : ((s.leaveCircle core t).procs t).priority = (s.procs t).priority := by
    have hb : ((s.leaveCircle core t).bare.procs t).priority = (s.bare.procs t).priority := by
      rw [bare_leaveCircle]
    exact hb
  have hup : (s.leaveCircle core t).started = s.started := by
    have hb : (s.leaveCircle core t).bare.started = s.bare.started := by rw [bare_leaveCircle]
    exact hb
  rw [moveOver, moveOver, ← circlesOnly_leaveCircle hc hi,
    ← circlesOnly_joinCircle (by rw [hup]; exact hh) (by rw [hprio]; exact hi)]
  rfl

/-! ## What a move leaves alone -/

/-- A store into a link changes one process. -/
theorem procs_setNext (hx : k ≠ a) : (s.setNext a x).procs k = s.procs k :=
  Function.update_of_ne hx _ _

theorem procs_setPrev (hx : k ≠ a) : (s.setPrev a x).procs k = s.procs k :=
  Function.update_of_ne hx _ _

/-- Leaving a circle changes the two neighbours. -/
theorem procs_leaveCircle (hn : k ≠ s.next t) (hp : k ≠ s.prev t) :
    (s.leaveCircle h t).procs k = s.procs k := by
  unfold leaveCircle
  dsimp only
  split
  · rfl
  · show (Kernel.procs (if _ then Kernel.setCircle _ h _ _ else _)) k = _
    split
    · exact (procs_setNext hp).trans (procs_setPrev hn)
    · exact (procs_setNext hp).trans (procs_setPrev hn)

/-- Joining one changes the process and the two ends. -/
theorem procs_joinCircle (ht : k ≠ t) (hy : (s.bitmap h).testBit (s.procs t).priority = true →
      k ≠ s.first (.circle h (s.procs t).priority) ∧
        k ≠ s.prev (s.first (.circle h (s.procs t).priority))) :
    (s.joinCircle h t).procs k = s.procs k := by
  by_cases hbit : (s.bitmap h).testBit (s.procs t).priority = true
  · obtain ⟨hne, hprev⟩ := hy hbit
    rw [Threaded.joinCircle_eq hbit rfl]
    exact (procs_setPrev hne).trans
      ((procs_setNext hprev).trans ((procs_setPrev ht).trans (procs_setNext ht)))
  · have hb : ¬ (s.queues h).lookupBitmap.testBit (s.procs t).priority = true := hbit
    unfold joinCircle
    dsimp only
    rw [if_neg hb]
    exact (procs_setPrev ht).trans (procs_setNext ht)

/-- Neither changes the wait lists. -/
theorem heads_leaveCircle : (s.leaveCircle h t).heads = s.heads := by
  unfold leaveCircle
  dsimp only
  split
  · rfl
  · show (Kernel.heads (if _ then Kernel.setCircle _ h _ _ else _)) = _
    split <;> rfl

theorem heads_joinCircle : (s.joinCircle h t).heads = s.heads := by
  unfold joinCircle
  dsimp only
  split <;> rfl

/-- Leaving changes one queue. -/
theorem queues_leaveCircle (hk : k ≠ h) : (s.leaveCircle h t).queues k = s.queues k := by
  unfold leaveCircle
  dsimp only
  split
  · exact (Function.update_of_ne hk _ _).trans
      ((Function.update_of_ne hk _ _).trans (Function.update_of_ne hk _ _))
  · refine (Function.update_of_ne hk _ _).trans ?_
    split
    · exact Function.update_of_ne hk _ _
    · rfl

/-- So does joining. -/
theorem queues_joinCircle (hk : k ≠ h) : (s.joinCircle h t).queues k = s.queues k := by
  unfold joinCircle
  dsimp only
  split
  · exact Function.update_of_ne hk _ _
  · exact (Function.update_of_ne hk _ _).trans
      ((Function.update_of_ne hk _ _).trans (Function.update_of_ne hk _ _))

/-- Only the bit of the priority is stored. -/
theorem testBit_leaveCircle (hj : j ≠ (s.procs t).priority) :
    ((s.leaveCircle h t).bitmap k).testBit j = (s.bitmap k).testBit j := by
  unfold leaveCircle
  dsimp only
  split
  · rw [bitmap_mapCount, bitmap_setBitmap, bitmap_setCircle]
    by_cases hk : k = h
    · subst hk
      rw [Function.update_self, Bits.testBit_andNot, Nat.testBit_two_pow]
      simp [Ne.symm hj, Kernel.bitmap]
    · rw [Function.update_of_ne hk]
  · rw [bitmap_mapCount]
    split
    · rw [bitmap_setCircle]
      rfl
    · rfl

/-- Joining a circle sets the bit of its priority only. -/
theorem testBit_joinCircle (hj : j ≠ (s.procs t).priority) :
    ((s.joinCircle h t).bitmap k).testBit j = (s.bitmap k).testBit j := by
  unfold joinCircle
  dsimp only
  split
  · rw [bitmap_mapCount]
    rfl
  · rw [bitmap_mapCount, bitmap_setBitmap, bitmap_setCircle]
    by_cases hk : k = h
    · subst hk
      rw [Function.update_self, Nat.testBit_or, Nat.testBit_two_pow]
      simp [Ne.symm hj, Kernel.bitmap, setNext, setPrev, modify]
    · rw [Function.update_of_ne hk]
      rfl

end Kernel

end RexOS.Scheduler

namespace RexOS.Smp

open Scheduler Kernel

variable {s s' : Kernel} {v : Place → List Nat} {c : Nat → Nat → List Nat} {h i j k a t core : Nat}

/-- The runqueues of the harts that are up: `c h i` are the processes on a circle, in order, each
circle has its bit, and the processes are counted. The idle process is alone on the last circle, and
the process that runs is on a circle of its hart. -/
structure Runqueues (s : Kernel) (c : Nat → Nat → List Nat) : Prop where
  wheel : ∀ h i, s.started h = true → i < 32 → Wheel s.next s.prev (c h i)
  first : ∀ h i, s.started h = true → i < 32 → s.first (.circle h i) = (c h i).head?.getD 0
  down : ∀ h i, ¬ (s.started h = true ∧ i < 32) → c h i = []
  apart : ∀ h i k j a, a ∈ c h i → a ∈ c k j → h = k ∧ i = j
  nonzero : ∀ h i, 0 ∉ c h i
  bits : ∀ h i, s.started h = true → i < 32 → ((s.bitmap h).testBit i = true ↔ c h i ≠ [])
  counted : ∀ h, s.started h = true → s.count h = ∑ i ∈ Finset.range 32, (c h i).length
  priority : ∀ h i, ∀ a ∈ c h i, (s.procs a).priority = i
  existing : ∀ h i, ∀ a ∈ c h i, a ∈ s.existing
  idle : ∀ h, s.started h = true → c h 31 = [(s.queues h).idleProcess]
  curr : ∀ h, s.started h = true → ∃ i, s.curr h ∈ c h i
  range : ∀ h, s.started h = true → h < s.hart

/-- The places of these processes. -/
def ringPlaces (c : Nat → Nat → List Nat) : Place → List Nat
  | .circle h i => c h i
  | .wait _ => []

/-- A process comes from a circle of one hart to the end of that of another one. -/
def moved (c : Nat → Nat → List Nat) (h core i t : Nat) : Nat → Nat → List Nat :=
  fun k j => if k = h ∧ j = i then c h i ++ [t] else if k = core ∧
    j = i then (c core i).erase t else c k j

/-- The places after the process has moved over. -/
theorem ringPlaces_moved (hne : core ≠ h) : ringPlaces (moved c h core (s.procs t).priority t) =
    stolenPlaces s (ringPlaces c) h t core := by
  funext q
  unfold stolenPlaces
  cases q with
  | wait w => rfl
  | circle k j =>
    show moved c h core (s.procs t).priority t k j = _
    unfold moved
    by_cases hk : k = h ∧ j = (s.procs t).priority
    · obtain ⟨rfl, rfl⟩ := hk
      rw [if_pos ⟨rfl, rfl⟩, Function.update_self]
      rfl
    · have hq : Place.circle k j ≠ .circle h (s.procs t).priority :=
        fun he => hk (by simpa using he)
      rw [if_neg hk, Function.update_of_ne hq]
      by_cases hc : k = core ∧ j = (s.procs t).priority
      · obtain ⟨rfl, rfl⟩ := hc
        rw [if_pos ⟨rfl, rfl⟩, Function.update_self]
        rfl
      · have hq : Place.circle k j ≠ .circle core (s.procs t).priority :=
          fun he => hc (by simpa using he)
        rw [if_neg hc, Function.update_of_ne hq]
        rfl

namespace Runqueues

/-- Sound run queues thread their circles. -/
theorem threaded (hc : Runqueues s c) : Threaded s.circlesOnly (ringPlaces c) where
  linked := by
    rintro (⟨h, i⟩ | w)
    · by_cases hup : s.started h = true ∧ i < 32
      · refine ⟨hc.wheel h i hup.1 hup.2, ?_⟩
        exact (circles_circlesOnly hup.1 hup.2).trans (hc.first h i hup.1 hup.2)
      · show Wheel _ _ (c h i) ∧ _ = (c h i).head?.getD 0
        rw [hc.down h i hup]
        exact ⟨Wheel.empty, if_neg hup⟩
    · exact Dll.empty
  apart := by
    rintro (⟨h, i⟩ | w) (⟨k, j⟩ | w') a hp hq
    · obtain ⟨rfl, rfl⟩ := hc.apart h i k j a hp hq
      rfl
    · exact absurd hq List.not_mem_nil
    · exact absurd hp List.not_mem_nil
    · exact absurd hp List.not_mem_nil
  nonzero := by
    rintro (⟨h, i⟩ | w)
    · exact hc.nonzero h i
    · exact List.not_mem_nil
  low h i hi := hc.down h i fun hup => absurd hup.2 (Nat.not_lt.mpr hi)
  bits h i hi := by
    by_cases hup : s.started h = true
    · have hb : s.circlesOnly.bitmap h = s.bitmap h := if_pos hup
      rw [hb]
      exact hc.bits h i hup hi
    · have hb : s.circlesOnly.bitmap h = 0 := if_neg hup
      have hempty : c h i = [] := hc.down h i fun hu => hup hu.1
      rw [hb]
      exact iff_of_false (by simp) (not_not.mpr hempty)
  counted h := by
    by_cases hup : s.started h = true
    · exact (if_pos hup).trans (hc.counted h hup)
    · refine (if_neg hup).trans (Finset.sum_eq_zero fun i _ => ?_).symm
      show (c h i).length = 0
      rw [hc.down h i fun hu => hup hu.1]
      rfl

end Runqueues

/-- The same, from what they are threaded through. -/
theorem runqueues_of_threaded (ht : Threaded s.circlesOnly (ringPlaces c))
    (hprio : ∀ h i, ∀ a ∈ c h i, (s.procs a).priority = i)
    (hex : ∀ h i, ∀ a ∈ c h i, a ∈ s.existing)
    (hidle : ∀ h, s.started h = true → c h 31 = [(s.queues h).idleProcess])
    (hcurr : ∀ h, s.started h = true → ∃ i, s.curr h ∈ c h i)
    (hrange : ∀ h, s.started h = true → h < s.hart) :
    Runqueues s c where
  wheel h i _ _ := ht.wheel h i
  first h i hup hi := (circles_circlesOnly hup hi).symm.trans (ht.first_circle h i)
  down h i hno := by
    by_cases hi : i < 32
    · have hup : ¬ s.started h = true := fun hu => hno ⟨hu, hi⟩
      by_contra hne
      have hbit := (ht.bits h i hi).mpr hne
      have hb : s.circlesOnly.bitmap h = 0 := if_neg hup
      rw [hb, Nat.zero_testBit] at hbit
      exact absurd hbit (by decide)
    · exact ht.low h i (Nat.not_lt.mp hi)
  apart h i k j a hp hq := by
    have he := ht.apart (.circle h i) (.circle k j) a hp hq
    exact ⟨(Place.circle.inj he).1, (Place.circle.inj he).2⟩
  nonzero h i := ht.nonzero (.circle h i)
  bits h i hup hi := by
    have hb : s.circlesOnly.bitmap h = s.bitmap h := if_pos hup
    rw [← hb]
    exact ht.bits h i hi
  counted h hup := ((if_pos hup : s.circlesOnly.count h = s.count h).symm).trans (ht.counted h)
  priority := hprio
  existing := hex
  idle := hidle
  curr := hcurr
  range := hrange

/-! ## The victim -/

/-- The hart has a process to spare. -/
def Robbable (s : Kernel) (c : Nat → Nat → List Nat) (h core : Nat) : Prop :=
  s.started core = true ∧ core ≠ h ∧ 1 < s.count core ∧ ∃ i < 31, ∃ a ∈ c core i, a ≠ s.curr core

/-- The process is the first one of the smallest number that the hart can spare. -/
structure Spared (s : Kernel) (c : Nat → Nat → List Nat) (core i t : Nat) : Prop where
  low : i < 31
  mem : t ∈ c core i
  idle : t ≠ s.curr core
  front : (c core i).find? (fun a => a != s.curr core) = some t
  lowest : ∀ j < i, ∀ a ∈ c core j, a = s.curr core

namespace Runqueues

/-- A circle that has a first process. -/
theorem circle_of_bit (hc : Runqueues s c) (hup : s.started h = true) (hi : i < 32)
    (hbit : (s.queues h).lookupBitmap.testBit i = true) :
    ∃ y zs, c h i = y :: zs ∧ (s.queues h).activeProcessCircles i = y ∧
      (y :: zs).IsChain (fun a b => s.next a = b) ∧ s.next (zs.getLast?.getD y) = y ∧ y ∉ zs ∧
      zs.length < s.existing.length + 1 := by
  obtain ⟨y, zs, hxs⟩ := List.exists_cons_of_ne_nil ((hc.bits h i hup hi).mp hbit)
  have hw := hc.wheel h i hup hi
  have hfirst := hc.first h i hup hi
  have hlen : (c h i).length ≤ s.existing.length :=
    (List.subperm_of_subset hw.nodup (hc.existing h i)).length_le
  rw [hxs] at hw hfirst hlen
  rw [List.length_cons] at hlen
  exact ⟨y, zs, hxs, hfirst, hw.inner.imp fun _ _ hn => hn.1, hw.next_last,
    (List.nodup_cons.mp hw.nodup).1, by omega⟩

/-- The search in the circles of a hart from the number `i` on. -/
theorem findStealable (hc : Runqueues s c) (hup : s.started core = true) {n : Nat} (hn : i + n = 31)
    (hlow : ∀ j < i, ∀ a ∈ c core j, a = s.curr core) :
    ∃ t, s.findStealable core (List.range' i n) = .done t s ∧
      (t = 0 ∧ (∀ j < 31, ∀ a ∈ c core j, a = s.curr core) ∨ t ≠ 0 ∧ ∃ j, Spared s c core j t) := by
  induction n generalizing i with
  | zero =>
    obtain rfl : i = 31 := hn
    exact ⟨0, rfl, Or.inl ⟨rfl, hlow⟩⟩
  | succ n ih =>
    rw [List.range'_succ, Kernel.findStealable]
    have hnext : (∀ a ∈ c core i, a = s.curr core) → ∀ j < i + 1, ∀ a ∈ c core j,
        a = s.curr core := by
      intro hall j hj
      rcases Nat.lt_succ_iff_lt_or_eq.mp hj with hj | rfl
      · exact hlow j hj
      · exact hall
    by_cases hbit : (s.queues core).lookupBitmap.testBit i = true
    · obtain ⟨y, zs, hxs, hfirst, hchain, hlast, hne, hlen⟩ := hc.circle_of_bit hup (by omega) hbit
      rw [if_pos hbit]
      dsimp only
      rw [hfirst, findOther_eq hchain hlast hne hlen, Outcome.bind_done, ← hxs]
      cases hfind : (c core i).find? fun a => a != s.curr core with
      | none =>
        rw [Option.getD_none, if_neg (not_not.mpr rfl)]
        refine ih (by omega) (hnext fun a ha => ?_)
        have hno := List.find?_eq_none.mp hfind a ha
        simpa using hno
      | some t =>
        have hmem : t ∈ c core i := List.mem_of_find?_eq_some hfind
        have h0 : t ≠ 0 := fun he => hc.nonzero core i (he ▸ hmem)
        have hidle : t ≠ s.curr core := by simpa using List.find?_some hfind
        rw [Option.getD_some, if_pos h0]
        exact ⟨t, rfl, Or.inr ⟨h0, i, by omega, hmem, hidle, hfind, hlow⟩⟩
    · rw [if_neg hbit]
      refine ih (by omega) (hnext fun a ha => absurd ha ?_)
      have hempty : c core i = [] := by
        by_contra hne
        exact hbit ((hc.bits core i hup (by omega)).mpr hne)
      rw [hempty]
      exact List.not_mem_nil

/-- The search in the harts from `k` on. -/
theorem findVictim (hc : Runqueues s c) {n : Nat} (hn : k + n = s.hart)
    (hno : ∀ core < k, ¬ Robbable s c h core) :
    ∃ t core, s.findVictim h (List.range' k n) = .done (t, core) s ∧
      (t = 0 ∧ (∀ core, ¬ Robbable s c h core) ∨
        t ≠ 0 ∧ Robbable s c h core ∧ (∀ k < core, ¬ Robbable s c h k) ∧ ∃ i,
          Spared s c core i t) := by
  induction n generalizing k with
  | zero =>
    refine ⟨0, 0, rfl, Or.inl ⟨rfl, fun core hr => ?_⟩⟩
    have hlt := hc.range core hr.1
    exact hno core (by omega) hr
  | succ n ih =>
    rw [List.range'_succ, Kernel.findVictim]
    have hnext : ¬ Robbable s c h k → ∀ core < k + 1, ¬ Robbable s c h core := by
      intro hk core hlt
      rcases Nat.lt_succ_iff_lt_or_eq.mp hlt with hlt | rfl
      · exact hno core hlt
      · exact hk
    split
    · rename_i hcore
      obtain ⟨t, hrun, ht⟩ := hc.findStealable hcore.1 (Nat.zero_add 31) fun j hj =>
        absurd hj (Nat.not_lt_zero j)
      rw [List.range_eq_range', hrun, Outcome.bind_done]
      rcases ht with ⟨rfl, hall⟩ | ⟨h0, i, hi⟩
      · rw [if_neg (not_not.mpr rfl)]
        refine ih (by omega) (hnext ?_)
        rintro ⟨-, -, -, i, hi, a, ha, hne⟩
        exact hne (hall i hi a ha)
      · rw [if_pos h0]
        exact ⟨t, k, rfl,
          Or.inr ⟨h0, ⟨hcore.1, hcore.2.1, hcore.2.2, i, hi.low, t, hi.mem, hi.idle⟩, hno, i, hi⟩⟩
    · rename_i hcore
      exact ih (by omega) (hnext fun hr => hcore ⟨hr.1, hr.2.1, hr.2.2.1⟩)

end Runqueues

/-! ## The call -/

/-- What stealing a process changes: its place, the hart in its trap frame, and the links and queues
that this needs. -/
structure Stolen (s : Kernel) (c : Nat → Nat → List Nat) (h core i t : Nat) (s' : Kernel) :
    Prop where
  queues : Runqueues s' (moved c h core i t)
  bare : s'.bare = (s.modify t fun p => { p with tf := { p.tf with kernelTp := h } }).bare
  procs : ∀ a, a ∉ c core i → a ∉ c h i → s'.procs a = s.procs a
  heads : s'.heads = s.heads
  others : ∀ k, k ≠ h → k ≠ core → s'.queues k = s.queues k
  marks : ∀ k j, j ≠ i → (s'.bitmap k).testBit j = (s.bitmap k).testBit j

/-- The process has moved, and the others are where they were. -/
theorem mem_moved (hne : core ≠ h) (ht : t ∈ c core i) (hnodup : (c core i).Nodup) :
    a ∈ moved c h core i t k j ↔ a = t ∧ k = h ∧ j = i ∨ a ∈ c k j ∧
      ¬ (a = t ∧ k = core ∧ j = i) := by
  unfold moved
  split
  · rename_i hk
    obtain ⟨rfl, rfl⟩ := hk
    rw [List.mem_append, List.mem_singleton]
    have hk : ¬ k = core := fun he => hne he.symm
    simp only [hk, and_true, and_false, not_false_eq_true]
    exact or_comm
  · rename_i hk
    split
    · rename_i hc
      obtain ⟨rfl, rfl⟩ := hc
      have hkh : ¬ k = h := fun he => hk ⟨he, rfl⟩
      rw [hnodup.mem_erase_iff]
      simp only [hkh, and_false, and_true, false_or]
      exact and_comm
    · rename_i hc
      simp only [hk, hc, and_false, false_or, not_false_eq_true, and_true]

namespace Runqueues

/-- The process that is spared comes over. -/
theorem moveOver (hc : Runqueues s c) (hup : s.started h = true) (hcore : s.started core = true)
    (hne : core ≠ h) (ht : Spared s c core i t) : Stolen s c h core i t (s.moveOver h t core) := by
  have hprio : (s.procs t).priority = i := hc.priority core i t ht.mem
  have hlow := ht.low
  subst hprio
  have hw := hc.wheel core (s.procs t).priority hcore (by omega)
  have hold := hc.threaded
  have hbare : (s.moveOver h t core).bare =
      (s.modify t fun p => { p with tf := { p.tf with kernelTp := h } }).bare := bare_moveOver
  have hmem : ∀ {a k j}, a ∈ moved c h core (s.procs t).priority t k j ↔ a = t ∧ k = h ∧
    j = (s.procs t).priority ∨
      a ∈ c k j ∧ ¬ (a = t ∧ k = core ∧ j = (s.procs t).priority) := mem_moved hne ht.mem hw.nodup
  have hprocs : ∀ a, ((s.moveOver h t core).procs a).priority = (s.procs a).priority := fun a =>
    (field_bare (fun s => (s.procs a).priority) (fun _ => rfl) hbare).trans
      (congrFun (field_modify_same (g := Process.priority)
        (f := fun p => { p with tf := { p.tf with kernelTp := h } }) s t fun _ => rfl) a)
  have hstarted : (s.moveOver h t core).started = s.started :=
    (field_bare Kernel.started (fun _ => rfl) hbare).trans rfl
  have hcurr : (s.moveOver h t core).curr = s.curr :=
    (field_bare Kernel.curr (fun _ => rfl) hbare).trans rfl
  refine ⟨runqueues_of_threaded ?_ (fun k j a ha => ?_) (fun k j a ha => ?_) (fun k hk => ?_)
    (fun k hk => ?_)
    fun k hk => ?_, hbare, fun a ha hb => ?_, ?_, fun k hk hk' => ?_, fun k j hj => ?_⟩
  · rw [circlesOnly_moveOver hup hcore (by omega), ringPlaces_moved hne]
    exact threaded_moveOver hold ht.mem hne
  · rw [hprocs]
    rcases hmem.mp ha with ⟨rfl, -, rfl⟩ | ⟨ha, -⟩
    · rfl
    · exact hc.priority k j a ha
  · rw [field_bare Kernel.existing (fun _ => rfl) hbare]
    rcases hmem.mp ha with ⟨rfl, -, -⟩ | ⟨ha, -⟩
    · exact hc.existing core _ a ht.mem
    · exact hc.existing k j a ha
  · rw [hstarted] at hk
    rw [field_bare (fun s => (s.queues k).idleProcess) (fun _ => rfl) hbare]
    unfold moved
    rw [if_neg fun he => by omega, if_neg fun he => by omega]
    exact hc.idle k hk
  · rw [hstarted] at hk
    rw [hcurr]
    obtain ⟨j, hj⟩ := hc.curr k hk
    refine ⟨j, hmem.mpr (Or.inr ⟨hj, ?_⟩)⟩
    rintro ⟨he, rfl, -⟩
    exact ht.idle he.symm
  · rw [hstarted] at hk
    rw [field_bare Kernel.hart (fun _ => rfl) hbare]
    exact hc.range k hk
  · have hat : a ≠ t := fun he => ha (he ▸ ht.mem)
    have hleave : (s.leaveCircle core t).procs a = s.procs a := by
      apply procs_leaveCircle
      · exact fun he => ha (he ▸ hw.next_mem ht.mem)
      · exact fun he => ha (he ▸ hw.prev_mem ht.mem)
    refine (Function.update_of_ne hat _ _).trans
      ((procs_joinCircle hat fun hbit => ?_).trans hleave)
    have hp : ((s.leaveCircle core t).procs t).priority = (s.procs t).priority :=
      field_bare (fun s => (s.procs t).priority) (fun _ => rfl) (bare_leaveCircle ..)
    have hleft : Threaded (s.leaveCircle core t).circlesOnly (Function.update (ringPlaces c)
        (.circle core (s.procs t).priority)
          ((ringPlaces c (.circle core (s.procs t).priority)).erase t)) := by
      rw [circlesOnly_leaveCircle hcore (by omega)]
      exact hold.leave ht.mem
    have hring : Function.update (ringPlaces c) (.circle core (s.procs t).priority)
        ((ringPlaces c (.circle core (s.procs t).priority)).erase t)
          (.circle h (s.procs t).priority) =
        c h (s.procs t).priority :=
      Function.update_of_ne (fun he => hne (Place.circle.inj he).1.symm) _ _
    have hwheel := hleft.wheel h (s.procs t).priority
    have hfirst := hleft.first_circle h (s.procs t).priority
    have hbits := hleft.bits h (s.procs t).priority (by omega)
    rw [hring] at hwheel hfirst hbits
    have hs : (s.leaveCircle core t).started = s.started := 
      field_bare Kernel.started (fun _ => rfl) (bare_leaveCircle ..)
    have hin : (s.leaveCircle core t).first (.circle h (s.procs t).priority) ∈
        c h (s.procs t).priority := by
      have hb : (s.leaveCircle core t).circlesOnly.bitmap h = (s.leaveCircle core t).bitmap h :=
        if_pos (by rw [hs]; exact hup)
      rw [hp, ← hb] at hbit
      obtain ⟨y, zs, hyz⟩ := List.exists_cons_of_ne_nil (hbits.mp hbit)
      have hf : (s.leaveCircle core t).circlesOnly.first (.circle h (s.procs t).priority) =
          (s.leaveCircle core t).first (.circle h (s.procs t).priority) :=
        circles_circlesOnly (by rw [hs]; exact hup) (by omega)
      rw [← hf, hfirst, hyz]
      exact List.mem_cons_self
    rw [hp]
    exact ⟨fun he => hb (he ▸ hin), fun he => hb (he ▸ hwheel.prev_mem hin)⟩
  · exact heads_joinCircle.trans heads_leaveCircle
  · exact (queues_joinCircle hk).trans (queues_leaveCircle hk')
  · have hp : ((s.leaveCircle core t).procs t).priority = (s.procs t).priority :=
      field_bare (fun s => (s.procs t).priority) (fun _ => rfl) (bare_leaveCircle ..)
    exact (testBit_joinCircle (by rw [hp]; exact hj)).trans (testBit_leaveCircle hj)

end Runqueues

/-- Between events the runqueues are so, if each hart runs a process of its own circles. -/
theorem Settled.runqueues (hs : Settled s v)
    (hcurr : ∀ h, s.started h = true → ∃ i, s.curr h ∈ v (.circle h i)) :
    Runqueues s fun h i => v (.circle h i) where
  wheel h i _ _ := hs.threaded.wheel h i
  first h i _ _ := hs.threaded.first_circle h i
  down h i hno := by
    refine List.eq_nil_iff_forall_not_mem.mpr fun a ha => hno ⟨(hs.valid.circle ha).1, ?_⟩
    exact hs.threaded.lt_of_mem ha
  apart h i k j a ha hb := by
    have he := hs.threaded.apart _ _ a ha hb
    exact ⟨(Place.circle.inj he).1, (Place.circle.inj he).2⟩
  nonzero h i := hs.threaded.nonzero (.circle h i)
  bits h i _ hi := hs.threaded.bits h i hi
  counted h _ := hs.threaded.counted h
  priority h i a ha := (hs.valid.circle ha).2.1
  existing h i a ha := hs.mem_existing ha
  idle _ hup := hs.idle_circle hup
  curr := hcurr
  range := hs.range

/-- A thief steals exactly if another hart has a process to spare. It gets one of the smallest
number from the first such hart, and nothing else changes. -/
theorem steals_iff (hc : Runqueues s c) (hup : s.started h = true) :
    ∃ r s', s.stealProcess h = .done r s' ∧ (r = 1 ↔ ∃ core, Robbable s c h core) ∧
      (r = 1 → ∃ core i t, Robbable s c h core ∧ (∀ k < core, ¬ Robbable s c h k) ∧
        Spared s c core i t ∧ Stolen s c h core i t s') ∧
      (r ≠ 1 → r = 0 ∧ s' = s) := by
  obtain ⟨t, core, hrun, ht⟩ := hc.findVictim (h := h) (Nat.zero_add s.hart) fun k hk =>
    absurd hk (Nat.not_lt_zero k)
  unfold Kernel.stealProcess
  rw [List.range_eq_range', hrun, Outcome.bind_done]
  rcases ht with ⟨rfl, hno⟩ | ⟨h0, hrob, hfirst, i, hi⟩
  · refine ⟨0, s, if_pos rfl, ⟨fun he => absurd he (by decide), ?_⟩,
      fun he => absurd he (by decide), fun _ => ⟨rfl, rfl⟩⟩
    rintro ⟨core, hr⟩
    exact absurd hr (hno core)
  · refine ⟨1, s.moveOver h t core, if_neg h0, iff_of_true rfl ⟨core, hrob⟩, fun _ => ?_,
      fun he => absurd rfl he⟩
    exact ⟨core, i, t, hrob, hfirst, hi, hc.moveOver hup hrob.1 hrob.2.1 hi⟩

/-- Hart 1 steals the process that has been spawned on hart 0. -/
theorem steals_spawned : ∃ g, ∃ m : Machine, ∃ c i t s',
    Run Machine.step (booted emptyMemory 1 1) g m ∧
    Runqueues m.kernel c ∧ m.kernel.stealProcess 1 = .done 1 s' ∧ Spared m.kernel c 0 i t ∧
    Stolen m.kernel c 1 0 i t s' := by
  have hreach : Reaches Machine.Careful
      (fun m => m.kernel.hart = 2 ∧ (∀ h < 2, InRing m.kernel h (m.kernel.curr h)) ∧
        m.kernel.started 0 = true ∧ m.kernel.started 1 = true ∧ 1 < m.kernel.count 0 ∧
          3 ∈ ring m.kernel 0 16 ∧
        3 ≠ m.kernel.curr 0)
      (booted emptyMemory 1 1) [.event (.start 1 2), .event (.spawn 0 3 ⟨0, 0⟩ 16)] := by
    decide +kernel
  obtain ⟨g, m, hr, hc, hhart, hcurr, h0, h1, hcount, hthree, hidle⟩ :=
    hreach.exists_run .careful .nil Run.Steps.nil
  obtain ⟨v, hv⟩ := steady_run (by decide) hr hc
  have hs := hv.settled
  have hq := hs.runqueues fun h hh => hs.inRing_iff.mp (hcurr h (hhart ▸ hs.range h hh))
  have hrob : Robbable m.kernel (fun h i => v (.circle h i)) 1 0 :=
    ⟨h0, by decide, hcount, 16, by decide, 3, (hs.mem_ring (by decide)).mp hthree, hidle⟩
  obtain ⟨r, s', hrun, hone, hstolen, -⟩ := steals_iff hq h1
  obtain rfl : r = 1 := hone.mpr ⟨0, hrob⟩
  obtain ⟨core, i, t, -, hfirst, hspared, hst⟩ := hstolen rfl
  obtain rfl : core = 0 := by
    by_contra hne
    exact hfirst 0 (Nat.pos_of_ne_zero hne) hrob
  exact ⟨g, m, _, i, t, s', hr, hq, hrun, hspared, hst⟩

end RexOS.Smp
