import RexOS.Smp.Single
import RexOS.Smp.Slice
import Mathlib.Data.Finset.Card

/-!
# Pids

`spawn_process` looks for a free pid from `next_pid` on. Where it wraps around, it goes on with the
word and the bit of pid 32768, which is no pid, and marks that bit in place of the one it gives out.
As long as there is a free pid that is not below `next_pid`, the registry is the set of the pids in
use.
-/

namespace RexOS.Scheduler.Kernel

variable (s : Kernel)

/-- The bits that `searchPid` reads. -/
def searchedBits : Nat → Nat → Kernel → List Nat
  | 0, _, _ => []
  | n + 1, bit, s =>
    bit :: if s.pidRegistry bit then
      let bit := s.nextPid + 1
      searchedBits n bit { s with nextPid := if s.nextPid + 1 ≥ pidMax then 1 else s.nextPid + 1 }
    else []

/-- The bits that `takePid` reads; it sets the last one. -/
def takenBits : List Nat :=
  (if s.nextPid < pidMax then [s.nextPid] else []) ++
    if s.nextPid < pidMax ∧ s.pidRegistry s.nextPid = false then []
    else
      searchedBits (2 * pidMax) s.nextPid
        { s with nextPid := if s.nextPid ≥ pidMax then 1 else s.nextPid }

/-- There is a free pid from `next_pid` on. -/
def FindsPid : Prop := ∃ p < pidMax, s.nextPid ≤ p ∧ s.pidRegistry p = false

instance : Decidable s.FindsPid :=
  decidable_of_iff ((List.range' s.nextPid (pidMax - s.nextPid)).any fun p => !s.pidRegistry p) (by
    simp only [FindsPid, List.any_eq_true, List.mem_range'_1, Bool.not_eq_true']
    constructor
    · rintro ⟨p, ⟨hle, hlt⟩, hfree⟩
      exact ⟨p, by omega, hle, hfree⟩
    · rintro ⟨p, hlt, hle, hfree⟩
      exact ⟨p, ⟨hle, by omega⟩, hfree⟩)

variable {s} {n p bit : Nat}

/-- What giving out a free pid leaves. -/
def gave (s : Kernel) (p : Nat) : Kernel :=
  { s with
    pidRegistry := Function.update s.pidRegistry p true
    aliveThreadCounter := s.aliveThreadCounter + 1
    nextPid := p + 1 }

/-- The first free pid is found where all before it are in use. -/
theorem searchPid_free (hp : p < pidMax) (hle : s.nextPid ≤ p) (hfree : s.pidRegistry p = false)
    (hused : ∀ q, s.nextPid ≤ q → q < p → s.pidRegistry q = true) (hn : p - s.nextPid < n) :
    searchPid n s.nextPid s = .done p (s.gave p) ∧ ∀ b ∈ searchedBits n s.nextPid s, b ≤ p := by
  induction n generalizing s with
  | zero => exact absurd hn (Nat.not_lt_zero _)
  | succ n ih =>
    rw [searchPid, searchedBits]
    by_cases hlt : s.nextPid < p
    · have hset := hused s.nextPid (Nat.le_refl _) hlt
      have hin : ¬ (s.nextPid + 1 ≥ pidMax) := by omega
      rw [if_pos hset, if_pos hset, if_neg hin]
      obtain ⟨hrun, hbits⟩ := ih (s := { s with nextPid := s.nextPid + 1 }) hlt hfree
        (fun q hq => hused q (Nat.le_of_succ_le hq)) (by
          show p - (s.nextPid + 1) < n
          omega)
      refine ⟨hrun, fun b hb => ?_⟩
      rcases List.mem_cons.mp hb with rfl | hb
      · exact hle
      · exact hbits b hb
    · obtain rfl : s.nextPid = p := by omega
      have hclear : ¬ (s.pidRegistry s.nextPid = true) := by simp [hfree]
      rw [if_neg hclear, if_neg hclear]
      refine ⟨rfl, fun b hb => ?_⟩
      rw [List.mem_singleton.mp hb]

/-- Where no pid is free up to the end, the search comes to the bit behind the registry. -/
theorem mem_searchedBits (hn : pidMax - bit < n)
    (hbit : bit = pidMax ∨ bit = s.nextPid ∧ bit < pidMax)
    (hused : ∀ q, s.nextPid ≤ q → q < pidMax → s.pidRegistry q = true) :
    pidMax ∈ searchedBits n bit s := by
  induction n generalizing s bit with
  | zero => exact absurd hn (Nat.not_lt_zero _)
  | succ n ih =>
    rw [searchedBits]
    rcases hbit with rfl | ⟨rfl, hlt⟩
    · exact List.mem_cons_self
    · rw [if_pos (hused _ (Nat.le_refl _) hlt)]
      apply List.mem_cons_of_mem
      by_cases hend : s.nextPid + 1 = pidMax
      · cases n with
        | zero => omega
        | succ n =>
          dsimp only
          rw [hend, searchedBits]
          exact List.mem_cons_self
      · have hin : ¬ (s.nextPid + 1 ≥ pidMax) := by omega
        rw [if_neg hin]
        exact ih (by omega) (Or.inr ⟨rfl, by omega⟩) fun q hq => hused q (Nat.le_of_succ_le hq)

/-- The least free pid from `next_pid` on is given out. -/
theorem FindsPid.takePid (hf : s.FindsPid) : ∃ p, p < pidMax ∧ s.nextPid ≤ p ∧
    s.pidRegistry p = false ∧
    (∀ q, s.nextPid ≤ q → q < p → s.pidRegistry q = true) ∧ s.takePid = .done p (s.gave p) ∧
    ∀ b ∈ s.takenBits, b ≤ p := by
  have hex : ∃ p, p < pidMax ∧ s.nextPid ≤ p ∧ s.pidRegistry p = false := hf
  obtain ⟨hlt, hle, hfree⟩ := Nat.find_spec hex
  have hleast : ∀ q, s.nextPid ≤ q → q < Nat.find hex → s.pidRegistry q = true := by
    intro q hq hqp
    by_contra hno
    exact Nat.find_min hex hqp ⟨hqp.trans hlt, hq, by simpa using hno⟩
  generalize Nat.find hex = p at hlt hle hfree hleast
  have hin : s.nextPid < pidMax := by omega
  have hround : p - s.nextPid < 2 * pidMax := by omega
  have hwrap : ¬ (s.nextPid ≥ pidMax) := by omega
  refine ⟨p, hlt, hle, hfree, hleast, ?_⟩
  unfold Kernel.takePid takenBits
  rw [if_pos hin, if_neg hwrap]
  by_cases hfirst : s.nextPid < pidMax ∧ s.pidRegistry s.nextPid = false
  · rw [if_pos hfirst, if_pos hfirst]
    have heq : s.nextPid = p := by
      by_contra hne
      have hset := hleast s.nextPid (Nat.le_refl _) (by omega)
      rw [hfirst.2] at hset
      exact absurd hset (by simp)
    subst heq
    refine ⟨rfl, fun b hb => ?_⟩
    rw [List.append_nil] at hb
    rw [List.mem_singleton.mp hb]
  · rw [if_neg hfirst, if_neg hfirst]
    obtain ⟨hrun, hbits⟩ := searchPid_free hlt hle hfree hleast hround
    refine ⟨hrun, fun b hb => ?_⟩
    rcases List.mem_append.mp hb with hb | hb
    · rw [List.mem_singleton.mp hb]
      exact hle
    · exact hbits b hb

/-- The words that are read are those of the registry if and only if such a pid is found. -/
theorem findsPid_iff (hle : s.nextPid ≤ pidMax) : (∀ b ∈ s.takenBits, b / 64 < 512) ↔
    s.FindsPid := by
  constructor
  · intro hbits
    by_contra hno
    have hused : ∀ q, s.nextPid ≤ q → q < pidMax → s.pidRegistry q = true := by
      intro q hq hlt
      by_contra hclear
      exact hno ⟨q, hlt, hq, by simpa using hclear⟩
    have hmem : pidMax ∈ s.takenBits := by
      unfold takenBits
      apply List.mem_append_right
      have hfirst : ¬ (s.nextPid < pidMax ∧ s.pidRegistry s.nextPid = false) := by
        rintro ⟨hlt, hclear⟩
        rw [hused _ (Nat.le_refl _) hlt] at hclear
        exact absurd hclear (by simp)
      rw [if_neg hfirst]
      by_cases hend : s.nextPid = pidMax
      · rw [hend, show 2 * pidMax = (2 * pidMax - 1) + 1 from rfl, searchedBits]
        exact List.mem_cons_self
      · have hlt : s.nextPid < pidMax := by omega
        have hwrap : ¬ (s.nextPid ≥ pidMax) := by omega
        rw [if_neg hwrap]
        exact mem_searchedBits (by omega) (Or.inr ⟨rfl, hlt⟩) hused
    exact absurd (hbits _ hmem) (by decide)
  · intro hf b hb
    obtain ⟨p, hlt, -, -, -, -, hbits⟩ := hf.takePid
    have hbp := hbits b hb
    unfold pidMax at hlt
    omega

end RexOS.Scheduler.Kernel

namespace RexOS.Smp

open Scheduler Kernel

variable {procs : Nat → Process} {T : Touch → Nat → Prop} {s s' k : Kernel}
  {v v' : Place → List Nat} {a h p new idle harts priority : Nat} {image : Image} {m m' : Machine}
  {e : Event} {g : List (Machine × Event)}

namespace Machine

variable (m : Machine)

/-- The bits of the registry that an event reads or writes; the one of `p` is in the word `p /
64`. -/
def pidBits : Event → List Nat
  | .spawn _ new _ _ =>
    if new ≠ 0 ∧ m.kernel.aliveThreadCounter < pidMax then m.kernel.takenBits else []
  | e => (m.touched e .reap).map fun t => (m.kernel.procs t).pid

/-- Where a process is spawned, a pid is free that is not below `next_pid`. -/
def FindsPid : Event → Prop
  | .spawn _ new _ _ => new ≠ 0 → m.kernel.aliveThreadCounter < pidMax → m.kernel.FindsPid
  | _ => True

instance : (e : Event) → Decidable (m.FindsPid e)
  | .spawn _ new _ _ =>
    inferInstanceAs (Decidable (new ≠ 0 → m.kernel.aliveThreadCounter < pidMax → m.kernel.FindsPid))
  | .start _ _ | .timer _ | .softInterrupt _ | .external _ _ _ | .syscall _ _ | .steal _ | .clean =>
    inferInstanceAs (Decidable True)

/-- A pid is found, and on several harts the event is careful. -/
def Gives (e : Event) : Prop := m.FindsPid e ∧ (m.kernel.hart = 1 ∨ m.Careful e)

instance (e : Event) : Decidable (m.Gives e) :=
  inferInstanceAs (Decidable (m.FindsPid e ∧ (m.kernel.hart = 1 ∨ m.Careful e)))

/-- The timer needs no pid. -/
theorem Quiet.gives : Quiet Gives :=
  ⟨fun _ _ => ⟨trivial, Or.inr (Quiet.careful.timer _ _)⟩,
    fun ha => ⟨trivial, Or.inr (Quiet.careful.tick ha)⟩⟩

end Machine

/-- The registry has the pids in use, each in use once but for those of the idle processes. -/
structure Registered (s : Kernel) : Prop where
  pid : ∀ a ∈ s.existing, (s.procs a).pid < pidMax
  apart : ∀ a ∈ s.existing, ∀ b ∈ s.existing, (s.procs a).pid = (s.procs b).pid →
    a = b ∨ (s.procs a).pid = 0
  registry : ∀ p, s.pidRegistry p = true ↔ ∃ a ∈ s.existing, (s.procs a).pid = p
  alive : s.aliveThreadCounter = ((Finset.range pidMax).filter fun p => s.pidRegistry p = true).card
  next : s.nextPid ≤ pidMax

namespace Registered

/-- Where none is spawned or reaped. -/
theorem kept (hr : Registered s) (hex : s'.existing = s.existing)
    (hpid : ∀ a ∈ s.existing, (s'.procs a).pid = (s.procs a).pid)
    (hreg : s'.pidRegistry = s.pidRegistry) (halive : s'.aliveThreadCounter = s.aliveThreadCounter)
    (hnext : s'.nextPid = s.nextPid) : Registered s' := by
  constructor
  · intro a ha
    rw [hex] at ha
    rw [hpid a ha]
    exact hr.pid a ha
  · intro a ha b hb
    rw [hex] at ha hb
    rw [hpid a ha, hpid b hb]
    exact hr.apart a ha b hb
  · intro p
    rw [hreg, hex, hr.registry]
    exact exists_congr fun a => and_congr_right fun ha => by rw [hpid a ha]
  · rw [halive, hreg]
    exact hr.alive
  · rw [hnext]
    exact hr.next

/-- A free pid goes to a new process. -/
theorem born (hr : Registered s) (hnew : new ∉ s.existing) (hp : p < pidMax)
    (hfree : s.pidRegistry p = false) (hex : s'.existing = new :: s.existing)
    (hpid : ∀ a ∈ s.existing, (s'.procs a).pid = (s.procs a).pid) (hself : (s'.procs new).pid = p)
    (hreg : s'.pidRegistry = Function.update s.pidRegistry p true)
    (halive : s'.aliveThreadCounter = s.aliveThreadCounter + 1) (hnext : s'.nextPid = p + 1) :
    Registered s' := by
  have hother : ∀ a ∈ s.existing, (s.procs a).pid ≠ p := by
    rintro a ha rfl
    have hset := (hr.registry _).mpr ⟨a, ha, rfl⟩
    rw [hfree] at hset
    exact absurd hset (by simp)
  constructor
  · intro a ha
    rw [hex] at ha
    rcases List.mem_cons.mp ha with rfl | ha
    · rw [hself]
      exact hp
    · rw [hpid a ha]
      exact hr.pid a ha
  · intro a ha b hb
    rw [hex] at ha hb
    cases List.mem_cons.mp ha with
    | inl han =>
      cases List.mem_cons.mp hb with
      | inl hbn => exact fun _ => Or.inl (han.trans hbn.symm)
      | inr hb =>
        rw [han, hself, hpid b hb]
        exact fun he => absurd he.symm (hother b hb)
    | inr ha =>
      cases List.mem_cons.mp hb with
      | inl hbn =>
        rw [hbn, hself, hpid a ha]
        exact fun he => absurd he (hother a ha)
      | inr hb =>
        rw [hpid a ha, hpid b hb]
        exact hr.apart a ha b hb
  · intro q
    rw [hreg, hex]
    by_cases hq : q = p
    · subst hq
      rw [Function.update_self]
      exact iff_of_true rfl ⟨new, List.mem_cons_self, hself⟩
    · rw [Function.update_of_ne hq, hr.registry]
      constructor
      · rintro ⟨a, ha, hap⟩
        exact ⟨a, List.mem_cons_of_mem _ ha, (hpid a ha).trans hap⟩
      · rintro ⟨a, ha, hap⟩
        rcases List.mem_cons.mp ha with rfl | ha
        · exact absurd (hap.symm.trans hself) hq
        · exact ⟨a, ha, (hpid a ha).symm.trans hap⟩
  · have hset : ((Finset.range pidMax).filter fun q => s'.pidRegistry q = true) =
        insert p ((Finset.range pidMax).filter fun q => s.pidRegistry q = true) := by
      ext q
      by_cases hq : q = p <;> simp [hreg, hq, hp]
    rw [halive, hset, Finset.card_insert_of_notMem (by simp [hfree]), hr.alive]
  · rw [hnext]
    exact hp

/-- The pid of a process that is reaped is free again. -/
theorem reaped {t : Nat} (hr : Registered s) (hnodup : s.existing.Nodup) (ht : t ∈ s.existing)
    (hpid0 : (s.procs t).pid ≠ 0) (hb : s'.bare = (Smp.reaped s t).bare) : Registered s' := by
  have hex : s'.existing = s.existing.erase t := field_bare Kernel.existing (fun _ => rfl) hb
  have hpid : ∀ a, (s'.procs a).pid = (s.procs a).pid := fun a =>
    (field_bare (fun x => (x.procs a).pid) (fun _ => rfl) hb).trans rfl
  have hreg : s'.pidRegistry = Function.update s.pidRegistry (s.procs t).pid false :=
    (field_bare Kernel.pidRegistry (fun _ => rfl) hb).trans rfl
  have halive : s'.aliveThreadCounter = s.aliveThreadCounter - 1 :=
    (field_bare Kernel.aliveThreadCounter (fun _ => rfl) hb).trans rfl
  have hnext : s'.nextPid = s.nextPid := (field_bare Kernel.nextPid (fun _ => rfl) hb).trans rfl
  constructor
  · intro a ha
    rw [hex] at ha
    rw [hpid]
    exact hr.pid a (List.mem_of_mem_erase ha)
  · intro a ha b hb
    rw [hex] at ha hb
    rw [hpid, hpid]
    exact hr.apart a (List.mem_of_mem_erase ha) b (List.mem_of_mem_erase hb)
  · intro q
    rw [hreg, hex]
    by_cases hq : q = (s.procs t).pid
    · subst hq
      rw [Function.update_self]
      refine iff_of_false (by simp) ?_
      rintro ⟨a, ha, hap⟩
      obtain ⟨hne, hin⟩ := hnodup.mem_erase_iff.mp ha
      rw [hpid] at hap
      rcases hr.apart a hin t ht hap with he | he
      · exact hne he
      · exact hpid0 (hap ▸ he)
    · rw [Function.update_of_ne hq, hr.registry]
      constructor
      · rintro ⟨a, ha, hap⟩
        have hne : a ≠ t := by
          rintro rfl
          exact hq hap.symm
        exact ⟨a, (List.mem_erase_of_ne hne).mpr ha, (hpid a).trans hap⟩
      · rintro ⟨a, ha, hap⟩
        exact ⟨a, List.mem_of_mem_erase ha, (hpid a).symm.trans hap⟩
  · have hset : ((Finset.range pidMax).filter fun q => s'.pidRegistry q = true) =
        ((Finset.range pidMax).filter fun q => s.pidRegistry q = true).erase (s.procs t).pid := by
      ext q
      by_cases hq : q = (s.procs t).pid <;> simp [hreg, hq]
    have hin : (s.procs t).pid ∈ (Finset.range pidMax).filter fun q => s.pidRegistry q = true := by
      rw [Finset.mem_filter, Finset.mem_range]
      exact ⟨hr.pid t ht, (hr.registry _).mpr ⟨t, ht, rfl⟩⟩
    rw [halive, hset, Finset.card_erase_of_mem hin, hr.alive]
  · rw [hnext]
    exact hr.next

/-- The idle process of a further hart has the pid of the first one. -/
theorem started (hr : Registered s) (hzero : ∃ a ∈ s.existing, (s.procs a).pid = 0)
    (hex : s'.existing = idle :: s.existing)
    (hpid : ∀ a ∈ s.existing, (s'.procs a).pid = (s.procs a).pid) (hself : (s'.procs idle).pid = 0)
    (hreg : s'.pidRegistry = s.pidRegistry) (halive : s'.aliveThreadCounter = s.aliveThreadCounter)
    (hnext : s'.nextPid = s.nextPid) : Registered s' := by
  constructor
  · intro a ha
    rw [hex] at ha
    rcases List.mem_cons.mp ha with rfl | ha
    · rw [hself]
      decide
    · rw [hpid a ha]
      exact hr.pid a ha
  · intro a ha b hb he
    rw [hex] at ha hb
    rcases List.mem_cons.mp ha with rfl | ha
    · exact Or.inr hself
    · rcases List.mem_cons.mp hb with rfl | hb
      · exact Or.inr (he.trans hself)
      · rw [hpid a ha, hpid b hb] at he
        rw [hpid a ha]
        exact hr.apart a ha b hb he
  · intro q
    rw [hreg, hex, hr.registry]
    constructor
    · rintro ⟨a, ha, hap⟩
      exact ⟨a, List.mem_cons_of_mem _ ha, (hpid a ha).trans hap⟩
    · rintro ⟨a, ha, hap⟩
      rcases List.mem_cons.mp ha with rfl | ha
      · obtain ⟨b, hb, hbz⟩ := hzero
        exact ⟨b, hb, hbz.trans (hself.symm.trans hap)⟩
      · exact ⟨a, ha, (hpid a ha).symm.trans hap⟩
  · rw [halive, hreg]
    exact hr.alive
  · rw [hnext]
    exact hr.next

end Registered

/-! ## Steps -/

/-- Pid 0 is that of an idle process. -/
theorem Settled.pid_zero (hs : Settled s v) (ha : a ∈ s.existing) (h0 : (s.procs a).pid = 0) :
    ∃ k, s.started k = true ∧ a = (s.queues k).idleProcess := by
  obtain ⟨q, hq⟩ := (hs.mem a).mp ha
  cases q with
  | circle k i => exact ⟨k, (hs.valid.circle hq).1, hs.valid.idles hq h0⟩
  | wait w => exact absurd h0 (hs.valid.wait hq).2

/-- Every hart has an idle process with pid 0. -/
theorem Settled.idle_pid (hs : Settled s v) (hh : s.started h = true) :
    (s.queues h).idleProcess ∈ s.existing ∧ (s.procs (s.queues h).idleProcess).pid = 0 := by
  obtain ⟨hmem, hpid⟩ := hs.valid.idle hh
  exact ⟨hs.mem_existing hmem, hpid⟩

/-- Where no zombie is a child of the current process, `wait_process` finds none. -/
theorem Settled.child_eq_zero (hs : Settled s v)
    (hno : ∀ a ∈ v (.wait .zombie), (s.procs a).parentPid ≠ (s.procs (s.curr h)).pid) :
    child s h = 0 := by
  have hfind : s.findChild (s.procs (s.curr h)).pid (s.existing.length + 1) (s.heads .zombie) = _ :=
    findChild_eq (s.procs (s.curr h)).pid (n := s.existing.length + 1) (hs.threaded.dll .zombie).seg
      (Nat.lt_succ_of_le (hs.length_le _))
  have hempty :
    ((v (.wait .zombie)).find? fun a => (s.procs a).parentPid == (s.procs (s.curr h)).pid) =
      none := by
    apply List.find?_eq_none.mpr
    intro a ha
    simpa using hno a ha
  unfold child
  rw [hfind, hempty]
  rfl

/-- What `wait_process` finds is a zombie. -/
theorem Settled.child_mem (hs : Settled s v) (h0 : child s h ≠ 0) :
    child s h ∈ v (.wait .zombie) := by
  rcases hs.waitProcess (h := h) with ⟨n, hnone, hno⟩ | ⟨n, t, -, ht, -, hfind⟩
  · exact absurd (hs.child_eq_zero hno) h0
  · unfold child
    rw [hfind]
    exact ht

/-- A call that spawns nothing. -/
theorem Registered.call (hs : Settled s v) (hup : s.started 0 = true) (hr : Registered s)
    (hno : ∀ t, ¬ T .spawn t) (hc : Call T h (s, v) (s', v')) : Registered s' := by
  have hpid : ∀ a ∈ s.existing, (s'.procs a).pid = (s.procs a).pid := fun a ha =>
    hc.field Process.pid (fun _ _ _ _ _ _ _ => rfl) (fun _ _ _ => rfl) (Or.inl fun _ => rfl) ha
  cases hc with
  | trigger hb | shell _ hb | pending _ hb | char _ _ hb | park _ _ _ _ _ _ hb | sleep _ _ _ _ hb
  | exit _ _ _ _ _ _ _ hb | yield _ _ hb | steal _ _ _ _ _ _ hb =>
    exact hr.kept ((field_bare Kernel.existing (fun _ => rfl) hb).trans rfl) hpid
      ((field_bare Kernel.pidRegistry (fun _ => rfl) hb).trans rfl)
      ((field_bare Kernel.aliveThreadCounter (fun _ => rfl) hb).trans rfl)
      ((field_bare Kernel.nextPid (fun _ => rfl) hb).trans rfl)
  | wake hh t w hT hw hws ht hfree hb =>
    have hrest : ∀ {α : Type} (g : Kernel → α), (∀ x : Kernel, g x.bare = g x) →
        (∀ x p, g { x with procs := p } = g x) → (∀ x : Kernel, g (x.trigger h) = g x) →
          g s' = g s :=
      fun g hg hp ht =>
        (field_bare g hg hb).trans ((rest_preempt g hp ht _ t).trans ((hp _ _).trans (hp s _)))
    exact hr.kept (hrest Kernel.existing (fun _ => rfl) (fun _ _ => rfl) fun _ => rfl) hpid
      (hrest Kernel.pidRegistry (fun _ => rfl) (fun _ _ => rfl) fun _ => rfl)
      (hrest Kernel.aliveThreadCounter (fun _ => rfl) (fun _ _ => rfl) fun _ => rfl)
      (hrest Kernel.nextPid (fun _ => rfl) (fun _ _ => rfl) fun _ => rfl)
  | reap t hT ht hcurr hb =>
    exact hr.reaped hs.nodup (hs.mem_existing ht) (hs.valid.wait ht).2 hb
  | spawn hh new pid priority image hT => exact absurd hT (hno _)
  | start idle hh h0 hidle =>
    exact hr.started ⟨_, hs.idle_pid hup⟩ rfl hpid (by simp [smpKmain, Kernel.modify]) rfl rfl rfl

/-- Calls without a birth keep the registry. -/
theorem Registered.calls {x y : Scene} (hup : x.1.started 0 = true) (hr : Registered x.1)
    (hno : ∀ t, ¬ T .spawn t) (hc : Relation.ReflTransGen (Calls T h) x y) : Registered y.1 := by
  induction hc with
  | refl => exact hr
  | tail hcalls hlast ih => exact ih.call hlast.1 (Calls.curr hcalls hup).1 hno hlast.2.2

/-- A spawn that finds a pid takes the first one from `next_pid` on. -/
theorem Settled.spawns (hs : Settled s v) (hh : s.started h = true) (hnew : new ∉ s.existing)
    (hprio : priority ≤ 30) (h0 : new ≠ 0) (halive : s.aliveThreadCounter < pidMax)
    (hf : s.FindsPid) :
    ∃ p s', p < pidMax ∧ s.pidRegistry p = false ∧ s.nextPid ≤ p ∧
      (∀ q, s.nextPid ≤ q → q < p → s.pidRegistry q = true) ∧
      s.spawnProcess h new image priority = .done new s' ∧
      s'.bare = (Smp.born (s.gave p) h new p image priority).bare := by
  obtain ⟨p, hlt, hle, hfree, hleast, htake, -⟩ := hf.takePid
  have hrun : s.spawnProcess h new image priority =
      .done new { ((s.gave p).enroll h new p image priority).joinCircle h new with
        existing := new :: s.existing } := by
    unfold Kernel.spawnProcess
    rw [if_neg h0, if_neg (Nat.not_le.mpr halive), htake, Outcome.bind_done]
    rfl
  rcases hs.spawnProcess hh hnew hprio hrun with he | ⟨pid, k, -, -, htake', -, -, hb⟩
  · have hin : new ∈ s.existing := by
      rw [← congrArg Kernel.existing he]
      exact List.mem_cons_self
    exact absurd hin hnew
  · obtain ⟨rfl, rfl⟩ := Outcome.done.inj (htake'.symm.trans htake)
    exact ⟨_, _, hlt, hfree, hle, hleast, hrun, hb⟩

/-- The new process has the pid, and the others are as before. -/
theorem born_gave (hnew : new ∉ s.existing)
    (hb : s'.bare = (Smp.born (s.gave p) h new p image priority).bare) :
    s'.existing = new :: s.existing ∧ (s'.procs new).pid = p ∧
      (∀ a ∈ s.existing, (s'.procs a).pid = (s.procs a).pid ∧ (s'.procs a).state =
        (s.procs a).state) ∧
      s'.pidRegistry = Function.update s.pidRegistry p true ∧
      s'.aliveThreadCounter = s.aliveThreadCounter + 1 ∧ s'.nextPid = p + 1 ∧ s'.curr = s.curr := by
  have hpids := field_enroll Process.pid (fun _ _ => rfl) (s.gave p) h new p image priority
  have hstates := field_enroll Process.state (fun _ _ => rfl) (s.gave p) h new p image priority
  have hrest : ∀ {α : Type} (g : Kernel → α), (∀ x p, g { x with procs := p } = g x) → _ :=
      fun g hg =>
    rest_enroll g hg (s.gave p) h new p image priority
  refine ⟨(field_bare Kernel.existing (fun _ => rfl) hb).trans rfl,
    (field_bare (fun x => (x.procs new).pid) (fun _ => rfl) hb).trans
      ((congrFun hpids new).trans (Function.update_self ..)), fun a ha => ?_,
    (field_bare Kernel.pidRegistry (fun _ => rfl) hb).trans
      (hrest Kernel.pidRegistry fun _ _ => rfl),
    (field_bare Kernel.aliveThreadCounter (fun _ => rfl) hb).trans
      (hrest Kernel.aliveThreadCounter fun _ _ => rfl),
    (field_bare Kernel.nextPid (fun _ => rfl) hb).trans (hrest Kernel.nextPid fun _ _ => rfl),
    (field_bare Kernel.curr (fun _ => rfl) hb).trans (hrest Kernel.curr fun _ _ => rfl)⟩
  have hne : a ≠ new := by
    rintro rfl
    exact hnew ha
  constructor
  · exact (field_bare (fun x => (x.procs a).pid) (fun _ => rfl) hb).trans
      ((congrFun hpids a).trans (Function.update_of_ne hne ..))
  · exact (field_bare (fun x => (x.procs a).state) (fun _ => rfl) hb).trans
      ((congrFun hstates a).trans (Function.update_of_ne hne ..))

/-- A birth that finds a pid keeps it as well. -/
theorem Registered.spawn (hs : Settled s v) (hh : s.started h = true) (hr : Registered s)
    (hnew : new ∉ s.existing) (hprio : priority ≤ 30)
    (hf : new ≠ 0 → s.aliveThreadCounter < pidMax → s.FindsPid) {n : Nat}
    (hrun : s.spawnProcess h new image priority = .done n s') : Registered s' := by
  by_cases hgo : new ≠ 0 ∧ s.aliveThreadCounter < pidMax
  · obtain ⟨p, s₁, hlt, hfree, -, -, hdone, hb⟩ : ∃ p s₁, _ ∧ _ ∧ _ ∧ _ ∧
        s.spawnProcess h new image priority = .done new s₁ ∧ _ :=
      hs.spawns hh hnew hprio hgo.1 hgo.2 (hf hgo.1 hgo.2)
    cases hdone.symm.trans hrun
    obtain ⟨hex, hself, hpid, hreg, halive, hnext, -⟩ := born_gave hnew hb
    exact hr.born hnew hlt hfree hex (fun a ha => (hpid a ha).1) hself hreg halive hnext
  · have hnone : s.spawnProcess h new image priority = .done 0 s := by
      unfold Kernel.spawnProcess
      by_cases h0 : new = 0
      · exact if_pos h0
      · rw [if_neg h0, if_pos (Nat.not_lt.mp fun halive => hgo ⟨h0, halive⟩)]
    cases hnone.symm.trans hrun
    exact hr

/-- What holds between two events. -/
structure Counted (s : Kernel) (v : Place → List Nat) : Prop where
  steady : Steady s v
  up : s.started 0 = true
  registered : Registered s

/-- With a free pid and one hart, every event that can come is careful. -/
theorem Counted.careful (hm : Counted m.kernel v) (he : m.Enabled e) (hg : m.Gives e) :
    m.Careful e := by
  rcases hg.2 with hone | hcare
  · exact Lone.careful ⟨hm.steady, hone, hm.up⟩ he
  · exact hcare

/-- One event keeps all this. -/
theorem Counted.step (hm : Counted m.kernel v) (hg : m.Gives e) (hstep : m.step e = some m') :
    ∃ v', Counted m'.kernel v' := by
  obtain ⟨he, hrun⟩ := Machine.step_eq_some.mp hstep
  obtain ⟨v', hcourse, hm'⟩ := hm.steady.course (hm.careful he hg) hstep
  refine ⟨v', hm', hcourse.started hm.up, ?_⟩
  have hr := hm.registered
  by_cases hspawn : ∃ h new image priority, e = .spawn h new image priority
  · obtain ⟨h, new, image, priority, rfl⟩ := hspawn
    obtain ⟨n, m₁, hdone, hend⟩ := Outcome.bind_eq_done.mp hrun
    cases hend
    obtain ⟨s', hs', rfl⟩ := Outcome.within_eq_done.mp hdone
    exact hr.spawn hm.steady.settled he.1 he.2.1 he.2.2.1 hg.1 hs'
  · have hno : ∀ t, ¬ m.Touches e .spawn t := by
      intro t ht
      cases e with
      | spawn h new image priority => exact hspawn ⟨h, new, image, priority, rfl⟩
      | start | timer | softInterrupt | external | steal | clean => exact List.not_mem_nil ht
      | syscall h c =>
        cases c with
        | sendMsg c | recvMsg c => cases c <;> exact List.not_mem_nil ht
        | getc | exit | yield | sleep | wait => exact List.not_mem_nil ht
    have hprepared : ∀ {h : Nat} {m₁ : Machine} {v₁ : Place → List Nat}, Prepared m h v m₁ v₁ →
        Registered m₁.kernel := by
      intro h m₁ v₁ hp
      exact hr.kept (hp.rest Kernel.existing (fun _ => rfl) (fun _ _ => rfl) (fun _ _ => rfl) rfl)
        (fun a _ => hp.field Process.pid (fun _ _ _ _ _ => rfl) (fun _ _ _ => rfl) a)
        (hp.rest Kernel.pidRegistry (fun _ => rfl) (fun _ _ => rfl) (fun _ _ => rfl) rfl)
        (hp.rest Kernel.aliveThreadCounter (fun _ => rfl) (fun _ _ => rfl) (fun _ _ => rfl) rfl)
        (hp.rest Kernel.nextPid (fun _ => rfl) (fun _ _ => rfl) (fun _ _ => rfl) rfl)
    cases hcourse with
    | calls hne hcalls => exact Registered.calls hm.up hr hno hcalls
    | stays hp hdue => exact hprepared hp
    | dispatches hp hdue hrun hd =>
      exact (hprepared hp).kept
        (hd.rest Kernel.existing (fun _ => rfl) (fun _ _ => rfl) (fun _ _ => rfl) fun _ _ _ => rfl)
        (fun a _ => hd.field Process.pid (fun _ _ _ _ _ => rfl) (fun _ _ _ => rfl) a)
        (hd.rest Kernel.pidRegistry (fun _ => rfl) (fun _ _ => rfl) (fun _ _ => rfl)
          fun _ _ _ => rfl)
        (hd.rest Kernel.aliveThreadCounter (fun _ => rfl) (fun _ _ => rfl) (fun _ _ => rfl)
          fun _ _ _ => rfl)
        (hd.rest Kernel.nextPid (fun _ => rfl) (fun _ _ => rfl) (fun _ _ => rfl) fun _ _ _ => rfl)

/-- It holds after the start. -/
theorem counted_booted (procs : Nat → Process) (harts : Nat) (h0 : idle ≠ 0) :
    ∃ v, Counted (booted procs harts idle).kernel v := by
  obtain ⟨v, hm⟩ := steady_booted procs harts h0
  have hproc : ((booted procs harts idle).kernel.procs idle).pid = 0 := by
    simp [booted, schedulerInit, Kernel.modify]
  have hreg :
    (booted procs harts idle).kernel.pidRegistry = Function.update (fun _ => false) 0 true := rfl
  refine ⟨v, hm, rfl, ?_, ?_, ?_, ?_, ?_⟩
  · intro a ha
    rw [List.mem_singleton.mp ha, hproc]
    decide
  · intro a ha b hb _
    exact Or.inl ((List.mem_singleton.mp ha).trans (List.mem_singleton.mp hb).symm)
  · intro p
    rw [hreg]
    by_cases hp : p = 0
    · subst hp
      exact iff_of_true rfl ⟨idle, List.mem_singleton.mpr rfl, hproc⟩
    · rw [Function.update_of_ne hp]
      refine iff_of_false (by simp) ?_
      rintro ⟨a, ha, hap⟩
      rw [List.mem_singleton.mp ha, hproc] at hap
      exact hp hap.symm
  · have hset : ((Finset.range pidMax).filter fun p =>
        (booted procs harts idle).kernel.pidRegistry p = true) = {0} := by
      ext p
      by_cases hp : p = 0 <;> simp [hreg, hp, pidMax]
    rw [hset]
    rfl
  · show 1 ≤ pidMax
    decide

/-- So it holds along every run that finds its pids. -/
theorem counted_run (h0 : idle ≠ 0) (hr : Run Machine.step (booted procs harts idle) g m)
    (hg : Run.Steps Machine.Gives g) : ∃ v, Counted m.kernel v :=
  hr.invariant (I := fun m => ∃ v, Counted m.kernel v) hg (counted_booted procs harts h0)
    fun _ _ _ ⟨_, hm⟩ hgives hstep => hm.step hgives hstep

/-! ## Runs -/

/-- The search stays in the registry exactly when it finds a pid. -/
theorem Counted.pidBits (hm : Counted m.kernel v) (e : Event) :
    (∀ b ∈ m.pidBits e, b / 64 < 512) ↔ m.FindsPid e := by
  have hs := hm.steady.settled
  have hreaps : (∀ t, m.Touches e .reap t → t ∈ m.kernel.existing) →
      ∀ b ∈ (m.touched e .reap).map (fun t => (m.kernel.procs t).pid), b / 64 < 512 := by
    intro hin b hb
    obtain ⟨t, ht, rfl⟩ := List.mem_map.mp hb
    have hlt := hm.registered.pid t (hin t ht)
    unfold pidMax at hlt
    omega
  cases e with
  | spawn h new image priority =>
    unfold Machine.pidBits Machine.FindsPid
    dsimp only
    by_cases hgo : new ≠ 0 ∧ m.kernel.aliveThreadCounter < pidMax
    · rw [if_pos hgo, findsPid_iff hm.registered.next]
      exact ⟨fun hf _ _ => hf, fun hf => hf hgo.1 hgo.2⟩
    · rw [if_neg hgo]
      exact iff_of_true (fun b hb => absurd hb List.not_mem_nil) fun h0 halive =>
        absurd ⟨h0, halive⟩ hgo
  | clean => exact iff_of_true (hreaps fun t ht => (List.mem_filter.mp ht).1) trivial
  | syscall h c =>
    refine iff_of_true (hreaps fun t ht => ?_) trivial
    cases c with
    | wait =>
      obtain ⟨hchild, h0⟩ := List.mem_filter.mp ht
      obtain rfl := List.mem_singleton.mp hchild
      exact hs.mem_existing (hs.child_mem (of_decide_eq_true h0))
    | sendMsg c | recvMsg c => cases c <;> exact absurd ht List.not_mem_nil
    | getc | exit | yield | sleep => exact absurd ht List.not_mem_nil
  | start | timer | softInterrupt | external | steal =>
    exact iff_of_true (hreaps fun t ht => absurd ht List.not_mem_nil) trivial

/-- Where a pid is always found from `next_pid` on, the registry has the pids in use, no word of
another page is read, and a spawn returns. Only idle processes have pid 0, so on one hart no two
processes have the same pid. -/
theorem pids_run (h0 : idle ≠ 0) (hr : Run Machine.step (booted procs harts idle) g m)
    (hg : Run.Steps Machine.Gives g) :
    Registered m.kernel ∧
      (∀ a ∈ m.kernel.existing, (m.kernel.procs a).pid = 0 ↔
        ∃ k, m.kernel.started k = true ∧ a = (m.kernel.queues k).idleProcess) ∧
      (m.kernel.hart = 1 → ∀ a ∈ m.kernel.existing, ∀ b ∈ m.kernel.existing,
        (m.kernel.procs a).pid = (m.kernel.procs b).pid → a = b) ∧
      ∀ e, m.Enabled e → ((∀ b ∈ m.pidBits e, b / 64 < 512) ↔ m.FindsPid e) ∧
        ∀ h new image priority, e = .spawn h new image priority → m.FindsPid e →
          ∃ m', m.step e = some m' := by
  obtain ⟨v, hm⟩ := counted_run h0 hr hg
  have hs := hm.steady.settled
  refine ⟨hm.registered, fun a ha => ⟨hs.pid_zero ha, ?_⟩, fun hone a ha b hb he => ?_,
    fun e he => ⟨hm.pidBits e, ?_⟩⟩
  · rintro ⟨k, hk, rfl⟩
    exact (hs.idle_pid hk).2
  · rcases hm.registered.apart a ha b hb he with hab | hzero
    · exact hab
    · obtain ⟨k, hk, rfl⟩ := hs.pid_zero ha hzero
      obtain ⟨l, hl, rfl⟩ := hs.pid_zero hb (he.symm.trans hzero)
      have hk1 := hs.range k hk
      have hl1 := hs.range l hl
      rw [hone] at hk1 hl1
      rw [Nat.lt_one_iff.mp hk1, Nat.lt_one_iff.mp hl1]
  · rintro h new image priority rfl hf
    have hreturns : ∃ n s', m.kernel.spawnProcess h new image priority = .done n s' := by
      unfold Kernel.spawnProcess
      by_cases hnew : new = 0
      · exact ⟨0, m.kernel, if_pos hnew⟩
      · rw [if_neg hnew]
        by_cases halive : m.kernel.aliveThreadCounter ≥ pidMax
        · exact ⟨0, m.kernel, if_pos halive⟩
        · obtain ⟨p, -, -, -, -, htake, -⟩ := (hf hnew (Nat.not_le.mp halive)).takePid
          rw [if_neg halive, htake, Outcome.bind_done]
          exact ⟨_, _, rfl⟩
    obtain ⟨n, s', hrun⟩ := hreturns
    refine ⟨m.withKernel s', Machine.step_eq_some.mpr ⟨he, ?_⟩⟩
    show ((m.kernel.spawnProcess h new image priority).within m.withKernel).bind _ = _
    rw [hrun]
    rfl

/-- A process is spawned, exits and is reaped, and another one is spawned. -/
theorem pids_run_again : ∃ m : Machine, (m.kernel.procs 4).pid = 2 ∧ 4 ∈ m.kernel.existing ∧
    Registered m.kernel := by
  have hreach : Reaches Machine.Gives
      (fun m => (m.kernel.procs 4).pid = 2 ∧ 4 ∈ m.kernel.existing)
      (booted emptyMemory 0 1) ([.event (.spawn 0 3 ⟨0, 0⟩ 16), .wait 0 127] ++ interrupt 0 ++
        [.event (.syscall 0 (.exit 7)), .event (.softInterrupt 0), .event .clean,
          .event (.spawn 0 4 ⟨0, 0⟩ 16)]) := by
    decide +kernel
  obtain ⟨g, m, hr, hg, hpid, hin⟩ := hreach.exists_run .gives .nil Run.Steps.nil
  exact ⟨m, hpid, hin, (pids_run (by decide) hr hg).1⟩

/-! ## Wrapping around -/

/-- Pids have been given out up to `n`, not all of which are in use, and addresses up to `n +
10`. -/
structure Filling (n : Nat) (m : Machine) : Prop where
  counted : ∃ v, Counted m.kernel v
  runs : (m.kernel.procs (m.kernel.curr 0)).state = .running
  next : m.kernel.nextPid = n
  alive : m.kernel.aliveThreadCounter < n
  low : ∀ a ∈ m.kernel.existing, a < n + 10
  pids : ∀ a ∈ m.kernel.existing, (m.kernel.procs a).pid < n

/-- While the pids run out another process can be born. -/
theorem Filling.enabled {n : Nat} (hm : Filling n m) : m.Enabled (.spawn 0 (n + 10) ⟨0, 0⟩ 16) := by
  obtain ⟨v, hc⟩ := hm.counted
  refine ⟨hc.up, fun hin => ?_, by decide, hm.runs⟩
  have hlt := hm.low _ hin
  omega

/-- The birth takes the next pid. -/
theorem Filling.step {n : Nat} (hm : Filling n m) (hn : n < pidMax) :
    ∃ m', m.step (.spawn 0 (n + 10) ⟨0, 0⟩ 16) = some m' ∧ Filling (n + 1) m' := by
  obtain ⟨v, hc⟩ := hm.counted
  have hs := hc.steady.settled
  have he := hm.enabled
  have hfree : m.kernel.pidRegistry n = false := by
    by_contra hset
    obtain ⟨a, ha, hap⟩ := (hc.registered.registry n).mp (by simpa using hset)
    have hlt := hm.pids a ha
    omega
  have hf : m.kernel.FindsPid := ⟨n, hn, hm.next.le, hfree⟩
  have halive := hm.alive
  obtain ⟨p, s', -, -, hle, hleast, hrun, hb⟩ : ∃ p s', _ ∧ _ ∧ _ ∧ _ ∧
      m.kernel.spawnProcess _ _ ⟨0, 0⟩ _ = .done _ s' ∧ _ :=
    hs.spawns he.1 he.2.1 he.2.2.1 (by omega) (by omega) hf
  obtain rfl : p = n := by
    rw [hm.next] at hle hleast
    by_contra hne
    rw [hleast n (Nat.le_refl _) (by omega)] at hfree
    exact absurd hfree (by simp)
  have hstep : m.step (.spawn 0 (p + 10) ⟨0, 0⟩ 16) = some (m.withKernel s') := by
    refine Machine.step_eq_some.mpr ⟨he, ?_⟩
    show ((m.kernel.spawnProcess 0 (p + 10) ⟨0, 0⟩ 16).within m.withKernel).bind _ = _
    rw [hrun]
    rfl
  obtain ⟨hex, hself, hsame, -, halive', hnext, hcurr⟩ := born_gave he.2.1 hb
  refine ⟨_, hstep, hc.step (e := .spawn 0 (p + 10) ⟨0, 0⟩ 16) ⟨fun _ _ => hf, Or.inr ?_⟩ hstep, ?_,
    hnext, ?_, fun a ha => ?_, fun a ha => ?_⟩
  · refine ⟨fun t ht c hc hT => ?_, trivial⟩
    cases c with
    | exit | spawn => simp at hc
    | wake | reap | steal => exact absurd hT List.not_mem_nil
  · show (s'.procs (s'.curr 0)).state = .running
    rw [hcurr, (hsame _ (hs.curr_existing he.1)).2]
    exact hm.runs
  · show s'.aliveThreadCounter < p + 1
    omega
  · rw [show (m.withKernel s').kernel.existing = (p + 10) :: m.kernel.existing from hex] at ha
    rcases List.mem_cons.mp ha with rfl | ha
    · omega
    · have hlt := hm.low a ha
      omega
  · rw [show (m.withKernel s').kernel.existing = (p + 10) :: m.kernel.existing from hex] at ha
    show (s'.procs a).pid < p + 1
    rcases List.mem_cons.mp ha with rfl | ha
    · rw [hself]
      omega
    · have hlt := hm.pids a ha
      rw [(hsame a ha).1]
      omega

/-- All pids have been given out, and one process has been reaped. -/
theorem filling_run : ∃ g m, Run Machine.step (booted emptyMemory 0 1) g m ∧ Filling pidMax m := by
  have hreach : Reaches Machine.Gives
      (fun m => (m.kernel.procs (m.kernel.curr 0)).state = .running ∧ m.kernel.nextPid = 2 ∧
        m.kernel.aliveThreadCounter < 2 ∧ (∀ a ∈ m.kernel.existing, a < 12) ∧
        ∀ a ∈ m.kernel.existing, (m.kernel.procs a).pid < 2)
      (booted emptyMemory 0 1) ([.event (.spawn 0 3 ⟨0, 0⟩ 16), .wait 0 127] ++ interrupt 0 ++
        [.event (.syscall 0 (.exit 7)), .event (.softInterrupt 0), .event .clean]) := by
    decide +kernel
  obtain ⟨g, m, hr, hg, hruns, hnext, halive, hlow, hpids⟩ :=
    hreach.exists_run .gives .nil Run.Steps.nil
  have hfill : ∀ n, 2 ≤ n → n ≤ pidMax →
      ∃ g m, Run Machine.step (booted emptyMemory 0 1) g m ∧ Filling n m := by
    intro n hn
    induction n, hn using Nat.le_induction with
    | base =>
      intro _
      exact ⟨g, m, hr, counted_run (by decide) hr hg, hruns, hnext, halive, hlow, hpids⟩
    | succ n _ ih =>
      intro hlt
      obtain ⟨g, m, hr, hm⟩ := ih (by omega)
      obtain ⟨m', hstep, hm'⟩ := hm.step hlt
      exact ⟨_, m', hr.snoc hstep, hm'⟩
  exact hfill pidMax (by decide) (Nat.le_refl _)

/-- After 32767 spawns one of the processes has been reaped. The next spawn reads the word behind
the registry. -/
theorem word_beyond_registry : ∃ g m, Run Machine.step (booted emptyMemory 0 1) g m ∧
    m.Enabled (.spawn 0 32778 ⟨0, 0⟩ 16) ∧ ∃ b ∈ m.pidBits (.spawn 0 32778 ⟨0, 0⟩ 16),
      512 ≤ b / 64 := by
  obtain ⟨g, m, hr, hm⟩ := filling_run
  obtain ⟨v, hc⟩ := hm.counted
  refine ⟨g, m, hr, hm.enabled, ?_⟩
  by_contra hno
  have hbits : ∀ b ∈ m.pidBits (.spawn 0 32778 ⟨0, 0⟩ 16), b / 64 < 512 := by
    intro b hb
    by_contra hge
    exact hno ⟨b, hb, Nat.not_lt.mp hge⟩
  obtain ⟨p, hlt, hle, -⟩ := (hc.pidBits _).mp hbits (by decide) hm.alive
  rw [hm.next] at hle
  omega

end RexOS.Smp
