import RexOS.Smp.Intact

/-!
# Where rights come from

A right on a live process comes from the birth of that process, from the birth of its holder or from
a grant by a process that may pass it on, and is held ever since. Tables know processes by their
pids only. So this is lost where a pid is given out on which somebody still holds a right, and where
`shell_ptr` names another process than the one with pid 1.
-/

namespace RexOS.Scheduler.Kernel

/-- The first free pid from `next_pid` on. -/
def firstFree (s : Kernel) : Option Nat :=
  (List.range' s.nextPid (pidMax - s.nextPid)).find? fun p => !s.pidRegistry p

variable {s : Kernel} {n : Nat}

/-- The first free pid, from where the search starts. -/
theorem firstFree_eq_some (hn : s.firstFree = some n) : n < pidMax ∧ s.nextPid ≤ n ∧
    s.pidRegistry n = false ∧ ∀ q, s.nextPid ≤ q → q < n → s.pidRegistry q = true := by
  obtain ⟨hfree, as, bs, hsplit, hused⟩ := List.find?_eq_some_iff_append.mp hn
  have hmem : n ∈ List.range' s.nextPid (pidMax - s.nextPid) := by
    rw [hsplit]
    exact List.mem_append_right as List.mem_cons_self
  obtain ⟨hle, hlt⟩ := List.mem_range'_1.mp hmem
  refine ⟨by omega, hle, by simpa using hfree, fun q hq hqn => ?_⟩
  have hq' : q ∈ as := by
    have hin : q ∈ as ++ n :: bs := hsplit ▸ List.mem_range'_1.mpr ⟨hq, by omega⟩
    rcases List.mem_append.mp hin with has | hbs
    · exact has
    · -- what comes behind `n` in the range is above it
      have hsorted : (as ++ n :: bs).Pairwise (· < ·) := hsplit ▸ List.pairwise_lt_range'
      have htail := (List.pairwise_append.mp hsorted).2.1
      rcases List.mem_cons.mp hbs with rfl | hbs
      · exact absurd hqn (Nat.lt_irrefl _)
      · exact absurd hqn (Nat.lt_asymm (List.rel_of_pairwise_cons htail hbs))
  simpa using hused q hq'

/-- It is the pid that `spawn_process` takes. -/
theorem takePid_of_firstFree (hn : s.firstFree = some n) : s.takePid = .done n (s.gave n) := by
  obtain ⟨hlt, hle, hfree, hused⟩ := firstFree_eq_some hn
  obtain ⟨p, hp, hlep, hfreep, husedp, htake, -⟩ := FindsPid.takePid (s := s) ⟨n, hlt, hle, hfree⟩
  have hpn : p = n := by
    rcases Nat.lt_trichotomy p n with hpn | hpn | hpn
    · exact absurd ((hused p hlep hpn).symm.trans hfreep) (by simp)
    · exact hpn
    · exact absurd ((husedp n hle hpn).symm.trans hfree) (by simp)
  exact hpn ▸ htake

end RexOS.Scheduler.Kernel

namespace RexOS.Smp

open Scheduler Kernel

variable {procs : Nat → Process} {s s' k : Kernel} {m m' : Machine} {d : Deed} {c : RightsCall}
  {g : List (Machine × Deed)} {a b h i n new pid idle harts priority : Nat} {image : Image}

/-! ## The law -/

/-- A process spawned and not yet reaped holds a right on another one. -/
structure HoldsOn (m : Machine) (a b i : Nat) : Prop where
  holder : a ∈ m.kernel.existing
  target : b ∈ m.kernel.existing
  right : (m.kernel.procs a).Holds (m.kernel.procs b).pid i

instance : Decidable (HoldsOn m a b i) :=
  decidable_of_iff (a ∈ m.kernel.existing ∧ b ∈ m.kernel.existing ∧
      (m.kernel.procs a).Holds (m.kernel.procs b).pid i)
    ⟨fun hc => ⟨hc.1, hc.2.1, hc.2.2⟩, fun hh => ⟨hh.holder, hh.target, hh.right⟩⟩

/-- The step calls `spawn_process` on a hart, with the structure at the address `new`. -/
def Deed.Spawns : Deed → Nat → Nat → Prop
  | .event (.spawn h new _ _), j, a => h = j ∧ new = a
  | .launch new _, j, a => 0 = j ∧ new = a
  | _, _, _ => False

/-- What the rules of births and grants give to `a` on `b` in a step from `m` to `m'`. -/
inductive Gives (m m' : Machine) : Deed → Nat → Nat → Nat → Prop
  /-- The parent of a new process gets 7 on it. -/
  | parent {d : Deed} {h b i : Nat} : d.Spawns h b → b ∉ m.kernel.existing → i < 3 →
      Gives m m' d (m.kernel.curr h) b i
  /-- The process with pid 1 gets 15. -/
  | shell {d : Deed} {h b i : Nat} : d.Spawns h b → b ∉ m.kernel.existing →
      (m.kernel.procs m.kernel.shellPtr).pid = 1 → i < 4 → Gives m m' d m.kernel.shellPtr b i
  /-- The new process gets 1 on itself. -/
  | self {d : Deed} {h b : Nat} : d.Spawns h b → b ∉ m.kernel.existing → Gives m m' d b b 0
  /-- It gets 3 on pid 1. -/
  | newborn {d : Deed} {h a b i : Nat} : d.Spawns h a → a ∉ m.kernel.existing →
      (m'.kernel.procs b).pid = 1 →
      i < 2 → Gives m m' d a b i
  /-- A grant that is not refused, by a process that holds the right and the right to grant. -/
  | grant {h a b i a2 : Nat} : (m'.kernel.procs (m.kernel.curr h)).tf.uContext 10 = 1 →
      b ∈ m.kernel.existing → a2.testBit i = true →
      (m.kernel.procs (m.kernel.curr h)).Holds (m.kernel.procs b).pid i →
      (m.kernel.procs (m.kernel.curr h)).Holds (m.kernel.procs b).pid 2 →
      Gives m m' (.rights h (.grant (m.kernel.procs a).pid (m.kernel.procs b).pid a2)) a b i

/-- At the end of the steps `a` holds the right on `b`. It has got it by the rules while `b` was
there, and has held it since. -/
inductive Obtained (a b i : Nat) : List (Machine × Deed) → Machine → Prop
  | now {g : List (Machine × Deed)} {m : Machine} {d : Deed} {m' : Machine} :
      m.act d = some m' → Gives m m' d a b i → HoldsOn m' a b i →
      Obtained a b i ((m, d) :: g) m'
  | kept {g : List (Machine × Deed)} {m : Machine} {d : Deed} {m' : Machine} :
      Obtained a b i g m → m.act d = some m' → HoldsOn m' a b i →
      Obtained a b i ((m, d) :: g) m'

/-- `shell_ptr` is null or names the process with pid 1, an idle process or none that is still
there. -/
def ShellKnown (s : Kernel) (new : Nat) : Prop :=
  s.shellPtr ≠ 0 → s.shellPtr ≠ new ∧
    (s.shellPtr ∈ s.existing → (s.procs s.shellPtr).pid = 0 ∨ (s.procs s.shellPtr).pid = 1)

/-- Who holds a right on the pid is about to get it. -/
def NoneStale (s : Kernel) (h n : Nat) : Prop :=
  ∀ a ∈ s.existing, (s.procs a).pid ≠ 0 → ∀ i < 4, (s.procs a).Holds n i →
    a = s.curr h ∧ i < 3 ∨ s.shellPtr ≠ 0 ∧ n ≠ 1 ∧ a = s.shellPtr

instance : Decidable (ShellKnown s new) := inferInstanceAs (Decidable (_ → _ ∧ (_ → _ ∨ _)))

instance : Decidable (NoneStale s h n) :=
  inferInstanceAs (Decidable (∀ a ∈ s.existing, (s.procs a).pid ≠ 0 → ∀ i < (4 : Nat), _))

/-- The pid is nobody's, and the birth gives nobody more on it than the rules do. -/
structure Unclaimed (s : Kernel) (h new n : Nat) : Prop where
  free : ∀ b ∈ s.existing, (s.procs b).pid ≠ n
  shell : n ≠ 1 → ShellKnown s new
  stale : NoneStale s h n

instance : Decidable (Unclaimed s h new n) :=
  decidable_of_iff ((∀ b ∈ s.existing, (s.procs b).pid ≠ n) ∧ (n ≠ 1 → ShellKnown s new) ∧
      NoneStale s h n)
    ⟨fun hc => ⟨hc.1, hc.2.1, hc.2.2⟩, fun hu => ⟨hu.free, hu.shell, hu.stale⟩⟩

/-- A birth that goes through gives out the first free pid from `next_pid` on, and it is
unclaimed. -/
def Machine.SpawnsFresh (m : Machine) (h new : Nat) : Prop :=
  new ≠ 0 → m.kernel.aliveThreadCounter < pidMax → ∃ n ∈ m.kernel.firstFree,
    Unclaimed m.kernel h new n

instance {new : Nat} : Decidable (m.SpawnsFresh h new) :=
  inferInstanceAs (Decidable (_ → _ → ∃ n ∈ m.kernel.firstFree, _))

/-- Births are fresh, and calls of 10, 11 and 14 are in range and made by a process that has not
been reaped. -/
def Machine.Confines (m : Machine) : Deed → Prop
  | .event (.spawn h new _ _) => m.SpawnsFresh h new
  | .event _ => True
  | .launch new _ => m.SpawnsFresh 0 new
  | .rights h c => c.InRange ∧ m.kernel.curr h ∈ m.kernel.existing

instance : (c : RightsCall) → Decidable c.InRange
  | .grant _ a1 _ => inferInstanceAs (Decidable (a1 < pidMax))
  | .revoke _ a1 => inferInstanceAs (Decidable (a1 < pidMax))
  | .whitelist _ _ => inferInstanceAs (Decidable True)

instance : (d : Deed) → Decidable (m.Confines d)
  | .event (.spawn h new _ _) => inferInstanceAs (Decidable (m.SpawnsFresh h new))
  | .launch new _ => inferInstanceAs (Decidable (m.SpawnsFresh 0 new))
  | .rights h c => inferInstanceAs (Decidable (c.InRange ∧ m.kernel.curr h ∈ m.kernel.existing))
  | .event (.start ..) | .event (.timer _) | .event (.softInterrupt _) | .event (.external ..)
  | .event (.syscall ..) | .event (.steal _) | .event .clean => inferInstanceAs (Decidable True)

/-! ## A birth -/

/-- What a birth does to pids and tables. -/
structure Birth (s s' : Kernel) (h new n : Nat) : Prop where
  pid : ∀ a, (s'.procs a).pid = if a = new then n else (s.procs a).pid
  holds : ∀ a pid i, (s'.procs a).Holds pid i ↔
    (if a = new then pid = 1 ∧ i < 2 else (s.procs a).Holds pid i) ∨ pid = n ∧
      (a = s.curr h ∧ i < 3 ∨ (s.shellPtr ≠ 0 ∧ n ≠ 1) ∧ a = s.shellPtr ∧ i < 4 ∨ a = new ∧ i < 1)
  existing : s'.existing = new :: s.existing
  next : s'.nextPid = n + 1

/-- The table of a new process. -/
theorem holds_bear : ((s.bear h new n image).procs a).Holds pid i ↔
    if a = new then pid = 1 ∧ i < 2 else (s.procs a).Holds pid i := by
  unfold bear
  rw [procs_modify]
  split
  · rw [holds_iff]
    dsimp only
    by_cases hword : pid / 16 = 0
    · rw [hword, Function.update_self]
      by_cases hi : i < 4
      · rw [show (3 : Nat) <<< 4 = 3 <<< (1 * 4) from rfl, Fields.testBit_shiftLeft (by decide) hi,
          show (3 : Nat) = 2 ^ 2 - 1 from rfl, Nat.testBit_two_pow_sub_one]
        have hone : pid % 16 = 1 ↔ pid = 1 := by omega
        simp [hone, hi]
      · have hlarge : ¬ i < 2 := by omega
        simp [hi, hlarge]
    · rw [Function.update_of_ne hword]
      have hne : pid ≠ 1 := by
        rintro rfl
        exact hword rfl
      simp [hne]
  · rfl

/-- The lowest rights are added. -/
theorem holds_addOnes {x v : Nat} (hv : v = 2 ^ x - 1) (hx : x ≤ 4) :
    ((s.addRights b n v).procs a).Holds pid i ↔
      (s.procs a).Holds pid i ∨ pid = n ∧ a = b ∧ i < x := by
  have hlt : v < 16 := by
    have hle : 2 ^ x ≤ 2 ^ 4 := Nat.pow_le_pow_right (by decide) hx
    omega
  have hi : i < x ∧ i < 4 ↔ i < x := and_iff_left_of_imp fun h => h.trans_le hx
  rw [holds_addRights hlt, hv, Nat.testBit_two_pow_sub_one, decide_eq_true_iff, hi]
  tauto

/-- Who holds which right after a birth has given its rights. -/
theorem holds_giveRights : ((s.giveRights h new n).procs a).Holds pid i ↔
    (s.procs a).Holds pid i ∨ pid = n ∧
      (a = s.curr h ∧ i < 3 ∨ (s.shellPtr ≠ 0 ∧ n ≠ 1) ∧ a = s.shellPtr ∧ i < 4 ∨ a = new ∧
        i < 1) := by
  unfold giveRights
  dsimp only
  rw [holds_addOnes (v := 1) (x := 1) rfl (by decide)]
  split
  · rename_i hshell
    have hparts : s.shellPtr ≠ 0 ∧ n ≠ 1 := hshell
    rw [holds_addOnes (v := 15) (x := 4) rfl (by decide),
      holds_addOnes (v := 7) (x := 3) rfl (by decide)]
    change ((_ ∨ _) ∨ pid = n ∧ a = s.shellPtr ∧ i < 4) ∨ _ ↔ _
    tauto
  · rename_i hshell
    have hparts : ¬ (s.shellPtr ≠ 0 ∧ n ≠ 1) := hshell
    rw [holds_addOnes (v := 7) (x := 3) rfl (by decide)]
    tauto

/-- The same with the table of the new process. -/
theorem holds_enroll : ((s.enroll h new n image priority).procs a).Holds pid i ↔
    (if a = new then pid = 1 ∧ i < 2 else (s.procs a).Holds pid i) ∨ pid = n ∧
      (a = s.curr h ∧ i < 3 ∨ (s.shellPtr ≠ 0 ∧ n ≠ 1) ∧ a = s.shellPtr ∧ i < 4 ∨ a = new ∧
        i < 1) := by
  have hcurr : (s.bear h new n image).curr h = s.curr h := rfl
  have hshell : (s.bear h new n image).shellPtr = s.shellPtr := rfl
  have hrest : ∀ k : Kernel, ((k.modify new fun p =>
      { p with
        activeGrant := 0
        grantWhitelist := fun _ => 0
        priority := priority
        timeSlice := priority * 4 + 4
        ticksLeft := priority * 4 + 4
        cpuTime := 0 }).procs a).Holds pid i ↔ (k.procs a).Holds pid i :=
    fun k => holds_modify fun _ => rfl
  unfold enroll
  rw [hrest, holds_giveRights, holds_bear, hcurr, hshell]

/-- So a birth gives these rights and no others. -/
theorem birth_enrolled (s : Kernel) (h new n : Nat) (image : Image) (priority : Nat) :
    Birth s { ((s.gave n).enroll h new n image priority).joinCircle h new with
      existing := new :: s.existing } h new n := by
  have hjoin := Intact.frame.joinCircle ((s.gave n).enroll h new n image priority) h new
  refine ⟨fun b => (hjoin.pid b).trans ?_, fun b pid i => ?_, rfl, ?_⟩
  · have hpid :=
      congrFun (field_enroll Process.pid (fun _ _ => rfl) (s.gave n) h new n image priority) b
    exact hpid.trans (Function.update_apply ..)
  · have hholds : (((s.gave n).enroll h new n image priority).procs b).Holds pid i ↔ _ :=
      holds_enroll
    exact hjoin.holds.trans hholds
  · exact hjoin.next.trans (rest_enroll Kernel.nextPid (fun _ _ => rfl) ..)

/-- A birth that gives out the first free pid. -/
theorem spawnProcess_birth (hn : s.firstFree = some n)
    (hrun : s.spawnProcess h new image priority = .done a s') :
    s' = s ∨ new ≠ 0 ∧ s.aliveThreadCounter < pidMax ∧ Birth s s' h new n := by
  unfold Kernel.spawnProcess at hrun
  split at hrun
  · cases hrun
    exact Or.inl rfl
  · rename_i hnew
    split at hrun
    · cases hrun
      exact Or.inl rfl
    · rename_i halive
      rw [takePid_of_firstFree hn] at hrun
      cases hrun
      refine Or.inr ⟨hnew, Nat.lt_of_not_le halive, ?_⟩
      exact birth_enrolled s h _ n image priority

/-- An entry of a table is not a pid. -/
theorem pid_setEntry {t idx offset v : Nat} :
    ((s.setEntry t idx offset v).procs a).pid = (s.procs a).pid := by
  unfold setEntry
  rw [procs_modify]
  split
  · rename_i hat
    rw [hat]
  · rfl

theorem pid_clearEntry {t idx offset : Nat} :
    ((s.clearEntry t idx offset).procs a).pid = (s.procs a).pid := by
  unfold clearEntry
  rw [procs_modify]
  split
  · rename_i hat
    rw [hat]
  · rfl

/-! ## The invariant -/

/-- Nobody has rights on pid 0, and all rights have been obtained by the rules. -/
structure Confined (g : List (Machine × Deed)) (m : Machine) : Prop where
  next : m.kernel.nextPid ≠ 0
  zero : ∀ a ∈ m.kernel.existing, (m.kernel.procs a).pid ≠ 0 → ∀ i, ¬ (m.kernel.procs a).Holds 0 i
  source : ∀ {a b i}, (m.kernel.procs a).pid ≠ 0 → HoldsOn m a b i → Obtained a b i g m

namespace Confined

/-- Where nothing is added, what is held has been held. -/
theorem intact (hm : Confined g m) (hact : m.act d = some m') (hi : Intact m.kernel m'.kernel) :
    Confined ((m, d) :: g) m' := by
  refine ⟨hi.next ▸ hm.next, fun a ha hpid i hh => ?_, fun {a b i} hpid hh => ?_⟩
  · rw [hi.pid] at hpid
    exact hm.zero a (hi.existing ha) hpid i (hi.holds.mp hh)
  · have hright := hi.holds.mp hh.right
    rw [hi.pid] at hpid hright
    exact .kept (hm.source hpid ⟨hi.existing hh.holder, hi.existing hh.target, hright⟩) hact hh

/-- A hart comes up, with a process that has no rights and the pid on which nobody has any. -/
theorem start (hm : Confined g m) (hact : m.act (.event (.start h idle)) = some m') :
    Confined ((m, .event (.start h idle)) :: g) m' := by
  obtain ⟨⟨-, -, -, hnew⟩, hrun⟩ := Machine.act_eq_some.mp hact
  have hex : m'.kernel.existing = idle :: m.kernel.existing := by cases hrun; rfl
  have hold : ∀ a, a ≠ idle → m'.kernel.procs a = m.kernel.procs a := by
    cases hrun
    exact fun a ha => Function.update_of_ne ha ..
  have hidle : (m'.kernel.procs idle).pid = 0 := by
    cases hrun
    change (Function.update m.kernel.procs idle _ idle).pid = 0
    rw [Function.update_self]
  have hnext : m'.kernel.nextPid = m.kernel.nextPid := by cases hrun; rfl
  have hzero : ∀ a ∈ m'.kernel.existing, (m'.kernel.procs a).pid ≠ 0 → a ≠ idle ∧
      a ∈ m.kernel.existing ∧ (m.kernel.procs a).pid ≠ 0 := by
    intro a ha hpid
    have hne : a ≠ idle := fun he => hpid (he ▸ hidle)
    rw [hex] at ha
    exact ⟨hne, (List.mem_cons.mp ha).resolve_left hne, hold a hne ▸ hpid⟩
  refine ⟨hnext ▸ hm.next, fun a ha hpid i hh => ?_, fun {a b i} hpid hh => ?_⟩
  · obtain ⟨hne, ha', hpid'⟩ := hzero a ha hpid
    exact hm.zero a ha' hpid' i (hold a hne ▸ hh)
  · obtain ⟨hne, ha', hpid'⟩ := hzero a hh.holder hpid
    have hright := hh.right
    rw [hold a hne] at hright
    have hb : b ≠ idle := by
      rintro rfl
      rw [hidle] at hright
      exact hm.zero a ha' hpid' i hright
    have hb' := hh.target
    rw [hex] at hb'
    rw [hold b hb] at hright
    exact .kept (hm.source hpid' ⟨ha', (List.mem_cons.mp hb').resolve_left hb, hright⟩) hact hh

/-- A new process comes in, on an unclaimed pid. -/
theorem birth (hm : Confined g m) (hact : m.act d = some m') (hd : d.Spawns h new)
    (hnew : new ∉ m.kernel.existing) (hn : m.kernel.firstFree = some n)
    (hfree : Unclaimed m.kernel h new n) (hb : Birth m.kernel m'.kernel h new n) :
    Confined ((m, d) :: g) m' := by
  have hn0 : n ≠ 0 := by
    have hle := (firstFree_eq_some hn).2.1
    have hpos := hm.next
    omega
  have hpidnew : (m'.kernel.procs new).pid = n := (hb.pid new).trans (if_pos rfl)
  have hpidold : ∀ {b}, b ≠ new → (m'.kernel.procs b).pid = (m.kernel.procs b).pid :=
    fun hne => (hb.pid _).trans (if_neg hne)
  have hin : ∀ {b}, b ∈ m'.kernel.existing → b ≠ new → b ∈ m.kernel.existing := by
    intro b hbm hne
    rw [hb.existing] at hbm
    exact (List.mem_cons.mp hbm).resolve_left hne
  refine ⟨by rw [hb.next]; exact Nat.succ_ne_zero n, fun a ha hpid i hh => ?_,
    fun {a b i} hpid hh => ?_⟩
  · rcases (hb.holds a 0 i).mp hh with hold | ⟨hzero, -⟩
    · split at hold
      · exact absurd hold.1 (by decide)
      · rename_i hne
        rw [hpidold hne] at hpid
        exact hm.zero a (hin ha hne) hpid i hold
    · exact hn0 hzero.symm
  · have hi : i < 4 := (holds_iff.mp hh.right).2
    by_cases hbn : (m'.kernel.procs b).pid = n
    · have hbnew : b = new := by
        by_contra hne
        exact hfree.free b (hin hh.target hne) ((hpidold hne).symm.trans hbn)
      subst hbnew
      have hshell : m.kernel.shellPtr ≠ 0 ∧ n ≠ 1 → a = m.kernel.shellPtr →
          Obtained a b i ((m, d) :: g) m' := by
        rintro ⟨h0, hn1⟩ rfl
        obtain ⟨hne, hknown⟩ := hfree.shell hn1 h0
        rw [hpidold hne] at hpid
        have hone := (hknown (hin hh.holder hne)).resolve_left hpid
        exact .now hact (.shell hd hnew hone hi) hh
      have hparent : a = m.kernel.curr h → i < 3 → Obtained a b i ((m, d) :: g) m' := by
        rintro rfl hi3
        exact .now hact (.parent hd hnew hi3) hh
      rcases (hb.holds a _ i).mp hh.right with hold | ⟨-, ⟨ha, hi3⟩ | ⟨hs, ha, -⟩ | ⟨rfl, hi1⟩⟩
      · split at hold
        · rename_i ha
          subst ha
          exact .now hact (.newborn hd hnew hold.1 hold.2) hh
        · rename_i hne
          rw [hbn] at hold
          rw [hpidold hne] at hpid
          rcases hfree.stale a (hin hh.holder hne) hpid i hi hold with ⟨ha, hi3⟩ | ⟨h0, hn1, ha⟩
          · exact hparent ha hi3
          · rw [← hpidold hne] at hpid
            exact hshell ⟨h0, hn1⟩ ha
      · exact hparent ha hi3
      · exact hshell hs ha
      · obtain rfl : i = 0 := by omega
        exact .now hact (.self hd hnew) hh
    · have hne : b ≠ new := fun he => hbn (he ▸ hpidnew)
      have hold := ((hb.holds a _ i).mp hh.right).resolve_right fun hc => hbn hc.1
      split at hold
      · rename_i ha
        subst ha
        exact .now hact (.newborn hd hnew hold.1 hold.2) hh
      · rename_i hanew
        rw [hpidold hanew] at hpid
        rw [hpidold hne] at hold
        exact .kept (hm.source hpid ⟨hin hh.holder hanew, hin hh.target hne, hold⟩) hact hh

/-- `spawn_process` returns; afterwards only `shell_ptr` is stored. -/
theorem spawns (hm : Confined g m) (hact : m.act d = some m') (hd : d.Spawns h new)
    (hnew : new ∉ m.kernel.existing) (hfresh : m.SpawnsFresh h new)
    (hrun : m.kernel.spawnProcess h new image priority = .done n k)
    (hk : ∃ shell, m'.kernel = { k with shellPtr := shell }) : Confined ((m, d) :: g) m' := by
  obtain ⟨shell, hk⟩ := hk
  have hsame : m.kernel = k → Intact m.kernel m'.kernel := by
    intro he
    rw [hk, ← he]
    exact ⟨fun _ => rfl, fun _ => rfl, fun _ => id, rfl⟩
  by_cases hgo : new ≠ 0 ∧ m.kernel.aliveThreadCounter < pidMax
  · obtain ⟨p, hp, hfree⟩ := hfresh hgo.1 hgo.2
    rcases spawnProcess_birth hp hrun with he | ⟨-, -, hb⟩
    · exact hm.intact hact (hsame he.symm)
    · refine hm.birth hact hd hnew hp hfree ?_
      rw [hk]
      exact ⟨hb.pid, hb.holds, hb.existing, hb.next⟩
  · refine hm.intact hact (hsame ?_)
    unfold Kernel.spawnProcess at hrun
    split at hrun
    · cases hrun
      rfl
    · rename_i h0
      have hfull : m.kernel.aliveThreadCounter ≥ pidMax := by
        by_contra hlt
        exact hgo ⟨h0, Nat.lt_of_not_le hlt⟩
      rw [if_pos hfull] at hrun
      cases hrun
      rfl

/-- A process passes on what it may pass on. -/
theorem grants {a0 a1 a2 : Nat} (hm : Confined g m)
    (hact : m.act (.rights h (.grant a0 a1 a2)) = some m') (h1 : a1 < pidMax)
    (hcaller : m.kernel.curr h ∈ m.kernel.existing) :
    Confined ((m, .rights h (.grant a0 a1 a2)) :: g) m' := by
  obtain ⟨⟨-, -, hcurr⟩, hrun⟩ := Machine.act_eq_some.mp hact
  obtain ⟨k, hk, rfl⟩ := Outcome.within_eq_done.mp hrun
  have henter : Intact m.kernel (m.kernel.enter h) :=
    Intact.modify _ _ (fun _ => rfl) fun _ => rfl
  have hreply : ∀ (s : Kernel) x, Intact s (s.reply h x) :=
    fun s x => Intact.modify s _ (fun _ => rfl) fun _ => rfl
  obtain ⟨t, hfind, ⟨ht, hmay, rfl⟩ | ⟨-, rfl⟩⟩ := grantRights_eq h1 hk
  · have hname : ((m.kernel.enter h).procs t).pid = a0 :=
      ((names_getProcessByPid t _ hfind).2).resolve_left ht
    have hgrants : (m.kernel.procs (m.kernel.curr h)).Holds a1 2 := holds_enter.mp hmay.grants
    have hentry : ∀ a pid i, (((((m.kernel.enter h).setEntry t (a1 / 16 % 2 ^ 32) (a1 % 16 * 4)
        (a2 &&& 15)).reply h 1).procs a).Holds pid i ↔
          if a = t ∧ pid = a1 then a2.testBit i = true ∧
              i < 4 else (m.kernel.procs a).Holds pid i) := by
      intro a pid i
      rw [holds_granted h1, holds_enter]
    have hpid : ∀ a, ((((m.kernel.enter h).setEntry t (a1 / 16 % 2 ^ 32) (a1 % 16 * 4)
        (a2 &&& 15)).reply h 1).procs a).pid = (m.kernel.procs a).pid :=
      fun a => ((hreply _ 1).pid a).trans (pid_setEntry.trans (henter.pid a))
    refine ⟨hm.next, fun a ha hpida i hh => ?_, fun {a b i} hpida hh => ?_⟩
    · have hpida' : (m.kernel.procs a).pid ≠ 0 := fun he => hpida ((hpid a).trans he)
      have hold := (hentry a 0 i).mp hh
      split at hold
      · rename_i hc
        exact hm.zero _ hcaller hcurr 2 (hc.2 ▸ hgrants)
      · exact hm.zero a ha hpida' i hold
    · have hpida' : (m.kernel.procs a).pid ≠ 0 := fun he => hpida ((hpid a).trans he)
      have hright := (hentry a _ i).mp ((hpid b) ▸ hh.right)
      split at hright
      · rename_i hc
        obtain ⟨rfl, hb⟩ := hc
        have ha0 : (m.kernel.procs a).pid = a0 := (henter.pid a).symm.trans hname
        have howns : (m.kernel.procs (m.kernel.curr h)).Holds a1 i :=
          holds_enter.mp (hmay.owns i hright.2 hright.1)
        subst ha0 hb
        have hreplied := a0_reply ((m.kernel.enter h).setEntry a
          ((m.kernel.procs b).pid / 16 % 2 ^ 32) ((m.kernel.procs b).pid % 16 * 4) (a2 &&& 15)) h 1
        exact .now hact (.grant hreplied hh.target hright.1 howns hgrants) hh
      · exact .kept (hm.source hpida' ⟨hh.holder, hh.target, hright⟩) hact hh
  · exact hm.intact hact (henter.trans (hreply _ _))

/-- Rights only disappear. -/
theorem shrinks (hm : Confined g m) (hact : m.act d = some m')
    (hpid : ∀ a, (m'.kernel.procs a).pid = (m.kernel.procs a).pid)
    (hholds : ∀ a pid i, (m'.kernel.procs a).Holds pid i → (m.kernel.procs a).Holds pid i)
    (hex : m'.kernel.existing = m.kernel.existing) (hnext : m'.kernel.nextPid = m.kernel.nextPid) :
    Confined ((m, d) :: g) m' := by
  refine ⟨hnext ▸ hm.next, fun a ha hpida i hh => ?_, fun {a b i} hpida hh => ?_⟩
  · rw [hpid] at hpida
    exact hm.zero a (hex ▸ ha) hpida i (hholds a 0 i hh)
  · have hright := hholds a _ i hh.right
    rw [hpid] at hpida hright
    exact .kept (hm.source hpida ⟨hex ▸ hh.holder, hex ▸ hh.target, hright⟩) hact hh

/-- A system call on rights keeps the run confined. -/
theorem rights (hm : Confined g m) (hact : m.act (.rights h c) = some m') (hc : c.InRange)
    (hcaller : m.kernel.curr h ∈ m.kernel.existing) : Confined ((m, .rights h c) :: g) m' := by
  obtain ⟨-, hrun⟩ := Machine.act_eq_some.mp hact
  obtain ⟨k, hk, hm'⟩ := Outcome.within_eq_done.mp hrun
  have henter : Intact m.kernel (m.kernel.enter h) :=
    Intact.modify _ _ (fun _ => rfl) fun _ => rfl
  have hreply : ∀ (s : Kernel) x, Intact s (s.reply h x) :=
    fun s x => Intact.modify s _ (fun _ => rfl) fun _ => rfl
  cases c with
  | grant a0 a1 a2 => exact hm.grants hact hc hcaller
  | revoke a0 a1 =>
    subst hm'
    obtain ⟨t, hfind, ⟨-, -, rfl⟩ | rfl⟩ := revokeRights_eq hk
    · refine hm.shrinks hact (fun a => ?_) (fun a pid i hh => ?_) rfl rfl
      · exact ((hreply _ 1).pid a).trans (pid_clearEntry.trans (henter.pid a))
      · have hcleared := (holds_clearEntry hc).mp (holds_reply.mp hh)
        exact holds_enter.mp hcleared.2
    · exact hm.intact hact (henter.trans (hreply _ _))
  | whitelist a0 a1 =>
    cases hk
    subst hm'
    exact hm.intact hact (henter.trans (Intact.editWhitelist _ h a0 a1))

/-- So does every other step of the run. -/
theorem step (hm : Confined g m) (hc : m.Confines d) (hact : m.act d = some m') :
    Confined ((m, d) :: g) m' := by
  cases d with
  | event e =>
    by_cases hstart : ∃ h idle, e = .start h idle
    · obtain ⟨h, idle, rfl⟩ := hstart
      exact hm.start hact
    · by_cases hspawn : ∃ h new image priority, e = .spawn h new image priority
      · obtain ⟨h, new, image, priority, rfl⟩ := hspawn
        obtain ⟨⟨-, hnew, -⟩, hrun⟩ := Machine.act_eq_some.mp hact
        obtain ⟨x, m₁, hborn, hdone⟩ := Outcome.bind_eq_done.mp hrun
        obtain ⟨k, hk, rfl⟩ := Outcome.within_eq_done.mp hborn
        cases hdone
        exact hm.spawns hact ⟨rfl, rfl⟩ hnew hc hk ⟨k.shellPtr, rfl⟩
      · refine hm.intact hact (Intact.step (fun h idle he => hstart ⟨h, idle, he⟩) ?_ hact)
        exact fun h new image priority he => hspawn ⟨h, new, image, priority, he⟩
  | launch new image =>
    obtain ⟨⟨⟨-, hnew, -⟩, -⟩, hrun⟩ := Machine.act_eq_some.mp hact
    obtain ⟨x, m₁, hborn, hdone⟩ := Outcome.bind_eq_done.mp hrun
    obtain ⟨k, hk, rfl⟩ := Outcome.within_eq_done.mp hborn
    cases hdone
    exact hm.spawns hact ⟨rfl, rfl⟩ hnew hc hk ⟨x, rfl⟩
  | rights h c => exact hm.rights hact hc.1 hc.2

end Confined

/-- At boot there is only the idle process. -/
theorem confined_booted (procs : Nat → Process) (harts idle : Nat) :
    Confined [] (booted procs harts idle) := by
  have hpid : ((booted procs harts idle).kernel.procs idle).pid = 0 := by
    change (Function.update procs idle _ idle).pid = 0
    rw [Function.update_self]
  have hnone : ∀ a ∈ (booted procs harts idle).kernel.existing,
      ((booted procs harts idle).kernel.procs a).pid = 0 :=
    fun a ha => (List.mem_singleton.mp ha : a = idle) ▸ hpid
  exact ⟨Nat.one_ne_zero, fun a ha hne => absurd (hnone a ha) hne,
    fun hne hh => absurd (hnone _ hh.holder) hne⟩

/-- In every run with fresh births, whatever right a process other than an idle one holds on
another, it has obtained it by the rules since that one was spawned, and has held it since. -/
theorem confined_run (hr : Run Machine.act (booted procs harts idle) g m)
    (hc : Run.Steps Machine.Confines g) (hpid : (m.kernel.procs a).pid ≠ 0) (hh : HoldsOn m a b i) :
    Obtained a b i g m :=
  (hr.invariant_along (I := Confined) hc (confined_booted procs harts idle)
    fun _ _ _ _ hm hd hact => hm.step hd hact).source hpid hh

/-- Whoever obtained a right holds it. -/
theorem Obtained.holdsOn (ho : Obtained a b i g m) : HoldsOn m a b i := by
  cases ho with
  | now _ _ hh => exact hh
  | kept _ _ hh => exact hh

/-- The timer and a tick in which nothing is due are always allowed. -/
theorem Machine.Quiet.confines : Machine.Quiet fun m e => m.Confines (.event e) :=
  ⟨fun _ _ => trivial, fun _ => trivial⟩

/-- The shell grants the worker the right to write itself. -/
theorem confined_worker : ∃ g, ∃ m : Machine, Run Machine.act (booted emptyMemory 0 1) g m ∧
    HoldsOn m 4 4 1 ∧ Obtained 4 4 1 g m := by
  have hreach : (booted emptyMemory 0 1).Confines (.launch 3 ⟨0, 0⟩) ∧
      ∃ m₀ ∈ (booted emptyMemory 0 1).act (.launch 3 ⟨0, 0⟩),
        Reaches (fun m e => m.Confines (.event e)) (fun m => m.Confines (.rights 0 (.grant 2 2 3)) ∧
          ∃ m' ∈ m.act (.rights 0 (.grant 2 2 3)), (m'.kernel.procs 4).pid ≠ 0 ∧ HoldsOn m' 4 4 1)
          m₀ shellRuns := by
    decide +kernel
  obtain ⟨hlaunch, m₀, hm₀, hreach⟩ := hreach
  obtain ⟨g, m, hr, hc, hgrant, m', hact, hpid, hholds⟩ := hreach.acts .confines (fun _ _ => id)
    (.snoc .nil hm₀) (Run.steps_cons.mpr ⟨hlaunch, Run.Steps.nil⟩)
  have hr' := hr.snoc hact
  exact ⟨_, m', hr', hholds, confined_run hr' (Run.steps_cons.mpr ⟨hgrant, hc⟩) hpid hholds⟩

/-- The worker reads after the shell. From then on it is the worker that gets all rights on new
processes, here on the next child of the idle process. -/
theorem shell_of_another : ∃ g, ∃ m : Machine, Run Machine.act (booted emptyMemory 0 1) g m ∧
    (m.kernel.procs 4).pid ≠ 0 ∧ HoldsOn m 4 5 3 ∧ ¬ Obtained 4 5 3 g m := by
  have hreach : ∃ m₀ ∈ (booted emptyMemory 0 1).act (.launch 3 ⟨0, 0⟩), Reaches (fun _ _ => True)
      (fun m => (5 ∉ m.kernel.existing ∧ (m.kernel.procs m.kernel.shellPtr).pid ≠ 1) ∧
        ∃ m' ∈ m.act (.event (.spawn 0 5 ⟨0, 0⟩ 20)), (m'.kernel.procs 4).pid ≠ 0 ∧
          HoldsOn m' 4 5 3) m₀
      (shellRuns ++ [.event (.syscall 0 .getc), .event (.softInterrupt 0),
        .event (.syscall 0 .getc), .event (.softInterrupt 0)]) := by
    decide +kernel
  obtain ⟨m₀, hm₀, hreach⟩ := hreach
  obtain ⟨g, m, hr, -, ⟨hnew, hshell⟩, m', hact, hpid, hholds⟩ := hreach.acts (C := fun _ _ => True)
    .true (fun _ _ _ => trivial) (.snoc .nil hm₀) fun _ _ => trivial
  have hnone : ∀ {d a i}, Gives m m' d a 5 i → a = 4 → i = 3 →
      d = .event (.spawn 0 5 ⟨0, 0⟩ 20) → False := by
    intro d a i hgives ha hi hd
    cases hgives with
    | parent _ _ hlt => exact absurd hlt (by omega)
    | shell _ _ hone _ => exact hshell hone
    | self => exact absurd ha (by decide)
    | newborn _ _ _ hlt => exact absurd hlt (by omega)
    | grant => exact absurd hd (by simp)
  refine ⟨_, m', hr.snoc hact, hpid, hholds, fun ho => ?_⟩
  cases ho with
  | now _ hgives => exact hnone hgives rfl rfl rfl
  | kept hbefore => exact hnew hbefore.holdsOn.target

end RexOS.Smp
