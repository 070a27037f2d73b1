import RexOS.Smp.Slice

/-!
# Cleaning up orphans

`orphan_cleaner` on any list of zombies. A process that is given back to the allocators may be
overwritten at once, so the loop is run with memory that changes then.
-/

namespace RexOS.Smp

open Scheduler Kernel

variable {s : Kernel} {zs l r : List Nat} {t x n a : Nat} {scrub : Process → Process}

/-- The scheduler, and the calls of `kvmfree` so far. -/
structure Cleaning where
  kernel : Kernel
  freed : List Nat

/-- A zombie is unlinked, forgotten and given back; `scrub` is what the allocators do to it. -/
def Cleaning.free (scrub : Process → Process) (c : Cleaning) (t : Nat) : Cleaning :=
  ⟨(c.kernel.reap t).modify t scrub, c.freed ++ [t]⟩

/-- The loop of `orphan_cleaner`. -/
def cleanFrom (scrub : Process → Process) : Nat → Nat → Cleaning → Outcome Cleaning Unit
  | 0, _, c => .spin c
  | n + 1, ptr, c =>
    if ptr = 0 then .done () c
    else
      let nextPtr := (c.kernel.procs ptr).next
      if (c.kernel.procs ptr).parentPid = 0 then
        -- `head->prev` is stored where `head` is null
        if ptr ≠ c.kernel.heads .zombie ∧ nextPtr = 0 then .panic 15 488 c
        else cleanFrom scrub n nextPtr (c.free scrub ptr)
      else cleanFrom scrub n nextPtr c

def cleanOrphans (scrub : Process → Process) (s : Kernel) : Outcome Cleaning Unit :=
  cleanFrom scrub (s.existing.length + 1) (s.heads .zombie) ⟨s, []⟩

/-- Where memory stays as it is, this is the loop of the model. -/
theorem cleanFrom_id (c : Cleaning) :
    (cleanFrom id n t c).within Cleaning.kernel = orphanCleanerFrom n t c.kernel := by
  induction n generalizing t c with
  | zero => rfl
  | succ n ih =>
    rw [cleanFrom, orphanCleanerFrom]
    by_cases h0 : t = 0
    · rw [if_pos h0, if_pos h0]
      rfl
    · rw [if_neg h0, if_neg h0]
      dsimp only
      split
      · split
        · rfl
        · have hfree : (c.free id t).kernel = c.kernel.reap t := by
            unfold Cleaning.free Kernel.modify
            rw [id, Function.update_eq_self]
          rw [ih, hfree]
      · exact ih c

/-- Without a scrub it is the function of the source. -/
theorem cleanOrphans_id (s : Kernel) :
    (cleanOrphans id s).within Cleaning.kernel = s.orphanCleaner :=
  cleanFrom_id _

/-- The idle process is to reap it. -/
def Orphan (s : Kernel) (a : Nat) : Prop := (s.procs a).parentPid = 0

instance : DecidablePred (Orphan s) := fun _ => inferInstanceAs (Decidable (_ = _))

/-- The zombies. -/
def Zombies (s : Kernel) (zs : List Nat) : Prop := Dll s.next s.prev 0 (s.first (.wait .zombie)) zs

/-- The list `zs` has been filtered: the orphans have been given back, the others are in order, and
no process has changed but for links. -/
structure Filtered (s : Kernel) (zs : List Nat) (c : Cleaning) : Prop where
  list : Zombies c.kernel (zs.filter fun z => ¬ Orphan s z)
  freed : c.freed = zs.filter fun z => Orphan s z
  others : ∀ a ∉ zs, c.kernel.procs a = s.procs a
  kept : ∀ a, ¬ (a ∈ zs ∧ Orphan s a) → c.kernel.bare.procs a = s.bare.procs a
  existing : c.kernel.existing = s.existing.diff c.freed

/-! ## One orphan -/

/-- A process that is not on the list stays as it is when one leaves it. -/
theorem procs_unlinkList {w : WaitList} (hd : Dll s.next s.prev 0 (s.first (.wait w)) zs)
    (ht : t ∈ zs) (ha : a ∉ zs) : (s.unlinkList t w).procs a = s.procs a := by
  have hnext : s.next t ≠ 0 → a ≠ s.next t := fun h0 he => ha (he ▸ hd.next_mem ht h0)
  have hprev : t ≠ s.heads w → a ≠ s.prev t := fun hne he =>
    ha (he ▸ hd.prev_mem ht fun h0 => hne ((hd.prev_eq_nil_iff ht).mp h0))
  unfold unlinkList
  dsimp only
  by_cases hhead : t = s.heads w
  · have hself : (s.setHead w (s.procs t).next).heads w = s.next t := Function.update_self ..
    rw [if_pos hhead, hself]
    split
    · rename_i h0
      exact Function.update_of_ne (hnext h0) _ _
    · rfl
  · rw [if_neg hhead]
    refine (Function.update_of_ne (hprev hhead) _ _).trans ?_
    split
    · rename_i h0
      exact Function.update_of_ne (hnext h0) _ _
    · rfl

/-- One zombie is freed, and the list keeps the others. -/
theorem Zombies.free (scrub : Process → Process) {c : Cleaning} (hd : Zombies c.kernel zs)
    (ht : t ∈ zs) :
    Zombies (c.free scrub t).kernel (zs.erase t) ∧
      (∀ a ∉ zs, (c.free scrub t).kernel.procs a = c.kernel.procs a) ∧
      ∀ a ≠ t, (c.free scrub t).kernel.bare.procs a = c.kernel.bare.procs a := by
  have hnodup := hd.nodup
  have hun : Zombies (c.kernel.reap t) (zs.erase t) := dll_unlinkList hd ht
  have hlink : ∀ b ∈ zs.erase t, (c.free scrub t).kernel.procs b = (c.kernel.reap t).procs b :=
      fun b hb =>
    Function.update_of_ne (fun he => hnodup.not_mem_erase (he ▸ hb)) _ _
  have hfirst :
    (c.free scrub t).kernel.first (.wait .zombie) = (c.kernel.reap t).first (.wait .zombie) := rfl
  refine ⟨?_, fun a ha => ?_, fun a ha => ?_⟩
  · unfold Zombies
    rw [hfirst]
    exact hun.congr (fun b hb => congrArg Process.next (hlink b hb)) fun b hb =>
      congrArg Process.prev (hlink b hb)
  · have hat : a ≠ t := fun he => ha (he ▸ ht)
    exact (Function.update_of_ne hat _ _).trans (procs_unlinkList hd ht ha)
  · have hb : (c.kernel.reap t).bare.procs a = c.kernel.bare.procs a :=
      congrFun (congrArg Kernel.procs (bare_unlinkList c.kernel t .zombie)) a
    have hp : (c.free scrub t).kernel.procs a = (c.kernel.reap t).procs a :=
      Function.update_of_ne ha _ _
    rw [← hb]
    show { (c.free scrub t).kernel.procs a with next := 0, prev := 0 } = _
    rw [hp]
    rfl

/-! ## The loop -/

/-- The last zombie is no orphan, or all are. -/
def Cleanable (s : Kernel) (zs : List Nat) : Prop :=
  (∀ z ∈ zs.getLast?, ¬ Orphan s z) ∨ ∀ z ∈ zs, Orphan s z

instance : Decidable (Cleanable s zs) := inferInstanceAs (Decidable (_ ∨ _))

/-- Without an orphan nothing is freed. -/
theorem cleanable_of_kept (hl : ∀ z ∈ l, ¬ Orphan s z) : Cleanable s l :=
  Or.inl fun z hz => hl z (List.mem_of_getLast? hz)

/-- An orphan after others that is not the last one makes no difference. -/
theorem cleanable_erase (hx : Orphan s x) (hlr : l = [] ∨ r ≠ []) :
    Cleanable s (l ++ x :: r) ↔ Cleanable s (l ++ r) := by
  unfold Cleanable
  have hall : (∀ z ∈ l ++ x :: r, Orphan s z) ↔ ∀ z ∈ l ++ r, Orphan s z := by
    simp only [List.mem_append, List.mem_cons, or_imp, forall_and, forall_eq, hx, true_and]
  rw [hall]
  cases r with
  | nil =>
    obtain rfl : l = [] := hlr.resolve_right (not_not.mpr rfl)
    exact iff_of_true (Or.inr fun z hz => absurd hz List.not_mem_nil)
      (Or.inl fun z hz => by simp at hz)
  | cons y r => rw [List.getLast?_append_cons, List.getLast?_append_cons, List.getLast?_cons_cons]

/-- With an orphan at the end and another zombie before it the walk goes through null. -/
theorem not_cleanable (hx : Orphan s x) (hl : ∀ z ∈ l, ¬ Orphan s z) (hne : l ≠ []) :
    ¬ Cleanable s (l ++ [x]) := by
  rintro (hlast | hall)
  · exact hlast x (by rw [List.getLast?_append_cons]; rfl) hx
  · obtain ⟨y, hy⟩ := List.exists_mem_of_ne_nil l hne
    exact hl y hy (hall y (List.mem_append_left _ hy))

/-- What the loop does to the zombies `r` that it has still to come to after the zombies `l`. -/
structure Passed (s : Kernel) (l r : List Nat) (c c' : Cleaning) : Prop where
  list : Zombies c'.kernel (l ++ r.filter fun z => ¬ Orphan s z)
  freed : c'.freed = c.freed ++ r.filter fun z => Orphan s z
  others : ∀ a ∉ l ++ r, c'.kernel.procs a = c.kernel.procs a
  kept : ∀ a, ¬ (a ∈ r ∧ Orphan s a) → c'.kernel.bare.procs a = c.kernel.bare.procs a
  existing : c'.kernel.existing = c.kernel.existing.diff (r.filter fun z => Orphan s z)

/-- A zombie that is no orphan is passed over. -/
theorem Passed.keep {c c' : Cleaning} (hx : ¬ Orphan s x) (hp : Passed s (l ++ [x]) r c c') :
    Passed s l (x :: r) c c' := by
  have hassoc : l ++ x :: r = (l ++ [x]) ++ r := by
    rw [List.append_assoc]
    rfl
  have hkeep : (x :: r).filter (fun z => ¬ Orphan s z) = x :: r.filter fun z => ¬ Orphan s z :=
    List.filter_cons_of_pos (by simpa using hx)
  have hdrop : (x :: r).filter (fun z => Orphan s z) = r.filter fun z => Orphan s z :=
    List.filter_cons_of_neg (by simpa using hx)
  refine ⟨?_, ?_, ?_, fun a ha => hp.kept a fun hin => ha ⟨List.mem_cons_of_mem _ hin.1, hin.2⟩, ?_⟩
  · rw [hkeep]
    have hlist := hp.list
    rw [List.append_assoc] at hlist
    exact hlist
  · rw [hdrop]
    exact hp.freed
  · rw [hassoc]
    exact hp.others
  · rw [hdrop]
    exact hp.existing

/-- An orphan is given back. -/
theorem Passed.free {c c' : Cleaning} (hd : Zombies c.kernel (l ++ x :: r)) (hx : Orphan s x)
    (hp : Passed s l r (c.free scrub x) c') : Passed s l (x :: r) c c' := by
  have hmem : x ∈ l ++ x :: r := List.mem_append_right _ List.mem_cons_self
  obtain ⟨-, hothers, hkept⟩ := hd.free scrub hmem
  have hkeep : (x :: r).filter (fun z => ¬ Orphan s z) = r.filter fun z => ¬ Orphan s z :=
    List.filter_cons_of_neg (by simpa using hx)
  have hdrop : (x :: r).filter (fun z => Orphan s z) = x :: r.filter fun z => Orphan s z :=
    List.filter_cons_of_pos (by simpa using hx)
  refine ⟨?_, ?_, fun a ha => ?_, fun a ha => ?_, ?_⟩
  · rw [hkeep]
    exact hp.list
  · rw [hdrop, hp.freed]
    exact List.append_assoc _ _ _
  · refine (hp.others a fun hin => ha ?_).trans (hothers a ha)
    exact (List.mem_append.mp hin).elim (List.mem_append_left _)
      fun hr => List.mem_append_right _ (List.mem_cons_of_mem _ hr)
  · have hax : a ≠ x := fun he => ha ⟨he ▸ List.mem_cons_self, he ▸ hx⟩
    exact (hp.kept a fun hin => ha ⟨List.mem_cons_of_mem _ hin.1, hin.2⟩).trans (hkept a hax)
  · rw [hdrop, hp.existing, List.diff_cons]
    rfl

/-- The loop from the zombies `r` on. It stops the machine at an orphan that is last and not
first. -/
theorem Zombies.clean (scrub : Process → Process) {c : Cleaning} (hd : Zombies c.kernel (l ++ r))
    (hl : ∀ z ∈ l, ¬ Orphan s z)
    (hparent : ∀ z ∈ r, (c.kernel.procs z).parentPid = (s.procs z).parentPid) (hn : r.length < n) :
    if Cleanable s (l ++ r) then ∃ c', cleanFrom scrub n (r.head?.getD 0) c = .done () c' ∧
      Passed s l r c c'
    else ∃ c', cleanFrom scrub n (r.head?.getD 0) c = .panic 15 488 c' := by
  induction r generalizing l c n with
  | nil =>
    cases n with
    | zero => exact absurd hn (Nat.not_lt_zero _)
    | succ n =>
      rw [List.append_nil] at hd ⊢
      rw [if_pos (cleanable_of_kept hl), cleanFrom]
      refine ⟨c, if_pos rfl, ?_, (List.append_nil _).symm, fun _ _ => rfl, fun _ _ => rfl, rfl⟩
      rw [List.filter_nil, List.append_nil]
      exact hd
  | cons x r ih =>
    cases n with
    | zero => exact absurd hn (Nat.not_lt_zero _)
    | succ n =>
      have hx : x ∈ l ++ x :: r := List.mem_append_right _ List.mem_cons_self
      have hnext : (c.kernel.procs x).next = r.head?.getD 0 := hd.seg.around.2
      have hx0 : x ≠ 0 := hd.ne_nil x hx
      have hnodup := hd.nodup
      have hxl : x ∉ l := fun hm => (List.nodup_append.mp hnodup).2.2 x hm x List.mem_cons_self rfl
      have hrest : ∀ z ∈ r, (c.kernel.procs z).parentPid = (s.procs z).parentPid := fun z hz =>
        hparent z (List.mem_cons_of_mem _ hz)
      have hlen : r.length < n := Nat.lt_of_succ_lt_succ hn
      have hstep : cleanFrom scrub (n + 1) ((x :: r).head?.getD 0) c =
          if Orphan s x then
            if x ≠ c.kernel.heads .zombie ∧ r.head?.getD 0 = 0 then .panic 15 488 c
            else cleanFrom scrub n (r.head?.getD 0) (c.free scrub x)
          else cleanFrom scrub n (r.head?.getD 0) c := by
        have ho : (c.kernel.procs x).parentPid = 0 ↔ Orphan s x := by
          rw [hparent x List.mem_cons_self]
          rfl
        rw [List.head?_cons, Option.getD_some, cleanFrom, if_neg hx0]
        dsimp only
        rw [hnext]
        exact if_congr ho rfl rfl
      rw [hstep]
      by_cases ho : Orphan s x
      · have hhead : x = c.kernel.heads .zombie ↔ l = [] := by
          have hfirst : c.kernel.heads .zombie = (l ++ x :: r).head?.getD 0 := hd.seg.head_eq
          rw [hfirst]
          cases l with
          | nil => exact iff_of_true rfl rfl
          | cons y l => exact iff_of_false (fun he => hxl (he ▸ List.mem_cons_self)) (by simp)
        have hlast : r.head?.getD 0 = 0 ↔ r = [] := by
          cases r with
          | nil => exact iff_of_true rfl rfl
          | cons y r =>
            refine iff_of_false (fun he => hd.ne_nil y ?_ he) (by simp)
            exact List.mem_append_right _ (List.mem_cons_of_mem _ List.mem_cons_self)
        have hcond := and_congr (not_congr hhead) hlast
        rw [if_pos ho]
        by_cases hstop : x ≠ c.kernel.heads .zombie ∧ r.head?.getD 0 = 0
        · obtain ⟨hne, rfl⟩ := hcond.mp hstop
          rw [if_pos hstop, if_neg (not_cleanable ho hl hne)]
          exact ⟨c, rfl⟩
        · have herase : (l ++ x :: r).erase x = l ++ r := by
            rw [List.erase_append_right _ hxl, List.erase_cons_head]
          obtain ⟨hd', -, hkept⟩ := hd.free scrub hx
          rw [herase] at hd'
          have hparent' : ∀ z ∈ r, ((c.free scrub x).kernel.procs z).parentPid =
              (s.procs z).parentPid := by
            intro z hz
            have hzx : z ≠ x := by
              rintro rfl
              exact (List.nodup_cons.mp (List.nodup_append.mp hnodup).2.1).1 hz
            exact (congrArg Process.parentPid (hkept z hzx)).trans (hrest z hz)
          have hlr : l = [] ∨ r ≠ [] := by
            by_contra hno
            push Not at hno
            exact hstop (hcond.mpr hno)
          have hind := ih hd' hl hparent' hlen
          rw [if_neg hstop]
          simp only [cleanable_erase ho hlr]
          split
          · rename_i hclean
            rw [if_pos hclean] at hind
            obtain ⟨c', hrun, hp⟩ := hind
            exact ⟨c', hrun, hp.free hd ho⟩
          · rename_i hclean
            rw [if_neg hclean] at hind
            exact hind
      · have hassoc : l ++ x :: r = (l ++ [x]) ++ r := by
          rw [List.append_assoc]
          rfl
        have hl' : ∀ z ∈ l ++ [x], ¬ Orphan s z := by
          intro z hz
          rcases List.mem_append.mp hz with hz | hz
          · exact hl z hz
          · exact List.mem_singleton.mp hz ▸ ho
        have hind := ih (hassoc ▸ hd) hl' hrest hlen
        rw [← hassoc] at hind
        rw [if_neg ho]
        split
        · rename_i hclean
          rw [if_pos hclean] at hind
          obtain ⟨c', hrun, hp⟩ := hind
          exact ⟨c', hrun, hp.keep ho⟩
        · rename_i hclean
          rw [if_neg hclean] at hind
          exact hind

/-- The loop filters a list of zombies exactly if the last one is no orphan or all are. Otherwise it
stores through a null pointer. -/
theorem filters_iff (scrub : Process → Process) (hz : Zombies s zs)
    (hex : ∀ z ∈ zs, z ∈ s.existing) :
    (∃ c, cleanOrphans scrub s = .done () c ∧ Filtered s zs c) ↔ Cleanable s zs := by
  have hlen : zs.length ≤ s.existing.length := (List.subperm_of_subset hz.nodup hex).length_le
  have hhead : s.heads .zombie = zs.head?.getD 0 := hz.seg.head_eq
  have hrun := hz.clean scrub (l := []) (c := ⟨s, []⟩) (n := s.existing.length + 1)
    (fun z hz => absurd hz List.not_mem_nil) (fun _ _ => rfl) (by omega)
  rw [← hhead] at hrun
  change if Cleanable s zs then ∃ c', cleanOrphans scrub s = _ ∧ _ else ∃ c',
    cleanOrphans scrub s = _ at hrun
  constructor
  · rintro ⟨c, hdone, -⟩
    by_contra hno
    rw [if_neg hno] at hrun
    obtain ⟨c', hpanic⟩ := hrun
    rw [hdone] at hpanic
    cases hpanic
  · intro hclean
    rw [if_pos hclean] at hrun
    obtain ⟨c', hdone, hp⟩ := hrun
    have hfreed : c'.freed = zs.filter fun z => Orphan s z := hp.freed
    exact ⟨c', hdone, hp.list, hfreed, hp.others, hp.kept, by rw [hfreed]; exact hp.existing⟩

/-- Two zombies. -/
theorem zombies_two {b : Nat} (ha : a = s.heads .zombie) (h0 : a ≠ 0 ∧ b ≠ 0 ∧ a ≠ b)
    (hprev : s.prev a = 0)
    (hnext : s.next a = b) (hback : s.prev b = a) (hlast : s.next b = 0) : Zombies s [a, b] where
  seg := ⟨ha.symm, h0.1, hprev, hnext, h0.2.1, hback, hlast⟩
  nodup := by simpa using h0.2.2

/-- A child of the sleeping process 4 has ended before an orphan, which is given back. -/
theorem filters_two : ∃ g, ∃ m : Machine, Run Machine.step (booted emptyMemory 0 1) g m ∧
    m.Enabled .clean ∧
    ∃ c, cleanOrphans id m.kernel = .done () c ∧ Filtered m.kernel [3, 5] c := by
  have hreach : Reaches (fun _ _ => True)
      (fun m => m.Enabled .clean ∧ m.kernel.heads .zombie = 3 ∧ m.kernel.prev 3 = 0 ∧
        m.kernel.next 3 = 5 ∧
        m.kernel.prev 5 = 3 ∧ m.kernel.next 5 = 0 ∧ (∀ z ∈ [3, 5], z ∈ m.kernel.existing) ∧
        ¬ Orphan m.kernel 5)
      (booted emptyMemory 0 1)
        ([.event (.spawn 0 4 ⟨0, 0⟩ 16), .event (.spawn 0 3 ⟨0, 0⟩ 20), .wait 0 127] ++
        interrupt 0 ++ [.event (.spawn 0 5 ⟨0, 0⟩ 10), .event (.syscall 0 .yield),
          .event (.softInterrupt 0),
        .event (.syscall 0 (.exit 0)), .event (.softInterrupt 0), .event (.syscall 0 (.sleep 100)),
        .event (.softInterrupt 0), .event (.syscall 0 (.exit 0)), .event (.softInterrupt 0)]) := by
    decide +kernel
  obtain ⟨g, m, hr, he, hhead, hprev, hnext, hback, hlast, hex, ho⟩ := hreach.run
  have hz := zombies_two hhead.symm (by decide) hprev hnext hback hlast
  refine ⟨g, m, hr, he, (filters_iff id hz hex).mpr (Or.inl fun z hz => ?_)⟩
  rw [← Option.some.inj hz]
  exact ho

/-- The orphan has ended first, so it is the last zombie. -/
theorem orphan_last : ∃ g, ∃ m : Machine, Run Machine.step (booted emptyMemory 0 1) g m ∧
    m.Enabled .clean ∧
    Zombies m.kernel [5, 3] ∧ Orphan m.kernel 3 ∧ ¬ Orphan m.kernel 5 ∧
    ¬ ∃ c, cleanOrphans id m.kernel = .done () c := by
  have hreach : Reaches (fun _ _ => True)
      (fun m => m.Enabled .clean ∧ m.kernel.heads .zombie = 5 ∧ m.kernel.prev 5 = 0 ∧
        m.kernel.next 5 = 3 ∧
        m.kernel.prev 3 = 5 ∧ m.kernel.next 3 = 0 ∧ Orphan m.kernel 3 ∧ ¬ Orphan m.kernel 5 ∧
        (cleanOrphans id m.kernel).returned.isSome = false)
      (booted emptyMemory 0 1)
        ([.event (.spawn 0 3 ⟨0, 0⟩ 16), .event (.spawn 0 4 ⟨0, 0⟩ 17), .wait 0 127] ++
        interrupt 0 ++
          [.event (.syscall 0 (.exit 0)), .event (.softInterrupt 0), .event (.spawn 0 5 ⟨0, 0⟩ 10),
        .event (.syscall 0 .yield), .event (.softInterrupt 0), .event (.syscall 0 (.exit 0)),
        .event (.softInterrupt 0), .event (.syscall 0 (.sleep 100)),
          .event (.softInterrupt 0)]) := by
    decide +kernel
  obtain ⟨g, m, hr, he, hhead, hprev, hnext, hback, hlast, ho, hno, hrun⟩ := hreach.run
  refine ⟨g, m, hr, he, zombies_two hhead.symm (by decide) hprev hnext hback hlast, ho, hno, ?_⟩
  rintro ⟨c, hdone⟩
  rw [hdone] at hrun
  exact Bool.noConfusion hrun

end RexOS.Smp
