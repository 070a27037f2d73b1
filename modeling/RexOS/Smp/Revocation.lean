import RexOS.Core.Fields
import RexOS.Smp.Rights

/-!
# Which calls take rights away

A table packs sixteen entries into a word. A revocation clears an entry of the target, and only its
parent or the process with pid 1 gets that far. A grant replaces the entry as a whole: the target
keeps what it had there exactly if the granted rights contain it.
-/

namespace RexOS.Smp

open Bits Scheduler Kernel

variable {s s' : Kernel} {m m' : Machine} {p : Process} {h a t a0 a1 a2 v pid i idx offset : Nat}
  {c : RightsCall}

/-! ## Entries of a table -/

/-- A right is a bit of the nibble of the pid. -/
theorem holds_iff : p.Holds pid i ↔
    (p.capabilityRoot (pid / 16)).testBit (pid % 16 * 4 + i) = true ∧ i < 4 := by
  rw [Process.Holds, Process.rightsOn, show (15 : Nat) = 2 ^ 4 - 1 from rfl, Fields.testBit_get,
    Bool.and_eq_true, decide_eq_true_iff]

/-- A pid in range is known by its word and its place there. -/
theorem place_eq (h1 : a1 < pidMax) : a1 / 16 % 2 ^ 32 = a1 / 16 := by
  unfold pidMax at h1
  omega

/-- A word that is written counts for the pids it has entries of. -/
theorem holds_update {p' : Process} {x : Nat}
    (hp : p'.capabilityRoot = Function.update p.capabilityRoot (a1 / 16) x) : p'.Holds pid i ↔
      if pid / 16 = a1 / 16 then x.testBit (pid % 16 * 4 + i) = true ∧
          i < 4 else p.Holds pid i := by
  rw [holds_iff, hp]
  split
  · rename_i hword
    rw [hword, Function.update_self]
  · rename_i hword
    rw [Function.update_of_ne hword, holds_iff]

/-- Two pids of one word have one nibble only if they are the same. -/
theorem same_entry (hword : pid / 16 = a1 / 16) : pid % 16 = a1 % 16 ↔ pid = a1 := by omega

/-- A nibble that is overwritten gives exactly the rights written. -/
theorem holds_setEntry (h1 : a1 < pidMax) (hv : v < 16) :
    ((s.setEntry t (a1 / 16 % 2 ^ 32) (a1 % 16 * 4) v).procs a).Holds pid i ↔
      if a = t ∧ pid = a1 then v.testBit i = true ∧ i < 4 else (s.procs a).Holds pid i := by
  unfold setEntry
  rw [procs_modify, place_eq h1]
  by_cases hat : a = t
  · subst hat
    rw [if_pos rfl, holds_update rfl]
    by_cases hword : pid / 16 = a1 / 16
    · rw [if_pos hword]
      by_cases hi : i < 4
      · rw [show (15 : Nat) = 2 ^ 4 - 1 from rfl, Fields.testBit_put hv hi, holds_iff, hword]
        by_cases he : pid = a1
        · simp [he, hi]
        · simp [he, hi, mt (same_entry hword).mp he]
      · simp [hi, holds_iff]
    · have he : pid ≠ a1 := fun he => hword (he ▸ rfl)
      rw [if_neg hword, if_neg fun hc => he hc.2]
  · rw [if_neg hat, if_neg fun hc => hat hc.1]

/-- Clearing a nibble is writing 0. -/
theorem clearEntry_eq (s : Kernel) (t idx offset : Nat) :
    s.clearEntry t idx offset = s.setEntry t idx offset 0 := by
  simp only [clearEntry, setEntry, Nat.zero_shiftLeft, Nat.or_zero]

/-- A nibble that is cleared gives no right. -/
theorem holds_clearEntry (h1 : a1 < pidMax) :
    ((s.clearEntry t (a1 / 16 % 2 ^ 32) (a1 % 16 * 4)).procs a).Holds pid i ↔
      ¬ (a = t ∧ pid = a1) ∧ (s.procs a).Holds pid i := by
  rw [clearEntry_eq, holds_setEntry h1 (by decide)]
  by_cases hat : a = t ∧ pid = a1
  · simp [hat]
  · rw [if_neg hat, and_iff_right hat]

/-- A nibble that is added to keeps its rights. -/
theorem holds_addRights (hv : v < 16) : ((s.addRights t a1 v).procs a).Holds pid i ↔
    (s.procs a).Holds pid i ∨ a = t ∧ pid = a1 ∧ v.testBit i = true ∧ i < 4 := by
  unfold addRights
  rw [procs_modify]
  by_cases hat : a = t
  · subst hat
    rw [if_pos rfl, holds_update rfl]
    by_cases hword : pid / 16 = a1 / 16
    · rw [if_pos hword]
      by_cases hi : i < 4
      · rw [Fields.testBit_add hv hi, holds_iff, hword]
        by_cases he : pid = a1
        · simp [he, hi]
        · simp [he, hi, mt (same_entry hword).mp he]
      · simp [hi, holds_iff]
    · have he : pid ≠ a1 := fun he => hword (he ▸ rfl)
      rw [if_neg hword]
      simp [he]
  · simp [hat]

/-- Other fields of a process say nothing about its rights. -/
theorem holds_modify {f : Process → Process} (hf : ∀ x, (f x).capabilityRoot = x.capabilityRoot) :
    ((s.modify t f).procs a).Holds pid i ↔ (s.procs a).Holds pid i := by
  rw [procs_modify]
  split
  · rename_i hat
    rw [holds_iff, holds_iff, hf, hat]
  · rfl

/-- Neither the entry of a system call nor its return value is a right. -/
@[simp] theorem holds_enter :
    ((s.enter h).procs a).Holds pid i ↔ (s.procs a).Holds pid i := holds_modify fun _ => rfl

@[simp] theorem holds_reply {x : Nat} :
    ((s.reply h x).procs a).Holds pid i ↔ (s.procs a).Holds pid i := holds_modify fun _ => rfl

/-! ## The search for the target -/

/-- A search changes nothing, and what it finds has the pid. -/
def Names (s : Kernel) (pid target : Nat) (o : Outcome Kernel Nat) : Prop :=
  ∀ t k, o = .done t k → k = s ∧ (t = target ∨ (s.procs t).pid = pid)

section Search

variable {target ptr head n : Nat}

/-- What was found so far is the answer. -/
theorem Names.done : Names s pid target (.done target s) := by
  rintro t k ⟨⟩
  exact ⟨rfl, Or.inl rfl⟩

/-- The target of one part is that of the next one. -/
theorem Names.bind {o : Outcome Kernel Nat} {f : Nat → Kernel → Outcome Kernel Nat}
    (ho : Names s pid target o) (hf : ∀ u, Names s pid u (f u s)) :
    Names s pid target (o.bind f) := by
  intro t k hrun
  obtain ⟨u, k₁, hu, hk⟩ := Outcome.bind_eq_done.mp hrun
  obtain ⟨rfl, hfirst⟩ := ho u k₁ hu
  obtain ⟨hsame, hsecond⟩ := hf u t k hk
  refine ⟨hsame, ?_⟩
  rcases hsecond with rfl | hpid
  · exact hfirst
  · exact Or.inr hpid

/-- A node is looked at. -/
theorem Names.look (ptr : Nat) {o : Outcome Kernel Nat}
    (ho : Names s pid (if (s.procs ptr).pid = pid then ptr else target) o) :
    Names s pid target o := by
  intro t k hrun
  obtain ⟨hsame, ht⟩ := ho t k hrun
  refine ⟨hsame, ?_⟩
  rcases ht with rfl | hpid
  · split
    · exact Or.inr ‹_›
    · exact Or.inl rfl
  · exact Or.inr hpid

/-- What the search in a circle finds has the pid. -/
theorem names_findInCircle :
    Names s pid target (s.findInCircle pid head n ptr target) := by
  induction n generalizing ptr target with
  | zero =>
    intro t k hrun
    cases hrun
  | succ n ih =>
    rw [findInCircle]
    refine Names.look ptr ?_
    generalize (if (s.procs ptr).pid = pid then ptr else target) = u
    split
    · exact ih
    · exact .done

/-- So has what the search through the circles finds. -/
theorem names_findInCircles {is : List Nat} :
    Names s pid target (s.findInCircles pid h is target) := by
  induction is generalizing target with
  | nil => exact .done
  | cons i is ih =>
    rw [findInCircles]
    split
    · exact names_findInCircle.bind fun _ => ih
    · exact ih

/-- So has what the search through the harts finds. -/
theorem names_findInHarts {js : List Nat} : Names s pid target (s.findInHarts pid js target) := by
  induction js generalizing target with
  | nil => exact .done
  | cons j js ih =>
    rw [findInHarts]
    split
    · refine names_findInCircles.bind fun u => ?_
      split
      · exact .done
      · exact ih
    · exact ih

/-- So has what the search in a list finds. -/
theorem names_findInList : Names s pid target (s.findInList pid n ptr target) := by
  induction n generalizing ptr target with
  | zero =>
    intro t k hrun
    cases hrun
  | succ n ih =>
    rw [findInList]
    split
    · exact Names.look ptr ih
    · exact .done

/-- So has what the search through the lists finds. -/
theorem names_findInLists {ws : List WaitList} :
    Names s pid target (s.findInLists pid ws target) := by
  induction ws generalizing target with
  | nil => exact .done
  | cons w ws ih => exact names_findInList.bind fun _ => ih

/-- So has what the whole search finds. -/
theorem names_getProcessByPid : Names s pid 0 (s.getProcessByPid pid) :=
  names_findInHarts.bind fun _ => names_findInLists

end Search

/-! ## The three calls -/

/-- The tests of a grant: the caller has the right to grant on the pid and all that it grants, and
it may grant to anybody or has the target on its list. -/
structure MayGrant (s : Kernel) (h a0 a1 a2 : Nat) : Prop where
  grants : (s.procs (s.curr h)).Holds a1 2
  owns : ∀ i < 4, a2.testBit i = true → (s.procs (s.curr h)).Holds a1 i
  allowed : (s.procs (s.curr h)).Holds a1 3 ∨ (s.procs (s.curr h)).pid = 1 ∨
    ((s.procs (s.curr h)).whitelisted a0).isSome = true

/-- Four bits are given at most. -/
theorem testBit_given : (a2 &&& 15).testBit i = true ↔ a2.testBit i = true ∧ i < 4 :=
  Fields.testBit_masked (k := 4)

/-- The tests as they are in the source, on the four bits. -/
theorem mayGrant_iff : MayGrant s h a0 a1 a2 ↔
    (s.procs (s.curr h)).rightsOn a1 &&& 4 ≠ 0 ∧
    (s.procs (s.curr h)).rightsOn a1 &&& (a2 &&& 15) = a2 &&& 15 ∧
    ((s.procs (s.curr h)).rightsOn a1 &&& 8 ≠ 0 ∨ (s.procs (s.curr h)).pid = 1 ∨
      ((s.procs (s.curr h)).whitelisted a0).isSome = true) := by
  have hgrant : (s.procs (s.curr h)).rightsOn a1 &&& 4 ≠ 0 ↔ (s.procs (s.curr h)).Holds a1 2 :=
    (Fields.and_two_pow_eq_zero (k := 2)).not_left
  have hany : (s.procs (s.curr h)).rightsOn a1 &&& 8 ≠ 0 ↔ (s.procs (s.curr h)).Holds a1 3 :=
    (Fields.and_two_pow_eq_zero (k := 3)).not_left
  rw [hgrant, hany, Fields.and_eq_right_iff]
  have howns :
    (∀ i, (a2 &&& 15).testBit i = true → ((s.procs (s.curr h)).rightsOn a1).testBit i = true) ↔
      ∀ i < 4, a2.testBit i = true → (s.procs (s.curr h)).Holds a1 i := by
    constructor
    · intro hall i hi hbit
      exact hall i (testBit_given.mpr ⟨hbit, hi⟩)
    · intro hall i hbit
      obtain ⟨hbit, hi⟩ := testBit_given.mp hbit
      exact hall i hi hbit
  rw [howns]
  exact ⟨fun hm => ⟨hm.grants, hm.owns, hm.allowed⟩, fun hm => ⟨hm.1, hm.2.1, hm.2.2⟩⟩

/-- A grant goes through, or it is refused and nothing but `a0` changes. -/
theorem grantRights_eq (h1 : a1 < pidMax) (hrun : s.grantRights h a0 a1 a2 = .done () s') :
    ∃ t, s.getProcessByPid a0 = .done t s ∧
      (t ≠ 0 ∧ MayGrant s h a0 a1 a2 ∧
          s' = (s.setEntry t (a1 / 16 % 2 ^ 32) (a1 % 16 * 4) (a2 &&& 15)).reply h 1 ∨
        ¬ (t ≠ 0 ∧ MayGrant s h a0 a1 a2) ∧ s' = s.reply h Ipc.minusOne) := by
  obtain ⟨t, k, hfind, hrest⟩ := Outcome.bind_eq_done.mp hrun
  obtain ⟨rfl, -⟩ := names_getProcessByPid t k hfind
  refine ⟨t, hfind, ?_⟩
  have hrights : (k.procs (k.curr h)).rightsOn a1 =
      (k.procs (k.curr h)).capabilityRoot (a1 / 16 % 2 ^ 32) >>> (a1 % 16 * 4) &&& 15 := by
    rw [place_eq h1, Process.rightsOn]
  rw [mayGrant_iff, hrights]
  dsimp only at hrest
  split at hrest
  · cases hrest
    exact Or.inr ⟨fun hc => hc.1 ‹_›, rfl⟩
  · rename_i ht
    split at hrest
    · cases hrest
      exact Or.inr ⟨fun hc => hc.2.1 ‹_›, rfl⟩
    · rename_i hgrant
      split at hrest
      · cases hrest
        exact Or.inr ⟨fun hc => absurd hc.2.2.1 ‹_›, rfl⟩
      · rename_i howns
        split at hrest
        · rename_i hany
          cases hrest
          refine Or.inl ⟨ht, ⟨hgrant, not_not.mp howns, ?_⟩, rfl⟩
          exact hany.imp_right Or.inl
        · rename_i hany
          split at hrest
          · cases hrest
            exact Or.inl ⟨ht, ⟨hgrant, not_not.mp howns, Or.inr (Or.inr ‹_›)⟩, rfl⟩
          · rename_i hlist
            cases hrest
            refine Or.inr ⟨fun hc => ?_, rfl⟩
            rcases hc.2.2.2 with h8 | hpid | hl
            · exact hany (Or.inl h8)
            · exact hany (Or.inr hpid)
            · exact hlist hl

/-- The target has on the pid what is granted, and nothing else. -/
theorem holds_granted (h1 : a1 < pidMax) :
    (((s.setEntry t (a1 / 16 % 2 ^ 32) (a1 % 16 * 4) (a2 &&& 15)).reply h 1).procs a).Holds pid i ↔
      if a = t ∧ pid = a1 then a2.testBit i = true ∧ i < 4 else (s.procs a).Holds pid i := by
  have hv : a2 &&& 15 < 16 := Nat.and_lt_two_pow a2 (by decide : 15 < 2 ^ 4)
  rw [holds_reply, holds_setEntry h1 hv, testBit_given, and_assoc, and_self]

/-- A revocation goes through for the parent of the target and for the process with pid 1. -/
theorem revokeRights_eq (hrun : s.revokeRights h a0 a1 = .done () s') :
    ∃ t, s.getProcessByPid a0 = .done t s ∧
      (t ≠ 0 ∧ ((s.procs t).parentPid = (s.procs (s.curr h)).pid ∨ (s.procs (s.curr h)).pid = 1) ∧
          s' = (s.clearEntry t (a1 / 16 % 2 ^ 32) (a1 % 16 * 4)).reply h 1 ∨
        s' = s.reply h Ipc.minusOne) := by
  obtain ⟨t, k, hfind, hrest⟩ := Outcome.bind_eq_done.mp hrun
  obtain ⟨rfl, -⟩ := names_getProcessByPid t k hfind
  refine ⟨t, hfind, ?_⟩
  dsimp only at hrest
  split at hrest
  · cases hrest
    exact Or.inr rfl
  · rename_i ht
    split at hrest
    · cases hrest
      exact Or.inr rfl
    · rename_i hwho
      cases hrest
      refine Or.inl ⟨ht, ?_, rfl⟩
      rw [not_and_or, not_not, not_not] at hwho
      exact hwho

/-- The list is no part of a table. -/
theorem holds_editWhitelist :
    ((s.editWhitelist h a0 a1).procs a).Holds pid i ↔ (s.procs a).Holds pid i := by
  have hadd : ((s.addToWhitelist h a0).procs a).Holds pid i ↔ (s.procs a).Holds pid i := by
    unfold addToWhitelist
    dsimp only
    split
    · exact holds_reply
    · split
      · exact holds_reply
      · exact holds_reply.trans (holds_modify fun _ => rfl)
  have hremove : ((s.removeFromWhitelist h a0).procs a).Holds pid i ↔ (s.procs a).Holds pid i := by
    unfold removeFromWhitelist
    dsimp only
    split
    · exact holds_reply
    · exact holds_reply.trans (holds_modify fun _ => rfl)
  unfold editWhitelist
  split
  · exact hadd
  · exact hremove
  · exact holds_reply

/-! ## Rights that disappear -/

/-- A process loses a right. -/
def Loses (s s' : Kernel) (t pid i : Nat) : Prop :=
  (s.procs t).Holds pid i ∧ ¬ (s'.procs t).Holds pid i

/-- Rights disappear only by a revocation, made by the parent of the process that loses them or by
the process with pid 1; a grant leaves all of them. -/
def OnlyRevoked (s s' : Kernel) (h : Nat) (c : RightsCall) : Prop :=
  (∀ t pid i, Loses s s' t pid i → (∃ a0 a1, c = .revoke a0 a1) ∧
    ((s.procs t).parentPid = (s.procs (s.curr h)).pid ∨ (s.procs (s.curr h)).pid = 1)) ∧
  ∀ a0 a1 a2, c = .grant a0 a1 a2 → ∀ t pid i, ¬ Loses s s' t pid i

/-- A grant that goes through contains what its target had on the pid. -/
def Contains (s : Kernel) (h : Nat) : RightsCall → Prop
  | .grant a0 a1 a2 => ∀ t, s.getProcessByPid a0 = .done t s → t ≠ 0 → MayGrant s h a0 a1 a2 →
      ∀ i < 4, (s.procs t).Holds a1 i → a2.testBit i = true
  | _ => True

/-- A call in range takes rights away only as a revocation by the parent or by the process with pid
1, exactly if it is no grant of less than the target had. -/
theorem rightsCall_onlyRevoked (hc : c.InRange) (hrun : rightsCall s h c = .done () s') :
    OnlyRevoked s s' h c ↔ Contains s h c := by
  cases c with
  | grant a0 a1 a2 =>
    obtain ⟨t, hfind, ⟨ht, hmay, rfl⟩ | ⟨hno, rfl⟩⟩ := grantRights_eq hc hrun
    · constructor
      · intro honly t' hfind' _ _ i _ hold
        cases hfind.symm.trans hfind'
        by_contra hbit
        refine honly.2 a0 a1 a2 rfl t a1 i ⟨hold, ?_⟩
        rw [holds_granted hc, if_pos ⟨rfl, rfl⟩]
        exact fun hc => hbit hc.1
      · intro hcontains
        have hkeeps : ∀ a pid i, ¬ Loses s ((s.setEntry t (a1 / 16 % 2 ^ 32) (a1 % 16 * 4)
            (a2 &&& 15)).reply h 1) a pid i := by
          rintro a pid i ⟨hold, hlost⟩
          rw [holds_granted hc] at hlost
          split at hlost
          · rename_i he
            obtain ⟨rfl, rfl⟩ := he
            have hi := (holds_iff.mp hold).2
            exact hlost ⟨hcontains a hfind ht hmay i hi hold, hi⟩
          · exact hlost hold
        exact ⟨fun a pid i hl => absurd hl (hkeeps a pid i), fun _ _ _ _ => hkeeps⟩
    · have hkeeps : ∀ a pid i, ¬ Loses s (s.reply h Ipc.minusOne) a pid i :=
        fun a pid i hl => hl.2 (holds_reply.mpr hl.1)
      refine ⟨fun _ t' hfind' ht' hmay => ?_, fun _ =>
        ⟨fun a pid i hl => absurd hl (hkeeps a pid i), fun _ _ _ _ => hkeeps⟩⟩
      cases hfind.symm.trans hfind'
      exact absurd ⟨ht', hmay⟩ hno
  | revoke a0 a1 =>
    refine ⟨fun _ => trivial,
      fun _ => ⟨fun t' pid i hl => ⟨⟨a0, a1, rfl⟩, ?_⟩, fun _ _ _ he => by cases he⟩⟩
    obtain ⟨t, hfind, ⟨-, hwho, rfl⟩ | rfl⟩ := revokeRights_eq hrun
    · by_cases ht : t' = t
      · exact ht ▸ hwho
      · refine absurd ?_ hl.2
        rw [holds_reply, holds_clearEntry hc]
        exact ⟨fun he => ht he.1, hl.1⟩
    · exact absurd (holds_reply.mpr hl.1) hl.2
  | whitelist a0 a1 =>
    cases hrun
    have hkeeps : ∀ a pid i, ¬ Loses s (s.editWhitelist h a0 a1) a pid i :=
      fun a pid i hl => hl.2 (holds_editWhitelist.mpr hl.1)
    exact ⟨fun _ => trivial,
      fun _ => ⟨fun a pid i hl => absurd hl (hkeeps a pid i), fun _ _ _ _ => hkeeps⟩⟩

/-- The entry of the call does not matter. -/
theorem onlyRevoked_enter : OnlyRevoked (s.enter h) s' h c ↔ OnlyRevoked s s' h c := by
  have hloses : ∀ t pid i, Loses (s.enter h) s' t pid i ↔ Loses s s' t pid i :=
    fun _ _ _ => and_congr_left fun _ => holds_enter
  have hpid : ∀ a, ((s.enter h).procs a).pid = (s.procs a).pid ∧
      ((s.enter h).procs a).parentPid = (s.procs a).parentPid := by
    intro a
    unfold enter
    rw [procs_modify]
    split
    · rename_i ha
      rw [ha]
      exact ⟨rfl, rfl⟩
    · exact ⟨rfl, rfl⟩
  have hcurr : (s.enter h).curr h = s.curr h := rfl
  unfold OnlyRevoked
  simp only [hloses, hcurr, (hpid _).1, (hpid _).2]

/-- Whatever the state: a call of 10, 11 or 14 in range takes rights away only as a revocation by
the parent or by the process with pid 1, exactly if it is no grant that leaves out what its target
had. -/
theorem onlyRevoked_iff (hc : c.InRange) (hact : m.act (.rights h c) = some m') :
    OnlyRevoked m.kernel m'.kernel h c ↔ Contains (m.kernel.enter h) h c := by
  obtain ⟨-, hrun⟩ := Machine.act_eq_some.mp hact
  obtain ⟨k, hk, rfl⟩ := Outcome.within_eq_done.mp hrun
  exact onlyRevoked_enter.symm.trans (rightsCall_onlyRevoked hc hk)

/-! ## Runs with rights -/

instance {s s' : Kernel} {t pid i : Nat} : Decidable (Loses s s' t pid i) :=
  inferInstanceAs (Decidable (_ ∧ ¬ _))

/-- Parts of a run may follow one with rights. -/
theorem Reaches.acts {P : Machine → Event → Prop} {C : Machine → Deed → Prop} {Q : Machine → Prop}
    {s m : Machine} {g : List (Machine × Deed)} {ps : List Part} (hps : Reaches P Q m ps)
    (hq : Machine.Quiet P) (hPC : ∀ m e, P m e → C m (.event e)) (hr : Run Machine.act s g m)
    (hC : Run.Steps C g) : ∃ g' u, Run Machine.act s g' u ∧ Run.Steps C g' ∧ Q u := by
  obtain ⟨g₁, u, hstep, hP, hQ⟩ := hps.exists_run hq .nil Run.Steps.nil
  suffices hall : ∃ g', Run Machine.act s g' u ∧ Run.Steps C g' by
    obtain ⟨g', hg', hC'⟩ := hall
    exact ⟨g', u, hg', hC', hQ⟩
  clear hps hQ
  induction hstep with
  | nil => exact ⟨g, hr, hC⟩
  | snoc _ hlast ih =>
    obtain ⟨hPe, hPs⟩ := Run.steps_cons.mp hP
    obtain ⟨g', hg', hC'⟩ := ih hPs
    refine ⟨_, hg'.snoc ((Machine.act_event _ _).trans hlast), ?_⟩
    exact Run.steps_cons.mpr ⟨hPC _ _ hPe, hC'⟩

/-- The shell and the worker are there, and the shell runs. -/
def shellRuns : List Part := [.event (.spawn 0 4 ⟨0, 0⟩ 20), .wait 0 127] ++ interrupt 0

/-- What holds where the shell runs holds in a run from boot. -/
theorem shellRuns_run {Q : Machine → Prop}
    (h : ∃ m₀ ∈ (booted emptyMemory 0 1).act (.launch 3 ⟨0, 0⟩),
      Reaches (fun _ _ => True) Q m₀ shellRuns) :
    ∃ g m, Run Machine.act (booted emptyMemory 0 1) g m ∧ Q m := by
  obtain ⟨m₀, hm₀, hreach⟩ := h
  obtain ⟨g, m, hr, -, hQ⟩ := hreach.acts (C := fun _ _ => True) .true (fun _ _ _ => trivial)
    (.snoc .nil hm₀) fun _ _ => trivial
  exact ⟨g, m, hr, hQ⟩

/-- The shell grants the worker the rights to read and to write itself. -/
theorem onlyRevoked_shell : ∃ g, ∃ m m' : Machine, Run Machine.act (booted emptyMemory 0 1) g m ∧
    m.act (.rights 0 (.grant 2 2 3)) = some m' ∧ (m'.kernel.procs 4).Holds 2 1 ∧
    OnlyRevoked m.kernel m'.kernel 0 (.grant 2 2 3) := by
  obtain ⟨g, m, hr, ⟨m', hact, hholds⟩, hfound⟩ := shellRuns_run
    (Q := fun m => (∃ m' ∈ m.act (.rights 0 (.grant 2 2 3)), (m'.kernel.procs 4).Holds 2 1) ∧
      (((m.kernel.enter 0).getProcessByPid 2).bind fun t s =>
        if ∀ i < (4 : Nat), (s.procs t).Holds 2 i → Nat.testBit 3 i = true then .done () s
        else .spin s).returned.isSome = true) (by decide +kernel)
  have hrange : (RightsCall.grant 2 2 3).InRange := show 2 < pidMax by decide
  refine ⟨g, m, m', hr, hact, hholds, (onlyRevoked_iff hrange hact).mpr ?_⟩
  intro t hfind _ _
  rw [hfind, Outcome.bind_done] at hfound
  by_contra hno
  rw [if_neg hno] at hfound
  cases hfound

/-- The shell grants the worker the right to write itself, and the worker may not read itself any
more. -/
theorem grant_takes_away : ∃ g, ∃ m m' : Machine, Run Machine.act (booted emptyMemory 0 1) g m ∧
    m.act (.rights 0 (.grant 2 2 2)) = some m' ∧ Loses m.kernel m'.kernel 4 2 0 ∧
    ¬ OnlyRevoked m.kernel m'.kernel 0 (.grant 2 2 2) := by
  obtain ⟨g, m, hr, m', hact, hloses⟩ := shellRuns_run
    (Q := fun m => ∃ m' ∈ m.act (.rights 0 (.grant 2 2 2)), Loses m.kernel m'.kernel 4 2 0)
    (by decide +kernel)
  exact ⟨g, m, m', hr, hact, hloses, fun honly => honly.2 2 2 2 rfl 4 2 0 hloses⟩

end RexOS.Smp
