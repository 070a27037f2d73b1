import RexOS.Smp.Revocation

/-!
# Words of capability tables

A table has 2048 words for the pids below 32768. Syscalls 10 and 11 divide a register of 64 bits by
sixteen and take the low 32 bits of the quotient for the index of the word, whatever it is. Here
they record the words they use, to say when these lie in the two tables and one entry changes.
-/

namespace RexOS.Scheduler.Kernel

open Bits

variable (s : Kernel) (h : Nat)

/-- Case 10 with the words of tables that it reads and writes, each by process and index. -/
def tracedGrant (a0 a1 a2 : Nat) : Outcome (Kernel × List (Nat × Nat)) Unit :=
  match s.getProcessByPid a0 with
  | .panic c x s => .panic c x (s, [])
  | .spin s => .spin (s, [])
  | .done target s =>
    if target = 0 then .done () (s.reply h Ipc.minusOne, [])
    else
      let idx := a1 / 16 % 2 ^ 32
      let offset := a1 % 16 * 4
      let curr := s.procs (s.curr h)
      let used := [(s.curr h, idx)]
      let rights := curr.capabilityRoot idx >>> offset &&& 15
      if rights &&& 4 = 0 then .done () (s.reply h Ipc.minusOne, used)
      else if rights &&& (a2 &&& 15) ≠ a2 &&& 15 then .done () (s.reply h Ipc.minusOne, used)
      else if rights &&& 8 ≠ 0 ∨ curr.pid = 1 then
        .done () ((s.setEntry target idx offset (a2 &&& 15)).reply h 1, (target, idx) :: used)
      else if (curr.whitelisted a0).isSome then
        .done () ((s.setEntry target idx offset (a2 &&& 15)).reply h 1, (target, idx) :: used)
      else .done () (s.reply h Ipc.minusOne, used)

/-- Case 11 with these words. -/
def tracedRevoke (a0 a1 : Nat) : Outcome (Kernel × List (Nat × Nat)) Unit :=
  match s.getProcessByPid a0 with
  | .panic c x s => .panic c x (s, [])
  | .spin s => .spin (s, [])
  | .done target s =>
    if target = 0 then .done () (s.reply h Ipc.minusOne, [])
    else
      let curr := s.procs (s.curr h)
      if (s.procs target).parentPid ≠ curr.pid ∧ curr.pid ≠ 1 then
        .done () (s.reply h Ipc.minusOne, [])
      else
        .done () ((s.clearEntry target (a1 / 16 % 2 ^ 32) (a1 % 16 * 4)).reply h 1,
          [(target, a1 / 16 % 2 ^ 32)])

end RexOS.Scheduler.Kernel

namespace RexOS.Smp

open Bits Scheduler Kernel

variable {s s' : Kernel} {h t a0 a1 a2 v : Nat}

/-- Syscall 10 or 11. -/
inductive TableCall where
  | grant (a0 a1 a2 : Nat)
  | revoke (a0 a1 : Nat)

namespace TableCall

def rights : TableCall → RightsCall
  | grant a0 a1 a2 => .grant a0 a1 a2
  | revoke a0 a1 => .revoke a0 a1

/-- The pid of the process whose table changes. -/
def target : TableCall → Nat
  | grant a0 _ _ => a0
  | revoke a0 _ => a0

/-- The pid whose entry changes. -/
def entry : TableCall → Nat
  | grant _ a1 _ => a1
  | revoke _ a1 => a1

/-- What the entry becomes. -/
def value : TableCall → Nat
  | grant _ _ a2 => a2 &&& 15
  | revoke _ _ => 0

def traced (s : Kernel) (h : Nat) : TableCall → Outcome (Kernel × List (Nat × Nat)) Unit
  | grant a0 a1 a2 => s.tracedGrant h a0 a1 a2
  | revoke a0 a1 => s.tracedRevoke h a0 a1

/-- The record changes nothing. -/
theorem traced_within (s : Kernel) (h : Nat) (c : TableCall) :
    (c.traced s h).within Prod.fst = rightsCall s h c.rights := by
  cases c with
  | grant a0 a1 a2 =>
    show (s.tracedGrant h a0 a1 a2).within Prod.fst = s.grantRights h a0 a1 a2
    unfold tracedGrant grantRights
    cases s.getProcessByPid a0 with
    | done target k =>
      rw [Outcome.bind_done]
      dsimp only
      split_ifs <;> rfl
    | panic => rfl
    | spin => rfl
  | revoke a0 a1 =>
    show (s.tracedRevoke h a0 a1).within Prod.fst = s.revokeRights h a0 a1
    unfold tracedRevoke revokeRights
    cases s.getProcessByPid a0 with
    | done target k =>
      rw [Outcome.bind_done]
      dsimp only
      split_ifs <;> rfl
    | panic => rfl
    | spin => rfl

end TableCall

/-- In the table of process `t` the entry of one pid becomes `v`, bit by bit, and the caller gets
1. -/
def OneEntry (s : Kernel) (h t pid v : Nat) (s' : Kernel) : Prop :=
  ∃ table : Nat → Nat,
    (∀ idx k i, i < 4 → (table idx).testBit (k * 4 + i) =
      if idx = pid / 16 ∧ k = pid % 16 then v.testBit i
      else ((s.procs t).capabilityRoot idx).testBit (k * 4 + i)) ∧
    s' = (s.modify t fun p => { p with capabilityRoot := table }).reply h 1

/-- The words used lie in the tables of the caller and of the target. A call that returns has
changed one entry of the target, or nothing but `a0`, which is -1. -/
structure TableCall.Proper (s : Kernel) (h : Nat) (c : TableCall) : Prop where
  inside : ∀ w ∈ (c.traced s h).state.2,
    (w.1 = s.curr h ∨ (s.procs w.1).pid = c.target) ∧ w.2 < 2048
  effect : ∀ r, c.traced s h = .done () r → r.1 = s.reply h Ipc.minusOne ∨
    c.entry < pidMax ∧ ∃ t, (s.procs t).pid = c.target ∧ OneEntry s h t c.entry c.value r.1

/-- The tests of case 10 on the entry that the index names. -/
def Grants (s : Kernel) (h a0 a1 a2 : Nat) : Prop := MayGrant s h a0 (a1 % 2 ^ 36) a2

/-- Where the target is there, the pid has an entry, or the grant is refused on an entry that is
one; a revocation that is refused uses no entry. -/
def TableCall.InTables (s : Kernel) (h : Nat) : TableCall → Prop
  | grant a0 a1 a2 => ∀ t, s.getProcessByPid a0 = .done t s → t ≠ 0 →
      a1 < pidMax ∨ a1 % 2 ^ 36 < pidMax ∧ ¬ Grants s h a0 a1 a2
  | revoke a0 a1 => ∀ t, s.getProcessByPid a0 = .done t s → t ≠ 0 →
      ((s.procs t).parentPid = (s.procs (s.curr h)).pid ∨ (s.procs (s.curr h)).pid = 1) →
        a1 < pidMax

/-! ## What the calls use and do -/

/-- The word that the index names is that of the low 36 bits of the pid. -/
theorem grants_iff : Grants s h a0 a1 a2 ↔
    (s.procs (s.curr h)).capabilityRoot (a1 / 16 % 2 ^ 32) >>> (a1 % 16 * 4) &&& 15 &&& 4 ≠ 0 ∧
    (s.procs (s.curr h)).capabilityRoot (a1 / 16 % 2 ^ 32) >>> (a1 % 16 * 4) &&&
      15 &&& (a2 &&& 15) =
      a2 &&& 15 ∧
    ((s.procs (s.curr h)).capabilityRoot (a1 / 16 % 2 ^ 32) >>> (a1 % 16 * 4) &&& 15 &&& 8 ≠ 0 ∨
      (s.procs (s.curr h)).pid = 1 ∨ ((s.procs (s.curr h)).whitelisted a0).isSome = true) := by
  have hword : a1 % 2 ^ 36 / 16 = a1 / 16 % 2 ^ 32 := by omega
  have hplace : a1 % 2 ^ 36 % 16 = a1 % 16 := by omega
  have hrights : (s.procs (s.curr h)).rightsOn (a1 % 2 ^ 36) =
      (s.procs (s.curr h)).capabilityRoot (a1 / 16 % 2 ^ 32) >>> (a1 % 16 * 4) &&& 15 := by
    rw [Process.rightsOn, hword, hplace]
  rw [Grants, mayGrant_iff, hrights]

/-- A grant to a process that is there goes through exactly if the tests do. -/
theorem tracedGrant_eq (h a1 a2 : Nat) (hfind : s.getProcessByPid a0 = .done t s) (ht : t ≠ 0) :
    (Grants s h a0 a1 a2 ∧ s.tracedGrant h a0 a1 a2 =
      .done () ((s.setEntry t (a1 / 16 % 2 ^ 32) (a1 % 16 * 4) (a2 &&& 15)).reply h 1,
        [(t, a1 / 16 % 2 ^ 32), (s.curr h, a1 / 16 % 2 ^ 32)])) ∨
    (¬ Grants s h a0 a1 a2 ∧ s.tracedGrant h a0 a1 a2 =
      .done () (s.reply h Ipc.minusOne, [(s.curr h, a1 / 16 % 2 ^ 32)])) := by
  rw [grants_iff, tracedGrant, hfind]
  dsimp only
  rw [if_neg ht]
  split
  · rename_i hgrant
    exact Or.inr ⟨fun hg => hg.1 hgrant, rfl⟩
  · rename_i hgrant
    split
    · rename_i howns
      exact Or.inr ⟨fun hg => howns hg.2.1, rfl⟩
    · rename_i howns
      split
      · rename_i hany
        exact Or.inl ⟨⟨hgrant, not_not.mp howns, hany.imp_right Or.inl⟩, rfl⟩
      · rename_i hany
        split
        · rename_i hlist
          exact Or.inl ⟨⟨hgrant, not_not.mp howns, Or.inr (Or.inr hlist)⟩, rfl⟩
        · rename_i hlist
          refine Or.inr ⟨fun hg => ?_, rfl⟩
          rcases hg.2.2 with h8 | hpid | hl
          · exact hany (Or.inl h8)
          · exact hany (Or.inr hpid)
          · exact hlist hl

/-- So does a revocation. -/
theorem tracedRevoke_eq (h a1 : Nat) (hfind : s.getProcessByPid a0 = .done t s) (ht : t ≠ 0) :
    (((s.procs t).parentPid = (s.procs (s.curr h)).pid ∨ (s.procs (s.curr h)).pid = 1) ∧
      s.tracedRevoke h a0 a1 =
        .done () ((s.setEntry t (a1 / 16 % 2 ^ 32) (a1 % 16 * 4) 0).reply h 1,
          [(t, a1 / 16 % 2 ^ 32)])) ∨
    (¬ ((s.procs t).parentPid = (s.procs (s.curr h)).pid ∨ (s.procs (s.curr h)).pid = 1) ∧
      s.tracedRevoke h a0 a1 = .done () (s.reply h Ipc.minusOne, [])) := by
  rw [tracedRevoke, hfind]
  dsimp only
  rw [if_neg ht, clearEntry_eq]
  split
  · rename_i hwho
    exact Or.inr ⟨not_or.mpr hwho, rfl⟩
  · rename_i hwho
    exact Or.inl ⟨by rwa [not_and_or, not_not, not_not] at hwho, rfl⟩

/-- With the pid in range one entry is set. -/
theorem oneEntry_setEntry (h1 : a1 < pidMax) (hv : v < 16) :
    OneEntry s h t a1 v ((s.setEntry t (a1 / 16 % 2 ^ 32) (a1 % 16 * 4) v).reply h 1) := by
  refine ⟨_, fun idx k i hi => ?_, rfl⟩
  rw [place_eq h1, Function.update_apply]
  by_cases hidx : idx = a1 / 16
  · rw [if_pos hidx, show (15 : Nat) = 2 ^ 4 - 1 from rfl, Fields.testBit_put hv hi, hidx]
    simp
  · rw [if_neg hidx, if_neg fun hc => hidx hc.1]

/-- What a call that goes through leaves in `a0` is no refusal. -/
theorem setEntry_reply_ne (s : Kernel) (h t idx offset v : Nat) :
    ¬ (s.setEntry t idx offset v).reply h 1 = s.reply h Ipc.minusOne := by
  intro he
  have hone := a0_reply (s.setEntry t idx offset v) h 1
  have hcurr : (s.setEntry t idx offset v).curr h = s.curr h := rfl
  rw [he, hcurr, a0_reply] at hone
  exact absurd hone (by decide)

/-- What is written is a nibble. -/
theorem TableCall.value_lt (c : TableCall) : c.value < 16 := by
  cases c with
  | grant a0 a1 a2 => exact Nat.and_lt_two_pow a2 (by decide : 15 < 2 ^ 4)
  | revoke a0 a1 => exact Nat.succ_pos 15

section Calls

variable {c : TableCall} {u : List (Nat × Nat)}

/-- A refusal is proper if the words it has used lie in the tables. -/
theorem TableCall.proper_refused (hc : c.traced s h = .done () (s.reply h Ipc.minusOne, u)) :
    c.Proper s h ↔ ∀ w ∈ u, (w.1 = s.curr h ∨ (s.procs w.1).pid = c.target) ∧ w.2 < 2048 := by
  constructor
  · intro hp
    have hin := hp.inside
    rw [hc] at hin
    exact hin
  · intro hu
    constructor
    · rw [hc]
      exact hu
    · intro r hr
      obtain ⟨-, rfl⟩ := Outcome.done.inj (hc.symm.trans hr)
      exact Or.inl rfl

/-- A call that goes through is proper if the pid is in range. -/
theorem TableCall.proper_through
    (hc : c.traced s h = .done () ((s.setEntry t (c.entry / 16 % 2 ^ 32) (c.entry % 16 * 4)
      c.value).reply h 1, u))
    (hpid : (s.procs t).pid = c.target)
    (hu : ∀ w ∈ u, (w.1 = s.curr h ∨ w.1 = t) ∧ w.2 = c.entry / 16 % 2 ^ 32) :
    c.Proper s h ↔ c.entry < pidMax := by
  constructor
  · intro hp
    rcases hp.effect _ hc with he | ⟨hlt, -⟩
    · exact absurd he (setEntry_reply_ne _ _ _ _ _ _)
    · exact hlt
  · intro hlt
    constructor
    · intro w hw
      rw [hc] at hw
      obtain ⟨hwho, hidx⟩ := hu w hw
      constructor
      · exact hwho.imp_right fun ht => (congrArg (fun a => (s.procs a).pid) ht).trans hpid
      · rw [hidx, place_eq hlt]
        unfold pidMax at hlt
        omega
    · intro r hr
      obtain ⟨-, rfl⟩ := Outcome.done.inj (hc.symm.trans hr)
      exact Or.inr ⟨hlt, t, hpid, oneEntry_setEntry hlt c.value_lt⟩

/-- A call whose search finds nothing, or does not return, uses no words. -/
theorem TableCall.proper_unfound (hc : ∀ t k, s.getProcessByPid c.target = .done t k → t = 0) :
    c.Proper s h := by
  have hnone : (c.traced s h).state.2 = [] ∧
      ∀ r, c.traced s h = .done () r → r.1 = s.reply h Ipc.minusOne := by
    cases c with
    | grant a0 a1 a2 =>
      show (s.tracedGrant h a0 a1 a2).state.2 = [] ∧ ∀ r, s.tracedGrant h a0 a1 a2 = .done () r → _
      unfold tracedGrant
      cases hfind : s.getProcessByPid a0 with
      | done t k =>
        obtain rfl : k = s := (names_getProcessByPid t k hfind).1
        dsimp only
        rw [if_pos (hc t k hfind)]
        exact ⟨rfl, fun r hr => (Outcome.done.inj hr).2 ▸ rfl⟩
      | panic => exact ⟨rfl, fun r hr => by cases hr⟩
      | spin => exact ⟨rfl, fun r hr => by cases hr⟩
    | revoke a0 a1 =>
      show (s.tracedRevoke h a0 a1).state.2 = [] ∧ ∀ r, s.tracedRevoke h a0 a1 = .done () r → _
      unfold tracedRevoke
      cases hfind : s.getProcessByPid a0 with
      | done t k =>
        obtain rfl : k = s := (names_getProcessByPid t k hfind).1
        dsimp only
        rw [if_pos (hc t k hfind)]
        exact ⟨rfl, fun r hr => (Outcome.done.inj hr).2 ▸ rfl⟩
      | panic => exact ⟨rfl, fun r hr => by cases hr⟩
      | spin => exact ⟨rfl, fun r hr => by cases hr⟩
  constructor
  · intro w hw
    rw [hnone.1] at hw
    exact absurd hw List.not_mem_nil
  · intro r hr
    exact Or.inl (hnone.2 r hr)

end Calls

/-- Whatever the state and the registers: the words used lie in the two tables, and one entry or
nothing changes, exactly if the pid is in range wherever a call gets to an entry. -/
theorem TableCall.proper_iff (s : Kernel) (h : Nat) (c : TableCall) :
    c.Proper s h ↔ c.InTables s h := by
  by_cases hfound : ∃ t k, s.getProcessByPid c.target = .done t k ∧ t ≠ 0
  · obtain ⟨t, k, hfind, ht⟩ := hfound
    obtain ⟨rfl, hpid⟩ := names_getProcessByPid t k hfind
    have hpid := hpid.resolve_left ht
    cases c with
    | grant a0 a1 a2 =>
      change k.getProcessByPid a0 = _ at hfind
      have hin : (TableCall.grant a0 a1 a2).InTables k h ↔
          a1 < pidMax ∨ a1 % 2 ^ 36 < pidMax ∧ ¬ Grants k h a0 a1 a2 := by
        constructor
        · intro hall
          exact hall t hfind ht
        · intro hrange u _ _
          exact hrange
      rw [hin]
      rcases tracedGrant_eq h a1 a2 hfind ht with ⟨hg, hrun⟩ | ⟨hg, hrun⟩
      · have hthrough : (TableCall.grant a0 a1 a2).Proper k h ↔ a1 < pidMax :=
          TableCall.proper_through hrun hpid (by simp [TableCall.entry])
        rw [hthrough]
        simp only [hg, not_true_eq_false, and_false, or_false]
      · have hrefused : (TableCall.grant a0 a1 a2).Proper k h ↔ _ := TableCall.proper_refused hrun
        rw [hrefused]
        simp only [List.mem_singleton, forall_eq, true_or, true_and, hg,
          not_false_eq_true, and_true]
        unfold pidMax
        omega
    | revoke a0 a1 =>
      change k.getProcessByPid a0 = _ at hfind
      have hin : (TableCall.revoke a0 a1).InTables k h ↔
          (((k.procs t).parentPid = (k.procs (k.curr h)).pid ∨ (k.procs (k.curr h)).pid = 1) →
            a1 < pidMax) := by
        constructor
        · intro hall
          exact hall t hfind ht
        · intro hrange u hu _
          cases hfind.symm.trans hu
          exact hrange
      rw [hin]
      rcases tracedRevoke_eq h a1 hfind ht with ⟨hwho, hrun⟩ | ⟨hwho, hrun⟩
      · have hthrough : (TableCall.revoke a0 a1).Proper k h ↔ a1 < pidMax :=
          TableCall.proper_through hrun hpid (by simp [TableCall.entry])
        rw [hthrough]
        simp only [hwho, forall_const]
      · have hrefused : (TableCall.revoke a0 a1).Proper k h ↔ _ := TableCall.proper_refused hrun
        rw [hrefused]
        simp [hwho]
  · have hnone : ∀ t k, s.getProcessByPid c.target = .done t k → t = 0 := by
      intro t k hfind
      by_contra ht
      exact hfound ⟨t, k, hfind, ht⟩
    refine iff_of_true (TableCall.proper_unfound hnone) ?_
    cases c with
    | grant a0 a1 a2 => exact fun t hfind ht => absurd (hnone t s hfind) ht
    | revoke a0 a1 => exact fun t hfind ht => absurd (hnone t s hfind) ht

/-- The shell takes a right of its own away on a pid that has no entry, and the word behind its
table is used. -/
theorem revoke_behind_table : ∃ g, ∃ m m' : Machine, Run Machine.act (booted emptyMemory 0 1) g m ∧
    m.act (.rights 0 (.revoke 1 32768)) = some m' ∧
    ¬ (TableCall.revoke 1 32768).Proper (m.kernel.enter 0) 0 := by
  obtain ⟨g, m, hr, ⟨m', hact, -⟩, hused⟩ := shellRuns_run
    (Q := fun m => (∃ m' ∈ m.act (.rights 0 (.revoke 1 32768)), True) ∧
      (((TableCall.revoke 1 32768).traced (m.kernel.enter 0) 0).state.2 == [(3, 2048)]) = true)
    (by decide +kernel)
  refine ⟨g, m, m', hr, hact, fun hp => ?_⟩
  have hin := hp.inside (3, 2048) (by rw [eq_of_beq hused]; exact List.mem_singleton_self _)
  exact absurd hin.2 (by decide)

end RexOS.Smp
