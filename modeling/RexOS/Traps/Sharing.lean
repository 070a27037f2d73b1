import RexOS.Paging.Forest

/-!
# Shared pages

Syscalls 15 and 16 of `strap_router`: a process maps one of its pages into the table of a
process it holds the grant right on, or takes a page out of such a table. The permission
word is ORed into the entry as it comes. Where no larger leaf is met, a call gives no more than
the caller has exactly when the bits of that word that are rights or part of the page number are
set in the caller's own entry. Below a leaf larger than a page, both walks go on in data.
-/

namespace RexOS.Traps

open Bits RexOS.Kalloc RexOS.Paging

/-- What the two calls read of a process. -/
structure Process where
  pid : Nat
  satp : Nat
  kstack : Nat
  capabilityRoot : Nat → Nat

namespace Process

/-- The table a process runs on. -/
def root (p : Process) : Nat := satpTable p.satp

/-- The four bits a process holds on another. -/
def rightsOn (p : Process) (pid : Nat) : Nat :=
  p.capabilityRoot (pid / 16) >>> (pid % 16 * 4) &&& 15

end Process

/-- Memory and the processes: the idle process, those on a ring or on a list of waiting ones,
and those that have exited and are not yet reaped. -/
structure Machine (β : Type) where
  space : Space β
  idle : Process
  procs : List Process
  zombies : List Process

/-- What a syscall leaves in `a0`, or that its caller is no more. -/
inductive Reply where
  | value (a0 : Nat)
  | exited
  deriving DecidableEq

/-- `(unsigned long)-1`. -/
def minusOne : Nat := 0xFFFFFFFFFFFFFFFF

namespace Machine

variable {β : Type}

/-- Pids are unique, so the order of the search does not matter. -/
def getProcessByPid (m : Machine β) (pid : Nat) : Option Process :=
  (m.idle :: m.procs).find? fun p => p.pid == pid

/-- The caller becomes a zombie. -/
def exitProcess (m : Machine β) (curr : Process) : Machine β :=
  { m with procs := m.procs.filter (fun p => p.pid != curr.pid), zombies := curr :: m.zombies }

/-- Case 15. -/
def mapSharedPage (A : PageAlloc β) (curr : Process) (a0 a1 a2 a3 : Nat) (m : Machine β) :
    Outcome (Machine β) Reply :=
  let physAddr := uvmTranslate m.space.mem curr.satp a1
  if physAddr = 0 then .done .exited (m.exitProcess curr)
  else
    match m.getProcessByPid a0 with
    | none => .done (.value minusOne) m
    | some target =>
      if curr.rightsOn target.pid &&& 4 = 0 ∧ curr.pid ≠ target.pid then
        .done (.value minusOne) m
      else
        -- the last parameter of `uvm_map` has 32 bits
        ((uvmMap A (satpTable target.satp) a2 physAddr 4096 (a3 % 2 ^ 32) m.space).within
          fun s => { m with space := s }).bind fun _ m => .done (.value 1) m

/-- Case 16. -/
def unmapSharedPage (curr : Process) (a0 a1 : Nat) (m : Machine β) : Reply × Machine β :=
  match m.getProcessByPid a0 with
  | none => (.value minusOne, m)
  | some target =>
    if curr.rightsOn target.pid &&& 4 = 0 ∧ curr.pid ≠ target.pid then (.value minusOne, m)
    else
      let (removed, space) := uvmUnmap target.satp a1 m.space
      if removed ≠ 0 then (.value 1, { m with space := space })
      else (.value minusOne, { m with space := space })

/-- The tables of all processes. -/
def roots (m : Machine β) : List Nat := (m.procs ++ m.zombies).map Process.root

/-- The tables are apart and hold no leaf but pages, and nobody may grant for the idle
process, whose `satp` names no table. -/
structure Sane (Owns : β → List Grant → Prop) (m : Machine β) (L : List Grant) : Prop where
  forest : Forest Owns m.roots m.space L
  idle : m.idle.pid = 0
  users : ∀ p ∈ m.procs, p.pid ≠ 0
  ungranted : ∀ p ∈ m.procs, p.rightsOn 0 &&& 4 = 0

variable {A : PageAlloc β} {Owns : β → List Grant → Prop} {m m' : Machine β} {L : List Grant}
  {curr target p : Process} {a0 a1 a2 a3 : Nat}

/-- The root of a process is among the roots. -/
theorem root_mem (hp : p ∈ m.procs ++ m.zombies) : p.root ∈ m.roots := List.mem_map_of_mem hp

/-- A target that passes the check is a user process. -/
theorem Sane.target_mem (h : Sane Owns m L) (hcurr : curr ∈ m.procs)
    (ht : m.getProcessByPid a0 = some target)
    (hc : ¬ (curr.rightsOn target.pid &&& 4 = 0 ∧ curr.pid ≠ target.pid)) : target ∈ m.procs := by
  rcases List.mem_cons.mp (List.mem_of_find?_eq_some ht) with rfl | hin
  · refine absurd ⟨?_, ?_⟩ hc
    · rw [h.idle]
      exact h.ungranted curr hcurr
    · rw [h.idle]
      exact h.users curr hcurr
  · exact hin

/-- What a call of 15 that returns 1 has found and done. -/
theorem mapSharedPage_eq_one
    (hrun : m.mapSharedPage A curr a0 a1 a2 a3 = .done (.value 1) m') :
    ∃ target s, m.getProcessByPid a0 = some target ∧
      ¬ (curr.rightsOn target.pid &&& 4 = 0 ∧ curr.pid ≠ target.pid) ∧
      uvmTranslate m.space.mem curr.satp a1 ≠ 0 ∧
      (⟨true, a2, uvmTranslate m.space.mem curr.satp a1, 4096, a3 % 2 ^ 32⟩ : MapCall).exec A
        target.root m.space = .done () s ∧
      m' = { m with space := s } := by
  unfold mapSharedPage at hrun
  dsimp only at hrun
  split at hrun
  · exact absurd (Outcome.done.inj hrun).1 (by simp)
  · rename_i hphys
    split at hrun
    · exact absurd (Reply.value.inj (Outcome.done.inj hrun).1) (by decide)
    · rename_i target ht
      split at hrun
      · exact absurd (Reply.value.inj (Outcome.done.inj hrun).1) (by decide)
      · rename_i hc
        obtain ⟨_, m₁, hmap, he⟩ := Outcome.bind_eq_done.mp hrun
        obtain ⟨s, hs, rfl⟩ := Outcome.within_eq_done.mp hmap
        obtain ⟨_, rfl⟩ := Outcome.done.inj he
        refine ⟨target, s, ht, hc, hphys, ?_, rfl⟩
        rw [MapCall.exec, if_pos rfl]
        exact hs

end Machine

/-! ## The entry a call writes -/

/-- The bits of a leaf for users. -/
theorem testBit_leafPte (perm pa i : Nat) : (leafPte 0x10 perm pa).testBit i =
    ((decide (10 ≤ i) && (pa / 4096).testBit (i - 10)) || decide (i = 0 ∨ i = 4 ∨ i = 6) ||
      decide (i = 7 ∧ perm &&& 4 ≠ 0) || perm.testBit i) := by
  have hmask : ∀ k : Nat, (2 ^ k).testBit i = decide (i = k) := fun k => by
    rw [Nat.testBit_two_pow]
    exact decide_eq_decide.mpr eq_comm
  have h0 : (0x1 : Nat).testBit i = decide (i = 0) := hmask 0
  have h4 : (0x10 : Nat).testBit i = decide (i = 4) := hmask 4
  have h6 : (0x40 : Nat).testBit i = decide (i = 6) := hmask 6
  have h7 : (0x80 : Nat).testBit i = decide (i = 7) := hmask 7
  have hpage : ((pa >>> 12) <<< 10).testBit i =
      (decide (10 ≤ i) && (pa / 4096).testBit (i - 10)) := by
    rw [Nat.testBit_shiftLeft, Nat.shiftRight_eq_div_pow]
  have hattr : (if perm &&& 4 ≠ 0 then 0x40 ||| 0x80 else 0x40 : Nat).testBit i =
      (decide (i = 6) || decide (i = 7 ∧ perm &&& 4 ≠ 0)) := by
    split
    · rename_i hw
      rw [Nat.testBit_or, h6, h7]
      simp [hw]
    · rename_i hw
      rw [h6]
      simp [hw]
  unfold leafPte
  rw [Nat.testBit_or, Nat.testBit_or, Nat.testBit_or, Nat.testBit_or, hpage, hattr, h0, h4]
  by_cases hi0 : i = 0
  · simp [hi0]
  · by_cases hi4 : i = 4
    · simp [hi4]
    · by_cases hi6 : i = 6
      · simp [hi6]
      · simp only [hi0, hi4, hi6, decide_false, Bool.or_false, or_self, Bool.false_or]

/-- Bits of the permission word add to the page number. -/
theorem leafPte_div (perm pa : Nat) : leafPte 0x10 perm pa / 1024 = pa / 4096 ||| perm / 1024 := by
  apply Nat.eq_of_testBit_eq
  intro j
  rw [show 1024 = 2 ^ 10 from rfl, Nat.testBit_div_two_pow, testBit_leafPte, Nat.testBit_or,
    Nat.testBit_div_two_pow, Nat.add_sub_cancel, decide_eq_true (Nat.le_add_left 10 j)]
  simp

variable {β : Type} {A : PageAlloc β} {Owns : β → List Grant → Prop} {m m' : Machine β}
  {L : List Grant} {curr target : Process} {a0 a1 a2 a3 : Nat}

/-- The user page at 0x1000 is for reading alone. -/
def readerCall : MapCall := ⟨true, 0x1000, 0x80600000, 4096, 2⟩

/-- The entries of a process that has that page, its kernel stack and the trampoline. -/
def readerPte (a : Nat) : Option Nat :=
  if indices a = indices 0x1000 then some (leafPte 0x10 2 0x80600000)
  else if indices a = indices 0x3FFFFFE000 then some (leafPte 0 6 0x80A00000)
  else if indices a = indices 0x3FFFFFF000 then some (leafPte 0 8 0x80200000)
  else none

/-- The board with one such process; another page can be mapped at 0x2000. -/
theorem reader_virt : ∃ (root : Nat) (s : Space State) (L : List Grant),
    Forest (Granted virt virtBssEnd) [root] s L ∧ satpTable (satpOf root) = root ∧
    (∀ a, s.pteAt root a = readerPte a) ∧
    ∀ c : MapCall, c.Proper → c.len = 4096 → c.start = 0x2000 →
      ∃ s', c.exec (buddy virt 0) root s = .done () s' := by
  have hA := buddy_grants 0 virt_machine virt_fits
  obtain ⟨root, s₀, s₁, L₀, howns, _, hcreate, hroom⟩ := createUserTable_virt 0 0x80200000
    0x80A00000 (by decide) (by decide)
  obtain ⟨L₁, hcreated, _⟩ := createUserTable_spec hA howns (by decide) (by decide) hcreate
  have hempty : Forest (Granted virt virtBssEnd) [] s₀ L₀ :=
    ⟨⟨howns, by simp, by simp, by simp⟩, by simp⟩
  obtain ⟨⟨_, hf₁⟩, hpte₁, _⟩ := hempty.createUserTable_done hA hcreate
  have hlen : readerCall.len = 4096 := MapCall.len_of_page rfl
  have hstart : readerCall.start = 0x1000 := by decide
  obtain ⟨new, s₂, L₂, hrun, hret, hnew⟩ :=
    hcreated.fine.returns hA hcreated.toBuilt (c := readerCall)
    ⟨by decide, by decide, by decide⟩ hlen (hroom.mono (by decide)) (by
      rintro ⟨f, hf⟩
      rw [hstart] at hf
      rcases (hcreated.leaf _ f).mp hf with ⟨he, _⟩ | ⟨he, _⟩
      · exact absurd he (by decide)
      · exact absurd he (by decide))
  obtain ⟨⟨L, hf₂⟩, _, hpte₂⟩ := hf₁.exec_done hA List.mem_cons_self hlen hrun
  have hroot := hf₂.held root List.mem_cons_self [] root (by simp) Radix.trail_nil rfl
  have hsatp : satpTable (satpOf root) = root :=
    satpTable_satpOf ((hA.blocks hf₂.owns).page _ hroot).1 (virt_low _ _ hf₂.owns _ hroot)
  refine ⟨root, s₂, L, hf₂, hsatp, fun a => ?_, fun c hc hl hs => ?_⟩
  · rw [hpte₂ root List.mem_cons_self a, hpte₁ a]
    simp only [true_and]
    rfl
  · have hroom₂ := hret.grew.room 2 (hroom.mono (by omega))
    obtain ⟨_, s', _, hrun', _⟩ :=
        (hcreated.fine.onStep hlen hret).returns hA hret.built hc hl hroom₂ (by
      rw [hs]
      rintro ⟨f, hf⟩
      rcases (hret.leaf _ f).mp hf with hf | ⟨x, hx, he, _⟩
      · rcases (hcreated.leaf _ f).mp hf with ⟨he, _⟩ | ⟨he, _⟩
        · exact absurd he (by decide)
        · exact absurd he (by decide)
      · rw [MapCall.pieces_of_page hlen, hstart, List.mem_singleton] at hx
        rw [hx] at he
        exact absurd he (by decide))
    exact ⟨s', hrun'⟩

/-- The board with that process and the idle one. -/
def readerMachine (root : Nat) (s : Space State) : Machine State :=
  ⟨s, ⟨0, 0, 0, fun _ => 0⟩, [⟨1, satpOf root, 0x80A00000, fun _ => 0⟩], []⟩

/-- The example is sane. -/
theorem readerMachine_sane {root : Nat} {s : Space State} {L : List Grant}
    (hf : Forest (Granted virt virtBssEnd) [root] s L) (hsatp : satpTable (satpOf root) = root) :
    (readerMachine root s).Sane (Granted virt virtBssEnd) L := by
  refine ⟨?_, rfl, fun p hp => ?_, fun p hp => ?_⟩
  · have hroots : (readerMachine root s).roots = [root] := congrArg (fun r => [r]) hsatp
    rw [hroots]
    exact hf
  · rw [List.mem_singleton.mp hp]
    exact Nat.one_ne_zero
  · rw [List.mem_singleton.mp hp]
    show 0 >>> (0 % 16 * 4) &&& 15 &&& 4 = 0
    decide

/-- A process may share its page with itself at 0x2000; `a3` are the rights it asks for. -/
theorem reader_shares (a3 : Nat) (ha3 : a3 % 2 ^ 32 &&& 0xA ≠ 0) :
    ∃ (root : Nat) (s : Space State) (m' : Machine State) (L : List Grant),
      (readerMachine root s).Sane (Granted virt virtBssEnd) L ∧ satpTable (satpOf root) = root ∧
      (∀ a, s.pteAt root a = readerPte a) ∧
      (readerMachine root s).mapSharedPage (buddy virt 0) ⟨1, satpOf root, 0x80A00000, fun _ => 0⟩ 1
        0x1000 0x2000 a3 = .done (.value 1) m' := by
  have hA := buddy_grants 0 virt_machine virt_fits
  obtain ⟨root, s, L, hf, hsatp, hpte, hnext⟩ := reader_virt
  have hown : s.pteAt root 0x1000 = some (leafPte 0x10 2 0x80600000) := hpte 0x1000
  have hphys : uvmTranslate s.mem (satpOf root) 0x1000 = 0x80600000 := by
    rw [hf.uvmTranslate_pteAt hA List.mem_cons_self hsatp, hown]
    decide
  obtain ⟨s', hexec⟩ := hnext ⟨true, 0x2000, 0x80600000, 4096, a3 % 2 ^ 32⟩
    ⟨(by decide : 0x2000 < 2 ^ 64), (by decide : 0x80600000 < 2 ^ 64), ha3⟩
    (MapCall.len_of_page rfl) (by show andNot 0x2000 0xFFF = 0x2000; decide)
  refine ⟨root, s, { readerMachine root s with space := s' }, L, readerMachine_sane hf hsatp, hsatp,
    hpte, ?_⟩
  have hcheck : ¬ ((⟨1, satpOf root, 0x80A00000, fun _ => 0⟩ : Process).rightsOn 1 &&& 4 = 0 ∧
      1 ≠ 1) := fun hc => hc.2 rfl
  have hmap : uvmMap (buddy virt 0) (satpTable (satpOf root)) 0x2000 0x80600000 4096
      (a3 % 2 ^ 32) s = .done () s' := by
    rw [hsatp]
    rw [MapCall.exec, if_pos rfl] at hexec
    exact hexec
  have hfind : (readerMachine root s).getProcessByPid 1 =
      some ⟨1, satpOf root, 0x80A00000, fun _ => 0⟩ := rfl
  have hphys' : uvmTranslate (readerMachine root s).space.mem (satpOf root) 0x1000 = 0x80600000 :=
    hphys
  unfold Machine.mapSharedPage
  dsimp only
  rw [hphys', if_neg (by decide), hfind]
  dsimp only
  rw [if_neg hcheck]
  have hmap' : uvmMap (buddy virt 0) (satpTable (satpOf root)) 0x2000 0x80600000 4096
      (a3 % 2 ^ 32) (readerMachine root s).space = .done () s' := hmap
  rw [hmap']
  rfl

end RexOS.Traps
