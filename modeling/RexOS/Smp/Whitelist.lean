import RexOS.Core.Roster
import RexOS.Smp.Intact
import RexOS.Smp.Tables

/-!
# The list of those to grant to

A process may pass rights on to the pids on its list, of which there are at most eight. The list is
a bounded set: a new process has none, syscall 14 adds one or takes one out, and syscall 10 finds
those that are in.
-/

namespace RexOS.Scheduler

variable {p : Process} {S : Finset Nat} {a0 t x : Nat}

/-- The list of a process holds a set of at most eight pids, and zeros behind them. -/
structure Process.Lists (p : Process) (S : Finset Nat) : Prop where
  active : p.activeGrant ≤ 8
  roster : Roster p.activeGrant p.grantWhitelist S
  rest : ∀ i, p.activeGrant ≤ i → i < 8 → p.grantWhitelist i = 0

/-- Syscall 14 on a bounded set: what is in it afterwards, and what is returned. -/
def editSet (S : Finset Nat) (a0 : Nat) : Nat → Finset Nat × Nat
  | 1 => if a0 ∈ S then (S, 1) else if S.card = 8 then (S, Ipc.minusOne) else (insert a0 S, 1)
  | 0 => if a0 ∈ S then (S.erase a0, 1) else (S, 1)
  | _ => (S, Ipc.minusOne)

namespace Process.Lists

/-- Only the list and its length matter. -/
theorem congr {p' : Process} (hS : p.Lists S) (hactive : p'.activeGrant = p.activeGrant)
    (hlist : p'.grantWhitelist = p.grantWhitelist) : p'.Lists S := by
  refine ⟨hactive ▸ hS.active, ?_, fun i hi h8 => ?_⟩
  · rw [hactive, hlist]
    exact hS.roster
  · rw [hlist]
    exact hS.rest i (hactive ▸ hi) h8

/-- The list of a new process. -/
theorem empty (hactive : p.activeGrant = 0) (hlist : p.grantWhitelist = fun _ => 0) :
    p.Lists ∅ := by
  refine ⟨hactive ▸ Nat.zero_le 8, hactive ▸ Roster.empty _, fun i _ _ => ?_⟩
  rw [hlist]

/-- The search finds what is in the set. -/
theorem whitelisted (hS : p.Lists S) : (p.whitelisted x).isSome = true ↔ x ∈ S :=
  hS.roster.isSome_find

/-- It finds nothing else. -/
theorem whitelisted_none (hS : p.Lists S) (hx : x ∉ S) : p.whitelisted x = none :=
  Option.not_isSome_iff_eq_none.mp (mt hS.whitelisted.mp hx)

/-- A new pid comes behind the last one. -/
theorem push (hS : p.Lists S) (hx : x ∉ S) (h8 : p.activeGrant ≠ 8) :
    { p with
      grantWhitelist := Function.update p.grantWhitelist p.activeGrant x
      activeGrant := p.activeGrant + 1 }.Lists (insert x S) := by
  have hactive := hS.active
  refine ⟨?_, hS.roster.push hx, fun i hi hi8 => ?_⟩
  · change p.activeGrant + 1 ≤ 8
    omega
  · change Function.update p.grantWhitelist p.activeGrant x i = 0
    change p.activeGrant + 1 ≤ i at hi
    rw [Function.update_of_ne (by omega)]
    exact hS.rest i (by omega) hi8

/-- The last pid comes to the place of the one that is taken out. -/
theorem pull (hS : p.Lists S) (hat : p.whitelisted x = some t) :
    { p with
      grantWhitelist := Function.update (Function.update p.grantWhitelist t
        (p.grantWhitelist (p.activeGrant - 1))) (p.activeGrant - 1) 0
      activeGrant := p.activeGrant - 1 }.Lists (S.erase x) := by
  obtain ⟨ht, rfl⟩ := Roster.find hat
  have hactive := hS.active
  refine ⟨?_, hS.roster.pull ht 0, fun i hi hi8 => ?_⟩
  · change p.activeGrant - 1 ≤ 8
    omega
  · change Function.update (Function.update p.grantWhitelist t _) (p.activeGrant - 1) 0 i = 0
    change p.activeGrant - 1 ≤ i at hi
    rcases Nat.eq_or_lt_of_le hi with rfl | hlt
    · exact Function.update_self ..
    · rw [Function.update_of_ne hlt.ne', Function.update_of_ne (by omega)]
      exact hS.rest i (by omega) hi8

end Process.Lists

end RexOS.Scheduler

namespace RexOS.Smp

open Scheduler Kernel

variable {s s' k : Kernel} {S : Finset Nat} {h a a0 a1 a2 b t x n idle harts priority : Nat}
  {image : Image} {procs : Nat → Process} {m m' : Machine} {e : Event} {d : Deed} {c : RightsCall}
  {g : List (Machine × Deed)}

/-! ## Syscall 14 -/

/-- What a call of syscall 14 does to the list of its caller, which held the set `S`. -/
structure Edits (s s' : Kernel) (h : Nat) (S : Finset Nat) (a0 a1 : Nat) : Prop where
  list : (s'.procs (s.curr h)).Lists (editSet S a0 a1).1
  answer : (s'.procs (s.curr h)).tf.uContext 10 = (editSet S a0 a1).2
  /-- Where the set stays as it is, nothing but `a0` changes. -/
  unchanged : (editSet S a0 a1).1 = S → s' = s.reply h (editSet S a0 a1).2

/-- A return value is on no list. -/
theorem lists_reply (hS : (s.procs b).Lists S) : ((s.reply h x).procs b).Lists S := by
  refine hS.congr ?_ ?_
  · rw [reply, procs_modify]
    split
    · rename_i hb
      rw [hb]
    · rfl
  · rw [reply, procs_modify]
    split
    · rename_i hb
      rw [hb]
    · rfl

/-- A call that changes nothing returns what it should. -/
theorem edits_reply (hS : (s.procs (s.curr h)).Lists S) (he : editSet S a0 a1 = (S, x)) :
    Edits s (s.reply h x) h S a0 a1 := by
  refine ⟨?_, ?_, fun _ => ?_⟩
  · rw [he]
    exact lists_reply hS
  · rw [he]
    exact a0_reply s h x
  · rw [he]

/-- The set changes, and so does the list. -/
theorem edits_modify {f : Process → Process} {S' : Finset Nat}
    (hS : (f (s.procs (s.curr h))).Lists S')
    (he : editSet S a0 a1 = (S', x)) (hne : S' ≠ S) :
    Edits s ((s.modify (s.curr h) f).reply h x) h S a0 a1 := by
  have hat : (s.modify (s.curr h) f).procs (s.curr h) = f (s.procs (s.curr h)) :=
    Function.update_self ..
  refine ⟨?_, ?_, fun hsame => ?_⟩
  · rw [he]
    exact lists_reply (hat ▸ hS)
  · rw [he]
    exact a0_reply (s.modify (s.curr h) f) h x
  · rw [he] at hsame
    exact absurd hsame hne

/-- Adding a process. -/
theorem edits_addToWhitelist (hS : (s.procs (s.curr h)).Lists S) :
    Edits s (s.addToWhitelist h a0) h S a0 1 := by
  unfold addToWhitelist
  dsimp only
  by_cases hin : a0 ∈ S
  · rw [if_pos (hS.whitelisted.mpr hin)]
    exact edits_reply hS (if_pos hin)
  · rw [if_neg (mt hS.whitelisted.mp hin)]
    have hcard := hS.roster.card
    by_cases h8 : (s.procs (s.curr h)).activeGrant = 8
    · rw [if_pos h8]
      exact edits_reply hS ((if_neg hin).trans (if_pos (hcard.trans h8)))
    · rw [if_neg h8]
      apply edits_modify (hS.push hin h8)
      · exact (if_neg hin).trans (if_neg fun hc => h8 (hcard.symm.trans hc))
      · exact Finset.insert_ne_self.mpr hin

/-- Taking one away. -/
theorem edits_removeFromWhitelist (hS : (s.procs (s.curr h)).Lists S) :
    Edits s (s.removeFromWhitelist h a0) h S a0 0 := by
  unfold removeFromWhitelist
  dsimp only
  by_cases hin : a0 ∈ S
  · obtain ⟨i, hi⟩ := Option.isSome_iff_exists.mp (hS.whitelisted.mpr hin)
    rw [hi]
    apply edits_modify (hS.pull hi)
    · exact if_pos hin
    · exact fun he => Finset.erase_eq_self.mp he hin
  · rw [hS.whitelisted_none hin]
    exact edits_reply hS (if_neg hin)

/-- Both, by the argument. -/
theorem edits_editWhitelist (hS : (s.procs (s.curr h)).Lists S) (a0 a1 : Nat) :
    Edits s (s.editWhitelist h a0 a1) h S a0 a1 := by
  unfold editWhitelist
  split
  · exact edits_addToWhitelist hS
  · exact edits_removeFromWhitelist hS
  · rename_i h1 h0
    exact edits_reply hS (editSet.eq_3 S a0 a1 h1 h0)

/-- The lists of others stay. -/
theorem procs_editWhitelist (hb : b ≠ s.curr h) :
    (s.editWhitelist h a0 a1).procs b = s.procs b := by
  have hreply : ∀ {k : Kernel} {x}, k.curr h = s.curr h → k.procs b = s.procs b →
      (k.reply h x).procs b = s.procs b := by
    intro k x hcurr hk
    rw [reply, procs_modify, if_neg (hcurr ▸ hb), hk]
  have hmodify : ∀ f : Process → Process, (s.modify (s.curr h) f).procs b = s.procs b :=
    fun f => Function.update_of_ne hb ..
  unfold editWhitelist
  split
  · unfold addToWhitelist
    dsimp only
    split
    · exact hreply rfl rfl
    · split
      · exact hreply rfl rfl
      · exact hreply rfl (hmodify _)
  · unfold removeFromWhitelist
    dsimp only
    split
    · exact hreply rfl rfl
    · exact hreply rfl (hmodify _)
  · exact hreply rfl rfl

/-! ## Syscall 10 -/

/-- A grant passes all tests before the one of the list: the target is there, and the caller may
grant on the pid and has what it grants, but it is neither the process with pid 1 nor free to grant
to anybody. -/
structure UpToList (s : Kernel) (h a0 a1 a2 t : Nat) : Prop where
  found : s.getProcessByPid a0 = .done t s
  target : t ≠ 0
  grants : (s.procs (s.curr h)).capabilityRoot (a1 / 16 % 2 ^ 32) >>> (a1 % 16 * 4) &&& 15 &&& 4 ≠ 0
  owns : (s.procs (s.curr h)).capabilityRoot (a1 / 16 % 2 ^ 32) >>> (a1 % 16 * 4) &&&
    15 &&& (a2 &&& 15) =
    a2 &&& 15
  bound : (s.procs (s.curr h)).capabilityRoot (a1 / 16 % 2 ^ 32) >>> (a1 % 16 * 4) &&& 15 &&& 8 = 0
  other : (s.procs (s.curr h)).pid ≠ 1

/-- Where all else is in order the whitelist decides. -/
theorem grantRights_upToList (hS : (s.procs (s.curr h)).Lists S) (hu : UpToList s h a0 a1 a2 t) :
    s.grantRights h a0 a1 a2 = .done () (if a0 ∈ S then
      (s.setEntry t (a1 / 16 % 2 ^ 32) (a1 % 16 * 4) (a2 &&& 15)).reply h 1
    else s.reply h Ipc.minusOne) := by
  have hfree :
    ¬ ((s.procs (s.curr h)).capabilityRoot (a1 / 16 % 2 ^ 32) >>> (a1 % 16 * 4) &&& 15 &&& 8 ≠ 0 ∨
      (s.procs (s.curr h)).pid = 1) := by
    rintro (hbit | hone)
    · exact hbit hu.bound
    · exact hu.other hone
  unfold Kernel.grantRights
  rw [hu.found]
  change (if t = 0 then _ else _) = _
  rw [if_neg hu.target, if_neg hu.grants, if_neg (not_not.mpr hu.owns), if_neg hfree]
  by_cases hin : a0 ∈ S
  · rw [if_pos (hS.whitelisted.mpr hin), if_pos hin]
  · rw [if_neg (mt hS.whitelisted.mp hin), if_neg hin]

/-! ## Everything else -/

/-- Pids and lists are the same, and no process is new. -/
structure Unedited (s s' : Kernel) : Prop where
  pid : ∀ a, (s'.procs a).pid = (s.procs a).pid
  active : ∀ a, (s'.procs a).activeGrant = (s.procs a).activeGrant
  list : ∀ a, (s'.procs a).grantWhitelist = (s.procs a).grantWhitelist
  existing : s'.existing ⊆ s.existing

namespace Unedited

theorem refl (s : Kernel) : Unedited s s := ⟨fun _ => rfl, fun _ => rfl, fun _ => rfl, fun _ => id⟩

/-- Two calls in a row. -/
theorem trans (hk : Unedited s k) (hs : Unedited k s') : Unedited s s' where
  pid a := (hs.pid a).trans (hk.pid a)
  active a := (hs.active a).trans (hk.active a)
  list a := (hs.list a).trans (hk.list a)
  existing _ ha := hk.existing (hs.existing ha)

/-- An update that keeps the list. -/
theorem modify (s : Kernel) (a : Nat) {f : Process → Process} (hpid : ∀ p, (f p).pid = p.pid)
    (hactive : ∀ p, (f p).activeGrant = p.activeGrant)
    (hlist : ∀ p, (f p).grantWhitelist = p.grantWhitelist) : Unedited s (s.modify a f) := by
  have hfield : ∀ {α : Type} (g : Process → α), (∀ p, g (f p) = g p) → ∀ b,
      g ((s.modify a f).procs b) = g (s.procs b) := by
    intro α g hg b
    rw [procs_modify]
    split
    · rename_i hb
      rw [hg, hb]
    · rfl
  exact ⟨hfield Process.pid hpid, hfield Process.activeGrant hactive,
    hfield Process.grantWhitelist hlist, fun _ => id⟩

/-- So every routine that edits no list keeps them. -/
theorem frame : Frame Unedited where
  refl := refl
  trans := trans
  node s a _ hpid _ hactive hlist := modify s a hpid hactive hlist
  queue _ _ _ _ := ⟨fun _ => rfl, fun _ => rfl, fun _ => rfl, fun _ => id⟩
  rest hprocs _ hex _ :=
    ⟨fun a => by rw [hprocs], fun a => by rw [hprocs], fun a => by rw [hprocs], hex⟩

/-- Syscalls 10 and 11. -/
theorem rightsCall (hc : ∀ a0 a1, c ≠ .whitelist a0 a1) (hrun : rightsCall s h c = .done () s') :
    Unedited s s' := by
  have hreply : ∀ (k : Kernel) x, Unedited k (k.reply h x) :=
    fun k x => modify k _ (fun _ => rfl) (fun _ => rfl) fun _ => rfl
  have hentry : ∀ (k : Kernel) t idx offset v, Unedited k (k.setEntry t idx offset v) :=
    fun k t _ _ _ => modify k t (fun _ => rfl) (fun _ => rfl) fun _ => rfl
  have hclear : ∀ (k : Kernel) t idx offset, Unedited k (k.clearEntry t idx offset) :=
    fun k t _ _ => modify k t (fun _ => rfl) (fun _ => rfl) fun _ => rfl
  cases c with
  | grant a0 a1 a2 =>
    obtain ⟨t, k, hfind, hrest⟩ := Outcome.bind_eq_done.mp hrun
    obtain ⟨rfl, -⟩ := names_getProcessByPid t k hfind
    dsimp only at hrest
    split at hrest
    · cases hrest
      exact hreply k _
    · split at hrest
      · cases hrest
        exact hreply k _
      · split at hrest
        · cases hrest
          exact hreply k _
        · split at hrest
          · cases hrest
            exact (hentry k t _ _ _).trans (hreply _ 1)
          · split at hrest
            · cases hrest
              exact (hentry k t _ _ _).trans (hreply _ 1)
            · cases hrest
              exact hreply k _
  | revoke a0 a1 =>
    obtain ⟨t, k, hfind, hrest⟩ := Outcome.bind_eq_done.mp hrun
    obtain ⟨rfl, -⟩ := names_getProcessByPid t k hfind
    dsimp only at hrest
    split at hrest
    · cases hrest
      exact hreply k _
    · split at hrest
      · cases hrest
        exact hreply k _
      · cases hrest
        exact (hclear k t _ _).trans (hreply _ 1)
  | whitelist a0 a1 => exact absurd rfl (hc a0 a1)

end Unedited

/-! ## Births -/

/-- The search for a pid changes no process. -/
theorem searchPid_procs {bit : Nat} (hrun : searchPid n bit s = .done x k) :
    k.procs = s.procs ∧ k.existing = s.existing := by
  induction n generalizing s bit with
  | zero => cases hrun
  | succ n ih =>
    rw [searchPid] at hrun
    split at hrun
    · have hrest := ih hrun
      exact hrest
    · cases hrun
      exact ⟨rfl, rfl⟩

/-- Nor does the choice of it. -/
theorem takePid_procs (hrun : s.takePid = .done x k) :
    k.procs = s.procs ∧ k.existing = s.existing := by
  unfold takePid at hrun
  split at hrun
  · cases hrun
    exact ⟨rfl, rfl⟩
  · have hrest := searchPid_procs hrun
    exact hrest

/-- A process is created with an empty list. -/
structure Enrolled (s s' : Kernel) (new : Nat) : Prop where
  fresh : (s'.procs new).Lists ∅
  pid : ∀ a ≠ new, (s'.procs a).pid = (s.procs a).pid
  active : ∀ a ≠ new, (s'.procs a).activeGrant = (s.procs a).activeGrant
  list : ∀ a ≠ new, (s'.procs a).grantWhitelist = (s.procs a).grantWhitelist
  existing : s'.existing ⊆ new :: s.existing

/-- An idle process has an empty list. -/
theorem enrolled_smpKmain : Enrolled s (s.smpKmain h idle) idle := by
  have hat : (s.smpKmain h idle).procs idle = _ := Function.update_self ..
  have hold : ∀ b ≠ idle, (s.smpKmain h idle).procs b = s.procs b :=
    fun b hb => Function.update_of_ne hb ..
  refine ⟨?_, fun b hb => ?_, fun b hb => ?_, fun b hb => ?_, fun _ => id⟩
  · rw [hat]
    exact .empty rfl rfl
  · rw [hold b hb]
  · rw [hold b hb]
  · rw [hold b hb]

/-- `spawn_process` fails and changes nothing, or creates the process. -/
theorem spawnProcess_enrolled (hrun : s.spawnProcess h a image priority = .done x s') :
    ¬ (a ≠ 0 ∧ s.aliveThreadCounter < pidMax) ∧ s' = s ∨
      (a ≠ 0 ∧ s.aliveThreadCounter < pidMax) ∧ Enrolled s s' a := by
  unfold Kernel.spawnProcess at hrun
  split at hrun
  · rename_i h0
    cases hrun
    exact Or.inl ⟨fun hc => hc.1 h0, rfl⟩
  · rename_i h0
    split at hrun
    · rename_i hfull
      cases hrun
      exact Or.inl ⟨fun hc => absurd hc.2 (Nat.not_lt_of_le hfull), rfl⟩
    · rename_i hfull
      obtain ⟨n, k, htake, hdone⟩ := Outcome.bind_eq_done.mp hrun
      cases hdone
      obtain ⟨hprocs, hexist⟩ := takePid_procs htake
      have hjoin := Unedited.frame.joinCircle (k.enroll h a n image priority) h a
      have hfield : ∀ {α : Type} (f : Process → α),
        (∀ p c, f { p with capabilityRoot := c } = f p) → ∀ b,
          f ((k.enroll h a n image priority).procs b) =
            Function.update (fun b => f (k.procs b)) a
              (f (newborn k h n image priority (k.procs a))) b :=
        fun f hf b => congrFun (field_enroll f hf k h a n image priority) b
      have hold : ∀ {α : Type} (f : Process → α), (∀ p c, f { p with capabilityRoot := c } = f p) →
          ∀ b ≠ a, f ((k.enroll h a n image priority).procs b) = f (s.procs b) := by
        intro α f hf b hb
        rw [hfield f hf b, Function.update_of_ne hb, hprocs]
      have hactive := hfield Process.activeGrant (fun _ _ => rfl) a
      have hlist := hfield Process.grantWhitelist (fun _ _ => rfl) a
      rw [Function.update_self] at hactive hlist
      refine Or.inr ⟨⟨h0, Nat.lt_of_not_le hfull⟩, ?_, fun b hb => ?_, fun b hb => ?_,
        fun b hb => ?_, ?_⟩
      · exact .empty ((hjoin.active a).trans hactive) ((hjoin.list a).trans hlist)
      · exact (hjoin.pid b).trans (hold Process.pid (fun _ _ => rfl) b hb)
      · exact (hjoin.active b).trans (hold Process.activeGrant (fun _ _ => rfl) b hb)
      · exact (hjoin.list b).trans (hold Process.grantWhitelist (fun _ _ => rfl) b hb)
      · exact hexist ▸ fun _ => id

/-! ## Runs -/

/-- The process that a step creates. -/
def Deed.creates (s : Kernel) : Deed → Option Nat
  | .event (.start _ idle) => some idle
  | .event (.spawn _ new _ _) | .launch new _ =>
    if new ≠ 0 ∧ s.aliveThreadCounter < pidMax then some new else none
  | _ => none

/-- A call on rights makes no process. -/
theorem Deed.creates_rights : (Deed.rights h c).creates s = none := rfl

/-- What a step adds to the set of a process or takes out of it. -/
def Deed.edit (s : Kernel) (a : Nat) (S : Finset Nat) : Deed → Finset Nat
  | .rights h (.whitelist a0 a1) => if s.curr h = a then (editSet S a0 a1).1 else S
  | _ => S

/-- The pids that a process has added since it was created, less those it has taken out since. -/
def permitted (a : Nat) : List (Machine × Deed) → Finset Nat
  | [] => ∅
  | (m, d) :: g => if d.creates m.kernel = some a then ∅ else d.edit m.kernel a (permitted a g)

/-- All processes but the idle ones have lists, which hold what they have added. -/
def Listed (g : List (Machine × Deed)) (m : Machine) : Prop :=
  ∀ a ∈ m.kernel.existing, (m.kernel.procs a).pid ≠ 0 → (m.kernel.procs a).Lists (permitted a g)

namespace Listed

/-- A step that edits no list keeps the run in order. -/
theorem unedited (hm : Listed g m) (hu : Unedited m.kernel m'.kernel)
    (hnone : d.creates m.kernel = none)
    (hd : ∀ h a0 a1, d ≠ .rights h (.whitelist a0 a1)) : Listed ((m, d) :: g) m' := by
  intro a ha hpid
  have hsame : permitted a ((m, d) :: g) = permitted a g := by
    rw [permitted, hnone, if_neg (Option.some_ne_none a).symm]
    exact Deed.edit.eq_2 _ _ _ _ hd
  rw [hsame]
  rw [hu.pid] at hpid
  exact (hm a (hu.existing ha) hpid).congr (hu.active a) (hu.list a)

/-- So does the birth of a process. -/
theorem enrolled (hm : Listed g m) (he : Enrolled m.kernel m'.kernel n)
    (hsome : d.creates m.kernel = some n) : Listed ((m, d) :: g) m' := by
  intro a ha hpid
  by_cases han : a = n
  · rw [permitted, hsome, if_pos (congrArg some han.symm), han]
    exact he.fresh
  · have hother : ¬ some n = some a := fun hc => han (Option.some.inj hc).symm
    have hcall : ∀ h a0 a1, d ≠ .rights h (.whitelist a0 a1) := by
      rintro h a0 a1 rfl
      exact absurd hsome (Option.some_ne_none n).symm
    have hsame : permitted a ((m, d) :: g) = permitted a g := by
      rw [permitted, hsome, if_neg hother]
      exact Deed.edit.eq_2 _ _ _ _ hcall
    rw [hsame]
    rw [he.pid a han] at hpid
    exact (hm a ((List.mem_cons.mp (he.existing ha)).resolve_left han) hpid).congr (he.active a han)
      (he.list a han)

/-- A call of syscall 14. -/
theorem edits (hm : Listed g m) (hact : m.act (.rights h (.whitelist a0 a1)) = some m') :
    Listed ((m, .rights h (.whitelist a0 a1)) :: g) m' := by
  obtain ⟨-, hrun⟩ := Machine.act_eq_some.mp hact
  cases hrun
  have henter : Unedited m.kernel (m.kernel.enter h) :=
    .modify _ _ (fun _ => rfl) (fun _ => rfl) fun _ => rfl
  have hkept := Intact.editWhitelist (m.kernel.enter h) h a0 a1
  intro a ha hpid
  have hpid' : (m.kernel.procs a).pid ≠ 0 := by
    rw [← henter.pid, ← hkept.pid]
    exact hpid
  have hS := (hm a (hkept.existing ha) hpid').congr (henter.active a) (henter.list a)
  rw [permitted, Deed.creates_rights, if_neg (Option.some_ne_none a).symm, Deed.edit]
  by_cases hcurr : m.kernel.curr h = a
  · rw [if_pos hcurr]
    subst hcurr
    exact (edits_editWhitelist hS a0 a1).list
  · rw [if_neg hcurr]
    have hother : a ≠ (m.kernel.enter h).curr h := fun he => hcurr he.symm
    exact (procs_editWhitelist hother).symm ▸ hS

/-- So does every step. -/
theorem step (hm : Listed g m) (hact : m.act d = some m') : Listed ((m, d) :: g) m' := by
  have hcall : ∀ {e : Event} {h a0 a1}, Deed.event e ≠ .rights h (.whitelist a0 a1) :=
    fun hc => by cases hc
  cases d with
  | event e =>
    by_cases hstart : ∃ h idle, e = .start h idle
    · obtain ⟨h, idle, rfl⟩ := hstart
      obtain ⟨-, hrun⟩ := Machine.act_eq_some.mp hact
      cases hrun
      exact hm.enrolled enrolled_smpKmain rfl
    · by_cases hspawn : ∃ h new image priority, e = .spawn h new image priority
      · obtain ⟨h, new, image, priority, rfl⟩ := hspawn
        obtain ⟨-, hrun⟩ := Machine.act_eq_some.mp hact
        obtain ⟨x, m₁, hborn, hdone⟩ := Outcome.bind_eq_done.mp hrun
        obtain ⟨k, hk, rfl⟩ := Outcome.within_eq_done.mp hborn
        cases hdone
        obtain ⟨hfail, rfl⟩ | ⟨hborn, he⟩ := spawnProcess_enrolled hk
        · exact hm.unedited (Unedited.refl _) (if_neg hfail) fun _ _ _ => hcall
        · exact hm.enrolled he (if_pos hborn)
      · have hnone : (Deed.event e).creates m.kernel = none := by
          cases e with
          | start h idle => exact absurd ⟨h, idle, rfl⟩ hstart
          | spawn h new image priority => exact absurd ⟨h, new, image, priority, rfl⟩ hspawn
          | timer | softInterrupt | external | syscall | steal | clean => rfl
        refine hm.unedited ?_ hnone fun _ _ _ => hcall
        refine Unedited.frame.unborn
          (fun _ _ _ => ⟨fun _ => rfl, fun _ => rfl, fun _ => rfl, fun _ => id⟩)
          (fun h idle he => hstart ⟨h, idle, he⟩) (fun h new image priority he => ?_) hact
        exact hspawn ⟨h, new, image, priority, he⟩
  | launch new image =>
    obtain ⟨-, hrun⟩ := Machine.act_eq_some.mp hact
    obtain ⟨x, m₁, hborn, hdone⟩ := Outcome.bind_eq_done.mp hrun
    obtain ⟨k, hk, rfl⟩ := Outcome.within_eq_done.mp hborn
    cases hdone
    obtain ⟨hfail, rfl⟩ | ⟨hborn, he⟩ := spawnProcess_enrolled hk
    · refine hm.unedited ?_ (if_neg hfail) fun _ _ _ hc => by cases hc
      exact Unedited.frame.rest rfl rfl (fun _ => id) rfl
    · refine hm.enrolled ?_ (if_pos hborn)
      exact ⟨he.fresh, he.pid, he.active, he.list, he.existing⟩
  | rights h c =>
    by_cases hlist : ∃ a0 a1, c = .whitelist a0 a1
    · obtain ⟨a0, a1, rfl⟩ := hlist
      exact hm.edits hact
    · have hc : ∀ a0 a1, c ≠ .whitelist a0 a1 := fun a0 a1 he => hlist ⟨a0, a1, he⟩
      obtain ⟨-, hrun⟩ := Machine.act_eq_some.mp hact
      obtain ⟨k, hk, rfl⟩ := Outcome.within_eq_done.mp hrun
      have henter : Unedited m.kernel (m.kernel.enter h) :=
        .modify _ _ (fun _ => rfl) (fun _ => rfl) fun _ => rfl
      refine hm.unedited (henter.trans (Unedited.rightsCall hc hk)) rfl fun _ _ _ he => ?_
      cases he
      exact hc _ _ rfl

end Listed

/-- At the start every list is empty. -/
theorem listed_booted (procs : Nat → Process) (harts idle : Nat) :
    Listed [] (booted procs harts idle) := by
  have hpid : ((booted procs harts idle).kernel.procs idle).pid = 0 := by
    change (Function.update procs idle _ idle).pid = 0
    rw [Function.update_self]
  intro a ha hne
  rw [(List.mem_singleton.mp ha : a = idle)] at hne
  exact absurd hpid hne

/-- In every run the list of a process holds what it has added and not taken out since it was
created, which is a set of at most eight pids. A call of syscall 14 edits this set, and syscall 10
finds in the list those that are in it. -/
theorem whitelist_run (hr : Run Machine.act (booted procs harts idle) g m)
    (ha : a ∈ m.kernel.existing) (hpid : (m.kernel.procs a).pid ≠ 0) :
    (m.kernel.procs a).Lists (permitted a g) ∧
    (∀ pid, ((m.kernel.procs a).whitelisted pid).isSome = true ↔ pid ∈ permitted a g) ∧
    ∀ h, m.kernel.curr h = a → ∀ a0 a1,
      Edits (m.kernel.enter h) ((m.kernel.enter h).editWhitelist h a0 a1) h (permitted a g) a0 a1 ∧
      ∀ a2 t, UpToList (m.kernel.enter h) h a0 a1 a2 t →
        (m.kernel.enter h).grantRights h a0 a1 a2 = .done () (if a0 ∈ permitted a g then
          ((m.kernel.enter h).setEntry t (a1 / 16 % 2 ^ 32) (a1 % 16 * 4) (a2 &&& 15)).reply h 1
        else (m.kernel.enter h).reply h Ipc.minusOne) := by
  have hlisted : Listed g m := hr.invariant_along (I := Listed) (P := fun _ _ => True)
    (fun _ _ => trivial) (listed_booted procs harts idle) fun _ _ _ _ hm _ hact => hm.step hact
  have hS := hlisted a ha hpid
  refine ⟨hS, fun pid => hS.whitelisted, ?_⟩
  rintro h rfl a0 a1
  have henter : ((m.kernel.enter h).procs ((m.kernel.enter h).curr h)).Lists
      (permitted (m.kernel.curr h) g) := by
    have hkept : Unedited m.kernel (m.kernel.enter h) :=
      .modify _ _ (fun _ => rfl) (fun _ => rfl) fun _ => rfl
    exact hS.congr (hkept.active _) (hkept.list _)
  exact ⟨edits_editWhitelist henter a0 a1, fun a2 t => grantRights_upToList henter⟩

/-- The shell adds the worker to its list, and can then take it out again. -/
theorem whitelist_shell : ∃ g, ∃ m : Machine, Run Machine.act (booted emptyMemory 0 1) g m ∧
    m.kernel.curr 0 = 3 ∧ 2 ∈ permitted 3 g ∧ (m.kernel.procs 3).Lists (permitted 3 g) ∧
    Edits (m.kernel.enter 0) ((m.kernel.enter 0).editWhitelist 0 2 0) 0 (permitted 3 g) 2 0 := by
  obtain ⟨g, m, hr, m', hact, hex, hpid, hcurr, hfound⟩ := shellRuns_run
    (Q := fun m => ∃ m' ∈ m.act (.rights 0 (.whitelist 2 1)), 3 ∈ m'.kernel.existing ∧
      (m'.kernel.procs 3).pid ≠ 0 ∧ m'.kernel.curr 0 = 3 ∧
      ((m'.kernel.procs 3).whitelisted 2).isSome = true) (by decide +kernel)
  have hr' := hr.snoc hact
  obtain ⟨hlists, hscan, hcalls⟩ := whitelist_run hr' hex hpid
  exact ⟨_, m', hr', hcurr, (hscan 2).mp hfound, hlists, (hcalls 0 hcurr 2 0).1⟩

end RexOS.Smp
