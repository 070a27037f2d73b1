import RexOS.Ipc.Handlers

/-!
# Searches of the message calls

With every process in its place, the search for a pid comes to an end and finds a process that
has not exited, and a receiver wakes each sender that waits for it.
-/

namespace RexOS.Ipc

open Scheduler Kernel

variable {s s' : Kernel} {v : Place → List Nat} {a t u n ptr p pid head target : Nat}
  {r xs ys : List Nat}

/-! ## The search for a pid -/

/-- What looking through `xs` makes of the target: a process of `xs` with the pid, or what it was
before if there is none, or if it was there before. -/
def Sought (s : Kernel) (pid : Nat) (xs : List Nat) (target t : Nat) : Prop :=
  t = target ∧ (target = 0 → ∀ a ∈ xs, (s.procs a).pid ≠ pid) ∨ t ∈ xs ∧ (s.procs t).pid = pid

namespace Sought

/-- Nothing is searched. -/
theorem nil (s : Kernel) (pid t : Nat) : Sought s pid [] t t :=
  Or.inl ⟨rfl, fun _ _ ha => absurd ha List.not_mem_nil⟩

/-- Nothing is lost where something has been found. -/
theorem skip (s : Kernel) (pid : Nat) (xs : List Nat) (ht : t ≠ 0) : Sought s pid xs t t :=
  Or.inl ⟨rfl, fun h => absurd h ht⟩

/-- One process. -/
theorem look (s : Kernel) (pid ptr target : Nat) :
    Sought s pid [ptr] target (if (s.procs ptr).pid = pid then ptr else target) := by
  split
  · exact Or.inr ⟨List.mem_singleton_self ptr, ‹_›⟩
  · refine Or.inl ⟨rfl, fun _ a ha => ?_⟩
    rwa [List.mem_singleton.mp ha]

/-- Some lists and then some more. -/
theorem append (h : Sought s pid xs target t) (h' : Sought s pid ys t u) :
    Sought s pid (xs ++ ys) target u := by
  rcases h' with ⟨rfl, hnone'⟩ | ⟨hmem, hpid⟩
  · rcases h with ⟨rfl, hnone⟩ | ⟨hmem, hpid⟩
    · refine Or.inl ⟨rfl, fun h0 a ha => ?_⟩
      rcases List.mem_append.mp ha with ha | ha
      · exact hnone h0 a ha
      · exact hnone' h0 a ha
    · exact Or.inr ⟨List.mem_append_left ys hmem, hpid⟩
  · exact Or.inr ⟨List.mem_append_right xs hmem, hpid⟩

end Sought

/-- The search in a circle. -/
theorem findInCircle_sought (pid target : Nat) (hc : (ptr :: r).IsChain fun a b => s.next a = b)
    (hlast : s.next (r.getLast?.getD ptr) = head) (hhead : head ∉ r) (hn : r.length < n) :
    ∃ t, s.findInCircle pid head n ptr target = .done t s ∧ Sought s pid (ptr :: r) target t := by
  induction r generalizing ptr n target with
  | nil =>
    cases n with
    | zero => exact absurd hn (Nat.not_lt_zero _)
    | succ n =>
      have hnext : (s.procs ptr).next = head := hlast
      exact ⟨_, if_neg fun hcond => hcond.1 hnext, Sought.look s pid ptr target⟩
  | cons x r ih =>
    cases n with
    | zero => exact absurd hn (Nat.not_lt_zero _)
    | succ n =>
      rw [List.isChain_cons_cons] at hc
      rw [List.getLast?_cons, Option.getD_some] at hlast
      have hnext : (s.procs ptr).next = x := hc.1
      have hxh : x ≠ head := fun he => hhead (he ▸ List.mem_cons_self)
      have hlook := Sought.look s pid ptr target
      rw [findInCircle, hnext]
      by_cases hgo : (if (s.procs ptr).pid = pid then ptr else target) = 0
      · obtain ⟨t, hrun, ht⟩ := ih (if (s.procs ptr).pid = pid then ptr else target) hc.2 hlast
          (fun hm => hhead (List.mem_cons_of_mem _ hm)) (n := n) (Nat.lt_of_succ_lt_succ hn)
        exact ⟨t, (if_pos ⟨hxh, hgo⟩).trans hrun, hlook.append ht⟩
      · exact ⟨_, if_neg fun hcond => hgo hcond.2, hlook.append (Sought.skip s pid (x :: r) hgo)⟩

/-- The search in a list. -/
theorem findInList_sought (pid target : Nat) (hseg : Dll.Seg s.next s.prev 0 p ptr r)
    (hn : r.length < n) :
    ∃ t, s.findInList pid n ptr target = .done t s ∧ Sought s pid r target t := by
  induction r generalizing p ptr n target with
  | nil =>
    cases n with
    | zero => exact absurd hn (Nat.not_lt_zero _)
    | succ n =>
      have h0 : ptr = 0 := hseg
      exact ⟨target, if_neg fun hcond => hcond.1 h0, Sought.nil s pid target⟩
  | cons x r ih =>
    obtain ⟨rfl, hne, _, htail⟩ := hseg
    cases n with
    | zero => exact absurd hn (Nat.not_lt_zero _)
    | succ n =>
      rw [findInList]
      by_cases hgo : target = 0
      · obtain ⟨t, hrun, ht⟩ := ih (if (s.procs ptr).pid = pid then ptr else target) htail
          (n := n) (Nat.lt_of_succ_lt_succ hn)
        exact ⟨t, (if_pos ⟨hne, hgo⟩).trans hrun, (Sought.look s pid ptr target).append ht⟩
      · exact ⟨target, if_neg fun hcond => hgo hcond.2, Sought.skip s pid _ hgo⟩

/-- What a part of the search makes of the target found before. -/
def Found (s : Kernel) (pid target t : Nat) : Prop :=
  t = target ∨ t ∈ s.existing ∧ (s.procs t).pid = pid ∧ (s.procs t).state ≠ .zombie

/-- One search after the other. -/
theorem Found.trans (h : Found s pid target t) (h' : Found s pid t u) : Found s pid target u := by
  rcases h' with rfl | hu
  · exact h
  · exact Or.inr hu

/-- A circle or list of processes that have not exited. -/
theorem Sought.found (h : Sought s pid xs target t)
    (hlive : ∀ a ∈ xs, a ∈ s.existing ∧ (s.procs a).state ≠ .zombie) : Found s pid target t := by
  rcases h with ⟨rfl, -⟩ | ⟨ht, hpid⟩
  · exact Or.inl rfl
  · exact Or.inr ⟨(hlive t ht).1, hpid, (hlive t ht).2⟩

/-- The search through circles. -/
theorem findInCircles_eq (hq : Queued s v) (pid j : Nat) {is : List Nat} (his : ∀ i ∈ is, i < 32)
    (target : Nat) :
    ∃ t, s.findInCircles pid j is target = .done t s ∧ Found s pid target t := by
  induction is generalizing target with
  | nil => exact ⟨target, rfl, Or.inl rfl⟩
  | cons i is ih =>
    have hrest : ∀ k ∈ is, k < 32 := fun k hk => his k (List.mem_cons_of_mem _ hk)
    rw [findInCircles]
    split
    · rename_i hbit
      obtain ⟨y, zs, hxs⟩ : ∃ y zs, v (.circle j i) = y :: zs :=
        List.exists_cons_of_ne_nil ((hq.threaded.bits j i (his i List.mem_cons_self)).mp hbit)
      have hw : Wheel s.next s.prev (y :: zs) := hxs ▸ hq.threaded.wheel j i
      have hfirst : (s.queues j).activeProcessCircles i = y := by
        have hf := hq.threaded.first_circle j i
        rw [hxs] at hf
        exact hf
      have hlen := hq.length_le (.circle j i)
      rw [hxs, List.length_cons] at hlen
      have hlive : ∀ a ∈ y :: zs, a ∈ s.existing ∧ (s.procs a).state ≠ .zombie := by
        intro a ha
        obtain ⟨hex, hpl⟩ := (hq.mem _ a).mp (hxs ▸ ha)
        refine ⟨hex, fun hz => ?_⟩
        rw [Process.place_wait (w := .zombie) hz] at hpl
        exact absurd hpl (by simp)
      obtain ⟨t, hrun, ht⟩ := findInCircle_sought (n := s.existing.length + 1) pid target
        (hw.inner.imp fun _ _ h => h.1) hw.next_last (List.nodup_cons.mp hw.nodup).1 (by omega)
      obtain ⟨u, hrun', hu⟩ := ih hrest t
      refine ⟨u, ?_, (ht.found hlive).trans hu⟩
      dsimp only
      rw [hfirst, hrun, Outcome.bind_done]
      exact hrun'
    · exact ih hrest target

/-- The search through harts. -/
theorem findInHarts_eq (hq : Queued s v) (pid : Nat) (js : List Nat) (target : Nat) :
    ∃ t, s.findInHarts pid js target = .done t s ∧ Found s pid target t := by
  induction js generalizing target with
  | nil => exact ⟨target, rfl, Or.inl rfl⟩
  | cons j js ih =>
    rw [findInHarts]
    split
    · obtain ⟨t, hrun, ht⟩ := findInCircles_eq hq pid j
        (fun i (hi : i ∈ List.range 32) => List.mem_range.mp hi) target
      rw [hrun, Outcome.bind_done]
      split
      · exact ⟨t, rfl, ht⟩
      · obtain ⟨u, hrun', hu⟩ := ih t
        exact ⟨u, hrun', ht.trans hu⟩
    · exact ih target

/-- The search through lists. -/
theorem findInLists_eq (hq : Queued s v) (pid : Nat) {ws : List WaitList} (hws : .zombie ∉ ws)
    (target : Nat) :
    ∃ t, s.findInLists pid ws target = .done t s ∧ Found s pid target t := by
  induction ws generalizing target with
  | nil => exact ⟨target, rfl, Or.inl rfl⟩
  | cons w ws ih =>
    have hw : w ≠ .zombie := fun he => hws (he ▸ List.mem_cons_self)
    have hlive : ∀ a ∈ v (.wait w), a ∈ s.existing ∧ (s.procs a).state ≠ .zombie := by
      intro a ha
      obtain ⟨hex, hpl⟩ := (hq.mem _ a).mp ha
      refine ⟨hex, fun hz => hw ?_⟩
      have hst : w.state = .zombie := (Process.state_of_place hpl).symm.trans hz
      cases w <;> first | rfl | exact absurd hst (by decide)
    obtain ⟨t, hrun, ht⟩ := findInList_sought (n := s.existing.length + 1) pid target
      (hq.threaded.dll w).seg (Nat.lt_succ_of_le (hq.length_le (.wait w)))
    obtain ⟨u, hrun', hu⟩ := ih (fun hm => hws (List.mem_cons_of_mem _ hm)) t
    have hrun₁ : s.findInList pid (s.existing.length + 1) (s.heads w) target = .done t s := hrun
    refine ⟨u, ?_, (ht.found hlive).trans hu⟩
    rw [findInLists, hrun₁, Outcome.bind_done]
    exact hrun'

/-- The search ends, and what it finds is a process with the pid that has not exited. -/
theorem getProcessByPid_eq (hq : Queued s v) (pid : Nat) : ∃ t, s.getProcessByPid pid = .done t s ∧
    (t ≠ 0 → t ∈ s.existing ∧ (s.procs t).pid = pid ∧ (s.procs t).state ≠ .zombie) := by
  obtain ⟨t, hrun, ht⟩ := findInHarts_eq hq pid (List.range s.hart) 0
  obtain ⟨u, hrun', hu⟩ := findInLists_eq hq pid
    (show WaitList.zombie ∉ [.blocked, .blockedIpc, .blockedIpcSend, .sleeping] by decide) t
  refine ⟨u, ?_, fun h0 => (ht.trans hu).resolve_left h0⟩
  rw [getProcessByPid, hrun, Outcome.bind_done]
  exact hrun'

/-! ## Waking the senders -/

/-- The search for a sender finds the first one that waits for the pid. -/
theorem findSender_eq (pid : Nat) (hseg : Dll.Seg s.next s.prev 0 p ptr r) (hn : r.length < n) :
    s.findSender pid n ptr =
      .done ((r.find? fun a => (s.procs a).ipcPendingPid == pid).getD 0) s := by
  induction r generalizing p ptr n with
  | nil =>
    cases n with
    | zero => exact absurd hn (Nat.not_lt_zero _)
    | succ n =>
      have h0 : ptr = 0 := hseg
      rw [findSender, if_neg fun hc => hc.1 h0, h0]
      rfl
  | cons x r ih =>
    obtain ⟨rfl, hne, _, htail⟩ := hseg
    cases n with
    | zero => exact absurd hn (Nat.not_lt_zero _)
    | succ n =>
      rw [findSender, List.find?_cons]
      by_cases hp : (s.procs ptr).ipcPendingPid = pid
      · rw [if_neg fun hc => hc.2 hp, beq_iff_eq.mpr hp]
        rfl
      · rw [if_pos ⟨hne, hp⟩, beq_eq_false_iff_ne.mpr hp]
        exact ih htail (Nat.lt_of_succ_lt_succ hn)

/-- The loop ends when no sender waits for `pid` any more. -/
theorem wakeSenders_eq (hs : Sound s v) (pid : Nat) (hn : (v (.wait .blockedIpcSend)).length < n) :
    ∃ s' v', wakeSenders 0 pid n s = .done () s' ∧ Sound s' v' ∧
      Carried (fun _ x => x = .ready) s s' ∧
      ∀ a ∈ s'.existing, (s'.procs a).state = .sendBlocked → (s'.procs a).ipcPendingPid ≠ pid := by
  induction n generalizing s v with
  | zero => exact absurd hn (Nat.not_lt_zero _)
  | succ n ih =>
    have hfind : s.findSender pid (s.existing.length + 1) (s.heads .blockedIpcSend) = _ :=
      findSender_eq pid (hs.queued.threaded.dll .blockedIpcSend).seg
        (Nat.lt_succ_of_le (hs.queued.length_le _))
    rw [wakeSenders, hfind, Outcome.bind_done]
    cases hz : (v (.wait .blockedIpcSend)).find? fun a => (s.procs a).ipcPendingPid == pid with
    | none =>
      refine ⟨s, v, if_pos rfl, hs, Carried.refl s, fun a ha hst => ?_⟩
      have hin : a ∈ v (.wait .blockedIpcSend) := hs.queued.mem_wait ha hst
      have hno := List.find?_eq_none.mp hz a hin
      simpa using hno
    | some z =>
      have hzv : z ∈ v (.wait .blockedIpcSend) := List.mem_of_find?_eq_some hz
      obtain ⟨hex, hpl⟩ := (hs.queued.mem _ z).mp hzv
      have hz0 : z ≠ 0 := (hs.queued.threaded.dll .blockedIpcSend).ne_nil z hzv
      obtain ⟨s₁, hrun, _, hs₁⟩ := hs.unpark (w := .blockedIpcSend) hex (Process.state_of_place hpl)
      have hlen : (Function.update (Function.update v (.wait .blockedIpcSend)
          ((v (.wait .blockedIpcSend)).erase z)) (.circle 0 (s.procs z).priority)
          (v (.circle 0 (s.procs z).priority) ++ [z]) (.wait .blockedIpcSend)).length < n := by
        rw [Function.update_of_ne (by simp), Function.update_self, List.length_erase_of_mem hzv]
        have hpos := List.length_pos_of_mem hzv
        omega
      obtain ⟨s₂, v₂, hrun', hs₂, hc₂, hno⟩ := ih (preempt_sound hs₁ z) hlen
      have hwake : Carried (fun _ x => x = .ready) s s₁ := Carried.unpark rfl hrun
      refine ⟨s₂, v₂, ?_, hs₂, (hwake.trans (Carried.preempt s₁ 0 z)).trans hc₂, hno⟩
      rw [Option.getD_some, if_neg hz0, unblockIpcSendProcess, hrun, Outcome.bind_done,
        Outcome.bind_done]
      exact hrun'

end RexOS.Ipc
