import RexOS.Smp.Careful
import Mathlib.Logic.Relation

/-!
# What an event does

Every handler but that of software interrupts is a sequence of calls, each of which takes the
kernel and its places to others. A software interrupt counts the sleepers down one by one,
may raise an alarm, and dispatches a process if one is due. What each of these keeps, every event
keeps.
-/

namespace RexOS.Smp

open Scheduler Kernel

/-- The kernel without its links, and the places. -/
abbrev Scene := Kernel × (Place → List Nat)

/-- What a routine does on a hart, up to the links, where it wakes up, reaps and steals only
processes in `T`. -/
inductive Call (T : Touch → Nat → Prop) (h : Nat) : Scene → Scene → Prop
  | trigger {s s' : Kernel} {v : Place → List Nat} (hb : s'.bare = (s.trigger h).bare) :
      Call T h (s, v) (s', v)
  | shell {s s' : Kernel} {v : Place → List Nat} (hh : s.started h = true)
      (hb : s'.bare = { s with shellPtr := s.curr h }.bare) : Call T h (s, v) (s', v)
  | pending {s s' : Kernel} {v : Place → List Nat} (pid : Nat)
      (hb : s'.bare = (s.modify (s.curr h) fun p => { p with ipcPendingPid := pid }).bare) :
      Call T h (s, v) (s', v)
  | char {s s' : Kernel} {v : Place → List Nat} (t c : Nat)
      (hb : s'.bare = (s.putChar t c).bare) : Call T h (s, v) (s', v)
  | park {s s' : Kernel} {v : Place → List Nat} (hh : s.started h = true) (w : WaitList)
      (hw : w ≠ .zombie) (hws : w ≠ .sleeping)
      (hrun : (s.procs (s.curr h)).state = .running) (hpid : (s.procs (s.curr h)).pid ≠ 0)
      (hb : s'.bare = ((s.parked (s.curr h) w).trigger h).bare) :
      Call T h (s, v) (s', parkedPlaces s v h (s.curr h) w)
  | sleep {s s' : Kernel} {v : Place → List Nat} (hh : s.started h = true) (ticks : Nat)
      (hrun : (s.procs (s.curr h)).state = .running) (hpid : (s.procs (s.curr h)).pid ≠ 0)
      (hb : s'.bare = (((s.parked (s.curr h) .sleeping).modify (s.curr h) fun p =>
        { p with ticksLeft := ticks }).trigger h).bare) :
      Call T h (s, v) (s', parkedPlaces s v h (s.curr h) .sleeping)
  | exit {s s' : Kernel} {v : Place → List Nat} (hh : s.started h = true)
      (code : Nat) (xs : List Nat)
      (hT : T .exit (s.curr h))
      (hrun : (s.procs (s.curr h)).state = .running) (hpid : (s.procs (s.curr h)).pid ≠ 0)
      (hxs : ∀ a, a ∈ xs ↔ (∃ i < 32, a ∈ parkedPlaces s v h (s.curr h) .zombie (.circle h i)) ∨
        ∃ w, a ∈ parkedPlaces s v h (s.curr h) .zombie (.wait w))
      (hb : s'.bare = (exited s h code xs).bare) :
      Call T h (s, v) (s', parkedPlaces s v h (s.curr h) .zombie)
  | yield {s s' : Kernel} {v : Place → List Nat} (hh : s.started h = true)
      (hrun : (s.procs (s.curr h)).state = .running)
      (hb : s'.bare = ((s.setState (s.curr h) .ready).trigger h).bare) : Call T h (s, v) (s', v)
  | wake {s s' : Kernel} {v : Place → List Nat} (hh : s.started h = true) (t : Nat) (w : WaitList)
      (hT : T .wake t) (hw : w ≠ .zombie) (hws : w ≠ .sleeping) (ht : t ∈ v (.wait w))
      (hfree : ∀ k, s.started k = true → s.curr k = t → k = h)
      (hb : s'.bare = ((woken s h t).preempt h t).bare) :
      Call T h (s, v) (s', wokenPlaces s v h t w)
  | reap {s s' : Kernel} {v : Place → List Nat} (t : Nat) (hT : T .reap t)
      (ht : t ∈ v (.wait .zombie))
      (hcurr : ∀ k, s.started k = true → s.curr k ≠ t) (hb : s'.bare = (reaped s t).bare) :
      Call T h (s, v) (s', reapedPlaces v t)
  | steal {s s' : Kernel} {v : Place → List Nat} (hh : s.started h = true) (t core : Nat)
      (hT : T .steal t)
      (ht : Stealable s v h t core)
      (hidle : s.curr h = (s.queues h).idleProcess)
      (hb : s'.bare =
        ((s.modify t fun p => { p with tf := { p.tf with kernelTp := h } }).trigger h).bare) :
      Call T h (s, v) (s', stolenPlaces s v h t core)
  | spawn {s s' k : Kernel} {v : Place → List Nat} (hh : s.started h = true)
      (new pid priority : Nat)
      (image : Image) (hT : T .spawn new)
      (hrun : (s.procs (s.curr h)).state = .running) (hnew : new ∉ s.existing) (h0 : new ≠ 0)
      (hprio : priority ≤ 30) (halive : s.aliveThreadCounter < pidMax)
      (htake : s.takePid = .done pid k)
      (hk : Taken s pid k) (hb : s'.bare = (born k h new pid image priority).bare) :
      Call T h (s, v) (s', bornPlaces v h new priority)
  | start {s : Kernel} {v : Place → List Nat} (idle : Nat) (hh : s.started h = false)
      (h0 : idle ≠ 0)
      (hidle : idle ∉ s.existing) : Call T h (s, v) (s.smpKmain h idle, startedPlaces v h idle)

/-- A call between settled kernels. -/
def Calls (T : Touch → Nat → Prop) (h : Nat) (x y : Scene) : Prop :=
  Settled x.1 x.2 ∧ Settled y.1 y.2 ∧ Call T h x y

/-- What a software interrupt does to the kernel before it reschedules. -/
inductive Nap (T : Touch → Nat → Prop) (h : Nat) : Scene → Scene → Prop
  | count {s s' : Kernel} {v : Place → List Nat} (t : Nat) (ht : t ∈ v (.wait .sleeping))
      (hlast : ¬ LastTick s t) (hb : s'.bare = (counted s t).bare) : Nap T h (s, v) (s', v)
  | wake {s s' : Kernel} {v : Place → List Nat} (t : Nat) (ht : t ∈ v (.wait .sleeping))
      (hlast : LastTick s t) (hT : T .wake t)
      (hfree : ∀ k, s.started k = true → s.curr k = t → k = h)
      (hb : s'.bare = ((woken (counted s t) h t).curtail h t).bare) :
      Nap T h (s, v) (s', wokenPlaces s v h t .sleeping)
  | alarm {s s' : Kernel} {v : Place → List Nat}
      (hb : s'.bare = { s with emergencyProcess := s'.emergencyProcess }.bare)
      (hem : s'.emergencyProcess = s.emergencyProcess ∨
        ∃ i ≤ 30, s'.emergencyProcess ∈ v (.circle h i)) : Nap T h (s, v) (s', v)

/-- The same between settled kernels. -/
def Naps (T : Touch → Nat → Prop) (h : Nat) (x y : Scene) : Prop :=
  Settled x.1 x.2 ∧ Settled y.1 y.2 ∧ Nap T h x y

variable {T : Touch → Nat → Prop} {s s' k : Kernel} {v v' : Place → List Nat} {h t n pid ptr : Nat}
  {w : WaitList} {l r : List Nat}

/-! ## Single calls -/

/-- Starting the timer changes neither the processes nor who is current. -/
@[simp] theorem curr_trigger (s : Kernel) (h : Nat) : (s.trigger h).curr = s.curr := by
  funext l
  by_cases hl : l = h <;> simp [Kernel.curr, Kernel.trigger, Kernel.onQueue, hl]

@[simp] theorem procs_trigger (s : Kernel) (h : Nat) : (s.trigger h).procs = s.procs := rfl

/-- What a preemption does to the processes. -/
theorem procs_preempt (s : Kernel) (h t a : Nat) : (s.preempt h t).procs a =
    if a = s.curr h ∧ (s.procs t).priority < (s.procs (s.curr h)).priority then
      { s.procs a with ticksLeft := 0 }
    else s.procs a := by
  unfold Kernel.preempt
  by_cases hc : (s.procs t).priority < (s.procs (s.curr h)).priority
  · rw [if_pos hc]
    rw [procs_trigger, procs_modify]
    by_cases ha : a = s.curr h
    · rw [if_pos ha, if_pos ⟨ha, hc⟩, ha]
    · rw [if_neg ha, if_neg fun hac => ha hac.1]
  · rw [if_neg hc, if_neg fun hac => hc hac.2]

/-- A field that is no register, after a character has come. -/
theorem field_putChar {α : Type} (g : Process → α)
    (hg : ∀ x regs, g { x with tf := { x.tf with uContext := regs } } = g x)
    (s : Kernel) (t c a : Nat) : g ((s.putChar t c).procs a) = g (s.procs a) := by
  unfold Kernel.putChar
  rw [procs_modify]
  split
  · rename_i ha
    rw [ha]
    exact hg _ _
  · rfl

/-- The character is in `a0` of the process. -/
theorem register_putChar (s : Kernel) (t c : Nat) :
    ((s.putChar t c).procs t).tf.uContext 10 = c := by
  simp [Kernel.putChar, Kernel.modify]

/-- A field that is no tick, after a preemption. -/
theorem field_preempt {α : Type} (g : Process → α) (hg : ∀ x n, g { x with ticksLeft := n } = g x)
    (s : Kernel) (h t a : Nat) : g ((s.preempt h t).procs a) = g (s.procs a) := by
  rw [procs_preempt]
  split
  · exact hg _ 0
  · rfl

/-- Apart from processes and pending bits, nothing changes. -/
theorem rest_preempt {α : Type} (g : Kernel → α) (hp : ∀ x p, g { x with procs := p } = g x)
    (ht : ∀ x : Kernel, g (x.trigger h) = g x) (s : Kernel) (t : Nat) :
    g (s.preempt h t) = g s := by
  unfold Kernel.preempt
  split
  · exact (ht _).trans (hp s _)
  · rfl

/-- A preemption is in the bare data. -/
theorem bare_preempt (s : Kernel) (h t : Nat) : (s.preempt h t).bare = s.bare.preempt h t := by
  have hcond : (s.bare.procs t).priority < (s.bare.procs (s.bare.curr h)).priority ↔
      (s.procs t).priority < (s.procs (s.curr h)).priority := Iff.rfl
  unfold Kernel.preempt
  by_cases hc : (s.procs t).priority < (s.procs (s.curr h)).priority
  · rw [if_pos hc, if_pos (hcond.mpr hc), bare_trigger, bare_modify s (s.curr h) fun _ => rfl]
    rfl
  · rw [if_neg hc, if_neg fun hb => hc (hcond.mp hb)]

/-- A preemption keeps the state settled. -/
theorem Settled.preempt (hs : Settled s v) (h t : Nat) : Settled (s.preempt h t) v := by
  unfold Kernel.preempt
  split
  · let f : Process → Process := fun p => { p with ticksLeft := 0 }
    have hs₁ : Settled (s.modify (s.curr h) f) v :=
      hs.modify (s.curr h) (fun _ => ⟨rfl, rfl, rfl, rfl⟩) (fun _ => ⟨rfl, rfl⟩) fun _ => ⟨rfl, rfl⟩
    exact (hs₁.trigger h).1
  · exact hs

/-- A system call that wakes a process is one call. -/
theorem Settled.wakes (hs : Settled s v) (hh : s.started h = true) (hT : T .wake t)
    (ht : t ∈ s.existing)
    (hst : (s.procs t).state = w.state) (hw : w ≠ .zombie) (hws : w ≠ .sleeping)
    (hfree : ∀ k, s.started k = true → s.curr k = t → k = h) :
    ∃ s', (s.unpark h t w).bind (fun _ k => .done () (k.preempt h t)) = .done () s' ∧
      s'.bare = ((woken s h t).preempt h t).bare ∧
        Calls T h (s, v) (s', wokenPlaces s v h t w) := by
  obtain ⟨s₁, hrun, hs₁, hb, -⟩ := hs.unpark hh ht hst hfree
  have hbare : (s₁.preempt h t).bare = ((woken s h t).preempt h t).bare := by
    rw [bare_preempt, hb, ← bare_preempt]
  exact ⟨s₁.preempt h t, by rw [hrun, Outcome.bind_done], hbare, hs, hs₁.preempt h t,
    .wake hh t w hT hw hws (hs.mem_wait ht hst) hfree hbare⟩

/-- So is one that parks the caller. -/
theorem Settled.parks (hs : Settled s v) (hh : s.started h = true)
    (hrun : (s.procs (s.curr h)).state = .running) (hpid : (s.procs (s.curr h)).pid ≠ 0)
    (hw : w ≠ .zombie) (hws : w ≠ .sleeping) :
    ∃ s', (s.park h (s.curr h) w).bind (fun _ k => .done () (k.trigger h)) = .done () s' ∧
      Calls T h (s, v) (s', parkedPlaces s v h (s.curr h) w) := by
  obtain ⟨s₁, hpark, hs₁, hb, -⟩ := hs.park hh (Or.inr hrun) hpid w
  refine ⟨s₁.trigger h, by rw [hpark, Outcome.bind_done], hs, (hs₁.trigger h).1,
    .park hh w hw hws hrun hpid ?_⟩
  rw [bare_trigger, hb, ← bare_trigger]

/-- So is `sleep_process`, with the ticks to sleep. -/
theorem Settled.sleeps (hs : Settled s v) (hh : s.started h = true)
    (hrun : (s.procs (s.curr h)).state = .running) (hpid : (s.procs (s.curr h)).pid ≠ 0)
    (ticks : Nat) :
    ∃ s', s.sleepProcess h (s.curr h) ticks = .done () s' ∧
      s'.bare = (((s.parked (s.curr h) .sleeping).modify (s.curr h) fun p =>
        { p with ticksLeft := ticks }).trigger h).bare ∧
      Calls T h (s, v) (s', parkedPlaces s v h (s.curr h) .sleeping) := by
  obtain ⟨s₁, hpark, hs₁, hb, -⟩ := hs.park hh (Or.inr hrun) hpid .sleeping
  let f : Process → Process := fun p => { p with ticksLeft := ticks }
  have hs₂ : Settled (s₁.modify (s.curr h) f) (parkedPlaces s v h (s.curr h) .sleeping) :=
    hs₁.modify _ (fun _ => ⟨rfl, rfl, rfl, rfl⟩) (fun _ => ⟨rfl, rfl⟩) fun _ => ⟨rfl, rfl⟩
  have hbare : ((s₁.modify (s.curr h) f).trigger h).bare =
      (((s.parked (s.curr h) .sleeping).modify (s.curr h) f).trigger h).bare := by
    rw [bare_trigger, bare_trigger, bare_modify _ _ fun _ => rfl, bare_modify _ _ fun _ => rfl, hb]
  refine ⟨(s₁.modify (s.curr h) f).trigger h, ?_, hbare, hs, (hs₂.trigger h).1,
    .sleep hh ticks hrun hpid hbare⟩
  rw [sleepProcess, hpark, Outcome.bind_done]

/-- So is `exit_process`. -/
theorem Settled.exits (hs : Settled s v) (hh : s.started h = true) (hT : T .exit (s.curr h))
    (hrun : (s.procs (s.curr h)).state = .running) (hpid : (s.procs (s.curr h)).pid ≠ 0)
    (code : Nat) :
    ∃ s', s.exitProcess h code = .done () s' ∧
      Calls T h (s, v) (s', parkedPlaces s v h (s.curr h) .zombie) := by
  obtain ⟨s', xs, hexit, hs', hb, -, hxs⟩ := hs.exitProcess hh (Or.inr hrun) hpid code
  exact ⟨s', hexit, hs, hs', .exit hh code xs hT hrun hpid hxs hb⟩

/-- So is `yield_process`. -/
theorem Settled.yields (hs : Settled s v) (hh : s.started h = true)
    (hrun : (s.procs (s.curr h)).state = .running) : Calls T h (s, v) (s.yieldProcess h, v) :=
  ⟨hs, ((hs.setReady hrun).1.trigger h).1, .yield hh hrun rfl⟩

/-- So is starting the timer. -/
theorem Settled.triggers (hs : Settled s v) (h : Nat) : Calls T h (s, v) (s.trigger h, v) :=
  ⟨hs, (hs.trigger h).1, .trigger rfl⟩

/-- So is reaping a zombie that no hart runs. -/
theorem Settled.reaps (hs : Settled s v) (h : Nat) (hT : T .reap t) (ht : t ∈ v (.wait .zombie))
    (hcurr : ∀ k, s.started k = true → s.curr k ≠ t) :
    Calls T h (s, v) (s.reap t, reapedPlaces v t) :=
  ⟨hs, hs.reap ht hcurr, .reap t hT ht hcurr (bare_reap s t)⟩

/-! ## Loops -/

/-- Senders that wait for `pid` are woken until there are none. -/
theorem Settled.wakeSenders (hs : Settled s v) (hh : s.started h = true)
    (hn : (v (.wait .blockedIpcSend)).length < n)
    (hfree : ∀ t ∈ v (.wait .blockedIpcSend), (s.procs t).ipcPendingPid = pid →
      T .wake t ∧ ∀ k, s.started k = true → s.curr k = t → k = h) :
    ∃ s' v', Kernel.wakeSenders h pid n s = .done () s' ∧
      Relation.ReflTransGen (Calls T h) (s, v) (s', v') := by
  induction n generalizing s v with
  | zero => exact absurd hn (Nat.not_lt_zero _)
  | succ n ih =>
    have hfind : s.findSender pid (s.existing.length + 1) (s.heads .blockedIpcSend) = _ :=
      Ipc.findSender_eq pid (hs.threaded.dll .blockedIpcSend).seg
        (Nat.lt_succ_of_le (hs.length_le _))
    rw [Kernel.wakeSenders, hfind, Outcome.bind_done]
    cases hz : (v (.wait .blockedIpcSend)).find? fun a => (s.procs a).ipcPendingPid == pid with
    | none => exact ⟨s, v, if_pos rfl, .refl⟩
    | some z =>
      have hzv : z ∈ v (.wait .blockedIpcSend) := List.mem_of_find?_eq_some hz
      have hzp : (s.procs z).ipcPendingPid = pid := by simpa using List.find?_some hz
      have hz0 : z ≠ 0 := (hs.threaded.dll .blockedIpcSend).ne_nil z hzv
      obtain ⟨hT, hz⟩ := hfree z hzv hzp
      obtain ⟨s₁, hrun, hb, hcall⟩ := hs.wakes (w := .blockedIpcSend) hh hT (hs.mem_existing hzv)
        (hs.valid.wait hzv).1 (by simp) (by simp) hz
      have hplaces : wokenPlaces s v h z .blockedIpcSend (.wait .blockedIpcSend) =
          (v (.wait .blockedIpcSend)).erase z := by
        rw [wokenPlaces, Function.update_of_ne (by simp), Function.update_self]
      have hsame : s₁.started = s.started ∧ s₁.curr = s.curr ∧
          ∀ a, (s₁.procs a).ipcPendingPid = (s.procs a).ipcPendingPid := by
        refine ⟨(field_bare Kernel.started (fun _ => rfl) hb).trans ?_,
          (field_bare Kernel.curr (fun _ => rfl) hb).trans ?_, fun a => ?_⟩
        · exact rest_preempt Kernel.started (fun _ _ => rfl) (fun _ => rfl) (woken s h z) z
        · exact rest_preempt Kernel.curr (fun _ _ => rfl) (fun x => curr_trigger x h)
            (woken s h z) z
        · have hp := field_bare (fun x => (x.procs a).ipcPendingPid) (fun _ => rfl) hb
          rw [hp, field_preempt Process.ipcPendingPid fun _ _ => rfl]
          exact field_woken Process.ipcPendingPid (fun _ _ _ => rfl) s h z a
      obtain ⟨hst, hc, hp⟩ := hsame
      obtain ⟨s₂, v₂, hrun', hcalls⟩ := ih hcall.2.1 (by rw [hst]; exact hh) (by
          show (wokenPlaces s v h z .blockedIpcSend (.wait .blockedIpcSend)).length < n
          rw [hplaces, List.length_erase_of_mem hzv]
          have hpos := List.length_pos_of_mem hzv
          omega) fun t ht htp => by
        have ht' : t ∈ (v (.wait .blockedIpcSend)).erase z := hplaces ▸ ht
        rw [hp] at htp
        rw [hst, hc]
        exact hfree t (List.mem_of_mem_erase ht') htp
      refine ⟨s₂, v₂, ?_, .head hcall hcalls⟩
      rw [Option.getD_some, if_neg hz0, unblockIpcSendProcess, hrun, Outcome.bind_done]
      exact hrun'

/-- Orphans on the zombie list are reaped one after the other, unless the kernel stops. -/
theorem Settled.orphanCleanerFrom (hs : Settled s v) (hv : v (.wait .zombie) = l ++ r)
    (hcurr : ∀ t ∈ v (.wait .zombie), (s.procs t).parentPid = 0 →
      T .reap t ∧ ∀ k, s.started k = true → s.curr k ≠ t)
    (hrun : Kernel.orphanCleanerFrom n (r.head?.getD 0) s = .done () s') :
    ∃ v', Relation.ReflTransGen (Calls T h) (s, v) (s', v') := by
  induction n generalizing s v l r with
  | zero => exact absurd hrun (by simp [Kernel.orphanCleanerFrom])
  | succ n ih =>
    cases r with
    | nil =>
      rw [List.head?_nil, Option.getD_none, Kernel.orphanCleanerFrom, if_pos rfl] at hrun
      cases hrun
      exact ⟨v, .refl⟩
    | cons x r =>
      have hx : x ∈ v (.wait .zombie) := by
        rw [hv]
        exact List.mem_append_right _ List.mem_cons_self
      have hdll := hs.threaded.dll .zombie
      rw [hv] at hdll
      have hnext : (s.procs x).next = r.head?.getD 0 := hdll.seg.around.2
      have hx0 : x ≠ 0 := hdll.ne_nil x (List.mem_append_right _ List.mem_cons_self)
      have hxl : x ∉ l := fun hm =>
        (List.nodup_append.mp hdll.nodup).2.2 x hm x List.mem_cons_self rfl
      rw [List.head?_cons, Option.getD_some, Kernel.orphanCleanerFrom, if_neg hx0] at hrun
      dsimp only at hrun
      rw [hnext] at hrun
      split at hrun
      · rename_i hparent
        split at hrun
        · exact absurd hrun (by simp)
        · have hcall := hs.reaps h (hcurr x hx hparent).1 hx (hcurr x hx hparent).2
          have hb := bare_reap s x
          have hv₁ : reapedPlaces v x (.wait .zombie) = l ++ r := by
            rw [reapedPlaces, Function.update_self, hv, List.erase_append_right _ hxl,
              List.erase_cons_head]
          have hcurr₁ : ∀ t ∈ reapedPlaces v x (.wait .zombie), ((s.reap x).procs t).parentPid = 0 →
              T .reap t ∧ ∀ k, (s.reap x).started k = true → (s.reap x).curr k ≠ t := by
            intro t ht htp
            have hparent' : ((s.reap x).procs t).parentPid = (s.procs t).parentPid :=
              (field_bare (fun k => (k.procs t).parentPid) (fun _ => rfl) hb).trans rfl
            have hst : (s.reap x).started = s.started :=
              (field_bare Kernel.started (fun _ => rfl) hb).trans rfl
            have hc : (s.reap x).curr = s.curr :=
              (field_bare Kernel.curr (fun _ => rfl) hb).trans rfl
            rw [hparent'] at htp
            rw [hst, hc]
            refine hcurr t ?_ htp
            rw [hv₁] at ht
            rw [hv]
            exact (List.mem_append.mp ht).elim (List.mem_append_left _)
              fun hm => List.mem_append_right _ (List.mem_cons_of_mem _ hm)
          obtain ⟨v', hcalls⟩ := ih hcall.2.1 hv₁ hcurr₁ hrun
          exact ⟨v', .head hcall hcalls⟩
      · have hv₁ : v (.wait .zombie) = (l ++ [x]) ++ r := by
          rw [hv, List.append_assoc]
          rfl
        exact ih hs hv₁ hcurr hrun

/-- `orphan_cleaner` is some calls that reap. -/
theorem Settled.orphanCleaner (hs : Settled s v)
    (hfree : ∀ t ∈ v (.wait .zombie), (s.procs t).parentPid = 0 →
      T .reap t ∧ ∀ k, s.started k = true → s.curr k ≠ t)
    (hrun : s.orphanCleaner = .done () s') :
    ∃ v', Relation.ReflTransGen (Calls T h) (s, v) (s', v') := by
  have hhead : s.heads .zombie = (v (.wait .zombie)).head?.getD 0 :=
    (hs.threaded.dll .zombie).seg.head_eq
  unfold Kernel.orphanCleaner at hrun
  rw [hhead] at hrun
  exact hs.orphanCleanerFrom (l := []) rfl hfree hrun

/-! ## The state between events -/

/-- What is known where no hart is in a handler. -/
structure Aware (s : Kernel) : Prop where
  /-- Where no software interrupt is pending, the current process is running. -/
  runs : ∀ h, s.started h = true → (s.queues h).ssip = false → (s.procs (s.curr h)).state = .running
  /-- A blocked process that `shell_ptr` names exists. -/
  shell : s.shellPtr ≠ 0 → (s.procs s.shellPtr).state = .blocked → s.shellPtr ∈ s.existing

/-- What holds between two events. -/
structure Steady (s : Kernel) (v : Place → List Nat) : Prop extends Aware s where
  settled : Settled s v

/-- A new shell pointer is one call. -/
theorem Settled.shells (hs : Settled s v) (hh : s.started h = true) :
    Calls T h (s, v) ({ s with shellPtr := s.curr h }, v) := by
  refine ⟨hs, hs.rearranged ?_ (Same.rest rfl) (fun _ => Iff.rfl) hs.valid, .shell hh rfl⟩
  refine hs.threaded.congr rfl rfl ?_ (fun _ _ _ => rfl) rfl
  funext q
  cases q <;> rfl

/-- So is the pid a sender waits for. -/
theorem Settled.pends (hs : Settled s v) (h pid : Nat) :
    Calls T h (s, v) (s.modify (s.curr h) fun p => { p with ipcPendingPid := pid }, v) :=
  ⟨hs, hs.modify (f := fun p => { p with ipcPendingPid := pid }) (s.curr h)
    (fun _ => ⟨rfl, rfl, rfl, rfl⟩) (fun _ => ⟨rfl, rfl⟩) fun _ => ⟨rfl, rfl⟩, .pending pid rfl⟩

/-- So is a character for a reader. -/
theorem Settled.chars (hs : Settled s v) (h t c : Nat) :
    Calls T h (s, v) (s.putChar t c, v) :=
  ⟨hs, hs.modify (f := fun p =>
      { p with tf := { p.tf with uContext := Function.update p.tf.uContext 10 c } }) t
    (fun _ => ⟨rfl, rfl, rfl, rfl⟩) (fun _ => ⟨rfl, rfl⟩) fun _ => ⟨rfl, rfl⟩, .char t c rfl⟩

variable {m m' : Machine} {e : Event}

/-- What a message call does. -/
theorem Steady.message (hm : Steady m.kernel v) {c : Syscall} (he : m.Enabled (.syscall h c))
    (hc : m.Careful (.syscall h c)) (hrun : m.exec (.syscall h c) = .done () m') :
    ∃ v', Relation.ReflTransGen (Calls (m.Touches (.syscall h c)) h) (m.kernel, v)
      (m'.kernel, v') := by
  obtain ⟨hh, hssip, hpid, htarget⟩ := he
  have hs := hm.settled
  have hrunning := hm.runs h hh hssip
  have hfree : ∀ {t : Nat} {c' : Touch}, t ∈ m.kernel.existing →
      c' ∈ [Touch.wake, .reap, .steal] → m.Touches (.syscall h c) c' t →
      ∀ k, m.kernel.started k = true → m.kernel.curr k = t → k = h := fun ht hc' hT k hk he =>
    hc.1 _ ht _ hc' hT k (hs.range k hk) hk he
  have hone : ∀ {o : Outcome Kernel Unit},
      (∃ s' v', o = .done () s' ∧ Calls (m.Touches (.syscall h c)) h (m.kernel, v) (s', v')) →
      o.within m.withKernel = .done () m' →
      ∃ v', Relation.ReflTransGen (Calls (m.Touches (.syscall h c)) h) (m.kernel, v)
        (m'.kernel, v') := by
    rintro o ⟨s', v', ho, hcall⟩ hdone
    obtain ⟨k, hk, rfl⟩ := Outcome.within_eq_done.mp hdone
    cases ho.symm.trans hk
    exact ⟨v', .single hcall⟩
  cases c with
  | getc =>
    change m.getc h = _ at hrun
    unfold Machine.getc at hrun
    dsimp only at hrun
    split at hrun
    · cases hrun
      have hshell := hs.shells (T := m.Touches (.syscall h .getc)) hh
      exact ⟨v, .tail (.single hshell) (hshell.2.1.chars h _ _)⟩
    · obtain ⟨k, hk, rfl⟩ := Outcome.within_eq_done.mp hrun
      have hshell := hs.shells (T := m.Touches (.syscall h .getc)) hh
      obtain ⟨s', hpark, hcall⟩ :=
        hshell.2.1.parks (w := .blocked) hh hrunning hpid (by simp) (by simp)
      cases hk.symm.trans hpark
      exact ⟨_, .tail (.single hshell) hcall⟩
  | exit code =>
    obtain ⟨s', hexit, hcall⟩ :=
      hs.exits (T := m.Touches (.syscall h (.exit code))) hh List.mem_cons_self hrunning
      hpid code
    exact hone ⟨s', _, hexit, hcall⟩ hrun
  | yield =>
    cases hrun
    exact ⟨v, .single (hs.yields hh hrunning)⟩
  | sleep ticks =>
    obtain ⟨s', hsleep, -, hcall⟩ := hs.sleeps hh hrunning hpid (ticks % 2 ^ 32)
    exact hone ⟨s', _, hsleep, hcall⟩ hrun
  | wait =>
    obtain ⟨a, m₁, hwait, hdone⟩ := Outcome.bind_eq_done.mp hrun
    cases hdone
    obtain ⟨k, hk, rfl⟩ := Outcome.within_eq_done.mp hwait
    rcases hs.waitProcess (h := h) with ⟨n, hnone, -⟩ | ⟨n, t, hsome, ht, -, hfind⟩
    · cases hnone.symm.trans hk
      exact ⟨v, .refl⟩
    · cases hsome.symm.trans hk
      have hT : m.Touches (.syscall h .wait) .reap t := by
        refine List.mem_filter.mpr ⟨List.mem_singleton.mpr ?_,
          decide_eq_true (hs.nonzero (hs.mem_existing ht))⟩
        unfold child
        rw [hfind]
      refine ⟨_, .single (hs.reaps h hT ht fun l hl he => ?_)⟩
      obtain rfl := hfree (hs.mem_existing ht) (by simp) hT l hl he
      have hst : (m.kernel.procs t).state = .zombie := (hs.valid.wait ht).1
      rw [← he, hrunning] at hst
      exact absurd hst (by simp)
  | sendMsg c =>
    cases c with
    | badPointer =>
      obtain ⟨s', hexit, hcall⟩ := hs.exits (T := m.Touches (.syscall h (.sendMsg .badPointer))) hh
        List.mem_cons_self hrunning hpid Ipc.minusOne
      exact hone ⟨s', _, hexit, hcall⟩ hrun
    | refused =>
      cases hrun
      exact ⟨v, .refl⟩
    | empty target =>
      change m.sendMsg h (.empty target) = _ at hrun
      unfold Machine.sendMsg at hrun
      dsimp only at hrun
      split at hrun
      · rename_i hst
        have hT : m.Touches (.syscall h (.sendMsg (.empty target))) .wake target :=
          List.mem_filter.mpr ⟨List.mem_cons_self, decide_eq_true hst⟩
        obtain ⟨s', hwake, -, hcall⟩ :=
          hs.wakes (w := .blockedIpc) hh hT htarget hst (by simp) (by simp)
          (hfree htarget (by simp) hT)
        exact hone ⟨s', _, hwake, hcall⟩ hrun
      · cases hrun
        exact ⟨v, .refl⟩
    | full target =>
      obtain ⟨k, hk, rfl⟩ := Outcome.within_eq_done.mp hrun
      have hpend := hs.pends (T := m.Touches (.syscall h (.sendMsg (.full target)))) h
        (m.kernel.procs target).pid
      let f : Process → Process := fun p => { p with ipcPendingPid := (m.kernel.procs target).pid }
      have hcurr :
        ((m.kernel.modify (m.kernel.curr h) f).procs (m.kernel.curr h)).state = .running ∧
          ((m.kernel.modify (m.kernel.curr h) f).procs (m.kernel.curr h)).pid ≠ 0 := by
        rw [procs_modify, if_pos rfl]
        exact ⟨hrunning, hpid⟩
      obtain ⟨s', hpark, hcall⟩ :=
        hpend.2.1.parks (w := .blockedIpcSend) hh hcurr.1 hcurr.2 (by simp)
        (by simp)
      cases hk.symm.trans hpark
      exact ⟨_, .tail (.single hpend) hcall⟩
  | recvMsg c =>
    cases c with
    | badPointer =>
      obtain ⟨s', hexit, hcall⟩ := hs.exits (T := m.Touches (.syscall h (.recvMsg .badPointer))) hh
        List.mem_cons_self hrunning hpid Ipc.minusOne
      exact hone ⟨s', _, hexit, hcall⟩ hrun
    | empty =>
      obtain ⟨s', hpark, hcall⟩ := hs.parks (w := .blockedIpc) hh hrunning hpid (by simp) (by simp)
      exact hone ⟨s', _, hpark, hcall⟩ hrun
    | full =>
      obtain ⟨k, hk, rfl⟩ := Outcome.within_eq_done.mp hrun
      obtain ⟨s', v', hwake, hcalls⟩ := hs.wakeSenders
        (T := m.Touches (.syscall h (.recvMsg .full))) (n := m.kernel.existing.length + 1) hh
        (Nat.lt_succ_of_le (hs.length_le _)) fun t ht htp => by
          have hex := hs.mem_existing ht
          have hst : (m.kernel.procs t).state = .sendBlocked := (hs.valid.wait ht).1
          have hT : m.Touches (.syscall h (.recvMsg .full)) .wake t :=
            List.mem_filter.mpr ⟨hex, decide_eq_true ⟨hst, htp⟩⟩
          exact ⟨hT, hfree hex (by simp) hT⟩
      cases hk.symm.trans hwake
      exact ⟨v', hcalls⟩

/-- Whatever happens on a hart but a software interrupt is a sequence of calls. -/
theorem Steady.calls (hm : Steady m.kernel v) (he : m.Enabled e) (hc : m.Careful e)
    (hne : ∀ h, e ≠ .softInterrupt h) (hrun : m.exec e = .done () m') :
    ∃ v', Relation.ReflTransGen (Calls (m.Touches e) e.hart) (m.kernel, v) (m'.kernel, v') := by
  have hs := hm.settled
  cases e with
  | start h idle =>
    obtain ⟨hlt, hh, h0, hidle⟩ := he
    cases hrun
    exact ⟨_, .single ⟨hs, hs.smpKmain hh hlt h0 hidle, .start idle hh h0 hidle⟩⟩
  | spawn h new image priority =>
    obtain ⟨hh, hnew, hprio, hrunning⟩ := he
    obtain ⟨a, m₁, hspawn, hdone⟩ := Outcome.bind_eq_done.mp hrun
    cases hdone
    obtain ⟨k, hk, rfl⟩ := Outcome.within_eq_done.mp hspawn
    rcases hs.spawnProcess hh hnew hprio hk with rfl | ⟨pid, k', h0, halive, htake, htaken, hs', hb⟩
    · exact ⟨v, .refl⟩
    · exact ⟨_,
        .single ⟨hs, hs', .spawn hh new pid priority image List.mem_cons_self hrunning hnew h0 hprio
          halive htake htaken hb⟩⟩
  | timer h =>
    cases hrun
    exact ⟨v, .single (hs.triggers h)⟩
  | softInterrupt h => exact absurd rfl (hne h)
  | external h irq c =>
    change m.external h irq c = _ at hrun
    unfold Machine.external at hrun
    split at hrun
    · rename_i hirq
      split at hrun
      · rename_i hshell
        have hex := hm.shell hshell.1 hshell.2
        have hT : m.Touches (.external h irq c) .wake m.kernel.shellPtr :=
          List.mem_filter.mpr ⟨List.mem_cons_self, decide_eq_true ⟨hirq, hshell⟩⟩
        have hchar := hs.chars (T := m.Touches (.external h irq c)) h m.kernel.shellPtr c
        have hblocked : ((m.kernel.putChar m.kernel.shellPtr c).procs m.kernel.shellPtr).state =
            .blocked := (field_putChar Process.state (fun _ _ => rfl) _ _ _ _).trans hshell.2
        obtain ⟨s', hwake, -, hcall⟩ :=
          hchar.2.1.wakes (w := .blocked) he hT hex hblocked (by simp) (by simp)
          fun l hl he => hc.1 _ hex .wake (by simp) hT l (hs.range l hl) hl he
        obtain ⟨k, hk, rfl⟩ := Outcome.within_eq_done.mp hrun
        cases hwake.symm.trans hk
        exact ⟨_, .tail (.single hchar) hcall⟩
      · cases hrun
        exact ⟨v, .refl⟩
    · cases hrun
      exact ⟨v, .refl⟩
  | syscall h c => exact hm.message he hc hrun
  | steal h =>
    obtain ⟨hh, hidle⟩ := he
    obtain ⟨a, m₁, hsteal, hdone⟩ := Outcome.bind_eq_done.mp hrun
    obtain ⟨k, hk, rfl⟩ := Outcome.within_eq_done.mp hsteal
    rcases hs.stealProcess hh with hnone | ⟨t, core, hfind, ht, hsome, hs', hb, -⟩
    · cases hnone.symm.trans hk
      rw [if_neg (by simp)] at hdone
      cases hdone
      exact ⟨v, .refl⟩
    · cases hsome.symm.trans hk
      rw [if_pos rfl] at hdone
      cases hdone
      refine ⟨_, .single ⟨hs, (hs'.trigger h).1, .steal hh t core ?_ ht hidle ?_⟩⟩
      · refine List.mem_filter.mpr ⟨List.mem_singleton.mpr ?_, decide_eq_true hfind.2⟩
        unfold victim
        rw [hfind.1]
      · show ((m.kernel.moveOver h t core).trigger h).bare = _
        rw [bare_trigger, bare_trigger, hb]
  | clean =>
    obtain ⟨k, hk, rfl⟩ := Outcome.within_eq_done.mp hrun
    refine hs.orphanCleaner (fun t ht htp => ?_) hk
    have hex := hs.mem_existing ht
    have hT : m.Touches .clean .reap t :=
      List.mem_filter.mpr ⟨hex, decide_eq_true ⟨(hs.valid.wait ht).1, htp⟩⟩
    refine ⟨hT, fun l hl hlt => ?_⟩
    obtain rfl : l = 0 := hc.1 t hex .reap (by simp) hT l (hs.range l hl) hl hlt
    have hidle : m.kernel.curr 0 ∈ v (.circle 0 31) := he.2 ▸ (hs.valid.idle he.1).1
    rw [hlt] at hidle
    exact absurd (hs.valid.apart ht hidle) (by simp)

/-! ## Software interrupts -/

/-- A tick keeps the state settled. -/
theorem Settled.tick (hs : Settled s v) (h : Nat) : Settled (s.tick h) v :=
  (hs.setSsip h false).1.modify (f :=
    fun p => { p with cpuTime := p.cpuTime + 1, ticksLeft := p.ticksLeft - 1 })
    _ (fun _ => ⟨rfl, rfl, rfl, rfl⟩) (fun _ => ⟨rfl, rfl⟩) fun _ => ⟨rfl, rfl⟩

/-- It changes the slice and the time of the current process. -/
theorem procs_tick (s : Kernel) (h a : Nat) : (s.tick h).procs a =
    if a = s.curr h then
      { s.procs a with cpuTime := (s.procs a).cpuTime + 1, ticksLeft := (s.procs a).ticksLeft - 1 }
    else s.procs a := by
  refine (procs_modify _ (s.curr h) a _).trans ?_
  by_cases ha : a = s.curr h
  · rw [if_pos ha, if_pos ha, ha]
    rfl
  · rw [if_neg ha, if_neg ha]
    rfl

@[simp] theorem curr_tick (s : Kernel) (h : Nat) : (s.tick h).curr = s.curr := by
  funext l
  by_cases hl : l = h <;> simp [Kernel.curr, Kernel.tick, Kernel.modify, Kernel.onQueue, hl]

/-- The sleepers are counted one after the other. -/
theorem Settled.updateSleepList (hs : Settled s v) (hh : s.started h = true)
    (hw : Wakeable (T .wake) s h (v (.wait .sleeping))) :
    ∃ s' v', s.updateSleepList h = .done () s' ∧
      s'.bare = (nappedAll h s (v (.wait .sleeping))).bare ∧
      Relation.ReflTransGen (Naps T h) (s, v) (s', v') := by
  have hhead : s.heads .sleeping = (v (.wait .sleeping)).head?.getD 0 :=
    (hs.threaded.dll .sleeping).seg.head_eq
  have hstep :
    ∀ {s₁ : Kernel} {v₁ : Place → List Nat} {s₂ : Kernel} {v₂ : Place → List Nat} (t : Nat),
      Settled s₁ v₁ → s₁.started h = true → t ∈ v₁ (.wait .sleeping) →
      Relation.ReflTransGen (Naps T h) (s, v) (s₁, v₁) → Settled s₂ v₂ →
        Napped (T .wake) h t s₁ v₁ s₂ v₂ →
      Relation.ReflTransGen (Naps T h) (s, v) (s₂, v₂) := by
    intro s₁ v₁ s₂ v₂ t hs₁ _ ht hI hs₂ hnap
    refine hI.tail ⟨hs₁, hs₂, ?_⟩
    obtain ⟨hb, hv, hfree⟩ := hnap
    by_cases hlast : LastTick s₁ t
    · rw [if_pos hlast] at hv
      rw [napped, if_pos hlast] at hb
      subst hv
      exact .wake t ht hlast (hfree hlast).1 (hfree hlast).2 hb
    · rw [if_neg hlast] at hv
      rw [napped, if_neg hlast] at hb
      subst hv
      exact .count t ht hlast hb
  unfold Kernel.updateSleepList
  rw [hhead]
  obtain ⟨s', v', hrun, -, hb, hnaps⟩ :=
    hs.updateSleepListFrom (l := []) (n := s.existing.length + 1)
    (I := fun s' v' => Relation.ReflTransGen (Naps T h) (s, v) (s', v')) rfl
    (Nat.lt_succ_of_le (hs.length_le _)) hw hh .refl hstep
  exact ⟨s', v', hrun, hb, hnaps⟩

/-- A dispatch, up to the links. -/
structure Dispatched (h x : Nat) (s : Kernel) (v : Place → List Nat) (s' : Kernel) : Prop where
  before : Settled s v
  after : Settled s' (rotated s h v)
  bare : s'.bare = (dispatched s h x).bare
  chosen : Chosen s.emergencyProcess (rotated s h v) h x
  ready : ((refilled s h).procs x).state = .ready

/-- A software interrupt up to the choice whether to reschedule. -/
structure Prepared (m : Machine) (h : Nat) (v : Place → List Nat) (m₁ : Machine)
    (v₁ : Place → List Nat) : Prop where
  run : m.beforeSchedule h = .done () m₁
  ticked : Settled (m.kernel.tick h) v
  bare : m₁.kernel.bare = { nappedAll h (m.kernel.tick h) (v (.wait .sleeping)) with
    emergencyProcess := m₁.kernel.emergencyProcess }.bare
  naps : Relation.ReflTransGen (Naps (m.Touches (.softInterrupt h)) h) (m.kernel.tick h,
    v) (m₁.kernel, v₁)

/-- What every step leaves settled, a series of steps does. -/
theorem Relation.settled {R : Scene → Scene → Prop} (hR : ∀ x y, R x y → Settled y.1 y.2)
    {x y : Scene} (hx : Settled x.1 x.2) (hxy : Relation.ReflTransGen R x y) : Settled y.1 y.2 := by
  cases hxy with
  | refl => exact hx
  | tail _ hlast => exact hR _ _ hlast

/-- Apart from processes, nothing changes. -/
theorem rest_curtail {α : Type} (g : Kernel → α) (hp : ∀ x p, g { x with procs := p } = g x)
    (s : Kernel) (h t : Nat) : g (s.curtail h t) = g s := by
  unfold Kernel.curtail
  split
  · exact hp s _
  · rfl

/-- A nap changes processes and the emergency process only. -/
theorem Nap.rest {α : Type} (g : Kernel → α) (hg : ∀ x : Kernel, g x.bare = g x)
    (hp : ∀ x p, g { x with procs := p } = g x)
    (he : ∀ x a, g { x with emergencyProcess := a } = g x)
    (hn : Nap T h (s, v) (s', v')) : g s' = g s := by
  cases hn with
  | count t ht hlast hb => exact (field_bare g hg hb).trans (hp s _)
  | wake t ht hlast hT hfree hb =>
    refine (field_bare g hg hb).trans ((rest_curtail g hp _ h t).trans ?_)
    exact (hp _ _).trans ((hp _ _).trans (hp s _))
  | alarm hb hem => exact (field_bare g hg hb).trans (he s _)

/-- The walk over the sleepers leaves the rest of the kernel alone. -/
theorem Naps.rest {α : Type} (g : Kernel → α) (hg : ∀ x : Kernel, g x.bare = g x)
    (hp : ∀ x p, g { x with procs := p } = g x)
    (he : ∀ x a, g { x with emergencyProcess := a } = g x)
    {x y : Scene} (hn : Relation.ReflTransGen (Naps T h) x y) : g y.1 = g x.1 := by
  induction hn with
  | refl => rfl
  | tail _ hlast ih => exact (hlast.2.2.rest g hg hp he).trans ih

/-- The harts and their processes are the same as when the interrupt came. -/
theorem Prepared.rest {α : Type} (g : Kernel → α) (hg : ∀ x : Kernel, g x.bare = g x)
    (hp : ∀ x p, g { x with procs := p } = g x)
    (he : ∀ x a, g { x with emergencyProcess := a } = g x)
    (ht : g (m.kernel.tick h) = g m.kernel) {m₁ : Machine} {v₁ : Place → List Nat}
    (hp₁ : Prepared m h v m₁ v₁) : g m₁.kernel = g m.kernel :=
  (Naps.rest g hg hp he hp₁.naps).trans ht

/-- The state before the dispatch is settled. -/
theorem Prepared.settled {m₁ : Machine} {v₁ : Place → List Nat} (hp : Prepared m h v m₁ v₁) :
    Settled m₁.kernel v₁ := Relation.settled (fun _ _ hn => hn.2.1) hp.ticked hp.naps

/-- What the tick does before the dispatch goes through. -/
theorem Settled.beforeSchedule (hs : Settled m.kernel v) (hh : m.kernel.started h = true)
    (hfree : ∀ t ∈ m.kernel.existing, ∀ c ∈ [Touch.wake, .reap, .steal],
      m.Touches (.softInterrupt h) c t → Free m.kernel h t) :
    ∃ m₁ v₁, Prepared m h v m₁ v₁ := by
  have ht := hs.tick h
  have hw :
      Wakeable (m.Touches (.softInterrupt h) .wake) (m.kernel.tick h) h (v (.wait .sleeping)) := by
    intro t htv hlast
    have hex := hs.mem_existing htv
    have hst : (m.kernel.procs t).state = .sleeping := (hs.valid.wait htv).1
    rw [curr_tick]
    have hT : m.Touches (.softInterrupt h) .wake t :=
      List.mem_filter.mpr ⟨hex, decide_eq_true ⟨hst, hlast⟩⟩
    exact ⟨hT, fun k hk hkt => hfree t hex .wake (by simp) hT k (hs.range k hk) hk hkt⟩
  obtain ⟨s₁, v₁, hrun, hb₁, hnaps⟩ := ht.updateSleepList hh hw
  have hraised :
    ∀ {s₂ : Kernel}, s₂.bare = { s₁ with emergencyProcess := s₂.emergencyProcess }.bare →
      s₂.bare = { nappedAll h (m.kernel.tick h) (v (.wait .sleeping)) with
        emergencyProcess := s₂.emergencyProcess }.bare := fun {s₂} hb =>
    hb.trans (congrArg (fun k : Kernel => { k with emergencyProcess := s₂.emergencyProcess }) hb₁)
  have hs₁ : Settled s₁ v₁ := Relation.settled (fun _ _ hn => hn.2.1) ht hnaps
  have hstart : m.beforeSchedule h = if m.starvTicks h + 1 = 1000 then
      .done () { m.withKernel s₁ with
        kernel := s₁.antiStarvationSweeper h
        starvTicks := Function.update m.starvTicks h 0 }
      else .done () { m.withKernel s₁ with
        starvTicks := Function.update m.starvTicks h (m.starvTicks h + 1) } := by
    unfold Machine.beforeSchedule
    rw [hrun]
    rfl
  by_cases hsweep : m.starvTicks h + 1 = 1000
  · rw [if_pos hsweep] at hstart
    obtain ⟨hs₂, hb, hem⟩ := hs₁.antiStarvationSweeper (h := h)
    exact ⟨_, v₁, hstart, ht, hraised hb, hnaps.tail ⟨hs₁, hs₂, .alarm hb hem⟩⟩
  · rw [if_neg hsweep] at hstart
    exact ⟨_, v₁, hstart, ht, hraised rfl, hnaps⟩

/-- A software interrupt leaves the process that runs, or dispatches one. -/
theorem Settled.softInterrupt (hs : Settled m.kernel v) (hh : m.kernel.started h = true)
    (hc : m.Careful (.softInterrupt h)) : ∃ m₁ v₁, Prepared m h v m₁ v₁ ∧
      (¬ m₁.Due h ∧ m.softInterrupt h = .done () m₁ ∨
        m₁.Due h ∧ ∃ s' x, m₁.kernel.schedule h = .done () s' ∧
          m.softInterrupt h = .done () (m₁.withKernel s') ∧ Dispatched h x m₁.kernel v₁ s') := by
  obtain ⟨m₁, v₁, hp⟩ := hs.beforeSchedule hh hc.1
  refine ⟨m₁, v₁, hp, ?_⟩
  have hs₁ := hp.settled
  unfold Machine.softInterrupt
  rw [hp.run, Outcome.bind_done]
  by_cases hdue : m₁.Due h
  · have hat : m₁ ∈ m.atSchedule h := by
      unfold Machine.atSchedule
      rw [hp.run]
      exact if_pos hdue
    have hclose : Close m₁.kernel v₁ h := by
      by_cases h0 : m₁.kernel.emergencyProcess = 0
      · exact Or.inl h0
      · exact Or.inr (hs₁.inRing_iff.mp (hc.2 m₁ hat h0))
    have hup : m₁.kernel.started h = true := by
      rw [hp.rest Kernel.started (fun _ => rfl) (fun _ _ => rfl) (fun _ _ => rfl) rfl]
      exact hh
    obtain ⟨s', x, hrun, hs', hb, hchosen, hready, -⟩ := hs₁.schedule hup hclose
    refine Or.inr ⟨hdue, s', x, hrun, ?_, hs₁, hs', hb, hchosen, hready⟩
    rw [if_pos hdue, hrun]
    rfl
  · exact Or.inl ⟨hdue, if_neg hdue⟩

end RexOS.Smp
