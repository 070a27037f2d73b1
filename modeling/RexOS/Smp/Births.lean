import RexOS.Smp.Transfers

/-!
# Birth and death on several harts

A zombie that no hart runs any more is reaped, a hart puts a new process on its own circles, and
a hart comes up with its idle process. At the start there is hart 0 alone.
-/

namespace RexOS.Smp

open Bits Scheduler Kernel

variable {s s' k : Kernel} {v v' : Place → List Nat} {h a t n new idle priority pid : Nat}
  {image : Image}

/-! ## Reaping -/

/-- What a reaping does apart from the links. -/
def reaped (s : Kernel) (t : Nat) : Kernel :=
  { s with
    aliveThreadCounter := s.aliveThreadCounter - 1
    pidRegistry := Function.update s.pidRegistry (s.procs t).pid false
    existing := s.existing.erase t }

/-- The places after a zombie has been forgotten. -/
def reapedPlaces (v : Place → List Nat) (t : Nat) : Place → List Nat :=
  Function.update v (.wait .zombie) ((v (.wait .zombie)).erase t)

/-- Reaping a process changes the bare data as `reaped` says. -/
theorem bare_reap (s : Kernel) (t : Nat) : (s.reap t).bare = (reaped s t).bare := by
  have hb : (s.unlinkList t .zombie).bare = s.bare := bare_unlinkList ..
  have hrest := congrArg (fun x : Kernel => { x with
    aliveThreadCounter := s.aliveThreadCounter - 1
    pidRegistry := Function.update s.pidRegistry (s.procs t).pid false
    existing := s.existing.erase t }) hb
  exact hrest

/-- A zombie that no hart runs can be reaped, and all others stay in their places. -/
theorem Settled.reap (hs : Settled s v) (ht : t ∈ v (.wait .zombie))
    (hcurr : ∀ k, s.started k = true → s.curr k ≠ t) :
    Settled (s.reap t) (reapedPlaces v t) := by
  have hmem := hs.threaded.mem_erased ht
  have hboard : board (s.reap t) (reapedPlaces v t) = (board s v).reap t := by
    rw [board_congr (bare_reap s t) fun _ _ => Iff.rfl]
    ext q a
    · exact hmem q a
    all_goals rfl
  have hb := bare_reap s t
  have hprocs : ∀ a, ((s.reap t).procs a).magic = (s.procs a).magic := fun a =>
    (field_bare (fun x => (x.procs a).magic) (fun _ => rfl) hb).trans rfl
  have hex : (s.reap t).existing = s.existing.erase t :=
    field_bare Kernel.existing (fun _ => rfl) hb
  have hst : (s.reap t).started = s.started :=
    (field_bare Kernel.started (fun _ => rfl) hb).trans rfl
  have hhart : (s.reap t).hart = s.hart := (field_bare Kernel.hart (fun _ => rfl) hb).trans rfl
  have hpid : (s.reap t).nextPid = s.nextPid :=
    (field_bare Kernel.nextPid (fun _ => rfl) hb).trans rfl
  refine ⟨?_, fun a => ?_, hex ▸ hs.nodup.erase t, fun a ha => ?_, fun l hl => ?_,
    hpid ▸ hs.given, ?_⟩
  · refine (hs.threaded.unlink ht).congr rfl rfl ?_ (fun _ _ _ => rfl) rfl
    funext q
    cases q <;> rfl
  · rw [hex, hs.nodup.mem_erase_iff, hs.mem]
    constructor
    · rintro ⟨hne, q, hq⟩
      exact ⟨q, (hmem q a).mpr ⟨hne, hq⟩⟩
    · rintro ⟨q, hq⟩
      obtain ⟨hne, hq⟩ := (hmem q a).mp hq
      exact ⟨hne, q, hq⟩
  · rw [hex] at ha
    exact (hprocs a).trans (hs.magic a (List.mem_of_mem_erase ha))
  · rw [hst] at hl
    rw [hhart]
    exact hs.range l hl
  · rw [hboard]
    exact hs.valid.reap ht fun l hl he => hcurr l hl he

/-- A parent finds the first of its children on the zombie list, if there is one. -/
theorem Settled.waitProcess (hs : Settled s v) :
    (∃ n, s.waitProcess h = .done n s ∧
      ∀ a ∈ v (.wait .zombie), (s.procs a).parentPid ≠ (s.procs (s.curr h)).pid) ∨
    ∃ n t, s.waitProcess h = .done n (s.reap t) ∧ t ∈ v (.wait .zombie) ∧
      (s.procs t).parentPid = (s.procs (s.curr h)).pid ∧
      s.findChild (s.procs (s.curr h)).pid (s.existing.length + 1) (s.heads .zombie) =
        .done t s := by
  have hfind : s.findChild (s.procs (s.curr h)).pid (s.existing.length + 1) (s.heads .zombie) = _ :=
    findChild_eq (s.procs (s.curr h)).pid (n := s.existing.length + 1) (hs.threaded.dll .zombie).seg
      (Nat.lt_succ_of_le (hs.length_le _))
  unfold Kernel.waitProcess
  rw [hfind, Outcome.bind_done]
  cases hz : (v (.wait .zombie)).find? fun a => (s.procs a).parentPid == (s.procs (s.curr h)).pid
      with
  | none =>
    refine Or.inl ⟨_, if_pos rfl, fun a ha => ?_⟩
    simpa using List.find?_eq_none.mp hz a ha
  | some z =>
    have hzv : z ∈ v (.wait .zombie) := List.mem_of_find?_eq_some hz
    have hb : (s.unlinkList z .zombie).bare = s.bare := bare_unlinkList ..
    have hpid : ((s.unlinkList z .zombie).procs z).pid = (s.procs z).pid :=
      field_bare (fun x => (x.procs z).pid) (fun _ => rfl) hb
    have halive := field_bare Kernel.aliveThreadCounter (fun _ => rfl) hb
    have hreg := field_bare Kernel.pidRegistry (fun _ => rfl) hb
    have hex := field_bare Kernel.existing (fun _ => rfl) hb
    refine Or.inr ⟨((s.unlinkList z .zombie).procs z).exitCode, z, ?_, hzv, ?_, rfl⟩
    · rw [Option.getD_some, if_neg ((hs.threaded.dll .zombie).ne_nil z hzv)]
      dsimp only
      rw [hpid, halive, hreg, hex]
      rfl
    · simpa using List.find?_some hz

/-! ## Pids -/

/-- What taking a pid leaves: the pid, and a bit of the registry that may be that of another one. -/
def Taken (s : Kernel) (pid : Nat) (k : Kernel) : Prop :=
  pid ≠ 0 ∧ ∃ bit, k = { s with
    pidRegistry := Function.update s.pidRegistry bit true
    aliveThreadCounter := s.aliveThreadCounter + 1
    nextPid := pid + 1 }

/-- The search hands out a pid in use by nobody, as far as the registry knows. -/
theorem searchPid_taken {bit : Nat} (hg : s.nextPid ≠ 0) (hrun : searchPid n bit s = .done pid k) :
    Taken s pid k := by
  induction n generalizing s bit with
  | zero => exact absurd hrun (by simp [searchPid])
  | succ n ih =>
    rw [searchPid] at hrun
    split at hrun
    · have hnext : (if s.nextPid + 1 ≥ pidMax then 1 else s.nextPid + 1) ≠ 0 := by
        split <;> omega
      obtain ⟨hpid, bit', rfl⟩ := ih (s := { s with
        nextPid := if s.nextPid + 1 ≥ pidMax then 1 else s.nextPid + 1 }) hnext hrun
      exact ⟨hpid, bit', rfl⟩
    · cases hrun
      exact ⟨hg, bit, rfl⟩

/-- So does the whole choice of the pid. -/
theorem takePid_taken (hg : s.nextPid ≠ 0) (hrun : s.takePid = .done pid k) : Taken s pid k := by
  unfold takePid at hrun
  split at hrun
  · cases hrun
    exact ⟨hg, _, rfl⟩
  · have hnext : (if s.nextPid ≥ pidMax then 1 else s.nextPid) ≠ 0 := by
      split <;> omega
    obtain ⟨hpid, bit, rfl⟩ := searchPid_taken (s := { s with
      nextPid := if s.nextPid ≥ pidMax then 1 else s.nextPid }) hnext hrun
    exact ⟨hpid, bit, rfl⟩

/-! ## Birth -/

/-- Rights change a capability table only. -/
theorem procs_addRights (s : Kernel) (a b pid rights : Nat) :
    ∃ c, (s.addRights a pid rights).procs b = { s.procs b with capabilityRoot := c } := by
  by_cases hb : b = a
  · subst hb
    exact ⟨_, Function.update_self ..⟩
  · exact ⟨(s.procs b).capabilityRoot, Function.update_of_ne hb ..⟩

/-- So do all the rights that a birth gives. -/
theorem procs_giveRights (s : Kernel) (h new pid b : Nat) :
    ∃ c, (s.giveRights h new pid).procs b = { s.procs b with capabilityRoot := c } := by
  have hstep : ∀ {k : Kernel} (a rights : Nat),
    (∃ c, k.procs b = { s.procs b with capabilityRoot := c }) →
      ∃ c, (k.addRights a pid rights).procs b = { s.procs b with capabilityRoot := c } := by
    rintro k a rights ⟨c, hc⟩
    obtain ⟨d, hd⟩ := procs_addRights k a b pid rights
    exact ⟨d, by rw [hd, hc]⟩
  unfold giveRights
  dsimp only
  split
  · exact hstep _ _ (hstep _ _ (procs_addRights ..))
  · exact hstep _ _ (procs_addRights ..)

/-- The fields of a new process but its rights and its links. -/
def newborn (s : Kernel) (h pid : Nat) (image : Image) (priority : Nat) (x : Process) : Process :=
  { x with
    pid := pid
    state := .ready
    tf := ⟨Function.update (fun _ => 0) 2 0x80000000, image.epc, h⟩
    satp := image.satp
    magic := processMagic
    parentPid := if s.curr h ≠ 0 then (s.procs (s.curr h)).pid else 0
    mailboxStatus := 0
    activeGrant := 0
    grantWhitelist := fun _ => 0
    priority := priority
    timeSlice := priority * 4 + 4
    ticksLeft := priority * 4 + 4
    cpuTime := 0 }

/-- A field that is no right, after a birth. -/
theorem field_enroll {α : Type} (g : Process → α)
    (hg : ∀ x c, g { x with capabilityRoot := c } = g x)
    (s : Kernel) (h new pid : Nat) (image : Image) (priority : Nat) :
    (fun a => g ((s.enroll h new pid image priority).procs a)) =
      Function.update (fun a => g (s.procs a)) new
        (g (newborn s h pid image priority (s.procs new))) := by
  funext a
  obtain ⟨c, hc⟩ := procs_giveRights (s.bear h new pid image) h new pid a
  unfold enroll
  by_cases ha : a = new
  · subst ha
    simp only [Kernel.modify, Function.update_self]
    rw [hc]
    have hbear : (s.bear h a pid image).procs a = _ := Function.update_self ..
    rw [hbear]
    exact hg (newborn s h pid image priority (s.procs a)) c
  · simp only [Kernel.modify, Function.update_of_ne ha]
    rw [hc, hg]
    exact congrArg g (Function.update_of_ne ha ..)

/-- A birth changes processes only. -/
theorem rest_enroll {α : Type} (g : Kernel → α) (hg : ∀ x p, g { x with procs := p } = g x)
    (s : Kernel) (h new pid : Nat) (image : Image) (priority : Nat) :
    g (s.enroll h new pid image priority) = g s := by
  have hrest : s.enroll h new pid image priority =
      { s with procs := (s.enroll h new pid image priority).procs } := by
    unfold enroll giveRights
    dsimp only
    split <;> rfl
  rw [hrest, hg]

/-- The places after a birth. -/
def bornPlaces (v : Place → List Nat) (h new priority : Nat) : Place → List Nat :=
  Function.update v (.circle h priority) (v (.circle h priority) ++ [new])

/-- What a birth does apart from the links. -/
def born (s : Kernel) (h new pid : Nat) (image : Image) (priority : Nat) : Kernel :=
  { s.enroll h new pid image priority with existing := new :: s.existing }

/-- A pid that is taken does not show. -/
theorem Settled.taken (hs : Settled s v) (hk : Taken s pid k) :
    Settled k v ∧ board k v = board s v := by
  obtain ⟨-, bit, rfl⟩ := hk
  refine ⟨⟨?_, hs.mem, hs.nodup, hs.magic, hs.range, Nat.succ_ne_zero _, hs.valid⟩, rfl⟩
  refine hs.threaded.congr rfl rfl ?_ (fun _ _ _ => rfl) rfl
  funext q
  cases q <;> rfl

/-- The new process is at the end of its circle. -/
theorem mem_bornPlaces (v : Place → List Nat) (h new priority : Nat) (q : Place) (a : Nat) :
    a ∈ bornPlaces v h new priority q ↔ a = new ∧ q = .circle h priority ∨ a ∈ v q :=
  mem_appended v (.circle h priority) q new a

/-- A birth, told on the board. -/
theorem board_born (s : Kernel) (v : Place → List Nat) (h new pid : Nat) (image : Image)
    (priority : Nat) (hno : ∀ q, new ∉ v q) :
    board (born s h new pid image priority) (bornPlaces v h new priority) =
      (board s v).spawn h new priority pid := by
  ext q a
  · show a ∈ bornPlaces v h new priority q ↔ a = new ∧ q = .circle h priority ∨ a ≠ new ∧ a ∈ v q
    rw [mem_bornPlaces]
    refine or_congr Iff.rfl ⟨fun hq => ⟨?_, hq⟩, fun hq => hq.2⟩
    rintro rfl
    exact hno q hq
  · exact congrFun (field_enroll Process.state (fun _ _ => rfl) s h new pid image priority) q
  · exact congrFun (field_enroll Process.priority (fun _ _ => rfl) s h new pid image priority) q
  · exact congrFun (field_enroll Process.pid (fun _ _ => rfl) s h new pid image priority) q
  · exact congrFun
      (field_enroll (fun x => x.tf.kernelTp) (fun _ _ => rfl) s h new pid image priority) q
  · show (s.enroll h new pid image priority).started q = true ↔ s.started q = true
    rw [rest_enroll Kernel.started fun _ _ => rfl]
  · show ((s.enroll h new pid image priority).queues q).currProcess = _
    rw [rest_enroll Kernel.queues fun _ _ => rfl]
    rfl
  · show ((s.enroll h new pid image priority).queues q).idleProcess = _
    rw [rest_enroll Kernel.queues fun _ _ => rfl]
    rfl
  · exact rest_enroll Kernel.emergencyProcess (fun _ _ => rfl) s h new pid image priority

/-- A new process enters the circle of its priority on the hart that spawns it. -/
theorem Settled.born (hs : Settled s v) (hh : s.started h = true) (hnew : new ∉ s.existing)
    (h0 : new ≠ 0) (hprio : priority ≤ 30) (hpid : pid ≠ 0) (hs' : s' =
      { (s.enroll h new pid image priority).joinCircle h new with existing := new :: s.existing }) :
    Settled s' (bornPlaces v h new priority) ∧
      s'.bare = (born s h new pid image priority).bare := by
  have hno : ∀ q, new ∉ v q := fun q hq => hnew (hs.mem_existing hq)
  have hbare : s'.bare = (Smp.born s h new pid image priority).bare := by
    have hb := congrArg (fun x : Kernel => { x with existing := new :: s.existing })
      (bare_joinCircle (s.enroll h new pid image priority) h new)
    rw [hs']
    exact hb
  have henroll : Threaded (s.enroll h new pid image priority) v := by
    have hn := field_enroll Process.next (fun _ _ => rfl) s h new pid image priority
    have hp := field_enroll Process.prev (fun _ _ => rfl) s h new pid image priority
    have hqueues := rest_enroll Kernel.queues (fun _ _ => rfl) s h new pid image priority
    have hheads := rest_enroll Kernel.heads (fun _ _ => rfl) s h new pid image priority
    refine hs.threaded.congr ?_ ?_ ?_ (fun l i _ => ?_) ?_
    · exact hn.trans (Function.update_eq_self ..)
    · exact hp.trans (Function.update_eq_self ..)
    · funext q
      cases q with
      | circle l i => exact congrArg (fun x => (x l).activeProcessCircles i) hqueues
      | wait w => exact congrFun hheads w
    · exact congrArg (fun x => (x l).lookupBitmap.testBit i) hqueues
    · funext l
      exact congrArg (fun x => (x l).processCount) hqueues
  have hp : ((s.enroll h new pid image priority).procs new).priority = priority :=
    (congrFun (field_enroll Process.priority (fun _ _ => rfl) s h new pid image priority) new).trans
      (Function.update_self ..)
  have hjoin := henroll.join (h := h) hno h0 (by
    rw [hp]
    omega)
  rw [hp] at hjoin
  have hboard : board s' (bornPlaces v h new priority) = (board s v).spawn h new priority pid := by
    rw [board_congr hbare fun _ _ => Iff.rfl, board_born s v h new pid image priority hno]
  have hex : s'.existing = new :: s.existing := by rw [hs']
  have hmagic := field_enroll Process.magic (fun _ _ => rfl) s h new pid image priority
  refine ⟨⟨?_, fun a => ?_, ?_, fun a ha => ?_, fun l hl => ?_, ?_, ?_⟩, hbare⟩
  · rw [hs']
    refine hjoin.congr rfl rfl ?_ (fun _ _ _ => rfl) rfl
    funext q
    cases q <;> rfl
  · rw [hex, List.mem_cons, hs.mem]
    simp only [mem_bornPlaces]
    constructor
    · rintro (rfl | ⟨q, hq⟩)
      · exact ⟨_, Or.inl ⟨rfl, rfl⟩⟩
      · exact ⟨q, Or.inr hq⟩
    · rintro ⟨q, ⟨ha, -⟩ | hq⟩
      · exact Or.inl ha
      · exact Or.inr ⟨q, hq⟩
  · rw [hex]
    exact List.nodup_cons.mpr ⟨hnew, hs.nodup⟩
  · have hm : (s'.procs a).magic = ((s.enroll h new pid image priority).procs a).magic :=
      (field_bare (fun x => (x.procs a).magic) (fun _ => rfl) hbare).trans rfl
    rw [hex] at ha
    refine hm.trans ((congrFun hmagic a).trans ?_)
    rcases List.mem_cons.mp ha with rfl | hin
    · exact Function.update_self ..
    · have hne : a ≠ new := by
        rintro rfl
        exact hnew hin
      rw [Function.update_of_ne hne]
      exact hs.magic a hin
  · have hst : s'.started = s.started :=
      (field_bare Kernel.started (fun _ => rfl) hbare).trans
        (rest_enroll Kernel.started (fun _ _ => rfl) s h new pid image priority)
    have hhart : s'.hart = s.hart :=
      (field_bare Kernel.hart (fun _ => rfl) hbare).trans
        (rest_enroll Kernel.hart (fun _ _ => rfl) s h new pid image priority)
    rw [hst] at hl
    rw [hhart]
    exact hs.range l hl
  · have hnext : s'.nextPid = s.nextPid :=
      (field_bare Kernel.nextPid (fun _ => rfl) hbare).trans
        (rest_enroll Kernel.nextPid (fun _ _ => rfl) s h new pid image priority)
    rw [hnext]
    exact hs.given
  · rw [hboard]
    exact hs.valid.spawn hh (fun q hq => hno q hq) hprio hpid

/-- A spawn that returns has done nothing, or has taken a pid and put a new process on a circle. -/
theorem Settled.spawnProcess (hs : Settled s v) (hh : s.started h = true) (hnew : new ∉ s.existing)
    (hprio : priority ≤ 30) (hrun : s.spawnProcess h new image priority = .done n s') :
    s' = s ∨ ∃ pid k, new ≠ 0 ∧ s.aliveThreadCounter < pidMax ∧ s.takePid = .done pid k ∧
      Taken s pid k ∧
      Settled s' (bornPlaces v h new priority) ∧
        s'.bare = (Smp.born k h new pid image priority).bare := by
  unfold Kernel.spawnProcess at hrun
  split at hrun
  · cases hrun
    exact Or.inl rfl
  · rename_i h0
    split at hrun
    · cases hrun
      exact Or.inl rfl
    · rename_i halive
      obtain ⟨pid, k, htake, hdone⟩ := Outcome.bind_eq_done.mp hrun
      obtain ⟨-, rfl⟩ := Outcome.done.inj hdone
      have hk := takePid_taken hs.given htake
      have hsame : k.started = s.started ∧ k.existing = s.existing := by
        obtain ⟨-, bit, rfl⟩ := hk
        exact ⟨rfl, rfl⟩
      have hborn := (hs.taken hk).1.born (hsame.1 ▸ hh) (hsame.2 ▸ hnew) h0 hprio hk.1
        (rfl : _ = { (k.enroll h new pid image priority).joinCircle h new with
          existing := new :: k.existing })
      exact Or.inr ⟨pid, k, h0, Nat.not_le.mp halive, htake, hk, hborn⟩

/-! ## A hart comes up -/

/-- The places after a hart has come up. -/
def startedPlaces (v : Place → List Nat) (h idle : Nat) : Place → List Nat :=
  Function.update v (.circle h 31) [idle]

/-- The idle process of a hart that starts is alone on its circle. -/
theorem mem_startedPlaces (hempty : v (.circle h 31) = []) (idle : Nat) (q : Place) (a : Nat) :
    a ∈ startedPlaces v h idle q ↔ a = idle ∧ q = .circle h 31 ∨ a ∈ v q := by
  have happ := mem_appended v (.circle h 31) q idle a
  rwa [hempty, List.nil_append] at happ

/-- A hart that is not up has no process. -/
theorem Settled.circle_nil (hs : Settled s v) (hh : s.started h = false) (i : Nat) :
    v (.circle h i) = [] := by
  refine List.eq_nil_iff_forall_not_mem.mpr fun a ha => ?_
  have hup : s.started h = true := (hs.valid.circle ha).1
  rw [hh] at hup
  exact absurd hup (by simp)

/-- The start of a hart, told on the board. -/
theorem board_smpKmain (s : Kernel) (v : Place → List Nat) (h idle : Nat) (hno : ∀ q, idle ∉ v q)
    (hempty : v (.circle h 31) = []) :
    board (s.smpKmain h idle) (startedPlaces v h idle) = (board s v).start h idle := by
  ext q a
  · show a ∈ startedPlaces v h idle q ↔ a = idle ∧ q = .circle h 31 ∨ a ≠ idle ∧ a ∈ v q
    rw [mem_startedPlaces hempty]
    refine or_congr Iff.rfl ⟨fun hq => ⟨?_, hq⟩, fun hq => hq.2⟩
    rintro rfl
    exact hno q hq
  · by_cases hq : q = idle <;>
      simp [board, smpKmain, Board.start, Kernel.modify, hq]
  · by_cases hq : q = idle <;>
      simp [board, smpKmain, Board.start, Kernel.modify, hq]
  · by_cases hq : q = idle <;>
      simp [board, smpKmain, Board.start, Kernel.modify, hq]
  · by_cases hq : q = idle <;>
      simp [board, smpKmain, Board.start, Kernel.modify, hq]
  · by_cases hq : q = h <;>
      simp [board, smpKmain, Board.start, Kernel.modify, hq]
  · by_cases hq : q = h <;>
      simp [board, smpKmain, Board.start, Kernel.curr, hq]
  · by_cases hq : q = h <;>
      simp [board, smpKmain, Board.start, hq, Kernel.modify]
  · rfl

/-- A hart that is not up yet can start. -/
theorem Settled.smpKmain (hs : Settled s v) (hh : s.started h = false) (hlt : h < s.hart)
    (h0 : idle ≠ 0) (hidle : idle ∉ s.existing) :
    Settled (s.smpKmain h idle) (startedPlaces v h idle) := by
  have hno : ∀ q, idle ∉ v q := fun q hq => hidle (hs.mem_existing hq)
  have hempty := hs.circle_nil hh
  have hboard := board_smpKmain s v h idle hno (hempty 31)
  have hne : ∀ q a, a ∈ v q → a ≠ idle := by
    rintro q a ha rfl
    exact hno q ha
  have hproc : ∀ a, a ≠ idle → (s.smpKmain h idle).procs a = s.procs a := fun a ha =>
    Function.update_of_ne ha ..
  have hself : (s.smpKmain h idle).next idle = idle ∧ (s.smpKmain h idle).prev idle = idle ∧
      ((s.smpKmain h idle).procs idle).magic = processMagic := by
    simp [Kernel.next, Kernel.prev, Kernel.smpKmain, Kernel.modify]
  have hother : ∀ l, l ≠ h → (s.smpKmain h idle).queues l = s.queues l := fun l hl =>
    Function.update_of_ne hl ..
  have hown : (s.smpKmain h idle).queues h =
      ⟨Function.update (fun _ => 0) 31 idle, 2 ^ 31, idle, idle, 1, (s.queues h).ssip⟩ :=
    Function.update_self ..
  refine ⟨⟨fun q => ?_, fun p q a hp hq => ?_, fun q hq => ?_, fun l i hi => ?_, fun l i hi => ?_,
    fun l => ?_⟩, fun a => ?_, List.nodup_cons.mpr ⟨hidle, hs.nodup⟩,
      fun a ha => ?_, fun l hl => ?_,
    hs.given, ?_⟩
  · by_cases hq : q = .circle h 31
    · subst hq
      rw [startedPlaces, Function.update_self]
      refine ⟨Wheel.single hself.1 hself.2.1, ?_⟩
      simp only [first, hown, Function.update_self]
      rfl
    · rw [startedPlaces, Function.update_of_ne hq]
      have hlinked := hs.threaded.linked q
      refine hlinked.congr (fun a ha => ?_) (fun a ha => ?_) ?_
      · exact congrArg Process.next (hproc a (hne q a ha))
      · exact congrArg Process.prev (hproc a (hne q a ha))
      · cases q with
        | circle l i =>
          by_cases hl : l = h
          · subst hl
            have hi : i ≠ 31 := fun he => hq (he ▸ rfl)
            have hf := hs.threaded.first_circle l i
            rw [hempty] at hf
            rw [hf]
            simp only [first, hown, Function.update_of_ne hi]
            rfl
          · rw [first, first, hother l hl]
        | wait w => rfl
  · have hb : (board (s.smpKmain h idle) (startedPlaces v h idle)).Valid := by
      rw [hboard]
      exact hs.valid.start (fun hup => absurd (hh.symm.trans hup) (by simp)) fun q hq => hno q hq
    exact hb.apart hp hq
  · unfold startedPlaces at hq
    by_cases he : q = .circle h 31
    · subst he
      rw [Function.update_self, List.mem_singleton] at hq
      exact h0 hq.symm
    · rw [Function.update_of_ne he] at hq
      exact hs.threaded.nonzero q hq
  · rw [startedPlaces, Function.update_of_ne (by simp; omega)]
    exact hs.threaded.low l i hi
  · by_cases hl : l = h
    · subst hl
      rw [bitmap, hown, Nat.testBit_two_pow]
      by_cases hi31 : i = 31
      · subst hi31
        simp [startedPlaces]
      · have hdec : ¬ (31 = i) := fun he => hi31 he.symm
        rw [startedPlaces, Function.update_of_ne (by simpa using hi31), hempty]
        simp [hdec]
    · rw [bitmap, hother l hl, startedPlaces, Function.update_of_ne (by simp [hl])]
      exact hs.threaded.bits l i hi
  · by_cases hl : l = h
    · subst hl
      have hload := load_update_circle v l [idle] (show 31 < 32 by decide)
      have hzero : load v l = 0 := by
        unfold load
        simp [hempty]
      rw [hempty, hzero] at hload
      rw [count, hown, startedPlaces]
      simpa using hload.symm
    · rw [count, hother l hl, startedPlaces, load_update_other hl]
      exact hs.threaded.counted l
  · show a ∈ idle :: s.existing ↔ _
    rw [List.mem_cons, hs.mem]
    simp only [mem_startedPlaces (hempty 31)]
    constructor
    · rintro (rfl | ⟨q, hq⟩)
      · exact ⟨_, Or.inl ⟨rfl, rfl⟩⟩
      · exact ⟨q, Or.inr hq⟩
    · rintro ⟨q, ⟨ha, -⟩ | hq⟩
      · exact Or.inl ha
      · exact Or.inr ⟨q, hq⟩
  · by_cases hai : a = idle
    · rw [hai]
      exact hself.2.2
    · rw [hproc a hai]
      exact hs.magic a ((List.mem_cons.mp ha).resolve_left hai)
  · have hst : (s.smpKmain h idle).started l = Function.update s.started h true l := rfl
    rw [hst] at hl
    by_cases hlh : l = h
    · rw [hlh]
      exact hlt
    · rw [Function.update_of_ne hlh] at hl
      exact hs.range l hl
  · rw [hboard]
    exact hs.valid.start (fun hup => absurd (hh.symm.trans hup) (by simp)) fun q hq => hno q hq

/-! ## The start -/

/-- Hart 0 alone is up and runs its idle process. -/
theorem settled_booted (procs : Nat → Process) (harts : Nat) (h0 : idle ≠ 0) :
    ∃ v, Settled (booted procs harts idle).kernel v := by
  obtain ⟨v, hs⟩ := sound_schedulerInit procs h0
  generalize hk : (booted procs harts idle).kernel = s
  have hks : s = { (boot procs).schedulerInit 0 idle with hart := harts + 1 } := hk.symm
  have hex : s.existing = [idle] := by
    rw [hks]
    rfl
  have hproc : (s.procs idle).state = .running ∧ (s.procs idle).priority = 31 ∧
      (s.procs idle).pid = 0 ∧ (s.procs idle).magic = processMagic := by
    rw [hks]
    simp [schedulerInit, Kernel.modify]
  obtain ⟨hst, hprio, hpid, hmagic⟩ := hproc
  have hup : ∀ l, s.started l = true ↔ l = 0 := by
    intro l
    rw [hks]
    exact beq_iff_eq
  have hcurr : s.curr 0 = idle ∧ (s.queues 0).idleProcess = idle ∧ s.emergencyProcess = 0 := by
    rw [hks]
    exact ⟨rfl, rfl, rfl⟩
  have hmem : ∀ q a, a ∈ v q ↔ a = idle ∧ q = .circle 0 31 := by
    intro q a
    rw [hs.queued.mem]
    have hplace : (((boot procs).schedulerInit 0 idle).procs idle).place = .circle 0 31 := by
      have hp : ((boot procs).schedulerInit 0 idle).procs = s.procs := by rw [hks]
      rw [hp, Process.place_circle (Or.inr hst), hprio]
    show a ∈ [idle] ∧ _ ↔ _
    rw [List.mem_singleton]
    refine and_congr_right fun ha => ?_
    rw [ha, hplace]
    exact eq_comm
  refine ⟨v, ?_, fun a => ?_, ?_, fun a ha => ?_, fun l hl => ?_, ?_, ?_⟩
  · rw [hks]
    refine hs.queued.threaded.congr rfl rfl ?_ (fun _ _ _ => rfl) rfl
    funext q
    cases q <;> rfl
  · rw [hex, List.mem_singleton]
    simp only [hmem]
    constructor
    · exact fun ha => ⟨_, ha, rfl⟩
    · rintro ⟨_, ha, -⟩
      exact ha
  · rw [hex]
    exact List.nodup_singleton idle
  · rw [hex, List.mem_singleton] at ha
    rw [ha]
    exact hmagic
  · rw [(hup l).mp hl, hks]
    exact Nat.succ_pos _
  · rw [hks]
    exact Nat.one_ne_zero
  · exact Board.Valid.single hmem hup hst hprio hpid hcurr.1 hcurr.2.1 hcurr.2.2

end RexOS.Smp
