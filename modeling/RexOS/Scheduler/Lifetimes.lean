import RexOS.Scheduler.Dispatch

/-!
# Birth and death of processes

`spawn_process` puts a new process on its circle, `exit_process` makes the running one a
zombie and gives its children to the idle process, and `wait_process` reaps a zombie. At the
start there is the idle process alone.
-/

namespace RexOS.Scheduler

open Bits Kernel

variable {s s' : Kernel} {v v' : Place → List Nat} {a t new priority : Nat} {image : Image}

/-! ## Exit -/

/-- The running process can exit, unless it is the idle one. -/
theorem Sound.exitProcess (hs : Sound s v) (hr : (s.procs (s.curr 0)).state = .running)
    (hpid : (s.procs (s.curr 0)).pid ≠ 0) (code : Nat) :
    ∃ s' v', s.exitProcess 0 code = .done () s' ∧ Sound s' v' := by
  obtain ⟨s₁, v₁, hpark, hs₁, _⟩ := hs.park hs.orderly.curr (Or.inr hr) hpid .zombie
  have htouch : Touched s₁ (s₁.modify (s.curr 0) fun p => { p with exitCode := code }) :=
    Touched.modify s₁ _ _ (fun _ => rfl) (fun _ => rfl) fun _ => ⟨rfl, rfl, rfl, rfl⟩
  have hs₂ := htouch.sound hs₁
  obtain ⟨s₃, hharts, htouch₃⟩ := adoptHarts_eq ((s₁.modify (s.curr 0) fun p =>
    { p with exitCode := code }).procs (s.curr 0)).pid (List.range s₁.hart) hs₂.queued
  have hs₃ := htouch₃.sound hs₂
  obtain ⟨s₄, hlists, htouch₄⟩ := adoptLists_eq ((s₁.modify (s.curr 0) fun p =>
    { p with exitCode := code }).procs (s.curr 0)).pid
    [.blocked, .zombie, .sleeping, .blockedIpc, .blockedIpcSend] hs₃.queued
  refine ⟨s₄.trigger 0, v₁, ?_, (htouch₄.sound hs₃).trigger 0⟩
  have hharts' : adoptHarts 0 ((s₁.modify (s.curr 0) fun p => { p with exitCode := code }).procs
      (s.curr 0)).pid (List.range (s₁.modify (s.curr 0) fun p => { p with exitCode := code }).hart)
      (s₁.modify (s.curr 0) fun p => { p with exitCode := code }) = .done () s₃ := hharts
  unfold Kernel.exitProcess
  dsimp only
  rw [hpark, Outcome.bind_done, hharts', Outcome.bind_done, hlists, Outcome.bind_done]

/-! ## Reaping -/

/-- The running process can wait for a child. -/
theorem Sound.waitProcess (hs : Sound s v) (hr : (s.procs (s.curr 0)).state = .running) :
    ∃ n s' v', s.waitProcess 0 = .done n s' ∧ Sound s' v' := by
  have ho := hs.orderly
  have hfind := findChild_eq (s.procs (s.curr 0)).pid (n := s.existing.length + 1)
    (hs.queued.threaded.dll .zombie).seg (Nat.lt_succ_of_le (hs.queued.length_le _))
  have hfind' : s.findChild (s.procs (s.curr 0)).pid (s.existing.length + 1) (s.heads .zombie) =
      _ :=
    hfind
  unfold Kernel.waitProcess
  rw [hfind', Outcome.bind_done]
  cases hz : (v (.wait .zombie)).find? fun a => (s.procs a).parentPid == (s.procs (s.curr 0)).pid
      with
  | none => exact ⟨_, s, v, if_pos rfl, hs⟩
  | some z =>
    have hzv : z ∈ v (.wait .zombie) := List.mem_of_find?_eq_some hz
    obtain ⟨hex, hpl⟩ := (hs.queued.mem _ z).mp hzv
    have hst : (s.procs z).state = .zombie := Process.state_of_place hpl
    have hz0 : z ≠ 0 := (hs.queued.threaded.dll .zombie).ne_nil z hzv
    have hoff : ∀ b, (s.procs b).OnCircle → b ≠ z := by
      rintro b hb rfl
      unfold Process.OnCircle at hb
      rw [hst] at hb
      simp at hb
    have hbare : (s.unlinkList z .zombie).bare = s.bare := bare_unlinkList ..
    have hs₁ : Orderly (s.unlinkList z .zombie) := orderly_congr hbare ho
    have hfields : ∀ b, ((s.unlinkList z .zombie).procs b).place = (s.procs b).place ∧
        ((s.unlinkList z .zombie).procs b).OnCircle = (s.procs b).OnCircle := by
      intro b
      refine ⟨place_congr hbare b, ?_⟩
      have hc : ((s.unlinkList z .zombie).bare.procs b).OnCircle = (s.bare.procs b).OnCircle := by
        rw [hbare]
      exact hc
    have hcurr : (s.unlinkList z .zombie).curr 0 = s.curr 0 := by
      have hc : (s.unlinkList z .zombie).bare.curr 0 = s.bare.curr 0 := by rw [hbare]
      exact hc
    have hexist := existing_congr hbare
    have hunlink := hs.queued.threaded.unlink hzv
    rw [Option.getD_some, if_neg hz0]
    refine ⟨_, _, Function.update v (.wait .zombie) ((v (.wait .zombie)).erase z),
      rfl, ⟨⟨?_, ?_⟩, ?_⟩⟩
    · refine hunlink.congr rfl rfl ?_ (fun _ _ _ => rfl) rfl
      funext q
      cases q <;> rfl
    · intro q b
      rw [hs.queued.threaded.mem_erased hzv, hs.queued.mem]
      show b ≠ z ∧ b ∈ s.existing ∧ (s.procs b).place = q ↔
        b ∈ (s.unlinkList z .zombie).existing.erase z ∧ ((s.unlinkList z .zombie).procs b).place = q
      rw [(hfields b).1, hexist, ho.nodup.mem_erase_iff, and_assoc]
    · have hsub : ∀ b ∈ (s.unlinkList z .zombie).existing.erase z,
          b ∈ (s.unlinkList z .zombie).existing := fun b hb => List.mem_of_mem_erase hb
      have hkeep : ∀ b ∈ (s.unlinkList z .zombie).existing,
        ((s.unlinkList z .zombie).procs b).OnCircle →
          b ∈ (s.unlinkList z .zombie).existing.erase z := by
        intro b hb hc
        rw [(hfields b).2] at hc
        exact (hs₁.nodup.mem_erase_iff).mpr ⟨hoff b hc, hb⟩
      have hlen : ((s.unlinkList z .zombie).existing.erase z).length + 1 =
          (s.unlinkList z .zombie).existing.length := by
        have hmem : z ∈ (s.unlinkList z .zombie).existing := hexist ▸ hex
        have hpos := List.length_pos_of_mem hmem
        rw [List.length_erase_of_mem hmem]
        omega
      refine ⟨hs₁.nodup.erase z, ?_, fun b hb => hs₁.magic b (hsub b hb), ?_,
        fun b hb => hs₁.users b (hsub b hb), ?_, fun b hb => hs₁.running b (hsub b hb), ?_,
        fun b hb c hc => hs₁.pids b (hsub b hb) c (hsub c hc), fun b hb => hs₁.given b (hsub b hb),
        fun pid hpid => ?_, ?_⟩
      · show (s.unlinkList z .zombie).aliveThreadCounter - 1 =
          ((s.unlinkList z .zombie).existing.erase z).length
        have halive := hs₁.alive
        omega
      · exact ⟨hkeep _ hs₁.idle.1 hs₁.idle.2.2.2, hs₁.idle.2⟩
      · have hin := hkeep _ hs₁.curr (by
          rw [(hfields _).2, hcurr]
          exact Or.inr hr)
        exact hin
      · rcases hs₁.emergency with h0 | ⟨h1, h2, h3⟩
        · exact Or.inl h0
        · exact Or.inr ⟨hkeep _ h1 h2, h2, h3⟩
      · show Function.update (s.unlinkList z .zombie).pidRegistry _ false pid = false
        rw [Function.update_apply]
        split
        · rfl
        · exact hs₁.free pid hpid
      · show ((s.unlinkList z .zombie).existing.erase z).length ≤ (s.unlinkList z .zombie).nextPid
        have hsp := hs₁.spawned
        omega

/-! ## Birth -/

/-- Rights are no part of the order. -/
theorem addRights_touched (s : Kernel) (a pid rights : Nat) :
    Touched s (s.addRights a pid rights) :=
  Touched.modify s a _ (fun _ => rfl) (fun _ => rfl) fun _ => ⟨rfl, rfl, rfl, rfl⟩

/-- Rights are in no queue. -/
theorem giveRights_touched (s : Kernel) (h new pid : Nat) : Touched s (s.giveRights h new pid) := by
  have h7 := addRights_touched s (s.curr h) pid 7
  unfold giveRights
  dsimp only
  split
  · exact (h7.trans (addRights_touched _ _ pid 15)).trans (addRights_touched _ new pid 1)
  · exact h7.trans (addRights_touched _ new pid 1)

/-- Making the process touches no link. -/
theorem enroll_threaded (ht : Threaded s v) (new pid priority : Nat) (image : Image) :
    Threaded (s.enroll 0 new pid image priority) v := by
  have hbear : Threaded (s.bear 0 new pid image) v := ht.modify _ (fun _ => rfl) fun _ => rfl
  exact ((giveRights_touched _ 0 new pid).threaded hbear).modify _ (fun _ => rfl) fun _ => rfl

/-- Making the process changes nothing but processes. -/
theorem enroll_rest (s : Kernel) (new pid priority : Nat) (image : Image) :
    { s.enroll 0 new pid image priority with procs := s.procs } = s := by
  have hrest := (giveRights_touched (s.bear 0 new pid image) 0 new pid).rest
  unfold enroll Kernel.modify
  rw [hrest]
  rfl

/-- The fields of the new process; those of others that the order depends on stay. -/
theorem procs_enroll (s : Kernel) (new pid priority : Nat) (image : Image) (a : Nat) :
    ((s.enroll 0 new pid image priority).procs a).state =
      (if a = new then .ready else (s.procs a).state) ∧
    ((s.enroll 0 new pid image priority).procs a).priority =
      (if a = new then priority else (s.procs a).priority) ∧
    ((s.enroll 0 new pid image priority).procs a).pid =
      (if a = new then pid else (s.procs a).pid) ∧
    ((s.enroll 0 new pid image priority).procs a).magic =
      (if a = new then processMagic else (s.procs a).magic) := by
  obtain ⟨hst, hpr, hpid, hm⟩ := (giveRights_touched (s.bear 0 new pid image) 0 new pid).same a
  unfold enroll
  by_cases ha : a = new
  · subst ha
    simp only [Kernel.modify, Function.update_self, ite_true]
    rw [hst, hpid, hm]
    simp only [bear, Kernel.modify, Function.update_self, and_self]
  · simp only [Kernel.modify, Function.update_of_ne ha, if_neg ha]
    rw [hst, hpr, hpid, hm]
    simp only [bear, Kernel.modify, Function.update_of_ne ha, and_self]

/-- A process that takes a fresh pid enters its circle. -/
theorem Sound.born {k : Kernel} (hs : Sound s v) (hnew : new ∉ s.existing) (h0 : new ≠ 0)
    (hprio : priority ≤ 30) (ht : Threaded k v)
    (hrest : { k with procs := s.procs } = { s with
      pidRegistry := Function.update s.pidRegistry s.nextPid true
      aliveThreadCounter := s.aliveThreadCounter + 1
      nextPid := s.nextPid + 1 })
    (hsame : ∀ a, a ≠ new → (k.procs a).state = (s.procs a).state ∧
      (k.procs a).priority = (s.procs a).priority ∧ (k.procs a).pid = (s.procs a).pid ∧
      (k.procs a).magic = (s.procs a).magic)
    (hborn : (k.procs new).state = .ready ∧ (k.procs new).priority = priority ∧
      (k.procs new).pid = s.nextPid ∧ (k.procs new).magic = processMagic) :
    ∃ v', Sound { k.joinCircle 0 new with existing := new :: s.existing } v' := by
  have ho := hs.orderly
  have hno : ∀ q, new ∉ v q := fun q hin => hnew ((hs.queued.mem q new).mp hin).1
  have hjoin := ht.join (h := 0) hno h0 (by
    rw [hborn.2.1]
    omega)
  have hbare : (k.joinCircle 0 new).bare = k.bare := bare_joinCircle ..
  have hplace : ∀ a, ((k.joinCircle 0 new).procs a).place = (k.procs a).place := place_congr hbare
  have hcircle : ∀ a, a ≠ new → ((k.procs a).OnCircle ↔ (s.procs a).OnCircle) := fun a ha => by
    unfold Process.OnCircle
    rw [(hsame a ha).1]
  have hne : ∀ a ∈ s.existing, a ≠ new := fun a ha he => hnew (he ▸ ha)
  refine ⟨_, ⟨⟨hjoin.congr rfl rfl ?_ (fun _ _ _ => rfl) rfl, fun q a => ?_⟩, ?_⟩⟩
  · funext q
    cases q <;> rfl
  · show _ ↔ a ∈ new :: s.existing ∧ ((k.joinCircle 0 new).procs a).place = q
    rw [mem_appended, hs.queued.mem, List.mem_cons, hplace]
    by_cases ha : a = new
    · rw [ha, Process.place_circle (Or.inl hborn.1)]
      constructor
      · rintro (⟨_, rfl⟩ | ⟨hin, _⟩)
        · exact ⟨Or.inl rfl, rfl⟩
        · exact absurd hin hnew
      · rintro ⟨_, rfl⟩
        exact Or.inl ⟨rfl, rfl⟩
    · have hpl : (k.procs a).place = (s.procs a).place := by
        unfold Process.place
        rw [(hsame a ha).1, (hsame a ha).2.1]
      rw [hpl]
      constructor
      · rintro (⟨he, _⟩ | ⟨hin, hq⟩)
        · exact absurd he ha
        · exact ⟨Or.inr hin, hq⟩
      · rintro ⟨he | hin, hq⟩
        · exact absurd he ha
        · exact Or.inr ⟨hin, hq⟩
  · -- the rest of the order, first without the links
    have horder : Orderly { k with existing := new :: s.existing } := by
      have hk : k = { s with
          procs := k.procs
          pidRegistry := Function.update s.pidRegistry s.nextPid true
          aliveThreadCounter := s.aliveThreadCounter + 1
          nextPid := s.nextPid + 1 } := by
        have hprocs := congrArg (fun x : Kernel => { x with procs := k.procs }) hrest
        exact hprocs
      obtain ⟨procs, hprocs⟩ : ∃ procs, procs = k.procs := ⟨_, rfl⟩
      rw [← hprocs] at hk hsame hborn hcircle
      subst hk
      refine ⟨List.nodup_cons.mpr ⟨hnew, ho.nodup⟩, ?_, fun a ha => ?_, ?_, fun a ha hi => ?_,
        List.mem_cons_of_mem _ ho.curr, fun a ha hr => ?_, ?_, fun a ha b hb he =>
          ?_, fun a ha => ?_,
        fun pid hpid => ?_, ?_⟩
      · show s.aliveThreadCounter + 1 = (new :: s.existing).length
        rw [List.length_cons, ho.alive]
      · rcases List.mem_cons.mp ha with rfl | ha
        · exact hborn.2.2.2
        · exact (hsame a (hne a ha)).2.2.2.trans (ho.magic a ha)
      · obtain ⟨h1, h2, h3, h4⟩ := ho.idle
        have hi := hsame _ (hne _ h1)
        exact ⟨List.mem_cons_of_mem _ h1, hi.2.2.1.trans h2, hi.2.1.trans h3,
          (hcircle _ (hne _ h1)).mpr h4⟩
      · rcases List.mem_cons.mp ha with rfl | ha
        · have hpos := List.length_pos_of_mem ho.curr
          have hsp := ho.spawned
          refine ⟨?_, ?_⟩
          · show (procs a).pid ≠ 0
            rw [hborn.2.2.1]
            omega
          · exact hborn.2.1.trans_le hprio
        · obtain ⟨h1, h2⟩ := ho.users a ha hi
          have hs' := hsame a (hne a ha)
          exact ⟨fun he => h1 (hs'.2.2.1.symm.trans he), hs'.2.1.trans_le h2⟩
      · rcases List.mem_cons.mp ha with rfl | ha
        · exact absurd (hborn.1.symm.trans hr) (by simp)
        · exact ho.running a ha ((hsame a (hne a ha)).1.symm.trans hr)
      · rcases ho.emergency with he | ⟨h1, h2, h3⟩
        · exact Or.inl he
        · have hs' := hsame _ (hne _ h1)
          exact Or.inr ⟨List.mem_cons_of_mem _ h1, (hcircle _ (hne _ h1)).mpr h2,
            hs'.2.1.trans_le h3⟩
      · have ha' : a = new ∨ a ∈ s.existing := List.mem_cons.mp ha
        have hb' : b = new ∨ b ∈ s.existing := List.mem_cons.mp hb
        have hlt : ∀ c ∈ s.existing, (procs c).pid < s.nextPid := fun c hc =>
          (hsame c (hne c hc)).2.2.1.trans_lt (ho.given c hc)
        have hnp : (procs new).pid = s.nextPid := hborn.2.2.1
        have he' : (procs a).pid = (procs b).pid := he
        rcases ha' with han | hain
        · rcases hb' with hbn | hbin
          · exact han.trans hbn.symm
          · have hltb := hlt b hbin
            rw [han] at he'
            omega
        · rcases hb' with hbn | hbin
          · have hlta := hlt a hain
            rw [hbn] at he'
            omega
          · exact ho.pids a hain b hbin ((hsame a (hne a hain)).2.2.1.symm.trans
              (he'.trans (hsame b (hne b hbin)).2.2.1))
      · show (procs a).pid < s.nextPid + 1
        rcases List.mem_cons.mp ha with rfl | ha
        · rw [hborn.2.2.1]
          exact Nat.lt_succ_self _
        · have h1 := (hsame a (hne a ha)).2.2.1
          have h2 := ho.given a ha
          omega
      · show Function.update s.pidRegistry s.nextPid true pid = false
        have hgt : s.nextPid + 1 ≤ pid := hpid
        rw [Function.update_of_ne (by omega)]
        exact ho.free pid (by omega)
      · exact Nat.succ_le_succ ho.spawned
    refine orderly_congr ?_ horder
    show ({ k.joinCircle 0 new with existing := new :: s.existing } : Kernel).bare = _
    have hfull := congrArg (fun x : Kernel => { x with existing := new :: s.existing }) hbare
    exact hfull

/-- A pid that was never given out, a fresh address and a low priority make a process. -/
theorem Sound.spawnProcess (hs : Sound s v) (hnew : new ∉ s.existing) (hprio : priority ≤ 30)
    (hpid : s.nextPid < pidMax) (image : Image) :
    ∃ n s' v', s.spawnProcess 0 new image priority = .done n s' ∧ Sound s' v' ∧
      s'.nextPid ≤ s.nextPid + 1 := by
  have ho := hs.orderly
  by_cases h0 : new = 0
  · exact ⟨0, s, v, if_pos h0, hs, Nat.le_succ _⟩
  · by_cases halive : s.aliveThreadCounter ≥ pidMax
    · exact ⟨0, s, v, (if_neg h0).trans (if_pos halive), hs, Nat.le_succ _⟩
    · have htake : s.takePid = .done s.nextPid
          { s with
            pidRegistry := Function.update s.pidRegistry s.nextPid true
            aliveThreadCounter := s.aliveThreadCounter + 1
            nextPid := s.nextPid + 1 } := if_pos ⟨hpid, ho.free _ le_rfl⟩
      have ht : Threaded { s with
          pidRegistry := Function.update s.pidRegistry s.nextPid true
          aliveThreadCounter := s.aliveThreadCounter + 1
          nextPid := s.nextPid + 1 } v := by
        refine hs.queued.threaded.congr rfl rfl ?_ (fun _ _ _ => rfl) rfl
        funext q
        cases q <;> rfl
      have hfields := procs_enroll { s with
          pidRegistry := Function.update s.pidRegistry s.nextPid true
          aliveThreadCounter := s.aliveThreadCounter + 1
          nextPid := s.nextPid + 1 } new s.nextPid priority image
      have hrest := enroll_rest { s with
          pidRegistry := Function.update s.pidRegistry s.nextPid true
          aliveThreadCounter := s.aliveThreadCounter + 1
          nextPid := s.nextPid + 1 } new s.nextPid priority image
      obtain ⟨v', hborn⟩ := hs.born hnew h0 hprio (enroll_threaded ht new s.nextPid priority image)
        hrest
        (fun a ha => by
          obtain ⟨h1, h2, h3, h4⟩ := hfields a
          rw [if_neg ha] at h1 h2 h3 h4
          exact ⟨h1, h2, h3, h4⟩)
        (by
          obtain ⟨h1, h2, h3, h4⟩ := hfields new
          rw [if_pos rfl] at h1 h2 h3 h4
          exact ⟨h1, h2, h3, h4⟩)
      refine ⟨new, _, v', ?_, hborn, ?_⟩
      · unfold Kernel.spawnProcess
        rw [if_neg h0, if_neg halive, htake, Outcome.bind_done]
      · have hbare := congrArg Kernel.nextPid (bare_joinCircle (Kernel.enroll { s with
            pidRegistry := Function.update s.pidRegistry s.nextPid true
            aliveThreadCounter := s.aliveThreadCounter + 1
            nextPid := s.nextPid + 1 } 0 new s.nextPid image priority) 0 new)
        exact le_of_eq (hbare.trans (congrArg Kernel.nextPid hrest))

end RexOS.Scheduler
