import RexOS.Scheduler.Walks

/-!
# Dispatch

`schedule` puts the running process back, takes the emergency process if there is one and
else the first process of the lowest circle that has one, and lets it run. The sweeper names
a new emergency process.
-/

namespace RexOS.Scheduler

open Bits Kernel

variable {s s' : Kernel} {v v' : Place → List Nat} {a x i : Nat}

/-- Links, circles and bitmap may change as long as each place keeps its processes. -/
theorem Sound.of_bare (hs : Sound s v) (ht : Threaded s' v') (hb : s'.bare = s.bare)
    (hv : ∀ q a, a ∈ v' q ↔ a ∈ v q) : Sound s' v' := by
  refine ⟨⟨ht, fun q a => ?_⟩, orderly_congr hb hs.orderly⟩
  rw [hv, existing_congr hb, place_congr hb]
  exact hs.queued.mem q a

/-- A process on a circle becomes ready, or the current one running. -/
theorem Sound.setState {x : ProcState} (hs : Sound s v)
    (hc : (s.procs a).OnCircle) (hx : x = .ready ∨ x = .running ∧ a = s.curr 0) :
    Sound (s.setState a x) v := by
  have hprocs := fun b => procs_setState s a b x
  have hon : Process.OnCircle { s.procs a with state := x } := hx.imp_right And.left
  have hcircle : ∀ b, (s.procs b).OnCircle → ((s.setState a x).procs b).OnCircle := by
    intro b hb
    rw [hprocs]
    split
    · exact hon
    · exact hb
  refine ⟨⟨hs.queued.threaded.modify _ (fun _ => rfl) (fun _ => rfl), fun q b => ?_⟩, ?_⟩
  · have hplace : ((s.setState a x).procs b).place = (s.procs b).place := by
      rw [hprocs]
      split
      · rename_i hb
        rw [hb, Process.place_circle hc]
        exact Process.place_circle hon
      · rfl
    rw [hplace]
    exact hs.queued.mem q b
  · refine hs.orderly.restated rfl (fun b => ?_) (hcircle _ hs.orderly.idle.2.2.2)
      (fun b hb hr => ?_) (Or.inr ⟨rfl, hcircle _⟩)
    · rw [hprocs]
      split
      · rename_i hb
        rw [hb]
        exact ⟨rfl, rfl, rfl⟩
      · exact ⟨rfl, rfl, rfl⟩
    · rw [hprocs] at hr
      split at hr
      · rename_i hba
        rcases hx with rfl | ⟨_, hcurr⟩
        · exact absurd hr (by simp)
        · exact hba.trans hcurr
      · exact hs.orderly.running b hb hr

/-- A new bitmap with the same low bits. -/
theorem Sound.setBitmap {b : Nat} (hs : Sound s v)
    (hb : ∀ i < 32, b.testBit i = (s.bitmap 0).testBit i) : Sound (s.setBitmap 0 b) v := by
  refine hs.of_bare ?_ (bare_setBitmap s 0 b) fun _ _ => Iff.rfl
  refine hs.queued.threaded.congr rfl rfl (first_setBitmap s 0 b) (fun k i hi => ?_)
    (count_setBitmap s 0 b)
  rw [bitmap_setBitmap]
  by_cases hk : k = 0
  · rw [hk, Function.update_self]
    exact hb i hi
  · rw [Function.update_of_ne hk]

/-- The first process of a circle that has one. -/
theorem Sound.first_of_bit (hs : Sound s v) (hi : i < 32) (hbit : (s.bitmap 0).testBit i = true) :
    (v (.circle 0 i)).head? = some (s.first (.circle 0 i)) ∧ s.first (.circle 0 i) ∈ s.existing ∧
      (s.procs (s.first (.circle 0 i))).OnCircle ∧
        (s.procs (s.first (.circle 0 i))).priority = i := by
  have hne := (hs.queued.threaded.bits 0 i hi).mp hbit
  obtain ⟨y, zs, hxs⟩ := List.exists_cons_of_ne_nil hne
  have hf := hs.queued.threaded.first_circle 0 i
  rw [hxs] at hf
  have hy : y ∈ v (.circle 0 i) := by
    rw [hxs]
    exact List.mem_cons_self
  obtain ⟨hex, hpl⟩ := (hs.queued.mem _ y).mp hy
  have hfy : s.first (.circle 0 i) = y := hf
  rw [hxs, hfy]
  exact ⟨rfl, hex, Process.onCircle_of_place hpl⟩

/-- The sweeper keeps every process in its place. -/
theorem Sound.antiStarvationSweeper (hs : Sound s v) : Sound (s.antiStarvationSweeper 0) v := by
  unfold Kernel.antiStarvationSweeper
  dsimp only
  split
  · exact hs
  · have hmask : ∀ i < 32, ((s.queues 0).lookupBitmap &&& 0xFFFFFFFF).testBit i =
        (s.bitmap 0).testBit i := by
      intro i hi
      rw [Nat.testBit_and, show 0xFFFFFFFF = 2 ^ 32 - 1 from rfl, Nat.testBit_two_pow_sub_one,
        decide_eq_true hi, Bool.and_true]
      rfl
    split
    · rename_i i hfind
      have hbit : (s.bitmap 0).testBit i = true := by
        have hboth := List.find?_some hfind
        exact (Bool.and_eq_true_iff.mp hboth).2
      have hlt : i < 31 := by
        have hm := List.mem_of_find?_eq_some hfind
        rw [List.mem_reverse] at hm
        exact List.mem_range.mp hm
      obtain ⟨_, hex, hc, hp⟩ := hs.first_of_bit (by omega) hbit
      have hle : (s.procs (s.first (.circle 0 i))).priority ≤ 30 := by omega
      have ho := hs.orderly
      refine Sound.setBitmap ?_ hmask
      refine ⟨⟨hs.queued.threaded.congr rfl rfl ?_ (fun _ _ _ => rfl) rfl, hs.queued.mem⟩, ?_⟩
      · funext q
        cases q <;> rfl
      · exact ⟨ho.nodup, ho.alive, ho.magic, ho.idle, ho.users, ho.curr, ho.running,
          Or.inr ⟨hex, hc, hle⟩, ho.pids, ho.given, ho.free, ho.spawned⟩
    · exact hs.setBitmap hmask

/-! ## The choice of the next process -/

/-- The places after the running process has been put back: its circle has moved on. -/
def turned (s : Kernel) (v : Place → List Nat) : Place → List Nat :=
  if (s.procs (s.curr 0)).state = .running then
    Function.update v (.circle 0 (s.procs (s.curr 0)).priority)
      ((v (.circle 0 (s.procs (s.curr 0)).priority)).rotate 1)
  else v

/-- No process is running. -/
def Quiet (s : Kernel) : Prop := ∀ a ∈ s.existing, (s.procs a).state ≠ .running

/-- The running process goes to the end of its circle, and then no process runs. -/
theorem Sound.putBack (hs : Sound s v) : Sound (s.putBack 0) (turned s v) ∧ Quiet (s.putBack 0) ∧
    (s.putBack 0).existing = s.existing ∧ (s.putBack 0).emergencyProcess = s.emergencyProcess ∧
    ∀ a, ((s.putBack 0).procs a).state =
      if (s.procs a).state = .running ∧ a = s.curr 0 then .ready else (s.procs a).state := by
  have ho := hs.orderly
  unfold Kernel.putBack turned
  dsimp only
  by_cases hr : (s.procs (s.curr 0)).state = .running
  · rw [if_pos hr, if_pos hr]
    have htouch : Touched s (s.modify (s.curr 0) fun p => { p with ticksLeft := p.timeSlice }) :=
      Touched.modify s _ _ (fun _ => rfl) (fun _ => rfl) fun _ => ⟨rfl, rfl, rfl, rfl⟩
    have hs₁ := (htouch.sound hs).setState (a := s.curr 0) (x := .ready)
      ((htouch.onCircle _).mpr (Or.inr hr)) (Or.inl rfl)
    have heq : (s.modify (s.curr 0) fun p => { p with state := .ready, ticksLeft := p.timeSlice }) =
        (s.modify (s.curr 0) fun p => { p with ticksLeft := p.timeSlice }).setState (s.curr 0)
          .ready := by
      unfold Kernel.setState Kernel.modify
      dsimp only
      rw [Function.update_self, Function.update_idem]
    have hprio : ((s.modify (s.curr 0) fun p =>
        { p with state := .ready, ticksLeft := p.timeSlice }).procs (s.curr 0)).priority =
        (s.procs (s.curr 0)).priority := by
      simp only [Kernel.modify, Function.update_self]
    have hstate : ∀ a, ((s.modify (s.curr 0) fun p =>
        { p with state := .ready, ticksLeft := p.timeSlice }).procs a).state =
        if (s.procs a).state = .running ∧ a = s.curr 0 then .ready else (s.procs a).state := by
      intro a
      by_cases ha : a = s.curr 0
      · rw [ha, if_pos ⟨hr, rfl⟩]
        simp only [Kernel.modify, Function.update_self]
      · rw [if_neg fun hc => ha hc.2]
        simp only [Kernel.modify, Function.update_of_ne ha]
    rw [hprio]
    rw [heq] at hstate ⊢
    have hmem := hs.queued.mem_circle ho.curr (Or.inr hr)
    have hturn := hs₁.queued.threaded.turn (h := 0) (i := (s.procs (s.curr 0)).priority)
      (List.ne_nil_of_mem hmem)
    refine ⟨hs₁.of_bare hturn (bare_setCircle ..) (Threaded.mem_turned 0 _), fun a ha hra => ?_,
      rfl, rfl, hstate⟩
    have hst := hstate a
    by_cases hc : a = s.curr 0
    · by_cases hsr : (s.procs a).state = .running
      · rw [if_pos ⟨hsr, hc⟩] at hst
        exact absurd (hst.symm.trans hra) (by simp)
      · exact hsr (hc ▸ hr)
    · rw [if_neg fun h => hc h.2] at hst
      exact hc (ho.running a ha (hst.symm.trans hra))
  · rw [if_neg hr, if_neg hr]
    refine ⟨hs, fun a ha hra => ?_, rfl, rfl, fun a => ?_⟩
    · exact hr (ho.running a ha hra ▸ hra)
    · rw [if_neg]
      rintro ⟨hra, rfl⟩
      exact hr hra

/-- Any process may become the current one while none is running. -/
theorem Sound.setCurr (hs : Sound s v) (hq : Quiet s) (hx : x ∈ s.existing) :
    Sound { s.setCurr 0 x with emergencyProcess := 0 } v ∧ Sound (s.setCurr 0 x) v := by
  have ho := hs.orderly
  have hidle : ((s.setCurr 0 x).queues 0).idleProcess = (s.queues 0).idleProcess := rfl
  have ht : Threaded (s.setCurr 0 x) v := by
    refine hs.queued.threaded.congr rfl rfl (first_setCurr s 0 x) (fun k i _ => ?_) ?_
    · by_cases hk : k = 0 <;> simp [bitmap, Kernel.setCurr, Kernel.onQueue, hk]
    · funext k
      by_cases hk : k = 0 <;> simp [count, Kernel.setCurr, Kernel.onQueue, hk]
  have hcurr : (s.setCurr 0 x).curr 0 = x := rfl
  refine ⟨⟨⟨ht.congr rfl rfl ?_ (fun _ _ _ => rfl) rfl, hs.queued.mem⟩, ?_⟩,
    ⟨ht, hs.queued.mem⟩, ?_⟩
  · funext q
    cases q <;> rfl
  · exact ⟨ho.nodup, ho.alive, ho.magic, ho.idle, ho.users, hx, fun a ha hr => absurd hr (hq a ha),
      Or.inl rfl, ho.pids, ho.given, ho.free, ho.spawned⟩
  · exact ⟨ho.nodup, ho.alive, ho.magic, ho.idle, ho.users, hx, fun a ha hr => absurd hr (hq a ha),
      ho.emergency, ho.pids, ho.given, ho.free, ho.spawned⟩

/-- What `choose` leaves: the emergency process, or the first of the lowest circle. -/
theorem Sound.choose (hs : Sound s v) (hq : Quiet s) : ∃ s', s.choose 0 = .done () s' ∧ Sound s' v ∧
    s'.existing = s.existing ∧ s'.procs = s.procs ∧ s'.emergencyProcess = 0 ∧
    (s.procs (s'.curr 0)).OnCircle ∧
    (s.emergencyProcess ≠ 0 → s'.curr 0 = s.emergencyProcess) ∧
    (s.emergencyProcess = 0 → ∃ i < 32, (v (.circle 0 i)).head? = some (s'.curr 0) ∧
      ∀ j < i, v (.circle 0 j) = []) := by
  have ho := hs.orderly
  unfold Kernel.choose
  by_cases hem : s.emergencyProcess ≠ 0
  · obtain ⟨hex, hc, _⟩ := ho.emergency.resolve_left hem
    rw [if_pos hem]
    exact ⟨_, rfl, (hs.setCurr hq hex).1, rfl, rfl, rfl, hc, fun _ => rfl, fun h0 => absurd h0 hem⟩
  · have hem0 := not_not.mp hem
    rw [if_neg hem]
    have hidle : (s.bitmap 0).testBit 31 = true := by
      have hm := hs.queued.mem_circle ho.idle.1 ho.idle.2.2.2
      rw [ho.idle.2.2.1] at hm
      exact (hs.queued.threaded.bits 0 31 (by decide)).mpr (List.ne_nil_of_mem hm)
    cases hfind : (List.range 32).find? fun i => (s.queues 0).lookupBitmap.testBit i with
    | none =>
      have hno := List.find?_eq_none.mp hfind 31 (by decide)
      exact absurd hidle hno
    | some i =>
      have hlt := List.mem_range.mp (List.mem_of_find?_eq_some hfind)
      have hbit : (s.bitmap 0).testBit i = true := List.find?_some hfind
      have hlow : ∀ j < i, v (.circle 0 j) = [] := by
        intro j hj
        by_contra hne
        have hset := (hs.queued.threaded.bits 0 j (by omega)).mpr hne
        obtain ⟨_, as, bs, heq, hbefore⟩ := List.find?_eq_some_iff_append.mp hfind
        have hjas : j ∈ as := by
          have hj32 : j ∈ List.range 32 := List.mem_range.mpr (by omega)
          have hsorted : (List.range 32).Pairwise (· < ·) := List.pairwise_lt_range
          rw [heq] at hj32 hsorted
          rcases List.mem_append.mp hj32 with hin | hin
          · exact hin
          · rcases List.mem_cons.mp hin with rfl | hin
            · exact absurd hj (Nat.lt_irrefl j)
            · have hgt := (List.pairwise_cons.mp (List.pairwise_append.mp hsorted).2.1).1 j hin
              omega
        have hclear := hbefore j hjas
        rw [show (s.queues 0).lookupBitmap.testBit j = true from hset] at hclear
        exact absurd hclear (by simp)
      obtain ⟨hhead, hex, hc, _⟩ := hs.first_of_bit hlt hbit
      have hcurr : (s.setCurr 0 ((s.queues 0).activeProcessCircles i)).curr 0 =
          s.first (.circle 0 i) := rfl
      have hs₁ : Sound (s.setCurr 0 ((s.queues 0).activeProcessCircles i)) v :=
        (hs.setCurr hq hex).2
      have hmagic : ((s.setCurr 0 ((s.queues 0).activeProcessCircles i)).procs
          ((s.setCurr 0 ((s.queues 0).activeProcessCircles i)).curr 0)).magic = processMagic :=
        ho.magic _ hex
      dsimp only
      rw [if_neg (not_not.mpr hmagic)]
      split
      · refine ⟨_, rfl, hs₁.setBitmap fun j hj => ?_, rfl, rfl, hem0, hc, fun h => absurd h hem,
          fun _ => ⟨i, hlt, hhead, hlow⟩⟩
        -- the marks are all above bit 31
        rw [Nat.testBit_or, Nat.testBit_shiftLeft, decide_eq_false (by omega), Bool.false_and,
          Bool.or_false]
        rfl
      · exact ⟨_, rfl, hs₁, rfl, rfl, hem0, hc, fun h => absurd h hem,
          fun _ => ⟨i, hlt, hhead, hlow⟩⟩

/-- What a dispatch does: the next process is the emergency process or the first one of the lowest
circle that has one, and it alone runs. -/
structure Dispatched (s : Kernel) (v : Place → List Nat) (s' : Kernel) (v' : Place → List Nat) :
    Prop where
  places : v' = turned s v
  urgent : s.emergencyProcess ≠ 0 → s'.curr 0 = s.emergencyProcess
  cleared : s'.emergencyProcess = 0
  lowest : s.emergencyProcess = 0 → ∃ i < 32, (v' (.circle 0 i)).head? = some (s'.curr 0) ∧
    ∀ j < i, v' (.circle 0 j) = []
  idle : s.emergencyProcess = 0 → s'.curr 0 = (s'.queues 0).idleProcess →
    ∀ a ∈ s'.existing, (s'.procs a).OnCircle → a = (s'.queues 0).idleProcess
  running : ∀ a ∈ s'.existing, (s'.procs a).state = .running ↔ a = s'.curr 0
  others : ∀ i, ∀ a ∈ v' (.circle 0 i), a ≠ s'.curr 0 → (s'.procs a).state = .ready
  existing : s'.existing = s.existing
  waiting : ∀ a, ¬ (s.procs a).OnCircle → (s'.procs a).state = (s.procs a).state

/-- From a sound state a dispatch returns, keeps the places and does what it should. -/
theorem Sound.schedule (hs : Sound s v) :
    ∃ s' v', s.schedule 0 = .done () s' ∧ Sound s' v' ∧ Dispatched s v s' v' := by
  have ho := hs.orderly
  obtain ⟨hs₁, hquiet, hex₁, hem₁, hst₁⟩ := hs.putBack
  obtain ⟨s₂, hrun, hs₂, hex₂, hprocs, hem₂, hc, hurgent, hlow⟩ := hs₁.choose hquiet
  have hcurr := hs₂.orderly.curr
  have hready : (s₂.procs (s₂.curr 0)).state = .ready := by
    rw [hprocs]
    refine hc.resolve_right (hquiet _ ?_)
    rw [← hex₂]
    exact hcurr
  have hs₃ := hs₂.setState (x := .running) (Or.inl hready) (Or.inr ⟨rfl, rfl⟩)
  refine ⟨s₂.setState (s₂.curr 0) .running, turned s v, ?_, hs₃,
    ⟨rfl, fun hne => ?_, hem₂, fun h0 => ?_,
    fun h0 hidle a ha hon => ?_, fun a ha => ⟨hs₃.orderly.running a ha, ?_⟩, fun i a ha hne => ?_,
    hex₂.trans hex₁, fun a ha => ?_⟩⟩
  · unfold Kernel.schedule
    rw [if_neg (not_not.mpr (ho.magic _ ho.curr)), hrun, Outcome.bind_done,
      if_neg (not_not.mpr hready)]
  · exact (hurgent (hem₁ ▸ hne)).trans hem₁
  · exact hlow (hem₁.trans h0)
  · -- the idle process is first only on circle 31, below which there is nobody
    obtain ⟨i, hi, hhead, hempty⟩ := hlow (hem₁.trans h0)
    have hcurr' : s₂.curr 0 = (s₂.queues 0).idleProcess := hidle
    have hmem : s₂.curr 0 ∈ turned s v (.circle 0 i) := List.mem_of_head? hhead
    have hi31 : i = 31 := by
      have hpl := (Process.onCircle_of_place ((hs₂.queued.mem _ _).mp hmem).2).2
      rw [hcurr', hs₂.orderly.idle.2.2.1] at hpl
      exact hpl.symm
    by_contra hne
    have hprio := (hs₃.orderly.users a ha hne).2
    have hin := hs₃.queued.mem_circle ha hon
    rw [hempty _ (by omega)] at hin
    exact absurd hin List.not_mem_nil
  · rintro rfl
    exact congrArg Process.state ((procs_setState s₂ _ _ .running).trans (if_pos rfl))
  · obtain ⟨hex, hpl⟩ := (hs₃.queued.mem _ a).mp ha
    exact (Process.onCircle_of_place hpl).1.resolve_right fun hr =>
      hne (hs₃.orderly.running a hex hr)
  · have hne : a ≠ s₂.curr 0 := by
      rintro rfl
      refine ha ?_
      unfold Process.OnCircle at hc ⊢
      rw [hst₁] at hc
      split at hc
      · rename_i hr
        exact Or.inr hr.1
      · exact hc
    rw [procs_setState, if_neg hne, hprocs, hst₁, if_neg fun hr => ha (Or.inr hr.1)]

end RexOS.Scheduler
