import RexOS.Smp.Settled

/-!
# A dispatch on one of several harts

`schedule` takes the emergency process wherever it is linked. Where that is on the circles of the
hart itself, the dispatch is a move of the board: the hart runs a ready process of its own, the
first one of its lowest circle unless there is an emergency.
-/

namespace RexOS.Smp

open Bits Scheduler Kernel

variable {s s' k : Kernel} {v v' : Place → List Nat} {h t a x : Nat}

/-! ## Stores into queues -/

/-- A store into queues that shows neither in circles nor on the board. -/
theorem Settled.queues (hs : Settled s v) (hrest : s' = { s with queues := s'.queues })
    (hf : s'.first = s.first)
    (hb : ∀ l i, i < 32 → (s'.bitmap l).testBit i = (s.bitmap l).testBit i)
    (hc : s'.count = s.count) (hcurr : s'.curr = s.curr)
    (hidle : ∀ l, (s'.queues l).idleProcess = (s.queues l).idleProcess) :
    Settled s' v ∧ board s' v = board s v := by
  have hprocs : s'.procs = s.procs := by rw [hrest]
  have hboard : board s' v = board s v := by
    ext q b
    · rfl
    · exact congrArg Process.state (congrFun hprocs q)
    · exact congrArg Process.priority (congrFun hprocs q)
    · exact congrArg Process.pid (congrFun hprocs q)
    · exact congrArg (fun p => p.tf.kernelTp) (congrFun hprocs q)
    · show q ∈ {l | s'.started l = true} ↔ q ∈ {l | s.started l = true}
      rw [hrest]
    · exact congrFun hcurr q
    · exact hidle q
    · show s'.emergencyProcess = s.emergencyProcess
      rw [hrest]
  refine ⟨hs.rearranged ?_ ?_ (fun _ => Iff.rfl) (hboard ▸ hs.valid), hboard⟩
  · refine hs.threaded.congr ?_ ?_ hf hb hc
    · rw [hrest]
      rfl
    · rw [hrest]
      rfl
  · exact Same.rest (by rw [hrest])

/-- The pending bit of a hart does not show. -/
theorem Settled.setSsip (hs : Settled s v) (h : Nat) (x : Bool) :
    Settled (s.onQueue h fun q => { q with ssip := x }) v ∧
      board (s.onQueue h fun q => { q with ssip := x }) v = board s v := by
  refine hs.queues rfl ?_ (fun l i _ => ?_) ?_ ?_ fun l => ?_
  · funext q
    cases q with
    | circle l i => by_cases hl : l = h <;> simp [first, Kernel.onQueue, hl]
    | wait w => rfl
  · by_cases hl : l = h <;> simp [bitmap, Kernel.onQueue, hl]
  · funext l
    by_cases hl : l = h <;> simp [count, Kernel.onQueue, hl]
  · funext l
    by_cases hl : l = h <;> simp [Kernel.curr, Kernel.onQueue, hl]
  · by_cases hl : l = h <;> simp [Kernel.onQueue, hl]

/-- Starting the timer is on no board. -/
theorem Settled.trigger (hs : Settled s v) (h : Nat) :
    Settled (s.trigger h) v ∧ board (s.trigger h) v = board s v := hs.setSsip h true

/-- A new bitmap with the same low bits. -/
theorem Settled.setBitmap {b : Nat} (hs : Settled s v)
    (hb : ∀ i < 32, b.testBit i = (s.bitmap h).testBit i) :
    Settled (s.setBitmap h b) v ∧ board (s.setBitmap h b) v = board s v := by
  refine hs.queues rfl (first_setBitmap s h b) (fun l i hi => ?_) (count_setBitmap s h b) ?_
    fun l => ?_
  · rw [bitmap_setBitmap]
    by_cases hl : l = h
    · rw [hl, Function.update_self]
      exact hb i hi
    · rw [Function.update_of_ne hl]
  · funext l
    by_cases hl : l = h <;> simp [Kernel.curr, Kernel.setBitmap, Kernel.onQueue, hl]
  · by_cases hl : l = h <;> simp [Kernel.setBitmap, Kernel.onQueue, hl]

/-- The first process of a circle that has one. -/
theorem Settled.first_of_bit (hs : Settled s v) {i : Nat} (hi : i < 32)
    (hbit : (s.bitmap h).testBit i = true) :
    (v (.circle h i)).head? = some (s.first (.circle h i)) := by
  have hne := (hs.threaded.bits h i hi).mp hbit
  have hfirst := hs.threaded.first_circle h i
  cases hxs : v (.circle h i) with
  | nil => exact absurd hxs hne
  | cons y ys =>
    rw [hfirst, hxs]
    rfl

/-! ## Yield -/

/-- The running process gives up the hart. -/
theorem Settled.setReady (hs : Settled s v) (hst : (s.procs (s.curr h)).state = .running) :
    Settled (s.setState (s.curr h) .ready) v ∧
      board (s.setState (s.curr h) .ready) v = (board s v).yield h := by
  have hboard := board_setState s v (s.curr h) .ready
  refine ⟨hs.rearranged (hs.threaded.modify _ (fun _ => rfl) fun _ => rfl) (Same.setState s _ _)
    (fun _ => Iff.rfl) ?_, hboard⟩
  have hv := hs.valid.yield hst
  rw [Board.yield] at hv
  exact hboard ▸ hv

/-! ## The sweeper -/

/-- The sweeper may raise an alarm for the first process of a circle of its hart. -/
theorem Settled.antiStarvationSweeper (hs : Settled s v) :
    Settled (s.antiStarvationSweeper h) v ∧
    (s.antiStarvationSweeper h).bare =
      { s with emergencyProcess := (s.antiStarvationSweeper h).emergencyProcess }.bare ∧
    ((s.antiStarvationSweeper h).emergencyProcess = s.emergencyProcess ∨
      ∃ i ≤ 30, (s.antiStarvationSweeper h).emergencyProcess ∈ v (.circle h i)) := by
  unfold Kernel.antiStarvationSweeper
  dsimp only
  split
  · exact ⟨hs, rfl, Or.inl rfl⟩
  · have hmask : ∀ i < 32, ((s.queues h).lookupBitmap &&& 0xFFFFFFFF).testBit i =
        (s.bitmap h).testBit i := by
      intro i hi
      rw [Nat.testBit_and, show (0xFFFFFFFF : Nat) = 2 ^ 32 - 1 from rfl,
        Nat.testBit_two_pow_sub_one, decide_eq_true hi, Bool.and_true]
      rfl
    split
    · rename_i i hfind
      have hbit := List.find?_some hfind
      have hlt : i < 31 := by
        have hmem := List.mem_of_find?_eq_some hfind
        rw [List.mem_reverse] at hmem
        exact List.mem_range.mp hmem
      have hset : (s.bitmap h).testBit i = true := (Bool.and_eq_true_iff.mp hbit).2
      have hmem : (s.queues h).activeProcessCircles i ∈ v (.circle h i) :=
        List.mem_of_head? (hs.first_of_bit (by omega) hset)
      have hs₁ : Settled { s with emergencyProcess := (s.queues h).activeProcessCircles i } v := by
        refine hs.rearranged (hs.threaded.congr rfl rfl ?_ (fun _ _ _ => rfl) rfl)
          (Same.rest rfl) (fun _ => Iff.rfl) ?_
        · funext q
          cases q <;> rfl
        · exact hs.valid.alarm hmem (by omega)
      exact ⟨(hs₁.setBitmap hmask).1, bare_setBitmap .., Or.inr ⟨i, by omega, hmem⟩⟩
    · exact ⟨(hs.setBitmap hmask).1, bare_setBitmap .., Or.inl rfl⟩

/-! ## The process that is left -/

/-- The process that a hart leaves is ready again with a full slice, if it was running. -/
def refilled (s : Kernel) (h : Nat) : Kernel :=
  if (s.procs (s.curr h)).state = .running then
    s.modify (s.curr h) fun p => { p with state := .ready, ticksLeft := p.timeSlice }
  else s

/-- Its circle moves on. -/
def rotated (s : Kernel) (h : Nat) (v : Place → List Nat) : Place → List Nat :=
  if (s.procs (s.curr h)).state = .running then
    Function.update v (.circle h (s.procs (s.curr h)).priority)
      ((v (.circle h (s.procs (s.curr h)).priority)).rotate 1)
  else v

/-- The circle of the running process moves on with the same members. -/
theorem mem_rotated (q : Place) (a : Nat) : a ∈ rotated s h v q ↔ a ∈ v q := by
  unfold rotated
  split
  · exact Threaded.mem_turned h _ q a
  · exact Iff.rfl

/-- Putting back the running process, told on the board. -/
theorem board_refilled (s : Kernel) (h : Nat) (v : Place → List Nat) :
    board (refilled s h) v = (board s v).release h := by
  unfold refilled Board.release
  have hst : (board s v).state ((board s v).curr h) = (s.procs (s.curr h)).state := rfl
  rw [hst]
  split
  · let f : Process → Process := fun p => { p with state := .ready, ticksLeft := p.timeSlice }
    ext q b
    · rfl
    · exact congrFun (field_modify Process.state s (s.curr h) f) _
    · exact congrFun (field_modify_same (g := Process.priority) (f := f) s (s.curr h) fun _ => rfl)
        _
    · exact congrFun (field_modify_same (g := Process.pid) (f := f) s (s.curr h) fun _ => rfl) _
    · exact congrFun (field_modify_same (g := fun p => p.tf.kernelTp) (f := f) s (s.curr h)
        fun _ => rfl) _
    all_goals rfl
  · rfl

/-- It changes no pid. -/
theorem same_refilled (s : Kernel) (h : Nat) : Same s (refilled s h) := by
  unfold refilled
  split
  · exact Same.modify s _ (f := fun p => { p with state := .ready, ticksLeft := p.timeSlice })
      fun _ => ⟨rfl, rfl⟩
  · exact Same.refl s

/-- Putting back the running process moves its circle on and refills its slice. -/
theorem Settled.putBack (hs : Settled s v) (hh : s.started h = true) :
    Settled (s.putBack h) (rotated s h v) ∧ (s.putBack h).bare = (refilled s h).bare := by
  have hbare : (s.putBack h).bare = (refilled s h).bare := by
    unfold Kernel.putBack refilled
    dsimp only
    split
    · exact bare_setCircle ..
    · rfl
  have hboard : board (s.putBack h) (rotated s h v) = (board s v).release h := by
    rw [board_congr hbare mem_rotated, board_refilled]
  refine ⟨hs.rearranged ?_ ((same_refilled s h).of_bare hbare) (fun a => ?_) ?_, hbare⟩
  · unfold Kernel.putBack rotated
    dsimp only
    by_cases hr : (s.procs (s.curr h)).state = .running
    · rw [if_pos hr, if_pos hr]
      have hprio : ((s.modify (s.curr h) fun p =>
          { p with state := .ready, ticksLeft := p.timeSlice }).procs (s.curr h)).priority =
          (s.procs (s.curr h)).priority := by
        simp only [Kernel.modify, Function.update_self]
      have ht := hs.threaded.modify (a := s.curr h)
        (fun p => { p with state := .ready, ticksLeft := p.timeSlice }) (fun _ => rfl) fun _ => rfl
      rw [hprio]
      exact ht.turn (List.ne_nil_of_mem (hs.curr_mem hh (Or.inr hr)))
    · rw [if_neg hr, if_neg hr]
      exact hs.threaded
  · exact exists_congr fun q => mem_rotated q a
  · rw [hboard]
    exact (hs.valid.release).1

/-! ## The choice -/

/-- The emergency process is none, or on a circle of the hart. -/
def Close (s : Kernel) (v : Place → List Nat) (h : Nat) : Prop :=
  s.emergencyProcess = 0 ∨ ∃ i, s.emergencyProcess ∈ v (.circle h i)

/-- The process that a hart chooses: the emergency process, or the first of the lowest circle. -/
structure Chosen (emergency : Nat) (v : Place → List Nat) (h x : Nat) : Prop where
  own : ∃ i, x ∈ v (.circle h i)
  urgent : emergency ≠ 0 → x = emergency
  lowest : emergency = 0 → ∃ i < 32, (v (.circle h i)).head? = some x ∧ ∀ j < i,
    v (.circle h j) = []

/-- Which process is current is in no link. -/
theorem Settled.threaded_setCurr (hs : Settled s v) (h x : Nat) : Threaded (s.setCurr h x) v := by
  refine hs.threaded.congr rfl rfl (first_setCurr s h x) (fun l i _ => ?_) ?_
  · by_cases hl : l = h <;> simp [bitmap, Kernel.setCurr, Kernel.onQueue, hl]
  · funext l
    by_cases hl : l = h <;> simp [count, Kernel.setCurr, Kernel.onQueue, hl]

/-- The choice finds a process, and takes it. -/
theorem Settled.choose (hs : Settled s v) (hh : s.started h = true) (hem : Close s v h) :
    ∃ s' x, s.choose h = .done () s' ∧ Threaded s' v ∧
      s'.bare = { s.setCurr h x with emergencyProcess := 0 }.bare ∧
      Chosen s.emergencyProcess v h x := by
  unfold Kernel.choose
  by_cases h0 : s.emergencyProcess = 0
  · rw [if_neg (not_not.mpr h0)]
    have hidle : (s.bitmap h).testBit 31 = true :=
      (hs.threaded.bits h 31 (by decide)).mpr (List.ne_nil_of_mem (hs.valid.idle hh).1)
    cases hfind : (List.range 32).find? fun i => (s.queues h).lookupBitmap.testBit i with
    | none => exact absurd hidle (List.find?_eq_none.mp hfind 31 (by decide))
    | some i =>
      obtain ⟨hbit, hlt, hlow⟩ := List.find?_range_eq_some.mp hfind
      have hlt := List.mem_range.mp hlt
      have hhead := hs.first_of_bit hlt hbit
      have hmem : s.first (.circle h i) ∈ v (.circle h i) := List.mem_of_head? hhead
      have hchosen : Chosen s.emergencyProcess v h (s.first (.circle h i)) := by
        refine ⟨⟨i, hmem⟩, fun hne => absurd h0 hne, fun _ => ⟨i, hlt, hhead, fun j hj => ?_⟩⟩
        by_contra hne
        have hset := (hs.threaded.bits h j (by omega)).mpr hne
        have hclear := hlow j hj
        rw [show (s.queues h).lookupBitmap.testBit j = true from hset] at hclear
        exact absurd hclear (by simp)
      have hmagic : ((s.setCurr h ((s.queues h).activeProcessCircles i)).procs
          ((s.setCurr h ((s.queues h).activeProcessCircles i)).curr h)).magic = processMagic := by
        have hcurr : (s.setCurr h ((s.queues h).activeProcessCircles i)).curr h =
            s.first (.circle h i) := by
          simp [Kernel.curr, Kernel.setCurr, Kernel.onQueue, first]
        rw [hcurr]
        exact hs.magic _ (hs.mem_existing hmem)
      have hem0 : ∀ k : Kernel, k.emergencyProcess = 0 → k = { k with emergencyProcess := 0 } := by
        rintro k hk
        cases k
        cases hk
        rfl
      have hclear := hem0 (s.setCurr h (s.first (.circle h i))) h0
      dsimp only
      rw [if_neg (not_not.mpr hmagic)]
      split
      · refine ⟨_, s.first (.circle h i), rfl, ?_, ?_, hchosen⟩
        · refine (hs.threaded_setCurr h _).congr rfl rfl (first_setBitmap _ h _) (fun l j hj => ?_)
            (count_setBitmap _ h _)
          rw [bitmap_setBitmap]
          by_cases hl : l = h
          · -- the marks are all above bit 31
            rw [hl, Function.update_self, Nat.testBit_or, Nat.testBit_shiftLeft,
              decide_eq_false (by omega), Bool.false_and, Bool.or_false]
            rfl
          · rw [Function.update_of_ne hl]
        · rw [bare_setBitmap, ← hclear]
          rfl
      · refine ⟨_, s.first (.circle h i), rfl, hs.threaded_setCurr h _, ?_, hchosen⟩
        rw [← hclear]
        rfl
  · rw [if_pos h0]
    refine ⟨_, s.emergencyProcess, rfl, (hs.threaded_setCurr h _).congr rfl rfl ?_
      (fun _ _ _ => rfl) rfl, rfl, ⟨hem.resolve_left h0, fun _ => rfl, fun he => absurd he h0⟩⟩
    funext q
    cases q <;> rfl

/-! ## The dispatch -/

/-- What `schedule` does apart from the links. -/
def dispatched (s : Kernel) (h x : Nat) : Kernel :=
  { (refilled s h).setCurr h x with emergencyProcess := 0 }.setState x .running

theorem bare_setCurr (s : Kernel) (h x : Nat) :
    { s.setCurr h x with emergencyProcess := 0 }.bare =
      { s.bare.setCurr h x with emergencyProcess := 0 } := by
  unfold Kernel.setCurr Kernel.onQueue bare
  congr 1
  funext l
  by_cases hl : l = h <;> simp [hl]

/-- Taking it, told on the board. -/
theorem board_setCurr (s : Kernel) (v : Place → List Nat) (h x : Nat) :
    board { s.setCurr h x with emergencyProcess := 0 } v =
      { board s v with curr := Function.update (board s v).curr h x, emergency := 0 } := by
  ext q b
  · rfl
  · rfl
  · rfl
  · rfl
  · rfl
  · rfl
  · show ((s.setCurr h x).queues q).currProcess = Function.update s.curr h x q
    by_cases hq : q = h <;> simp [Kernel.setCurr, Kernel.onQueue, Kernel.curr, hq]
  · show ((s.setCurr h x).queues q).idleProcess = (s.queues q).idleProcess
    by_cases hq : q = h <;> simp [Kernel.setCurr, Kernel.onQueue, hq]
  · rfl

/-- A dispatch, told on the board. -/
theorem board_dispatched (s : Kernel) (v : Place → List Nat) (h x : Nat) :
    board (dispatched s h x) v = ((board s v).release h).dispatch h x := by
  rw [dispatched, board_setState, board_setCurr, board_refilled, Board.dispatch]

/-- A dispatch with no emergency, or one of the hart's own. -/
theorem Settled.schedule (hs : Settled s v) (hh : s.started h = true) (hem : Close s v h) :
    ∃ s' x, s.schedule h = .done () s' ∧ Settled s' (rotated s h v) ∧
      s'.bare = (dispatched s h x).bare ∧ Chosen s.emergencyProcess (rotated s h v) h x ∧
      ((refilled s h).procs x).state = .ready ∧
      board s' (rotated s h v) = ((board s v).release h).dispatch h x := by
  obtain ⟨hs₁, hb₁⟩ := hs.putBack hh
  have hfields : (s.putBack h).emergencyProcess = s.emergencyProcess ∧
      (s.putBack h).started = s.started ∧ (s.putBack h).curr = s.curr := by
    unfold Kernel.putBack
    dsimp only
    split
    · refine ⟨rfl, rfl, ?_⟩
      funext l
      by_cases hl : l = h <;> simp [Kernel.curr, Kernel.setCircle, Kernel.onQueue, hl]
    · exact ⟨rfl, rfl, rfl⟩
  obtain ⟨hem₁, hst₁, hcurr₁⟩ := hfields
  have hclose : Close (s.putBack h) (rotated s h v) h := by
    unfold Close
    rw [hem₁]
    exact hem.imp_right (Exists.imp fun i hi => (mem_rotated _ _).mpr hi)
  obtain ⟨s₂, x, hrun, ht₂, hb₂, hchosen⟩ := hs₁.choose (hst₁ ▸ hh) hclose
  rw [hem₁] at hchosen
  obtain ⟨i, hi⟩ := hchosen.own
  obtain ⟨hv, hcurr, hon, hquiet⟩ := hs.valid.release
  have hbx : board s₂ (rotated s h v) =
      { (board s v).release h with
        curr := Function.update ((board s v).release h).curr h x, emergency := 0 } := by
    rw [board_congr hb₂ fun _ _ => Iff.rfl, board_setCurr, board_congr hb₁ mem_rotated,
      board_refilled]
  have hmem : x ∈ ((board s v).release h).on (.circle h i) := by
    rw [hon]
    exact (mem_rotated _ _).mp hi
  have hready : ((board s v).release h).state x = .ready := by
    refine (hv.circle hmem).2.2.resolve_right fun hr => ?_
    have hxc := hv.running hmem hr
    rw [hcurr] at hxc
    exact hquiet (hxc ▸ hr)
  have hb₃ : (s₂.setState x .running).bare = (dispatched s h x).bare := by
    rw [dispatched, bare_setState, bare_setState, hb₂, bare_setCurr, bare_setCurr, hb₁]
  have hboard : board (s₂.setState x .running) (rotated s h v) =
      ((board s v).release h).dispatch h x := by
    rw [board_congr hb₃ mem_rotated, board_dispatched]
  have hx : s₂.curr h = x := by
    have hc : (board s₂ (rotated s h v)).curr h = x := by
      rw [hbx]
      exact Function.update_self ..
    exact hc
  have hst₂ : (s₂.procs x).state = .ready := by
    have hc : (board s₂ (rotated s h v)).state x = .ready := by
      rw [hbx]
      exact hready
    exact hc
  refine ⟨s₂.setState x .running, x, ?_, hs.rearranged ?_ ?_ (fun a => ?_) ?_, hb₃,
    hchosen, ?_, hboard⟩
  · unfold Kernel.schedule
    rw [if_neg (not_not.mpr (hs.magic _ (hs.curr_existing hh))), hrun, Outcome.bind_done, hx,
      if_neg (not_not.mpr hst₂)]
  · exact ht₂.modify (fun p => { p with state := .running }) (fun _ => rfl) fun _ => rfl
  · refine Same.of_bare ((same_refilled s h).trans ?_) hb₃
    exact Same.trans (k := { (refilled s h).setCurr h x with emergencyProcess := 0 })
      (Same.rest rfl) (Same.setState _ x .running)
  · exact exists_congr fun q => mem_rotated q a
  · rw [hboard]
    refine hv.dispatch ?_ hmem ?_
    · unfold Board.release
      split <;> exact hh
    · rw [hcurr]
      exact hquiet
  · have hst : (board (refilled s h) v).state x = .ready := by
      rw [board_refilled]
      exact hready
    exact hst

end RexOS.Smp
