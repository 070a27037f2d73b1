import RexOS.Scheduler.Walks
import RexOS.Smp.Dispatch

/-!
# The loops on several harts

The loops over circles and lists follow the places of a settled kernel. What each of them does is
said of the processes on these places: the children that an exit finds, the process that is
stolen, the sleepers and the senders that wake up.
-/

namespace RexOS.Smp

open Scheduler Kernel

variable {s s' k : Kernel} {v v' : Place → List Nat} {h a t n ptr p head pid : Nat}
  {r l xs ys : List Nat}

/-! ## Adoption -/

/-- Those in a list that are children of `pid` become children of the idle process. -/
def adoptAll (s : Kernel) (pid : Nat) (xs : List Nat) : Kernel :=
  { s with
    procs := fun a =>
      if a ∈ xs ∧ (s.procs a).parentPid = pid then { s.procs a with parentPid := 0 }
      else s.procs a }

/-- Nobody gets a new parent. -/
theorem adoptAll_nil (s : Kernel) (pid : Nat) : adoptAll s pid [] = s := by
  unfold adoptAll
  simp

theorem adopt_eq (s : Kernel) (pid a : Nat) : s.adopt pid a = adoptAll s pid [a] := by
  unfold adopt adoptAll
  split
  · rename_i hp
    unfold Kernel.modify
    congr 1
    funext b
    by_cases hb : b = a
    · subst hb
      simp [hp]
    · simp [hb]
  · rename_i hp
    have hnone : ∀ b, ¬ (b ∈ [a] ∧ (s.procs b).parentPid = pid) := by
      rintro b ⟨hb, hpb⟩
      exact hp (List.mem_singleton.mp hb ▸ hpb)
    simp only [hnone, if_false]

/-- Some processes and then some more. -/
theorem adoptAll_adoptAll (s : Kernel) (pid : Nat) (xs ys : List Nat) :
    adoptAll (adoptAll s pid xs) pid ys = adoptAll s pid (xs ++ ys) := by
  unfold adoptAll
  congr 1
  funext a
  by_cases hp : (s.procs a).parentPid = pid
  · by_cases hx : a ∈ xs <;> by_cases hy : a ∈ ys <;> simp [hp, hx, hy]
  · simp [hp]

/-- A field that is no parent stays. -/
theorem field_adoptAll {α : Type} (g : Process → α) (hg : ∀ x, g { x with parentPid := 0 } = g x)
    (s : Kernel) (pid : Nat) (xs : List Nat) :
    (fun a => g ((adoptAll s pid xs).procs a)) = fun a => g (s.procs a) := by
  funext a
  unfold adoptAll
  dsimp only
  split
  · exact hg _
  · rfl

/-- A new parent is in no link. -/
@[simp] theorem next_adoptAll : (adoptAll s pid xs).next = s.next :=
  field_adoptAll Process.next (fun _ => rfl) s pid xs

@[simp] theorem prev_adoptAll : (adoptAll s pid xs).prev = s.prev :=
  field_adoptAll Process.prev (fun _ => rfl) s pid xs

/-- A new parent is on no board. -/
theorem board_adoptAll (s : Kernel) (v : Place → List Nat) (pid : Nat) (xs : List Nat) :
    board (adoptAll s pid xs) v = board s v := by
  ext q b
  · rfl
  · exact congrFun (field_adoptAll Process.state (fun _ => rfl) s pid xs) q
  · exact congrFun (field_adoptAll Process.priority (fun _ => rfl) s pid xs) q
  · exact congrFun (field_adoptAll Process.pid (fun _ => rfl) s pid xs) q
  · exact congrFun (field_adoptAll (fun x => x.tf.kernelTp) (fun _ => rfl) s pid xs) q
  all_goals rfl

/-- So the state stays settled. -/
theorem Settled.adoptAll (hs : Settled s v) (pid : Nat) (xs : List Nat) :
    Settled (adoptAll s pid xs) v := by
  refine hs.rearranged ?_ ⟨rfl, fun a => ?_, fun a => ?_, ⟨rfl, rfl⟩, ⟨rfl, rfl, rfl⟩⟩
    (fun _ => Iff.rfl) ?_
  · refine hs.threaded.congr next_adoptAll prev_adoptAll ?_ (fun _ _ _ => rfl) rfl
    funext q
    cases q <;> rfl
  · exact congrFun (field_adoptAll Process.magic (fun _ => rfl) s pid xs) a
  · exact congrFun (field_adoptAll Process.pid (fun _ => rfl) s pid xs) a
  · rw [board_adoptAll]
    exact hs.valid

/-- The walk along a list gives every process on it the new parent. -/
theorem adoptList_eq (hseg : Dll.Seg s.next s.prev 0 p ptr r) (hn : r.length < n) :
    adoptList pid n ptr s = .done () (adoptAll s pid r) := by
  induction r generalizing s p ptr n with
  | nil =>
    cases n with
    | zero => exact absurd hn (Nat.not_lt_zero _)
    | succ n => rw [adoptList, if_pos (show ptr = 0 from hseg), adoptAll_nil]
  | cons x r ih =>
    obtain ⟨rfl, hne, _, htail⟩ := hseg
    cases n with
    | zero => exact absurd hn (Nat.not_lt_zero _)
    | succ n =>
      have hnext : ((adoptAll s pid [ptr]).procs ptr).next = s.next ptr :=
        congrFun (next_adoptAll : (adoptAll s pid [ptr]).next = s.next) ptr
      rw [← (next_adoptAll : (adoptAll s pid [ptr]).next = s.next),
        ← (prev_adoptAll : (adoptAll s pid [ptr]).prev = s.prev)] at htail
      have hrest := ih htail (n := n) (Nat.lt_of_succ_lt_succ hn)
      rw [adoptList, if_neg hne]
      dsimp only
      rw [adopt_eq, hnext]
      rw [next_adoptAll] at hrest
      rw [hrest, adoptAll_adoptAll]
      rfl

/-- So does the walk around a circle. -/
theorem adoptCircle_eq (hc : (ptr :: r).IsChain fun a b => s.next a = b)
    (hlast : s.next (r.getLast?.getD ptr) = head) (hne : head ∉ r) (hn : r.length < n) :
    adoptCircle pid head n ptr s = .done () (adoptAll s pid (ptr :: r)) := by
  induction r generalizing s ptr n with
  | nil =>
    cases n with
    | zero => exact absurd hn (Nat.not_lt_zero _)
    | succ n =>
      have hnext : ((adoptAll s pid [ptr]).procs ptr).next = head :=
        (congrFun (next_adoptAll : (adoptAll s pid [ptr]).next = s.next) ptr).trans hlast
      rw [adoptCircle, adopt_eq]
      exact if_neg (not_not.mpr hnext)
  | cons x r ih =>
    cases n with
    | zero => exact absurd hn (Nat.not_lt_zero _)
    | succ n =>
      rw [List.isChain_cons_cons] at hc
      have hnext : ((adoptAll s pid [ptr]).procs ptr).next = x :=
        (congrFun (next_adoptAll : (adoptAll s pid [ptr]).next = s.next) ptr).trans hc.1
      rw [List.getLast?_cons, Option.getD_some] at hlast
      have hxh : x ≠ head := fun he => hne (he ▸ List.mem_cons_self)
      have hrest := ih (s := adoptAll s pid [ptr]) (by rw [next_adoptAll]; exact hc.2)
        (by rw [next_adoptAll]; exact hlast) (fun hm => hne (List.mem_cons_of_mem _ hm)) (n := n)
        (Nat.lt_of_succ_lt_succ hn)
      rw [adoptCircle, adopt_eq, hnext, if_pos hxh, hrest, adoptAll_adoptAll]
      rfl

/-- A circle that has a first process. -/
theorem Settled.circle_of_bit (hs : Settled s v) {i : Nat} (hi : i < 32)
    (hbit : (s.queues h).lookupBitmap.testBit i = true) :
    ∃ y zs, v (.circle h i) = y :: zs ∧ (s.queues h).activeProcessCircles i = y ∧
      (y :: zs).IsChain (fun a b => s.next a = b) ∧ s.next (zs.getLast?.getD y) = y ∧ y ∉ zs ∧
      zs.length < s.existing.length + 1 := by
  obtain ⟨y, zs, hxs⟩ : ∃ y zs, v (.circle h i) = y :: zs :=
    List.exists_cons_of_ne_nil ((hs.threaded.bits h i hi).mp hbit)
  have hw : Wheel s.next s.prev (y :: zs) := hxs ▸ hs.threaded.wheel h i
  have hfirst : (s.queues h).activeProcessCircles i = y := by
    have hf := hs.threaded.first_circle h i
    rw [hxs] at hf
    exact hf
  have hlen := hs.length_le (.circle h i)
  rw [hxs, List.length_cons] at hlen
  exact ⟨y, zs, hxs, hfirst, hw.inner.imp fun _ _ hc => hc.1, hw.next_last,
    (List.nodup_cons.mp hw.nodup).1, by omega⟩

/-- So does the walk around the circles of a hart. -/
theorem Settled.adoptCircles (hs : Settled s v) {is : List Nat} (his : ∀ i ∈ is, i < 32) :
    adoptCircles h pid is s =
      .done () (Smp.adoptAll s pid (is.flatMap fun i => v (.circle h i))) := by
  induction is generalizing s with
  | nil => rw [Kernel.adoptCircles, List.flatMap_nil, adoptAll_nil]
  | cons i is ih =>
    have hrest : ∀ j ∈ is, j < 32 := fun j hj => his j (List.mem_cons_of_mem _ hj)
    rw [Kernel.adoptCircles, List.flatMap_cons]
    by_cases hbit : (s.queues h).lookupBitmap.testBit i = true
    · obtain ⟨y, zs, hxs, hfirst, hc, hlast, hne, hlen⟩ :=
        hs.circle_of_bit (his i List.mem_cons_self) hbit
      rw [if_pos hbit]
      dsimp only
      rw [hfirst, adoptCircle_eq hc hlast hne hlen, Outcome.bind_done, ih (hs.adoptAll pid _) hrest,
        adoptAll_adoptAll, hxs]
    · have hempty : v (.circle h i) = [] := by
        by_contra hne
        exact hbit ((hs.threaded.bits h i (his i List.mem_cons_self)).mpr hne)
      rw [if_neg hbit, hempty, List.nil_append]
      exact ih hs hrest

/-- The circles of the hart itself are searched once for each hart that is up. -/
theorem Settled.adoptHarts (hs : Settled s v) (js : List Nat) :
    ∃ xs, adoptHarts h pid js s = .done () (Smp.adoptAll s pid xs) ∧
      ∀ a, a ∈ xs ↔ (∃ j ∈ js, s.started j = true) ∧ ∃ i < 32, a ∈ v (.circle h i) := by
  induction js generalizing s with
  | nil => exact ⟨[], by rw [Kernel.adoptHarts, adoptAll_nil], by simp⟩
  | cons j js ih =>
    rw [Kernel.adoptHarts]
    by_cases hj : s.started j = true
    · have hcircles : Kernel.adoptCircles h pid (List.range 32) s = .done () _ :=
        hs.adoptCircles fun i (hi : i ∈ List.range 32) => List.mem_range.mp hi
      obtain ⟨xs, hrun, hxs⟩ :=
        ih (hs.adoptAll pid ((List.range 32).flatMap fun i => v (.circle h i)))
      refine ⟨((List.range 32).flatMap fun i => v (.circle h i)) ++ xs, ?_, fun a => ?_⟩
      · rw [if_pos hj, hcircles, Outcome.bind_done, hrun, adoptAll_adoptAll]
      · rw [List.mem_append, hxs]
        simp only [List.mem_flatMap, List.mem_range, List.mem_cons, exists_eq_or_imp, hj, true_or,
          true_and]
        exact or_iff_left_of_imp fun hc => hc.2
    · obtain ⟨xs, hrun, hxs⟩ := ih hs
      refine ⟨xs, by rw [if_neg hj, hrun], fun a => ?_⟩
      rw [hxs]
      simp [hj]

/-- So does the walk along the wait lists. -/
theorem Settled.adoptLists (hs : Settled s v) (ws : List WaitList) :
    adoptLists pid ws s = .done () (Smp.adoptAll s pid (ws.flatMap fun w => v (.wait w))) := by
  induction ws generalizing s with
  | nil => rw [Kernel.adoptLists, List.flatMap_nil, adoptAll_nil]
  | cons w ws ih =>
    have hrun : adoptList pid (s.existing.length + 1) (s.heads w) s =
        .done () (Smp.adoptAll s pid (v (.wait w))) :=
      adoptList_eq (hs.threaded.dll w).seg (Nat.lt_succ_of_le (hs.length_le (.wait w)))
    rw [Kernel.adoptLists, hrun, Outcome.bind_done, ih (hs.adoptAll pid _), adoptAll_adoptAll,
      List.flatMap_cons]

/-! ## Exit -/

/-- A new parent is bare data. -/
theorem bare_adoptAll (s : Kernel) (pid : Nat) (xs : List Nat) :
    (adoptAll s pid xs).bare = adoptAll s.bare pid xs := by
  unfold adoptAll bare
  congr 1
  funext a
  dsimp only
  split <;> rfl

/-- So is the timer. -/
theorem bare_trigger (s : Kernel) (h : Nat) : (s.trigger h).bare = s.bare.trigger h := by
  unfold Kernel.trigger Kernel.onQueue bare
  congr 1
  funext l
  by_cases hl : l = h <;> simp [hl]

/-- What `exit_process` does apart from the links, with the processes that it finds. -/
def exited (s : Kernel) (h code : Nat) (xs : List Nat) : Kernel :=
  (adoptAll ((s.parked (s.curr h) .zombie).modify (s.curr h) fun p => { p with exitCode := code })
    (s.procs (s.curr h)).pid xs).trigger h

/-- The children on the circles of the hart and on the lists are found. -/
theorem Settled.exitProcess (hs : Settled s v) (hh : s.started h = true)
    (hon : (s.procs (s.curr h)).OnCircle) (hpid : (s.procs (s.curr h)).pid ≠ 0) (code : Nat) :
    ∃ s' xs, s.exitProcess h code = .done () s' ∧
      Settled s' (parkedPlaces s v h (s.curr h) .zombie) ∧ s'.bare = (exited s h code xs).bare ∧
      board s' (parkedPlaces s v h (s.curr h) .zombie) = (board s v).park h .zombie ∧
      ∀ a, a ∈ xs ↔ (∃ i < 32, a ∈ parkedPlaces s v h (s.curr h) .zombie (.circle h i)) ∨
        ∃ w, a ∈ parkedPlaces s v h (s.curr h) .zombie (.wait w) := by
  obtain ⟨s₁, hpark, hs₁, hb₁, hboard⟩ := hs.park hh hon hpid .zombie
  generalize parkedPlaces s v h (s.curr h) .zombie = v₁ at hs₁ hboard ⊢
  have hsame : Same s s₁ := by
    refine Same.of_bare ?_ hb₁
    exact Same.trans (k := { s with emergencyProcess :=
      if s.emergencyProcess = s.curr h then 0 else s.emergencyProcess }) (Same.rest rfl)
        (Same.setState _ _ _)
  let f : Process → Process := fun p => { p with exitCode := code }
  have hs₂ : Settled (s₁.modify (s.curr h) f) v₁ :=
    hs₁.modify (s.curr h) (fun _ => ⟨rfl, rfl, rfl, rfl⟩) (fun _ => ⟨rfl, rfl⟩) fun _ => ⟨rfl, rfl⟩
  have hpid₂ : ((s₁.modify (s.curr h) f).procs (s.curr h)).pid = (s.procs (s.curr h)).pid :=
    (congrFun (field_modify_same (g := Process.pid) (f := f) s₁ (s.curr h) fun _ => rfl) _).trans
      (hsame.pid _)
  obtain ⟨xs, hharts, hxs⟩ : ∃ xs,
      Kernel.adoptHarts h (s.procs (s.curr h)).pid (List.range s₁.hart) _ = _ ∧ _ :=
    hs₂.adoptHarts (List.range s₁.hart)
  have hlists : Kernel.adoptLists (s.procs (s.curr h)).pid _ _ = _ :=
    (hs₂.adoptAll (s.procs (s.curr h)).pid xs).adoptLists
      [.blocked, .zombie, .sleeping, .blockedIpc, .blockedIpcSend]
  rw [adoptAll_adoptAll] at hlists
  generalize hys :
    xs ++ [WaitList.blocked, .zombie, .sleeping, .blockedIpc, .blockedIpcSend].flatMap
    (fun w => v₁ (.wait w)) = ys at hlists
  have hs₃ := (hs₂.adoptAll (s.procs (s.curr h)).pid ys).trigger h
  refine ⟨_, ys, ?_, hs₃.1, ?_, ?_, fun a => ?_⟩
  · have hharts' : Kernel.adoptHarts h ((s₁.modify (s.curr h) f).procs (s.curr h)).pid
        (List.range (s₁.modify (s.curr h) f).hart) (s₁.modify (s.curr h) f) =
        .done () (Smp.adoptAll (s₁.modify (s.curr h) f) (s.procs (s.curr h)).pid xs) := by
      rw [hpid₂]
      exact hharts
    unfold Kernel.exitProcess
    dsimp only
    rw [hpark, Outcome.bind_done, hharts', Outcome.bind_done, hpid₂, hlists, Outcome.bind_done]
  · rw [exited, bare_trigger, bare_trigger, bare_adoptAll, bare_adoptAll,
      bare_modify _ _ fun _ => rfl, bare_modify _ _ fun _ => rfl, hb₁]
  · rw [hs₃.2, board_adoptAll, board_modify (f := f) s₁ v₁ _ fun _ => ⟨rfl, rfl, rfl, rfl⟩, hboard]
  · have hup : ∃ j ∈ List.range s₁.hart, (s₁.modify (s.curr h) f).started j = true :=
      ⟨h, List.mem_range.mpr (hs₁.range h (by rw [hsame.harts.1]; exact hh)),
        by show s₁.started h = true; rw [hsame.harts.1]; exact hh⟩
    rw [← hys, List.mem_append, hxs]
    simp only [hup, true_and]
    refine or_congr Iff.rfl ⟨fun hm => ?_, fun ⟨w, hw⟩ => ?_⟩
    · obtain ⟨w, -, hw⟩ := List.mem_flatMap.mp hm
      exact ⟨w, hw⟩
    · exact List.mem_flatMap.mpr ⟨w, by cases w <;> simp, hw⟩

/-! ## Sleepers -/

/-- One less in 32 bits. -/
def countDown (x : Nat) : Nat := if x % 2 ^ 32 = 0 then 0xFFFFFFFF else x % 2 ^ 32 - 1

/-- The machine takes one from a counter of 32 bits. -/
theorem countDown_eq (x : Nat) : (x + (2 ^ 32 - 1)) % 2 ^ 32 = countDown x := by
  unfold countDown
  split <;> omega

/-- A sleeper is counted down. -/
def counted (s : Kernel) (t : Nat) : Kernel :=
  s.modify t fun p => { p with ticksLeft := countDown p.ticksLeft }

/-- The next count wakes it up. -/
def LastTick (s : Kernel) (t : Nat) : Prop := countDown (s.procs t).ticksLeft = 0

instance (s : Kernel) (t : Nat) : Decidable (LastTick s t) := inferInstanceAs (Decidable (_ = _))

/-- What the loop of `update_sleep_list` does with one sleeper, apart from the links. -/
def napped (h : Nat) (s : Kernel) (t : Nat) : Kernel :=
  if LastTick s t then (woken (counted s t) h t).curtail h t else counted s t

/-- The same for all of a list. -/
def nappedAll (h : Nat) (s : Kernel) (ts : List Nat) : Kernel := ts.foldl (napped h) s

/-- The count of a sleeper is bare data. -/
theorem bare_counted (s : Kernel) (t : Nat) : (counted s t).bare = counted s.bare t :=
  bare_modify s t fun _ => rfl

/-- So is the state of a process that wakes. -/
theorem bare_woken (s : Kernel) (h t : Nat) : (woken s h t).bare = woken s.bare h t := by
  rw [woken, bare_setTp, bare_setState, woken]

/-- So is the rest of a slice. -/
theorem bare_curtail (s : Kernel) (h t : Nat) : (s.curtail h t).bare = s.bare.curtail h t := by
  have hcond : (s.bare.procs t).priority < (s.bare.procs (s.bare.curr h)).priority ↔
      (s.procs t).priority < (s.procs (s.curr h)).priority := Iff.rfl
  unfold Kernel.curtail
  by_cases hc : (s.procs t).priority < (s.procs (s.curr h)).priority
  · rw [if_pos hc, if_pos (hcond.mpr hc)]
    exact bare_modify s (s.curr h) fun _ => rfl
  · rw [if_neg hc, if_neg fun hb => hc (hcond.mp hb)]

/-- So is all that the walk does to one sleeper. -/
theorem bare_napped (h : Nat) (s : Kernel) (t : Nat) : (napped h s t).bare = napped h s.bare t := by
  have hcond : LastTick s.bare t ↔ LastTick s t := Iff.rfl
  unfold napped
  by_cases hc : LastTick s t
  · rw [if_pos hc, if_pos (hcond.mpr hc), bare_curtail, bare_woken, bare_counted]
  · rw [if_neg hc, if_neg fun hb => hc (hcond.mp hb), bare_counted]

/-- So is all that it does to the sleepers. -/
theorem bare_nappedAll (h : Nat) (s : Kernel) (ts : List Nat) :
    (nappedAll h s ts).bare = nappedAll h s.bare ts := by
  induction ts generalizing s with
  | nil => rfl
  | cons t ts ih =>
    have hrest := ih (napped h s t)
    rw [bare_napped] at hrest
    exact hrest

/-- The tick that a hart takes away from its process. -/
theorem Settled.curtail (hs : Settled s v) (h t : Nat) :
    Settled (s.curtail h t) v ∧ board (s.curtail h t) v = board s v := by
  unfold Kernel.curtail
  split
  · let f : Process → Process := fun p => { p with ticksLeft := 0 }
    exact ⟨hs.modify (f := f) (s.curr h) (fun _ => ⟨rfl, rfl, rfl, rfl⟩) (fun _ => ⟨rfl, rfl⟩)
      fun _ => ⟨rfl, rfl⟩, board_modify (f := f) s v _ fun _ => ⟨rfl, rfl, rfl, rfl⟩⟩
  · exact ⟨hs, rfl⟩

/-- Counting down is on no board. -/
theorem Settled.counted (hs : Settled s v) (t : Nat) :
    Settled (counted s t) v ∧ board (Smp.counted s t) v = board s v := by
  let f : Process → Process := fun p => { p with ticksLeft := countDown p.ticksLeft }
  exact ⟨hs.modify (f := f) t (fun _ => ⟨rfl, rfl, rfl, rfl⟩) (fun _ => ⟨rfl, rfl⟩)
    fun _ => ⟨rfl, rfl⟩, board_modify (f := f) s v t fun _ => ⟨rfl, rfl, rfl, rfl⟩⟩

/-- A sleeper that is about to wake up is in `T`, and no hart but `h` runs it. -/
def Wakeable (T : Nat → Prop) (s : Kernel) (h : Nat) (ts : List Nat) : Prop :=
  ∀ t ∈ ts, LastTick s t → T t ∧ ∀ k, s.started k = true → s.curr k = t → k = h

/-- One sleeper. -/
structure Napped (T : Nat → Prop) (h t : Nat) (s : Kernel) (v : Place → List Nat) (s' : Kernel)
    (v' : Place → List Nat) :
    Prop where
  bare : s'.bare = (napped h s t).bare
  places : v' = if LastTick s t then wokenPlaces s v h t .sleeping else v
  free : LastTick s t → T t ∧ ∀ k, s.started k = true → s.curr k = t → k = h

/-- What cutting a slice short does to the processes. -/
theorem procs_curtail (s : Kernel) (h t a : Nat) : (s.curtail h t).procs a =
    if a = s.curr h ∧ (s.procs t).priority < (s.procs (s.curr h)).priority then
      { s.procs a with ticksLeft := 0 }
    else s.procs a := by
  unfold Kernel.curtail
  by_cases hc : (s.procs t).priority < (s.procs (s.curr h)).priority
  · rw [if_pos hc, procs_modify]
    by_cases ha : a = s.curr h
    · rw [if_pos ha, if_pos ⟨ha, hc⟩, ha]
    · rw [if_neg ha, if_neg fun hac => ha hac.1]
  · rw [if_neg hc, if_neg fun hac => hc hac.2]

/-- A nap leaves the other sleepers as they were, but that it may take its slice from the process of
the hart. -/
theorem napped_other (h : Nat) (s : Kernel) (hta : a ≠ t) :
    (napped h s t).procs a = s.procs a ∨
      (napped h s t).procs a = { s.procs a with ticksLeft := 0 } := by
  have hcount : (counted s t).procs a = s.procs a := by
    simp [counted, Kernel.modify, hta]
  unfold napped
  split
  · have hwoken : (woken (counted s t) h t).procs a = s.procs a := by
      rw [procs_woken, if_neg hta, hcount]
    rw [procs_curtail, hwoken]
    split
    · exact Or.inr rfl
    · exact Or.inl rfl
  · exact Or.inl hcount

/-- Whether a sleeper wakes does not depend on the others. -/
theorem LastTick.of_napped (hta : a ≠ t) (hlast : LastTick (napped h s t) a) : LastTick s a := by
  unfold LastTick at hlast ⊢
  rcases napped_other h s hta with he | he
  · rwa [he] at hlast
  · rw [he] at hlast
    exact absurd (show countDown 0 = 0 from hlast) (by decide)

/-- One sleeper of the walk, and then the others. -/
theorem updateSleepListFrom_succ (hne : ptr ≠ 0) : updateSleepListFrom h (n + 1) ptr s =
    if LastTick s ptr then
      ((counted s ptr).unpark h ptr .sleeping).bind fun _ k =>
        updateSleepListFrom h n (s.procs ptr).next (k.curtail h ptr)
    else updateSleepListFrom h n (s.procs ptr).next (counted s ptr) := by
  have hcount :
    (s.modify ptr fun p => { p with ticksLeft := (p.ticksLeft + (2 ^ 32 - 1)) % 2 ^ 32 }) =
      counted s ptr := by
    simp only [countDown_eq]
    rfl
  have hticks : ((counted s ptr).procs ptr).ticksLeft = countDown (s.procs ptr).ticksLeft := by
    simp [counted, Kernel.modify]
  rw [Kernel.updateSleepListFrom, if_neg hne]
  dsimp only
  rw [hcount, hticks]
  rfl

/-- The loop goes through the sleepers one by one; what each of them keeps, the loop keeps. -/
theorem Settled.updateSleepListFrom {T : Nat → Prop} {I : Kernel → (Place → List Nat) → Prop}
    (hs : Settled s v) (hv : v (.wait .sleeping) = l ++ r) (hn : r.length < n)
    (hw : Wakeable T s h r) (hh : s.started h = true) (hI : I s v)
    (hstep : ∀ {s v s' v'} t, Settled s v → s.started h = true → t ∈ v (.wait .sleeping) → I s v →
      Settled s' v' → Napped T h t s v s' v' → I s' v') :
    ∃ s' v', updateSleepListFrom h n (r.head?.getD 0) s = .done () s' ∧ Settled s' v' ∧
      s'.bare = (nappedAll h s r).bare ∧ I s' v' := by
  induction r generalizing s v l n with
  | nil =>
    cases n with
    | zero => exact absurd hn (Nat.not_lt_zero _)
    | succ n => exact ⟨s, v, rfl, hs, rfl, hI⟩
  | cons x r ih =>
    cases n with
    | zero => exact absurd hn (Nat.not_lt_zero _)
    | succ n =>
      have hx : x ∈ v (.wait .sleeping) := by
        rw [hv]
        exact List.mem_append_right _ List.mem_cons_self
      have hdll := hs.threaded.dll .sleeping
      rw [hv] at hdll
      have hnext : (s.procs x).next = r.head?.getD 0 := hdll.seg.around.2
      have hx0 : x ≠ 0 := hdll.ne_nil x (List.mem_append_right _ List.mem_cons_self)
      have hxl : x ∉ l := fun hm =>
        (List.nodup_append.mp hdll.nodup).2.2 x hm x List.mem_cons_self rfl
      have hxr : x ∉ r := (List.nodup_cons.mp (List.nodup_append.mp hdll.nodup).2.1).1
      obtain ⟨hs₁, hb₁⟩ := hs.counted x
      have hkeep : ∀ {s' : Kernel}, s'.bare = (napped h s x).bare → Wakeable T s' h r := by
        intro s' hb t ht hlast
        have hfields : s'.started = s.started ∧ s'.curr = s.curr ∧
            (s'.procs t).ticksLeft = ((napped h s x).procs t).ticksLeft := by
          have hst : s'.bare.started = (napped h s x).bare.started ∧
              s'.bare.curr = (napped h s x).bare.curr ∧
              (s'.bare.procs t).ticksLeft = ((napped h s x).bare.procs t).ticksLeft := by
            rw [hb]
            exact ⟨rfl, rfl, rfl⟩
          have hnap : (napped h s x).started = s.started ∧ (napped h s x).curr = s.curr := by
            unfold napped Kernel.curtail
            split
            · split <;> exact ⟨rfl, rfl⟩
            · exact ⟨rfl, rfl⟩
          exact ⟨hst.1.trans hnap.1, hst.2.1.trans hnap.2, hst.2.2⟩
        obtain ⟨hst, hc, htick⟩ := hfields
        have hxt : t ≠ x := fun he => hxr (he ▸ ht)
        have hnapped : LastTick (napped h s x) t := by
          unfold LastTick at hlast ⊢
          rwa [htick] at hlast
        rw [hst, hc]
        exact hw t (List.mem_cons_of_mem _ ht) (hnapped.of_napped hxt)
      rw [List.head?_cons, Option.getD_some, updateSleepListFrom_succ hx0, hnext]
      by_cases hlast : LastTick s x
      · obtain ⟨s₂, hrun, hs₂, hb₂, hboard₂⟩ := hs₁.unpark (w := .sleeping) (h := h) hh
          (hs₁.mem_existing hx) (hs₁.valid.wait hx).1
          (fun k hk he => (hw x List.mem_cons_self hlast).2 k hk he)
        obtain ⟨hs₃, hb₃⟩ := hs₂.curtail h x
        have hnap : (s₂.curtail h x).bare = (napped h s x).bare := by
          rw [napped, if_pos hlast, bare_curtail, bare_curtail, hb₂]
        have hplaces :
            wokenPlaces (Smp.counted s x) v h x .sleeping = wokenPlaces s v h x .sleeping := by
          have hprio : ((Smp.counted s x).procs x).priority = (s.procs x).priority := by
            simp [Smp.counted, Kernel.modify]
          unfold wokenPlaces
          rw [hprio]
        rw [hplaces] at hs₂ hboard₂ hs₃ hb₃
        have hnapped : Napped T h x s v (s₂.curtail h x) (wokenPlaces s v h x .sleeping) := by
          exact ⟨hnap, (if_pos hlast).symm, hw x List.mem_cons_self⟩
        have hv₂ : wokenPlaces s v h x .sleeping (.wait .sleeping) = l ++ r := by
          rw [wokenPlaces, Function.update_of_ne (by simp), Function.update_self, hv,
            List.erase_append_right _ hxl, List.erase_cons_head]
        have hup : (board (s₂.curtail h x) (wokenPlaces s v h x .sleeping)).up =
            (board s v).up := by
          rw [hb₃, hboard₂, hb₁]
          rfl
        have hh₃ : (s₂.curtail h x).started h = true := by
          show h ∈ (board (s₂.curtail h x) (wokenPlaces s v h x .sleeping)).up
          rw [hup]
          exact hh
        obtain ⟨s', v', hrun', hs', hb', hI'⟩ := ih hs₃ hv₂ (n := n) (Nat.lt_of_succ_lt_succ hn)
          (hkeep hnap) hh₃ (hstep x hs hh hx hI hs₃ hnapped)
        refine ⟨s', v', ?_, hs', ?_, hI'⟩
        · rw [if_pos hlast, hrun, Outcome.bind_done]
          exact hrun'
        · rw [hb', bare_nappedAll, hnap, ← bare_nappedAll]
          rfl
      · have hnapped : Napped T h x s v (Smp.counted s x) v := by
          refine ⟨?_, (if_neg hlast).symm, fun hl => absurd hl hlast⟩
          rw [napped, if_neg hlast]
        have hv₁ : v (.wait .sleeping) = (l ++ [x]) ++ r := by
          rw [hv, List.append_assoc]
          rfl
        obtain ⟨s', v', hrun', hs', hb', hI'⟩ := ih hs₁ hv₁ (n := n) (Nat.lt_of_succ_lt_succ hn)
          (hkeep hnapped.bare) hh (hstep x hs hh hx hI hs₁ hnapped)
        refine ⟨s', v', ?_, hs', ?_, hI'⟩
        · rw [if_neg hlast]
          exact hrun'
        · rw [hb']
          show (nappedAll h (Smp.counted s x) r).bare = (nappedAll h (napped h s x) r).bare
          rw [napped, if_neg hlast]

end RexOS.Smp
