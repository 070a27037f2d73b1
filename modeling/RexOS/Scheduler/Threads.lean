import RexOS.Scheduler.Places

/-!
# Moving a process between places

The links of memory thread the processes through their places. Leaving a circle, entering
one, entering a list and being taken out of a list each edit one place, and a circle may be
turned.
-/

namespace RexOS.Scheduler

open Bits Kernel

/-- The number of processes on the circles of a hart. -/
def load (v : Place → List Nat) (h : Nat) : Nat :=
  ∑ i ∈ Finset.range 32, (v (.circle h i)).length

/-- The links spell `v`, whose places are apart, and the bitmap and the count agree with it. -/
structure Threaded (s : Kernel) (v : Place → List Nat) : Prop where
  linked : ∀ p, s.Linked p (v p)
  apart : ∀ p q a, a ∈ v p → a ∈ v q → p = q
  nonzero : ∀ p, 0 ∉ v p
  low : ∀ h i, 32 ≤ i → v (.circle h i) = []
  bits : ∀ h i, i < 32 → ((s.bitmap h).testBit i = true ↔ v (.circle h i) ≠ [])
  counted : ∀ h, s.count h = load v h

variable {s s' : Kernel} {v : Place → List Nat} {p : Place} {ys : List Nat} {h i a t : Nat}
  {w : WaitList}

/-! ## One place edited -/

/-- A wait list does not count for the load of a hart. -/
theorem load_update_wait : load (Function.update v (.wait w) ys) h = load v h := by
  unfold load
  refine Finset.sum_congr rfl fun i _ => ?_
  rw [Function.update_of_ne (by simp)]

/-- The circles of one hart do not count for another one. -/
theorem load_update_other {k : Nat} (hk : h ≠ k) :
    load (Function.update v (.circle k i) ys) h = load v h := by
  unfold load
  refine Finset.sum_congr rfl fun j _ => ?_
  rw [Function.update_of_ne]
  intro he
  exact hk (Place.circle.inj he).1

/-- A circle counts for its hart with its length. -/
theorem load_update_circle (v : Place → List Nat) (h : Nat) (ys : List Nat) (hi : i < 32) :
    load (Function.update v (.circle h i) ys) h + (v (.circle h i)).length =
      load v h + ys.length := by
  have hmem : i ∈ Finset.range 32 := Finset.mem_range.mpr hi
  unfold load
  rw [← Finset.add_sum_erase _ _ hmem,
    ← Finset.add_sum_erase _ (fun j => (v (.circle h j)).length) hmem, Function.update_self]
  have hrest : ∑ j ∈ (Finset.range 32).erase i,
      (Function.update v (.circle h i) ys (.circle h j)).length =
      ∑ j ∈ (Finset.range 32).erase i, (v (.circle h j)).length := by
    refine Finset.sum_congr rfl fun j hj => ?_
    rw [Function.update_of_ne]
    intro he
    exact (Finset.mem_erase.mp hj).1 (Place.circle.inj he).2
  omega

/-- A place is linked as before where its members and its first process are as before. -/
theorem Kernel.Linked.congr (hl : s.Linked p ys) (hn : ∀ a ∈ ys, s'.next a = s.next a)
    (hp : ∀ a ∈ ys, s'.prev a = s.prev a) (hf : s'.first p = s.first p) : s'.Linked p ys := by
  cases p with
  | circle k j => exact ⟨hl.1.congr hn hp, hf.trans hl.2⟩
  | wait w =>
    show Dll s'.next s'.prev 0 (s'.first (.wait w)) ys
    rw [hf]
    exact Dll.congr hl hn hp

/-- A linked place has no process twice. -/
theorem Kernel.Linked.nodup (hl : s.Linked p ys) : ys.Nodup := by
  cases p with
  | circle k j => exact hl.1.nodup
  | wait w => exact Dll.nodup hl

/-! ## Taking a node out of a list -/

namespace Kernel

/-- The forward links after a process has left its list. -/
theorem next_unlinkList (s : Kernel) (t : Nat) (w : WaitList) : (s.unlinkList t w).next =
    if t = s.heads w then s.next else Function.update s.next (s.prev t) (s.next t) := by
  unfold unlinkList
  dsimp only
  by_cases hhead : t = s.heads w
  · rw [if_pos hhead, if_pos hhead]
    split <;> simp only [next_setPrev, next_setHead]
  · rw [if_neg hhead, if_neg hhead]
    split
    · rw [next_setNext, next_setPrev]
      rfl
    · rw [next_setNext]
      rfl

/-- The backward links after that. -/
theorem prev_unlinkList (s : Kernel) (t : Nat) (w : WaitList) : (s.unlinkList t w).prev =
    if s.next t = 0 then s.prev
    else Function.update s.prev (s.next t) (if t = s.heads w then 0 else s.prev t) := by
  unfold unlinkList
  dsimp only
  by_cases hhead : t = s.heads w
  · have hself : (s.setHead w (s.procs t).next).heads w = s.next t := Function.update_self ..
    rw [if_pos hhead, if_pos hhead, hself]
    by_cases hnext : s.next t = 0
    · rw [if_neg (not_not.mpr hnext), if_pos hnext, prev_setHead]
    · rw [if_pos hnext, if_neg hnext, prev_setPrev, prev_setHead]
  · rw [if_neg hhead, if_neg hhead]
    by_cases hnext : s.next t = 0
    · have hn : ¬ (s.procs t).next ≠ 0 := not_not.mpr hnext
      rw [if_neg hn, if_pos hnext, prev_setNext]
    · have hn : (s.procs t).next ≠ 0 := hnext
      rw [if_pos hn, if_neg hnext, prev_setNext, prev_setPrev]
      rfl

/-- The list heads after that. -/
theorem first_unlinkList (s : Kernel) (t : Nat) (w : WaitList) : (s.unlinkList t w).first =
    if t = s.heads w then Function.update s.first (.wait w) (s.next t) else s.first := by
  unfold unlinkList
  dsimp only
  by_cases hhead : t = s.heads w
  · rw [if_pos hhead, if_pos hhead]
    split <;> simp only [first_setPrev, first_setHead] <;> rfl
  · rw [if_neg hhead, if_neg hhead]
    split <;> simp only [first_setPrev, first_setNext]

/-- A wait list is in no run queue. -/
theorem queues_unlinkList (s : Kernel) (t : Nat) (w : WaitList) (k : Nat) :
    (s.unlinkList t w).bitmap k = s.bitmap k ∧ (s.unlinkList t w).count k = s.count k := by
  unfold unlinkList
  dsimp only
  split
  · split <;> exact ⟨rfl, rfl⟩
  · split <;> exact ⟨rfl, rfl⟩

/-- A list without one of its nodes. -/
theorem dll_unlinkList {xs : List Nat} (hd : Dll s.next s.prev 0 (s.first (.wait w)) xs)
    (ha : t ∈ xs) :
    Dll (s.unlinkList t w).next (s.unlinkList t w).prev 0 ((s.unlinkList t w).first (.wait w))
      (xs.erase t) := by
  have hnz : ∀ b ∈ xs.erase t, b ≠ 0 := fun b hb => hd.ne_nil b (List.mem_of_mem_erase hb)
  have hhead : s.prev t = 0 ↔ t = s.heads w := hd.prev_eq_nil_iff ha
  refine hd.unlink ha ?_ (fun b hb => ?_) fun b hb => ?_
  · rw [first_unlinkList]
    by_cases hp : s.prev t = 0
    · rw [if_pos hp, if_pos (hhead.mp hp), Function.update_self]
    · rw [if_neg hp, if_neg (mt hhead.mpr hp)]
  · rw [next_unlinkList]
    by_cases hp : s.prev t = 0
    · rw [if_pos (hhead.mp hp), hp, if_neg (hnz b hb)]
    · rw [if_neg (mt hhead.mpr hp), Function.update_apply]
  · rw [prev_unlinkList]
    by_cases hn : s.next t = 0
    · rw [if_pos hn, hn, if_neg (hnz b hb)]
    · rw [if_neg hn, Function.update_apply]
      by_cases hp : s.prev t = 0
      · rw [if_pos (hhead.mp hp), hp]
      · rw [if_neg (mt hhead.mpr hp)]

end Kernel

namespace Threaded

/-- No process is in two places. -/
theorem disjoint (ht : Threaded s v) {q : Place} (ha : a ∈ v p) (hq : q ≠ p) : a ∉ v q :=
  fun hb => hq (ht.apart q p a hb ha)

/-- What the edit of one place has to keep. The circles of a hart may be edited with its bitmap
and its count, which the last two hypotheses relate. -/
theorem edit (ht : Threaded s v) (hl : s'.Linked p ys)
    (hmem : ∀ a ∈ ys, a ∈ v p ∨ a ≠ 0 ∧ ∀ q, a ∉ v q)
    (hnext : ∀ q ≠ p, ∀ a ∈ v q, s'.next a = s.next a)
    (hprev : ∀ q ≠ p, ∀ a ∈ v q, s'.prev a = s.prev a)
    (hfirst : ∀ q ≠ p, s'.first q = s.first q)
    (hlow : ∀ h i, p = .circle h i → i < 32)
    (hbits : ∀ h i, i < 32 → ((s'.bitmap h).testBit i = true ↔
      if .circle h i = p then ys ≠ [] else (s.bitmap h).testBit i = true))
    (hcount : ∀ h, s'.count h = load (Function.update v p ys) h) :
    Threaded s' (Function.update v p ys) := by
  have hout : ∀ q a, q ≠ p → a ∈ v q → a ∉ ys := by
    intro q a hq ha hin
    rcases hmem a hin with hp | ⟨_, hno⟩
    · exact ht.disjoint hp hq ha
    · exact hno q ha
  refine ⟨fun q => ?_, fun q r a hq hr => ?_, fun q hz => ?_, fun h i hi => ?_, fun h i hi => ?_,
    hcount⟩
  · by_cases hq : q = p
    · subst hq
      rw [Function.update_self]
      exact hl
    · rw [Function.update_of_ne hq]
      exact (ht.linked q).congr (hnext q hq) (hprev q hq) (hfirst q hq)
  · by_cases hqp : q = p
    · by_cases hrp : r = p
      · exact hqp.trans hrp.symm
      · rw [hqp, Function.update_self] at hq
        rw [Function.update_of_ne hrp] at hr
        exact absurd hq (hout r a hrp hr)
    · rw [Function.update_of_ne hqp] at hq
      by_cases hrp : r = p
      · rw [hrp, Function.update_self] at hr
        exact absurd hr (hout q a hqp hq)
      · rw [Function.update_of_ne hrp] at hr
        exact ht.apart q r a hq hr
  · by_cases hq : q = p
    · rw [hq, Function.update_self] at hz
      rcases hmem 0 hz with hp | ⟨hne, _⟩
      · exact ht.nonzero p hp
      · exact hne rfl
    · rw [Function.update_of_ne hq] at hz
      exact ht.nonzero q hz
  · rw [Function.update_of_ne]
    · exact ht.low h i hi
    · rintro rfl
      exact absurd (hlow h i rfl) (Nat.not_lt.mpr hi)
  · rw [hbits h i hi]
    by_cases hq : Place.circle h i = p
    · rw [if_pos hq, hq, Function.update_self]
    · rw [if_neg hq, Function.update_of_ne hq]
      exact ht.bits h i hi

/-- A store that touches no link, circle or list. -/
theorem congr (ht : Threaded s v) (hn : s'.next = s.next) (hp : s'.prev = s.prev)
    (hf : s'.first = s.first)
    (hb : ∀ h i, i < 32 → (s'.bitmap h).testBit i = (s.bitmap h).testBit i)
    (hc : s'.count = s.count) : Threaded s' v where
  linked p :=
    (ht.linked p).congr (fun a _ => congrFun hn a) (fun a _ => congrFun hp a) (congrFun hf p)
  apart := ht.apart
  nonzero := ht.nonzero
  low := ht.low
  bits h i hi := by
    rw [hb h i hi]
    exact ht.bits h i hi
  counted h := by
    rw [hc]
    exact ht.counted h

/-- A store into fields of a process other than its links. -/
theorem modify (ht : Threaded s v) (f : Process → Process) (hn : ∀ x, (f x).next = x.next)
    (hp : ∀ x, (f x).prev = x.prev) : Threaded (s.modify a f) v := by
  refine ht.congr ?_ ?_ (first_modify s a f) (fun _ _ _ => rfl) rfl
  · funext y
    by_cases hy : y = a <;> simp [Kernel.next, Kernel.modify, hy, hn]
  · funext y
    by_cases hy : y = a <;> simp [Kernel.prev, Kernel.modify, hy, hp]

/-- The priority of a process on a circle. -/
theorem lt_of_mem (ht : Threaded s v) (ha : a ∈ v (.circle h i)) : i < 32 := by
  by_contra hi
  rw [ht.low h i (Nat.not_lt.mp hi)] at ha
  exact absurd ha List.not_mem_nil

/-- A threaded circle is a wheel. -/
theorem wheel (ht : Threaded s v) (h i : Nat) : Wheel s.next s.prev (v (.circle h i)) :=
  (ht.linked (.circle h i)).1

/-- The pointer of a circle is at its first process. -/
theorem first_circle (ht : Threaded s v) (h i : Nat) :
    s.first (.circle h i) = (v (.circle h i)).head?.getD 0 := (ht.linked (.circle h i)).2

/-- A threaded wait list is doubly linked from its head. -/
theorem dll (ht : Threaded s v) (w : WaitList) :
    Dll s.next s.prev 0 (s.first (.wait w)) (v (.wait w)) := ht.linked (.wait w)

/-- A neighbour on a place is on no other. -/
theorem ne_of_mem (ht : Threaded s v) {q : Place} {b : Nat} (ha : a ∈ v p) (hq : q ≠ p)
    (hb : b ∈ v q) : b ≠ a := by
  rintro rfl
  exact ht.disjoint ha hq hb

/-! ## Circles -/

/-- The count after a process has left. -/
theorem count_left (ht : Threaded s v) (ha : t ∈ v (.circle h i)) (k : Nat) :
    Function.update s.count h (s.count h - 1) k =
      load (Function.update v (.circle h i) ((v (.circle h i)).erase t)) k := by
  have hlen := List.length_erase_of_mem ha
  have hpos := List.length_pos_of_mem ha
  by_cases hk : k = h
  · subst hk
    have hload := load_update_circle v k ((v (.circle k i)).erase t) (ht.lt_of_mem ha)
    rw [Function.update_self, ht.counted k]
    omega
  · rw [Function.update_of_ne hk, load_update_other hk]
    exact ht.counted k

/-- The count after a process has entered. -/
theorem count_joined (ht : Threaded s v) (hi : i < 32) (k : Nat) :
    Function.update s.count h (s.count h + 1) k =
      load (Function.update v (.circle h i) (v (.circle h i) ++ [t])) k := by
  by_cases hk : k = h
  · subst hk
    have hload := load_update_circle v k (v (.circle k i) ++ [t]) hi
    rw [List.length_append, List.length_singleton] at hload
    rw [Function.update_self, ht.counted k]
    omega
  · rw [Function.update_of_ne hk, load_update_other hk]
    exact ht.counted k

/-- A process leaves its circle, from wherever it is in it. -/
theorem leave (ht : Threaded s v) (ha : t ∈ v (.circle h (s.procs t).priority)) :
    Threaded (s.leaveCircle h t) (Function.update v (.circle h (s.procs t).priority)
      ((v (.circle h (s.procs t).priority)).erase t)) := by
  generalize hi : (s.procs t).priority = i at ha ⊢
  have hw := ht.wheel h i
  have hlt := ht.lt_of_mem ha
  have hlow : ∀ k j, Place.circle h i = .circle k j → j < 32 := by
    intro k j he
    rw [← (Place.circle.inj he).2]
    exact hlt
  have hmem : ∀ b ∈ (v (.circle h i)).erase t, b ∈ v (.circle h i) ∨ b ≠ 0 ∧ ∀ q, b ∉ v q :=
    fun b hb => Or.inl (List.mem_of_mem_erase hb)
  unfold leaveCircle
  dsimp only
  rw [hi]
  by_cases hself : (s.procs t).next = t
  · have hxs : v (.circle h i) = [t] := (hw.next_eq_self_iff ha).mp hself
    rw [if_pos hself]
    refine ht.edit ?_ hmem (fun q _ a _ => rfl) (fun q _ a _ => rfl) (fun q hq => ?_) hlow
      (fun k j hj => ?_) (fun k => ?_)
    · rw [hxs, List.erase_cons_head]
      refine ⟨Wheel.empty, ?_⟩
      rw [first_mapCount, first_setBitmap, first_setCircle, Function.update_self]
      rfl
    · rw [first_mapCount, first_setBitmap, first_setCircle, Function.update_of_ne hq]
    · rw [bitmap_mapCount, bitmap_setBitmap, bitmap_setCircle, hxs, List.erase_cons_head]
      by_cases hk : k = h
      · subst hk
        rw [Function.update_self, testBit_andNot, Nat.testBit_two_pow]
        by_cases hji : j = i
        · simp [hji]
        · have hij : i ≠ j := fun he => hji he.symm
          simp [hji, hij, Kernel.bitmap]
      · rw [Function.update_of_ne hk, if_neg fun he => hk (Place.circle.inj he).1]
    · rw [count_mapCount, count_setBitmap, count_setCircle]
      exact ht.count_left ha k
  · rw [if_neg hself]
    have hnt : s.next t ∈ v (.circle h i) := hw.next_mem ha
    have hpt : s.prev t ∈ v (.circle h i) := hw.prev_mem ha
    have htp : t ≠ s.prev t := by
      intro he
      refine hself ?_
      have hback := hw.next_prev ha
      rw [← he] at hback
      exact hback
    obtain ⟨y, zs, hxs⟩ : ∃ y zs, v (.circle h i) = y :: zs :=
      List.exists_cons_of_ne_nil (List.ne_nil_of_mem ha)
    have hfirst : s.first (.circle h i) = y := by
      rw [ht.first_circle, hxs]
      rfl
    have hne : (v (.circle h i)).erase t ≠ [] := by
      intro he
      have hone : v (.circle h i) = [t] := by
        rcases List.erase_eq_nil_iff.mp he with h0 | h1
        · exact absurd h0 (List.ne_nil_of_mem ha)
        · exact h1
      exact hself ((hw.next_eq_self_iff ha).mpr hone)
    generalize hs₁ : (s.setPrev (s.procs t).next (s.procs t).prev).setNext (s.procs t).prev
      (s.procs t).next = s₁
    have hnext : s₁.next = Function.update s.next (s.prev t) (s.next t) := by
      rw [← hs₁, next_setNext, next_setPrev]
      rfl
    have hprev : s₁.prev = Function.update s.prev (s.next t) (s.prev t) := by
      rw [← hs₁, prev_setNext, prev_setPrev]
      rfl
    have hf₁ : s₁.first = s.first := by rw [← hs₁, first_setNext, first_setPrev]
    have hb₁ : s₁.bitmap = s.bitmap := by rw [← hs₁, bitmap_setNext, bitmap_setPrev]
    have hc₁ : s₁.count = s.count := by rw [← hs₁, count_setNext, count_setPrev]
    have hwheel : Wheel s₁.next s₁.prev ((v (.circle h i)).erase t) := by
      refine hw.remove ha (fun b _ => ?_) (fun b _ => ?_)
      · rw [hnext, Function.update_apply]
      · rw [hprev, Function.update_apply]
    have hkeep : ∀ q ≠ Place.circle h i, ∀ b ∈ v q, s₁.next b = s.next b ∧
        s₁.prev b = s.prev b := by
      intro q hq b hb
      rw [hnext, hprev, Function.update_of_ne (ht.ne_of_mem hpt hq hb),
        Function.update_of_ne (ht.ne_of_mem hnt hq hb)]
      exact ⟨rfl, rfl⟩
    have hbits : ∀ k j, j < 32 → ((s₁.bitmap k).testBit j = true ↔
        if Place.circle k j = .circle h i then (v (.circle h i)).erase t ≠ []
        else (s.bitmap k).testBit j = true) := by
      intro k j hj
      rw [hb₁]
      split
      · rename_i he
        obtain ⟨rfl, rfl⟩ := Place.circle.inj he
        exact iff_of_true ((ht.bits k j hj).mpr (List.ne_nil_of_mem ha)) hne
      · exact Iff.rfl
    by_cases hhead : t = (s₁.queues h).activeProcessCircles i
    · have hty : t = y := by
        rw [hhead, ← hfirst]
        exact congrFun hf₁ (.circle h i)
      have hnexty : s₁.next t = zs.head?.getD 0 := by
        have hlinks := (hxs ▸ hw).links.1
        have hzs : zs ≠ [] := by
          rintro rfl
          rw [hxs, hty, List.erase_cons_head] at hne
          exact hne rfl
        rw [hnext, Function.update_of_ne htp, hty, hlinks]
        cases zs with
        | nil => exact absurd rfl hzs
        | cons z zs => rfl
      rw [if_pos hhead]
      refine ht.edit ⟨hwheel, ?_⟩ hmem (fun q hq b hb => (hkeep q hq b hb).1)
        (fun q hq b hb => (hkeep q hq b hb).2) (fun q hq => ?_) hlow ?_ (fun k => ?_)
      · rw [first_mapCount, first_setCircle, Function.update_self, hxs, hty, List.erase_cons_head,
          ← hty]
        exact hnexty
      · rw [first_mapCount, first_setCircle, Function.update_of_ne hq, hf₁]
      · rw [bitmap_mapCount, bitmap_setCircle]
        exact hbits
      · rw [count_mapCount, count_setCircle, hc₁]
        exact ht.count_left ha k
    · have hty : y ≠ t := by
        rintro rfl
        refine hhead ?_
        rw [← hfirst]
        exact (congrFun hf₁ (.circle h i)).symm
      rw [if_neg hhead]
      refine ht.edit ⟨hwheel, ?_⟩ hmem (fun q hq b hb => (hkeep q hq b hb).1)
        (fun q hq b hb => (hkeep q hq b hb).2) (fun q _ => ?_) hlow ?_ (fun k => ?_)
      · rw [first_mapCount, hf₁, hfirst, hxs, List.erase_cons_tail (by simpa using hty)]
        rfl
      · rw [first_mapCount, hf₁]
      · rw [bitmap_mapCount]
        exact hbits
      · rw [count_mapCount, hc₁]
        exact ht.count_left ha k

/-- What entering a circle that has a first node stores. -/
theorem joinCircle_eq {y : Nat} (hbit : (s.bitmap h).testBit (s.procs t).priority = true)
    (hy : s.first (.circle h (s.procs t).priority) = y) :
    s.joinCircle h t =
      ((((s.setNext t y).setPrev t (s.prev y)).setNext (s.prev y) t).setPrev y t).mapCount
      h (· + 1) := by
  have hprev : ((s.setNext t y).procs y).prev = s.prev y := congrFun (prev_setNext s t y) y
  have hc : (s.queues h).activeProcessCircles (s.procs t).priority = y := hy
  have hb : (s.queues h).lookupBitmap.testBit (s.procs t).priority = true := hbit
  unfold joinCircle
  dsimp only
  rw [if_pos hb, hc]
  show ((((s.setNext t y).setPrev t ((s.setNext t y).procs
    ((s.queues h).activeProcessCircles (s.procs t).priority)).prev).setNext ((s.setNext t y).procs
    ((s.queues h).activeProcessCircles (s.procs t).priority)).prev t).setPrev
    ((s.queues h).activeProcessCircles (s.procs t).priority) t).mapCount h (· + 1) = _
  rw [hc, hprev]

/-- A process joins the circle of its priority as the last one. -/
theorem join (ht : Threaded s v) (hno : ∀ q, t ∉ v q) (h0 : t ≠ 0)
    (hlt : (s.procs t).priority < 32) :
    Threaded (s.joinCircle h t) (Function.update v (.circle h (s.procs t).priority)
      (v (.circle h (s.procs t).priority) ++ [t])) := by
  have hw := ht.wheel h (s.procs t).priority
  have hlow : ∀ k j, Place.circle h (s.procs t).priority = .circle k j → j < 32 := by
    intro k j he
    rw [← (Place.circle.inj he).2]
    exact hlt
  have hmem : ∀ b ∈ v (.circle h (s.procs t).priority) ++ [t],
      b ∈ v (.circle h (s.procs t).priority) ∨ b ≠ 0 ∧ ∀ q, b ∉ v q := by
    intro b hb
    rcases List.mem_append.mp hb with hb | hb
    · exact Or.inl hb
    · rw [List.mem_singleton.mp hb]
      exact Or.inr ⟨h0, hno⟩
  have hne : v (.circle h (s.procs t).priority) ++ [t] ≠ [] := by simp
  have hold : ∀ q, ∀ b ∈ v q, b ≠ t := fun q b hb he => hno q (he ▸ hb)
  by_cases hbit : (s.bitmap h).testBit (s.procs t).priority = true
  · obtain ⟨y, zs, hxs⟩ : ∃ y zs, v (.circle h (s.procs t).priority) = y :: zs :=
      List.exists_cons_of_ne_nil ((ht.bits h _ hlt).mp hbit)
    have hfirst : s.first (.circle h (s.procs t).priority) = y := by
      rw [ht.first_circle, hxs]
      rfl
    have hy : y ∈ v (.circle h (s.procs t).priority) := by
      rw [hxs]
      exact List.mem_cons_self
    have hpy : s.prev y ∈ v (.circle h (s.procs t).priority) := hw.prev_mem hy
    have hty : t ≠ y := by
      intro he
      rw [← he] at hy
      exact hno _ hy
    have htp : t ≠ s.prev y := by
      intro he
      rw [← he] at hpy
      exact hno _ hpy
    rw [joinCircle_eq hbit hfirst]
    refine ht.edit ⟨?_, ?_⟩ hmem (fun q hq b hb => ?_) (fun q hq b hb => ?_) (fun q _ => ?_) hlow
      (fun k j hj => ?_) (fun k => ?_)
    · simp only [next_onQueue, prev_onQueue, mapCount, next_setPrev, next_setNext, prev_setPrev,
        prev_setNext]
      have hnew := hno (.circle h (s.procs t).priority)
      have hkeep := hold (.circle h (s.procs t).priority)
      rw [hxs] at hw hnew hkeep ⊢
      refine hw.add hnew ?_ ?_ (fun b hb => ?_) (fun b hb => ?_)
      · rw [Function.update_of_ne htp, Function.update_self]
      · rw [Function.update_of_ne hty, Function.update_self]
      · rw [Function.update_apply]
        split
        · rfl
        · exact Function.update_of_ne (hkeep b hb) _ _
      · rw [Function.update_apply]
        split
        · rfl
        · exact Function.update_of_ne (hkeep b hb) _ _
    · rw [first_mapCount, first_setPrev, first_setNext, first_setPrev, first_setNext, hfirst, hxs]
      rfl
    · simp only [next_onQueue, mapCount, next_setPrev, next_setNext]
      rw [Function.update_of_ne (ht.ne_of_mem hpy hq hb), Function.update_of_ne (hold q b hb)]
    · simp only [prev_onQueue, mapCount, prev_setPrev, prev_setNext]
      rw [Function.update_of_ne (ht.ne_of_mem hy hq hb), Function.update_of_ne (hold q b hb)]
    · rw [first_mapCount, first_setPrev, first_setNext, first_setPrev, first_setNext]
    · rw [bitmap_mapCount, bitmap_setPrev, bitmap_setNext, bitmap_setPrev, bitmap_setNext]
      split
      · rename_i he
        obtain ⟨rfl, rfl⟩ := Place.circle.inj he
        exact iff_of_true hbit hne
      · exact Iff.rfl
    · rw [count_mapCount, count_setPrev, count_setNext, count_setPrev, count_setNext]
      exact ht.count_joined hlt k
  · have hnil : v (.circle h (s.procs t).priority) = [] := by
      by_contra hc
      exact hbit ((ht.bits h _ hlt).mpr hc)
    have hb : ¬ (s.queues h).lookupBitmap.testBit (s.procs t).priority = true := hbit
    unfold joinCircle
    dsimp only
    rw [if_neg hb]
    refine ht.edit ⟨?_, ?_⟩ hmem (fun q _ b hb => ?_) (fun q _ b hb => ?_) (fun q hq => ?_) hlow
      (fun k j hj => ?_) (fun k => ?_)
    · rw [hnil]
      simp only [mapCount, setBitmap, setCircle, next_onQueue, prev_onQueue,
        next_setPrev, next_setNext, prev_setPrev, prev_setNext]
      exact Wheel.single (Function.update_self ..) (Function.update_self ..)
    · rw [first_mapCount, first_setBitmap, first_setCircle, Function.update_self, hnil]
      rfl
    · simp only [mapCount, setBitmap, setCircle, next_onQueue, next_setPrev, next_setNext]
      exact Function.update_of_ne (hold q b hb) _ _
    · simp only [mapCount, setBitmap, setCircle, prev_onQueue, prev_setPrev, prev_setNext]
      exact Function.update_of_ne (hold q b hb) _ _
    · rw [first_mapCount, first_setBitmap, first_setCircle, Function.update_of_ne hq, first_setPrev,
        first_setNext]
    · rw [bitmap_mapCount, bitmap_setBitmap, bitmap_setCircle, bitmap_setPrev, bitmap_setNext]
      have hq : (((s.setNext t t).setPrev t t).queues h).lookupBitmap = s.bitmap h := rfl
      rw [hq]
      by_cases hk : k = h
      · subst hk
        rw [Function.update_self, Nat.testBit_or, Nat.testBit_two_pow]
        by_cases hji : (s.procs t).priority = j
        · simp [hji]
        · have hjp : j ≠ (s.procs t).priority := fun he => hji he.symm
          simp [hji, hjp]
      · rw [Function.update_of_ne hk, if_neg fun he => hk (Place.circle.inj he).1]
    · rw [count_mapCount, count_setBitmap, count_setCircle, count_setPrev, count_setNext]
      exact ht.count_joined hlt k

/-- The circle moves on by one node. -/
theorem turn (ht : Threaded s v) (ha : v (.circle h i) ≠ []) :
    Threaded (s.setCircle h i (s.next (s.first (.circle h i))))
      (Function.update v (.circle h i) ((v (.circle h i)).rotate 1)) := by
  obtain ⟨y, zs, hxs⟩ := List.exists_cons_of_ne_nil ha
  have hw := ht.wheel h i
  have hlt : i < 32 := ht.lt_of_mem (hxs ▸ List.mem_cons_self)
  have hrot : (v (.circle h i)).rotate 1 ~r v (.circle h i) := List.IsRotated.forall _ 1
  have hlow : ∀ k j, Place.circle h i = .circle k j → j < 32 := by
    intro k j he
    rw [← (Place.circle.inj he).2]
    exact hlt
  refine ht.edit ⟨?_, ?_⟩ (fun b hb => Or.inl (hrot.mem_iff.mp hb)) (fun q _ b _ => rfl)
    (fun q _ b _ => rfl) (fun q hq => ?_) hlow (fun k j hj => ?_) (fun k => ?_)
  · exact hw.turn hrot.symm
  · rw [first_setCircle, Function.update_self, ht.first_circle, hxs, List.rotate_cons_succ,
      List.rotate_zero]
    have hlinks := (hxs ▸ hw).links.1
    cases zs with
    | nil => exact hlinks
    | cons z zs => exact hlinks
  · rw [first_setCircle, Function.update_of_ne hq]
  · rw [bitmap_setCircle]
    split
    · rename_i he
      obtain ⟨rfl, rfl⟩ := Place.circle.inj he
      rw [ht.bits k j hj, Ne, Ne, List.rotate_eq_nil_iff]
    · exact Iff.rfl
  · rw [count_setCircle, ht.counted k]
    by_cases hk : k = h
    · subst hk
      have hload := load_update_circle v k ((v (.circle k i)).rotate 1) hlt
      rw [List.length_rotate] at hload
      omega
    · exact (load_update_other hk).symm

/-! ## Lists -/

/-- A process becomes the head of a wait list. -/
theorem push (ht : Threaded s v) (hno : ∀ q, t ∉ v q) (h0 : t ≠ 0) :
    Threaded (s.pushList t w) (Function.update v (.wait w) (t :: v (.wait w))) := by
  have hd := ht.dll w
  have hmem : ∀ b ∈ t :: v (.wait w), b ∈ v (.wait w) ∨ b ≠ 0 ∧ ∀ q, b ∉ v q := by
    intro b hb
    rcases List.mem_cons.mp hb with rfl | hb
    · exact Or.inr ⟨h0, hno⟩
    · exact Or.inl hb
  have hlow : ∀ k j, Place.wait w = .circle k j → j < 32 := fun k j he => by cases he
  have hhead : s.heads w ≠ 0 → s.heads w ∈ v (.wait w) := by
    intro hc
    obtain ⟨ys, hys⟩ := hd.exists_cons hc
    rw [hys]
    exact List.mem_cons_self
  have hold : ∀ q, ∀ b ∈ v q, b ≠ t := fun q b hb he => hno q (he ▸ hb)
  have hnext : (s.pushList t w).next = Function.update s.next t (s.heads w) := by
    unfold pushList
    dsimp only
    split <;> simp only [next_setHead, next_setPrev, next_setNext]
  have hprev : (s.pushList t w).prev = Function.update
      (if s.heads w ≠ 0 then Function.update s.prev (s.heads w) t else s.prev) t 0 := by
    unfold pushList
    dsimp only
    by_cases hc : s.heads w ≠ 0
    · have hc' : (s.setNext t (s.heads w)).heads w ≠ 0 := hc
      rw [if_pos hc', if_pos hc, prev_setHead, prev_setPrev, prev_setPrev, prev_setNext]
      rfl
    · have hc' : ¬ (s.setNext t (s.heads w)).heads w ≠ 0 := hc
      rw [if_neg hc', if_neg hc, prev_setHead, prev_setPrev, prev_setNext]
  have hfirst : (s.pushList t w).first = Function.update s.first (.wait w) t := by
    unfold pushList
    dsimp only
    split <;> simp only [first_setHead, first_setPrev, first_setNext]
  have hbitmap : (s.pushList t w).bitmap = s.bitmap := by
    unfold pushList
    dsimp only
    split <;> rfl
  have hcount : (s.pushList t w).count = s.count := by
    unfold pushList
    dsimp only
    split <;> rfl
  refine ht.edit ?_ hmem (fun q hq b hb => ?_) (fun q hq b hb => ?_) (fun q hq => ?_) hlow
    (fun k j hj => ?_) (fun k => ?_)
  · show Dll _ _ 0 _ _
    rw [hfirst, Function.update_self, hnext, hprev]
    refine hd.push (hno _) h0 (Function.update_self ..) (Function.update_self ..) (fun b hb => ?_)
      (fun b hb => ?_)
    · exact Function.update_of_ne (hold _ b hb) _ _
    · rw [Function.update_of_ne (hold _ b hb)]
      by_cases hc : s.heads w ≠ 0
      · rw [if_pos hc, Function.update_apply]
        rfl
      · rw [if_neg hc, if_neg]
        intro he
        exact ht.nonzero _ ((he.trans (not_not.mp hc)) ▸ hb)
  · rw [hnext, Function.update_of_ne (hold q b hb)]
  · rw [hprev, Function.update_of_ne (hold q b hb)]
    split
    · rename_i hc
      exact Function.update_of_ne (ht.ne_of_mem (hhead hc) hq hb) _ _
    · rfl
  · rw [hfirst, Function.update_of_ne hq]
  · rw [hbitmap, if_neg (by simp)]
  · rw [hcount, load_update_wait]
    exact ht.counted k

/-- A process leaves its wait list, from wherever it is in it. -/
theorem unlink (ht : Threaded s v) (ha : t ∈ v (.wait w)) :
    Threaded (s.unlinkList t w) (Function.update v (.wait w) ((v (.wait w)).erase t)) := by
  have hd := ht.dll w
  refine ht.edit (dll_unlinkList hd ha) (fun b hb => Or.inl (List.mem_of_mem_erase hb))
    (fun q hq b hb => ?_)
    (fun q hq b hb => ?_) (fun q hq => ?_) (fun k j he => by cases he) (fun k j _ => ?_) fun k => ?_
  · rw [next_unlinkList]
    split
    · rfl
    · rename_i hhead
      have hp0 : s.prev t ≠ 0 := fun he => hhead ((hd.prev_eq_nil_iff ha).mp he)
      exact Function.update_of_ne (ht.ne_of_mem (hd.prev_mem ha hp0) hq hb) _ _
  · rw [prev_unlinkList]
    split
    · rfl
    · rename_i hnext
      exact Function.update_of_ne (ht.ne_of_mem (hd.next_mem ha hnext) hq hb) _ _
  · rw [first_unlinkList]
    split
    · exact Function.update_of_ne hq _ _
    · rfl
  · rw [if_neg (by simp), (queues_unlinkList s t w k).1]
  · rw [(queues_unlinkList s t w k).2, load_update_wait]
    exact ht.counted k

end Threaded

end RexOS.Scheduler
