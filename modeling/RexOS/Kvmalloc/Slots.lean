import RexOS.Kvmalloc.Stock

/-!
# Taking and returning a slot in memory

Each branch of `kvmem_cache_alloc` and `kvmfree` that works on a slab there is leaves in
memory the shelf that `takeSlot` and `putSlot` give. A branch changes the body of one
header and moves it between two lists; the slot that comes back is written first.
-/

namespace RexOS.Kvmalloc

open Kalloc (Grant)
open Bits Heap

variable {β : Type} {cachesAt : Nat} {s t : Heap β} {shelf : Shelf} {objs : List Obj}
  {L : List Grant} {i : Nat} {x y : SlabList} {sl sl' : ASlab}

section Read

variable (hr : Rep cachesAt s shelf)
include hr

/-- What a slab's header reads as. -/
theorem Rep.body_eq (he : ⟨i, x, sl⟩ ∈ entries shelf) : s.body sl.header = sl.body cachesAt i :=
  (hr.slab _ he).body

/-- The count in the header is that of the slots taken. -/
theorem Rep.activeObjCount_eq (he : ⟨i, x, sl⟩ ∈ entries shelf) :
    s.activeObjCount sl.header = capacity i - sl.chain.length :=
  congrArg Body.activeObjCount (hr.body_eq he)

/-- The header names the first free slot. -/
theorem Rep.freeSlot_eq (he : ⟨i, x, sl⟩ ∈ entries shelf) :
    s.freeSlot sl.header = sl.chain.headD 0 :=
  congrArg Body.freeSlot (hr.body_eq he)

/-- The number of slots of a slab as the code computes it. -/
theorem Rep.maxObjs_eq (hi : i < numCaches) : maxObjs (s.caches i) = capacity i := by
  unfold maxObjs capacity
  rw [hr.size i hi]
  exact if_congr (hr.flag i hi) rfl rfl

omit hr in
/-- A slab on the shelf has its header on the list. -/
theorem header_mem (he : ⟨i, x, sl⟩ ∈ entries shelf) : sl.header ∈ hdrs shelf i x :=
  mem_hdrs.mpr ⟨sl, he.2, rfl⟩

/-- The head of a list names its first slab. -/
theorem Rep.head_eq {rest : List ASlab} (hi : i < numCaches) (hl : shelf i x = sl :: rest) :
    s.head i x = sl.header ∧ s.prev sl.header = 0 := by
  have hd := (hr.links.dll i hi x).seg
  simp only [hdrs, hl, List.map_cons] at hd
  exact ⟨hd.1, hd.2.2.1⟩

/-- A head is null exactly when the list is empty. -/
theorem Rep.head_eq_zero_iff (hi : i < numCaches) : s.head i x = 0 ↔ shelf i x = [] := by
  rw [(hr.links.dll i hi x).head_eq_nil_iff]
  simp [hdrs]

omit hr in
/-- Moving a slab between two lists, after a step on its body. -/
theorem relink_step (he : ⟨i, x, sl⟩ ∈ entries shelf)
    (hh : sl'.header = sl.header) (hxy : x ≠ y) {f : Body → Body}
    (hst : HeaderStep (IsHeader shelf) sl.header f s t) (hl : Links t (hdrs shelf)) :
    HeaderStep (IsHeader shelf) sl.header f s (relink t i sl.header (t.prev sl.header)
        (t.next sl.header) (t.head i y) x y) ∧
      Links (relink t i sl.header (t.prev sl.header) (t.next sl.header) (t.head i y) x y)
        (hdrs (edit shelf i x y sl')) := by
  obtain ⟨hl', hstep⟩ := hl.move he.1 (header_mem he) (Ne.symm hxy)
  have hnd : (hdrs shelf i x).Nodup := (hl.dll i he.1 x).nodup
  refine ⟨hst.link (hstep.mono ?_), ?_⟩
  · rintro z ⟨j, hj, l, hz⟩
    obtain ⟨tl, htl, rfl⟩ := mem_hdrs.mp hz
    exact ⟨⟨j, l, tl⟩, ⟨hj, htl⟩, rfl⟩
  · rw [hdrs_edit_move hh hnd hxy]
    exact hl'

end Read

/-- Nothing outside the headers and the word at `slot` has changed. -/
structure Quiet (shelf : Shelf) (slot : Nat) (s t : Heap β) : Prop where
  pages : t.pages = s.pages
  mem : ∀ a, a ≠ slot → (∀ w, IsHeader shelf w → ¬ (w ≤ a ∧ a < w + 64)) → t.mem a = s.mem a

/-- A step on headers is quiet at every slot. -/
theorem Quiet.of_headers {slot z : Nat} {f : Body → Body}
    (hst : HeaderStep (IsHeader shelf) z f s t) : Quiet shelf slot s t where
  pages := hst.pages
  mem a _ hw := hst.mem a hw

/-- A store to the slot and then a step on headers. -/
theorem Quiet.of_step {slot v z : Nat} {f : Body → Body}
    (hst : HeaderStep (IsHeader shelf) z f (s.store slot v) t) : Quiet shelf slot s t where
  pages := hst.pages
  mem a ha hw := (hst.mem a hw).trans (Function.update_of_ne ha _ _)

/-! ## Taking -/

section Take

variable (hr : Rep cachesAt s shelf) (h : Layout (entries shelf) objs L)
include hr h

/-- Filling in the rest of the chain after the first slot has been taken. -/
theorem Rep.take_rest (he : ⟨i, x, sl⟩ ∈ entries shelf) {z : Nat} {xs : List Nat}
    (hc : sl.chain = z :: xs) {n : Nat} (hn : n = capacity i - xs.length)
    (hst : HeaderStep (IsHeader shelf) sl.header (fun b => { b with activeObjCount := n }) s t)
    (hl : Links t (hdrs (edit shelf i x y { sl with chain := xs }))) :
    Quiet shelf z s (t.setFreeSlot sl.header (t.mem (t.freeSlot sl.header))) ∧
      Rep cachesAt (t.setFreeSlot sl.header (t.mem (t.freeSlot sl.header)))
        (edit shelf i x y { sl with chain := xs }) := by
  have hal := h.header_dvd he
  have hz : z ∈ sl.chain := hc ▸ List.mem_cons_self
  have hzs := h.chain_slots _ he z hz
  have hmemz : t.mem z = s.mem z := by
    refine hst.mem z ?_
    rintro _ ⟨d, hd, rfl⟩
    exact h.slot_off_header he hzs (h.chain_off_header he hz) hd
      ⟨le_rfl, Nat.lt_add_of_pos_right (objSize_pos _)⟩
  obtain ⟨_, _, hrest⟩ : Sll s.mem 0 (sl.chain.headD 0) (z :: xs) := hc ▸ (hr.slab _ he).chain
  have hfree : t.freeSlot sl.header = z := by
    have := congrArg Body.freeSlot (hst.body _ hal)
    rw [if_pos rfl, hr.body_eq he] at this
    exact this.trans (by simp [ASlab.body, hc])
  have hstep := hst.trans (.setFreeSlot ⟨_, he, rfl⟩ hal (t.mem (t.freeSlot sl.header)))
  refine ⟨.of_headers hstep, hr.headerStep h he rfl hstep
    (hl.store hal (g := 32) (by decide) (by decide) (by decide) _) ?_ (fun a ha => ?_) ?_⟩
  · rw [hfree, hmemz, hrest.head_eq]
    exact Body.ext rfl hn rfl rfl rfl rfl
  · have ha' : a ∈ sl.chain := hc ▸ List.mem_cons_of_mem _ ha
    exact ⟨h.chain_slots _ he a ha', h.chain_off_header he ha'⟩
  · exact hrest.head_eq ▸ hrest

/-- A slot from a slab on `list_partial`. -/
theorem allocPartial_spec {rest : List ASlab} (hi : i < numCaches)
    (hl : shelf i .listPartial = sl :: rest) :
    (allocPartial s i).1 = sl.chain.headD 0 ∧
      Quiet shelf (sl.chain.headD 0) s (allocPartial s i).2 ∧
      Rep cachesAt (allocPartial s i).2 (edit shelf i .listPartial
        (if sl.chain.tail = [] then .listFull else .listPartial)
        { sl with chain := sl.chain.tail }) := by
  have he := mem_of_list_eq hi hl
  have hal := h.header_dvd he
  obtain ⟨z, xs, hc⟩ := exists_chain h he (by decide)
  obtain ⟨_, hcap⟩ := h.listed _ he
  simp only [hc, List.length_cons] at hcap
  obtain ⟨hhead, hprev⟩ := hr.head_eq hi hl
  have hle := capacity_le_page i
  have hcount : wrap (s.activeObjCount sl.header + 1) = capacity i - xs.length := by
    rw [hr.activeObjCount_eq he, hc, List.length_cons, wrap_of_lt (by omega)]
    omega
  have hst := HeaderStep.setActiveObjCount (P := IsHeader shelf) (s := s) ⟨_, he, rfl⟩ hal
    (capacity i - xs.length)
  have hlinks := hr.links.store hal (g := 8) (by decide) (by decide) (by decide)
    (capacity i - xs.length)
  have hset : (s.setActiveObjCount sl.header (capacity i - xs.length)).activeObjCount sl.header =
      capacity i - xs.length := Function.update_self _ _ _
  simp only [allocPartial, hhead, hcount, hc, List.tail_cons, List.headD_cons, hset]
  rw [show maxObjs ((s.setActiveObjCount sl.header (capacity i - xs.length)).caches i) =
    capacity i from hr.maxObjs_eq hi]
  refine ⟨by rw [hr.freeSlot_eq he, hc, List.headD_cons], ?_⟩
  by_cases hxs : xs = []
  · have hp1 : (s.setActiveObjCount sl.header (capacity i - xs.length)).prev sl.header = 0 := by
      rw [← hprev]
      exact (s.prev_store hal hal (g := 8) (by decide)).trans (if_neg (by simp))
    rw [if_pos hxs, if_pos (by simp [hxs]), moveToFull_eq hp1]
    obtain ⟨hst', hlinks'⟩ := relink_step (y := .listFull) he
      (header_chain sl xs) (by decide) hst hlinks
    exact hr.take_rest h he hc rfl hst' hlinks'
  · have hpos := List.length_pos_iff.mpr hxs
    rw [if_neg hxs, if_neg (by omega)]
    exact hr.take_rest h he hc rfl hst (hdrs_edit_same.symm ▸ hlinks)

/-- A slot from a slab on `list_empty`. -/
theorem allocEmpty_spec {rest : List ASlab} (hi : i < numCaches)
    (hp : shelf i .listPartial = []) (hl : shelf i .listEmpty = sl :: rest) :
    (allocEmpty s i).1 = sl.chain.headD 0 ∧
      Quiet shelf (sl.chain.headD 0) s (allocEmpty s i).2 ∧
      Rep cachesAt (allocEmpty s i).2
        (edit shelf i .listEmpty .listPartial { sl with chain := sl.chain.tail }) := by
  have he := mem_of_list_eq hi hl
  have hal := h.header_dvd he
  obtain ⟨z, xs, hc⟩ := exists_chain h he (by decide)
  have hfit : sl.chain.length = capacity i := h.listed _ he
  simp only [hc, List.length_cons] at hfit
  obtain ⟨hhead, hprev⟩ := hr.head_eq hi hl
  have hst := HeaderStep.setActiveObjCount (P := IsHeader shelf) (s := s) ⟨_, he, rfl⟩ hal 1
  have hlinks := hr.links.store hal (g := 8) (by decide) (by decide) (by decide) 1
  have hp1 : (s.setActiveObjCount sl.header 1).prev sl.header = 0 := by
    rw [← hprev]
    exact (s.prev_store hal hal (g := 8) (by decide)).trans (if_neg (by simp))
  have hn1 : (s.setActiveObjCount sl.header 1).next sl.header ≠ 0 →
      64 ∣ (s.setActiveObjCount sl.header 1).next sl.header := fun h0 =>
    hlinks.aligned i hi _ _ ((hlinks.links_mem hi (header_mem he)).2 h0)
  have hq1 : (s.setActiveObjCount sl.header 1).head i .listPartial = 0 :=
    (hr.head_eq_zero_iff hi).mpr hp
  obtain ⟨hst', hlinks'⟩ := relink_step (y := .listPartial) he
    (header_chain sl xs) (by decide) hst hlinks
  simp only [allocEmpty, hhead, hc, List.tail_cons, List.headD_cons,
    moveToPartial_eq hal hp1 hn1 hq1]
  exact ⟨by rw [hr.freeSlot_eq he, hc, List.headD_cons],
    hr.take_rest h he hc (by omega) hst' hlinks'⟩

end Take

/-! ## Returning -/

/-- The first cell of an object is its own. -/
theorem Obj.cell_addr (o : Obj) : o.Cell o.addr := by
  refine ⟨le_rfl, Nat.lt_add_of_pos_right ?_⟩
  unfold Obj.len
  cases classOf o.size with
  | cache i => exact objSize_pos i
  | pages k => exact Nat.mul_pos (Nat.two_pow_pos k) (by decide)

/-- What is written into objects does not touch the slabs. -/
theorem Rep.write (hr : Rep cachesAt s shelf) (h : Layout (entries shelf) objs L)
    {m : Nat → Nat} (hm : ∀ a, (∀ o ∈ objs, ¬ o.Cell a) → m a = s.mem a) :
    Rep cachesAt { s with mem := m } shelf := by
  refine hr.quiet rfl rfl (fun e he a ha => hm a fun o ho hc => ?_) fun e he a ha =>
    hm a fun o ho => h.obj_off_chain ho he ha
  exact h.obj_off_header ho hc he ha

section Put

variable (hr : Rep cachesAt s shelf) (h : Layout (entries shelf) objs L)
  (he : ⟨i, x, sl⟩ ∈ entries shelf) {o : Obj} (ho : o ∈ objs) (hoc : classOf o.size = .cache i)
  (hslot : o.addr ∈ slots i sl.page)
include hr h he ho hoc hslot

/-- What `kvmfree` does first, as one write to the object and one step on the header. -/
theorem pushSlot_spec :
    Rep cachesAt (s.store o.addr (s.freeSlot sl.header)) shelf ∧
      HeaderStep (IsHeader shelf) sl.header (fun b => { b with
          activeObjCount := capacity i - (sl.chain.length + 1), freeSlot := o.addr })
        (s.store o.addr (s.freeSlot sl.header)) (pushSlot s sl.header o.addr) ∧
      Links (pushSlot s sl.header o.addr) (hdrs shelf) := by
  have hal := h.header_dvd he
  have hr' : Rep cachesAt (s.store o.addr (s.freeSlot sl.header)) shelf := by
    refine hr.write h fun a ha => Function.update_of_ne ?_ _ _
    rintro rfl
    exact ha o ho o.cell_addr
  have hlt := chain_lt h he hslot (Or.inl ⟨o, ho, hoc, rfl⟩)
  have hle := capacity_le_page i
  simp only at hlt
  have hst := HeaderStep.setFreeSlot (P := IsHeader shelf)
    (s := s.store o.addr (s.freeSlot sl.header)) ⟨_, he, rfl⟩ hal o.addr
  have hcount : wrapSub (((s.store o.addr (s.freeSlot sl.header)).setFreeSlot sl.header
      o.addr).activeObjCount sl.header) 1 = capacity i - (sl.chain.length + 1) := by
    have hb := congrArg Body.activeObjCount (hst.body _ hal)
    rw [if_pos rfl, hr'.body_eq he] at hb
    have hb' : ((s.store o.addr (s.freeSlot sl.header)).setFreeSlot sl.header
        o.addr).activeObjCount sl.header = capacity i - sl.chain.length := hb
    rw [hb', wrapSub_of_le (by omega) (by omega)]
    omega
  have hpush : pushSlot s sl.header o.addr =
      ((s.store o.addr (s.freeSlot sl.header)).setFreeSlot sl.header o.addr).setActiveObjCount
        sl.header (capacity i - (sl.chain.length + 1)) := by
    rw [← hcount]
    rfl
  rw [hpush]
  refine ⟨hr', ?_, ?_⟩
  · exact hst.trans (.setActiveObjCount ⟨_, he, rfl⟩ hal (capacity i - (sl.chain.length + 1)))
  · exact (hr'.links.store hal (g := 32) (by decide) (by decide) (by decide) _).store hal (g := 8)
      (by decide) (by decide) (by decide) _

/-- The slab with its new chain, on whichever list it now stands. -/
theorem put_rest {f : Body → Body} (hf : f = fun b => { b with
      activeObjCount := capacity i - (sl.chain.length + 1), freeSlot := o.addr })
    (hst : HeaderStep (IsHeader shelf) sl.header f (s.store o.addr (s.freeSlot sl.header)) t)
    (hl : Links t (hdrs (edit shelf i x y { sl with chain := o.addr :: sl.chain }))) :
    Rep cachesAt t (edit shelf i x y { sl with chain := o.addr :: sl.chain }) := by
  obtain ⟨hr', _, _⟩ := pushSlot_spec hr h he ho hoc hslot
  have hpos := h.page_spec he
  have hge := slot_bounds hslot
  have hfo := (firstObj_ge i sl.page).1
  simp only at hpos
  have hnot : o.addr ∉ sl.chain := fun hin =>
    (h.chain_iff _ he _ hslot).mp hin (Or.inl ⟨o, ho, hoc, rfl⟩)
  refine hr'.headerStep h he rfl hst hl ?_ (fun a ha => ?_) ?_
  · subst hf
    exact Body.ext rfl rfl rfl rfl rfl rfl
  · rcases List.mem_cons.mp ha with rfl | ha
    · refine ⟨hslot, ?_⟩
      rintro rfl
      exact h.obj_header o ho hoc
    · exact ⟨h.chain_slots _ he a ha, h.chain_off_header he ha⟩
  · have h0 : o.addr ≠ 0 := by omega
    refine (hr.slab _ he).chain.push h0 ?_ fun z hz => Function.update_of_ne ?_ _ _
    · rw [← hr.freeSlot_eq he]
      exact Function.update_self _ _ _
    · rintro rfl
      exact hnot hz

/-- A slab that changes its list when a slot comes back. -/
theorem put_moved (hxy : x ≠ y) :
    Quiet shelf o.addr s (moveSlab (pushSlot s sl.header o.addr) i sl.header x y) ∧
      Rep cachesAt (moveSlab (pushSlot s sl.header o.addr) i sl.header x y)
        (edit shelf i x y { sl with chain := o.addr :: sl.chain }) := by
  obtain ⟨_, hst, hl⟩ := pushSlot_spec hr h he ho hoc hslot
  have hal := h.header_dvd he
  have hprev : (pushSlot s sl.header o.addr).prev sl.header ≠ 0 →
      64 ∣ (pushSlot s sl.header o.addr).prev sl.header ∧
        (pushSlot s sl.header o.addr).prev sl.header ≠ sl.header := fun h0 =>
    ⟨hl.aligned i he.1 x _ ((hl.links_mem he.1 (header_mem he)).1 h0),
      (hl.dll i he.1 x).prev_ne (header_mem he)⟩
  rw [moveSlab_eq hal hprev (Ne.symm hxy)]
  obtain ⟨hst', hl'⟩ := relink_step (y := y) he
    (header_chain sl (o.addr :: sl.chain)) hxy hst hl
  exact ⟨.of_step hst', put_rest hr h he ho hoc hslot rfl hst' hl'⟩

/-- A slab that stays on its list when a slot comes back. -/
theorem put_stays : Quiet shelf o.addr s (pushSlot s sl.header o.addr) ∧
    Rep cachesAt (pushSlot s sl.header o.addr)
      (edit shelf i x x { sl with chain := o.addr :: sl.chain }) := by
  obtain ⟨_, hst, hl⟩ := pushSlot_spec hr h he ho hoc hslot
  exact ⟨.of_step hst, put_rest hr h he ho hoc hslot rfl hst (hdrs_edit_same.symm ▸ hl)⟩

/-- The number of objects of the slab after a slot has come back. -/
theorem pushSlot_count : (pushSlot s sl.header o.addr).activeObjCount sl.header =
    capacity i - (sl.chain.length + 1) := by
  obtain ⟨_, hst, _⟩ := pushSlot_spec hr h he ho hoc hslot
  have := congrArg Body.activeObjCount (hst.body _ (h.header_dvd he))
  rwa [if_pos rfl] at this

/-- A slot comes back to an off-slab slab that had none free. -/
theorem freeFromFull_spec (hx : x = .listFull) :
    Quiet shelf o.addr s (freeFromFull s i sl.header o.addr) ∧
      Rep cachesAt (freeFromFull s i sl.header o.addr) (putSlot shelf i o.addr) := by
  subst hx
  have hput := putSlot_eq h he (h.page_of_slot he hslot) (by simp)
  simp only [reduceCtorEq, false_and, if_false] at hput
  rw [hput]
  exact put_moved hr h he ho hoc hslot (by decide)

/-- A slot comes back to an off-slab slab that had some free. -/
theorem freeFromPartial_spec (hx : x = .listPartial) :
    Quiet shelf o.addr s (freeFromPartial s i sl.header o.addr) ∧
      Rep cachesAt (freeFromPartial s i sl.header o.addr) (putSlot shelf i o.addr) := by
  subst hx
  have hlt := chain_lt h he hslot (Or.inl ⟨o, ho, hoc, rfl⟩)
  have hput := putSlot_eq h he (h.page_of_slot he hslot) (by simp)
  simp only [true_and] at hput hlt
  unfold freeFromPartial
  simp only [pushSlot_count hr h he ho hoc hslot]
  rw [hput]
  by_cases hc : sl.chain.length + 1 = capacity i
  · rw [if_pos hc, if_pos (by omega)]
    exact put_moved hr h he ho hoc hslot (by decide)
  · rw [if_neg hc, if_neg (by omega)]
    exact put_stays hr h he ho hoc hslot

/-- A slot comes back to an on-slab slab. -/
theorem freeOnSlab_spec (hi : i < 6) (hx : x ≠ .listEmpty) :
    Quiet shelf o.addr s (freeOnSlab s i sl.header o.addr) ∧
      Rep cachesAt (freeOnSlab s i sl.header o.addr) (putSlot shelf i o.addr) := by
  have hcap := two_le_capacity he.1
  have hlt := chain_lt h he hslot (Or.inl ⟨o, ho, hoc, rfl⟩)
  have hfit := h.listed _ he
  have hmax : (4096 - slabSize) / ((pushSlot s sl.header o.addr).caches i).alignedSize =
      capacity i := by
    rw [capacity, if_pos hi]
    exact congrArg _ (hr.size i he.1)
  have hput := putSlot_eq h he (h.page_of_slot he hslot) hx
  simp only at hput hlt hcap hfit
  unfold freeOnSlab
  simp only [hmax, pushSlot_count hr h he ho hoc hslot]
  rw [hput]
  cases x with
  | listFull =>
    have h0 : sl.chain.length = 0 := hfit
    simp only [reduceCtorEq, false_and, if_false]
    rw [if_pos (by omega)]
    exact put_moved hr h he ho hoc hslot (by decide)
  | listPartial =>
    obtain ⟨hpos, _⟩ := hfit
    rw [if_neg (by omega)]
    by_cases hc : sl.chain.length + 1 = capacity i
    · rw [if_pos (by omega), if_pos ⟨rfl, hc⟩]
      exact put_moved hr h he ho hoc hslot (by decide)
    · rw [if_neg (by omega), if_neg fun hh => hc hh.2]
      exact put_stays hr h he ho hoc hslot
  | listEmpty => exact absurd rfl hx

end Put

end RexOS.Kvmalloc
