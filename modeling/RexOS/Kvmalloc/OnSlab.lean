import RexOS.Kvmalloc.Ledger

/-!
# The on-slab caches over whole runs

Clients that never ask for more than 512 bytes are served from slabs whose header lies in
their page. Whatever they store, in whatever order they give back what they hold, the
objects stay apart from one another and from the headers, each slab stays on the list its
count calls for, and its chain is spelled by exactly the slots nobody holds.
-/

namespace RexOS.Kvmalloc

open Kalloc (Grant PageAlloc State Granted buddy buddy_grants buddy_takesBack virt virtBssEnd)

variable {β : Type} {A : PageAlloc β} {Owns : β → List Grant → Prop} {cachesAt : Nat}
  {c d : Config β} {a a' : Stock β} {i : Nat}

/-- The addresses of an object. -/
def Obj.extent (o : Obj) : Set Nat := Set.Ico o.addr (o.addr + o.len)

/-- The list that a number of objects calls for. -/
def SlabList.Calls : SlabList → (active max : Nat) → Prop
  | .listFull, active, max => active = max
  | .listPartial, active, max => 0 < active ∧ active < max
  | .listEmpty, active, _ => active = 0

/-- What the slabs and the objects keep. -/
structure WellKept (c : Config β) : Prop where
  /-- An object lies in the page of a slab, after its header, and is as long as the objects
  of its cache are, which is enough for what was asked. -/
  inside : ∀ o ∈ c.live, ∃ h i, (h, i) ∈ c.heap.slabs ∧ 4096 ∣ h ∧ h + slabSize ≤ o.addr ∧
    o.addr + o.len ≤ h + 4096 ∧ o.len = (c.heap.caches i).alignedSize ∧ o.size ≤ o.len
  apart : ∀ o ∈ c.live, ∀ p ∈ c.live, o ≠ p → Disjoint o.extent p.extent
  offHeader : ∀ o ∈ c.live, ∀ h i, (h, i) ∈ c.heap.slabs →
    Disjoint o.extent (Set.Ico h (h + slabSize))
  /-- The lists spell out the slabs, each on the one that its count calls for. -/
  lists : ∃ hs : Nat → SlabList → List Nat,
    (∀ i < numCaches, ∀ k, Dll c.heap.next c.heap.prev 0 (c.heap.head i k) (hs i k)) ∧
    (∀ i < numCaches, ∀ k, ∀ h ∈ hs i k, (h, i) ∈ c.heap.slabs) ∧
    ∀ h i, (h, i) ∈ c.heap.slabs → i < numCaches ∧ ∀ j < numCaches, ∀ k, h ∈ hs j k ↔
      j = i ∧ k.Calls (c.heap.activeObjCount h) (maxObjs (c.heap.caches i))
  /-- The chain of a slab is spelled by its slots that hold no object. -/
  chain : ∀ h i, (h, i) ∈ c.heap.slabs → ∃ chain : List Nat,
    Sll c.heap.mem 0 (c.heap.freeSlot h) chain ∧ chain.Nodup ∧
    chain.length + c.heap.activeObjCount h = maxObjs (c.heap.caches i) ∧
    ∀ x, x ∈ chain ↔ x ∈ slots i h ∧ ∀ o ∈ c.live, o.addr ≠ x

/-- Clients ask for 1 to 512 bytes and free only what they hold. -/
def Small (c : Config β) : Op → Prop
  | .alloc size _ => 1 ≤ size ∧ size ≤ 512
  | .free slot => ∃ o ∈ c.live, o.addr = slot
  | .write _ => True

/-! ## Only on-slab caches -/

/-- No off-slab cache has a slab. -/
def OnSlabOnly (shelf : Shelf) : Prop := ∀ e ∈ entries shelf, e.cache < 6

/-- Small sizes have their headers in the page. -/
theorem classOf_onSlab {size : Nat} (h : size ≤ 512) : ∃ i < 6, classOf size = .cache i := by
  obtain ⟨i, hi, _, hf, hc⟩ := classOf_small (h.trans (by decide : 512 ≤ 2048))
  refine ⟨i, ?_, hc⟩
  by_contra h6
  have h5 := (List.find?_range_eq_some.mp hf).2.2 5 (by omega)
  have h512 : objSize 5 = 512 := by decide
  simp only [Bool.not_not, decide_eq_true_eq, h512] at h5
  omega

/-- Changes to the shelves of an on-slab cache make no off-slab slab. -/
theorem OnSlabOnly.of_other {shelf shelf' : Shelf} (h : OnSlabOnly shelf) (hi : i < 6)
    (ho : ∀ j, j ≠ i → shelf' j = shelf j) : OnSlabOnly shelf' := by
  intro e he
  by_contra h6
  refine h6 (h e ⟨he.1, ?_⟩)
  rw [← ho e.cache (by omega)]
  exact he.2

/-- The shelf of another cache stays. -/
theorem putSlot_other {shelf : Shelf} {slot j : Nat} (hj : j ≠ i) :
    putSlot shelf i slot j = shelf j := by
  unfold putSlot
  cases (shelf i .listFull).find? fun sl => sl.page == Bits.andNot slot 0xFFF with
  | some sl => exact edit_other hj
  | none =>
    cases (shelf i .listPartial).find? fun sl => sl.page == Bits.andNot slot 0xFFF with
    | some sl => exact edit_other hj
    | none => rfl

/-- An allocation touches the shelf of its cache. -/
theorem Stock.cacheAlloc_other {depth slot caller : Nat} (hi : i < 6)
    (hrun : Stock.cacheAlloc A depth a i caller = .done slot a') :
    ∀ j, j ≠ i → a'.shelf j = a.shelf j := by
  intro j hj
  cases depth with
  | zero => simp [Stock.cacheAlloc] at hrun
  | succ depth =>
    rw [Stock.cacheAlloc] at hrun
    cases ht : takeSlot a.shelf i with
    | some p =>
      have ht' : takeSlot a.shelf i = some (p.1, p.2) := ht
      obtain ⟨x, y, sl, _, hedit⟩ := takeSlot_edit (hi.trans (by decide)) ht'
      rw [ht] at hrun
      obtain ⟨_, rfl⟩ := Outcome.done.inj hrun
      exact (congrFun hedit j).trans (edit_other hj)
    | none =>
      rw [ht] at hrun
      obtain ⟨page, b, _, hdone⟩ := Outcome.bind_eq_done.mp hrun
      rw [if_pos hi] at hdone
      obtain ⟨_, rfl⟩ := Outcome.done.inj hdone
      obtain ⟨_, _, rfl⟩ := Outcome.within_eq_done.mp ‹_›
      funext k
      exact setList_ne _ _ fun h => hj h.1

/-- What holds of the allocator while clients ask for little. -/
structure SmallOnly (cachesAt : Nat) (Owns : β → List Grant → Prop) (c : Config β) (a : Stock β) :
    Prop where
  keeps : Keeps cachesAt Owns c a
  small : ∀ o ∈ c.live, o.size ≤ 512
  onSlab : OnSlabOnly a.shelf

/-- Small steps are proper ones. -/
theorem Small.proper {op : Op} (h : Small c op) : Proper c op := by
  cases op with
  | alloc size caller => exact ⟨h.1, h.2.trans (by decide)⟩
  | free slot => exact h
  | write stored => trivial

/-- A small object is genuine whatever memory holds. -/
theorem SmallOnly.genuine (h : SmallOnly cachesAt Owns c a) {o : Obj} (ho : o ∈ c.live) :
    Genuine cachesAt c.heap o := by
  obtain ⟨i, hi, hc⟩ := classOf_onSlab (h.small o ho)
  exact Or.inl ⟨i, hi, hc⟩

/-- No small object is whole pages. -/
theorem SmallOnly.not_pages (h : SmallOnly cachesAt Owns c a) {o : Obj} (ho : o ∈ c.live) {k : Nat}
    (hk : classOf o.size = .pages k) : False := by
  obtain ⟨i, _, hc⟩ := classOf_onSlab (h.small o ho)
  simp [hc] at hk

/-- One step. -/
theorem SmallOnly.onStep (hA : A.Grants Owns) (h : SmallOnly cachesAt Owns c a) {op : Op}
    (hop : Small c op) (hs : step A cachesAt c op = some d) :
    ∃ a', SmallOnly cachesAt Owns d a' := by
  have hg : FreesGenuine cachesAt c op := by
    cases op with
    | alloc size caller => trivial
    | free slot => exact fun o ho _ => h.genuine ho
    | write stored => trivial
  obtain ⟨a', hstep, hk⟩ := h.keeps.onStep hA (fun o ho k hk => (h.not_pages ho hk).elim)
    hop.proper hg hs
  refine ⟨a', hk, ?_, ?_⟩
  · intro o ho
    cases op with
    | alloc size caller =>
      obtain ⟨slot, _, hlive⟩ := step_alloc.mp hs
      rw [hlive] at ho
      rcases List.mem_cons.mp ho with rfl | ho
      · exact hop.2
      · exact h.small o ho
    | free slot =>
      rw [(step_free.mp hs).2] at ho
      exact h.small o (List.mem_filter.mp ho).1
    | write stored =>
      obtain rfl := Option.some.inj hs
      exact h.small o ho
  · cases op with
    | alloc size caller =>
      obtain ⟨i, hi, hc⟩ := classOf_onSlab hop.2
      rw [Stock.step, Stock.alloc, hc] at hstep
      simp only at hstep
      split at hstep
      · next slot t hrun =>
        obtain ⟨rfl, _⟩ := Prod.mk.inj (Option.some.inj hstep)
        exact h.onSlab.of_other hi (Stock.cacheAlloc_other hi hrun)
      · exact absurd hstep (by simp)
    | free slot =>
      obtain ⟨o, ho, rfl⟩ := hop
      obtain ⟨i, hi, hc⟩ := classOf_onSlab (h.small o ho)
      obtain ⟨L, hh⟩ := h.keeps
      rw [Stock.step, hh.find_obj ho] at hstep
      simp only [Stock.free, hc, Option.some.injEq, Prod.mk.injEq] at hstep
      obtain ⟨rfl, _⟩ := hstep
      exact h.onSlab.of_other hi fun j hj => putSlot_other hj
    | write stored =>
      obtain ⟨rfl, _⟩ := Prod.mk.inj (Option.some.inj hstep)
      exact h.onSlab

/-! ## What the stock says of memory -/

section Read

variable (h : SmallOnly cachesAt Owns c a)
include h

/-- The slabs made are those of the shelves. -/
theorem SmallOnly.slab_iff {L : List Grant} (hh : Holds cachesAt Owns c.heap a c.live L) {z : Nat} :
    (z, i) ∈ c.heap.slabs ↔ ∃ k sl, (⟨i, k, sl⟩ : Entry) ∈ entries a.shelf ∧ sl.header = z ∧
      sl.page = z ∧ i < 6 := by
  rw [hh.rep.ghost]
  constructor
  · rintro ⟨⟨j, k, sl⟩, he, rfl, rfl⟩
    have h6 := h.onSlab _ he
    exact ⟨k, sl, he, rfl, (hh.layout.header_on _ he h6).symm, h6⟩
  · rintro ⟨k, sl, he, rfl, _, _⟩
    exact ⟨_, he, rfl, rfl⟩

omit h in
/-- The number of objects and the number of free slots of a slab make up its slots. -/
theorem Holds.count {L : List Grant} (hh : Holds cachesAt Owns c.heap a c.live L)
    {k : SlabList} {sl : ASlab} (he : (⟨i, k, sl⟩ : Entry) ∈ entries a.shelf) :
    sl.chain.length + c.heap.activeObjCount sl.header = maxObjs (c.heap.caches i) ∧
      ∀ l : SlabList, l.Calls (c.heap.activeObjCount sl.header) (maxObjs (c.heap.caches i)) ↔
        l = k := by
  have hfit : k.Fits sl.chain.length (capacity i) := hh.layout.listed _ he
  have hi : i < numCaches := he.1
  have hcap := two_le_capacity hi
  rw [hh.rep.maxObjs_eq hi, hh.rep.activeObjCount_eq he]
  cases k with
  | listFull =>
    have h0 : sl.chain.length = 0 := hfit
    refine ⟨by omega, fun l => ?_⟩
    cases l <;> simp only [SlabList.Calls, reduceCtorEq, iff_true, iff_false] <;> omega
  | listPartial =>
    obtain ⟨h0, h1⟩ := hfit
    refine ⟨by omega, fun l => ?_⟩
    cases l <;> simp only [SlabList.Calls, reduceCtorEq, iff_true, iff_false] <;> omega
  | listEmpty =>
    have h0 : sl.chain.length = capacity i := hfit
    refine ⟨by omega, fun l => ?_⟩
    cases l <;> simp only [SlabList.Calls, reduceCtorEq, iff_true, iff_false] <;> omega

/-- A slot of an on-slab slab is used exactly when it is the address of an object. -/
theorem SmallOnly.used_iff {x : Nat} {L : List Grant} (hh : Holds cachesAt Owns c.heap a c.live L)
    {e : Entry} (he : e ∈ entries a.shelf) (hx : x ∈ slots e.cache e.slab.page) :
    Used (entries a.shelf) c.live e.cache x ↔ ∃ o ∈ c.live, o.addr = x := by
  constructor
  · rintro (⟨o, ho, _, hox⟩ | ⟨_, f, hf, h6, _⟩)
    · exact ⟨o, ho, hox⟩
    · exact absurd (h.onSlab f hf) (Nat.not_lt.mpr h6)
  · rintro ⟨o, ho, rfl⟩
    obtain ⟨j, _, hc⟩ := classOf_onSlab (h.small o ho)
    obtain ⟨f, hf, rfl, hy⟩ := hh.layout.obj_slot o ho j hc
    obtain rfl := hh.layout.eq_of_slot he hf hx hy
    exact Or.inl ⟨o, ho, hc, rfl⟩

/-- Small objects do not meet. -/
theorem SmallOnly.apart {o p : Obj} (ho : o ∈ c.live) (hp : p ∈ c.live) (hne : o ≠ p) :
    Disjoint o.extent p.extent := by
  obtain ⟨L, hh⟩ := h.keeps
  have haddr : o.addr ≠ p.addr := fun he =>
    hne (List.inj_on_of_nodup_map hh.layout.obj_distinct ho hp he)
  obtain ⟨i, _, hi⟩ := classOf_onSlab (h.small o ho)
  obtain ⟨j, _, hj⟩ := classOf_onSlab (h.small p hp)
  obtain ⟨e, he, rfl, hx⟩ := hh.layout.obj_slot o ho i hi
  obtain ⟨f, hf, rfl, hy⟩ := hh.layout.obj_slot p hp j hj
  have hlo : o.len = objSize e.cache := by rw [Obj.len, hi]
  have hlp : p.len = objSize f.cache := by rw [Obj.len, hj]
  rw [Set.disjoint_left]
  rintro x hxo hxp
  rw [Obj.extent, hlo] at hxo
  rw [Obj.extent, hlp] at hxp
  exact hh.layout.slot_off_slot he hf hx hy haddr hxo hxp

/-- So the allocator is well kept. -/
theorem SmallOnly.wellKept : WellKept c := by
  obtain ⟨L, hh⟩ := h.keeps
  refine ⟨fun o ho => ?_, fun o ho p hp => h.apart ho hp, fun o ho z i hz => ?_, ?_,
    fun z i hz => ?_⟩
  · obtain ⟨i, hi6, hc⟩ := classOf_onSlab (h.small o ho)
    obtain ⟨e, he, rfl, hx⟩ := hh.layout.obj_slot o ho i hc
    have hlen : o.len = objSize e.cache := by rw [Obj.len, hc]
    have hb := slot_bounds hx
    rw [(firstObj_ge e.cache e.slab.page).2 hi6] at hb
    refine ⟨e.slab.page, e.cache, ?_, (hh.layout.page_spec he).1, hb.1, hlen ▸ hb.2, ?_, ?_⟩
    · exact (h.slab_iff hh).mpr ⟨e.list, e.slab, he, hh.layout.header_on e he hi6, rfl, hi6⟩
    · rw [hlen, hh.rep.size e.cache he.1]
    · exact o.size_le_len ((h.small o ho).trans (by decide))
  · obtain ⟨k, sl, he, rfl, _, _⟩ := (h.slab_iff hh).mp hz
    rw [Set.disjoint_left]
    exact fun x hxo hxh => hh.layout.obj_off_header ho hxo he hxh
  · refine ⟨hdrs a.shelf, hh.rep.links.dll, fun i hi k z hz => ?_, fun z i hz => ?_⟩
    · obtain ⟨sl, hsl, rfl⟩ := mem_hdrs.mp hz
      exact (hh.rep.ghost _ _).mpr ⟨⟨i, k, sl⟩, ⟨hi, hsl⟩, rfl, rfl⟩
    · obtain ⟨k, sl, he, rfl, _, _⟩ := (h.slab_iff hh).mp hz
      refine ⟨he.1, fun j hj l => ?_⟩
      rw [(hh.count he).2 l]
      constructor
      · intro hm
        obtain ⟨h1, h2⟩ := hh.rep.links.apart j hj i he.1 l k _ hm (header_mem he)
        exact ⟨h1, h2⟩
      · rintro ⟨rfl, rfl⟩
        exact header_mem he
  · obtain ⟨k, sl, he, rfl, hp, _⟩ := (h.slab_iff hh).mp hz
    have hsll := (hh.rep.slab _ he).chain
    refine ⟨sl.chain, ?_, hh.layout.chain_nodup _ he, (hh.count he).1, fun x => ?_⟩
    · rw [hh.rep.freeSlot_eq he]
      exact hsll
    · rw [← hp]
      constructor
      · intro hx
        have hs := hh.layout.chain_slots _ he x hx
        refine ⟨hs, fun o ho hox => (hh.layout.chain_iff _ he x hs).mp hx ?_⟩
        exact (h.used_iff hh he hs).mpr ⟨o, ho, hox⟩
      · rintro ⟨hs, hno⟩
        refine (hh.layout.chain_iff _ he x hs).mpr fun hu => ?_
        obtain ⟨o, ho, hox⟩ := (h.used_iff hh he hs).mp hu
        exact hno o ho hox

/-- What is held can be given back. -/
theorem SmallOnly.frees {o : Obj} (ho : o ∈ c.live) :
    ∃ t, kvmfree A cachesAt c.heap o.addr = .done () t := by
  obtain ⟨L, hh⟩ := h.keeps
  obtain ⟨t, _, hrun, _⟩ := kvmfree_spec (A := A) hh ho (fun k hk => (h.not_pages ho hk).elim)
    (h.genuine ho)
  exact ⟨t, hrun⟩

end Read

/-- Small requests from the start, whatever is stored and in whatever order objects come
back: the slabs and the objects are well kept, and what is held can be given back. -/
theorem wellKept_of_run (hA : A.Grants Owns) {h : List (Config β × Op)} (hb : Boot Owns c)
    (hr : Run (step A cachesAt) c h d) (hop : Run.Steps Small h) :
    WellKept d ∧ ∀ o ∈ d.live, ∃ t, kvmfree A cachesAt d.heap o.addr = .done () t := by
  have hstart : SmallOnly cachesAt Owns c ⟨fun _ _ => [], c.heap.pages⟩ := by
    refine ⟨hb.keeps cachesAt hA, ?_, fun e he => absurd he.2 List.not_mem_nil⟩
    simp [hb.1]
  obtain ⟨a, ha⟩ := hr.invariant (I := fun c => ∃ a, SmallOnly cachesAt Owns c a) hop ⟨_, hstart⟩
    fun _ _ _ ⟨_, hk⟩ hop hs => hk.onStep hA hop hs
  exact ⟨ha.wellKept, fun o ho => ha.frees ho⟩

/-- With a page to spare a small request is served. -/
theorem Keeps.exists_alloc (hA : A.Grants Owns) (hk : Keeps cachesAt Owns c a) {size : Nat}
    (h1 : 1 ≤ size) (h512 : size ≤ 512) (caller : Nat)
    (hpage : ∃ page b, A.kalloc c.heap.pages 0 = .done page b) :
    ∃ d slot, step A cachesAt c (.alloc size caller) = some d ∧
      d.live = ⟨slot, size⟩ :: c.live := by
  obtain ⟨L, hh⟩ := hk
  obtain ⟨i, hi, hc⟩ := classOf_onSlab h512
  obtain ⟨page, b, hpage⟩ := hpage
  obtain ⟨slot, a', ha⟩ : ∃ slot a', a.alloc A size caller = .done slot a' := by
    simp only [Stock.alloc, hc, Stock.cacheAlloc]
    cases takeSlot a.shelf i with
    | some p => exact ⟨_, _, rfl⟩
    | none =>
      rw [← hh.pages, hpage]
      simp only [Outcome.within, Outcome.bind_done, hi, if_true]
      exact ⟨_, _, rfl⟩
  have hsim := kvmalloc_spec hA hh h1 (h512.trans (by decide)) caller
  rw [ha] at hsim
  obtain ⟨t, hrun, _⟩ := hsim.of_done_right
  exact ⟨⟨t, ⟨slot, size⟩ :: c.live⟩, slot, step_alloc.mpr ⟨slot, hrun, rfl⟩, rfl⟩

/-- An object of 16 bytes, filled with ones and given back, on the board with the buddy
allocator below. -/
theorem wellKept_of_run_virt : ∃ c m n d slot, Boot (Granted virt virtBssEnd) c ∧
    Run (step (buddy virt 0) 0x80010000) c
      [(n, .free slot), (m, .write fun _ => 1), (c, .alloc 16 0)] d ∧ WellKept d := by
  have hA := buddy_grants 0 Kalloc.virt_machine Kalloc.virt_fits
  obtain ⟨c, hb, hpages⟩ := exists_boot 0
  have hk : Keeps 0x80010000 (Granted virt virtBssEnd) c _ := hb.keeps _ hA
  obtain ⟨m, slot, hs, hlive⟩ := hk.exists_alloc hA (show 1 ≤ 16 by decide) (by decide) 0
    (hpages 0 (by decide))
  have hmem : (⟨slot, 16⟩ : Obj) ∈ m.live := by simp [hlive]
  let n : Config State := ⟨{ m.heap with mem := overwrite m.live (fun _ => 1) m.heap.mem }, m.live⟩
  have hs' : step (buddy virt 0) 0x80010000 m (.write fun _ => 1) = some n := rfl
  have hr := (Run.nil.snoc hs).snoc hs'
  have hop : Run.Steps Small [(m, Op.write fun _ => 1), (c, Op.alloc 16 0)] :=
    Run.steps_cons.mpr ⟨trivial, Run.steps_cons.mpr ⟨⟨by decide, by decide⟩, Run.Steps.nil⟩⟩
  obtain ⟨t, ht⟩ := (wellKept_of_run hA hb hr hop).2 _ hmem
  have hs'' : step (buddy virt 0) 0x80010000 n (.free slot) =
      some ⟨t, n.live.filter fun o => o.addr != slot⟩ := step_free.mpr ⟨ht, rfl⟩
  exact ⟨c, m, n, _, slot, hb, hr.snoc hs'', (wellKept_of_run hA hb (hr.snoc hs'')
    (Run.steps_cons.mpr ⟨⟨_, hmem, rfl⟩, hop⟩)).1⟩

end RexOS.Kvmalloc
