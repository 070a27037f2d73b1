import RexOS.Kvmalloc.Links
import RexOS.Kvmalloc.Moves

/-!
# What memory holds for a shelf

`Rep` says that the list heads, the headers and the chains of free slots in memory are
those of a shelf. A call edits one slab: its chain grows or shrinks by a slot and it may
change its list. `Rep.edited` is that edit, given what the code left in memory.
-/

namespace RexOS.Kvmalloc

open Kalloc (Grant)

/-- The header that stands for a slab of cache `i`, but for its links. -/
def ASlab.body (cachesAt i : Nat) (sl : ASlab) : Body where
  parentCache := cacheAddr cachesAt i
  activeObjCount := capacity i - sl.chain.length
  freeSlot := sl.chain.headD 0
  virtStart := sl.page
  allocCaller := sl.caller
  physStart := sl.page

/-- The headers on each list. -/
def hdrs (shelf : Shelf) : Nat → SlabList → List Nat := fun i k => (shelf i k).map ASlab.header

variable {β : Type} {cachesAt : Nat} {s t : Heap β} {shelf : Shelf}

/-- The slab `sl` of cache `i` stands in memory. -/
structure SlabRep (cachesAt : Nat) (s : Heap β) (i : Nat) (sl : ASlab) : Prop where
  body : s.body sl.header = sl.body cachesAt i
  chain : Sll s.mem 0 (sl.chain.headD 0) sl.chain

/-- Memory holds the slabs of `shelf`. -/
structure Rep (cachesAt : Nat) (s : Heap β) (shelf : Shelf) : Prop where
  links : Links s (hdrs shelf)
  slab : ∀ e ∈ entries shelf, SlabRep cachesAt s e.cache e.slab
  size : ∀ i < numCaches, (s.caches i).alignedSize = objSize i
  flag : ∀ i < numCaches, ((s.caches i).flag = 0 ↔ i < 6)
  ghost : ∀ h i, (h, i) ∈ s.slabs ↔ ∃ e ∈ entries shelf, e.slab.header = h ∧ e.cache = i

/-- `z` is the header of a slab. -/
def IsHeader (shelf : Shelf) (z : Nat) : Prop := ∃ e ∈ entries shelf, e.slab.header = z

/-- A change of memory outside the headers and the chains is of no account. -/
theorem Rep.quiet (hr : Rep cachesAt s shelf) (hc : t.caches = s.caches) (hs : t.slabs = s.slabs)
    (hhdr : ∀ e ∈ entries shelf, ∀ a, e.slab.header ≤ a ∧ a < e.slab.header + 64 →
      t.mem a = s.mem a)
    (hchain : ∀ e ∈ entries shelf, ∀ a ∈ e.slab.chain, t.mem a = s.mem a) :
    Rep cachesAt t shelf := by
  have hword : ∀ e ∈ entries shelf, ∀ g < 64,
      t.mem (e.slab.header + g) = s.mem (e.slab.header + g) :=
    fun e he g hg => hhdr e he _ ⟨Nat.le_add_right _ _, Nat.add_lt_add_left hg _⟩
  have hlist : ∀ i < numCaches, ∀ k, ∀ h ∈ (shelf i k).map ASlab.header, ∃ e ∈ entries shelf,
      e.slab.header = h := by
    intro i hi k h hh
    obtain ⟨sl, hsl, rfl⟩ := List.mem_map.mp hh
    exact ⟨⟨i, k, sl⟩, ⟨hi, hsl⟩, rfl⟩
  refine ⟨hr.links.congr (fun i _ k => ?_) (fun i hi k h hh => ?_), fun e he => ⟨?_, ?_⟩, ?_, ?_,
    ?_⟩
  · unfold Heap.head
    rw [hc]
  · obtain ⟨e, he, rfl⟩ := hlist i hi k h hh
    exact ⟨hword e he 24 (by decide), hword e he 16 (by decide)⟩
  · rw [← (hr.slab e he).body]
    exact Body.ext (hword e he 0 (by decide)) (hword e he 8 (by decide)) (hword e he 32 (by decide))
      (hword e he 40 (by decide)) (hword e he 48 (by decide)) (hword e he 56 (by decide))
  · exact (hr.slab e he).chain.congr (hchain e he)
  · rw [hc]
    exact hr.size
  · rw [hc]
    exact hr.flag
  · rw [hs]
    exact hr.ghost

/-! ## Editing one slab -/

/-- The slab with the header of `sl` becomes `sl`, on list `y` instead of `x`. -/
def edit (shelf : Shelf) (i : Nat) (x y : SlabList) (sl : ASlab) : Shelf :=
  if x = y then
    setList shelf i x ((shelf i x).map fun t => if t.header = sl.header then sl else t)
  else
    setList (setList shelf i x ((shelf i x).filter fun t => t.header != sl.header)) i y
      (sl :: shelf i y)

/-- The slabs on the shelf. -/
theorem mem_entries {e : Entry} :
    e ∈ entries shelf ↔ e.cache < numCaches ∧ e.slab ∈ shelf e.cache e.list := Iff.rfl

/-- Their headers. -/
theorem mem_hdrs {i h : Nat} {k : SlabList} :
    h ∈ hdrs shelf i k ↔ ∃ sl ∈ shelf i k, sl.header = h := by simp [hdrs]

@[simp] theorem header_chain (sl : ASlab) (xs : List Nat) :
    ({ sl with chain := xs } : ASlab).header = sl.header := rfl

section Edit

variable {objs : List Obj} {L : List Grant} {i : Nat} {x y : SlabList} {sl sl' : ASlab}
  (hlay : Layout (entries shelf) objs L) (he : ⟨i, x, sl⟩ ∈ entries shelf)
  (hh : sl'.header = sl.header)
include hlay he hh

/-- A slab of the list with that header is the slab. -/
theorem eq_of_header {tl : ASlab} {k : SlabList} (ht : tl ∈ shelf i k)
    (hth : tl.header = sl'.header) :
    tl = sl ∧ k = x := by
  have := hlay.header_inj ⟨i, k, tl⟩ ⟨he.1, ht⟩ ⟨i, x, sl⟩ he (hth.trans hh)
  simp only [Entry.mk.injEq, true_and] at this
  exact ⟨this.2, this.1⟩

/-- A slab has been replaced. -/
theorem entries_edit (f : Entry) : f ∈ entries (edit shelf i x y sl') ↔
    (f ∈ entries shelf ∧ f ≠ ⟨i, x, sl⟩) ∨ f = ⟨i, y, sl'⟩ := by
  obtain ⟨j, k, tl⟩ := f
  simp only [mem_entries, ne_eq, Entry.mk.injEq]
  by_cases hxy : x = y
  · subst hxy
    rw [edit, if_pos rfl]
    by_cases hjk : j = i ∧ k = x
    · obtain ⟨rfl, rfl⟩ := hjk
      rw [setList_self, List.mem_map]
      constructor
      · rintro ⟨hj, u, hu, hut⟩
        split at hut
        · exact Or.inr ⟨rfl, rfl, hut.symm⟩
        · next hne =>
          subst hut
          refine Or.inl ⟨⟨hj, hu⟩, fun hc => hne ?_⟩
          rw [hc.2.2, hh]
      · rintro (⟨⟨hj, ht⟩, hne⟩ | ⟨_, _, rfl⟩)
        · refine ⟨hj, tl, ht, if_neg fun hth => hne ⟨rfl, rfl, ?_⟩⟩
          exact (eq_of_header hlay he hh ht hth).1
        · exact ⟨he.1, sl, he.2, if_pos hh.symm⟩
    · rw [setList_ne _ _ hjk]
      constructor
      · exact fun h => Or.inl ⟨h, fun hc => hjk ⟨hc.1, hc.2.1⟩⟩
      · rintro (⟨h, _⟩ | ⟨h1, h2, _⟩)
        · exact h
        · exact absurd ⟨h1, h2⟩ hjk
  · rw [edit, if_neg hxy]
    by_cases hjy : j = i ∧ k = y
    · obtain ⟨rfl, rfl⟩ := hjy
      rw [setList_self, List.mem_cons]
      constructor
      · rintro ⟨hj, rfl | ht⟩
        · exact Or.inr ⟨rfl, rfl, rfl⟩
        · exact Or.inl ⟨⟨hj, ht⟩, fun hc => hxy hc.2.1.symm⟩
      · rintro (⟨⟨hj, ht⟩, _⟩ | ⟨_, _, rfl⟩)
        · exact ⟨hj, Or.inr ht⟩
        · exact ⟨he.1, Or.inl rfl⟩
    · rw [setList_ne _ _ hjy]
      by_cases hjx : j = i ∧ k = x
      · obtain ⟨rfl, rfl⟩ := hjx
        rw [setList_self, List.mem_filter, bne_iff_ne]
        constructor
        · rintro ⟨hj, ht, hne⟩
          refine Or.inl ⟨⟨hj, ht⟩, fun hc => hne ?_⟩
          rw [hc.2.2, hh]
        · rintro (⟨⟨hj, ht⟩, hne⟩ | ⟨_, hky, _⟩)
          · exact ⟨hj, ht, fun hth => hne ⟨rfl, rfl, (eq_of_header hlay he hh ht hth).1⟩⟩
          · exact absurd hky hxy
      · rw [setList_ne _ _ hjx]
        constructor
        · exact fun h => Or.inl ⟨h, fun hc => hjx ⟨hc.1, hc.2.1⟩⟩
        · rintro (⟨h, _⟩ | ⟨h1, h2, _⟩)
          · exact h
          · exact absurd ⟨h1, h2⟩ hjy

omit hlay he hh in
/-- An edit in place keeps the headers where they are. -/
theorem hdrs_edit_same : hdrs (edit shelf i x x sl') = hdrs shelf := by
  funext j k
  rw [edit, if_pos rfl]
  unfold hdrs
  by_cases hjk : j = i ∧ k = x
  · obtain ⟨rfl, rfl⟩ := hjk
    rw [setList_self, List.map_map]
    refine List.map_congr_left fun t ht => ?_
    simp only [Function.comp_apply]
    split
    · exact Eq.symm ‹_›
    · rfl
  · rw [setList_ne _ _ hjk]

omit hlay he in
/-- An edit with a change of list moves the header. -/
theorem hdrs_edit_move (hnd : (hdrs shelf i x).Nodup) (hxy : x ≠ y) :
    hdrs (edit shelf i x y sl') = Links.moved (hdrs shelf) i sl.header x y := by
  funext j k
  rw [edit, if_neg hxy, ← hh]
  unfold hdrs Links.moved
  by_cases hjy : j = i ∧ k = y
  · obtain ⟨rfl, rfl⟩ := hjy
    simp [setList_self]
  · rw [setList_ne _ _ hjy, setList_ne _ _ hjy]
    by_cases hjx : j = i ∧ k = x
    · obtain ⟨rfl, rfl⟩ := hjx
      have herase := List.Nodup.erase_eq_filter hnd sl'.header
      unfold hdrs at herase
      rw [setList_self, setList_self, herase, List.filter_map]
      rfl
    · rw [setList_ne _ _ hjx, setList_ne _ _ hjx]

/-- The edited shelf stands in memory when the edited slab does and the rest has not changed. -/
theorem Rep.edited (hr : Rep cachesAt s shelf) (hl : Links t (hdrs (edit shelf i x y sl')))
    (hsl : SlabRep cachesAt t i sl')
    (hother : ∀ f ∈ entries shelf, f ≠ ⟨i, x, sl⟩ →
      t.body f.slab.header = s.body f.slab.header ∧ ∀ a ∈ f.slab.chain, t.mem a = s.mem a)
    (hsize : ∀ j, (t.caches j).alignedSize = (s.caches j).alignedSize)
    (hflag : ∀ j, (t.caches j).flag = (s.caches j).flag) (hslabs : t.slabs = s.slabs) :
    Rep cachesAt t (edit shelf i x y sl') where
  links := hl
  slab f hf := by
    rcases (entries_edit hlay he hh f).mp hf with ⟨hf, hne⟩ | rfl
    · obtain ⟨hb, hm⟩ := hother f hf hne
      have hold := hr.slab f hf
      exact ⟨hb.trans hold.body, hold.chain.congr hm⟩
    · exact hsl
  size j hj := (hsize j).trans (hr.size j hj)
  flag j hj := by rw [hflag j]; exact hr.flag j hj
  ghost h j := by
    rw [hslabs, hr.ghost h j]
    constructor
    · rintro ⟨f, hf, hfh, hfj⟩
      by_cases hfe : f = ⟨i, x, sl⟩
      · subst hfe
        exact ⟨_, (entries_edit hlay he hh _).mpr (Or.inr rfl), hh.trans hfh, hfj⟩
      · exact ⟨f, (entries_edit hlay he hh f).mpr (Or.inl ⟨hf, hfe⟩), hfh, hfj⟩
    · rintro ⟨f, hf, hfh, hfj⟩
      rcases (entries_edit hlay he hh f).mp hf with ⟨hf, _⟩ | rfl
      · exact ⟨f, hf, hfh, hfj⟩
      · exact ⟨_, he, hh.symm.trans hfh, hfj⟩

/-- A step on the header of one slab and on links of headers. -/
theorem Rep.headerStep (hr : Rep cachesAt s shelf) {f : Body → Body}
    (hst : HeaderStep (IsHeader shelf) sl.header f s t)
    (hl : Links t (hdrs (edit shelf i x y sl')))
    (hf : f (sl.body cachesAt i) = sl'.body cachesAt i)
    (hsub : ∀ a ∈ sl'.chain, a ∈ slots i sl.page ∧ (i = 2 → ∀ e ∈ entries shelf, 6 ≤ e.cache →
      e.slab.header ≠ a))
    (hsll : Sll s.mem 0 (sl'.chain.headD 0) sl'.chain) :
    Rep cachesAt t (edit shelf i x y sl') := by
  have hoff : ∀ e ∈ entries shelf, ∀ a ∈ slots e.cache e.slab.page, (e.cache = 2 →
      ∀ d ∈ entries shelf, 6 ≤ d.cache → d.slab.header ≠ a) → t.mem a = s.mem a := by
    intro e hee a ha hno
    refine hst.mem a ?_
    rintro _ ⟨d, hd, rfl⟩
    exact hlay.slot_off_header hee ha hno hd ⟨le_rfl, Nat.lt_add_of_pos_right (objSize_pos _)⟩
  refine hr.edited hlay he hh hl ⟨?_, ?_⟩ (fun e hee hne => ⟨?_, ?_⟩) hst.size hst.flag hst.slabs
  · have hbody := (hr.slab _ he).body
    simp only at hbody
    rw [hh, hst.body _ (hlay.header_dvd he), if_pos rfl, hbody, hf]
  · exact hsll.congr fun a ha => hoff _ he a (hsub a ha).1 (hsub a ha).2
  · rw [hst.body _ (hlay.header_dvd hee), if_neg]
    exact fun hhe => hne (hlay.header_inj e hee _ he hhe)
  · exact fun a ha => hoff e hee a (hlay.chain_slots e hee a ha) (hlay.chain_off_header hee ha)

end Edit

/-! ## Adding a slab -/

section Add

variable {i : Nat} {new : ASlab}

/-- The slab `new` is the only one on `list_partial` of cache `i`. -/
def withSlab (shelf : Shelf) (i : Nat) (new : ASlab) : Shelf := setList shelf i .listPartial [new]

/-- A slab has been added. -/
theorem entries_withSlab (hi : i < numCaches) (hx : shelf i .listPartial = []) :
    entries (withSlab shelf i new) = insert ⟨i, .listPartial, new⟩ (entries shelf) := by
  ext ⟨j, k, sl⟩
  simp only [mem_entries, Set.mem_insert_iff, Entry.mk.injEq, withSlab]
  by_cases hjk : j = i ∧ k = .listPartial
  · obtain ⟨rfl, rfl⟩ := hjk
    simp [setList_self, hx, hi]
  · rw [setList_ne _ _ hjk]
    constructor
    · exact Or.inr
    · rintro (⟨h1, h2, _⟩ | h)
      · exact absurd ⟨h1, h2⟩ hjk
      · exact h

/-- Its header is the only one on the list. -/
theorem hdrs_withSlab : hdrs (withSlab shelf i new) =
    setList (hdrs shelf) i .listPartial [new.header] := by
  funext j k
  unfold hdrs withSlab setList
  split <;> rfl

/-- A further slab, its header filled in and its slots chained beforehand. -/
theorem Rep.addSlab (hr : Rep cachesAt s shelf) (new : ASlab) (hi : i < numCaches)
    (hx : shelf i .listPartial = []) (hnew : SlabRep cachesAt s i new) (hh : 64 ∣ new.header)
    (h0 : new.header ≠ 0) (hfresh : ¬ IsHeader shelf new.header) (hn : s.next new.header = 0)
    (hp : s.prev new.header = 0) :
    Rep cachesAt { s.setHead i .listPartial new.header with slabs := (new.header, i) :: s.slabs }
      (withSlab shelf i new) where
  links := by
    have hnone : ∀ j < numCaches, ∀ l, new.header ∉ hdrs shelf j l := by
      intro j hj l hm
      obtain ⟨sl, hsl, hslh⟩ := mem_hdrs.mp hm
      exact hfresh ⟨⟨j, l, sl⟩, ⟨hj, hsl⟩, hslh⟩
    have hnil : hdrs shelf i .listPartial = [] := by simp [hdrs, hx]
    rw [hdrs_withSlab]
    exact (hr.links.push_new hi hh h0 hnone hnil hn hp).congr (fun _ _ _ => rfl)
      fun _ _ _ _ _ => ⟨rfl, rfl⟩
  slab e he := by
    rw [entries_withSlab hi hx] at he
    rcases he with rfl | he
    · exact ⟨hnew.body, hnew.chain⟩
    · exact ⟨(hr.slab e he).body, (hr.slab e he).chain⟩
  size j hj := ((LinkStep.setHead (P := fun _ => False) _ _).size j).trans (hr.size j hj)
  flag j hj := by
    have := (LinkStep.setHead (P := fun _ => False) (s := s) (i := i) .listPartial new.header).flag
      j
    rw [← hr.flag j hj, ← this]
  ghost h j := by
    rw [entries_withSlab hi hx]
    simp only [List.mem_cons, Prod.mk.injEq, Set.mem_insert_iff, exists_eq_or_imp]
    rw [hr.ghost h j, eq_comm, @eq_comm _ j]

end Add

end RexOS.Kvmalloc
