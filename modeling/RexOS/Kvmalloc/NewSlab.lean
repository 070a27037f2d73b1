import RexOS.Kvmalloc.Slots

/-!
# A new slab in memory

A slab is made in a page of its own, with its header in the page or in an object that
has just been taken for it. The slots are chained before the header is filled in; none
of the words written belongs to a slab there was before.
-/

namespace RexOS.Kvmalloc

open Kalloc (Grant)
open Heap

variable {β : Type} {cachesAt : Nat} {s t : Heap β} {shelf : Shelf} {objs : List Obj}
  {L : List Grant} {i hd page : Nat}

/-! ## Chaining the slots -/

/-- The loop stores into the slots only. -/
theorem threadSlots_other {first size n a : Nat} (ha : ∀ j < n, a ≠ first + j * size) :
    (threadSlots s first size n).mem a = s.mem a := by
  induction n with
  | zero => rfl
  | succ n ih =>
    exact (Function.update_of_ne (ha n (Nat.lt_succ_self n)) _ _).trans
      (ih fun j hj => ha j (Nat.lt_succ_of_lt hj))

/-- Each slot links to the next one. -/
theorem threadSlots_slot {first size n j : Nat} (hsize : 0 < size) (hj : j < n) :
    (threadSlots s first size n).mem (first + j * size) = first + (j + 1) * size := by
  induction n with
  | zero => exact absurd hj (Nat.not_lt_zero j)
  | succ n ih =>
    rcases Nat.lt_succ_iff_lt_or_eq.mp hj with hlt | rfl
    · have hne : first + j * size ≠ first + n * size := fun he =>
        hlt.ne (Nat.eq_of_mul_eq_mul_right hsize (Nat.add_left_cancel he))
      exact (Function.update_of_ne hne _ _).trans (ih hlt)
    · exact Function.update_self _ _ _

/-- The chain through the slots from the `j`-th on, the last one ending it. -/
theorem Sll.of_slots {next : Nat → Nat} {first size n : Nat} (h0 : 0 < first)
    (hnext : ∀ j < n, next (first + j * size) = if j + 1 < n then first + (j + 1) * size else 0)
    (d : Nat) (hd : d ≤ n) (hd0 : 0 < d) :
    Sll next 0 (first + (n - d) * size)
      ((List.range' (n - d) d).map fun j => first + j * size) := by
  induction d with
  | zero => exact absurd hd0 (Nat.lt_irrefl 0)
  | succ d ih =>
    rw [List.range'_succ, List.map_cons]
    refine ⟨rfl, by omega, ?_⟩
    rw [hnext _ (by omega), show n - (d + 1) + 1 = n - d by omega]
    by_cases hd' : d = 0
    · subst hd'
      rw [if_neg (by omega)]
      exact rfl
    · rw [if_pos (by omega)]
      exact ih (by omega) (by omega)

/-- All slots but the first are threaded. -/
theorem slots_tail (i page : Nat) :
    (slots i page).tail = (List.range' 1 (capacity i - 1)).map fun j =>
      firstObj i page + j * objSize i := by
  unfold slots
  rw [← List.map_tail, List.range_eq_range', List.tail_range']

/-! ## The words of a new slab -/

/-- The header at `hd` and the page at `page` hold nothing of the slabs of `shelf`. -/
def Vacant (shelf : Shelf) (hd page : Nat) : Prop :=
  ∀ e ∈ entries shelf, ∀ a, (hd ≤ a ∧ a < hd + 64) ∨ (page ≤ a ∧ a < page + 4096) →
    ¬ (e.slab.header ≤ a ∧ a < e.slab.header + 64) ∧ a ∉ e.slab.chain

/-- What is written there does not touch the slabs. -/
theorem Rep.vacant (hr : Rep cachesAt s shelf) (hv : Vacant shelf hd page)
    (hc : t.caches = s.caches) (hs : t.slabs = s.slabs)
    (hm : ∀ a, ¬ (hd ≤ a ∧ a < hd + 64) → ¬ (page ≤ a ∧ a < page + 4096) → t.mem a = s.mem a) :
    Rep cachesAt t shelf := by
  refine hr.quiet hc hs (fun e he a ha => ?_) fun e he a ha => ?_
  · refine hm a (fun hh => ?_) fun hp => ?_
    · exact (hv e he a (Or.inl hh)).1 ha
    · exact (hv e he a (Or.inr hp)).1 ha
  · refine hm a (fun hh => ?_) fun hp => ?_
    · exact (hv e he a (Or.inl hh)).2 ha
    · exact (hv e he a (Or.inr hp)).2 ha

/-- The slots of a new slab, chained. -/
def chainSlots (s : Heap β) (first size n : Nat) : Heap β :=
  (threadSlots s first size (n - 1)).store (first + (n - 1) * size) 0

/-- The last slot is the end of the chain, and nothing else changes. -/
theorem chainSlots_other {first size n a : Nat} (hn : 0 < n) (ha : ∀ j < n, a ≠ first + j * size) :
    (chainSlots s first size n).mem a = s.mem a :=
  (Function.update_of_ne (ha (n - 1) (by omega)) _ _).trans
    (threadSlots_other fun j hj => ha j (by omega))

/-- So each slot links to the next one, and the last to null. -/
theorem chainSlots_slot {first size n j : Nat} (hsize : 0 < size) (hj : j < n) :
    (chainSlots s first size n).mem (first + j * size) =
      if j + 1 < n then first + (j + 1) * size else 0 := by
  unfold chainSlots
  split
  · have hne : first + j * size ≠ first + (n - 1) * size := fun he => by
      have := Nat.eq_of_mul_eq_mul_right hsize (Nat.add_left_cancel he)
      omega
    exact (Function.update_of_ne hne _ _).trans (threadSlots_slot hsize (by omega))
  · rw [show j = n - 1 by omega]
    exact Function.update_self _ _ _

/-- The loop stores into memory only. -/
theorem threadSlots_rest (s : Heap β) (first size n : Nat) :
    (threadSlots s first size n).caches = s.caches ∧
    (threadSlots s first size n).slabs = s.slabs ∧
      (threadSlots s first size n).pages = s.pages := by
  induction n with
  | zero => exact ⟨rfl, rfl, rfl⟩
  | succ n ih => exact ih

/-- The header of a new slab, all but `parent_cache`. -/
def fillHeader (s : Heap β) (header newSlab firstObj size caller : Nat) : Heap β :=
  ((((((s.setFreeSlot header (firstObj + size)).setActiveObjCount header 1).setNext header
    0).setPrev header 0).setVirtStart header newSlab).setPhysStart header newSlab).setAllocCaller
      header caller

/-- Filling the header stores into the header only. -/
theorem fillHeader_mem {first size caller a : Nat} (ha : ¬ (hd ≤ a ∧ a < hd + 64)) :
    (fillHeader s hd page first size caller).mem a = s.mem a := by
  unfold fillHeader
  simp only [setFreeSlot, setActiveObjCount, setNext, setPrev, setVirtStart, setPhysStart,
    setAllocCaller, Heap.store]
  iterate 7 rw [Function.update_of_ne (by omega)]

/-- The header of a new slab, with one object taken. -/
theorem fillHeader_body {first size caller : Nat} (hh : 64 ∣ hd) :
    (fillHeader s hd page first size caller).body hd =
      ⟨s.parentCache hd, 1, first + size, page, caller, page⟩ := by
  unfold fillHeader
  simp only [body_setAllocCaller _ hh hh, body_setPhysStart _ hh hh, body_setVirtStart _ hh hh,
    body_setPrev _ hh hh, body_setNext _ hh hh, body_setActiveObjCount _ hh hh,
    body_setFreeSlot _ hh hh, if_true]
  rfl

/-- It is on no list yet. -/
theorem fillHeader_links {first size caller : Nat} :
    (fillHeader s hd page first size caller).next hd = 0 ∧
      (fillHeader s hd page first size caller).prev hd = 0 := by
  unfold fillHeader
  constructor <;>
    simp [setFreeSlot, setActiveObjCount, setNext, setPrev, setVirtStart, setPhysStart,
      setAllocCaller, Heap.store, Heap.next, Heap.prev]

/-- Chaining the slots and filling in the header writes nowhere else. -/
theorem filled_mem (hi : i < numCaches) {caller a : Nat} (hh : ¬ (hd ≤ a ∧ a < hd + 64))
    (hp : ¬ (page ≤ a ∧ a < page + 4096)) :
    (fillHeader (chainSlots s (firstObj i page) (objSize i) (capacity i)) hd page
      (firstObj i page) (objSize i) caller).mem a = s.mem a := by
  have hcap := two_le_capacity hi
  rw [fillHeader_mem hh]
  refine chainSlots_other (by omega) fun j hj hja => hp ?_
  exact Layout.slot_in_page (e := ⟨i, .listPartial, ⟨hd, page, caller, []⟩⟩)
    (mem_slots.mpr ⟨j, hj, hja.symm⟩)

/-- `initSlab` in two parts. -/
theorem initSlab_eq (s : Heap β) (i header newSlab firstObj caller : Nat) :
    initSlab s i header newSlab firstObj caller =
      let t := fillHeader (chainSlots s firstObj (s.caches i).alignedSize (maxObjs (s.caches i)))
        header newSlab firstObj (s.caches i).alignedSize caller
      { t.setHead i .listPartial header with slabs := (header, i) :: t.slabs } := by
  have hc := (threadSlots_rest s firstObj (s.caches i).alignedSize
    (maxObjs (s.caches i) - 1)).1
  unfold initSlab chainSlots fillHeader
  simp only [hc]

/-- A new slab is made in its header and its page. -/
theorem initSlab_mem (hr : Rep cachesAt s shelf) (hi : i < numCaches) {caller a : Nat}
    (hh : ¬ (hd ≤ a ∧ a < hd + 64)) (hp : ¬ (page ≤ a ∧ a < page + 4096)) :
    (initSlab s i hd page (firstObj i page) caller).mem a = s.mem a := by
  rw [initSlab_eq]
  simp only [hr.size i hi, hr.maxObjs_eq hi]
  exact filled_mem hi hh hp

/-- A new slab stands in memory beside the slabs there were. -/
theorem initSlab_spec (hr : Rep cachesAt s shelf) (hi : i < numCaches)
    (hx : shelf i .listPartial = []) (hv : Vacant shelf hd page) (hh : 64 ∣ hd) (h0 : hd ≠ 0)
    (hp0 : 0 < page) (hout : ∀ x ∈ slots i page, ¬ (hd ≤ x ∧ x < hd + 64))
    (hpar : s.parentCache hd = cacheAddr cachesAt i) (caller : Nat) :
    Rep cachesAt (initSlab s i hd page (firstObj i page) caller)
        (withSlab shelf i ⟨hd, page, caller, (slots i page).tail⟩) ∧
      (initSlab s i hd page (firstObj i page) caller).pages = s.pages := by
  have hcap := two_le_capacity hi
  have hfirst := (firstObj_ge i page).1
  rw [initSlab_eq]
  simp only [hr.size i hi, hr.maxObjs_eq hi]
  set t := chainSlots s (firstObj i page) (objSize i) (capacity i) with ht
  obtain ⟨hcaches, hslabs, hpages⟩ := threadSlots_rest s (firstObj i page) (objSize i)
    (capacity i - 1)
  have hmem : ∀ a, a ∉ slots i page → t.mem a = s.mem a := fun a ha =>
    chainSlots_other (by omega) fun j hj hja => ha (mem_slots.mpr ⟨j, hj, hja.symm⟩)
  have hold : Rep cachesAt (fillHeader t hd page (firstObj i page) (objSize i) caller) shelf :=
    hr.vacant hv hcaches hslabs fun a hha hpa => filled_mem hi hha hpa
  refine ⟨hold.addSlab ⟨hd, page, caller, (slots i page).tail⟩ hi hx ⟨?_, ?_⟩ hh h0 ?_
    fillHeader_links.1 fillHeader_links.2, hpages⟩
  · have hparent : t.parentCache hd = s.parentCache hd := by
      refine hmem hd fun hm => hout hd hm ⟨le_rfl, by omega⟩
    have htail := slots_length i page
    rw [fillHeader_body hh, hparent, hpar]
    refine Body.ext rfl ?_ ?_ rfl rfl rfl
    · simp only [ASlab.body, List.length_tail, htail]
      omega
    · simp only [ASlab.body, slots_tail]
      rw [List.range'_eq_cons_iff.mpr ⟨rfl, (by omega : 0 < capacity i - 1), rfl⟩]
      simp
  · have hlink : ∀ j < capacity i, (fillHeader t hd page (firstObj i page) (objSize i) caller).mem
        (firstObj i page + j * objSize i) =
          if j + 1 < capacity i then firstObj i page + (j + 1) * objSize i else 0 := by
      intro j hj
      rw [fillHeader_mem (hout _ (mem_slots.mpr ⟨j, hj, rfl⟩))]
      exact chainSlots_slot (objSize_pos i) hj
    have hsll := Sll.of_slots (by omega) hlink (capacity i - 1) (by omega) (by omega)
    rw [show capacity i - (capacity i - 1) = 1 by omega, ← slots_tail] at hsll
    exact hsll.head_eq ▸ hsll
  · rintro ⟨e, he, hee⟩
    exact (hv e he hd (Or.inl ⟨le_rfl, by omega⟩)).1 ⟨hee.le, by simp only at hee; omega⟩

end RexOS.Kvmalloc
