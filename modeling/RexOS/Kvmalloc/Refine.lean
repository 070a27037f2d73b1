import Mathlib.Data.List.Find
import RexOS.Kvmalloc.NewSlab

/-!
# The allocator in memory and the allocator without it

`kvmalloc` and `kvmfree` do to memory what `Stock.alloc` and `Stock.free` do to a stock.
For allocation this holds whatever clients have stored; for freeing the page of the
object must not begin with the address of an on-slab cache, unless it is a slab of one.
-/

namespace RexOS.Kvmalloc

open Kalloc (Grant PageAlloc)
open Heap

variable {β : Type} {A : PageAlloc β} {Owns : β → List Grant → Prop} {cachesAt : Nat}
  {s t : Heap β} {a a' : Stock β} {objs : List Obj} {L : List Grant} {i : Nat}

/-- Memory holds the stock, whose slabs, objects and blocks lie apart. -/
structure Holds (cachesAt : Nat) (Owns : β → List Grant → Prop) (s : Heap β) (a : Stock β)
    (objs : List Obj) (L : List Grant) : Prop where
  rep : Rep cachesAt s a.shelf
  pages : s.pages = a.pages
  owns : Owns a.pages L
  layout : Layout (entries a.shelf) objs L

/-- What an object of cache `i` leaves of a stock: further slabs are in pages not granted
before, and the slabs of other caches change only to make room for a header. -/
structure Grown (i : Nat) (a : Stock β) (L : List Grant) (a' : Stock β) (L' : List Grant) :
    Prop where
  grants : ∀ g ∈ L, g ∈ L'
  fresh : ∀ e ∈ entries a'.shelf, (∃ d ∈ entries a.shelf, d.slab.page = e.slab.page) ∨
    ∀ g ∈ L, g.addr ≠ e.slab.page
  other : i < 6 → ∀ j, j ≠ i → a'.shelf j = a.shelf j

/-! ## Where is written -/

/-- The addresses of a page. -/
theorem mem_page {page x : Nat} :
    x ∈ (Grant.mk page 0).extent ↔ page ≤ x ∧ x < page + 4096 := by
  rw [Grant.extent, pow_zero, Nat.one_mul]
  exact Set.mem_Ico

/-- Only blocks of the ledger have been written. -/
def WritesIn (L : List Grant) (s t : Heap β) : Prop :=
  ∀ x, (∀ g ∈ L, x ∉ g.extent) → t.mem x = s.mem x

section Written

variable {shelf : Shelf} (h : Layout (entries shelf) objs L) {e : Entry} (he : e ∈ entries shelf)
include h he

/-- A slot lies in the page of its slab. -/
theorem slot_block {slot x : Nat} (hslot : slot ∈ slots e.cache e.slab.page)
    (hx : slot ≤ x ∧ x < slot + objSize e.cache) : ∃ g ∈ L, x ∈ g.extent := by
  have hb := slot_bounds hslot
  have hg := (firstObj_ge e.cache e.slab.page).1
  exact ⟨_, h.owned e he, mem_page.mpr (by omega)⟩

/-- A header lies in the page of its slab or in that of a slab of 64-byte objects. -/
theorem header_block {x : Nat} (hx : e.slab.header ≤ x ∧ x < e.slab.header + 64) :
    ∃ g ∈ L, x ∈ g.extent := by
  by_cases hc : e.cache < 6
  · rw [h.header_on e he hc] at hx
    exact ⟨_, h.owned e he, mem_page.mpr (by omega)⟩
  · obtain ⟨f, hf, hf2, hslot⟩ := h.header_off e he (Nat.not_lt.mp hc)
    have h64 : objSize 2 = 64 := by decide
    exact slot_block h hf (hf2 ▸ hslot) (by rwa [hf2, h64])

/-- What is quiet but for a slot of a slab stays in the ledger. -/
theorem Quiet.writesIn {slot : Nat} (hq : Quiet shelf slot s t)
    (hslot : slot ∈ slots e.cache e.slab.page) : WritesIn L s t := by
  refine fun x hx => hq.mem x ?_ ?_
  · rintro rfl
    obtain ⟨g, hg, hin⟩ :=
      slot_block h he hslot ⟨le_rfl, Nat.lt_add_of_pos_right (objSize_pos _)⟩
    exact hx g hg hin
  · rintro _ ⟨d, hd, rfl⟩ hin
    obtain ⟨g, hg, hin⟩ := header_block h hd hin
    exact hx g hg hin

end Written

/-! ## Room for a new slab -/

section Room

variable {shelf : Shelf} {page hd : Nat} (h : Layout (entries shelf) objs L)
  (hL : (⟨page, 0⟩ : Grant) ∈ L) (hH : ∀ e ∈ entries shelf, e.slab.page ≠ page)
include h hL hH

/-- A granted page that is no slab's is vacant. -/
theorem page_vacant {e : Entry} (he : e ∈ entries shelf) {x : Nat}
    (hx : page ≤ x ∧ x < page + 4096) :
    ¬ (e.slab.header ≤ x ∧ x < e.slab.header + 64) ∧ x ∉ e.slab.chain := by
  obtain ⟨⟨p, hp⟩, _⟩ := h.blocks.page _ hL
  simp only at hp
  obtain ⟨q, hq⟩ := h.header_dvd he
  have hoff := h.header_off_page hL hH he
  refine ⟨fun hh => ?_, fun hc => ?_⟩
  · omega
  · exact h.slot_off_page hL hH he (h.chain_slots e he x hc) hx

/-- A header in the new page is free. -/
theorem vacant_on : Vacant shelf page page := by
  intro e he x hx
  exact page_vacant h hL hH he (by omega)

/-- A header that `kvmalloc` handed out is free. -/
theorem vacant_off (ho : (⟨hd, 64⟩ : Obj) ∈ objs) : Vacant shelf hd page := by
  rintro e he x (hx | hx)
  · have hcell : (⟨hd, 64⟩ : Obj).Cell x := hx
    exact ⟨h.obj_off_header ho hcell he, fun hc => h.obj_off_chain ho he hc hcell⟩
  · exact page_vacant h hL hH he hx

/-- The object that is to hold a header: where it lies. -/
theorem header_room (hO : ∀ o ∈ objs, ∀ k, classOf o.size = .pages k → o.addr ≠ page)
    (ho : (⟨hd, 64⟩ : Obj) ∈ objs) :
    64 ∣ hd ∧ hd ≠ 0 ∧ (hd + 64 ≤ page ∨ page + 4096 ≤ hd) := by
  obtain ⟨f, hf, hf2, hx⟩ := h.obj_slot _ ho 2 (by simp only; decide)
  obtain ⟨hpd, hp0, _⟩ := h.page_spec hf
  have hb := slot_bounds hx
  have hfo := (firstObj_ge 2 f.slab.page).1
  have hal := slot_dvd hpd hx
  have hoff := h.obj_off_page hL hH hO ho
  obtain ⟨⟨p, hp⟩, _⟩ := h.blocks.page _ hL
  obtain ⟨q, hq⟩ := hal
  simp only at hp hb hoff hq
  exact ⟨⟨q, hq⟩, by omega, by omega⟩

end Room

/-! ## Allocation -/

/-- A state that differs in the page allocator alone. -/
theorem Rep.withPages (hr : Rep cachesAt s a.shelf) (b : β) :
    Rep cachesAt { s with pages := b } a.shelf :=
  hr.quiet rfl rfl (fun _ _ _ _ => rfl) fun _ _ _ _ => rfl

/-- A store into a free header does not matter. -/
theorem Rep.setParentCache {shelf : Shelf} {hd page : Nat} (hr : Rep cachesAt s shelf)
    (hv : Vacant shelf hd page) (v : Nat) : Rep cachesAt (s.setParentCache hd v) shelf :=
  hr.vacant hv rfl rfl fun _ ha _ => Function.update_of_ne (by omega) _ _

/-- The shelf of another cache stays. -/
theorem edit_other {shelf : Shelf} {x y : SlabList} {sl : ASlab} {j : Nat} (hj : j ≠ i) :
    edit shelf i x y sl j = shelf j := by
  funext k
  unfold edit
  split
  · rw [setList_ne _ _ fun h => hj h.1]
  · rw [setList_ne _ _ fun h => hj h.1, setList_ne _ _ fun h => hj h.1]

/-- Taking a slot of a slab there is. -/
theorem takeSlot_grown {slot : Nat} {shelf : Shelf} (h : Layout (entries a.shelf) objs L)
    (hi : i < numCaches) (ht : takeSlot a.shelf i = some (slot, shelf)) :
    Grown i a L { a with shelf := shelf } L := by
  obtain ⟨x, y, sl, hsl, rfl⟩ := takeSlot_edit hi ht
  refine ⟨fun _ hg => hg, fun e he => Or.inl ?_, fun _ j hj => edit_other hj⟩
  rcases (entries_edit h hsl (header_chain sl sl.chain.tail) e).mp he with
    ⟨he, _⟩ | rfl
  · exact ⟨e, he, rfl⟩
  · exact ⟨_, hsl, rfl⟩

/-- `kvmem_cache_alloc` with a slab that has a free slot. -/
theorem takeSlot_spec {slot : Nat} {shelf : Shelf} (hh : Holds cachesAt Owns s a objs L)
    (hi : i < numCaches) (ht : takeSlot a.shelf i = some (slot, shelf)) (depth caller : Nat) :
    ∃ t, kvmemCacheAlloc A cachesAt (depth + 1) s i caller = .done slot t ∧
      Rep cachesAt t shelf ∧ t.pages = s.pages ∧ WritesIn L s t := by
  have hpart := hh.rep.head_eq_zero_iff (x := .listPartial) hi
  have hempty := hh.rep.head_eq_zero_iff (x := .listEmpty) hi
  have hfirst : ∀ {x : SlabList} {sl : ASlab} {t : Heap β}, ⟨i, x, sl⟩ ∈ entries a.shelf →
      x ≠ .listFull → Quiet a.shelf (sl.chain.headD 0) s t → WritesIn L s t := by
    intro x sl t he hx hq
    obtain ⟨z, xs, hc⟩ := exists_chain hh.layout he hx
    rw [hc, List.headD_cons] at hq
    exact hq.writesIn hh.layout he (hh.layout.chain_slots _ he z (hc ▸ List.mem_cons_self))
  rw [kvmemCacheAlloc]
  unfold takeSlot at ht
  split at ht
  · next sl rest hl =>
    obtain ⟨rfl, rfl⟩ := Prod.mk.inj (Option.some.inj ht)
    obtain ⟨h1, h2, h3⟩ := allocPartial_spec hh.rep hh.layout hi hl
    rw [if_pos (by rw [Ne, hpart, hl]; simp)]
    exact ⟨_, by rw [h1], h3, h2.pages, hfirst (mem_of_list_eq hi hl) (by decide) h2⟩
  · next sl rest hp hl =>
    obtain ⟨rfl, rfl⟩ := Prod.mk.inj (Option.some.inj ht)
    obtain ⟨h1, h2, h3⟩ := allocEmpty_spec hh.rep hh.layout hi hp hl
    rw [if_neg (by rw [Ne, hpart, hp]; simp), if_pos (by rw [Ne, hempty, hl]; simp)]
    exact ⟨_, by rw [h1], h3, h2.pages, hfirst (mem_of_list_eq hi hl) (by decide) h2⟩
  · exact absurd ht (by simp)

/-- What an object of cache `i` at `slot` leaves behind. -/
def Served (cachesAt : Nat) (Owns : β → List Grant → Prop) (i : Nat) (s : Heap β) (a : Stock β)
    (objs : List Obj) (L : List Grant) (slot : Nat) (t : Heap β) (a' : Stock β) : Prop :=
  ∃ L', Grown i a L a' L' ∧ WritesIn L' s t ∧ ∀ o, o.addr = slot → classOf o.size = .cache i →
    Holds cachesAt Owns t a' (o :: objs) L'

/-- A granted page, and that no slab and no object is there. -/
theorem kalloc_room (hA : A.Grants Owns) (hh : Holds cachesAt Owns s a objs L) {page : Nat} {b : β}
    (hk : A.kalloc s.pages 0 = .done page b) :
    Owns b (⟨page, 0⟩ :: L) ∧ Layout (entries a.shelf) objs (⟨page, 0⟩ :: L) ∧
      (∀ g ∈ L, g.addr ≠ page) ∧ (∀ e ∈ entries a.shelf, e.slab.page ≠ page) ∧
      ∀ o ∈ objs, ∀ k, classOf o.size = .pages k → o.addr ≠ page := by
  rw [hh.pages] at hk
  obtain ⟨hfresh, howns⟩ := hA.kalloc hh.owns hk
  refine ⟨howns, hh.layout.grow (hA.blocks howns), hfresh, fun e he => ?_, fun o ho k hok => ?_⟩
  · exact hfresh _ (hh.layout.owned e he)
  · exact hfresh _ (hh.layout.obj_pages o ho k hok).1

/-- The slab made for an on-slab cache. -/
theorem newSlab_on (hA : A.Grants Owns) (hh : Holds cachesAt Owns s a objs L) (hi : i < 6)
    (hx : a.shelf i .listPartial = []) {page : Nat} {b : β}
    (hk : A.kalloc s.pages 0 = .done page b) (caller : Nat) :
    Served cachesAt Owns i s a objs L (firstObj i page)
      (initSlab ({ s with pages := b }.setParentCache page (cacheAddr cachesAt i)) i page page
        (firstObj i page) caller)
      ⟨withSlab a.shelf i ⟨page, page, caller, (slots i page).tail⟩, b⟩ := by
  have hi8 : i < numCaches := hi.trans (by decide)
  obtain ⟨howns, hlay, hfresh, hH, hO⟩ := kalloc_room hA hh hk
  have hL : (⟨page, 0⟩ : Grant) ∈ (⟨page, 0⟩ :: L : List Grant) := List.mem_cons_self
  obtain ⟨hpd, hp0, _⟩ := hlay.blocks.page _ hL
  have hv := vacant_on hlay hL hH
  have hal : 64 ∣ page := (by decide : 64 ∣ 4096).trans hpd
  have hout : ∀ x ∈ slots i page, ¬ (page ≤ x ∧ x < page + 64) := fun x hxs => by
    have := (slot_bounds hxs).1
    have := (firstObj_ge i page).2 hi
    omega
  have hset := (hh.rep.withPages b).setParentCache hv (cacheAddr cachesAt i)
  obtain ⟨hrep, hpages⟩ := initSlab_spec hset hi8 hx hv hal hp0.ne' hp0 hout
    (Function.update_self _ _ _) caller
  refine ⟨_, ⟨fun g hg => List.mem_cons_of_mem _ hg, fun e he => ?_, fun _ j hj => ?_⟩,
    fun x hx => ?_, fun o ho hoc => ⟨hrep, hpages, howns, ?_⟩⟩
  · rw [entries_withSlab hi8 hx] at he
    rcases he with rfl | he
    · exact Or.inr hfresh
    · exact Or.inl ⟨e, he, rfl⟩
  · funext k
    exact setList_ne _ _ fun h => hj h.1
  · have hpage := mt mem_page.mpr (hx _ List.mem_cons_self)
    rw [initSlab_mem hset hi8 (by omega) hpage]
    exact Function.update_of_ne (by omega) _ _
  · rw [entries_withSlab hi8 hx]
    exact hlay.addSlab hi8 hL hH hO (Or.inl ⟨hi, rfl, rfl⟩) ho hoc

/-- The slab made for an off-slab cache, once its header has been taken. -/
theorem newSlab_off (hA : A.Grants Owns) (hh : Holds cachesAt Owns s a objs L) (hi : 6 ≤ i)
    (hi8 : i < numCaches) (hx : a.shelf i .listPartial = []) {page hd : Nat} {b : β}
    (hk : A.kalloc s.pages 0 = .done page b) {a' : Stock β}
    (hs : Served cachesAt Owns 2 { s with pages := b } ⟨a.shelf, b⟩ objs (⟨page, 0⟩ :: L) hd t a')
    (caller : Nat) : hd ≠ 0 ∧ Served cachesAt Owns i s a objs L (firstObj i page)
      (initSlab (t.setParentCache hd (cacheAddr cachesAt i)) i hd page (firstObj i page) caller)
      { a' with shelf := withSlab a'.shelf i ⟨hd, page, caller, (slots i page).tail⟩ } := by
  obtain ⟨_, _, hfresh, hH, hO⟩ := kalloc_room hA hh hk
  obtain ⟨L', hgrown, hwrites, hholds⟩ := hs
  obtain ⟨hrep, hpages, howns, hlay⟩ := hholds ⟨hd, 64⟩ rfl (by simp only; decide)
  have hL : (⟨page, 0⟩ : Grant) ∈ L' := hgrown.grants _ List.mem_cons_self
  have hH' : ∀ e ∈ entries a'.shelf, e.slab.page ≠ page := by
    intro e he hp
    rcases hgrown.fresh e he with ⟨d, hd, hde⟩ | hne
    · exact hH d hd (hde.trans hp)
    · exact hne _ List.mem_cons_self hp.symm
  have hO' : ∀ o ∈ (⟨hd, 64⟩ :: objs : List Obj), ∀ k, classOf o.size = .pages k →
      o.addr ≠ page := by
    intro o ho k hk
    rcases List.mem_cons.mp ho with rfl | ho
    · exact absurd (hk.symm.trans (by decide : classOf 64 = .cache 2)) (by simp)
    · exact hO o ho k hk
  have hmem : (⟨hd, 64⟩ : Obj) ∈ (⟨hd, 64⟩ :: objs : List Obj) := List.mem_cons_self
  obtain ⟨hal, h0, hroom⟩ := header_room hlay hL hH' hO' hmem
  have hv := vacant_off hlay hL hH' hmem
  have hx' : a'.shelf i .listPartial = [] := by
    rw [hgrown.other (by decide) i (by omega)]
    exact hx
  obtain ⟨hpd, hp0, _⟩ := hlay.blocks.page _ hL
  have hout : ∀ x ∈ slots i page, ¬ (hd ≤ x ∧ x < hd + 64) := fun x hxs => by
    have hb := slot_bounds hxs
    have hfo := (firstObj_ge i page).1
    have hsz := objSize_pos i
    omega
  have hset := hrep.setParentCache hv (cacheAddr cachesAt i)
  obtain ⟨hrep', hpages'⟩ := initSlab_spec hset hi8 hx' hv hal h0 hp0 hout
    (Function.update_self _ _ _) caller
  refine ⟨h0, _, ⟨fun g hg => hgrown.grants g (List.mem_cons_of_mem _ hg), fun e he => ?_,
    fun h6 => absurd h6 (Nat.not_lt.mpr hi)⟩, fun x hx => ?_,
    fun o ho hoc => ⟨hrep', hpages'.trans hpages, howns, ?_⟩⟩
  · rw [entries_withSlab hi8 hx'] at he
    rcases he with rfl | he
    · exact Or.inr hfresh
    · exact (hgrown.fresh e he).imp_right fun hne g hg => hne g (List.mem_cons_of_mem _ hg)
  · have hpage := mt mem_page.mpr (hx _ hL)
    have hheader : ¬ (hd ≤ x ∧ x < hd + 64) := by
      intro hin
      obtain ⟨f, hf, hf2, hslot⟩ := hlay.obj_slot _ hmem 2 (by simp only; decide)
      have h64 : objSize 2 = 64 := by decide
      obtain ⟨g, hg, hin⟩ := slot_block hlay hf (hf2 ▸ hslot) (by rwa [hf2, h64])
      exact hx g hg hin
    rw [initSlab_mem hset hi8 hheader hpage]
    exact (Function.update_of_ne (by omega) _ _).trans (hwrites x hx)
  · rw [entries_withSlab hi8 hx']
    exact hlay.addSlab hi8 hL hH' hO' (Or.inr ⟨hi, rfl⟩) ho hoc

/-- `kvmem_cache_alloc` does to memory what `Stock.cacheAlloc` does to the stock. -/
theorem kvmemCacheAlloc_spec (hA : A.Grants Owns) (caller depth : Nat) :
    ∀ {s : Heap β} {a : Stock β} {L : List Grant} {i : Nat}, Holds cachesAt Owns s a objs L →
      i < numCaches → Outcome.Sim (Served cachesAt Owns i s a objs L)
        (kvmemCacheAlloc A cachesAt depth s i caller) (Stock.cacheAlloc A depth a i caller) := by
  induction depth with
  | zero => exact fun _ _ => trivial
  | succ depth ih =>
    intro s a L i hh hi
    rw [Stock.cacheAlloc]
    cases ht : takeSlot a.shelf i with
    | some p =>
      obtain ⟨slot, shelf⟩ := p
      obtain ⟨t, hrun, hrep, hpages, hwrites⟩ := takeSlot_spec (A := A) hh hi ht depth caller
      rw [hrun]
      refine ⟨rfl, L, takeSlot_grown hh.layout hi ht, hwrites, fun o ho hoc => ?_⟩
      exact ⟨hrep, hpages.trans hh.pages, hh.owns, takeSlot_layout hh.layout hi ht ho hoc⟩
    | none =>
      obtain ⟨hpart, hempty⟩ := takeSlot_none ht
      rw [kvmemCacheAlloc, if_neg (not_not_intro ((hh.rep.head_eq_zero_iff hi).mpr hpart)),
        if_neg (not_not_intro ((hh.rep.head_eq_zero_iff hi).mpr hempty))]
      rw [← hh.pages]
      cases hk : A.kalloc s.pages 0 with
      | panic c x b => exact ⟨rfl, rfl⟩
      | spin b => exact trivial
      | done page b =>
        obtain ⟨howns, hlay, _, _, _⟩ := kalloc_room hA hh hk
        have hp0 := (hlay.blocks.page _ List.mem_cons_self).2.1
        simp only [Outcome.within, Outcome.bind_done]
        rw [if_neg (by simp only at hp0; omega)]
        by_cases h6 : i < 6
        · rw [if_pos ((hh.rep.flag i hi).mpr h6), if_pos h6]
          have hfirst : page + slabSize = firstObj i page := (if_pos h6).symm
          rw [hfirst]
          exact ⟨rfl, newSlab_on hA hh h6 hpart hk caller⟩
        · rw [if_neg fun hf => h6 ((hh.rep.flag i hi).mp hf), if_neg h6]
          have hfirst : firstObj i page = page := if_neg h6
          have hrec := ih (s := { s with pages := b }) (a := ⟨a.shelf, b⟩) (i := 2)
            ⟨hh.rep.withPages b, rfl, howns, hlay⟩ (by decide)
          refine hrec.bind fun hd t a' hs => ?_
          obtain ⟨h0, hserved⟩ := newSlab_off hA hh (Nat.not_lt.mp h6) hi hpart hk hs caller
          rw [if_neg h0]
          rw [hfirst] at hserved ⊢
          exact ⟨rfl, hserved⟩

/-- `kvmalloc` does to memory what `Stock.alloc` does to the stock, and writes in blocks of its own
alone. -/
theorem kvmalloc_spec (hA : A.Grants Owns) (hh : Holds cachesAt Owns s a objs L) {size : Nat}
    (h1 : 1 ≤ size) (h8 : size ≤ 0x800000) (caller : Nat) :
    Outcome.Sim (fun p t a' => ∃ L', Holds cachesAt Owns t a' (⟨p, size⟩ :: objs) L' ∧
        WritesIn L' s t)
      (kvmalloc A cachesAt s size caller) (a.alloc A size caller) := by
  unfold kvmalloc Stock.alloc
  rw [if_neg (by omega)]
  by_cases hs : size ≤ 2048
  · obtain ⟨i, hi, _, hfind, hc⟩ := classOf_small hs
    have hcf : cacheFor s size = some i := by
      rw [← hfind]
      refine List.find?_congr fun j hj => ?_
      rw [hh.rep.size j (List.mem_range.mp hj)]
    rw [if_pos hs, hcf, hc]
    refine (kvmemCacheAlloc_spec hA caller 2 hh hi).mono fun p t a' hserved => ?_
    obtain ⟨L', _, hwrites, hholds⟩ := hserved
    exact ⟨L', hholds ⟨p, size⟩ rfl hc, hwrites⟩
  · obtain ⟨k, hk, _, hc⟩ := classOf_large (Nat.not_le.mp hs) h8
    rw [if_neg hs, hk, hc, hh.pages]
    refine Outcome.Sim.within _ fun p b hrun => ?_
    obtain ⟨hfresh, howns⟩ := hA.kalloc hh.owns hrun
    exact ⟨_, ⟨hh.rep.withPages b, rfl, howns,
      hh.layout.takePages (o := ⟨p, size⟩) (hA.blocks howns) hfresh hc⟩, fun _ _ => rfl⟩

/-! ## Freeing -/

/-- The walk along a list finds the first slab of a page. -/
theorem findSlab_seg {baseAddr p h fuel : Nat} {hs : List Nat}
    (hseg : Dll.Seg s.next s.prev 0 p h hs) (hf : hs.length < fuel) :
    findSlab s baseAddr fuel h = some (hs.find? fun z => s.virtStart z == baseAddr) := by
  induction hs generalizing p h fuel with
  | nil =>
    obtain ⟨fuel, rfl⟩ := Nat.exists_eq_add_of_lt hf
    rw [List.length_nil, Nat.zero_add, findSlab, if_pos (Dll.seg_nil.mp hseg)]
    rfl
  | cons x hs ih =>
    obtain ⟨rfl, hx, _, hrest⟩ := hseg
    cases fuel with
    | zero => exact absurd hf (Nat.not_lt_zero _)
    | succ fuel =>
      rw [findSlab, if_neg hx]
      by_cases hb : s.virtStart h = baseAddr
      · rw [if_pos hb, List.find?_cons_of_pos (by simpa using hb)]
      · rw [if_neg hb, List.find?_cons_of_neg (by simpa using hb)]
        exact ih hrest (Nat.lt_of_succ_lt_succ hf)

/-- Different numbers below a bound are no more than the bound. -/
theorem length_le_of_nodup {xs : List Nat} {n : Nat} (hnd : xs.Nodup) (hlt : ∀ x ∈ xs, x < n) :
    xs.length ≤ n := by
  have hsub : xs ⊆ List.range n := fun x hx => List.mem_range.mpr (hlt x hx)
  have := (hnd.subperm hsub).length_le
  rwa [List.length_range] at this

/-- The walk of `kvmfree` ends, and finds the slab in the shelf. -/
theorem findSlab_spec {shelf : Shelf} (hr : Rep cachesAt s shelf)
    (h : Layout (entries shelf) objs L)
    (hi : i < numCaches) (k : SlabList) (baseAddr : Nat) :
    findSlab s baseAddr (2 ^ 64 + 1) (s.head i k) =
      some (((shelf i k).find? fun sl => sl.page == baseAddr).map ASlab.header) := by
  have hdll := hr.links.dll i hi k
  have hlt : ∀ x ∈ hdrs shelf i k, x < 2 ^ 64 := by
    intro x hx
    obtain ⟨sl, hsl, rfl⟩ := mem_hdrs.mp hx
    exact h.header_lt (e := ⟨i, k, sl⟩) ⟨hi, hsl⟩
  rw [findSlab_seg hdll.seg (Nat.lt_succ_of_le (length_le_of_nodup hdll.nodup hlt)), hdrs,
    List.find?_map]
  refine congrArg (fun o => some (Option.map ASlab.header o)) (List.find?_congr fun sl hsl => ?_)
  have he : (⟨i, k, sl⟩ : Entry) ∈ entries shelf := ⟨hi, hsl⟩
  have hbody := hr.body_eq he
  exact congrArg (· == baseAddr) (congrArg Body.virtStart hbody)

/-- A cache none of whose slabs is in the page is passed over. -/
theorem freeOffSlab_skip {shelf : Shelf} (hr : Rep cachesAt s shelf)
    (h : Layout (entries shelf) objs L) (hi : i < numCaches) {baseAddr slot : Nat} {is : List Nat}
    (hno : ∀ e ∈ entries shelf, e.cache = i → e.slab.page ≠ baseAddr) :
    freeOffSlab A s baseAddr slot (i :: is) = freeOffSlab A s baseAddr slot is := by
  rw [freeOffSlab]
  simp only [findSlab_spec hr h hi, find_none hi fun e he hei _ => hno e he hei, Option.map_none]

/-- The slab of an object is found, and the object goes back to it. -/
theorem freeOffSlab_found {shelf : Shelf} (hr : Rep cachesAt s shelf)
    (h : Layout (entries shelf) objs L) {e : Entry} (he : e ∈ entries shelf) {o : Obj}
    (ho : o ∈ objs) (hoc : classOf o.size = .cache e.cache)
    (hslot : o.addr ∈ slots e.cache e.slab.page) (is : List Nat) :
    ∃ t, freeOffSlab A s e.slab.page o.addr (e.cache :: is) = .done () t ∧
      Quiet shelf o.addr s t ∧ Rep cachesAt t (putSlot shelf e.cache o.addr) := by
  have hfind := find_page h he
  have hne := not_listEmpty h he hslot (Or.inl ⟨o, ho, hoc, rfl⟩)
  obtain ⟨i, k, sl⟩ := e
  rw [freeOffSlab]
  simp only [findSlab_spec hr h he.1]
  simp only at hfind hne hslot hoc
  cases k with
  | listFull =>
    simp only [hfind, Option.map_some]
    exact ⟨_, rfl, freeFromFull_spec hr h he ho hoc hslot rfl⟩
  | listPartial =>
    have hother := find_other h he.1 he (k := .listFull) (by simp)
    simp only at hother
    simp only [hother, hfind, Option.map_some, Option.map_none]
    exact ⟨_, rfl, freeFromPartial_spec hr h he ho hoc hslot rfl⟩
  | listEmpty => exact absurd rfl hne

/-- Each cache has its own address. -/
theorem cacheAddr_inj {j : Nat} (h : cacheAddr cachesAt i = cacheAddr cachesAt j) : i = j := by
  unfold cacheAddr at h
  omega

/-- The address names the cache. -/
theorem onSlabCache_cacheAddr (hi : i < 6) :
    onSlabCache cachesAt (cacheAddr cachesAt i) = some i := by
  refine List.find?_range_eq_some.mpr ⟨by simp, List.mem_range.mpr hi, fun j hj => ?_⟩
  simp only [Bool.not_eq_true', beq_eq_false_iff_ne, ne_eq]
  exact fun he => hj.ne (cacheAddr_inj he)

/-- Any other address names none. -/
theorem onSlabCache_eq_none {v : Nat} (hv : ∀ i < 6, cacheAddr cachesAt i ≠ v) :
    onSlabCache cachesAt v = none := by
  refine List.find?_eq_none.mpr fun i hi => ?_
  simpa using hv i (List.mem_range.mp hi)

/-- An object that `kvmfree` takes for what it is: one of an on-slab cache, or one whose
page does not begin with the address of such a cache. -/
def Genuine (cachesAt : Nat) (s : Heap β) (o : Obj) : Prop :=
  (∃ i < 6, classOf o.size = .cache i) ∨
    ∀ i < 6, cacheAddr cachesAt i ≠ s.mem (Bits.andNot o.addr 0xFFF)

/-- What a call of `kvmfree` for `o` leaves. -/
structure Freed (cachesAt : Nat) (Owns : β → List Grant → Prop) (o : Obj) (s : Heap β)
    (a : Stock β) (objs : List Obj) (t : Heap β) (a' : Stock β) : Prop where
  holds : ∃ L', Holds cachesAt Owns t a' (objs.filter fun p => p.addr != o.addr) L'
  mem : ∀ x, x ≠ o.addr → (∀ w, IsHeader a.shelf w → ¬ (w ≤ x ∧ x < w + 64)) → t.mem x = s.mem x
  rest : ∀ k, classOf o.size = .pages k → t.mem = s.mem ∧ t.caches = s.caches

/-- An object of a cache comes back. -/
theorem Holds.freed_slot (hh : Holds cachesAt Owns s a objs L) {o : Obj} (ho : o ∈ objs)
    (hoc : classOf o.size = .cache i) (hq : Quiet a.shelf o.addr s t)
    (hr : Rep cachesAt t (putSlot a.shelf i o.addr)) :
    Freed cachesAt Owns o s a objs t { a with shelf := putSlot a.shelf i o.addr } where
  holds := ⟨L, hr, hq.pages.trans hh.pages, hh.owns, putSlot_layout hh.layout ho hoc⟩
  mem := hq.mem
  rest k hk := absurd (hoc.symm.trans hk) (by simp)

/-- `kvmfree` of a genuine object does to memory what `Stock.free` does to the stock. -/
theorem kvmfree_spec (hh : Holds cachesAt Owns s a objs L) {o : Obj} (ho : o ∈ objs)
    (hA : ∀ k, classOf o.size = .pages k → A.TakesBack Owns) (hg : Genuine cachesAt s o) :
    ∃ t a', kvmfree A cachesAt s o.addr = .done () t ∧ a.free A o = .done () a' ∧
      Freed cachesAt Owns o s a objs t a' := by
  unfold kvmfree Stock.free
  cases hc : classOf o.size with
  | cache i =>
    obtain ⟨e, he, rfl, hslot, hne, _, hpage⟩ := exists_slab hh.layout ho hc
    have hpos := (hh.layout.page_spec he).2.1
    have hin := Layout.slot_in_page hslot
    rw [if_neg (by omega), hpage]
    by_cases h6 : e.cache < 6
    · have hpar : s.parentCache e.slab.page = cacheAddr cachesAt e.cache := by
        rw [← hh.layout.header_on e he h6]
        exact congrArg Body.parentCache (hh.rep.slab e he).body
      have hspec := freeOnSlab_spec hh.rep hh.layout he ho hc hslot h6 hne
      rw [hh.layout.header_on e he h6] at hspec
      simp only [hpar, onSlabCache_cacheAddr h6]
      exact ⟨_, _, rfl, rfl, hh.freed_slot ho hc hspec.1 hspec.2⟩
    · have hnone : onSlabCache cachesAt (s.parentCache e.slab.page) = none := by
        refine onSlabCache_eq_none ?_
        rcases hg with ⟨j, hj, hcj⟩ | hplain
        · exact absurd (Class.cache.inj (hc.symm.trans hcj) ▸ hj) h6
        · exact hpage ▸ hplain
      have h67 : e.cache = 6 ∨ e.cache = 7 := by
        have := he.1
        unfold numCaches at this
        omega
      simp only [hnone]
      rcases h67 with h | h
      · obtain ⟨t, hrun, hq, hr⟩ := freeOffSlab_found (A := A) hh.rep hh.layout he ho hc hslot [7]
        rw [h] at hrun
        exact ⟨t, _, hrun, rfl, hh.freed_slot ho hc hq hr⟩
      · obtain ⟨t, hrun, hq, hr⟩ := freeOffSlab_found (A := A) hh.rep hh.layout he ho hc hslot []
        rw [h] at hrun
        refine ⟨t, _, ?_, rfl, hh.freed_slot ho hc hq hr⟩
        rw [freeOffSlab_skip hh.rep hh.layout (by decide)]
        · exact hrun
        · intro d hd hd6 hp
          obtain rfl := hh.layout.page_inj d hd e he hp
          omega
  | pages k =>
    obtain ⟨hL, hne⟩ := hh.layout.obj_pages o ho k hc
    obtain ⟨⟨q, hq⟩, hpos, _⟩ := hh.layout.blocks.page _ hL
    simp only at hq hpos
    have hbase : Bits.andNot o.addr 0xFFF = o.addr := by
      refine (Bits.andNot_mask o.addr 12).trans ?_
      omega
    have hnone : onSlabCache cachesAt (s.parentCache o.addr) = none := by
      refine onSlabCache_eq_none ?_
      rcases hg with ⟨j, _, hcj⟩ | hplain
      · exact absurd (hc.symm.trans hcj) (by simp)
      · exact hbase ▸ hplain
    obtain ⟨b, hrun, howns⟩ := hA k hc _ _ _ hh.owns hL
    rw [if_neg (by omega), hbase]
    simp only [hnone]
    rw [freeOffSlab_skip hh.rep hh.layout (by decide) fun d hd _ => hne d hd,
      freeOffSlab_skip hh.rep hh.layout (by decide) fun d hd _ => hne d hd, freeOffSlab, hh.pages,
      hrun]
    exact ⟨_, _, rfl, rfl, ⟨_, hh.rep.withPages b, rfl, howns, hh.layout.freePages ho hc⟩,
      fun _ _ _ => rfl, fun _ _ => ⟨rfl, rfl⟩⟩

end RexOS.Kvmalloc
