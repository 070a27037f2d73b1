import RexOS.Kvmalloc.Shelf

/-!
# The moves of the allocator on a layout

Taking a slot off the chain of a slab, putting one back, adding a slab, and taking or
giving back a block of whole pages. A slab whose chain changes may stand on another list
afterwards; the slabs are otherwise only added to.
-/

namespace RexOS.Kvmalloc

open Kalloc (Grant Blocks)

namespace Layout

variable {H H' : Set Entry} {objs objs' : List Obj} {L : List Grant} {e e' f : Entry} {x y : Nat}

/-- What the objects of a layout satisfy, for the objects after a move. -/
structure Objects (H : Set Entry) (objs : List Obj) (L : List Grant) : Prop where
  obj_slot : ∀ o ∈ objs, ∀ i, classOf o.size = .cache i →
    ∃ e ∈ H, e.cache = i ∧ o.addr ∈ slots i e.slab.page
  obj_header : ∀ o ∈ objs, classOf o.size = .cache 2 → ∀ e ∈ H, 6 ≤ e.cache →
    e.slab.header ≠ o.addr
  obj_pages : ∀ o ∈ objs, ∀ k, classOf o.size = .pages k →
    (⟨o.addr, k⟩ : Grant) ∈ L ∧ ∀ e ∈ H, e.slab.page ≠ o.addr
  obj_distinct : (objs.map Obj.addr).Nodup

/-- Replacing one slab by the same slab with another chain. -/
theorem swap (h : Layout H objs L) (he : e ∈ H) (e' : Entry) (hc : e'.cache = e.cache)
    (hp : e'.slab.page = e.slab.page) (hh : e'.slab.header = e.slab.header)
    (hH : ∀ f, f ∈ H' ↔ (f ∈ H ∧ f ≠ e) ∨ f = e') (hnd : e'.slab.chain.Nodup)
    (hsub : ∀ x ∈ e'.slab.chain, x ∈ slots e.cache e.slab.page)
    (hfit : e'.list.Fits e'.slab.chain.length (capacity e.cache))
    (hiff : ∀ x ∈ slots e.cache e.slab.page, x ∈ e'.slab.chain ↔ ¬ Used H objs' e.cache x)
    (hother : ∀ f ∈ H, f ≠ e → ∀ x ∈ slots f.cache f.slab.page,
      (Used H objs' f.cache x ↔ Used H objs f.cache x))
    (hobjs : Objects H objs' L) : Layout H' objs' L := by
  have hold : ∀ f ∈ H', ∃ g ∈ H, f.cache = g.cache ∧ f.slab.page = g.slab.page ∧
      f.slab.header = g.slab.header ∧ ((f = g ∧ g ≠ e) ∨ (f = e' ∧ g = e)) := by
    intro f hf
    rcases (hH f).mp hf with ⟨hf, hne⟩ | rfl
    · exact ⟨f, hf, rfl, rfl, rfl, Or.inl ⟨rfl, hne⟩⟩
    · exact ⟨e, he, hc, hp, hh, Or.inr ⟨rfl, rfl⟩⟩
  have hnew : ∀ g ∈ H, ∃ f ∈ H', f.cache = g.cache ∧ f.slab.page = g.slab.page ∧
      f.slab.header = g.slab.header := by
    intro g hg
    by_cases hge : g = e
    · exact ⟨e', (hH e').mpr (Or.inr rfl), hge ▸ hc, hge ▸ hp, hge ▸ hh⟩
    · exact ⟨g, (hH g).mpr (Or.inl ⟨hg, hge⟩), rfl, rfl, rfl⟩
  have hinj : ∀ f ∈ H', ∀ f' ∈ H', ∀ g, ((f = g ∧ g ≠ e) ∨ (f = e' ∧ g = e)) →
      ((f' = g ∧ g ≠ e) ∨ (f' = e' ∧ g = e)) → f = f' := by
    rintro f _ f' _ g (⟨rfl, hne⟩ | ⟨rfl, rfl⟩) (⟨rfl, hne'⟩ | ⟨rfl, hge⟩)
    · rfl
    · exact absurd hge hne
    · exact absurd rfl hne'
    · rfl
  have hused : ∀ i x, Used H' objs' i x ↔ Used H objs' i x := by
    intro i x
    refine or_congr_right (and_congr_right fun _ => ?_)
    constructor
    · rintro ⟨f, hf, h6, rfl⟩
      obtain ⟨g, hg, hgc, _, hgh, _⟩ := hold f hf
      exact ⟨g, hg, hgc ▸ h6, hgh.symm⟩
    · rintro ⟨g, hg, h6, rfl⟩
      obtain ⟨f, hf, hfc, _, hfh⟩ := hnew g hg
      exact ⟨f, hf, hfc ▸ h6, hfh⟩
  refine { blocks := h.blocks, cache_lt := ?_, owned := ?_, page_inj := ?_, header_inj := ?_,
           header_on := ?_, header_off := ?_, chain_nodup := ?_, chain_slots := ?_,
           chain_iff := ?_, listed := ?_, obj_slot := ?_, obj_header := ?_, obj_pages := ?_,
           obj_distinct := hobjs.obj_distinct }
  · intro f hf
    obtain ⟨g, hg, hgc, _⟩ := hold f hf
    exact hgc ▸ h.cache_lt g hg
  · intro f hf
    obtain ⟨g, hg, _, hgp, _⟩ := hold f hf
    exact hgp ▸ h.owned g hg
  · intro f hf f' hf' hpp
    obtain ⟨g, hg, _, hgp, _, hfg⟩ := hold f hf
    obtain ⟨g', hg', _, hgp', _, hfg'⟩ := hold f' hf'
    obtain rfl := h.page_inj g hg g' hg' (hgp.symm.trans (hpp.trans hgp'))
    exact hinj f hf f' hf' g hfg hfg'
  · intro f hf f' hf' hpp
    obtain ⟨g, hg, _, _, hgp, hfg⟩ := hold f hf
    obtain ⟨g', hg', _, _, hgp', hfg'⟩ := hold f' hf'
    obtain rfl := h.header_inj g hg g' hg' (hgp.symm.trans (hpp.trans hgp'))
    exact hinj f hf f' hf' g hfg hfg'
  · intro f hf h6
    obtain ⟨g, hg, hgc, hgp, hgh, _⟩ := hold f hf
    rw [hgh, hgp]
    exact h.header_on g hg (hgc ▸ h6)
  · intro f hf h6
    obtain ⟨g, hg, hgc, _, hgh, _⟩ := hold f hf
    obtain ⟨d, hd, hd2, hx⟩ := h.header_off g hg (hgc ▸ h6)
    obtain ⟨d', hd', hdc, hdp, _⟩ := hnew d hd
    exact ⟨d', hd', hdc.trans hd2, hgh ▸ hdp ▸ hx⟩
  · intro f hf
    rcases (hH f).mp hf with ⟨hf, _⟩ | rfl
    · exact h.chain_nodup f hf
    · exact hnd
  · intro f hf x hx
    rcases (hH f).mp hf with ⟨hf, _⟩ | rfl
    · exact h.chain_slots f hf x hx
    · rw [hc, hp]
      exact hsub x hx
  · intro f hf x hx
    rw [hused]
    rcases (hH f).mp hf with ⟨hf, hne⟩ | rfl
    · rw [h.chain_iff f hf x hx, hother f hf hne x hx]
    · rw [hc, hp] at hx
      rw [hc]
      exact hiff x hx
  · intro f hf
    rcases (hH f).mp hf with ⟨hf, _⟩ | rfl
    · exact h.listed f hf
    · exact hc ▸ hfit
  · intro o ho i hi
    obtain ⟨g, hg, hgc, hx⟩ := hobjs.obj_slot o ho i hi
    obtain ⟨f, hf, hfc, hfp, _⟩ := hnew g hg
    exact ⟨f, hf, hfc.trans hgc, hfp ▸ hx⟩
  · intro o ho h2 f hf h6
    obtain ⟨g, hg, hgc, _, hgh, _⟩ := hold f hf
    exact hgh ▸ hobjs.obj_header o ho h2 g hg (hgc ▸ h6)
  · intro o ho k hk
    obtain ⟨hL, hpage⟩ := hobjs.obj_pages o ho k hk
    refine ⟨hL, fun f hf => ?_⟩
    obtain ⟨g, hg, _, hgp, _⟩ := hold f hf
    exact hgp ▸ hpage g hg

/-- A free slot is the address of no object. -/
theorem chain_not_obj (h : Layout H objs L) (he : e ∈ H) (hx : x ∈ e.slab.chain) {o : Obj}
    (ho : o ∈ objs) : o.addr ≠ x := by
  rintro rfl
  have hslot := h.chain_slots e he _ hx
  cases hk : classOf o.size with
  | cache i =>
    obtain ⟨f, hf, rfl, hy⟩ := h.obj_slot o ho i hk
    obtain rfl := h.eq_of_slot he hf hslot hy
    exact (h.chain_iff e he _ hslot).mp hx (Or.inl ⟨o, ho, hk, rfl⟩)
  | pages k =>
    obtain ⟨hL, hne⟩ := h.obj_pages o ho k hk
    have hpos := Nat.two_pow_pos k
    have hb := slot_in_page hslot
    have heq := h.blocks.not_both (a := o.addr) hL (h.owned e he)
      (fun hg => hne e he (congrArg Grant.addr hg).symm) ⟨le_rfl, by simp only; omega⟩
    exact heq (by simpa using hb)

/-- The slabs lie in no block of whole pages held by a client. -/
theorem page_off_pages (h : Layout H objs L) {o : Obj} (ho : o ∈ objs) {k : Nat}
    (hk : classOf o.size = .pages k) (he : e ∈ H) {a : Nat} (ha : o.Cell a) :
    ¬ (e.slab.page ≤ a ∧ a < e.slab.page + 4096) := by
  intro hb
  obtain ⟨hL, hne⟩ := h.obj_pages o ho k hk
  unfold Obj.Cell Obj.len at ha
  simp only [hk] at ha
  refine h.blocks.not_both (h.owned e he) hL (fun hg => hne e he (congrArg Grant.addr hg)) (a := a)
    ?_ ha
  simpa using hb

/-- Objects and headers do not meet. -/
theorem obj_off_header (h : Layout H objs L) {o : Obj} (ho : o ∈ objs) {a : Nat} (ha : o.Cell a)
    (he : e ∈ H) : ¬ (e.slab.header ≤ a ∧ a < e.slab.header + 64) := by
  cases hk : classOf o.size with
  | cache i =>
    obtain ⟨f, hf, rfl, hx⟩ := h.obj_slot o ho i hk
    unfold Obj.Cell Obj.len at ha
    simp only [hk] at ha
    exact h.slot_off_header hf hx
      (fun h2 => h.obj_header o ho (hk.trans (by rw [h2]))) he ha
  | pages k =>
    intro hb
    by_cases hc : e.cache < 6
    · rw [h.header_on e he hc] at hb
      exact h.page_off_pages ho hk he ha ⟨hb.1, by omega⟩
    · obtain ⟨f, hf, hf2, hx⟩ := h.header_off e he (Nat.not_lt.mp hc)
      have hs := slot_bounds hx
      have hfo := (firstObj_ge 2 f.slab.page).1
      have h64 : objSize 2 = 64 := by decide
      exact h.page_off_pages ho hk hf ha ⟨by omega, by omega⟩

/-- Objects hold no free slots. -/
theorem obj_off_chain (h : Layout H objs L) {o : Obj} (ho : o ∈ objs) (he : e ∈ H)
    (hx : x ∈ e.slab.chain) : ¬ o.Cell x := by
  intro ha
  have hslot := h.chain_slots e he x hx
  cases hk : classOf o.size with
  | cache i =>
    obtain ⟨f, hf, rfl, hy⟩ := h.obj_slot o ho i hk
    have hne := h.chain_not_obj he hx ho
    unfold Obj.Cell Obj.len at ha
    simp only [hk] at ha
    exact h.slot_off_slot hf he hy hslot hne ha
      ⟨le_rfl, Nat.lt_add_of_pos_right (objSize_pos _)⟩
  | pages k => exact h.page_off_pages ho hk he ha (slot_in_page hslot)

/-- Taking the first free slot of a slab. -/
theorem take (h : Layout H objs L) (he : e ∈ H) {xs : List Nat} (hx : e.slab.chain = x :: xs)
    {k : SlabList} (hfit : k.Fits xs.length (capacity e.cache)) {o : Obj} (hox : o.addr = x)
    (hoc : classOf o.size = .cache e.cache)
    (hH : ∀ f, f ∈ H' ↔ (f ∈ H ∧ f ≠ e) ∨ f = ⟨e.cache, k, { e.slab with chain := xs }⟩) :
    Layout H' (o :: objs) L := by
  have hin : x ∈ e.slab.chain := hx ▸ List.mem_cons_self
  have hslot := h.chain_slots e he x hin
  have hnd := h.chain_nodup e he
  rw [hx] at hnd
  obtain ⟨hxs, hnd⟩ := List.nodup_cons.mp hnd
  have hused : ∀ i y, Used H (o :: objs) i y ↔ (i = e.cache ∧ y = x) ∨ Used H objs i y := by
    intro i y
    simp only [Used, List.exists_mem_cons_iff, hoc, Class.cache.injEq, hox]
    rw [or_assoc, eq_comm, @eq_comm _ x y]
  have hsub : ∀ y ∈ xs, y ∈ slots e.cache e.slab.page := fun y hy =>
    h.chain_slots e he y (hx ▸ List.mem_cons_of_mem _ hy)
  refine h.swap he ⟨e.cache, k, { e.slab with chain := xs }⟩ rfl rfl rfl hH hnd hsub
    hfit (fun y hy => ?_) (fun f hf hne y hy => ?_) ⟨?_, ?_, ?_, ?_⟩
  · have hold := h.chain_iff e he y hy
    rw [hx, List.mem_cons] at hold
    rw [hused]
    constructor
    · rintro hyx (⟨_, rfl⟩ | hu)
      · exact hxs hyx
      · exact hold.mp (Or.inr hyx) hu
    · intro hn
      rcases hold.mpr fun hu => hn (Or.inr hu) with rfl | hyx
      · exact absurd (Or.inl ⟨rfl, rfl⟩) hn
      · exact hyx
  · rw [hused]
    refine or_iff_right ?_
    rintro ⟨_, rfl⟩
    exact hne (h.eq_of_slot hf he hy hslot)
  · intro p hp i hi
    rcases List.mem_cons.mp hp with rfl | hp
    · obtain rfl := Class.cache.inj (hoc.symm.trans hi)
      exact ⟨e, he, rfl, hox ▸ hslot⟩
    · exact h.obj_slot p hp i hi
  · intro p hp h2
    rcases List.mem_cons.mp hp with rfl | hp
    · rw [hox]
      exact h.chain_off_header he hin (Class.cache.inj (hoc.symm.trans h2))
    · exact h.obj_header p hp h2
  · intro p hp n hn
    rcases List.mem_cons.mp hp with rfl | hp
    · simp [hoc] at hn
    · exact h.obj_pages p hp n hn
  · rw [List.map_cons, List.nodup_cons]
    refine ⟨fun hmem => ?_, h.obj_distinct⟩
    obtain ⟨p, hp, hpa⟩ := List.mem_map.mp hmem
    exact h.chain_not_obj he hin hp (hpa.trans hox)

/-- Putting the slot of an object back on the chain of its slab. -/
theorem put (h : Layout H objs L) (he : e ∈ H) {o : Obj} (ho : o ∈ objs)
    (hoc : classOf o.size = .cache e.cache) (hslot : o.addr ∈ slots e.cache e.slab.page)
    {k : SlabList} (hfit : k.Fits (e.slab.chain.length + 1) (capacity e.cache))
    (hH : ∀ f, f ∈ H' ↔
      (f ∈ H ∧ f ≠ e) ∨ f = ⟨e.cache, k, { e.slab with chain := o.addr :: e.slab.chain }⟩) :
    Layout H' (objs.filter fun p => p.addr != o.addr) L := by
  have hobj : ∀ p ∈ objs, p.addr = o.addr → p = o := fun p hp hpa =>
    List.inj_on_of_nodup_map h.obj_distinct hp ho hpa
  have hself : ¬ Used H (objs.filter fun p => p.addr != o.addr) e.cache o.addr := by
    rintro (⟨p, hp, _, hpa⟩ | ⟨h2, f, hf, h6, hfx⟩)
    · simp [hpa] at hp
    · exact h.obj_header o ho (hoc.trans (by rw [h2])) f hf h6 hfx
  have hrest : ∀ i y, y ≠ o.addr → (Used H (objs.filter fun p => p.addr != o.addr) i y ↔
      Used H objs i y) := by
    intro i y hy
    refine or_congr_left ⟨?_, ?_⟩
    · rintro ⟨p, hp, hpi, hpa⟩
      exact ⟨p, (List.mem_filter.mp hp).1, hpi, hpa⟩
    · rintro ⟨p, hp, hpi, rfl⟩
      exact ⟨p, List.mem_filter.mpr ⟨hp, by simpa using hy⟩, hpi, rfl⟩
  have hnot : o.addr ∉ e.slab.chain := fun hin =>
    (h.chain_iff e he _ hslot).mp hin (Or.inl ⟨o, ho, hoc, rfl⟩)
  have hmem : ∀ p ∈ objs.filter fun p => p.addr != o.addr, p ∈ objs :=
    fun p hp => (List.mem_filter.mp hp).1
  refine h.swap he ⟨e.cache, k, { e.slab with chain := o.addr :: e.slab.chain }⟩
    rfl rfl rfl hH (List.nodup_cons.mpr ⟨hnot, h.chain_nodup e he⟩) (fun y hy => ?_) hfit
    (fun y hy => ?_) (fun f hf hne y hy => ?_)
    ⟨fun p hp => h.obj_slot p (hmem p hp), fun p hp => h.obj_header p (hmem p hp),
      fun p hp => h.obj_pages p (hmem p hp), h.obj_distinct.sublist (List.filter_sublist.map _)⟩
  · rcases List.mem_cons.mp hy with rfl | hy
    · exact hslot
    · exact h.chain_slots e he y hy
  · rw [List.mem_cons]
    by_cases hyo : y = o.addr
    · subst hyo
      exact iff_of_true (Or.inl rfl) hself
    · rw [hrest _ y hyo, ← h.chain_iff e he y hy]
      exact or_iff_right hyo
  · refine hrest _ y ?_
    rintro rfl
    exact hne (h.eq_of_slot hf he hy hslot)

/-- A further block of the page allocator. -/
theorem grow (h : Layout H objs L) {g : Grant} (hb : Blocks (g :: L)) : Layout H objs (g :: L) :=
  { h with
    blocks := hb
    owned := fun e he => List.mem_cons_of_mem _ (h.owned e he)
    obj_pages := fun o ho k hk =>
      ⟨List.mem_cons_of_mem _ (h.obj_pages o ho k hk).1, (h.obj_pages o ho k hk).2⟩ }

/-- A block of whole pages for a client. -/
theorem takePages (h : Layout H objs L) {k : Nat} {o : Obj} (hb : Blocks (⟨o.addr, k⟩ :: L))
    (hfresh : ∀ g ∈ L, g.addr ≠ o.addr) (hoc : classOf o.size = .pages k) :
    Layout H (o :: objs) (⟨o.addr, k⟩ :: L) := by
  have hg := h.grow hb
  have hused : ∀ i x, Used H (o :: objs) i x ↔ Used H objs i x := by
    intro i x
    simp [Used, hoc]
  have hnew : (⟨o.addr, k⟩ : Grant) ∈ (⟨o.addr, k⟩ :: L : List Grant) := List.mem_cons_self
  have hpage : ∀ e ∈ H, e.slab.page ≠ o.addr := fun e he => hfresh _ (h.owned e he)
  have hpos := Nat.two_pow_pos k
  refine { hg with chain_iff := ?_, obj_slot := ?_, obj_header := ?_, obj_pages := ?_,
                   obj_distinct := ?_ }
  · intro e he x hx
    rw [hused]
    exact h.chain_iff e he x hx
  · intro p hp i hi
    rcases List.mem_cons.mp hp with rfl | hp
    · simp [hoc] at hi
    · exact h.obj_slot p hp i hi
  · intro p hp h2
    rcases List.mem_cons.mp hp with rfl | hp
    · simp [hoc] at h2
    · exact h.obj_header p hp h2
  · intro p hp n hn
    rcases List.mem_cons.mp hp with rfl | hp
    · obtain rfl := Class.pages.inj (hoc.symm.trans hn)
      exact ⟨hnew, hpage⟩
    · exact hg.obj_pages p hp n hn
  · rw [List.map_cons, List.nodup_cons]
    refine ⟨fun hmem => ?_, h.obj_distinct⟩
    obtain ⟨p, hp, hpa⟩ := List.mem_map.mp hmem
    cases hc : classOf p.size with
    | pages n => exact hfresh _ (h.obj_pages p hp n hc).1 hpa
    | cache i =>
      obtain ⟨e, he, rfl, hx⟩ := h.obj_slot p hp i hc
      have hin := slot_in_page hx
      refine hg.blocks.not_both (hg.owned e he) hnew
        (fun heq => hpage e he (congrArg Grant.addr heq)) (a := o.addr) ?_ ⟨le_rfl, ?_⟩
      · simpa [hpa] using hin
      · simp only
        omega

/-- A block of whole pages comes back. -/
theorem freePages (h : Layout H objs L) {k : Nat} {o : Obj} (ho : o ∈ objs)
    (hoc : classOf o.size = .pages k) :
    Layout H (objs.filter fun p => p.addr != o.addr) (L.filter fun g => g.addr != o.addr) := by
  have hmem : ∀ p ∈ objs.filter fun p => p.addr != o.addr, p ∈ objs :=
    fun p hp => (List.mem_filter.mp hp).1
  have hL : ∀ g ∈ L.filter fun g => g.addr != o.addr, g ∈ L := fun g hg => (List.mem_filter.mp hg).1
  have hpage := (h.obj_pages o ho k hoc).2
  have hobj : ∀ p ∈ objs, p.addr = o.addr → p = o := fun p hp hpa =>
    List.inj_on_of_nodup_map h.obj_distinct hp ho hpa
  have hused : ∀ i x, Used H (objs.filter fun p => p.addr != o.addr) i x ↔ Used H objs i x := by
    intro i x
    refine or_congr_left ⟨?_, ?_⟩
    · rintro ⟨p, hp, hpi, hpx⟩
      exact ⟨p, hmem p hp, hpi, hpx⟩
    · rintro ⟨p, hp, hpi, hpx⟩
      refine ⟨p, List.mem_filter.mpr ⟨hp, ?_⟩, hpi, hpx⟩
      simp only [bne_iff_ne, ne_eq]
      intro hpa
      rw [hobj p hp hpa, hoc] at hpi
      cases hpi
  refine { h with
    blocks := ⟨fun g hg => h.blocks.page g (hL g hg), fun g hg g' hg' =>
      h.blocks.apart g (hL g hg) g' (hL g' hg')⟩
    owned := fun e he => List.mem_filter.mpr ⟨h.owned e he, by simpa using hpage e he⟩
    chain_iff := fun e he x hx => by rw [hused]; exact h.chain_iff e he x hx
    obj_slot := fun p hp => h.obj_slot p (hmem p hp)
    obj_header := fun p hp => h.obj_header p (hmem p hp)
    obj_pages := fun p hp n hn => ?_
    obj_distinct := h.obj_distinct.sublist (List.filter_sublist.map _) }
  obtain ⟨hp, hne⟩ := List.mem_filter.mp hp
  obtain ⟨hpL, hpp⟩ := h.obj_pages p hp n hn
  exact ⟨List.mem_filter.mpr ⟨hpL, hne⟩, hpp⟩

section Fresh

variable {p : Nat} (h : Layout H objs L) (hL : (⟨p, 0⟩ : Grant) ∈ L)
  (hH : ∀ e ∈ H, e.slab.page ≠ p)
include h hL hH

/-- A page that no slab uses holds none of their slots. -/
theorem slot_off_page (he : e ∈ H) (hx : x ∈ slots e.cache e.slab.page) :
    ¬ (p ≤ x ∧ x < p + 4096) := by
  intro hp
  have hb := slot_in_page hx
  refine h.blocks.not_both (h.owned e he) hL (fun hg => hH e he (congrArg Grant.addr hg)) (a := x)
    ?_ ?_ <;> simpa

/-- No header lies in a page that is given back. -/
theorem header_off_page (he : e ∈ H) : ¬ (p ≤ e.slab.header ∧ e.slab.header < p + 4096) := by
  by_cases hc : e.cache < 6
  · rw [h.header_on e he hc]
    intro hp
    refine h.blocks.not_both (h.owned e he) hL (fun hg => hH e he (congrArg Grant.addr hg))
      (a := e.slab.page) (by simp) (by simpa)
  · obtain ⟨f, hf, hf2, hx⟩ := h.header_off e he (Nat.not_lt.mp hc)
    exact h.slot_off_page hL hH hf (hf2 ▸ hx)

/-- Nothing in use does. -/
theorem not_used_page {i : Nat} (hp : p ≤ x ∧ x < p + 4096) : ¬ Used H objs i x := by
  rintro (⟨o, ho, hoi, rfl⟩ | ⟨_, e, he, _, rfl⟩)
  · obtain ⟨e, he, rfl, hx⟩ := h.obj_slot o ho i hoi
    exact h.slot_off_page hL hH he hx hp
  · exact h.header_off_page hL hH he hp

/-- No object does either. -/
theorem obj_off_page (hO : ∀ o ∈ objs, ∀ k, classOf o.size = .pages k → o.addr ≠ p) {o : Obj}
    (ho : o ∈ objs) : ¬ (p ≤ o.addr ∧ o.addr < p + 4096) := by
  intro hp
  cases hk : classOf o.size with
  | cache i => exact h.not_used_page hL hH hp (Or.inl ⟨o, ho, hk, rfl⟩)
  | pages k =>
    have hpos := Nat.two_pow_pos k
    refine h.blocks.not_both (h.obj_pages o ho k hk).1 hL
      (fun hg => hO o ho k hk (congrArg Grant.addr hg)) (a := o.addr) ?_ ?_
    · exact ⟨le_rfl, by simp only; omega⟩
    · simpa

end Fresh

/-- A new slab on a page of its own, its first slot handed out. The header lies in the page
or in an object of the 64-byte cache. -/
theorem addSlab (h : Layout H objs L) {i p hd c : Nat} {o : Obj} (hi : i < numCaches)
    (hL : (⟨p, 0⟩ : Grant) ∈ L) (hH : ∀ e ∈ H, e.slab.page ≠ p)
    (hO : ∀ o ∈ objs, ∀ k, classOf o.size = .pages k → o.addr ≠ p)
    (hhd : (i < 6 ∧ hd = p ∧ objs' = objs) ∨ (6 ≤ i ∧ objs = ⟨hd, 64⟩ :: objs'))
    (ho : o.addr = firstObj i p) (hoc : classOf o.size = .cache i) :
    Layout (insert ⟨i, .listPartial, ⟨hd, p, c, (slots i p).tail⟩⟩ H) (o :: objs') L := by
  have hcap := two_le_capacity hi
  have hpage := h.blocks.single_page hL
  have hsplit : slots i p = firstObj i p :: (slots i p).tail := by
    have hlen := slots_length i p
    cases hs : slots i p with
    | nil => rw [hs] at hlen; simp at hlen; omega
    | cons a l =>
      have hget : (slots i p)[0]? = some (firstObj i p) := by
        simp [slots, List.getElem?_range (by omega : 0 < capacity i)]
      rw [hs] at hget
      simpa using hget
  have hnd := slots_nodup i p
  rw [hsplit] at hnd
  obtain ⟨hfirst, hndt⟩ := List.nodup_cons.mp hnd
  have hin : ∀ x ∈ slots i p, p ≤ x ∧ x < p + 4096 := fun x hx =>
    slot_in_page (e := ⟨i, .listPartial, ⟨hd, p, c, []⟩⟩) hx
  have hfslot : firstObj i p ∈ slots i p := by rw [hsplit]; exact List.mem_cons_self
  have hsub : ∀ q ∈ objs', q ∈ objs := by
    rcases hhd with ⟨_, _, rfl⟩ | ⟨_, rfl⟩
    · exact fun q hq => hq
    · exact fun q hq => List.mem_cons_of_mem _ hq
  set n : Entry := ⟨i, .listPartial, ⟨hd, p, c, (slots i p).tail⟩⟩ with hn
  have hnH : n ∉ H := fun hm => hH n hm rfl
  have h64 : classOf 64 = .cache 2 := by decide
  have hhdne : ∀ e ∈ H, e.slab.header ≠ hd := by
    intro e he hee
    rcases hhd with ⟨_, rfl, _⟩ | ⟨_, rfl⟩
    · exact h.header_off_page hL hH he (hee ▸ ⟨le_rfl, by omega⟩)
    · by_cases hc : e.cache < 6
      · obtain ⟨d, hd', hd2, hx⟩ := h.obj_slot _ List.mem_cons_self 2 h64
        rw [h.header_on e he hc] at hee
        have hb := slot_bounds hx
        have hg := (firstObj_ge 2 d.slab.page).2 (by decide)
        obtain ⟨⟨a, ha⟩, _⟩ := h.page_spec he
        obtain ⟨⟨b, hb'⟩, _⟩ := h.page_spec hd'
        have hs64 : objSize 2 = 64 := by decide
        simp only at hb
        omega
      · exact h.obj_header _ List.mem_cons_self h64 e he (Nat.not_lt.mp hc) hee
  have hused : ∀ j x, Used (insert n H) (o :: objs') j x ↔
      (j = i ∧ x = firstObj i p) ∨ Used H objs j x := by
    intro j x
    rcases hhd with ⟨h6, rfl, rfl⟩ | ⟨h6, rfl⟩
    · simp only [Used, List.exists_mem_cons_iff, Set.mem_insert_iff, exists_eq_or_imp, hoc,
        Class.cache.injEq, ho, hn]
      constructor
      · rintro ((⟨rfl, rfl⟩ | hx) | ⟨h2, ⟨hge, _⟩ | hx⟩)
        · exact Or.inl ⟨rfl, rfl⟩
        · exact Or.inr (Or.inl hx)
        · exact absurd hge (Nat.not_le.mpr h6)
        · exact Or.inr (Or.inr ⟨h2, hx⟩)
      · rintro (⟨rfl, rfl⟩ | hx | ⟨h2, hx⟩)
        · exact Or.inl (Or.inl ⟨rfl, rfl⟩)
        · exact Or.inl (Or.inr hx)
        · exact Or.inr ⟨h2, Or.inr hx⟩
    · simp only [Used, List.exists_mem_cons_iff, Set.mem_insert_iff, exists_eq_or_imp, hoc,
        Class.cache.injEq, ho, hn, h64]
      constructor
      · rintro ((⟨rfl, rfl⟩ | hx) | ⟨rfl, ⟨_, rfl⟩ | hx⟩)
        · exact Or.inl ⟨rfl, rfl⟩
        · exact Or.inr (Or.inl (Or.inr hx))
        · exact Or.inr (Or.inl (Or.inl ⟨rfl, rfl⟩))
        · exact Or.inr (Or.inr ⟨rfl, hx⟩)
      · rintro (⟨rfl, rfl⟩ | (⟨rfl, rfl⟩ | hx) | ⟨h2, hx⟩)
        · exact Or.inl (Or.inl ⟨rfl, rfl⟩)
        · exact Or.inr ⟨rfl, Or.inl ⟨h6, rfl⟩⟩
        · exact Or.inl (Or.inr hx)
        · exact Or.inr ⟨h2, Or.inr hx⟩
  refine { blocks := h.blocks, cache_lt := ?_, owned := ?_, page_inj := ?_, header_inj := ?_,
           header_on := ?_, header_off := ?_, chain_nodup := ?_, chain_slots := ?_,
           chain_iff := ?_, listed := ?_, obj_slot := ?_, obj_header := ?_, obj_pages := ?_,
           obj_distinct := ?_ }
  · rintro e (rfl | he)
    · exact hi
    · exact h.cache_lt e he
  · rintro e (rfl | he)
    · exact hL
    · exact h.owned e he
  · rintro e (rfl | he) f (rfl | hf) hp
    · rfl
    · exact absurd hp.symm (hH f hf)
    · exact absurd hp (hH e he)
    · exact h.page_inj e he f hf hp
  · rintro e (rfl | he) f (rfl | hf) hp
    · rfl
    · exact absurd hp.symm (hhdne f hf)
    · exact absurd hp (hhdne e he)
    · exact h.header_inj e he f hf hp
  · rintro e (rfl | he) hc
    · rcases hhd with ⟨_, rfl, _⟩ | ⟨h6, _⟩
      · rfl
      · exact absurd hc (Nat.not_lt.mpr h6)
    · exact h.header_on e he hc
  · rintro e (rfl | he) hc
    · rcases hhd with ⟨h6, _⟩ | ⟨_, rfl⟩
      · exact absurd hc (Nat.not_le.mpr h6)
      · obtain ⟨d, hd', hd2, hx⟩ := h.obj_slot _ List.mem_cons_self 2 h64
        exact ⟨d, Or.inr hd', hd2, hx⟩
    · obtain ⟨d, hd', hd2, hx⟩ := h.header_off e he hc
      exact ⟨d, Or.inr hd', hd2, hx⟩
  · rintro e (rfl | he)
    · exact hndt
    · exact h.chain_nodup e he
  · rintro e (rfl | he) x hx
    · exact List.mem_of_mem_tail hx
    · exact h.chain_slots e he x hx
  · rintro e (rfl | he) x hx
    · rw [hused]
      have hno := h.not_used_page hL hH (i := i) (hin x hx)
      have hx' : x ∈ slots i p := hx
      rw [hsplit, List.mem_cons] at hx'
      constructor
      · rintro ht (⟨_, rfl⟩ | hu)
        · exact hfirst ht
        · exact hno hu
      · intro hu
        exact hx'.resolve_left fun hxf => hu (Or.inl ⟨rfl, hxf⟩)
    · rw [hused, h.chain_iff e he x hx, not_or]
      refine (and_iff_right ?_).symm
      rintro ⟨_, rfl⟩
      exact h.slot_off_page hL hH he hx (hin _ hfslot)
  · rintro e (rfl | he)
    · have hlen := slots_length i p
      rw [hsplit, List.length_cons] at hlen
      exact ⟨by simp only [hn]; omega, by simp only [hn]; omega⟩
    · exact h.listed e he
  · intro q hq j hj
    rcases List.mem_cons.mp hq with rfl | hq
    · obtain rfl := Class.cache.inj (hoc.symm.trans hj)
      exact ⟨n, Or.inl rfl, rfl, ho ▸ hfslot⟩
    · obtain ⟨e, he, hej, hx⟩ := h.obj_slot q (hsub q hq) j hj
      exact ⟨e, Or.inr he, hej, hx⟩
  · intro q hq h2 e he h6 hee
    rcases List.mem_cons.mp hq with rfl | hq
    · obtain rfl := Class.cache.inj (hoc.symm.trans h2)
      rcases he with rfl | he
      · simp [hn] at h6
      · exact h.header_off_page hL hH he (hee ▸ ho ▸ hin _ hfslot)
    · rcases he with rfl | he
      · rcases hhd with ⟨hlt, _⟩ | ⟨_, rfl⟩
        · exact absurd h6 (Nat.not_le.mpr hlt)
        · have hdist := h.obj_distinct
          rw [List.map_cons, List.nodup_cons] at hdist
          exact hdist.1 (List.mem_map.mpr ⟨q, hq, hee.symm⟩)
      · exact h.obj_header q (hsub q hq) h2 e he h6 hee
  · intro q hq k hk
    rcases List.mem_cons.mp hq with rfl | hq
    · simp [hoc] at hk
    · obtain ⟨hqL, hqp⟩ := h.obj_pages q (hsub q hq) k hk
      refine ⟨hqL, ?_⟩
      rintro e (rfl | he)
      · exact (hO q (hsub q hq) k hk).symm
      · exact hqp e he
  · have hdist : (objs'.map Obj.addr).Nodup := by
      rcases hhd with ⟨_, _, rfl⟩ | ⟨_, rfl⟩
      · exact h.obj_distinct
      · exact (List.nodup_cons.mp h.obj_distinct).2
    rw [List.map_cons, List.nodup_cons]
    refine ⟨fun hmem => ?_, hdist⟩
    obtain ⟨q, hq, hqa⟩ := List.mem_map.mp hmem
    exact h.obj_off_page hL hH hO (hsub q hq) (hqa ▸ ho ▸ hin _ hfslot)

end Layout

end RexOS.Kvmalloc
