import RexOS.Kvmalloc.Model

/-!
# The slabs and what is handed out of them

The abstract state of the slab allocator: for each cache and each of its three lists the
slabs on it, a slab being its header, its page and the chain of its free slots. `Layout`
says how the slabs, the objects held by clients and the blocks of the page allocator lie
in memory without overlap. It does not speak about the content of memory; the moves of
the allocator are followed here on the slabs alone.
-/

namespace RexOS.Kvmalloc

open Kalloc (Grant Blocks)

/-- A slab. -/
structure ASlab where
  header : Nat
  page : Nat
  caller : Nat
  chain : List Nat
  deriving DecidableEq

/-- The slabs on each list of each cache. -/
abbrev Shelf := Nat → SlabList → List ASlab

/-- The size of the objects of cache `i`. -/
def objSize (i : Nat) : Nat := 16 * 2 ^ i

/-- How many objects a slab of cache `i` holds. -/
def capacity (i : Nat) : Nat := if i < 6 then (4096 - slabSize) / objSize i else 4096 / objSize i

/-- The first slot in the page of a slab of cache `i`. -/
def firstObj (i page : Nat) : Nat := if i < 6 then page + slabSize else page

/-- The slots in the page of a slab of cache `i`. -/
def slots (i page : Nat) : List Nat :=
  (List.range (capacity i)).map fun j => firstObj i page + j * objSize i

/-- Where an object of a size comes from. -/
inductive Class where
  | cache (i : Nat)
  | pages (order : Nat)
  deriving DecidableEq

/-- The smallest cache or block that an object of a size fits. -/
def classOf (size : Nat) : Class :=
  if size ≤ 2048 then
    .cache (((List.range numCaches).find? fun i => ! decide (objSize i < size)).getD 0)
  else .pages ((orderFor size).getD 0)

/-- An object held by a client: its address and the size asked for. -/
structure Obj where
  addr : Nat
  size : Nat
  deriving DecidableEq

/-- How long an object is. -/
def Obj.len (o : Obj) : Nat :=
  match classOf o.size with
  | .cache i => objSize i
  | .pages order => 2 ^ order * 4096

/-- The addresses of an object. -/
def Obj.Cell (o : Obj) (a : Nat) : Prop := o.addr ≤ a ∧ a < o.addr + o.len

instance (o : Obj) (a : Nat) : Decidable (o.Cell a) := by unfold Obj.Cell; infer_instance

/-- A slab with the place it stands at. -/
@[ext]
structure Entry where
  cache : Nat
  list : SlabList
  slab : ASlab

/-- The slabs of a shelf. -/
def entries (shelf : Shelf) : Set Entry :=
  {e | e.cache < numCaches ∧ e.slab ∈ shelf e.cache e.list}

/-! ## Sizes -/

/-- A small object is from the first cache it fits. -/
theorem classOf_small {size : Nat} (h : size ≤ 2048) : ∃ i < numCaches, size ≤ objSize i ∧
    ((List.range numCaches).find? fun i => ! decide (objSize i < size)) = some i ∧
      classOf size = .cache i := by
  cases hf : (List.range numCaches).find? fun i => ! decide (objSize i < size) with
  | none =>
    have h7 := List.find?_eq_none.mp hf 7 (by decide)
    have : objSize 7 = 2048 := by decide
    simp only [Bool.not_eq_true', decide_eq_false_iff_not, not_not] at h7
    omega
  | some i =>
    have hi := List.mem_range.mp (List.mem_of_find?_eq_some hf)
    have hs := List.find?_some hf
    simp only [Bool.not_eq_true', decide_eq_false_iff_not, Nat.not_lt] at hs
    exact ⟨i, hi, hs, rfl, by rw [classOf, if_pos h, hf, Option.getD_some]⟩

/-- A large object of up to 8 MiB is the first block it fits. -/
theorem classOf_large {size : Nat} (h : 2048 < size) (h8 : size ≤ 0x800000) :
    ∃ k, orderFor size = some k ∧ size ≤ 2 ^ k * 4096 ∧ classOf size = .pages k := by
  cases hf : orderFor size with
  | none =>
    have h11 := List.find?_eq_none.mp hf 11 (by decide)
    have : 4096 <<< 11 = 0x800000 := by decide
    simp only [Bool.not_eq_true', decide_eq_false_iff_not, not_not] at h11
    omega
  | some k =>
    have hs := List.find?_some hf
    simp only [Bool.not_eq_true', decide_eq_false_iff_not, Nat.not_lt] at hs
    rw [Nat.shiftLeft_eq, Nat.mul_comm] at hs
    exact ⟨k, rfl, hs, by rw [classOf, if_neg (Nat.not_le.mpr h), hf, Option.getD_some]⟩

/-- An object is as long as was asked for. -/
theorem Obj.size_le_len (o : Obj) (h8 : o.size ≤ 0x800000) : o.size ≤ o.len := by
  unfold Obj.len
  by_cases h : o.size ≤ 2048
  · obtain ⟨i, _, hle, _, hc⟩ := classOf_small h
    rw [hc]
    exact hle
  · obtain ⟨k, _, hle, hc⟩ := classOf_large (Nat.not_le.mp h) h8
    rw [hc]
    exact hle

/-! ## Slots -/

section Slots

variable {i page x y : Nat}

/-- Objects are not empty. -/
theorem objSize_pos (i : Nat) : 0 < objSize i := by
  unfold objSize
  have := Nat.two_pow_pos i
  omega

/-- The slots of a slab, one behind the other. -/
theorem mem_slots : x ∈ slots i page ↔ ∃ j < capacity i, firstObj i page + j * objSize i = x := by
  simp [slots]

/-- The slots and the header fit the page. -/
theorem capacity_le (i page : Nat) : firstObj i page + capacity i * objSize i ≤ page + 4096 := by
  unfold firstObj capacity slabSize
  split
  · have := Nat.div_mul_le_self (4096 - 64) (objSize i)
    omega
  · have := Nat.div_mul_le_self 4096 (objSize i)
    omega

/-- A slab has fewer slots than bytes. -/
theorem capacity_le_page (i : Nat) : capacity i ≤ 4096 := by
  unfold capacity
  split
  · exact (Nat.div_le_self _ _).trans (by decide)
  · exact Nat.div_le_self _ _

/-- A slot lies in its page. -/
theorem slot_bounds (hx : x ∈ slots i page) :
    firstObj i page ≤ x ∧ x + objSize i ≤ page + 4096 := by
  obtain ⟨j, hj, rfl⟩ := mem_slots.mp hx
  have h1 := capacity_le i page
  have h2 := Nat.mul_le_mul_right (objSize i) (Nat.succ_le_of_lt hj)
  rw [Nat.succ_mul] at h2
  omega

/-- The first object is behind the header, where it is in the page. -/
theorem firstObj_ge (i page : Nat) :
    page ≤ firstObj i page ∧ (i < 6 → firstObj i page = page + 64) := by
  unfold firstObj slabSize
  split <;> omega

/-- Two slots of a page are at least the size of a slot apart. -/
theorem slot_apart (hx : x ∈ slots i page) (hy : y ∈ slots i page) (hne : x ≠ y) :
    x + objSize i ≤ y ∨ y + objSize i ≤ x := by
  obtain ⟨j, hj, rfl⟩ := mem_slots.mp hx
  obtain ⟨l, hl, rfl⟩ := mem_slots.mp hy
  rcases Nat.lt_trichotomy j l with h | rfl | h
  · have := Nat.mul_le_mul_right (objSize i) (Nat.succ_le_of_lt h)
    rw [Nat.succ_mul] at this
    omega
  · exact absurd rfl hne
  · have := Nat.mul_le_mul_right (objSize i) (Nat.succ_le_of_lt h)
    rw [Nat.succ_mul] at this
    omega

/-- The slots are different. -/
theorem slots_nodup (i page : Nat) : (slots i page).Nodup := by
  refine List.Nodup.map_on (fun j _ l _ he => ?_) List.nodup_range
  exact Nat.eq_of_mul_eq_mul_right (objSize_pos i) (Nat.add_left_cancel he)

/-- They are as many as the slab holds. -/
theorem slots_length (i page : Nat) : (slots i page).length = capacity i := by simp [slots]

/-- Every slab holds at least two objects. -/
theorem two_le_capacity (hi : i < numCaches) : 2 ≤ capacity i :=
  (by decide : ∀ i < numCaches, 2 ≤ capacity i) i hi

/-- The slots of the 64-byte cache are aligned like headers. -/
theorem slot_dvd (hp : 4096 ∣ page) (hx : x ∈ slots 2 page) : 64 ∣ x := by
  obtain ⟨j, _, rfl⟩ := mem_slots.mp hx
  have h64 : objSize 2 = 64 := by decide
  obtain ⟨q, rfl⟩ := hp
  have hf : firstObj 2 (4096 * q) = 4096 * q + 64 := (firstObj_ge 2 _).2 (by decide)
  rw [h64, hf]
  omega

end Slots

/-! ## The layout -/

/-- How many slots are free in a slab on each list. -/
def SlabList.Fits : SlabList → Nat → Nat → Prop
  | .listFull, free, _ => free = 0
  | .listPartial, free, cap => 0 < free ∧ free < cap
  | .listEmpty, free, cap => free = cap

/-- Slot `x` of cache `i` is held by a client or carries the header of an off-slab slab. -/
def Used (H : Set Entry) (objs : List Obj) (i x : Nat) : Prop :=
  (∃ o ∈ objs, classOf o.size = .cache i ∧ o.addr = x) ∨
    (i = 2 ∧ ∃ e ∈ H, 6 ≤ e.cache ∧ e.slab.header = x)

/-- The slabs `H`, the objects `objs` and the blocks `L` of the page allocator. -/
structure Layout (H : Set Entry) (objs : List Obj) (L : List Grant) : Prop where
  blocks : Blocks L
  cache_lt : ∀ e ∈ H, e.cache < numCaches
  owned : ∀ e ∈ H, (⟨e.slab.page, 0⟩ : Grant) ∈ L
  page_inj : ∀ e ∈ H, ∀ f ∈ H, e.slab.page = f.slab.page → e = f
  header_inj : ∀ e ∈ H, ∀ f ∈ H, e.slab.header = f.slab.header → e = f
  header_on : ∀ e ∈ H, e.cache < 6 → e.slab.header = e.slab.page
  header_off : ∀ e ∈ H, 6 ≤ e.cache → ∃ f ∈ H, f.cache = 2 ∧ e.slab.header ∈ slots 2 f.slab.page
  chain_nodup : ∀ e ∈ H, e.slab.chain.Nodup
  chain_slots : ∀ e ∈ H, ∀ x ∈ e.slab.chain, x ∈ slots e.cache e.slab.page
  chain_iff : ∀ e ∈ H, ∀ x ∈ slots e.cache e.slab.page,
    x ∈ e.slab.chain ↔ ¬ Used H objs e.cache x
  listed : ∀ e ∈ H, e.list.Fits e.slab.chain.length (capacity e.cache)
  obj_slot : ∀ o ∈ objs, ∀ i, classOf o.size = .cache i →
    ∃ e ∈ H, e.cache = i ∧ o.addr ∈ slots i e.slab.page
  obj_header : ∀ o ∈ objs, classOf o.size = .cache 2 → ∀ e ∈ H, 6 ≤ e.cache →
    e.slab.header ≠ o.addr
  obj_pages : ∀ o ∈ objs, ∀ k, classOf o.size = .pages k →
    (⟨o.addr, k⟩ : Grant) ∈ L ∧ ∀ e ∈ H, e.slab.page ≠ o.addr
  obj_distinct : (objs.map Obj.addr).Nodup

namespace Layout

variable {H : Set Entry} {objs : List Obj} {L : List Grant} {e f : Entry} {x y : Nat}

/-! ## Where things lie -/

/-- A slab has a page. -/
theorem page_spec (h : Layout H objs L) (he : e ∈ H) :
    4096 ∣ e.slab.page ∧ 0 < e.slab.page ∧ e.slab.page + 4096 ≤ 2 ^ 64 :=
  h.blocks.single_page (h.owned e he)

/-- Slabs that share an address of their pages are one slab. -/
theorem eq_of_page (h : Layout H objs L) (he : e ∈ H) (hf : f ∈ H) {a : Nat}
    (ha : e.slab.page ≤ a ∧ a < e.slab.page + 4096)
    (ha' : f.slab.page ≤ a ∧ a < f.slab.page + 4096) : e = f := by
  obtain ⟨⟨p, hp⟩, _⟩ := h.page_spec he
  obtain ⟨⟨q, hq⟩, _⟩ := h.page_spec hf
  exact h.page_inj e he f hf (by omega)

/-- Its slots are in it. -/
theorem slot_in_page (hx : x ∈ slots e.cache e.slab.page) :
    e.slab.page ≤ x ∧ x < e.slab.page + 4096 := by
  have h1 := slot_bounds hx
  have h2 := firstObj_ge e.cache e.slab.page
  have h3 := objSize_pos e.cache
  omega

/-- A slot belongs to one slab. -/
theorem eq_of_slot (h : Layout H objs L) (he : e ∈ H) (hf : f ∈ H)
    (hx : x ∈ slots e.cache e.slab.page) (hx' : x ∈ slots f.cache f.slab.page) : e = f :=
  h.eq_of_page he hf (slot_in_page hx) (slot_in_page hx')

/-- The page of a slot is found by clearing the low twelve bits. -/
theorem page_of_slot (h : Layout H objs L) (he : e ∈ H) (hx : x ∈ slots e.cache e.slab.page) :
    Bits.andNot x 0xFFF = e.slab.page := by
  obtain ⟨⟨p, hp⟩, _⟩ := h.page_spec he
  obtain ⟨h1, h2⟩ := slot_in_page hx
  refine (Bits.andNot_mask x 12).trans ?_
  omega

/-- Headers are aligned. -/
theorem header_dvd (h : Layout H objs L) (he : e ∈ H) : 64 ∣ e.slab.header := by
  by_cases hc : e.cache < 6
  · rw [h.header_on e he hc]
    exact (by decide : 64 ∣ 4096).trans (h.page_spec he).1
  · obtain ⟨f, hf, hf2, hx⟩ := h.header_off e he (Nat.not_lt.mp hc)
    exact slot_dvd (h.page_spec hf).1 hx

/-- A header has an address. -/
theorem header_lt (h : Layout H objs L) (he : e ∈ H) : e.slab.header < 2 ^ 64 := by
  by_cases hc : e.cache < 6
  · have := (h.page_spec he).2.2
    rw [h.header_on e he hc]
    omega
  · obtain ⟨f, hf, hf2, hx⟩ := h.header_off e he (Nat.not_lt.mp hc)
    have h1 := slot_in_page (hf2 ▸ hx)
    have h2 := (h.page_spec hf).2.2
    omega

/-- The cell of a slot that carries no header does not meet a header. -/
theorem slot_off_header (h : Layout H objs L) (he : e ∈ H) (hx : x ∈ slots e.cache e.slab.page)
    (hn : e.cache = 2 → ∀ f ∈ H, 6 ≤ f.cache → f.slab.header ≠ x) (hf : f ∈ H) {a : Nat}
    (ha : x ≤ a ∧ a < x + objSize e.cache) :
    ¬ (f.slab.header ≤ a ∧ a < f.slab.header + 64) := by
  intro hh
  have hb := slot_bounds hx
  have hg := firstObj_ge e.cache e.slab.page
  by_cases hc : f.cache < 6
  · rw [h.header_on f hf hc] at hh
    have hef := h.eq_of_page he hf (a := a) (by omega) (by omega)
    subst hef
    have := hg.2 hc
    omega
  · obtain ⟨d, hd, hd2, hy⟩ := h.header_off f hf (Nat.not_lt.mp hc)
    have hby := slot_bounds hy
    have hgy := firstObj_ge 2 d.slab.page
    have h64 : objSize 2 = 64 := by decide
    have hed := h.eq_of_page he hd (a := a) (by omega) (by omega)
    subst hed
    rw [hd2] at hx ha
    rcases slot_apart hx hy (fun hxy => hn hd2 f hf (Nat.not_lt.mp hc) hxy.symm) with h1 | h1 <;>
      omega

/-- A free slot carries no header. -/
theorem chain_off_header (h : Layout H objs L) (he : e ∈ H) (hx : x ∈ e.slab.chain) :
    e.cache = 2 → ∀ f ∈ H, 6 ≤ f.cache → f.slab.header ≠ x := by
  intro h2 f hf hc hfx
  exact (h.chain_iff e he x (h.chain_slots e he x hx)).mp hx (Or.inr ⟨h2, f, hf, hc, hfx⟩)

/-- The cells of two slots do not meet. -/
theorem slot_off_slot (h : Layout H objs L) (he : e ∈ H) (hf : f ∈ H)
    (hx : x ∈ slots e.cache e.slab.page) (hy : y ∈ slots f.cache f.slab.page) (hne : x ≠ y)
    {a : Nat} (ha : x ≤ a ∧ a < x + objSize e.cache) : ¬ (y ≤ a ∧ a < y + objSize f.cache) := by
  intro hay
  have hbx := slot_bounds hx
  have hby := slot_bounds hy
  have hgx := firstObj_ge e.cache e.slab.page
  have hgy := firstObj_ge f.cache f.slab.page
  have hef := h.eq_of_page he hf (a := a) (by omega) (by omega)
  subst hef
  rcases slot_apart hx hy hne with h1 | h1 <;> omega

end Layout

end RexOS.Kvmalloc
