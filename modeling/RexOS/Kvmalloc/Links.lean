import RexOS.Kvmalloc.Memory

/-!
# The lists of slabs

Every move between two lists is one edit, `relink`: it joins the neighbours of a header
and puts the header in front of another list. The three places that write a move out
differ only in what they know about the links beforehand.
-/

namespace RexOS.Kvmalloc

open Heap

variable {β : Type} {s t u : Heap β} {i h p n q z : Nat} {x y : SlabList}

namespace Heap

/-- Links and heads are different words. -/
@[simp] theorem next_setHead (k : SlabList) (v : Nat) : (s.setHead i k v).next h = s.next h := rfl
@[simp] theorem prev_setHead (k : SlabList) (v : Nat) : (s.setHead i k v).prev h = s.prev h := rfl
@[simp] theorem head_store (k : SlabList) (a v : Nat) : (s.store a v).head i k = s.head i k := rfl
@[simp] theorem head_setNext (k : SlabList) (v : Nat) : (s.setNext h v).head i k = s.head i k := rfl
@[simp] theorem head_setPrev (k : SlabList) (v : Nat) : (s.setPrev h v).head i k = s.head i k := rfl

/-- A head is stored where it is read. -/
theorem head_setHead (j : Nat) (k l : SlabList) (v : Nat) :
    (s.setHead i k v).head j l = if j = i ∧ l = k then v else s.head j l := by
  unfold head setHead
  by_cases hj : j = i
  · subst hj
    by_cases hl : l = k
    · subst hl; simp
    · simp [hl]
  · simp [hj]

end Heap

/-! ## Changes to links alone -/

/-- `t` differs from `s` in list heads and in links of the headers that meet `P`. -/
structure LinkStep (P : Nat → Prop) (s t : Heap β) : Prop where
  body : ∀ z, 64 ∣ z → t.body z = s.body z
  mem : ∀ a, (∀ h, P h → ¬ (h ≤ a ∧ a < h + 64)) → t.mem a = s.mem a
  pages : t.pages = s.pages
  slabs : t.slabs = s.slabs
  size : ∀ j, (t.caches j).alignedSize = (s.caches j).alignedSize
  flag : ∀ j, (t.caches j).flag = (s.caches j).flag

namespace LinkStep

variable {P : Nat → Prop}

theorem refl (s : Heap β) : LinkStep P s s :=
  ⟨fun _ _ => rfl, fun _ _ => rfl, rfl, rfl, fun _ => rfl, fun _ => rfl⟩

/-- Two relinkings in a row. -/
theorem trans (h₁ : LinkStep P s t) (h₂ : LinkStep P t u) : LinkStep P s u where
  body z hz := (h₂.body z hz).trans (h₁.body z hz)
  mem a ha := (h₂.mem a ha).trans (h₁.mem a ha)
  pages := h₂.pages.trans h₁.pages
  slabs := h₂.slabs.trans h₁.slabs
  size j := (h₂.size j).trans (h₁.size j)
  flag j := (h₂.flag j).trans (h₁.flag j)

/-- They may touch more headers than they do. -/
theorem mono {Q : Nat → Prop} (h : LinkStep P s t) (hPQ : ∀ z, P z → Q z) : LinkStep Q s t where
  body := h.body
  mem a ha := h.mem a fun z hz => ha z (hPQ z hz)
  pages := h.pages
  slabs := h.slabs
  size := h.size
  flag := h.flag

/-- A store into a forward link. -/
theorem setNext (hP : P h) (hh : 64 ∣ h) (v : Nat) : LinkStep P s (s.setNext h v) where
  body z hz := s.body_setNext hz hh
  mem a ha := Function.update_of_ne (by have := ha h hP; omega) _ _
  pages := rfl
  slabs := rfl
  size _ := rfl
  flag _ := rfl

/-- A store into a backward link. -/
theorem setPrev (hP : P h) (hh : 64 ∣ h) (v : Nat) : LinkStep P s (s.setPrev h v) where
  body z hz := s.body_setPrev hz hh
  mem a ha := Function.update_of_ne (by have := ha h hP; omega) _ _
  pages := rfl
  slabs := rfl
  size _ := rfl
  flag _ := rfl

/-- A store into a head. -/
theorem setHead (k : SlabList) (v : Nat) : LinkStep P s (s.setHead i k v) where
  body _ _ := rfl
  mem _ _ := rfl
  pages := rfl
  slabs := rfl
  size j := by unfold Heap.setHead; by_cases hj : j = i <;> simp [hj]
  flag j := by unfold Heap.setHead; by_cases hj : j = i <;> simp [hj]

/-- A store on a condition. -/
theorem ite {c : Prop} [Decidable c] (h₁ : c → LinkStep P s t) (h₂ : ¬ c → LinkStep P s u) :
    LinkStep P s (if c then t else u) := by
  split
  · exact h₁ ‹_›
  · exact h₂ ‹_›

end LinkStep

/-! ## Changes to the rest of one header -/

/-- `t` differs from `s` in list heads and in headers that meet `P`, and the body of the
header `h` alone has changed, by `f`. -/
structure HeaderStep (P : Nat → Prop) (h : Nat) (f : Body → Body) (s t : Heap β) : Prop where
  body : ∀ z, 64 ∣ z → t.body z = if z = h then f (s.body z) else s.body z
  mem : ∀ a, (∀ w, P w → ¬ (w ≤ a ∧ a < w + 64)) → t.mem a = s.mem a
  pages : t.pages = s.pages
  slabs : t.slabs = s.slabs
  size : ∀ j, (t.caches j).alignedSize = (s.caches j).alignedSize
  flag : ∀ j, (t.caches j).flag = (s.caches j).flag

namespace HeaderStep

variable {P : Nat → Prop} {f g : Body → Body}

theorem trans (h₁ : HeaderStep P h f s t) (h₂ : HeaderStep P h g t u) :
    HeaderStep P h (g ∘ f) s u where
  body z hz := by
    rw [h₂.body z hz, h₁.body z hz]
    split <;> rfl
  mem a ha := (h₂.mem a ha).trans (h₁.mem a ha)
  pages := h₂.pages.trans h₁.pages
  slabs := h₂.slabs.trans h₁.slabs
  size j := (h₂.size j).trans (h₁.size j)
  flag j := (h₂.flag j).trans (h₁.flag j)

/-- A step on links changes no body. -/
theorem link (h₁ : HeaderStep P h f s t) (h₂ : LinkStep P t u) : HeaderStep P h f s u where
  body z hz := (h₂.body z hz).trans (h₁.body z hz)
  mem a ha := (h₂.mem a ha).trans (h₁.mem a ha)
  pages := h₂.pages.trans h₁.pages
  slabs := h₂.slabs.trans h₁.slabs
  size j := (h₂.size j).trans (h₁.size j)
  flag j := (h₂.flag j).trans (h₁.flag j)

/-- A store into the count of a header. -/
theorem setActiveObjCount (hP : P h) (hh : 64 ∣ h) (v : Nat) :
    HeaderStep P h (fun b => { b with activeObjCount := v }) s (s.setActiveObjCount h v) where
  body z hz := s.body_setActiveObjCount hz hh
  mem a ha := Function.update_of_ne (by have := ha h hP; omega) _ _
  pages := rfl
  slabs := rfl
  size _ := rfl
  flag _ := rfl

/-- A store into its first free slot. -/
theorem setFreeSlot (hP : P h) (hh : 64 ∣ h) (v : Nat) :
    HeaderStep P h (fun b => { b with freeSlot := v }) s (s.setFreeSlot h v) where
  body z hz := s.body_setFreeSlot hz hh
  mem a ha := Function.update_of_ne (by have := ha h hP; omega) _ _
  pages := rfl
  slabs := rfl
  size _ := rfl
  flag _ := rfl

end HeaderStep

/-! ## One edit for every move -/

/-- Take `h`, between `p` and `n`, off list `x` and put it in front of `q` on list `y`. -/
def relink (s : Heap β) (i h p n q : Nat) (x y : SlabList) : Heap β :=
  let s := if p ≠ 0 then s.setNext p n else s.setHead i x n
  let s := if n ≠ 0 then s.setPrev n p else s
  let s := (s.setNext h q).setPrev h 0
  let s := if q ≠ 0 then s.setPrev q h else s
  s.setHead i y h

section Relink

variable (hh : 64 ∣ h) (hp : p ≠ 0 → 64 ∣ p) (hn : n ≠ 0 → 64 ∣ n) (hq : q ≠ 0 → 64 ∣ q)
include hh hp hn hq

/-- The forward links after a slab has moved between lists. -/
theorem relink_next (hz : 64 ∣ z) : (relink s i h p n q x y).next z =
    if z = h then q else if z = p ∧ p ≠ 0 then n else s.next z := by
  unfold relink
  by_cases hp0 : p = 0 <;> by_cases hn0 : n = 0 <;> by_cases hq0 : q = 0 <;>
    simp_all [next_setPrev, next_setNext]

/-- The backward links after that. -/
theorem relink_prev (hz : 64 ∣ z) : (relink s i h p n q x y).prev z =
    if z = q ∧ q ≠ 0 then h else if z = h then 0 else if z = n ∧ n ≠ 0 then p else s.prev z := by
  unfold relink
  by_cases hp0 : p = 0 <;> by_cases hn0 : n = 0 <;> by_cases hq0 : q = 0 <;>
    simp_all [prev_setPrev, prev_setNext]

/-- The move touches links of the slab and its neighbours only. -/
theorem relink_linkStep {P : Nat → Prop} (hPh : P h) (hPp : p ≠ 0 → P p) (hPn : n ≠ 0 → P n)
    (hPq : q ≠ 0 → P q) : LinkStep P s (relink s i h p n q x y) := by
  refine LinkStep.trans ?_ (LinkStep.setHead _ _)
  refine LinkStep.trans ?_ (LinkStep.ite (fun h0 => .setPrev (hPq h0) (hq h0) _) fun _ => .refl _)
  refine LinkStep.trans ?_ (.setPrev hPh hh _)
  refine LinkStep.trans ?_ (.setNext hPh hh _)
  refine LinkStep.trans ?_ (LinkStep.ite (fun h0 => .setPrev (hPn h0) (hn h0) _) fun _ => .refl _)
  exact LinkStep.ite (fun h0 => .setNext (hPp h0) (hp h0) _) fun _ => .setHead _ _

end Relink

/-- The heads after that. -/
theorem relink_head (j : Nat) (l : SlabList) : (relink s i h p n q x y).head j l =
    if j = i ∧ l = y then h else if j = i ∧ l = x ∧ p = 0 then n else s.head j l := by
  unfold relink
  rw [head_setHead]
  by_cases hp0 : p = 0 <;> by_cases hn0 : n = 0 <;> by_cases hq0 : q = 0 <;>
    simp [hp0, hn0, hq0, head_setHead]

/-- The links `moveSlab` reads are those before it. -/
theorem moveSlab_eq (hh : 64 ∣ h) (hp : s.prev h ≠ 0 → 64 ∣ s.prev h ∧ s.prev h ≠ h)
    (hxy : y ≠ x) :
    moveSlab s i h x y = relink s i h (s.prev h) (s.next h) (s.head i y) x y := by
  unfold moveSlab relink
  by_cases hp0 : s.prev h = 0 <;> by_cases hn0 : s.next h = 0
  · simp [hp0, hn0, head_setHead, hxy, next_setPrev, next_setNext, hh]
  · simp [hp0, hn0, head_setHead, hxy, next_setPrev, next_setNext, hh]
  · obtain ⟨hpa, hpe⟩ := hp hp0
    simp [hp0, hn0, next_setPrev, next_setNext, hh, hpa, Ne.symm hpe]
  · obtain ⟨hpa, hpe⟩ := hp hp0
    simp [hp0, hn0, next_setPrev, next_setNext, prev_setNext, hh, hpa, Ne.symm hpe]

/-- A full slab leaves the front of its list. -/
theorem moveToFull_eq (hp : s.prev h = 0) : moveToFull s i h =
    relink s i h (s.prev h) (s.next h) (s.head i .listFull) .listPartial .listFull := by
  unfold moveToFull relink
  by_cases hn0 : s.next h = 0 <;> simp [hp, hn0, head_setHead]

/-- A slab in use leaves the front of the empty list, the other list having none. -/
theorem moveToPartial_eq (hh : 64 ∣ h) (hp : s.prev h = 0) (hn : s.next h ≠ 0 → 64 ∣ s.next h)
    (hq : s.head i .listPartial = 0) : moveToPartial s i h =
      relink s i h (s.prev h) (s.next h) (s.head i .listPartial) .listEmpty .listPartial := by
  unfold moveToPartial relink
  by_cases hn0 : s.next h = 0
  · simp [hp, hn0, hq, head_setHead]
    rfl
  · obtain ⟨a, ha⟩ := hn hn0
    obtain ⟨b, hb⟩ := hh
    have hne : h + 24 ≠ s.next h + 16 := by omega
    simp [hp, hn0, hq, head_setHead]
    simp only [Heap.setNext, Heap.setPrev, Heap.store, Heap.setHead]
    rw [Function.update_comm hne]

/-! ## The lists as a whole -/

/-- Replace the list `k` of cache `i`. -/
def setList {α : Type} (f : Nat → SlabList → α) (i : Nat) (k : SlabList) (a : α) :
    Nat → SlabList → α := fun j l => if j = i ∧ l = k then a else f j l

/-- The list that is set. -/
theorem setList_self {α : Type} (f : Nat → SlabList → α) (i : Nat) (k : SlabList) (a : α) :
    setList f i k a i k = a := if_pos ⟨rfl, rfl⟩

/-- The others stay. -/
theorem setList_ne {α : Type} (f : Nat → SlabList → α) {i j : Nat} {k l : SlabList} (a : α)
    (h : ¬ (j = i ∧ l = k)) : setList f i k a j l = f j l := if_neg h

/-- The list heads and the links of `s` hold exactly the headers `hs`, each on one list. -/
structure Links (s : Heap β) (hs : Nat → SlabList → List Nat) : Prop where
  dll : ∀ i < numCaches, ∀ k, Dll s.next s.prev 0 (s.head i k) (hs i k)
  apart : ∀ i < numCaches, ∀ j < numCaches, ∀ k l h, h ∈ hs i k → h ∈ hs j l → i = j ∧ k = l
  aligned : ∀ i < numCaches, ∀ k, ∀ h ∈ hs i k, 64 ∣ h

namespace Links

variable {hs hs' : Nat → SlabList → List Nat}

/-- The lists are a matter of the heads and of the links of their headers. -/
theorem congr (hl : Links s hs) (hhead : ∀ i < numCaches, ∀ k, t.head i k = s.head i k)
    (hlink : ∀ i < numCaches, ∀ k, ∀ h ∈ hs i k, t.next h = s.next h ∧ t.prev h = s.prev h) :
    Links t hs where
  dll i hi k := by
    rw [hhead i hi k]
    exact (hl.dll i hi k).congr (fun h hh => (hlink i hi k h hh).1) fun h hh =>
      (hlink i hi k h hh).2
  apart := hl.apart
  aligned := hl.aligned

/-- A field that is not a link. -/
theorem store (hl : Links s hs) (hh : 64 ∣ h) {g : Nat} (hg : g < 64) (h16 : 16 ≠ g)
    (h24 : 24 ≠ g) (v : Nat) : Links (s.store (h + g) v) hs := by
  refine hl.congr (fun _ _ _ => rfl) fun i hi k z hz => ?_
  have hza := hl.aligned i hi k z hz
  refine ⟨(s.next_store hza hh hg).trans ?_, (s.prev_store hza hh hg).trans ?_⟩
  · exact if_neg fun he => h24 he.2
  · exact if_neg fun he => h16 he.2

/-- The links of a header are headers of its list. -/
theorem links_mem (hl : Links s hs) (hi : i < numCaches) (hh : h ∈ hs i x) :
    (s.prev h ≠ 0 → s.prev h ∈ hs i x) ∧ (s.next h ≠ 0 → s.next h ∈ hs i x) :=
  ⟨(hl.dll i hi x).prev_mem hh, (hl.dll i hi x).next_mem hh⟩

/-- A head that is not null is on its list. -/
theorem head_mem (hl : Links s hs) (hi : i < numCaches) (hne : s.head i x ≠ 0) :
    s.head i x ∈ hs i x := by
  obtain ⟨ys, hys⟩ := (hl.dll i hi x).exists_cons hne
  exact hys ▸ List.mem_cons_self

/-- The lists after a move. -/
def moved (hs : Nat → SlabList → List Nat) (i h : Nat) (x y : SlabList) :
    Nat → SlabList → List Nat := setList (setList hs i x ((hs i x).erase h)) i y (h :: hs i y)

/-- The slab is on the other list, and the others are where they were. -/
theorem mem_moved (hl : Links s hs) (hi : i < numCaches) (hh : h ∈ hs i x) (hxy : y ≠ x)
    {j : Nat} {l : SlabList} (hj : j < numCaches) : z ∈ moved hs i h x y j l ↔
      (z ∈ hs j l ∧ z ≠ h) ∨ (j = i ∧ l = y ∧ z = h) := by
  have hnot : ∀ k, k ≠ x → h ∉ hs i k := fun k hk hm => hk (hl.apart i hi i hi k x h hm hh).2
  unfold moved
  by_cases h1 : j = i ∧ l = y
  · obtain ⟨rfl, rfl⟩ := h1
    rw [setList_self, List.mem_cons]
    constructor
    · rintro (rfl | hz)
      · exact Or.inr ⟨rfl, rfl, rfl⟩
      · exact Or.inl ⟨hz, fun he => hnot l hxy (he ▸ hz)⟩
    · rintro (⟨hz, _⟩ | ⟨_, _, rfl⟩)
      · exact Or.inr hz
      · exact Or.inl rfl
  · rw [setList_ne _ _ h1]
    have hr : ¬ (j = i ∧ l = y ∧ z = h) := fun hr => h1 ⟨hr.1, hr.2.1⟩
    rw [or_iff_left hr]
    by_cases h2 : j = i ∧ l = x
    · obtain ⟨rfl, rfl⟩ := h2
      rw [setList_self, (hl.dll j hj l).nodup.mem_erase_iff, and_comm]
    · rw [setList_ne _ _ h2]
      refine (and_iff_left_of_imp fun hz he => h2 ?_).symm
      exact hl.apart j hj i hi l x h (he ▸ hz) hh

/-- Moving a header between two lists of one cache. -/
theorem move (hl : Links s hs) (hi : i < numCaches) (hh : h ∈ hs i x) (hxy : y ≠ x) :
    Links (relink s i h (s.prev h) (s.next h) (s.head i y) x y) (moved hs i h x y) ∧
      LinkStep (fun z => ∃ j < numCaches, ∃ l, z ∈ hs j l) s
        (relink s i h (s.prev h) (s.next h) (s.head i y) x y) := by
  obtain ⟨hpm, hnm⟩ := hl.links_mem hi hh
  have hqm : s.head i y ≠ 0 → s.head i y ∈ hs i y := hl.head_mem hi
  have hal : 64 ∣ h := hl.aligned i hi x h hh
  have hpa : s.prev h ≠ 0 → 64 ∣ s.prev h := fun h0 => hl.aligned i hi x _ (hpm h0)
  have hna : s.next h ≠ 0 → 64 ∣ s.next h := fun h0 => hl.aligned i hi x _ (hnm h0)
  have hqa : s.head i y ≠ 0 → 64 ∣ s.head i y := fun h0 => hl.aligned i hi y _ (hqm h0)
  have hd := hl.dll i hi x
  have hhy : h ∉ hs i y := fun hm => hxy (hl.apart i hi i hi y x h hm hh).2
  have hoff : ∀ j < numCaches, ∀ l, ¬ (j = i ∧ l = x) → ∀ w ∈ hs i x, w ∉ hs j l :=
    fun j hj l hne w hw hm => hne ((hl.apart i hi j hj x l w hw hm).imp Eq.symm Eq.symm)
  have hoffy : ∀ j < numCaches, ∀ l, ¬ (j = i ∧ l = y) → ∀ w ∈ hs i y, w ∉ hs j l :=
    fun j hj l hne w hw hm => hne ((hl.apart i hi j hj y l w hw hm).imp Eq.symm Eq.symm)
  have hnext := fun z (hz : 64 ∣ z) =>
    relink_next (s := s) (i := i) (x := x) (y := y) hal hpa hna hqa hz
  have hprev := fun z (hz : 64 ∣ z) =>
    relink_prev (s := s) (i := i) (x := x) (y := y) hal hpa hna hqa hz
  refine ⟨{ dll := fun j hj l => ?_, apart := ?_, aligned := ?_ },
    relink_linkStep hal hpa hna hqa ⟨i, hi, x, hh⟩ (fun h0 => ⟨i, hi, x, hpm h0⟩)
      (fun h0 => ⟨i, hi, x, hnm h0⟩) fun h0 => ⟨i, hi, y, hqm h0⟩⟩
  · rw [relink_head]
    by_cases h1 : j = i ∧ l = y
    · obtain ⟨rfl, rfl⟩ := h1
      rw [if_pos ⟨rfl, rfl⟩, moved, setList_self]
      refine (hl.dll j hj l).push hhy (hd.ne_nil h hh) ?_ ?_ (fun w hw => ?_) fun w hw => ?_
      · rw [hnext h hal, if_pos rfl]
      · rw [hprev h hal, if_neg, if_pos rfl]
        rintro ⟨he, h0⟩
        exact hhy (he ▸ hqm h0)
      · have hwa := hl.aligned j hj l w hw
        have hwh : w ≠ h := fun he => hhy (he ▸ hw)
        rw [hnext w hwa, if_neg hwh, if_neg]
        rintro ⟨rfl, h0⟩
        exact hoff j hj l (fun he => hxy he.2) _ (hpm h0) hw
      · have hwa := hl.aligned j hj l w hw
        have hwh : w ≠ h := fun he => hhy (he ▸ hw)
        rw [hprev w hwa]
        by_cases hwq : w = s.head j l
        · rw [if_pos ⟨hwq, hwq ▸ (hl.dll j hj l).ne_nil w hw⟩, if_pos hwq]
        · rw [if_neg fun he => hwq he.1, if_neg hwq, if_neg hwh, if_neg]
          rintro ⟨rfl, h0⟩
          exact hoff j hj l (fun he => hxy he.2) _ (hnm h0) hw
    · rw [if_neg h1, moved, setList_ne _ _ h1]
      by_cases h2 : j = i ∧ l = x
      · obtain ⟨rfl, rfl⟩ := h2
        rw [setList_self]
        have hmem : ∀ w ∈ (hs j l).erase h, w ∈ hs j l ∧ w ≠ h := fun w hw =>
          ⟨List.mem_of_mem_erase hw, (hd.nodup.mem_erase_iff.mp hw).1⟩
        refine hd.unlink hh ?_ (fun w hw => ?_) fun w hw => ?_
        · by_cases hp0 : s.prev h = 0 <;> simp [hp0]
        · obtain ⟨hwm, hwh⟩ := hmem w hw
          have hw0 := hd.ne_nil w hwm
          have hc : w = s.prev h ∧ s.prev h ≠ 0 ↔ w = s.prev h :=
            and_iff_left_of_imp fun he => he ▸ hw0
          rw [hnext w (hl.aligned j hj l w hwm), if_neg hwh]
          exact if_congr hc rfl rfl
        · obtain ⟨hwm, hwh⟩ := hmem w hw
          have hw0 := hd.ne_nil w hwm
          have hc : w = s.next h ∧ s.next h ≠ 0 ↔ w = s.next h :=
            and_iff_left_of_imp fun he => he ▸ hw0
          rw [hprev w (hl.aligned j hj l w hwm), if_neg, if_neg hwh]
          · exact if_congr hc rfl rfl
          · rintro ⟨rfl, h0⟩
            exact hoff j hj y (fun he => hxy he.2) _ hwm (hqm h0)
      · rw [setList_ne _ _ h2, if_neg fun he => h2 ⟨he.1, he.2.1⟩]
        refine (hl.dll j hj l).congr (fun w hw => ?_) fun w hw => ?_
        · rw [hnext w (hl.aligned j hj l w hw), if_neg, if_neg]
          · rintro ⟨rfl, h0⟩
            exact hoff j hj l h2 _ (hpm h0) hw
          · rintro rfl
            exact hoff j hj l h2 _ hh hw
        · rw [hprev w (hl.aligned j hj l w hw), if_neg, if_neg, if_neg]
          · rintro ⟨rfl, h0⟩
            exact hoff j hj l h2 _ (hnm h0) hw
          · rintro rfl
            exact hoff j hj l h2 _ hh hw
          · rintro ⟨rfl, h0⟩
            exact hoffy j hj l h1 _ (hqm h0) hw
  · intro a ha b hb k l w hwk hwl
    rw [hl.mem_moved hi hh hxy ha] at hwk
    rw [hl.mem_moved hi hh hxy hb] at hwl
    rcases hwk with ⟨hwk, hne⟩ | ⟨rfl, rfl, rfl⟩
    · rcases hwl with ⟨hwl, _⟩ | ⟨_, _, rfl⟩
      · exact hl.apart a ha b hb k l w hwk hwl
      · exact absurd rfl hne
    · rcases hwl with ⟨_, hne⟩ | ⟨rfl, rfl, _⟩
      · exact absurd rfl hne
      · exact ⟨rfl, rfl⟩
  · intro a ha k w hw
    rw [hl.mem_moved hi hh hxy ha] at hw
    rcases hw with ⟨hw, _⟩ | ⟨_, _, rfl⟩
    · exact hl.aligned a ha k w hw
    · exact hal

/-- A header on no list yet becomes the only one of a list. -/
theorem push_new (hl : Links s hs) (hi : i < numCaches) (hh : 64 ∣ h) (h0 : h ≠ 0)
    (hnew : ∀ j < numCaches, ∀ l, h ∉ hs j l) (hx : hs i x = []) (hn : s.next h = 0)
    (hp : s.prev h = 0) : Links (s.setHead i x h) (setList hs i x [h]) where
  dll j hj l := by
    rw [head_setHead]
    by_cases hjl : j = i ∧ l = x
    · obtain ⟨rfl, rfl⟩ := hjl
      rw [if_pos ⟨rfl, rfl⟩, setList_self]
      exact ⟨⟨rfl, h0, hp, hn⟩, List.nodup_singleton h⟩
    · rw [if_neg hjl, setList_ne _ _ hjl]
      exact hl.dll j hj l
  apart a ha b hb k l w hwk hwl := by
    by_cases hak : a = i ∧ k = x <;> by_cases hbl : b = i ∧ l = x
    · exact ⟨hak.1.trans hbl.1.symm, hak.2.trans hbl.2.symm⟩
    · rw [hak.1, hak.2, setList_self, List.mem_singleton] at hwk
      rw [setList_ne _ _ hbl, hwk] at hwl
      exact absurd hwl (hnew b hb l)
    · rw [hbl.1, hbl.2, setList_self, List.mem_singleton] at hwl
      rw [setList_ne _ _ hak, hwl] at hwk
      exact absurd hwk (hnew a ha k)
    · rw [setList_ne _ _ hak] at hwk
      rw [setList_ne _ _ hbl] at hwl
      exact hl.apart a ha b hb k l w hwk hwl
  aligned a ha k w hw := by
    by_cases hak : a = i ∧ k = x
    · rw [hak.1, hak.2, setList_self, List.mem_singleton] at hw
      exact hw ▸ hh
    · rw [setList_ne _ _ hak] at hw
      exact hl.aligned a ha k w hw

end Links

end RexOS.Kvmalloc
