import Mathlib.Data.List.Perm.Subperm
import RexOS.Kvmalloc.Represent

/-!
# The allocator without its memory

What `kvmalloc` and `kvmfree` are for, on shelves of slabs and a page allocator: a free
slot of the right cache or a block of pages is handed out, and what comes back goes to
the slab or the block that the size it was asked with names. Nothing here depends on the
content of an object.
-/

namespace RexOS.Kvmalloc

open Kalloc (Grant PageAlloc)

variable {β : Type}

/-- The slabs and the state of the page allocator. -/
structure Stock (β : Type) where
  shelf : Shelf
  pages : β

/-- Take a free slot of cache `i`, from a slab in use where there is one. -/
def takeSlot (shelf : Shelf) (i : Nat) : Option (Nat × Shelf) :=
  match shelf i .listPartial, shelf i .listEmpty with
  | sl :: _, _ => some (sl.chain.headD 0, edit shelf i .listPartial
      (if sl.chain.tail = [] then .listFull else .listPartial) { sl with chain := sl.chain.tail })
  | [], sl :: _ => some (sl.chain.headD 0,
      edit shelf i .listEmpty .listPartial { sl with chain := sl.chain.tail })
  | [], [] => none

/-- Put a slot back on the chain of the slab of cache `i` whose page it lies in. -/
def putSlot (shelf : Shelf) (i slot : Nat) : Shelf :=
  match (shelf i .listFull).find? fun sl => sl.page == Bits.andNot slot 0xFFF with
  | some sl => edit shelf i .listFull .listPartial { sl with chain := slot :: sl.chain }
  | none =>
    match (shelf i .listPartial).find? fun sl => sl.page == Bits.andNot slot 0xFFF with
    | some sl => edit shelf i .listPartial
        (if sl.chain.length + 1 = capacity i then .listEmpty else .listPartial)
        { sl with chain := slot :: sl.chain }
    | none => shelf

namespace Stock

variable (A : PageAlloc β)

/-- An object of cache `i`; `depth` bounds the slabs made on the way. -/
def cacheAlloc : Nat → Stock β → Nat → Nat → Outcome (Stock β) Nat
  | 0, a, _, _ => .spin a
  | depth + 1, a, i, caller =>
    match takeSlot a.shelf i with
    | some (slot, shelf) => .done slot { a with shelf := shelf }
    | none =>
      ((A.kalloc a.pages 0).within fun b => { a with pages := b }).bind fun page a =>
        if i < 6 then
          .done (firstObj i page)
            { a with shelf := withSlab a.shelf i ⟨page, page, caller, (slots i page).tail⟩ }
        else
          (cacheAlloc depth a 2 caller).bind fun header a =>
            .done (firstObj i page)
              { a with shelf := withSlab a.shelf i ⟨header, page, caller, (slots i page).tail⟩ }

/-- An object of a size. -/
def alloc (a : Stock β) (size caller : Nat) : Outcome (Stock β) Nat :=
  match classOf size with
  | .cache i => cacheAlloc A 2 a i caller
  | .pages order => (A.kalloc a.pages order).within fun b => { a with pages := b }

/-- An object comes back to where its size says it is from. -/
def free (a : Stock β) (o : Obj) : Outcome (Stock β) Unit :=
  match classOf o.size with
  | .cache i => .done () { a with shelf := putSlot a.shelf i o.addr }
  | .pages _ => (A.kfree a.pages o.addr).within fun b => { a with pages := b }

end Stock

/-! ## Slabs found on their lists -/

section Find

variable {shelf : Shelf} {objs : List Obj} {L : List Grant} {e : Entry} {i x page : Nat}
  {k : SlabList} (h : Layout (entries shelf) objs L)
include h

/-- A slab is found by its page. -/
theorem find_page (he : e ∈ entries shelf) :
    (shelf e.cache e.list).find? (fun sl => sl.page == e.slab.page) = some e.slab := by
  cases hf : (shelf e.cache e.list).find? (fun sl => sl.page == e.slab.page) with
  | none => simpa using List.find?_eq_none.mp hf e.slab he.2
  | some sl =>
    have hp : sl.page = e.slab.page := by simpa using List.find?_some hf
    have := h.page_inj ⟨e.cache, e.list, sl⟩ ⟨he.1, List.mem_of_find?_eq_some hf⟩ e he hp
    exact congrArg some (congrArg Entry.slab this)

omit h in
/-- A page of no slab of a list is not found on it. -/
theorem find_none (hi : i < numCaches)
    (hno : ∀ e ∈ entries shelf, e.cache = i → e.list = k → e.slab.page ≠ page) :
    (shelf i k).find? (fun sl => sl.page == page) = none := by
  rw [List.find?_eq_none]
  intro sl hsl
  simpa using hno ⟨i, k, sl⟩ ⟨hi, hsl⟩ rfl rfl

/-- A page is found on one list only. -/
theorem find_other (hi : i < numCaches) (he : e ∈ entries shelf)
    (hne : ¬ (i = e.cache ∧ k = e.list)) :
    (shelf i k).find? (fun sl => sl.page == e.slab.page) = none := by
  refine find_none hi fun d hd hdi hdk hp => hne ?_
  obtain rfl := h.page_inj d hd e he hp
  exact ⟨hdi.symm, hdk.symm⟩

/-- A slab with a used slot has less free slots than slots. -/
theorem chain_lt (he : e ∈ entries shelf) (hx : x ∈ slots e.cache e.slab.page)
    (hu : Used (entries shelf) objs e.cache x) : e.slab.chain.length < capacity e.cache := by
  have hsub : e.slab.chain ⊆ (slots e.cache e.slab.page).erase x := by
    intro y hy
    refine (slots_nodup _ _).mem_erase_iff.mpr ⟨?_, h.chain_slots e he y hy⟩
    rintro rfl
    exact (h.chain_iff e he y hx).mp hy hu
  have hle := (List.Nodup.subperm (h.chain_nodup e he) hsub).length_le
  rw [List.length_erase_of_mem hx, slots_length] at hle
  have := two_le_capacity (h.cache_lt e he)
  omega

/-- A slab with a used slot is not on `list_empty`. -/
theorem not_listEmpty (he : e ∈ entries shelf) (hx : x ∈ slots e.cache e.slab.page)
    (hu : Used (entries shelf) objs e.cache x) : e.list ≠ .listEmpty := by
  intro hl
  have hlt := chain_lt h he hx hu
  have hfit := h.listed e he
  rw [hl] at hfit
  exact hlt.ne hfit

end Find

/-! ## The calls on a layout -/

section Calls

variable {A : PageAlloc β} {Owns : β → List Grant → Prop} {shelf shelf' : Shelf} {objs : List Obj}
  {L : List Grant} {i slot : Nat} {o : Obj} {a a' : Stock β}

/-- The head of a list, as an entry. -/
theorem mem_of_list_eq {k : SlabList} {sl : ASlab} {rest : List ASlab} (hi : i < numCaches)
    (hl : shelf i k = sl :: rest) : (⟨i, k, sl⟩ : Entry) ∈ entries shelf :=
  ⟨hi, by simp only [hl]; exact List.mem_cons_self⟩

/-- A slab off `list_full` has a free slot. -/
theorem exists_chain (h : Layout (entries shelf) objs L) {k : SlabList} {sl : ASlab}
    (he : (⟨i, k, sl⟩ : Entry) ∈ entries shelf) (hk : k ≠ .listFull) :
    ∃ x xs, sl.chain = x :: xs := by
  have hcap := two_le_capacity he.1
  have hfit := h.listed _ he
  cases hc : sl.chain with
  | cons x xs => exact ⟨x, xs, rfl⟩
  | nil =>
    rw [hc] at hfit
    cases k with
    | listFull => exact absurd rfl hk
    | listPartial => exact absurd hfit.1 (Nat.lt_irrefl 0)
    | listEmpty =>
      simp only [SlabList.Fits, List.length_nil] at hfit hcap
      omega

/-- Taking a slot keeps the layout. -/
theorem takeSlot_layout (h : Layout (entries shelf) objs L) (hi : i < numCaches)
    (ht : takeSlot shelf i = some (slot, shelf')) (ho : o.addr = slot)
    (hoc : classOf o.size = .cache i) : Layout (entries shelf') (o :: objs) L := by
  unfold takeSlot at ht
  split at ht
  · next sl rest hl =>
    have he := mem_of_list_eq hi hl
    obtain ⟨x, xs, hx⟩ := exists_chain h he (by decide)
    have hfit : xs.length + 1 < capacity i := by simpa [hx] using (h.listed _ he).2
    simp only [hx, List.headD_cons, List.tail_cons, Option.some.injEq, Prod.mk.injEq] at ht
    obtain ⟨rfl, rfl⟩ := ht
    refine h.take he hx (o := o) (k := if xs = [] then .listFull else .listPartial) ?_ ho hoc
      (entries_edit h he rfl)
    by_cases hxs : xs = []
    · simp [hxs, SlabList.Fits]
    · rw [if_neg hxs]
      exact ⟨List.length_pos_iff.mpr hxs, Nat.lt_of_succ_lt hfit⟩
  · next sl rest _ hl =>
    have he := mem_of_list_eq hi hl
    obtain ⟨x, xs, hx⟩ := exists_chain h he (by decide)
    have hfit : xs.length + 1 = capacity i := by
      have := h.listed _ he
      simpa [hx, SlabList.Fits] using this
    have hcap := two_le_capacity hi
    simp only [hx, List.headD_cons, List.tail_cons, Option.some.injEq, Prod.mk.injEq] at ht
    obtain ⟨rfl, rfl⟩ := ht
    refine h.take he hx (o := o) (k := .listPartial) ?_ ho hoc (entries_edit h he rfl)
    exact ⟨by omega, hfit ▸ Nat.lt_succ_self _⟩
  · exact absurd ht (by simp)

/-- Taking a slot edits one slab. -/
theorem takeSlot_edit (hi : i < numCaches) (ht : takeSlot shelf i = some (slot, shelf')) :
    ∃ x y sl, (⟨i, x, sl⟩ : Entry) ∈ entries shelf ∧
      shelf' = edit shelf i x y { sl with chain := sl.chain.tail } := by
  unfold takeSlot at ht
  split at ht
  · next sl rest hl =>
    exact ⟨_, _, sl, mem_of_list_eq hi hl, (Prod.mk.inj (Option.some.inj ht)).2.symm⟩
  · next sl rest _ hl =>
    exact ⟨_, _, sl, mem_of_list_eq hi hl, (Prod.mk.inj (Option.some.inj ht)).2.symm⟩
  · exact absurd ht (by simp)

/-- No slot is taken only when no slab is in use or empty. -/
theorem takeSlot_none (ht : takeSlot shelf i = none) :
    shelf i .listPartial = [] ∧ shelf i .listEmpty = [] := by
  unfold takeSlot at ht
  split at ht
  · exact absurd ht (by simp)
  · exact absurd ht (by simp)
  · exact ⟨‹_›, ‹_›⟩

/-- Where the slab of an object stands, and that it is found there. -/
theorem exists_slab (h : Layout (entries shelf) objs L) (ho : o ∈ objs)
    (hoc : classOf o.size = .cache i) : ∃ e ∈ entries shelf, e.cache = i ∧
      o.addr ∈ slots i e.slab.page ∧ e.list ≠ .listEmpty ∧ e.slab.chain.length < capacity i ∧
      Bits.andNot o.addr 0xFFF = e.slab.page := by
  obtain ⟨e, he, rfl, hx⟩ := h.obj_slot o ho i hoc
  have hu : Used (entries shelf) objs e.cache o.addr := Or.inl ⟨o, ho, hoc, rfl⟩
  exact ⟨e, he, rfl, hx, not_listEmpty h he hx hu, chain_lt h he hx hu, h.page_of_slot he hx⟩

/-- Putting a slot back edits the slab it is from. -/
theorem putSlot_eq (h : Layout (entries shelf) objs L) {e : Entry} (he : e ∈ entries shelf)
    (hpage : Bits.andNot slot 0xFFF = e.slab.page) (hl : e.list ≠ .listEmpty) :
    putSlot shelf e.cache slot = edit shelf e.cache e.list
      (if e.list = .listPartial ∧ e.slab.chain.length + 1 = capacity e.cache then .listEmpty
        else .listPartial) { e.slab with chain := slot :: e.slab.chain } := by
  have hfind := find_page h he
  unfold putSlot
  rw [hpage]
  cases hk : e.list with
  | listFull =>
    rw [hk] at hfind
    simp [hfind]
  | listPartial =>
    rw [hk] at hfind
    rw [find_other h he.1 he (by simp [hk])]
    simp [hfind]
  | listEmpty => exact absurd hk hl

/-- Putting the slot of an object back keeps the layout. -/
theorem putSlot_layout (h : Layout (entries shelf) objs L) (ho : o ∈ objs)
    (hoc : classOf o.size = .cache i) :
    Layout (entries (putSlot shelf i o.addr)) (objs.filter fun p => p.addr != o.addr) L := by
  obtain ⟨e, he, rfl, hx, hne, hlt, hpage⟩ := exists_slab h ho hoc
  rw [putSlot_eq h he hpage hne]
  refine h.put he ho hoc hx ?_ (entries_edit h he rfl)
  have hcap := two_le_capacity he.1
  have hfit := h.listed e he
  cases hk : e.list with
  | listFull =>
    rw [hk] at hfit
    have h0 : e.slab.chain.length = 0 := hfit
    exact ⟨by omega, by omega⟩
  | listPartial =>
    by_cases hc : e.slab.chain.length + 1 = capacity e.cache
    · simp [hc, SlabList.Fits]
    · rw [if_neg fun hh => hc hh.2]
      exact ⟨by omega, by omega⟩
  | listEmpty => exact absurd hk hne

end Calls

end RexOS.Kvmalloc
