import RexOS.Core.Radix
import RexOS.Paging.Entries

/-!
# The tables below a root

The tables reached from a root form a tree of three levels in pages that the allocator has
granted. The two edits the map routines make, hanging a zeroed page below an entry and
writing a leaf, keep it so; `Grew` says what any number of them leaves alone.
-/

namespace RexOS.Paging

open Bits RexOS.Kalloc Radix

variable {β : Type} {A : PageAlloc β} {Owns : β → List Grant → Prop} {root : Nat}

/-- Entry `i` of the table at `t`. -/
def cell (mem : Nat → Nat) (t i : Nat) : Nat := mem (t + 8 * i)

namespace Space

/-- What a store leaves of a space. -/
@[simp] theorem store_mem (s : Space β) (a v : Nat) :
    (s.store a v).mem = Function.update s.mem a v := rfl
@[simp] theorem store_pages (s : Space β) (a v : Nat) : (s.store a v).pages = s.pages := rfl
@[simp] theorem store_given (s : Space β) (a v : Nat) : (s.store a v).given = s.given := rfl
@[simp] theorem store_written (s : Space β) (a v : Nat) :
    (s.store a v).written = a :: s.written := rfl

/-- The table that the indices `p` lead to. -/
abbrev table (s : Space β) (root : Nat) (p : List Nat) : Option Nat :=
  Radix.table link (cell s.mem) root p

/-- The entry that the indices `p` lead to is a leaf with content `e`. -/
abbrev Leaf (s : Space β) (root : Nat) (p : List Nat) (e : Nat) : Prop :=
  Radix.Leaf link (cell s.mem) root Valid 512 p e

/-- The word at `a` is an entry of some table. -/
def OnTable (s : Space β) (root a : Nat) : Prop :=
  ∃ p t i, Trail 512 (i :: p) ∧ s.table root p = some t ∧ a = t + 8 * i

end Space

/-- The tables form a tree in granted pages. -/
structure Tree (Owns : β → List Grant → Prop) (root : Nat) (s : Space β) (L : List Grant) :
    Prop where
  owns : Owns s.pages L
  shape : Shape link (cell s.mem) root 512 3
  held : ∀ p t, Trail 512 p → s.table root p = some t → ⟨t, 0⟩ ∈ L
  /-- A link has no flag but V. -/
  plain : ∀ p t i u, Trail 512 (i :: p) → s.table root p = some t →
    link (cell s.mem t i) = some u → cell s.mem t i = linkPte u

variable {s s' s'' : Space β} {L L' L'' : List Grant} {p q : List Nat} {t u i j : Nat}

/-! ## Zeroing a page -/

/-- What the first `n` rounds of the loop leave. -/
structure Zeroed (u n : Nat) (s s' : Space β) : Prop where
  pages : s'.pages = s.pages
  zero : ∀ i < n, s'.mem (u + 8 * i) = 0
  other : ∀ a, (∀ i < n, a ≠ u + 8 * i) → s'.mem a = s.mem a
  given : s'.given = s.given
  written : ∃ w, s'.written = w ++ s.written ∧ ∀ a ∈ w, ∃ i < n, a = u + 8 * i

/-- The loop zeroes one word after the other. -/
theorem zeroed_of_rounds (hp : 4096 ∣ u) (hu : u < 2 ^ 64) (s : Space β) {n : Nat} (hn : n ≤ 512) :
    Zeroed u n s ((List.range n).foldl (fun s i => s.store (entryAt u i) 0) s) := by
  induction n with
  | zero => exact ⟨rfl, by simp, fun _ _ => rfl, rfl, [], rfl, by simp⟩
  | succ n ih =>
    have hprev := ih (by omega)
    rw [List.range_succ, List.foldl_append, List.foldl_cons, List.foldl_nil,
      entryAt_eq hp hu (by omega)]
    obtain ⟨w, hw, hin⟩ := hprev.written
    refine ⟨hprev.pages, fun i hi => ?_, fun a ha => ?_, hprev.given, (u + 8 * n) :: w, ?_,
      fun a ha => ?_⟩
    · rw [Space.store_mem, Function.update_apply]
      split
      · rfl
      · exact hprev.zero i (by omega)
    · rw [Space.store_mem, Function.update_of_ne (ha n (by omega))]
      exact hprev.other a fun i hi => ha i (by omega)
    · rw [Space.store_written, hw, List.cons_append]
    · rcases List.mem_cons.mp ha with rfl | ha
      · exact ⟨n, by omega, rfl⟩
      · obtain ⟨i, hi, rfl⟩ := hin a ha
        exact ⟨i, by omega, rfl⟩

/-- So the whole table. -/
theorem zeroed_zeroTable (hp : 4096 ∣ u) (hu : u < 2 ^ 64) (s : Space β) :
    Zeroed u 512 s (zeroTable u s) := zeroed_of_rounds hp hu s le_rfl

/-- A granted page is zeroed as a whole. -/
theorem zeroed_of_granted (hL : Blocks L) (hu : (⟨u, 0⟩ : Grant) ∈ L) (s : Space β) :
    Zeroed u 512 s (zeroTable u s) := by
  obtain ⟨hdvd, -, hlt⟩ := hL.single_page hu
  exact zeroed_zeroTable hdvd (by omega) s

namespace Tree

/-- A table is a page of its own. -/
theorem page (hA : A.Grants Owns) (h : Tree Owns root s L) (hp : Trail 512 p)
    (ht : s.table root p = some t) : 4096 ∣ t ∧ 0 < t ∧ t + 4096 ≤ 2 ^ 64 :=
  (hA.blocks h.owns).single_page (h.held p t hp ht)

/-- Two different entries are two different words. -/
theorem slot_inj (hA : A.Grants Owns) (h : Tree Owns root s L) (hp : Trail 512 (i :: p))
    (ht : s.table root p = some t) (hq : Trail 512 (j :: q)) (hu : s.table root q = some u)
    (he : t + 8 * i = u + 8 * j) : i :: p = j :: q := by
  obtain ⟨hi, hp⟩ := trail_cons.mp hp
  obtain ⟨hj, hq⟩ := trail_cons.mp hq
  have htu : t = u := by
    have h1 := (h.page hA hp ht).1
    have h2 := (h.page hA hq hu).1
    omega
  subst htu
  obtain rfl := h.shape.inj p q t hp hq ht hu
  obtain rfl : i = j := by omega
  rfl

/-- A page given now is none of the tables. -/
theorem not_table (hA : A.Grants Owns) (h : Tree Owns root s L) {b' : β}
    (hk : A.kalloc s.pages 0 = .done u b') (hp : Trail 512 p) : s.table root p ≠ some u :=
  fun ht => (hA.kalloc h.owns hk).1 _ (h.held p u hp ht) rfl

section Write

variable (hA : A.Grants Owns) (h : Tree Owns root s L) (hp : Trail 512 (i :: p))
  (ht : s.table root p = some t)
include hA h hp ht

/-- The other entries after a store to one. -/
theorem store_cell {v : Nat} (hq : Trail 512 (j :: q)) (hu : s.table root q = some u)
    (hne : j :: q ≠ i :: p) : cell (s.store (t + 8 * i) v).mem u j = cell s.mem u j := by
  apply Function.update_of_ne
  intro he
  exact hne (h.slot_inj hA hq hu hp ht he)

omit hA h hp ht in
/-- The word that was stored is there. -/
theorem store_self {v : Nat} : cell (s.store (t + 8 * i) v).mem t i = v :=
  Function.update_self ..

/-- An entry that is no link may be overwritten by another such. -/
theorem write {v : Nat} (h0 : link (cell s.mem t i) = none) (h1 : link v = none) :
    Tree Owns root (s.store (t + 8 * i) v) L ∧
    (∀ q, Trail 512 q → (s.store (t + 8 * i) v).table root q = s.table root q) ∧
    ∀ q f, (s.store (t + 8 * i) v).Leaf root q f ↔
      (s.Leaf root q f ∧ q ≠ i :: p) ∨ (q = i :: p ∧ f = v ∧ Valid v) := by
  have hself : cell (s.store (t + 8 * i) v).mem t i = v := store_self
  have hother : ∀ q t' j, Trail 512 (j :: q) → s.table root q = some t' → j :: q ≠ i :: p →
      cell (s.store (t + 8 * i) v).mem t' j = cell s.mem t' j :=
    fun q t' j hq hu hne => h.store_cell hA hp ht hq hu hne
  have h1' : link (cell (s.store (t + 8 * i) v).mem t i) = none := hself.symm ▸ h1
  have htab : ∀ q, Trail 512 q → (s.store (t + 8 * i) v).table root q = s.table root q :=
    fun q hq => table_write hp ht hother h0 h1' hq
  refine ⟨⟨h.owns, Shape.write hp ht hother h.shape h0 h1', fun q u hq hu => ?_,
    fun q u j w hq hu hw => ?_⟩, htab, fun q f => ?_⟩
  · rw [htab q hq] at hu
    exact h.held q u hq hu
  · rw [htab q (trail_cons.mp hq).2] at hu
    by_cases hne : j :: q = i :: p
    · obtain ⟨rfl, rfl⟩ := List.cons.inj hne
      obtain rfl := Option.some.inj (ht.symm.trans hu)
      rw [h1'] at hw
      exact absurd hw (by simp)
    · rw [hother q u j hq hu hne] at hw ⊢
      exact h.plain q u j w hq hu hw
  · refine (leaf_write hp ht hother h0 h1').trans ?_
    rw [hself]
    constructor
    · rintro (h | ⟨rfl, rfl, hv⟩)
      · exact Or.inl h
      · exact Or.inr ⟨rfl, rfl, hv⟩
    · rintro (h | ⟨rfl, rfl, hv⟩)
      · exact Or.inl h
      · exact Or.inr ⟨rfl, rfl, hv⟩

end Write

section Hang

variable (hA : A.Grants Owns) (h : Tree Owns root s L) (hp : Trail 512 (i :: p))
  (ht : s.table root p = some t) (hv : ¬ Valid (cell s.mem t i)) (hd : p.length < 2) {b : β}
  (hk : A.kalloc s.pages 0 = .done u b)
  (hs : s' = (zeroTable u { s with pages := b, given := u :: s.given }).store (t + 8 * i)
    (linkPte u))
include hA h hp ht hv hd hk hs

/-- A new page, zeroed and hung below an invalid entry. -/
theorem hang : Tree Owns root s' (⟨u, 0⟩ :: L) ∧
    (∀ q, Trail 512 q → s'.table root q = if q = i :: p then some u else s.table root q) ∧
    (∀ q f, s'.Leaf root q f ↔ s.Leaf root q f) ∧
    (∀ a, ¬ s'.OnTable root a → s'.mem a = s.mem a) ∧ s'.given = u :: s.given ∧
    ∃ w, s'.written = w ++ s.written ∧ ∀ a ∈ w, s'.OnTable root a := by
  obtain ⟨hne, howns⟩ := hA.kalloc h.owns hk
  obtain ⟨hdvd, -, hlt⟩ := (hA.blocks howns).single_page List.mem_cons_self
  have hz := zeroed_of_granted (hA.blocks howns) List.mem_cons_self
    { s with pages := b, given := u :: s.given }
  -- no entry of an old table lies in the new page
  have haway : ∀ q w j, Trail 512 (j :: q) → s.table root q = some w → ∀ k < 512,
      w + 8 * j ≠ u + 8 * k := by
    intro q w j hq hw k hk he
    obtain ⟨hj, hq⟩ := trail_cons.mp hq
    have hw1 := (h.page hA hq hw).1
    apply hne _ (h.held q w hq hw)
    show w = u
    omega
  have hother : ∀ q w j, Trail 512 (j :: q) → s.table root q = some w → j :: q ≠ i :: p →
      cell s'.mem w j = cell s.mem w j := by
    intro q w j hq hw hjq
    rw [hs, cell, Space.store_mem, Function.update_of_ne fun he =>
      hjq (h.slot_inj hA hq hw hp ht he), hz.other _ (haway q w j hq hw)]
    rfl
  have hself : cell s'.mem t i = linkPte u := by
    rw [hs]
    exact store_self
  have hzero : ∀ j < 512, cell s'.mem u j = 0 := by
    intro j hj
    rw [hs, cell, Space.store_mem, Function.update_of_ne (haway p t i hp ht j hj).symm]
    exact hz.zero j hj
  have h0 : link (cell s.mem t i) = none := link_eq_none.mpr fun hv' => absurd hv' hv
  have h1 : link (cell s'.mem t i) = some u := by
    rw [hself]
    exact link_linkPte hdvd (by omega)
  have hempty : ∀ j < 512, link (cell s'.mem u j) = none := by
    intro j hj
    rw [hzero j hj]
    exact link_zero
  have htab : ∀ q, Trail 512 q →
      s'.table root q = if q = i :: p then some u else s.table root q :=
    fun q hq => table_hang hp ht hother h0 h1 hempty hq
  obtain ⟨w, hw, hin⟩ := hz.written
  refine ⟨⟨?_, Shape.hang hp ht hother h0 h1 hempty h.shape
    (fun q hq => h.not_table hA hk hq) (Nat.succ_lt_succ hd), ?_, ?_⟩, htab,
    fun q f => leaf_hang hp ht hother h0 h1 hempty hv fun j hj => ?_, fun a ha => ?_, ?_,
    (t + 8 * i) :: w, ?_, fun a ha => ?_⟩
  · rw [hs, Space.store_pages, hz.pages]
    exact howns
  · intro q w hq hw
    rw [htab q hq] at hw
    split at hw
    · obtain rfl := Option.some.inj hw
      exact List.mem_cons_self
    · exact List.mem_cons_of_mem _ (h.held q w hq hw)
  · intro q w j x hq hw hx
    obtain ⟨hj, hq'⟩ := trail_cons.mp hq
    rw [htab q hq'] at hw
    split at hw
    · obtain rfl := Option.some.inj hw
      rw [hempty j hj] at hx
      exact absurd hx (by simp)
    · by_cases hjq : j :: q = i :: p
      · obtain ⟨rfl, rfl⟩ := List.cons.inj hjq
        obtain rfl := Option.some.inj (ht.symm.trans hw)
        obtain rfl := Option.some.inj (h1.symm.trans hx)
        exact hself
      · rw [hother q w j hq hw hjq] at hx ⊢
        exact h.plain q w j x hq hw hx
  · rw [hzero j hj]
    exact not_valid_zero
  · have hslot : s'.OnTable root (t + 8 * i) := by
      refine ⟨p, t, i, hp, ?_, rfl⟩
      rw [htab p (trail_cons.mp hp).2, if_neg (List.cons_ne_self i p).symm]
      exact ht
    have hnew : ∀ j < 512, s'.OnTable root (u + 8 * j) := fun j hj =>
      ⟨i :: p, u, j, trail_cons.mpr ⟨hj, hp⟩, by rw [htab _ hp, if_pos rfl], rfl⟩
    have hne : a ≠ t + 8 * i := by
      rintro rfl
      exact ha hslot
    rw [hs, Space.store_mem, Function.update_of_ne hne]
    exact hz.other a fun j hj he => ha (he ▸ hnew j hj)
  · rw [hs, Space.store_given, hz.given]
  · rw [hs, Space.store_written, hw, List.cons_append]
  · rcases List.mem_cons.mp ha with rfl | ha
    · refine ⟨p, t, i, hp, ?_, rfl⟩
      rw [htab p (trail_cons.mp hp).2, if_neg (List.cons_ne_self i p).symm]
      exact ht
    · obtain ⟨j, hj, rfl⟩ := hin a ha
      refine ⟨i :: p, u, j, trail_cons.mpr ⟨hj, hp⟩, ?_, rfl⟩
      rw [htab _ hp, if_pos rfl]

end Hang

end Tree

/-! ## What a call leaves alone -/

/-- From `s` to `s'` tables were made at the paths `new`, each in a page the allocator gave
meanwhile, no table went away, and only entries of tables were written. -/
structure Grew (A : PageAlloc β) (root : Nat) (s : Space β) (L : List Grant)
    (new : List (List Nat)) (s' : Space β) (L' : List Grant) : Prop where
  tables : ∀ p t, Trail 512 p → s.table root p = some t → s'.table root p = some t
  added : ∀ p t, Trail 512 p → s'.table root p = some t → s.table root p = some t ∨ p ∈ new
  nodup : new.Nodup
  fresh : ∀ p ∈ new, Trail 512 p ∧ s.table root p = none ∧ s'.table root p ≠ none
  grants : L ⊆ L'
  room : ∀ n, A.Room (n + new.length) s.pages → A.Room n s'.pages
  given : ∃ f, s'.given = f ++ s.given ∧ ∀ p ∈ new, ∃ t ∈ f, s'.table root p = some t
  written : ∃ w, s'.written = w ++ s.written ∧ ∀ a ∈ w, s'.OnTable root a
  frame : ∀ a, ¬ s'.OnTable root a → s'.mem a = s.mem a

namespace Grew

variable {new new' : List (List Nat)}

/-- Nothing has grown. -/
theorem refl : Grew A root s L [] s L where
  tables _ _ _ ht := ht
  added _ _ _ ht := Or.inl ht
  nodup := List.nodup_nil
  fresh _ hp := absurd hp List.not_mem_nil
  grants := List.Subset.refl L
  room _ hn := hn
  given := ⟨[], rfl, by simp⟩
  written := ⟨[], rfl, by simp⟩
  frame _ _ := rfl

/-- The words of tables stay words of tables. -/
theorem onTable (h : Grew A root s L new s' L') {a : Nat} (ha : s.OnTable root a) :
    s'.OnTable root a := by
  obtain ⟨p, t, i, hp, ht, rfl⟩ := ha
  exact ⟨p, t, i, hp, h.tables p t (trail_cons.mp hp).2 ht, rfl⟩

/-- Two calls in a row. -/
theorem trans (h : Grew A root s L new s' L') (h' : Grew A root s' L' new' s'' L'') :
    Grew A root s L (new' ++ new) s'' L'' where
  tables p t hp ht := h'.tables p t hp (h.tables p t hp ht)
  added p t hp ht := by
    rcases h'.added p t hp ht with ht | hn
    · exact (h.added p t hp ht).imp id (List.mem_append_right _)
    · exact Or.inr (List.mem_append_left _ hn)
  nodup := by
    refine List.nodup_append.mpr ⟨h'.nodup, h.nodup, fun p hp q hq he => ?_⟩
    subst he
    exact (h.fresh p hq).2.2 (h'.fresh p hp).2.1
  fresh p hp := by
    rcases List.mem_append.mp hp with hp | hp
    · obtain ⟨hpath, hnone, hsome⟩ := h'.fresh p hp
      refine ⟨hpath, ?_, hsome⟩
      by_contra hne
      obtain ⟨t, ht⟩ := Option.ne_none_iff_exists'.mp hne
      rw [h.tables p t hpath ht] at hnone
      exact absurd hnone (by simp)
    · obtain ⟨hpath, hnone, hsome⟩ := h.fresh p hp
      obtain ⟨t, ht⟩ := Option.ne_none_iff_exists'.mp hsome
      refine ⟨hpath, hnone, ?_⟩
      rw [h'.tables p t hpath ht]
      exact Option.some_ne_none t
  grants := List.Subset.trans h.grants h'.grants
  room n hn := by
    apply h'.room n
    apply h.room
    rwa [List.length_append, ← Nat.add_assoc] at hn
  given := by
    obtain ⟨f, hf, hnew⟩ := h.given
    obtain ⟨f', hf', hnew'⟩ := h'.given
    refine ⟨f' ++ f, by rw [hf', hf, List.append_assoc], fun p hp => ?_⟩
    rcases List.mem_append.mp hp with hp | hp
    · obtain ⟨t, ht, htab⟩ := hnew' p hp
      exact ⟨t, List.mem_append_left _ ht, htab⟩
    · obtain ⟨t, ht, htab⟩ := hnew p hp
      exact ⟨t, List.mem_append_right _ ht, h'.tables p t (h.fresh p hp).1 htab⟩
  written := by
    obtain ⟨w, hw, hin⟩ := h.written
    obtain ⟨w', hw', hin'⟩ := h'.written
    refine ⟨w' ++ w, by rw [hw', hw, List.append_assoc], fun a ha => ?_⟩
    exact (List.mem_append.mp ha).elim (hin' a) fun ha => h'.onTable (hin a ha)
  frame a ha := (h'.frame a ha).trans (h.frame a fun hon => ha (h'.onTable hon))

end Grew

end RexOS.Paging
