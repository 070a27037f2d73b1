import RexOS.Paging.Tree

/-!
# One piece of a range

A piece is 1 GiB, 2 MiB or 4 KiB. Its place in the tree is given by the indices of its
address down to its level. Mapping a piece makes the tables missing above that place and
writes a leaf there, unless the place is taken or the allocator gives no page. This needs
that no leaf lies above the place: the routines do not look for one on their way down.
-/

namespace RexOS.Paging

open Bits RexOS.Kalloc Radix

variable {β : Type} {A : PageAlloc β} {Owns : β → List Grant → Prop} {root : Nat}
  {s s' : Space β} {L : List Grant} {p q : List Nat} {t u i : Nat}

/-- The place is a leaf or holds a table. -/
def Space.Taken (s : Space β) (root : Nat) (p : List Nat) : Prop :=
  (∃ e, s.Leaf root p e) ∨ s.table root p ≠ none

/-- What an attempt to write `content` at the place `p` comes to. -/
inductive Attempt (A : PageAlloc β) (Owns : β → List Grant → Prop) (root : Nat) (s : Space β)
    (L : List Grant) (p : List Nat) (content arg : Nat) : Outcome (Space β) Unit → Prop
  | placed {new : List (List Nat)} {s' : Space β} {L' : List Grant} :
      Tree Owns root s' L' → Grew A root s L new s' L' → (∀ q ∈ new, q <:+ p ∧ q ≠ p) →
      ¬ s.Taken root p →
      (∀ q f, s'.Leaf root q f ↔ s.Leaf root q f ∨ (q = p ∧ f = content)) →
      Attempt A Owns root s L p content arg (.done () s')
  | blocked {new : List (List Nat)} {s' : Space β} {L' : List Grant} :
      Grew A root s L new s' L' → s.Taken root p →
      Attempt A Owns root s L p content arg (.panic 107 arg s')
  | starved {o : Outcome (Space β) Unit} {new : List (List Nat)} {s' : Space β}
      {L' : List Grant} {q : List Nat} :
      (∀ w, o ≠ .done () w) → Grew A root s L new s' L' → (∀ q ∈ new, q <:+ p ∧ q ≠ p) →
      q <:+ p → q ≠ p → q ≠ [] → s'.table root q = none →
      (∀ u b, A.kalloc s'.pages 0 ≠ .done u b) →
      Attempt A Owns root s L p content arg o

namespace Tree

variable (hA : A.Grants Owns) (h : Tree Owns root s L) (hp : Trail 512 (i :: p))
  (ht : s.table root p = some t)
include hA h hp ht

/-- The entries of a table are its words. -/
theorem entryAt_table : entryAt t i = t + 8 * i := by
  obtain ⟨hdvd, _, hlt⟩ := h.page hA (trail_cons.mp hp).2 ht
  exact entryAt_eq hdvd (by omega) (trail_cons.mp hp).1

omit hA h in
/-- A place is taken exactly when its entry is valid. -/
theorem valid_iff_taken : Valid (cell s.mem t i) ↔ s.Taken root (i :: p) := by
  constructor
  · intro hv
    cases hl : link (cell s.mem t i) with
    | none => exact Or.inl ⟨_, hp, entry_cons.mpr ⟨t, ht, rfl⟩, hv, hl⟩
    | some u =>
      have hu : s.table root (i :: p) = some u := table_cons.mpr ⟨t, ht, hl⟩
      exact Or.inr (hu ▸ Option.some_ne_none u)
  · rintro (⟨e, hl⟩ | hne)
    · obtain ⟨t', ht', rfl⟩ := entry_cons.mp hl.entry
      obtain rfl := Option.some.inj (ht.symm.trans ht')
      exact hl.valid
    · obtain ⟨u, hu⟩ := Option.ne_none_iff_exists'.mp hne
      obtain ⟨t', ht', hl⟩ := table_cons.mp hu
      obtain rfl := Option.some.inj (ht.symm.trans ht')
      exact (link_eq_some.mp hl).1.1

/-- Below an entry that is no leaf there is a table in the end, or no page could be had. -/
theorem ensureTable_spec (hd : p.length < 2) (hl : ∀ e, ¬ s.Leaf root (i :: p) e)
    (code virAddr : Nat) :
    (∃ u new s' L', ensureTable A code virAddr (entryAt t i) s = .done u s' ∧
      s'.table root (i :: p) = some u ∧ Tree Owns root s' L' ∧ Grew A root s L new s' L' ∧
      (∀ q ∈ new, q = i :: p) ∧ ∀ q f, s'.Leaf root q f ↔ s.Leaf root q f) ∨
    ((∀ u w, ensureTable A code virAddr (entryAt t i) s ≠ .done u w) ∧
      s.table root (i :: p) = none ∧ ∀ u b, A.kalloc s.pages 0 ≠ .done u b) := by
  have hslot : s.mem (entryAt t i) = cell s.mem t i := by
    rw [h.entryAt_table hA hp ht]
    rfl
  by_cases hv : Valid (cell s.mem t i)
  · left
    have hnone : link (cell s.mem t i) ≠ none := fun hn =>
      hl _ ⟨hp, entry_cons.mpr ⟨t, ht, rfl⟩, hv, hn⟩
    obtain ⟨u, hu⟩ := Option.ne_none_iff_exists'.mp hnone
    refine ⟨u, [], s, L, ?_, table_cons.mpr ⟨t, ht, hu⟩, h, Grew.refl, by simp, fun _ _ => Iff.rfl⟩
    rw [ensureTable, hslot, if_neg hv, (link_eq_some.mp hu).2]
  · have hv' : cell s.mem t i &&& 0x1 = 0 := not_not.mp hv
    have hnone : s.table root (i :: p) = none := by
      by_contra hne
      exact hv ((valid_iff_taken hp ht).mpr (Or.inr hne))
    cases hk : A.kalloc s.pages 0 with
    | done u b =>
      left
      obtain ⟨htree, htab, hleaf, hframe, hgiven, hwritten⟩ := h.hang hA hp ht hv hd hk rfl
      obtain ⟨hne, howns⟩ := hA.kalloc h.owns hk
      obtain ⟨hdvd, hpos, hlt⟩ := (hA.blocks howns).single_page List.mem_cons_self
      refine ⟨u, [i :: p], _, ⟨u, 0⟩ :: L, ?_, ?_, htree, ?_, by simp, hleaf⟩
      · rw [ensureTable, hslot, if_pos hv', kallocPage, hk]
        simp only [Outcome.within, Outcome.bind_done]
        rw [if_neg hpos.ne', h.entryAt_table hA hp ht, Space.store_mem, Function.update_self,
          tableOf_linkPte hdvd (by omega)]
      · rw [htab _ hp, if_pos rfl]
      · refine ⟨fun q w hq hw => ?_, fun q w hq hw => ?_, by simp, fun q hq => ?_,
          List.subset_cons_self _ _, fun n hn => ?_, ⟨[u], hgiven, fun q hq => ?_⟩,
            hwritten, hframe⟩
        · rw [htab q hq, if_neg, hw]
          rintro rfl
          rw [hnone] at hw
          exact absurd hw (by simp)
        · rw [htab q hq] at hw
          split at hw
          · rename_i hqe
            obtain rfl := Option.some.inj hw
            exact Or.inr (List.mem_singleton.mpr hqe)
          · exact Or.inl hw
        · obtain rfl := List.mem_singleton.mp hq
          refine ⟨hp, hnone, ?_⟩
          rw [htab _ hp, if_pos rfl]
          exact Option.some_ne_none u
        · obtain ⟨u', b', hk', hroom⟩ := hn
          rw [hk] at hk'
          obtain ⟨rfl, rfl⟩ := Outcome.done.inj hk'
          rw [Space.store_pages, (zeroed_of_granted (hA.blocks howns) List.mem_cons_self _).pages]
          exact hroom
        · obtain rfl := List.mem_singleton.mp hq
          refine ⟨u, List.mem_singleton_self u, ?_⟩
          rw [htab _ hp, if_pos rfl]
    | panic c x b =>
      right
      refine ⟨fun u w => ?_, hnone, fun u b' => by simp⟩
      rw [ensureTable, hslot, if_pos hv', kallocPage, hk]
      simp [Outcome.within]
    | spin b =>
      right
      refine ⟨fun u w => ?_, hnone, fun u b' => by simp⟩
      rw [ensureTable, hslot, if_pos hv', kallocPage, hk]
      simp [Outcome.within]

/-- Writing a leaf to a place whose table is there. -/
theorem putLeaf_spec {user perm : Nat} (hperm : perm &&& 0xE ≠ 0) (pa : Nat) :
    Attempt A Owns root s L (i :: p) (leafPte user perm pa) pa
      (putLeaf user perm (entryAt t i) pa s) := by
  have hslot : s.mem (entryAt t i) = cell s.mem t i := by
    rw [h.entryAt_table hA hp ht]
    rfl
  by_cases hv : cell s.mem t i &&& 0x1 ≠ 0
  · rw [putLeaf, hslot, if_pos hv]
    exact .blocked Grew.refl ((valid_iff_taken hp ht).mp hv)
  · have hnt : ¬ s.Taken root (i :: p) := fun h => hv ((valid_iff_taken hp ht).mpr h)
    have h0 : link (cell s.mem t i) = none := link_eq_none.mpr fun hv' => absurd hv' hv
    rw [putLeaf, hslot, if_neg hv, h.entryAt_table hA hp ht]
    obtain ⟨htree, htab, hleaf⟩ := h.write hA hp ht h0 (link_leafPte user hperm pa)
    have hslot' : (s.store (t + 8 * i) (leafPte user perm pa)).OnTable root (t + 8 * i) := by
      refine ⟨p, t, i, hp, ?_, rfl⟩
      rw [htab p (trail_cons.mp hp).2]
      exact ht
    refine .placed htree ⟨fun q w hq hw => ?_, fun q w hq hw => ?_, List.nodup_nil, by simp,
      List.Subset.refl L, fun _ hn => hn, ⟨[], rfl, by simp⟩,
      ⟨[t + 8 * i], rfl, fun a ha => List.mem_singleton.mp ha ▸ hslot'⟩, fun a ha => ?_⟩
      (by simp) hnt fun q f => ?_
    · rw [htab q hq]
      exact hw
    · rw [htab q hq] at hw
      exact Or.inl hw
    · apply Function.update_of_ne
      rintro rfl
      exact ha hslot'
    · rw [hleaf q f]
      constructor
      · rintro (⟨h, _⟩ | ⟨rfl, rfl, _⟩)
        · exact Or.inl h
        · exact Or.inr ⟨rfl, rfl⟩
      · rintro (h | ⟨rfl, rfl⟩)
        · refine Or.inl ⟨h, fun he => hnt (Or.inl ⟨f, he ▸ h⟩)⟩
        · exact Or.inr ⟨rfl, rfl, valid_leafPte _ _ _⟩

end Tree

/-- Tables made elsewhere leave a place as it was. -/
theorem Grew.taken_iff {new : List (List Nat)} {L' : List Grant} (h : Grew A root s L new s' L')
    (hleaf : ∀ q f, s'.Leaf root q f ↔ s.Leaf root q f) (hp : Trail 512 p) (hn : p ∉ new) :
    s'.Taken root p ↔ s.Taken root p := by
  have htab : s'.table root p ≠ none ↔ s.table root p ≠ none := by
    constructor
    · intro hne
      obtain ⟨t, ht⟩ := Option.ne_none_iff_exists'.mp hne
      rcases h.added p t hp ht with ht | hin
      · rw [ht]
        exact Option.some_ne_none t
      · exact absurd hin hn
    · intro hne
      obtain ⟨t, ht⟩ := Option.ne_none_iff_exists'.mp hne
      rw [h.tables p t hp ht]
      exact Option.some_ne_none t
  unfold Space.Taken
  rw [htab]
  simp only [hleaf]

/-- An attempt after one table on the way has been made. -/
theorem Attempt.after {new : List (List Nat)} {L' : List Grant} {content arg : Nat}
    {o : Outcome (Space β) Unit} (hg : Grew A root s L new s' L')
    (hleaf : ∀ q f, s'.Leaf root q f ↔ s.Leaf root q f) (hp : Trail 512 p)
    (hnew : ∀ q ∈ new, q <:+ p ∧ q ≠ p) (h : Attempt A Owns root s' L' p content arg o) :
    Attempt A Owns root s L p content arg o := by
  have htaken := hg.taken_iff hleaf hp fun hin => (hnew p hin).2 rfl
  have happ : ∀ {new' : List (List Nat)}, (∀ q ∈ new', q <:+ p ∧ q ≠ p) →
      ∀ q ∈ new' ++ new, q <:+ p ∧ q ≠ p := fun hnew' q hq =>
    (List.mem_append.mp hq).elim (hnew' q) (hnew q)
  cases h with
  | placed ht hg' hnew' hnt hl =>
    refine .placed ht (hg.trans hg') (happ hnew') (fun h => hnt (htaken.mpr h)) fun q f => ?_
    rw [hl q f, hleaf q f]
  | blocked hg' ht => exact .blocked (hg.trans hg') (htaken.mp ht)
  | starved hno hg' hnew' hq hne h0 htab hk =>
    exact .starved hno (hg.trans hg') (happ hnew') hq hne h0 htab hk

/-! ## The three sizes -/

/-- The indices an address takes through the three levels, the last one first. -/
def indices (virAddr : Nat) : List Nat := [vpn virAddr 12, vpn virAddr 21, vpn virAddr 30]

/-- The indices of an address lead down a tree. -/
theorem trail_indices (va : Nat) : Trail 512 (indices va) := by
  simp [indices, trail_cons, vpn_lt, trail_nil]

/-- No leaf lies above the place `p`. -/
def Space.Clear (s : Space β) (root : Nat) (p : List Nat) : Prop :=
  ∀ q, q <:+ p → q ≠ p → ∀ e, ¬ s.Leaf root q e

section Sizes

variable {user perm : Nat} (hA : A.Grants Owns) (h : Tree Owns root s L) (hperm : perm &&& 0xE ≠ 0)
include hA h hperm

/-- A gigapage is tried at the root. -/
theorem mapGiga_spec (va pa : Nat) :
    Attempt A Owns root s L [vpn va 30] (leafPte user perm pa) pa
      (mapGiga user perm root va pa s) :=
  h.putLeaf_spec hA (trail_cons.mpr ⟨vpn_lt va 30, trail_nil⟩) rfl hperm pa

omit hperm in
/-- One level down, from the table at `p` to the place `j :: i :: p`. -/
theorem Tree.descend {p x : List Nat} {t i code virAddr pa content : Nat}
    {k : Nat → Space β → Outcome (Space β) Unit}
    (hx : Trail 512 x) (hip : (i :: p) <:+ x) (hne : i :: p ≠ x) (hd : p.length < 2)
    (ht : s.table root p = some t) (hc : s.Clear root x)
    (hk : ∀ u s' L', s'.table root (i :: p) = some u → Tree Owns root s' L' → s'.Clear root x →
      Attempt A Owns root s' L' x content pa (k u s')) :
    Attempt A Owns root s L x content pa
      ((ensureTable A code virAddr (entryAt t i) s).bind k) := by
  rcases h.ensureTable_spec hA (hx.suffix hip) ht hd (hc _ hip hne) code virAddr with
    ⟨u, new, s', L', hrun, hu, htree, hg, hnew, hleaf⟩ | ⟨hno, hnone, hstarved⟩
  · rw [hrun, Outcome.bind_done]
    have hc' : s'.Clear root x := fun q hq hne e hl => hc q hq hne e ((hleaf q e).mp hl)
    refine (hk u s' L' hu htree hc').after hg hleaf hx fun q hq => ?_
    rw [hnew q hq]
    exact ⟨hip, hne⟩
  · refine .starved (fun w hw => ?_) Grew.refl (by simp) hip hne (List.cons_ne_nil i p) hnone
      hstarved
    obtain ⟨u, w', hrun, _⟩ := Outcome.bind_eq_done.mp hw
    exact hno u w' hrun

/-- A megapage is tried one table below, which is made if it is missing. -/
theorem mapMega_spec {virAddr va pa : Nat} (hc : s.Clear root [vpn va 21, vpn va 30]) :
    Attempt A Owns root s L [vpn va 21, vpn va 30] (leafPte user perm pa) pa
      (mapMega A user perm root virAddr va pa s) := by
  have hx : Trail 512 [vpn va 21, vpn va 30] := (trail_indices va).suffix ⟨[vpn va 12], rfl⟩
  unfold mapMega
  apply h.descend hA hx ⟨[vpn va 21], rfl⟩ (by simp) (by simp) rfl hc
  intro u s' L' hu htree _
  exact htree.putLeaf_spec hA hx hu hperm pa

/-- A page is tried two tables below, which are made if they are missing. -/
theorem mapPage_spec {virAddr va pa : Nat} (hc : s.Clear root (indices va)) :
    Attempt A Owns root s L (indices va) (leafPte user perm pa) pa
      (mapPage A user perm root virAddr va pa s) := by
  have hx := trail_indices va
  unfold mapPage
  apply h.descend hA hx ⟨[vpn va 12, vpn va 21], rfl⟩ (by simp [indices]) (by simp) rfl hc
  intro u s' L' hu htree hc'
  apply htree.descend hA hx ⟨[vpn va 12], rfl⟩ (by simp [indices]) (by simp) hu hc'
  intro w s'' L'' hw htree' _
  exact htree'.putLeaf_spec hA hx hw hperm pa

end Sizes

end RexOS.Paging
