import Mathlib.Data.List.Cycle
import Mathlib.Data.List.Iterate

/-!
# Circular lists threaded through two link functions

A wheel has no end: the last node links to the first one. The list of its nodes may start
anywhere, so a wheel may be turned. Nodes are taken out anywhere, and new ones enter
before the first node, which is the end of the list.
-/

/-- The links lead around exactly the nodes `xs`, without repetition. -/
structure Wheel {ι : Type*} (next prev : ι → ι) (xs : List ι) : Prop where
  chain : (xs : Cycle ι).Chain fun x y => next x = y ∧ prev y = x
  nodup : xs.Nodup

namespace Wheel

variable {ι : Type*} {next prev next' prev' : ι → ι} {x y : ι} {xs ys : List ι}

/-- A wheel without members. -/
theorem empty : Wheel next prev [] := ⟨Cycle.Chain.nil _, List.nodup_nil⟩

/-- A wheel with one member. -/
theorem single (hn : next x = x) (hp : prev x = x) : Wheel next prev [x] :=
  ⟨(Cycle.chain_singleton _ x).mpr ⟨hn, hp⟩, List.nodup_singleton x⟩

/-- The first node may be any one. -/
theorem turn (h : Wheel next prev xs) (hr : xs ~r ys) : Wheel next prev ys := by
  refine ⟨?_, hr.nodup_iff.mp h.nodup⟩
  rw [← Cycle.coe_eq_coe.mpr hr]
  exact h.chain

/-- A member brought to the front. -/
theorem front [DecidableEq ι] (h : Wheel next prev xs) (hx : x ∈ xs) :
    ∃ ys, xs ~r x :: ys ∧ xs.erase x ~r ys ∧ Wheel next prev (x :: ys) := by
  obtain ⟨l, r, rfl⟩ := List.append_of_mem hx
  have hxl : x ∉ l := fun hm => (List.nodup_append.mp h.nodup).2.2 x hm x List.mem_cons_self rfl
  have hr : l ++ x :: r ~r x :: (r ++ l) := List.isRotated_append
  refine ⟨r ++ l, hr, ?_, h.turn hr⟩
  rw [List.erase_append_right _ hxl, List.erase_cons_head]
  exact List.isRotated_append

/-- The first node links to the second one, and back to the last one. -/
theorem links (h : Wheel next prev (x :: ys)) :
    next x = ys.head?.getD x ∧ prev x = ys.getLast?.getD x := by
  cases ys with
  | nil => exact (Cycle.chain_singleton _ x).mp h.chain
  | cons y zs =>
    have hc := (Cycle.chain_coe_cons _ x (y :: zs)).mp h.chain
    rw [List.cons_append, List.isChain_cons_cons, ← List.cons_append] at hc
    have hlast := (List.isChain_append.mp hc.2).2.2
    rw [List.getLast?_eq_getLast_of_ne_nil (List.cons_ne_nil y zs)] at hlast ⊢
    exact ⟨hc.1.1, (hlast _ rfl _ rfl).2⟩

/-- The link from the last node. -/
theorem next_last (h : Wheel next prev (x :: ys)) : next (ys.getLast?.getD x) = x := by
  have hc := (Cycle.chain_coe_cons _ x ys).mp h.chain
  rw [← List.cons_append] at hc
  refine ((List.isChain_append.mp hc).2.2 _ ?_ x rfl).1
  rw [List.getLast?_cons]
  rfl

/-- A member is the next one of the one before. -/
theorem next_prev (h : Wheel next prev xs) (hx : x ∈ xs) : next (prev x) = x := by
  classical
  obtain ⟨ys, _, _, hw⟩ := h.front hx
  rw [hw.links.2]
  exact hw.next_last

/-- The next one is a member. -/
theorem next_mem (h : Wheel next prev xs) (hx : x ∈ xs) : next x ∈ xs := by
  classical
  obtain ⟨ys, hr, _, hw⟩ := h.front hx
  rw [hr.mem_iff, hw.links.1]
  cases ys with
  | nil => exact List.mem_cons_self
  | cons y zs => exact List.mem_cons_of_mem _ List.mem_cons_self

/-- So is the next one of that, and so on. -/
theorem iterate_mem (h : Wheel next prev xs) (hx : x ∈ xs) (n : Nat) : next^[n] x ∈ xs := by
  induction n with
  | zero => exact hx
  | succ n ih =>
    rw [Function.iterate_succ_apply']
    exact h.next_mem ih

/-- The one before is a member. -/
theorem prev_mem (h : Wheel next prev xs) (hx : x ∈ xs) : prev x ∈ xs := by
  classical
  obtain ⟨ys, hr, _, hw⟩ := h.front hx
  rw [hr.mem_iff, hw.links.2]
  cases hl : ys.getLast? with
  | none => exact List.mem_cons_self
  | some y => exact List.mem_cons_of_mem _ (List.mem_of_getLast? hl)

/-- Only a node alone is its own successor. -/
theorem next_eq_self_iff (h : Wheel next prev xs) (hx : x ∈ xs) : next x = x ↔ xs = [x] := by
  classical
  obtain ⟨ys, hr, _, hw⟩ := h.front hx
  constructor
  · intro hself
    cases ys with
    | nil => exact List.isRotated_singleton_iff.mp hr
    | cons y zs =>
      have hy : y = x := hw.links.1.symm.trans hself
      exact absurd (hy ▸ List.mem_cons_self) (List.nodup_cons.mp hw.nodup).1
  · rintro rfl
    exact h.links.1

/-- A wheel reads only the links of its own nodes. -/
theorem congr (h : Wheel next prev xs) (hn : ∀ y ∈ xs, next' y = next y)
    (hp : ∀ y ∈ xs, prev' y = prev y) : Wheel next' prev' xs := by
  refine ⟨?_, h.nodup⟩
  cases xs with
  | nil => exact Cycle.Chain.nil _
  | cons x ys =>
    refine (Cycle.chain_coe_cons _ x ys).mpr
      (((Cycle.chain_coe_cons _ x ys).mp h.chain).imp_of_mem_imp ?_)
    have hmem : ∀ a ∈ x :: (ys ++ [x]), a ∈ x :: ys := by
      intro a ha
      simpa [or_comm, or_assoc] using ha
    rintro a b ha hb ⟨hab, hba⟩
    exact ⟨(hn a (hmem a ha)).trans hab, (hp b (hmem b hb)).trans hba⟩

/-- The inner links of a wheel, from the first to the last node. -/
theorem inner (h : Wheel next prev (x :: ys)) :
    (x :: ys).IsChain fun a b => next a = b ∧ prev b = a := by
  have hc := (Cycle.chain_coe_cons _ x ys).mp h.chain
  rw [← List.cons_append] at hc
  exact hc.left_of_append

/-- The nodes are reached one after the other from the first. -/
theorem eq_iterate (h : Wheel next prev (x :: ys)) :
    x :: ys = List.iterate next x (ys.length + 1) := by
  have hc := h.inner
  clear h
  induction ys generalizing x with
  | nil => rfl
  | cons y ys ih =>
    obtain ⟨⟨hy, -⟩, htail⟩ := List.isChain_cons_cons.mp hc
    rw [List.iterate, hy, List.length_cons, ← ih htail]

/-- A wheel from its inner links and those between its ends. -/
theorem of_inner (hc : (x :: ys).IsChain fun a b => next a = b ∧ prev b = a)
    (hnext : next (ys.getLast?.getD x) = x) (hprev : prev x = ys.getLast?.getD x)
    (hd : (x :: ys).Nodup) : Wheel next prev (x :: ys) := by
  refine ⟨(Cycle.chain_coe_cons _ x ys).mpr ?_, hd⟩
  rw [← List.cons_append]
  refine hc.append (List.isChain_singleton x) ?_
  intro a ha b hb
  have hb' : b = x := (Option.some.inj hb).symm
  rw [List.getLast?_cons] at ha
  have ha' : a = ys.getLast?.getD x := (Option.some.inj ha).symm
  rw [ha', hb']
  exact ⟨hnext, hprev⟩

variable [DecidableEq ι]

/-- Taking out a node joins its two neighbours. -/
theorem remove (h : Wheel next prev xs) (hx : x ∈ xs)
    (hn : ∀ y ∈ xs.erase x, next' y = if y = prev x then next x else next y)
    (hp : ∀ y ∈ xs.erase x, prev' y = if y = next x then prev x else prev y) :
    Wheel next' prev' (xs.erase x) := by
  obtain ⟨ys, _, hr, hw⟩ := h.front hx
  refine Wheel.turn ?_ hr.symm
  have hd := List.nodup_cons.mp hw.nodup
  simp only [hr.mem_iff] at hn hp
  obtain ⟨hnx, hpx⟩ := hw.links
  cases ys with
  | nil => exact empty
  | cons y zs =>
    have hlast : (y :: zs).getLast?.getD x = zs.getLast?.getD y := by
      rw [List.getLast?_cons, Option.getD_some]
    have hlastmem : zs.getLast?.getD y ∈ y :: zs := by
      cases hl : zs.getLast? with
      | none => exact List.mem_cons_self
      | some z => exact List.mem_cons_of_mem _ (List.mem_of_getLast? hl)
    rw [hlast] at hpx
    have hin := hw.inner
    rw [List.isChain_cons_cons] at hin
    refine of_inner (hin.2.imp_of_mem_imp ?_) ?_ ?_ hd.2
    · -- the nodes that stay keep the links between them
      rintro a b ha hb ⟨hab, hba⟩
      have ha' : a ≠ prev x := by
        rintro rfl
        exact hd.1 (h.next_prev hx ▸ hab ▸ hb)
      have hb' : b ≠ next x := by
        rintro rfl
        have hxa : x = a := hin.1.2.symm.trans (hin.1.1 ▸ hba)
        exact hd.1 (hxa ▸ ha)
      rw [hn a ha, hp b hb, if_neg ha', if_neg hb']
      exact ⟨hab, hba⟩
    · rw [hn _ hlastmem, if_pos hpx.symm]
      exact hnx
    · have hy : y = next x := hnx.symm
      rw [hp y List.mem_cons_self, if_pos hy]
      exact hpx

/-- A new node enters before the first one. -/
theorem add (h : Wheel next prev (x :: xs)) (hy : y ∉ x :: xs)
    (hny : next' y = x) (hpy : prev' y = prev x)
    (hn : ∀ z ∈ x :: xs, next' z = if z = prev x then y else next z)
    (hp : ∀ z ∈ x :: xs, prev' z = if z = x then y else prev z) :
    Wheel next' prev' (x :: xs ++ [y]) := by
  have hin := h.inner
  obtain ⟨_, hpx⟩ := h.links
  have hd := List.nodup_cons.mp h.nodup
  have hlastmem : prev x ∈ x :: xs := h.prev_mem List.mem_cons_self
  have hnewlast : (xs ++ [y]).getLast?.getD x = y := by simp
  have hnodup : (x :: (xs ++ [y])).Nodup := by
    rw [← List.cons_append, List.nodup_append]
    refine ⟨h.nodup, List.nodup_singleton y, ?_⟩
    rintro a ha b hb rfl
    exact hy (List.mem_singleton.mp hb ▸ ha)
  have hnext : ∀ a b, a ∈ x :: xs → b ∈ xs → next a = b → a ≠ prev x := by
    rintro a b ha hb hab rfl
    exact hd.1 (h.next_prev List.mem_cons_self ▸ hab ▸ hb)
  rw [List.cons_append]
  refine of_inner ?_ ?_ ?_ hnodup
  · rw [← List.cons_append]
    refine List.IsChain.append ?_ (List.isChain_singleton y) ?_
    · refine hin.imp_of_mem_tail_imp ?_
      rintro a b ha hb ⟨hab, hba⟩
      have hb' : b ∈ xs := hb
      rw [hn a ha, hp b (List.mem_cons_of_mem _ hb'), if_neg (hnext a b ha hb' hab), if_neg]
      · exact ⟨hab, hba⟩
      · rintro rfl
        exact hd.1 hb'
    · intro a ha b hb
      obtain rfl := Option.some.inj hb
      rw [List.getLast?_cons] at ha
      have ha' : a = prev x := (Option.some.inj ha).symm.trans hpx.symm
      rw [ha']
      refine ⟨?_, hpy⟩
      rw [hn _ hlastmem, if_pos rfl]
  · rw [hnewlast]
    exact hny
  · rw [hnewlast, hp x List.mem_cons_self, if_pos rfl]

end Wheel
