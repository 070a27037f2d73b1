import Mathlib.Data.List.Basic
import Mathlib.Data.List.Nodup

/-!
# Queues that nodes leave anywhere

Nodes leave a queue at any place and enter it at its end. A queue that has the same nodes
afterwards, none of which has entered, is the same queue.
-/

/-- From `xs` to `ys` nodes have left, and nodes in `D` have entered. -/
def Requeued {ι : Type*} (D : ι → Prop) (xs ys : List ι) : Prop :=
  ∃ l r, ys = l ++ r ∧ l.Sublist xs ∧ ∀ x ∈ r, D x

namespace Requeued

variable {ι : Type*} {D : ι → Prop} {x : ι} {xs ys zs : List ι}

/-- Nothing happens. -/
theorem refl (D : ι → Prop) (xs : List ι) : Requeued D xs xs :=
  ⟨xs, [], (List.append_nil xs).symm, List.Sublist.refl xs, fun _ hx => absurd hx List.not_mem_nil⟩

/-- One member leaves. -/
theorem erase [DecidableEq ι] (D : ι → Prop) (xs : List ι) (x : ι) : Requeued D xs (xs.erase x) :=
  ⟨_, [], (List.append_nil _).symm, List.erase_sublist, fun _ hx => absurd hx List.not_mem_nil⟩

/-- One member that may join does. -/
theorem append (hx : D x) (xs : List ι) : Requeued D xs (xs ++ [x]) := by
  refine ⟨xs, [x], rfl, List.Sublist.refl xs, fun y hy => ?_⟩
  rwa [List.mem_singleton.mp hy]

/-- One after the other. -/
theorem trans (h : Requeued D xs ys) (h' : Requeued D ys zs) : Requeued D xs zs := by
  obtain ⟨l, r, rfl, hl, hr⟩ := h
  obtain ⟨l', r', rfl, hl', hr'⟩ := h'
  obtain ⟨a, b, rfl, ha, hb⟩ := List.sublist_append_iff.mp hl'
  refine ⟨a, b ++ r', List.append_assoc a b r', ha.trans hl, fun x hx => ?_⟩
  rcases List.mem_append.mp hx with hx | hx
  · exact hr x (hb.subset hx)
  · exact hr' x hx

/-- Nobody has left where the same nodes are there. -/
theorem eq_of_mem (h : Requeued D xs ys) (hx : xs.Nodup) (hy : ys.Nodup)
    (hmem : ∀ a, a ∈ ys ↔ a ∈ xs) (hD : ∀ a ∈ xs, ¬ D a) : ys = xs := by
  obtain ⟨l, r, rfl, hl, hr⟩ := h
  have hnone : r = [] := by
    apply List.eq_nil_iff_forall_not_mem.mpr
    intro a ha
    exact hD a ((hmem a).mp (List.mem_append_right l ha)) (hr a ha)
  subst hnone
  rw [List.append_nil] at hy hmem ⊢
  apply hl.eq_of_length
  exact ((List.perm_ext_iff_of_nodup hy hx).mpr hmem).length_eq

end Requeued
