import RexOS.Core.LinkedList
import RexOS.Kvmalloc.Model

/-!
# Slab headers in memory

Headers start at multiples of 64, so the words of two headers are different words. What
a store to one field does is said once here, on the links of a header and on the rest of
it; the moves between lists are then edits of linked lists.
-/

namespace RexOS.Kvmalloc

/-- The fields of a header that are not links. -/
@[ext]
structure Body where
  parentCache : Nat
  activeObjCount : Nat
  freeSlot : Nat
  virtStart : Nat
  allocCaller : Nat
  physStart : Nat

namespace Heap

variable {β : Type} (s : Heap β) {h x v : Nat}

/-- The header at `h` without its links. -/
def body (h : Nat) : Body where
  parentCache := s.mem h
  activeObjCount := s.mem (h + 8)
  freeSlot := s.mem (h + 32)
  virtStart := s.mem (h + 40)
  allocCaller := s.mem (h + 48)
  physStart := s.mem (h + 56)

/-- A word of one header is a word of another only when both are the same. -/
theorem store_field (hx : 64 ∣ x) (hh : 64 ∣ h) {f g : Nat} (hf : f < 64) (hg : g < 64) :
    (s.store (h + g) v).mem (x + f) = if x = h ∧ f = g then v else s.mem (x + f) := by
  obtain ⟨a, rfl⟩ := hx
  obtain ⟨b, rfl⟩ := hh
  unfold store
  by_cases he : 64 * a = 64 * b ∧ f = g
  · rw [if_pos he, he.1, he.2]
    simp
  · rw [if_neg he]
    exact Function.update_of_ne (by omega) _ _

section Fields

variable (hx : 64 ∣ x) (hh : 64 ∣ h)
include hx hh

/-- What a store into a header does to it. -/
theorem body_store {g : Nat} (hg : g < 64) : (s.store (h + g) v).body x =
    { parentCache := if x = h ∧ 0 = g then v else s.mem x
      activeObjCount := if x = h ∧ 8 = g then v else s.mem (x + 8)
      freeSlot := if x = h ∧ 32 = g then v else s.mem (x + 32)
      virtStart := if x = h ∧ 40 = g then v else s.mem (x + 40)
      allocCaller := if x = h ∧ 48 = g then v else s.mem (x + 48)
      physStart := if x = h ∧ 56 = g then v else s.mem (x + 56) } := by
  have h0 := s.store_field (v := v) hx hh (f := 0) (by decide) hg
  exact Body.ext h0 (s.store_field hx hh (by decide) hg) (s.store_field hx hh (by decide) hg)
    (s.store_field hx hh (by decide) hg) (s.store_field hx hh (by decide) hg)
    (s.store_field hx hh (by decide) hg)

/-- What it does to the forward link. -/
theorem next_store {g : Nat} (hg : g < 64) :
    (s.store (h + g) v).next x = if x = h ∧ 24 = g then v else s.next x :=
  s.store_field hx hh (by decide) hg

/-- What it does to the backward link. -/
theorem prev_store {g : Nat} (hg : g < 64) :
    (s.store (h + g) v).prev x = if x = h ∧ 16 = g then v else s.prev x :=
  s.store_field hx hh (by decide) hg

/-- Each setter changes its own field. -/
theorem body_setActiveObjCount : (s.setActiveObjCount h v).body x =
    if x = h then { s.body x with activeObjCount := v } else s.body x := by
  refine (s.body_store hx hh (by decide)).trans ?_
  by_cases he : x = h <;> simp [he, body]

theorem body_setFreeSlot : (s.setFreeSlot h v).body x =
    if x = h then { s.body x with freeSlot := v } else s.body x := by
  refine (s.body_store hx hh (by decide)).trans ?_
  by_cases he : x = h <;> simp [he, body]

theorem body_setVirtStart : (s.setVirtStart h v).body x =
    if x = h then { s.body x with virtStart := v } else s.body x := by
  refine (s.body_store hx hh (by decide)).trans ?_
  by_cases he : x = h <;> simp [he, body]

theorem body_setAllocCaller : (s.setAllocCaller h v).body x =
    if x = h then { s.body x with allocCaller := v } else s.body x := by
  refine (s.body_store hx hh (by decide)).trans ?_
  by_cases he : x = h <;> simp [he, body]

theorem body_setPhysStart : (s.setPhysStart h v).body x =
    if x = h then { s.body x with physStart := v } else s.body x := by
  refine (s.body_store hx hh (by decide)).trans ?_
  by_cases he : x = h <;> simp [he, body]

theorem body_setNext : (s.setNext h v).body x = s.body x := by
  refine (s.body_store hx hh (by decide)).trans ?_
  simp [body]

theorem body_setPrev : (s.setPrev h v).body x = s.body x := by
  refine (s.body_store hx hh (by decide)).trans ?_
  simp [body]

/-- A link is stored where it is read. -/
theorem next_setNext : (s.setNext h v).next x = if x = h then v else s.next x := by
  refine (s.next_store hx hh (by decide)).trans ?_
  simp

theorem prev_setPrev : (s.setPrev h v).prev x = if x = h then v else s.prev x := by
  refine (s.prev_store hx hh (by decide)).trans ?_
  simp

theorem next_setPrev : (s.setPrev h v).next x = s.next x := by
  refine (s.next_store hx hh (by decide)).trans ?_
  simp

theorem prev_setNext : (s.setNext h v).prev x = s.prev x := by
  refine (s.prev_store hx hh (by decide)).trans ?_
  simp

end Fields

end Heap

end RexOS.Kvmalloc
