import RexOS.Core.LinkedList
import RexOS.Core.Wheel
import RexOS.Scheduler.Model
import Mathlib.Algebra.BigOperators.Group.Finset.Basic

/-!
# The places of processes

A process is on a circle of a hart or on one of the lists. `Threaded` says that the links of
memory spell a given list for each place, and `bare` is what is left of the scheduler's data
without the links. The moves of the model change the links and nothing else.
-/

namespace RexOS.Scheduler

open Bits

/-- The structures a process may be linked in. -/
inductive Place where
  | circle (hart priority : Nat)
  | wait (w : WaitList)
  deriving DecidableEq, Repr

namespace Kernel

variable (s : Kernel)

def next (a : Nat) : Nat := (s.procs a).next

def prev (a : Nat) : Nat := (s.procs a).prev

/-- The pointer to the first node of a place. -/
def first : Place → Nat
  | .circle h i => (s.queues h).activeProcessCircles i
  | .wait w => s.heads w

/-- The links of a place spell a list. -/
def Linked : Place → List Nat → Prop
  | .circle h i, xs => Wheel s.next s.prev xs ∧ s.first (.circle h i) = xs.head?.getD 0
  | .wait w, xs => Dll s.next s.prev 0 (s.first (.wait w)) xs

def bitmap (h : Nat) : Nat := (s.queues h).lookupBitmap

def count (h : Nat) : Nat := (s.queues h).processCount

/-- The scheduler's data without links, circles and lists. -/
def bare : Kernel :=
  { s with
    procs := fun a => { s.procs a with next := 0, prev := 0 }
    queues := fun h =>
      { s.queues h with activeProcessCircles := fun _ => 0, lookupBitmap := 0, processCount := 0 }
    heads := fun _ => 0 }

/-! ## What a store changes -/

variable (h a x b : Nat) (p : Place)

/-- What the four link fields are after a store into one of them, or into a list head or a queue. -/
@[simp] theorem next_setNext : (s.setNext a x).next = Function.update s.next a x := by
  funext y
  by_cases hy : y = a <;> simp [next, setNext, modify, hy]

@[simp] theorem prev_setNext : (s.setNext a x).prev = s.prev := by
  funext y
  by_cases hy : y = a <;> simp [prev, setNext, modify, hy]

@[simp] theorem next_setPrev : (s.setPrev a x).next = s.next := by
  funext y
  by_cases hy : y = a <;> simp [next, setPrev, modify, hy]

@[simp] theorem prev_setPrev : (s.setPrev a x).prev = Function.update s.prev a x := by
  funext y
  by_cases hy : y = a <;> simp [prev, setPrev, modify, hy]

@[simp] theorem next_onQueue (f : Runqueue → Runqueue) : (s.onQueue h f).next = s.next := rfl

@[simp] theorem prev_onQueue (f : Runqueue → Runqueue) : (s.onQueue h f).prev = s.prev := rfl

@[simp] theorem next_setHead (w : WaitList) : (s.setHead w x).next = s.next := rfl

@[simp] theorem prev_setHead (w : WaitList) : (s.setHead w x).prev = s.prev := rfl

/-- A field of the queues that a store does not write. -/
theorem field_onQueue {α : Type} (g : Runqueue → α) {f : Runqueue → Runqueue}
    (hf : ∀ q, g (f q) = g q) :
    (fun k => g ((s.onQueue h f).queues k)) = fun k => g (s.queues k) := by
  funext k
  unfold onQueue
  by_cases hk : k = h
  · subst hk
    simp only [Function.update_self, hf]
  · simp only [Function.update_of_ne hk]

/-- The first process of a place is in the queues and list heads, not in the processes. -/
@[simp] theorem first_modify (f : Process → Process) : (s.modify a f).first = s.first := by
  funext q
  cases q <;> rfl

@[simp] theorem queues_modify (f : Process → Process) : (s.modify a f).queues = s.queues := rfl

@[simp] theorem first_setNext : (s.setNext a x).first = s.first := first_modify s a _

@[simp] theorem first_setPrev : (s.setPrev a x).first = s.first := first_modify s a _

/-- A list head is the first process of its list, and a circle's pointer that of the circle. -/
@[simp] theorem first_setHead (w : WaitList) :
    (s.setHead w x).first = Function.update s.first (.wait w) x := by
  funext q
  cases q with
  | circle k i => rfl
  | wait u => by_cases hu : u = w <;> simp [first, setHead, hu]

@[simp] theorem first_setCircle (i : Nat) :
    (s.setCircle h i x).first = Function.update s.first (.circle h i) x := by
  funext q
  cases q with
  | circle k j =>
    by_cases hk : k = h <;> by_cases hj : j = i <;>
      simp [first, setCircle, onQueue, hk, hj]
  | wait u => rfl

/-- An update of a queue that leaves its circles alone leaves their first processes alone. -/
theorem first_onQueue {f : Runqueue → Runqueue}
    (hf : ∀ q, (f q).activeProcessCircles = q.activeProcessCircles) :
    (s.onQueue h f).first = s.first := by
  funext q
  cases q with
  | circle k j => exact congrFun (congrFun (s.field_onQueue h Runqueue.activeProcessCircles hf) k) j
  | wait u => rfl

@[simp] theorem first_setBitmap : (s.setBitmap h x).first = s.first :=
  s.first_onQueue h fun _ => rfl

@[simp] theorem first_mapCount (f : Nat → Nat) : (s.mapCount h f).first = s.first :=
  s.first_onQueue h fun _ => rfl

@[simp] theorem first_setCurr : (s.setCurr h x).first = s.first := s.first_onQueue h fun _ => rfl

/-- The bitmap and the count are in the queues as well. -/
@[simp] theorem bitmap_setNext : (s.setNext a x).bitmap = s.bitmap := rfl

@[simp] theorem count_setNext : (s.setNext a x).count = s.count := rfl

@[simp] theorem bitmap_setPrev : (s.setPrev a x).bitmap = s.bitmap := rfl

@[simp] theorem count_setPrev : (s.setPrev a x).count = s.count := rfl

@[simp] theorem bitmap_setCircle (i : Nat) : (s.setCircle h i x).bitmap = s.bitmap :=
  s.field_onQueue h Runqueue.lookupBitmap fun _ => rfl

@[simp] theorem count_setCircle (i : Nat) : (s.setCircle h i x).count = s.count :=
  s.field_onQueue h Runqueue.processCount fun _ => rfl

@[simp] theorem bitmap_setBitmap : (s.setBitmap h x).bitmap = Function.update s.bitmap h x := by
  funext k
  by_cases hk : k = h <;> simp [bitmap, setBitmap, onQueue, hk]

@[simp] theorem count_setBitmap : (s.setBitmap h x).count = s.count :=
  s.field_onQueue h Runqueue.processCount fun _ => rfl

@[simp] theorem bitmap_mapCount (f : Nat → Nat) : (s.mapCount h f).bitmap = s.bitmap :=
  s.field_onQueue h Runqueue.lookupBitmap fun _ => rfl

@[simp] theorem count_mapCount (f : Nat → Nat) :
    (s.mapCount h f).count = Function.update s.count h (f (s.count h)) := by
  funext k
  by_cases hk : k = h <;> simp [count, mapCount, onQueue, hk]

/-! ## What a store leaves bare -/

/-- A store that is no link. -/
theorem bare_modify {f : Process → Process}
    (hf : ∀ p, { f p with next := 0, prev := 0 } = f { p with next := 0, prev := 0 }) :
    (s.modify a f).bare = s.bare.modify a f := by
  unfold modify bare
  congr 1
  funext y
  by_cases hy : y = a
  · subst hy
    simp only [Function.update_self, hf]
  · simp only [Function.update_of_ne hy]

/-- A store of links. -/
theorem bare_links {f : Process → Process}
    (hf : ∀ p, { f p with next := 0, prev := 0 } = { p with next := 0, prev := 0 }) :
    (s.modify a f).bare = s.bare := by
  unfold modify bare
  congr 1
  funext y
  by_cases hy : y = a
  · subst hy
    simp only [Function.update_self, hf]
  · simp only [Function.update_of_ne hy]

/-- A store in a queue that writes circles, their marks or their number of processes. -/
theorem bare_onQueue {f : Runqueue → Runqueue}
    (hf : ∀ q,
      { f q with activeProcessCircles := fun _ => 0, lookupBitmap := 0, processCount := 0 } =
        { q with activeProcessCircles := fun _ => 0, lookupBitmap := 0, processCount := 0 }) :
    (s.onQueue h f).bare = s.bare := by
  unfold bare
  congr 1
  exact s.field_onQueue h (fun q =>
    { q with activeProcessCircles := fun _ => 0, lookupBitmap := 0, processCount := 0 }) hf

/-- Links, circles, bitmap and count are not part of the bare data. -/
@[simp] theorem bare_setNext : (s.setNext a x).bare = s.bare := s.bare_links a fun _ => rfl

@[simp] theorem bare_setPrev : (s.setPrev a x).bare = s.bare := s.bare_links a fun _ => rfl

@[simp] theorem bare_setHead (w : WaitList) : (s.setHead w x).bare = s.bare := rfl

@[simp] theorem bare_setCircle (i : Nat) : (s.setCircle h i x).bare = s.bare :=
  s.bare_onQueue h fun _ => rfl

@[simp] theorem bare_setBitmap : (s.setBitmap h x).bare = s.bare := s.bare_onQueue h fun _ => rfl

@[simp] theorem bare_mapCount (f : Nat → Nat) : (s.mapCount h f).bare = s.bare :=
  s.bare_onQueue h fun _ => rfl

/-- So leaving a place or joining one does not change the bare data. -/
@[simp] theorem bare_leaveCircle : (s.leaveCircle h a).bare = s.bare := by
  unfold leaveCircle
  dsimp only
  split
  · simp only [bare_mapCount, bare_setBitmap, bare_setCircle]
  · split <;> simp only [bare_mapCount, bare_setCircle, bare_setNext, bare_setPrev]

@[simp] theorem bare_joinCircle : (s.joinCircle h a).bare = s.bare := by
  unfold joinCircle
  dsimp only
  split
  · simp only [bare_mapCount, bare_setNext, bare_setPrev]
  · simp only [bare_mapCount, bare_setBitmap, bare_setCircle, bare_setNext, bare_setPrev]

@[simp] theorem bare_pushList (w : WaitList) : (s.pushList a w).bare = s.bare := by
  unfold pushList
  dsimp only
  split <;> simp only [bare_setHead, bare_setNext, bare_setPrev]

@[simp] theorem bare_unlinkList (w : WaitList) : (s.unlinkList a w).bare = s.bare := by
  unfold unlinkList
  dsimp only
  split
  · split <;> simp only [bare_setHead, bare_setPrev]
  · split <;> simp only [bare_setNext, bare_setPrev]

end Kernel

end RexOS.Scheduler
