import Mathlib.Data.List.Basic
import Mathlib.Data.List.Nodup
import Mathlib.Logic.Function.Iterate

/-!
# Doubly linked lists threaded through two link functions

A list is stored by a head, a `next` and a `prev` function and a sentinel that
stands for "no node". `Seg` spells the nodes out from a given start and `Dll` is
a whole list, without repetition. The two edits an intrusive list knows, pushing
a node at the head and unlinking one anywhere, are stated pointwise, so any
state whose link functions satisfy the equations may use them.
-/

namespace Dll

variable {ι : Type*}

/-- From `h`, whose predecessor is `p`, the links spell `xs` and end in `nil`. -/
def Seg (next prev : ι → ι) (nil : ι) : ι → ι → List ι → Prop
  | _, h, [] => h = nil
  | p, h, x :: xs => h = x ∧ x ≠ nil ∧ prev x = p ∧ Seg next prev nil x (next x) xs

variable {next prev next' prev' : ι → ι} {nil p h x : ι} {xs ys l r : List ι}

@[simp] theorem seg_nil : Seg next prev nil p h [] ↔ h = nil := Iff.rfl

/-- The start of a segment is its first node, or the sentinel. -/
theorem Seg.head_eq (hs : Seg next prev nil p h xs) : h = xs.head?.getD nil := by
  cases xs with
  | nil => exact hs
  | cons x xs => exact hs.1

/-- Every node is reached from the first one. -/
theorem Seg.exists_iterate {x : ι} (hs : Seg next prev nil p h xs) (hx : x ∈ xs) :
    ∃ n, next^[n] h = x := by
  induction xs generalizing p h with
  | nil => exact absurd hx List.not_mem_nil
  | cons y ys ih =>
    obtain ⟨rfl, -, -, hs⟩ := hs
    rcases List.mem_cons.mp hx with rfl | hx
    · exact ⟨0, rfl⟩
    · obtain ⟨n, hn⟩ := ih hs hx
      exact ⟨n + 1, hn⟩

/-- Following the links up to the sentinel lists the nodes. -/
theorem Seg.takeWhile_iterate [DecidableEq ι] {n : Nat} (hs : Seg next prev nil p h xs)
    (hn : xs.length ≤ n) :
    (List.iterate next h n).takeWhile (· ≠ nil) = xs := by
  induction xs generalizing p h n with
  | nil =>
    obtain rfl : h = nil := hs
    cases n with
    | zero => rfl
    | succ n => exact List.takeWhile_cons_of_neg (by simp)
  | cons x xs ih =>
    obtain ⟨rfl, hx, -, hs⟩ := hs
    cases n with
    | zero => exact absurd hn (by simp)
    | succ n =>
      rw [List.iterate, List.takeWhile_cons_of_pos (by simpa using hx),
        ih hs (Nat.le_of_succ_le_succ hn)]

/-- No member of a segment is null. -/
theorem Seg.ne_nil (hs : Seg next prev nil p h xs) : ∀ y ∈ xs, y ≠ nil := by
  induction xs generalizing p h with
  | nil => simp
  | cons x xs ih =>
    intro y hy
    rcases List.mem_cons.mp hy with rfl | hy
    · exact hs.2.1
    · exact ih hs.2.2.2 y hy

/-- A segment reads only the links of its own nodes. -/
theorem Seg.congr (hs : Seg next prev nil p h xs) (hn : ∀ y ∈ xs, next' y = next y)
    (hp : ∀ y ∈ xs, prev' y = prev y) : Seg next' prev' nil p h xs := by
  induction xs generalizing p h with
  | nil => exact hs
  | cons x xs ih =>
    obtain ⟨rfl, hx, hpx, ht⟩ := hs
    refine ⟨rfl, hx, (hp _ List.mem_cons_self).trans hpx, ?_⟩
    rw [hn _ List.mem_cons_self]
    exact ih ht (fun y hy => hn y (List.mem_cons_of_mem _ hy))
      (fun y hy => hp y (List.mem_cons_of_mem _ hy))

/-- Two readings of one segment agree. -/
theorem Seg.unique (hs : Seg next prev nil p h xs) (hs' : Seg next prev nil p h ys) :
    xs = ys := by
  induction xs generalizing p h ys with
  | nil =>
    cases ys with
    | nil => rfl
    | cons y ys => exact absurd (hs'.1.symm.trans hs) hs'.2.1
  | cons x xs ih =>
    cases ys with
    | nil => exact absurd (hs.1.symm.trans hs') hs.2.1
    | cons y ys =>
      obtain ⟨rfl, _, _, ht⟩ := hs
      obtain ⟨rfl, _, _, ht'⟩ := hs'
      rw [ih ht ht']

/-- Around a node: its predecessor ends the part before it, its successor starts the rest. -/
theorem Seg.around (hs : Seg next prev nil p h (l ++ x :: r)) :
    prev x = l.getLast?.getD p ∧ next x = r.head?.getD nil := by
  induction l generalizing p h with
  | nil => exact ⟨hs.2.2.1, Seg.head_eq hs.2.2.2⟩
  | cons a l ih =>
    obtain ⟨h1, h2⟩ := ih hs.2.2.2
    refine ⟨h1.trans ?_, h2⟩
    rw [List.getLast?_cons, Option.getD_some]

/-- Unlinking a node: its two neighbours are joined and every other link is kept. -/
theorem Seg.unlink [DecidableEq ι] (hs : Seg next prev nil p h (l ++ x :: r))
    (hd : (p :: (l ++ x :: r)).Nodup)
    (hn : ∀ y ∈ l ++ r, next' y = if y = prev x then next x else next y)
    (hp : ∀ y ∈ l ++ r, prev' y = if y = next x then prev x else prev y) :
    Seg next' prev' nil p (if l = [] then next x else h) (l ++ r) := by
  induction l generalizing p h with
  | nil =>
    obtain ⟨rfl, hx, hpx, ht⟩ := hs
    simp only [List.nil_append, ite_true] at hn hp ⊢
    have hpn : p ∉ r := fun hm => (List.nodup_cons.mp hd).1 (List.mem_cons_of_mem _ hm)
    cases r with
    | nil => exact ht
    | cons y r =>
      obtain ⟨hy, hyn, hpy, htl⟩ := ht
      have hnd : (y :: r).Nodup := (List.nodup_cons.mp (List.nodup_cons.mp hd).2).2
      refine ⟨hy, hyn, ?_, ?_⟩
      · rw [hp y List.mem_cons_self, if_pos hy.symm, hpx]
      · rw [hn y List.mem_cons_self, if_neg fun he => hpn (by rw [← hpx, ← he]; simp)]
        refine Seg.congr htl (fun z hz => ?_) (fun z hz => ?_)
        · rw [hn z (List.mem_cons_of_mem _ hz), if_neg]
          exact fun he => hpn (by rw [← hpx, ← he]; exact List.mem_cons_of_mem _ hz)
        · rw [hp z (List.mem_cons_of_mem _ hz), if_neg]
          exact fun he => (List.nodup_cons.mp hnd).1 (hy ▸ he ▸ hz)
  | cons a l ih =>
    obtain ⟨rfl, ha, hpa, ht⟩ := hs
    have hnd := (List.nodup_cons.mp hd).2
    have htail := ih ht hnd (fun y hy => hn y (List.mem_cons_of_mem _ hy))
      (fun y hy => hp y (List.mem_cons_of_mem _ hy))
    obtain ⟨hpx, hnx⟩ := Seg.around ht
    have haN : h ∉ l ++ x :: r := (List.nodup_cons.mp hnd).1
    refine ⟨by simp, ha, ?_, ?_⟩
    · rw [hp h List.mem_cons_self, if_neg, hpa]
      intro he
      rw [hnx] at he
      cases r with
      | nil => exact ha he
      | cons z r => exact haN (by simp at he; simp [he])
    · rw [hn h List.mem_cons_self]
      cases l with
      | nil =>
        simp only [List.getLast?_nil, Option.getD_none] at hpx
        simpa [hpx] using htail
      | cons b l =>
        rw [if_neg]
        · simpa using htail
        · intro he
          have hm : prev x ∈ b :: l := by
            rw [hpx, List.getLast?_eq_getLast_of_ne_nil (List.cons_ne_nil _ _)]
            exact List.getLast_mem _
          exact haN (he ▸ List.mem_append_left _ hm)

end Dll

/-- A whole list: no predecessor at the head, no successor at the end, no repetition. -/
structure Dll {ι : Type*} (next prev : ι → ι) (nil head : ι) (xs : List ι) : Prop where
  seg : Dll.Seg next prev nil nil head xs
  nodup : xs.Nodup

namespace Dll

variable {ι : Type*} {next prev next' prev' : ι → ι} {nil head head' x y : ι} {xs : List ι}

/-- The empty list is the sentinel alone. -/
theorem empty : Dll next prev nil nil [] := ⟨rfl, List.nodup_nil⟩

/-- No member of a list is. -/
theorem ne_nil (hd : Dll next prev nil head xs) : ∀ y ∈ xs, y ≠ nil := hd.seg.ne_nil

/-- A list without a head is empty. -/
theorem head_eq_nil_iff (hd : Dll next prev nil head xs) : head = nil ↔ xs = [] := by
  cases xs with
  | nil => simpa using hd.seg
  | cons x xs => simpa using hd.seg.1 ▸ hd.seg.2.1

/-- A non-empty list is its head followed by the rest. -/
theorem exists_cons (hd : Dll next prev nil head xs) (h : head ≠ nil) :
    ∃ ys, xs = head :: ys := by
  cases xs with
  | nil => exact absurd hd.seg h
  | cons x xs => exact ⟨xs, by rw [hd.seg.1]⟩

/-- The links and the head determine the list. -/
theorem unique {ys : List ι} (hd : Dll next prev nil head xs) (hd' : Dll next prev nil head ys) :
    xs = ys := hd.seg.unique hd'.seg

/-- A list survives any change that leaves its own links alone. -/
theorem congr (hd : Dll next prev nil head xs) (hn : ∀ y ∈ xs, next' y = next y)
    (hp : ∀ y ∈ xs, prev' y = prev y) : Dll next' prev' nil head xs :=
  ⟨hd.seg.congr hn hp, hd.nodup⟩

/-- The nodes of a list say what its links are. -/
theorem links_eq (hd : Dll next prev nil head xs) {head' : ι}
    (hd' : Dll next' prev' nil head' xs) (hx : x ∈ xs) : next' x = next x ∧ prev' x = prev x := by
  obtain ⟨l, r, rfl⟩ := List.append_of_mem hx
  obtain ⟨h1, h2⟩ := hd.seg.around
  obtain ⟨h1', h2'⟩ := hd'.seg.around
  exact ⟨h2'.trans h2.symm, h1'.trans h1.symm⟩

/-- The node that `prev` names is a member, unless there is none. -/
theorem prev_mem (hd : Dll next prev nil head xs) (hx : x ∈ xs) (h : prev x ≠ nil) :
    prev x ∈ xs := by
  obtain ⟨l, r, rfl⟩ := List.append_of_mem hx
  have hp := hd.seg.around.1
  cases hl : l.getLast? with
  | none => simp [hl] at hp; exact absurd hp h
  | some a =>
    rw [hl, Option.getD_some] at hp
    exact hp ▸ List.mem_append_left _ (List.mem_of_getLast? hl)

/-- The node that `next` names is a member, unless there is none. -/
theorem next_mem (hd : Dll next prev nil head xs) (hx : x ∈ xs) (h : next x ≠ nil) :
    next x ∈ xs := by
  obtain ⟨l, r, rfl⟩ := List.append_of_mem hx
  have hn := hd.seg.around.2
  cases hr : r.head? with
  | none => simp [hr] at hn; exact absurd hn h
  | some a =>
    rw [hr, Option.getD_some] at hn
    exact hn ▸ List.mem_append_right _ (List.mem_cons_of_mem _ (List.mem_of_head? hr))

/-- Exactly the head has no predecessor. -/
theorem prev_eq_nil_iff (hd : Dll next prev nil head xs) (hx : x ∈ xs) :
    prev x = nil ↔ x = head := by
  obtain ⟨l, r, rfl⟩ := List.append_of_mem hx
  have hp := hd.seg.around.1
  cases l with
  | nil => simpa [hp] using hd.seg.1.symm
  | cons a l =>
    have ha : head = a := hd.seg.1
    have hne : x ≠ a := fun he =>
      (List.nodup_cons.mp hd.nodup).1 (he ▸ List.mem_append_right _ List.mem_cons_self)
    have hm : prev x ∈ a :: l := by
      rw [hp, List.getLast?_eq_getLast_of_ne_nil (List.cons_ne_nil _ _)]
      exact List.getLast_mem _
    simp only [ha, hne, iff_false]
    exact hd.ne_nil _ (List.mem_append_left _ hm)

/-- A member is the next one of the one before. -/
theorem next_prev (hd : Dll next prev nil head xs) (hx : x ∈ xs) (h : prev x ≠ nil) :
    next (prev x) = x := by
  obtain ⟨l, r, rfl⟩ := List.append_of_mem hx
  have hp := hd.seg.around.1
  cases hl : l.getLast? with
  | none => simp [hl] at hp; exact absurd hp h
  | some a =>
    obtain ⟨l', rfl⟩ := List.getLast?_eq_some_iff.mp hl
    have hs := hd.seg
    rw [show (l' ++ [a]) ++ x :: r = l' ++ a :: x :: r by simp] at hs
    rw [hp, hl, Option.getD_some]
    simpa using hs.around.2

/-- No node precedes itself. -/
theorem prev_ne (hd : Dll next prev nil head xs) (hx : x ∈ xs) : prev x ≠ x := by
  obtain ⟨l, r, rfl⟩ := List.append_of_mem hx
  have hp := hd.seg.around.1
  intro he
  cases hl : l.getLast? with
  | none =>
    rw [hl, Option.getD_none, he] at hp
    exact hd.ne_nil x hx hp
  | some a =>
    rw [hl, Option.getD_some, he] at hp
    have hxl : x ∈ l := hp ▸ List.mem_of_getLast? hl
    exact (List.nodup_append.mp hd.nodup).2.2 x hxl x List.mem_cons_self rfl

variable [DecidableEq ι]

/-- Pushing a fresh node at the head. -/
theorem push (hd : Dll next prev nil head xs) (hx : x ∉ xs) (hxn : x ≠ nil)
    (hnx : next' x = head) (hpx : prev' x = nil)
    (hn : ∀ y ∈ xs, next' y = next y)
    (hp : ∀ y ∈ xs, prev' y = if y = head then x else prev y) :
    Dll next' prev' nil x (x :: xs) := by
  refine ⟨⟨rfl, hxn, hpx, ?_⟩, List.nodup_cons.mpr ⟨hx, hd.nodup⟩⟩
  rw [hnx]
  cases xs with
  | nil => exact hd.seg
  | cons y ys =>
    obtain ⟨rfl, hy, hpy, ht⟩ := hd.seg
    refine ⟨rfl, hy, by rw [hp _ List.mem_cons_self, if_pos rfl], ?_⟩
    rw [hn _ List.mem_cons_self]
    refine ht.congr (fun z hz => hn z (List.mem_cons_of_mem _ hz)) (fun z hz => ?_)
    rw [hp z (List.mem_cons_of_mem _ hz), if_neg]
    rintro rfl
    exact (List.nodup_cons.mp hd.nodup).1 hz

/-- Unlinking a member, whichever place it has in the list. -/
theorem unlink (hd : Dll next prev nil head xs) (hx : x ∈ xs)
    (hh : head' = if prev x = nil then next x else head)
    (hn : ∀ y ∈ xs.erase x, next' y = if y = prev x then next x else next y)
    (hp : ∀ y ∈ xs.erase x, prev' y = if y = next x then prev x else prev y) :
    Dll next' prev' nil head' (xs.erase x) := by
  obtain ⟨l, r, rfl⟩ := List.append_of_mem hx
  have hnd := hd.nodup
  have hxl : x ∉ l := fun hm =>
    (List.nodup_append.mp hnd).2.2 x hm x List.mem_cons_self rfl
  have he : (l ++ x :: r).erase x = l ++ r := by
    rw [List.erase_append_right _ hxl, List.erase_cons_head]
  rw [he] at hn hp ⊢
  have hhd : head' = if l = [] then next x else head := by
    rw [hh]
    refine if_congr ?_ rfl rfl
    rw [hd.prev_eq_nil_iff hx, hd.seg.head_eq]
    cases l with
    | nil => simp
    | cons a l => simpa using fun he : x = a => hxl (by simp [he])
  refine ⟨hhd ▸ hd.seg.unlink ?_ hn hp, he ▸ hnd.erase x⟩
  exact List.nodup_cons.mpr ⟨fun hm => hd.ne_nil _ hm rfl, hnd⟩

/-- Popping the head. -/
theorem pop (hd : Dll next prev nil head (head :: xs))
    (hn : ∀ y ∈ xs, next' y = next y)
    (hp : ∀ y ∈ xs, prev' y = if y = next head then nil else prev y) :
    Dll next' prev' nil (next head) xs := by
  have hph : prev head = nil := hd.seg.2.2.1
  have hu : Dll next' prev' nil (next head) ((head :: xs).erase head) :=
    hd.unlink List.mem_cons_self (by rw [if_pos hph]) ?_ ?_
  · simpa only [List.erase_cons_head] using hu
  · intro y hy
    rw [List.erase_cons_head] at hy
    rw [hph, if_neg (hd.ne_nil y (List.mem_cons_of_mem _ hy)), hn y hy]
  · intro y hy
    rw [List.erase_cons_head] at hy
    rw [hph, hp y hy]

end Dll

/-! ## Singly linked lists -/

/-- The links `next` lead from `head` through exactly `xs` to `nil`. -/
def Sll {ι : Type*} (next : ι → ι) (nil : ι) : ι → List ι → Prop
  | h, [] => h = nil
  | h, x :: xs => h = x ∧ x ≠ nil ∧ Sll next nil (next x) xs

namespace Sll

variable {ι : Type*} {next next' : ι → ι} {nil h x : ι} {xs : List ι}

/-- The head is the first member. -/
theorem head_eq (hs : Sll next nil h xs) : h = xs.headD nil := by
  cases xs with
  | nil => exact hs
  | cons x xs => exact hs.1

/-- A list reads only the links of its own nodes. -/
theorem congr (hs : Sll next nil h xs) (hn : ∀ y ∈ xs, next' y = next y) :
    Sll next' nil h xs := by
  induction xs generalizing h with
  | nil => exact hs
  | cons x xs ih =>
    obtain ⟨rfl, hx, ht⟩ := hs
    refine ⟨rfl, hx, ?_⟩
    rw [hn _ List.mem_cons_self]
    exact ih ht fun y hy => hn y (List.mem_cons_of_mem _ hy)

/-- Insertion at the head. -/
theorem push (hs : Sll next nil h xs) (hx : x ≠ nil) (hnx : next' x = h)
    (hn : ∀ y ∈ xs, next' y = next y) : Sll next' nil x (x :: xs) :=
  ⟨rfl, hx, hnx ▸ hs.congr hn⟩

end Sll
