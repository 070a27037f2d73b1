import RexOS.Core.LinkedList
import RexOS.Kalloc.Model

/-!
# The free lists as linked lists

`Lists s free` reads the twelve index-linked lists of a state as the lists `free k`.
The three edits of the allocator, head insertion, popping a head and unlinking a
buddy, are the edits of the linked-list library on these link fields; the other
fields of the page records stay as they are.
-/

namespace RexOS.Kalloc

/-- The link fields of a state. -/
def nextOf (s : State) (i : Nat) : Nat := (s.pageArray i).nextIdx
def prevOf (s : State) (i : Nat) : Nat := (s.pageArray i).prevIdx

/-- The free lists of `s` hold exactly `free`, and no page is on two of them. -/
structure Lists (s : State) (free : Nat → List Nat) : Prop where
  dll : ∀ k < maxOrder, Dll (nextOf s) (prevOf s) noIdx (s.freeLists k) (free k)
  apart : ∀ j < maxOrder, ∀ k < maxOrder, ∀ i, i ∈ free j → i ∈ free k → j = k

namespace State

variable (s : State) (k i j : Nat)

/-! ## What the edits do to a record -/

/-- The list begins with the block that goes on it. -/
@[simp] theorem pushFree_freeLists :
    (s.pushFree k i).freeLists = Function.update s.freeLists k i := by
  unfold pushFree
  dsimp only
  split <;> simp

/-- Head insertion writes the link fields of the new head and the back link of the old one. -/
theorem pushFree_page : (s.pushFree k i).pageArray j =
    if j = i then { s.pageArray j with nextIdx := s.freeLists k, prevIdx := noIdx }
    else if j = s.freeLists k ∧ j ≠ noIdx then { s.pageArray j with prevIdx := i }
    else s.pageArray j := by
  unfold pushFree
  dsimp only
  split <;> simp only [setPage_page, setHead_pageArray] <;> grind

@[simp] theorem pushFree_flag :
    ((s.pushFree k i).pageArray j).flag = (s.pageArray j).flag := by
  rw [pushFree_page]
  split <;> [rfl; split <;> rfl]

/-- The block and the old head are written. -/
theorem pushFree_written (h : j ∈ (s.pushFree k i).written) :
    j = i ∨ (j = s.freeLists k ∧ j ≠ noIdx) ∨ j ∈ s.written := by
  unfold pushFree at h
  dsimp only at h
  split at h <;> simp only [setPage_written, setHead_written, List.mem_cons] at h <;> grind

/-- The list begins with the next block. -/
@[simp] theorem popFree_freeLists :
    (s.popFree k i).freeLists = Function.update s.freeLists k (s.pageArray i).nextIdx := by
  unfold popFree
  dsimp only
  split <;> simp

/-- Popping a head clears the back link of the next one. -/
theorem popFree_page : (s.popFree k i).pageArray j =
    if j = (s.pageArray i).nextIdx ∧ j ≠ noIdx then { s.pageArray j with prevIdx := noIdx }
    else s.pageArray j := by
  unfold popFree
  dsimp only
  split <;> simp only [setPage_page, setHead_pageArray, setHead_freeLists,
    Function.update_self] at * <;> grind

@[simp] theorem popFree_flag :
    ((s.popFree k i).pageArray j).flag = (s.pageArray j).flag := by
  rw [popFree_page]
  split <;> rfl

/-- The next block is written. -/
theorem popFree_written (h : j ∈ (s.popFree k i).written) :
    (j = (s.pageArray i).nextIdx ∧ j ≠ noIdx) ∨ j ∈ s.written := by
  unfold popFree at h
  dsimp only at h
  split at h <;> simp only [setPage_written, setHead_written, setHead_freeLists,
    Function.update_self, List.mem_cons] at * <;> grind

/-- The record of an unlinked buddy is cleared. -/
theorem takeBuddy_self : (s.takeBuddy k i).pageArray i =
    { order := 0, flag := 2, nextIdx := noIdx, prevIdx := noIdx, allocCaller := 0 } := by
  simp [takeBuddy]

/-- Unlinking joins the two neighbours of a buddy that is not its own neighbour. -/
theorem takeBuddy_page (hp : prevOf s i ≠ i) (hj : j ≠ i) :
    (s.takeBuddy k i).pageArray j =
      { s.pageArray j with
        nextIdx := if j = prevOf s i ∧ j ≠ noIdx then nextOf s i else nextOf s j
        prevIdx := if j = nextOf s i ∧ j ≠ noIdx then prevOf s i else prevOf s j } := by
  unfold takeBuddy prevOf nextOf at *
  dsimp only
  rw [setPage_ne _ _ hj]
  split_ifs <;> simp_all [Ne.symm hp]

/-- The list begins where it did, unless the buddy was its head. -/
theorem takeBuddy_freeLists : (s.takeBuddy k i).freeLists =
    Function.update s.freeLists k (if prevOf s i = noIdx then nextOf s i else s.freeLists k) := by
  unfold takeBuddy prevOf nextOf at *
  dsimp only
  split_ifs <;> simp_all

/-- The buddy and its neighbours are written. -/
theorem takeBuddy_written (hp : prevOf s i ≠ i) (h : j ∈ (s.takeBuddy k i).written) :
    j = i ∨ (j = prevOf s i ∧ j ≠ noIdx) ∨ (j = nextOf s i ∧ j ≠ noIdx) ∨ j ∈ s.written := by
  unfold takeBuddy prevOf nextOf at *
  dsimp only at h
  split_ifs at h <;> simp_all [Ne.symm hp] <;> grind

end State

namespace Lists

variable {s t : State} {free : Nat → List Nat} {k i : Nat}

/-- Members of the lists are pages, never the end mark. -/
theorem ne_noIdx (h : Lists s free) (hk : k < maxOrder) (hi : i ∈ free k) : i ≠ noIdx :=
  (h.dll k hk).ne_nil i hi

/-- A state with the same heads and the same links on the members has the same lists. -/
theorem congr (h : Lists s free) (hf : ∀ k < maxOrder, t.freeLists k = s.freeLists k)
    (hl : ∀ k < maxOrder, ∀ j ∈ free k, nextOf t j = nextOf s j ∧ prevOf t j = prevOf s j) :
    Lists t free where
  dll k hk := by
    rw [hf k hk]
    exact (h.dll k hk).congr (fun y hy => (hl k hk y hy).1) (fun y hy => (hl k hk y hy).2)
  apart := h.apart

/-- A list that is not edited keeps its links. -/
private theorem other (h : Lists s free) {j : Nat} (hj : j < maxOrder)
    (hfl : t.freeLists j = s.freeLists j)
    (hl : ∀ y ∈ free j, nextOf t y = nextOf s y ∧ prevOf t y = prevOf s y) :
    Dll (nextOf t) (prevOf t) noIdx (t.freeLists j) (free j) := by
  rw [hfl]
  exact (h.dll j hj).congr (fun y hy => (hl y hy).1) (fun y hy => (hl y hy).2)

/-- A head is on its own list. -/
theorem head_mem (h : Lists s free) (hk : k < maxOrder) (hne : s.freeLists k ≠ noIdx) :
    s.freeLists k ∈ free k := by
  obtain ⟨ys, hys⟩ := (h.dll k hk).exists_cons hne
  rw [hys]
  exact List.mem_cons_self

/-- A list without a head is empty. -/
theorem head_eq_noIdx_iff (h : Lists s free) (hk : k < maxOrder) :
    s.freeLists k = noIdx ↔ free k = [] := (h.dll k hk).head_eq_nil_iff

/-- Head insertion of a page that is on no list. -/
theorem push (h : Lists s free) (hk : k < maxOrder) (hi : ∀ j < maxOrder, i ∉ free j)
    (hne : i ≠ noIdx) : Lists (s.pushFree k i) (Function.update free k (i :: free k)) where
  dll j hj := by
    by_cases hjk : j = k
    · subst hjk
      rw [Function.update_self, State.pushFree_freeLists, Function.update_self]
      refine (h.dll j hj).push (hi j hj) hne ?_ ?_ (fun y hy => ?_) (fun y hy => ?_)
      · simp [nextOf, State.pushFree_page]
      · simp [prevOf, State.pushFree_page]
      all_goals
        have hyi : y ≠ i := fun he => hi j hj (he ▸ hy)
        have hyn := h.ne_noIdx hj hy
        simp only [nextOf, prevOf, State.pushFree_page, hyi, if_false]
        split <;> simp_all
    · rw [Function.update_of_ne hjk]
      refine h.other hj (by simp [hjk]) fun y hy => ?_
      have hyi : y ≠ i := fun he => hi j hj (he ▸ hy)
      have hyh : ¬ (y = s.freeLists k ∧ y ≠ noIdx) := fun ⟨he, hyn⟩ =>
        hjk (h.apart j hj k hk y hy (he ▸ h.head_mem hk (he ▸ hyn)))
      simp only [nextOf, prevOf, State.pushFree_page, hyi, hyh, if_false, and_self]
  apart a ha b hb x hxa hxb := by
    have hmem : ∀ c < maxOrder, x ∈ Function.update free k (i :: free k) c →
        (c = k ∧ x = i) ∨ x ∈ free c := by
      intro c _ hx
      by_cases hck : c = k
      · subst hck
        rw [Function.update_self, List.mem_cons] at hx
        exact hx.imp (fun he => ⟨rfl, he⟩) id
      · rw [Function.update_of_ne hck] at hx
        exact Or.inr hx
    rcases hmem a ha hxa with ⟨hak, hxi⟩ | hxa <;> rcases hmem b hb hxb with ⟨hbk, hxj⟩ | hxb
    · exact hak.trans hbk.symm
    · exact absurd (hxi ▸ hxb) (hi b hb)
    · exact absurd (hxj ▸ hxa) (hi a ha)
    · exact h.apart a ha b hb x hxa hxb

/-- Taking members away from a list keeps the lists apart. -/
private theorem apart_update (h : Lists s free) {xs : List Nat} (hxs : ∀ x ∈ xs, x ∈ free k) :
    ∀ a < maxOrder, ∀ b < maxOrder, ∀ x, x ∈ Function.update free k xs a →
      x ∈ Function.update free k xs b → a = b := by
  have hmem : ∀ c x, x ∈ Function.update free k xs c → x ∈ free c := by
    intro c x hx
    by_cases hck : c = k
    · subst hck
      rw [Function.update_self] at hx
      exact hxs x hx
    · rwa [Function.update_of_ne hck] at hx
  exact fun a ha b hb x hxa hxb => h.apart a ha b hb x (hmem a x hxa) (hmem b x hxb)

/-- Popping the head of a list. -/
theorem pop (h : Lists s free) (hk : k < maxOrder) {rest : List Nat}
    (hf : free k = s.freeLists k :: rest) :
    Lists (s.popFree k (s.freeLists k)) (Function.update free k rest) where
  dll j hj := by
    by_cases hjk : j = k
    · subst hjk
      rw [Function.update_self, State.popFree_freeLists, Function.update_self]
      have hd := h.dll j hj
      rw [hf] at hd
      refine hd.pop (fun y hy => ?_) (fun y hy => ?_)
      all_goals
        have hyn := hd.ne_nil y (List.mem_cons_of_mem _ hy)
        simp only [nextOf, prevOf, State.popFree_page]
        split <;> simp_all
    · rw [Function.update_of_ne hjk]
      refine h.other hj (by simp [hjk]) fun y hy => ?_
      have hyh : ¬ (y = (s.pageArray (s.freeLists k)).nextIdx ∧ y ≠ noIdx) := by
        rintro ⟨he, hyn⟩
        have hm := (h.dll k hk).next_mem (x := s.freeLists k) (by simp [hf])
          (fun hc => hyn (he.trans hc))
        exact hjk (h.apart j hj k hk y hy (he ▸ hm))
      simp only [nextOf, prevOf, State.popFree_page, hyh, if_false, and_self]
  apart := h.apart_update fun x hx => by rw [hf]; exact List.mem_cons_of_mem _ hx

/-- A listed page is not its own predecessor. -/
theorem prev_ne_self (h : Lists s free) (hk : k < maxOrder) (hi : i ∈ free k) :
    prevOf s i ≠ i := by
  intro he
  have hd := h.dll k hk
  have hne := h.ne_noIdx hk hi
  have hnx := hd.next_prev hi (he.symm ▸ hne)
  obtain ⟨l, r, hl⟩ := List.append_of_mem hi
  have hs := hd.seg
  rw [hl] at hs
  have hnd := hd.nodup
  rw [hl] at hnd
  rw [he, hs.around.2] at hnx
  cases r with
  | nil => exact hne (by simpa using hnx.symm)
  | cons y r =>
    have : y = i := by simpa using hnx
    subst this
    exact (List.nodup_cons.mp (List.nodup_append.mp hnd).2.1).1 List.mem_cons_self

/-- Unlinking a page from the list it is on. -/
theorem take (h : Lists s free) (hk : k < maxOrder) (hi : i ∈ free k) :
    Lists (s.takeBuddy k i) (Function.update free k ((free k).erase i)) where
  dll j hj := by
    have hp := h.prev_ne_self hk hi
    have hd := h.dll k hk
    by_cases hjk : j = k
    · subst hjk
      rw [Function.update_self]
      refine hd.unlink hi ?_ (fun y hy => ?_) (fun y hy => ?_)
      · rw [State.takeBuddy_freeLists, Function.update_self]
      all_goals
        have hym := List.mem_of_mem_erase hy
        have hyi : y ≠ i := fun he => hd.nodup.not_mem_erase (he ▸ hy)
        have hyn := h.ne_noIdx hj hym
        simp only [nextOf, prevOf, State.takeBuddy_page s j i y hp hyi, hyn, ne_eq,
          not_false_eq_true, and_true]
        congr
    · rw [Function.update_of_ne hjk]
      refine h.other hj (by rw [State.takeBuddy_freeLists, Function.update_of_ne hjk])
        fun y hy => ?_
      have hyi : y ≠ i := fun he => hjk (h.apart j hj k hk y hy (he ▸ hi))
      have hyp : ¬ (y = prevOf s i ∧ y ≠ noIdx) := fun ⟨he, hyn⟩ =>
        hjk (h.apart j hj k hk y hy (he ▸ hd.prev_mem hi (he ▸ hyn)))
      have hyx : ¬ (y = nextOf s i ∧ y ≠ noIdx) := fun ⟨he, hyn⟩ =>
        hjk (h.apart j hj k hk y hy (he ▸ hd.next_mem hi (he ▸ hyn)))
      have hpage := State.takeBuddy_page s k i y hp hyi
      rw [if_neg hyp, if_neg hyx] at hpage
      exact ⟨congrArg Page.nextIdx hpage, congrArg Page.prevIdx hpage⟩
  apart := h.apart_update fun _ hx => List.mem_of_mem_erase hx

end Lists

end RexOS.Kalloc
