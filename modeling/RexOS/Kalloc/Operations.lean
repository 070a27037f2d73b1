import RexOS.Kalloc.Invariant

/-!
# What `kalloc` and `kfree` do to the blocks

One lemma for each loop and one for each routine, all in terms of the invariant. The
lists after an allocation are given exactly; after a free they are the old ones less
the buddies that were absorbed, with the merged block in front of its list.
-/

namespace RexOS.Kalloc

open Dyadic

variable {lo n : Nat} {s : State} {free : Nat → List Nat} {live : Set Block} {ram : Meta}

/-! ## Allocation -/

/-- The search stops at the first order with a non-empty list. -/
theorem search_eq_some {order k : Nat} :
    search s order = some k ↔ order ≤ k ∧ k < maxOrder ∧ s.freeLists k ≠ noIdx ∧
      ∀ j, order ≤ j → j < k → s.freeLists j = noIdx := by
  rw [search, List.find?_range'_eq_some]
  simp only [bne_iff_ne, ne_eq, List.mem_range'_1, Bool.not_eq_true', bne_eq_false_iff_eq]
  constructor
  · rintro ⟨h1, h2, h3⟩
    exact ⟨h2.1, by omega, h1, h3⟩
  · rintro ⟨h1, h2, h3, h4⟩
    exact ⟨h3, ⟨h1, by omega⟩, h4⟩

/-- The search fails when every list from the order on is empty. -/
theorem search_eq_none {order : Nat} :
    search s order = none ↔ ∀ k, order ≤ k → k < maxOrder → s.freeLists k = noIdx := by
  rw [search, List.find?_eq_none]
  simp only [List.mem_range'_1, bne_iff_ne, ne_eq, not_not]
  exact ⟨fun h k h1 h2 => h k ⟨h1, by omega⟩, fun h k hk => h k hk.1 (by omega)⟩

/-- The search seen from the lists. -/
theorem search_of_lists {order k i : Nat} {rest : List Nat} (h : Lists s free)
    (hk : k < maxOrder) (hok : order ≤ k) (hfree : free k = i :: rest)
    (hlow : ∀ j, order ≤ j → j < k → free j = []) : search s order = some k := by
  refine search_eq_some.mpr ⟨hok, hk, fun he => ?_, fun j h1 h2 => ?_⟩
  · have := (h.head_eq_noIdx_iff hk).mp he
    rw [hfree] at this
    exact List.cons_ne_nil _ _ this
  · exact (h.head_eq_noIdx_iff (by omega)).mpr (hlow j h1 h2)

/-- The lists after the upper halves from order `order + d` down to `order` were freed. -/
def splitLists (free : Nat → List Nat) (idx order : Nat) : Nat → Nat → List Nat
  | 0 => free
  | d + 1 => splitLists (Function.update free (order + d)
      ((idx + 2 ^ (order + d)) :: free (order + d))) idx order d

/-- Splitting puts one block on each list in between. -/
theorem splitLists_apply (free : Nat → List Nat) (idx order d j : Nat) :
    splitLists free idx order d j =
      if order ≤ j ∧ j < order + d then (idx + 2 ^ j) :: free j else free j := by
  induction d generalizing free with
  | zero => rw [splitLists, if_neg (by omega)]
  | succ d ih =>
    rw [splitLists, ih]
    by_cases hj : j = order + d
    · subst hj
      simp
    · rw [Function.update_of_ne hj]
      exact if_congr (by omega) rfl rfl

/-- The split loop, with the block being split in the hand. -/
theorem splitDown_inv {idx order d : Nat} (h : Inv lo n s free live {⟨idx, order + d⟩})
    (hn : n ≤ noIdx) :
    Inv lo n (splitDown s idx order d) (splitLists free idx order d) live {⟨idx, order⟩} := by
  induction d generalizing s free with
  | zero => exact h
  | succ d ih =>
    rw [splitDown, splitLists, Nat.one_shiftLeft]
    exact ih (h.splitOne hn)

/-- The split loop marks pages free and leaves every other flag alone. -/
theorem splitDown_flag (s : State) (idx order d x : Nat) :
    ((splitDown s idx order d).pageArray x).flag = (s.pageArray x).flag ∨
      ((splitDown s idx order d).pageArray x).flag = 0 := by
  induction d generalizing s with
  | zero => exact Or.inl rfl
  | succ d ih =>
    rw [splitDown]
    rcases ih ((s.setPage (idx + 1 <<< (order + d)) fun p =>
      { p with order := order + d, flag := 0 }).pushFree (order + d)
        (idx + 1 <<< (order + d))) with he | he
    · rw [he, State.pushFree_flag, State.setPage_page]
      split
      · exact Or.inr rfl
      · exact Or.inl rfl
    · exact Or.inr he

/-- The lists after an allocation that took the head `idx` of list `k`. -/
def allocLists (free : Nat → List Nat) (idx order k : Nat) (rest : List Nat) (j : Nat) : List Nat :=
  if j = k then rest else if order ≤ j ∧ j < k then [idx + 2 ^ j] else free j

/-- A successful `kalloc`: it takes the head of the first non-empty list and frees the
upper halves down to the order asked for. -/
theorem kalloc_of_search (ram : Meta) {order k : Nat} (caller : Nat) (h : Inv lo n s free live ∅)
    (hn : n ≤ noIdx) (hk : search s order = some k) :
    ∃ rest t, kalloc ram s order caller =
        .done (Bits.wrap (ram.baseAddr + s.freeLists k * 4096)) t ∧
      free k = s.freeLists k :: rest ∧ (∀ j, order ≤ j → j < k → free j = []) ∧
      (∀ x, (t.pageArray x).flag = 1 → x = s.freeLists k ∨ (s.pageArray x).flag = 1) ∧
      Inv lo n t (allocLists free (s.freeLists k) order k rest)
        (insert ⟨s.freeLists k, order⟩ live) ∅ := by
  obtain ⟨hok, hkm, hne, hfirst⟩ := search_eq_some.mp hk
  obtain ⟨rest, hrest, hpop⟩ := h.pop hkm hne
  have hempty : ∀ j, order ≤ j → j < k → free j = [] := fun j h1 h2 =>
    (h.lists.head_eq_noIdx_iff (by omega)).mp (hfirst j h1 h2)
  have hd : order + (k - order) = k := by omega
  have hpop' : Inv lo n (s.popFree k (s.freeLists k)) (Function.update free k rest) live
      {⟨s.freeLists k, order + (k - order)⟩} := by rwa [hd]
  have hsplit := splitDown_inv hpop' hn
  refine ⟨rest, (splitDown (s.popFree k (s.freeLists k)) (s.freeLists k) order
    (k - order)).setPage (s.freeLists k) fun _ =>
      { order := order, flag := 1, nextIdx := noIdx, prevIdx := noIdx, allocCaller := caller },
    ?_, hrest, hempty, fun x hx => ?_, ?_⟩
  · rw [kalloc, if_neg (by omega), hk]
  · rw [State.setPage_page] at hx
    by_cases hxi : x = s.freeLists k
    · exact Or.inl hxi
    · rw [if_neg hxi] at hx
      rcases splitDown_flag (s.popFree k (s.freeLists k)) (s.freeLists k) order (k - order) x
        with he | he
      · rw [he, State.popFree_flag] at hx
        exact Or.inr hx
      · omega
  · have hlists : splitLists (Function.update free k rest) (s.freeLists k) order (k - order) =
        allocLists free (s.freeLists k) order k rest := by
      funext j
      rw [splitLists_apply, allocLists, hd]
      by_cases hjk : j = k
      · subst hjk
        simp
      · rw [if_neg hjk, Function.update_of_ne hjk]
        split
        · rw [hempty j (by omega) (by omega)]
        · rfl
    rw [hlists] at hsplit
    exact hsplit.handOut fun p => ⟨rfl, rfl⟩

/-- `kalloc` stops with 101 exactly when every list from the order on is empty. -/
theorem kalloc_of_empty {order caller : Nat} (ho : order < maxOrder)
    (hk : search s order = none) : kalloc ram s order caller = .panic 101 0 s := by
  rw [kalloc, if_neg (by omega), hk]

/-! ## Freeing -/

/-- Page `x` starts a free block of order `k`. -/
def FreeAt (s : State) (n x k : Nat) : Prop :=
  x < n ∧ (s.pageArray x).flag = 0 ∧ (s.pageArray x).order = k

instance (s : State) (n x k : Nat) : Decidable (FreeAt s n x k) := by
  unfold FreeAt
  infer_instance

/-- Freeing the block at `i` of order `k` merges it downwards: going up from order `k` its
upper buddies are free until, at a set bit `j` of `i`, its lower buddy is free too. -/
def MovesDown (s : State) (n i k : Nat) : Prop :=
  ∃ j < maxOrder - 1, k ≤ j ∧ (∀ m < j, k ≤ m → i.testBit m = false ∧ FreeAt s n (i + 2 ^ m) m) ∧
    i.testBit j = true ∧ FreeAt s n (i - 2 ^ j) j

instance (s : State) (n i k : Nat) : Decidable (MovesDown s n i k) := by
  unfold MovesDown
  infer_instance

/-- What the merge loop leaves: the block in the hand has grown, buddies were taken off
their lists, and the loop has stopped for a reason. -/
structure Coalesced (lo n : Nat) (s : State) (free : Nat → List Nat) (live : Set Block)
    (i k : Nat) (t : State) (free' : Nat → List Nat) (i' k' : Nat) : Prop where
  inv : Inv lo n t free' live {⟨i', k'⟩}
  sub : ∀ j, ∀ x ∈ free' j, x ∈ free j
  aligned : Block.Aligned ⟨i, k⟩ → Block.Aligned ⟨i', k'⟩
  flags : ∀ x, (t.pageArray x).flag = (s.pageArray x).flag ∨
    (s.pageArray x).flag = 0 ∧ (t.pageArray x).flag = 2
  stop : k' = maxOrder - 1 ∨ ¬ FreeAt t n (i' ^^^ 2 ^ k') k'
  le : i' ≤ i
  down : i' ≠ i ↔ MovesDown s n i k

/-- A buddy that is not free stops every downward move. -/
private theorem not_movesDown {i k : Nat} (hf : ¬ FreeAt s n (i ^^^ 2 ^ k) k) :
    ¬ MovesDown s n i k := by
  rintro ⟨j, _, hkj, hup, hbit, hfree⟩
  rw [Bits.xor_two_pow] at hf
  rcases Nat.eq_or_lt_of_le hkj with rfl | hlt
  · rw [if_pos hbit] at hf
    exact hf hfree
  · obtain ⟨hclear, hfk⟩ := hup k hlt le_rfl
    rw [if_neg (by simp [hclear])] at hf
    exact hf hfk

/-- Absorbing an upper buddy does not change the question for the next order. -/
private theorem movesDown_take {i k : Nat} (hbit : i.testBit k = false)
    (hf : FreeAt s n (i + 2 ^ k) k)
    (hsame : ∀ x, x ≠ i + 2 ^ k → ∀ m, FreeAt (s.takeBuddy k (i + 2 ^ k)) n x m ↔ FreeAt s n x m) :
    MovesDown (s.takeBuddy k (i + 2 ^ k)) n i (k + 1) ↔ MovesDown s n i k := by
  have hne : ∀ m, k < m → i + 2 ^ m ≠ i + 2 ^ k := fun m hm he =>
    absurd (Nat.pow_lt_pow_right (by decide : 1 < 2) hm) (by omega)
  have hne' : ∀ j, i - 2 ^ j ≠ i + 2 ^ k := fun j => ne_of_lt
    ((Nat.sub_le _ _).trans_lt (Nat.lt_add_of_pos_right (Nat.two_pow_pos k)))
  constructor
  · rintro ⟨j, hj, hkj, hup, hb, hfree⟩
    refine ⟨j, hj, by omega, fun m hm hkm => ?_, hb, (hsame _ (hne' j) j).mp hfree⟩
    rcases Nat.eq_or_lt_of_le hkm with rfl | hlt
    · exact ⟨hbit, hf⟩
    · exact ⟨(hup m hm hlt).1, (hsame _ (hne m hlt) m).mp (hup m hm hlt).2⟩
  · rintro ⟨j, hj, hkj, hup, hb, hfree⟩
    have hkj' : k < j := lt_of_le_of_ne hkj (by rintro rfl; simp [hbit] at hb)
    refine ⟨j, hj, hkj', fun m hm hkm => ?_, hb, (hsame _ (hne' j) j).mpr hfree⟩
    obtain ⟨h1, h2⟩ := hup m hm (by omega)
    exact ⟨h1, (hsame _ (hne m hkm) m).mpr h2⟩

/-- The merge loop. -/
theorem coalesce_spec {i k d : Nat} (h : Inv lo n s free live {⟨i, k⟩})
    (hflag : (s.pageArray i).flag ≠ 0) (hd : k + d = maxOrder - 1) :
    ∃ t free' i' k', coalesce n d s i k = (t, i', k') ∧
      Coalesced lo n s free live i k t free' i' k' := by
  induction d generalizing s free i k with
  | zero =>
    refine ⟨s, free, i, k, rfl, h, fun _ _ hx => hx, id, fun _ => Or.inl rfl, Or.inl (by omega),
      le_rfl, ?_⟩
    simp only [ne_eq, not_true_eq_false, false_iff]
    rintro ⟨j, hj, hkj, _⟩
    omega
  | succ d ih =>
    have hk : k + 1 < maxOrder := by omega
    by_cases hf : FreeAt s n (i ^^^ 2 ^ k) k
    · obtain ⟨hbn, hb0, hbk⟩ := hf
      obtain ⟨hbfree, hinv, hflag'⟩ := h.mergeOne hk hflag hbn hb0 hbk
      obtain ⟨t, free', i', k', hrun, hc⟩ := ih hinv hflag' (by omega)
      have hp := h.lists.prev_ne_self (Nat.lt_of_succ_lt hk) hbfree
      have hsame : ∀ x, x ≠ i ^^^ 2 ^ k → ∀ m,
          FreeAt (s.takeBuddy k (i ^^^ 2 ^ k)) n x m ↔ FreeAt s n x m := by
        intro x hx m
        unfold FreeAt
        rw [State.takeBuddy_page s k _ x hp hx]
      refine ⟨t, free', i', k', ?_, hc.inv, fun j x hx => ?_, fun ha => ?_, fun x => ?_, hc.stop,
        hc.le.trans (Bits.andNot_le _ _), ?_⟩
      · rw [coalesce, Nat.one_shiftLeft]
        simp only [ge_iff_le, Nat.not_le.mpr hbn, hb0, hbk, ne_eq, not_true_eq_false, if_false]
        exact hrun
      · have hx' := hc.sub j x hx
        by_cases hjk : j = k
        · subst hjk
          rw [Function.update_self] at hx'
          exact List.mem_of_mem_erase hx'
        · rwa [Function.update_of_ne hjk] at hx'
      · refine hc.aligned ?_
        rw [Bits.andNot_two_pow]
        by_cases hb : i.testBit k
        · rw [if_pos hb]
          obtain ⟨q, hq⟩ := ha
          simp only at hq
          have hodd : q % 2 = 1 := by
            rw [hq, Nat.mul_comm, Nat.testBit_mul_two_pow] at hb
            simpa using hb
          refine ⟨q / 2, ?_⟩
          have hqq : q = 2 * (q / 2) + 1 := by omega
          simp only
          rw [hq, pow_succ]
          conv_lhs => rw [hqq, Nat.mul_add, Nat.mul_one, Nat.add_sub_cancel]
          rw [Nat.mul_assoc]
        · rw [if_neg hb]
          exact (Bits.dvd_succ_iff ha).mpr (by simpa using hb)
      · rcases eq_or_ne x (i ^^^ 2 ^ k) with rfl | hxb
        · refine Or.inr ⟨hb0, ?_⟩
          have h2 : ((s.takeBuddy k (i ^^^ 2 ^ k)).pageArray (i ^^^ 2 ^ k)).flag = 2 := by
            rw [State.takeBuddy_self]
          rcases hc.flags (i ^^^ 2 ^ k) with he | ⟨he, _⟩
          · exact he.trans h2
          · omega
        · have hx := hc.flags x
          rwa [State.takeBuddy_page s k _ x hp hxb] at hx
      · rw [Bits.andNot_two_pow, Bits.xor_two_pow] at *
        by_cases hb : i.testBit k
        · simp only [hb, if_true] at hc hbn hb0 hbk ⊢
          have hpow := Nat.ge_two_pow_of_testBit hb
          have hle := hc.le
          have hpos := Nat.two_pow_pos k
          refine iff_of_true (fun he => ?_)
            ⟨k, by omega, le_rfl, fun m h1 h2 => ?_, hb, hbn, hb0, hbk⟩
          · rw [he] at hle
            exact absurd (Nat.sub_lt_self hpos hpow) (Nat.not_lt.mpr hle)
          · exact absurd h1 (Nat.not_lt.mpr h2)
        · simp only [hb, Bool.false_eq_true, if_false] at hc hbn hb0 hbk hsame ⊢
          rw [hc.down]
          exact movesDown_take (by simpa using hb) ⟨hbn, hb0, hbk⟩ hsame
    · refine ⟨s, free, i, k, ?_, h, fun _ _ hx => hx, id, fun _ => Or.inl rfl, Or.inr hf,
        le_rfl, ?_⟩
      · rw [coalesce, Nat.one_shiftLeft]
        unfold FreeAt at hf
        by_cases h1 : i ^^^ 2 ^ k ≥ n
        · rw [if_pos h1]
        · by_cases h2 : (s.pageArray (i ^^^ 2 ^ k)).flag = 0
          · have h3 : (s.pageArray (i ^^^ 2 ^ k)).order ≠ k := fun h3 =>
              hf ⟨Nat.not_le.mp h1, h2, h3⟩
            simp only [h1, h2, h3, ne_eq, not_true_eq_false, not_false_eq_true, if_false, if_true]
          · simp only [h1, h2, ne_eq, not_false_eq_true, if_false, if_true]
      · exact iff_of_false (by simp) (not_movesDown hf)

end RexOS.Kalloc
