import RexOS.Kalloc.Ledger

/-!
# Alignment and eager merging

On a machine whose RAM starts and ends on multiples of 8 MiB every block starts at a
multiple of its size, and no two free blocks of one order are buddies: the merge loop
stops only where the buddy is not free as a whole. The free blocks are then the largest
aligned blocks the free pages admit.
-/

namespace RexOS.Kalloc

open Dyadic Bits

/-- RAM that starts on a multiple of 8 MiB and is a multiple of 8 MiB long. -/
structure BlockAligned (ram : Meta) : Prop where
  base : 8388608 ∣ ram.baseAddr
  size : 8388608 ∣ ram.totalSize

/-- RAM that is whole blocks ends with one. -/
theorem BlockAligned.end_aligned {ram : Meta} (h : BlockAligned ram) : EndAligned ram :=
  Nat.dvd_add h.base h.size

/-- `Sound`, with aligned blocks and no free buddies. -/
structure Tidy (ram : Meta) (bssEnd : Nat) (c : Config) (free : Nat → List Nat) : Prop
    extends Sound ram bssEnd c free where
  freeAligned : ∀ k < maxOrder, ∀ i ∈ free k, 2 ^ k ∣ i
  liveAligned : ∀ g ∈ c.live, 2 ^ g.order ∣ pageIndex ram g.addr
  canonical : ∀ k < maxOrder - 1, ∀ i ∈ free k, ∀ j ∈ free k, i ^^^ j ≠ 2 ^ k

variable {ram : Meta} {bssEnd : Nat} {c d : Config} {free : Nat → List Nat}

/-- What is on a list after an allocation was there before or is an upper half. -/
theorem mem_allocLists {idx order k j x : Nat} {rest : List Nat} (hfree : free k = idx :: rest)
    (hx : x ∈ allocLists free idx order k rest j) :
    x ∈ free j ∨ (order ≤ j ∧ j < k ∧ allocLists free idx order k rest j = [idx + 2 ^ j]) := by
  unfold allocLists at *
  by_cases hjk : j = k
  · subst hjk
    rw [if_pos rfl] at hx
    exact Or.inl (hfree ▸ List.mem_cons_of_mem _ hx)
  · rw [if_neg hjk] at hx ⊢
    split at hx
    · exact Or.inr ⟨by omega, by omega, if_pos (by assumption)⟩
    · exact Or.inl hx

namespace Tidy

/-- The lists after a `kalloc` stay aligned and canonical. -/
private theorem allocLists_tidy (order : Nat) (h : Tidy ram bssEnd c free) {idx k : Nat}
    {rest : List Nat} (hfree : free k = idx :: rest) (hk : k < maxOrder) :
    (∀ j < maxOrder, ∀ i ∈ allocLists free idx order k rest j, 2 ^ j ∣ i) ∧
      ∀ m < maxOrder - 1, ∀ i ∈ allocLists free idx order k rest m,
        ∀ j ∈ allocLists free idx order k rest m, i ^^^ j ≠ 2 ^ m := by
  have hidx : 2 ^ k ∣ idx := h.freeAligned k hk idx (hfree ▸ List.mem_cons_self)
  constructor
  · intro j hj i hi
    rcases mem_allocLists hfree hi with hi | ⟨_, hjk, he⟩
    · exact h.freeAligned j hj i hi
    · rw [he, List.mem_singleton] at hi
      exact hi ▸ Nat.dvd_add ((pow_dvd_pow 2 hjk.le).trans hidx) (Nat.dvd_refl _)
  · intro m hm i hi j hj
    rcases mem_allocLists hfree hi with hi' | ⟨_, _, he⟩
    · rcases mem_allocLists hfree hj with hj' | ⟨_, _, he⟩
      · exact h.canonical m hm i hi' j hj'
      · rw [he, List.mem_singleton] at hi hj
        exact hi ▸ hj ▸ xor_self_ne_two_pow j m
    · rw [he, List.mem_singleton] at hi hj
      exact hi ▸ hj ▸ xor_self_ne_two_pow j m

/-- `Sound.onAlloc` with alignment. -/
theorem onAlloc {order k : Nat} (caller : Nat) (hm : Machine ram bssEnd)
    (h : Tidy ram bssEnd c free) (hk : search c.mem order = some k) :
    ∃ idx rest t, free k = idx :: rest ∧
      kalloc ram c.mem order caller = .done (ram.baseAddr + idx * 4096) t ∧ 2 ^ order ∣ idx ∧
      Tidy ram bssEnd ⟨t, ⟨ram.baseAddr + idx * 4096, order⟩ :: c.live⟩
        (allocLists free idx order k rest) := by
  obtain ⟨idx, rest, t, _, hfree, hok, hkm, hrun, _, hnew⟩ :=
    h.toSound.onAlloc caller hm hk
  have hin : idx ∈ free k := hfree ▸ List.mem_cons_self
  have hdvd : 2 ^ order ∣ idx := (pow_dvd_pow 2 hok).trans (h.freeAligned k hkm idx hin)
  obtain ⟨hal, hcan⟩ := h.allocLists_tidy order hfree hkm
  refine ⟨idx, rest, t, hfree, hrun, hdvd, hnew, hal, fun g hg => ?_, hcan⟩
  rcases List.mem_cons.mp hg with rfl | hg
  · rw [pageIndex_addr hm (h.inv.listed_lt hkm hin).2]
    exact hdvd
  · exact h.liveAligned g hg

/-- The merged block is not the buddy of a block left on its list. -/
private theorem stop_not_listed {lo n : Nat} {s t : State} {free free' : Nat → List Nat}
    {live : Set Block} {i k i' k' y : Nat} (hc : Coalesced lo n s free live i k t free' i' k')
    (hk : k' < maxOrder - 1) (hy : y ∈ free' k') : i' ^^^ y ≠ 2 ^ k' := by
  intro he
  have hym : y = i' ^^^ 2 ^ k' := by rw [← he, ← Nat.xor_assoc, Nat.xor_self, Nat.zero_xor]
  have hkm : k' < maxOrder := Nat.lt_of_lt_pred hk
  have hlist := hc.inv.listed k' hkm y hy
  rcases hc.stop with hs | hs
  · omega
  · exact hs (hym ▸ ⟨(hc.inv.listed_lt hkm hy).2, hlist⟩)

/-- One call keeps the blocks aligned and the free blocks canonical. -/
theorem onStep (op : Op) (hm : Machine ram bssEnd) (h : Tidy ram bssEnd c free)
    (hop : FreesLive c op) (hs : step ram c op = some d) : ∃ free', Tidy ram bssEnd d free' := by
  obtain ⟨t, live⟩ := d
  cases op with
  | alloc order caller =>
    obtain ⟨addr, hrun, rfl⟩ := step_alloc.mp hs
    obtain ⟨k, hk⟩ := Sound.search_of_kalloc hrun
    obtain ⟨idx, rest, t', _, hrun', _, hnew⟩ := h.onAlloc caller hm hk
    obtain ⟨rfl, rfl⟩ := Outcome.done.inj (hrun'.symm.trans hrun)
    exact ⟨_, hnew⟩
  | free physAddr =>
    obtain ⟨hrun, rfl⟩ := step_free.mp hs
    obtain ⟨g, hg, rfl⟩ := hop
    obtain ⟨t', free', i', k', hrun', hc, hnew⟩ := h.onFree hm hg
    obtain ⟨_, rfl⟩ := Outcome.done.inj (hrun'.symm.trans hrun)
    refine ⟨_, hnew, fun j hj x hx => ?_, fun x hx => h.liveAligned x (List.mem_filter.mp hx).1,
      fun m hm' x hx y hy => ?_⟩
    · by_cases hjk : j = k'
      · subst hjk
        rw [Function.update_self] at hx
        rcases List.mem_cons.mp hx with rfl | hx
        · exact hc.aligned (h.liveAligned g hg)
        · exact h.freeAligned j hj x (hc.sub j x hx)
      · rw [Function.update_of_ne hjk] at hx
        exact h.freeAligned j hj x (hc.sub j x hx)
    · by_cases hmk : m = k'
      · subst hmk
        rw [Function.update_self, List.mem_cons] at hx hy
        rcases hx with rfl | hx
        · rcases hy with rfl | hy
          · exact xor_self_ne_two_pow y m
          · exact stop_not_listed hc hm' hy
        · rcases hy with rfl | hy
          · rw [Nat.xor_comm]
            exact stop_not_listed hc hm' hx
          · exact h.canonical m hm' x (hc.sub m x hx) y (hc.sub m y hy)
      · rw [Function.update_of_ne hmk] at hx hy
        exact h.canonical m hm' x (hc.sub m x hx) y (hc.sub m y hy)

end Tidy

/-- The pool starts at a page number that is a multiple of 2048. -/
theorem poolLo_dvd (hm : Machine ram bssEnd) (ha : BlockAligned ram) (hf : Fits ram bssEnd) :
    2048 ∣ poolLo ram bssEnd := by
  have hlo := poolLo_spec hm hf
  obtain ⟨q, hq⟩ := (freePoolStart_spec hm hf).1
  obtain ⟨b, hb⟩ := ha.base
  omega

/-- After the start the pool is whole blocks of the greatest order. -/
theorem Boot.tidy (hm : Machine ram bssEnd) (ha : BlockAligned ram) (hf : Fits ram bssEnd)
    (hb : Boot ram bssEnd c) :
    Tidy ram bssEnd c (topLists (poolList (poolLo ram bssEnd) (poolCount ram bssEnd))) where
  toSound := hb.sound hm hf ha.end_aligned
  freeAligned k hk i hi := by
    obtain ⟨rfl, hx⟩ := mem_topLists.mp hi
    obtain ⟨m, _, rfl⟩ := mem_poolList.mp hx
    exact Nat.dvd_add (poolLo_dvd hm ha hf) (Nat.dvd_mul_right _ _)
  liveAligned g hg := by simp [hb.1] at hg
  canonical k hk i hi := by
    obtain ⟨rfl, _⟩ := mem_topLists.mp hi
    exact absurd hk (Nat.lt_irrefl _)

/-- The blocks are aligned and canonical in every configuration of every run. -/
theorem tidy_of_run (hm : Machine ram bssEnd) (ha : BlockAligned ram) (hf : Fits ram bssEnd)
    {h : List (Config × Op)} (hb : Boot ram bssEnd c) (hr : Run (step ram) c h d)
    (hop : Run.Steps FreesLive h) : ∃ free, Tidy ram bssEnd d free :=
  hr.invariant (I := fun e => ∃ free, Tidy ram bssEnd e free) hop ⟨_, hb.tidy hm ha hf⟩
    fun _ _ _ ⟨_, hs⟩ hop hst => hs.onStep _ hm hop hst

theorem virt_blockAligned : BlockAligned virt := ⟨by decide, by decide⟩

end RexOS.Kalloc
