import Mathlib.Algebra.BigOperators.Group.Finset.Basic
import RexOS.Kalloc.Canonical
import RexOS.Kalloc.Service

/-!
# Memory to spare

What a caller may count on who wants blocks of several orders: each starts at a multiple of its
size, and a stock of blocks and pages can be had in any order of calls.
-/

namespace RexOS.Kalloc

variable {β : Type} {A : PageAlloc β} {b b' : β} {n m k a order : Nat}

/-- Blocks are aligned to their size and have at most 8 MiB. -/
def PageAlloc.Aligned (A : PageAlloc β) (Owns : β → List Grant → Prop) : Prop :=
  ∀ {b L order a b'}, Owns b L → A.kalloc b order = .done a b' →
    2 ^ order * 4096 ∣ a ∧ order < maxOrder

/-- `n` blocks of any order and `m` single pages more can be had, in whatever order they are asked
for. -/
def PageAlloc.Stock (A : PageAlloc β) : (blocks pages : Nat) → β → Prop
  | 0, 0, _ => True
  | 0, m + 1, b => ∃ a b', A.kalloc b 0 = .done a b' ∧ A.Stock 0 m b'
  | n + 1, 0, b => ∀ k < maxOrder, ∃ a b', A.kalloc b k = .done a b' ∧ A.Stock n 0 b'
  | n + 1, m + 1, b =>
    (∀ k < maxOrder, ∃ a b', A.kalloc b k = .done a b' ∧ A.Stock n (m + 1) b') ∧
      ∃ a b', A.kalloc b 0 = .done a b' ∧ A.Stock (n + 1) m b'
termination_by n m => n + m

namespace PageAlloc.Stock

/-- With a block in stock there is one. -/
theorem block (h : A.Stock (n + 1) m b) (hk : k < maxOrder) :
    ∃ a b', A.kalloc b k = .done a b' ∧ A.Stock n m b' := by
  cases m with
  | zero =>
    rw [Stock] at h
    exact h k hk
  | succ m =>
    rw [Stock] at h
    exact h.1 k hk

/-- With a page in stock there is one. -/
theorem page (h : A.Stock n (m + 1) b) : ∃ a b', A.kalloc b 0 = .done a b' ∧ A.Stock n m b' := by
  cases n with
  | zero =>
    rw [Stock] at h
    exact h
  | succ n =>
    rw [Stock] at h
    exact h.2

/-- What it takes to be a stock. -/
theorem intro (hblock : ∀ n', n = n' + 1 → ∀ k < maxOrder,
      ∃ a b', A.kalloc b k = .done a b' ∧ A.Stock n' m b')
    (hpage : ∀ m', m = m' + 1 → ∃ a b', A.kalloc b 0 = .done a b' ∧ A.Stock n m' b') :
    A.Stock n m b := by
  cases n with
  | zero =>
    cases m with
    | zero =>
      rw [Stock]
      trivial
    | succ m =>
      rw [Stock]
      exact hpage m rfl
  | succ n =>
    cases m with
    | zero =>
      rw [Stock]
      exact hblock n rfl
    | succ m =>
      rw [Stock]
      exact ⟨hblock n rfl, hpage m rfl⟩

/-- Less is asked for. -/
theorem mono {n' m' : Nat} (h : A.Stock n m b) (hn : n' ≤ n) (hm : m' ≤ m) : A.Stock n' m' b := by
  generalize hs : n' + m' = t
  induction t generalizing n' m' n m b with
  | zero =>
    apply intro
    · intro k hk
      omega
    · intro k hk
      omega
  | succ t ih =>
    apply intro
    · intro j hj k hk
      obtain ⟨i, rfl⟩ := Nat.exists_eq_add_of_le' (show 1 ≤ n by omega)
      obtain ⟨a, b', hrun, h'⟩ := h.block hk
      exact ⟨a, b', hrun, ih h' (by omega) hm (by omega)⟩
    · intro j hj
      obtain ⟨i, rfl⟩ := Nat.exists_eq_add_of_le' (show 1 ≤ m by omega)
      obtain ⟨a, b', hrun, h'⟩ := h.page
      exact ⟨a, b', hrun, ih h' hn (by omega) (by omega)⟩

/-- A stock has room for its pages. -/
theorem room (h : A.Stock n m b) : A.Room m b := by
  induction m generalizing b with
  | zero => trivial
  | succ m ih =>
    obtain ⟨a, b', hrun, h'⟩ := h.page
    exact ⟨a, b', hrun, ih h'⟩

/-- After a block has been had. -/
theorem of_block (h : A.Stock (n + 1) m b) (hk : k < maxOrder) (hrun : A.kalloc b k = .done a b') :
    A.Stock n m b' := by
  obtain ⟨_, _, hrun', h'⟩ := h.block hk
  obtain ⟨-, rfl⟩ := Outcome.done.inj (hrun'.symm.trans hrun)
  exact h'

/-- A page that was taken was one of the stock. -/
theorem of_page (h : A.Stock n (m + 1) b) (hrun : A.kalloc b 0 = .done a b') : A.Stock n m b' := by
  obtain ⟨_, _, hrun', h'⟩ := h.page
  obtain ⟨-, rfl⟩ := Outcome.done.inj (hrun'.symm.trans hrun)
  exact h'

end PageAlloc.Stock

/-! ## Blocks kept apart -/

/-- A block that is none of those granted, in any state. -/
def Reserved (Owns : β → List Grant → Prop) (g : Grant) : Prop :=
  ∀ b L, Owns b L → ∀ g' ∈ L, Disjoint g.extent g'.extent

/-- Some of the blocks granted are left out of the ledger. -/
def Reserving (Owns : β → List Grant → Prop) (R : List Grant) (b : β) (L : List Grant) : Prop :=
  ∃ M, Owns b M ∧ (∀ g, g ∈ M ↔ g ∈ R ∨ g ∈ L) ∧ ∀ g ∈ R, ∀ g' ∈ L, g.addr ≠ g'.addr

section Reserving

variable {Owns : β → List Grant → Prop} {R L : List Grant} {g : Grant}

/-- Nothing is kept from the client. -/
theorem reserving_nil (h : Owns b L) : Reserving Owns [] b L :=
  ⟨L, h, by simp, by simp⟩

/-- Blocks that are kept do not change what is granted. -/
theorem reserving_grants (hA : A.Grants Owns) : A.Grants (Reserving Owns R) where
  blocks := by
    rintro b L ⟨M, howns, hM, -⟩
    have hb := hA.blocks howns
    exact ⟨fun g hg => hb.page g ((hM g).mpr (Or.inr hg)),
      fun g hg g' hg' hne => hb.apart g ((hM g).mpr (Or.inr hg)) g' ((hM g').mpr (Or.inr hg')) hne⟩
  kalloc := by
    rintro b L order a b' ⟨M, howns, hM, hne⟩ hrun
    obtain ⟨hfresh, howns'⟩ := hA.kalloc howns hrun
    refine ⟨fun g hg => hfresh g ((hM g).mpr (Or.inr hg)), _, howns', fun g => ?_,
      fun g hg g' hg' => ?_⟩
    · rw [List.mem_cons, List.mem_cons, hM g, or_left_comm]
    · rcases List.mem_cons.mp hg' with rfl | hg'
      · exact hfresh g ((hM g).mpr (Or.inl hg))
      · exact hne g hg g' hg'

/-- A block given now is left out. -/
theorem reserving_take (hA : A.Grants Owns) (h : Reserving Owns R b L)
    (hrun : A.kalloc b order = .done a b') : Reserving Owns (⟨a, order⟩ :: R) b' L := by
  obtain ⟨M, howns, hM, hne⟩ := h
  obtain ⟨hfresh, howns'⟩ := hA.kalloc howns hrun
  refine ⟨_, howns', fun g => ?_, fun g hg g' hg' => ?_⟩
  · rw [List.mem_cons, List.mem_cons, hM g, or_assoc]
  · rcases List.mem_cons.mp hg with rfl | hg
    · exact (hfresh g' ((hM g').mpr (Or.inr hg'))).symm
    · exact hne g hg g' hg'

/-- A block that is kept overlaps no grant. -/
theorem reserved_of_mem (hA : A.Grants Owns) (hg : g ∈ R) : Reserved (Reserving Owns R) g := by
  rintro b L ⟨M, howns, hM, hne⟩ g' hg'
  apply (hA.blocks howns).apart g ((hM g).mpr (Or.inl hg)) g' ((hM g').mpr (Or.inr hg'))
  rintro rfl
  exact hne g hg g hg' rfl

/-- A block given now meets none of those before. -/
theorem disjoint_of_take (hA : A.Grants Owns) (h : Reserving Owns R b L)
    (hrun : A.kalloc b order = .done a b') (hg : g ∈ R ∨ g ∈ L) :
    Disjoint g.extent (Grant.mk a order).extent := by
  obtain ⟨M, howns, hM, -⟩ := h
  obtain ⟨hfresh, howns'⟩ := hA.kalloc howns hrun
  have hin := (hM g).mpr hg
  apply (hA.blocks howns').apart g (List.mem_cons_of_mem _ hin) _ List.mem_cons_self
  rintro rfl
  exact hfresh _ hin rfl

/-- It is a block like any other. -/
theorem reserving_block (hA : A.Grants Owns) (h : Reserving Owns R b L) (hg : g ∈ R ∨ g ∈ L) :
    4096 ∣ g.addr ∧ 0 < g.addr ∧ g.addr + 2 ^ g.order * 4096 ≤ 2 ^ 64 := by
  obtain ⟨M, howns, hM, -⟩ := h
  exact (hA.blocks howns).page g ((hM g).mpr hg)

/-- With one block more left out. -/
theorem Reserved.cons (hA : A.Grants Owns) {g₀ : Grant} (h : Reserved (Reserving Owns R) g) :
    Reserved (Reserving Owns (g₀ :: R)) g := by
  rintro b L ⟨M, howns, hM, hne⟩ g' hg'
  by_cases hmem : g₀ ∈ R
  · apply h b L ⟨M, howns, fun x => ?_, fun x hx => hne x (List.mem_cons_of_mem _ hx)⟩ g' hg'
    have hcons : x ∈ g₀ :: R ↔ x ∈ R := by
      rw [List.mem_cons, or_iff_right_iff_imp]
      rintro rfl
      exact hmem
    rw [hM x, hcons]
  · -- the block counts as granted
    apply h b (g₀ :: L) ⟨M, howns, fun x => ?_, fun x hx y hy he => ?_⟩ g'
      (List.mem_cons_of_mem _ hg')
    · rw [hM x, List.mem_cons, List.mem_cons, or_assoc, or_left_comm]
    · rcases List.mem_cons.mp hy with rfl | hy
      · have hxM := (hM x).mpr (Or.inl (List.mem_cons_of_mem _ hx))
        have hyM := (hM y).mpr (Or.inl List.mem_cons_self)
        obtain rfl := (hA.blocks howns).eq_of_addr hxM hyM he
        exact hmem hx
      · exact hne x (List.mem_cons_of_mem _ hx) y hy he

end Reserving

/-! ## The buddy allocator -/

variable {ram : Meta} {bssEnd : Nat}

/-- The blocks are aligned and canonical, with `L` as the ledger of grants. -/
def Tended (ram : Meta) (bssEnd : Nat) (b : State) (L : List Grant) : Prop :=
  ∃ free, Tidy ram bssEnd ⟨b, L⟩ free

/-- A tidy pool is a sound one. -/
theorem Tended.granted {b : State} {L : List Grant} (h : Tended ram bssEnd b L) :
    Granted ram bssEnd b L := h.imp fun _ ht => ht.toSound

/-- So the buddy allocator grants from it. -/
theorem tended_grants (ra : Nat) (hm : Machine ram bssEnd) (hf : Fits ram bssEnd) :
    (buddy ram ra).Grants (Tended ram bssEnd) where
  blocks h := (buddy_grants ra hm hf).blocks h.granted
  kalloc := by
    rintro b L order a b' ⟨free, h⟩ hrun
    refine ⟨((buddy_grants ra hm hf).kalloc ⟨free, h.toSound⟩ hrun).1, ?_⟩
    obtain ⟨free', h'⟩ := h.onStep (.alloc order ra) hm trivial (step_of_kalloc hrun)
    exact ⟨free', h'⟩

/-- What it grants is aligned. -/
theorem tended_aligned (ra : Nat) (hm : Machine ram bssEnd) (ha : BlockAligned ram) :
    (buddy ram ra).Aligned (Tended ram bssEnd) := by
  rintro b L order a b' ⟨free, h⟩ hrun
  obtain ⟨k, hk⟩ := Sound.search_of_kalloc hrun
  obtain ⟨hok, hkm, -⟩ := search_eq_some.mp hk
  obtain ⟨idx, rest, t, -, hrun', hdvd, -⟩ := h.onAlloc ra hm hk
  obtain ⟨rfl, -⟩ := Outcome.done.inj (hrun'.symm.trans hrun)
  refine ⟨Nat.dvd_add ?_ (Nat.mul_dvd_mul_right hdvd 4096), Nat.lt_of_le_of_lt hok hkm⟩
  have hsize : 2 ^ order * 4096 ∣ 2 ^ 11 * 4096 :=
    Nat.mul_dvd_mul_right (pow_dvd_pow 2 (Nat.le_of_lt_succ (Nat.lt_of_le_of_lt hok hkm))) 4096
  exact hsize.trans ha.base

/-- Pages in the first lists. -/
def weight (free : Nat → List Nat) (k : Nat) : Nat :=
  ∑ i ∈ Finset.range k, 2 ^ i * (free i).length

/-- The weight of the lists, order by order. -/
theorem weight_succ (free : Nat → List Nat) (k : Nat) :
    weight free (k + 1) = weight free k + 2 ^ k * (free k).length := Finset.sum_range_succ _ k

/-- A call takes its pages from the first list that has a block, and the rest of that block stays in
the lists before. -/
theorem weight_allocLists {free : Nat → List Nat} {idx order k : Nat} {rest : List Nat}
    (hfree : free k = idx :: rest) (hok : order ≤ k) (hempty : ∀ i, order ≤ i → i < k → free i = [])
    (j : Nat) :
    (j ≤ order → weight (allocLists free idx order k rest) j = weight free j) ∧
      (order ≤ j → j ≤ k →
        weight (allocLists free idx order k rest) j + 2 ^ order = weight free j + 2 ^ j) ∧
      (k < j → weight (allocLists free idx order k rest) j + 2 ^ order = weight free j) := by
  induction j with
  | zero =>
    refine ⟨fun _ => rfl, fun ho _ => ?_, fun hk => absurd hk (Nat.not_lt_zero k)⟩
    obtain rfl := Nat.le_zero.mp ho
    rfl
  | succ j ih =>
    obtain ⟨hbelow, hwithin, habove⟩ := ih
    rw [weight_succ, weight_succ]
    have hpow : 2 ^ (j + 1) = 2 ^ j + 2 ^ j := by rw [Nat.pow_succ, Nat.mul_two]
    refine ⟨fun ho => ?_, fun ho hk => ?_, fun hk => ?_⟩
    · have halloc : allocLists free idx order k rest j = free j := by
        rw [allocLists, if_neg (by omega), if_neg (by omega)]
      rw [halloc, hbelow (by omega)]
    · rcases Nat.lt_or_ge j order with hlt | hge
      · have he : order = j + 1 := by omega
        have halloc : allocLists free idx order k rest j = free j := by
          rw [allocLists, if_neg (by omega), if_neg (by omega)]
        rw [halloc, hbelow (by omega), he]
      · have halloc : allocLists free idx order k rest j = [idx + 2 ^ j] := by
          rw [allocLists, if_neg (by omega), if_pos ⟨hge, by omega⟩]
        have hw := hwithin hge (by omega)
        rw [halloc, hempty j hge (by omega), List.length_singleton, List.length_nil]
        omega
    · rcases Nat.lt_or_ge k j with hlt | hge
      · have halloc : allocLists free idx order k rest j = free j := by
          rw [allocLists, if_neg (by omega), if_neg (by omega)]
        have hw := habove hlt
        rw [halloc]
        omega
      · obtain rfl : j = k := by omega
        have halloc : allocLists free idx order j rest j = rest := by rw [allocLists, if_pos rfl]
        have hw := hwithin hok le_rfl
        rw [halloc, hfree, List.length_cons, Nat.mul_succ]
        omega

/-- The free blocks of 8 MiB make a stock, some of them for blocks and some for pages. -/
theorem buddy_stock (ra : Nat) (hm : Machine ram bssEnd) {b : State} {L : List Grant}
    {free : Nat → List Nat} (h : Tidy ram bssEnd ⟨b, L⟩ free) {q : Nat}
    (hn : n + q ≤ (free 11).length) (hpages : m ≤ 2 ^ 11 * q + weight free 11) :
    (buddy ram ra).Stock n m b := by
  -- one call takes its pages from the lists below, or a block of 8 MiB when they are empty
  have hcall : ∀ {b : State} {L : List Grant} {free : Nat → List Nat} {k : Nat},
      Tidy ram bssEnd ⟨b, L⟩ free → k < maxOrder → (∃ i < maxOrder, k ≤ i ∧ free i ≠ []) →
      ∃ a b' L' free', (buddy ram ra).kalloc b k = .done a b' ∧ Tidy ram bssEnd ⟨b', L'⟩ free' ∧
        ((free' 11).length = (free 11).length ∧ weight free' 11 + 2 ^ k = weight free 11 ∨
          (free' 11).length + 1 = (free 11).length ∧
            weight free' 11 + 2 ^ k = weight free 11 + 2 ^ 11 ∧
              (∀ i, k ≤ i → i < 11 → free i = [])) := by
    intro b L free k h hk hex
    obtain ⟨j, hj⟩ : ∃ j, search b k = some j := by
      cases hs : search b k with
      | some j => exact ⟨j, rfl⟩
      | none =>
        obtain ⟨i, hi, hki, hne⟩ := hex
        exact absurd ((h.inv.lists.head_eq_noIdx_iff hi).mp (search_eq_none.mp hs i hki hi)) hne
    obtain ⟨hkj, hjm, -, hfirst⟩ := search_eq_some.mp hj
    have hj12 : j < 12 := hjm
    have hempty : ∀ i, k ≤ i → i < j → free i = [] := fun i h1 h2 =>
      (h.inv.lists.head_eq_noIdx_iff (h2.trans hjm)).mp (hfirst i h1 h2)
    obtain ⟨idx, rest, b', hfree, hrun, -, h'⟩ := h.onAlloc ra hm hj
    obtain ⟨-, hwithin, habove⟩ := weight_allocLists hfree hkj hempty 11
    refine ⟨_, b', _, _, hrun, h', ?_⟩
    rcases Nat.lt_or_ge j 11 with hlt | hge
    · refine Or.inl ⟨?_, habove hlt⟩
      rw [allocLists, if_neg (by omega), if_neg (by omega)]
    · obtain rfl : j = 11 := by omega
      refine Or.inr ⟨?_, hwithin hkj le_rfl, hempty⟩
      rw [allocLists, if_pos rfl, hfree, List.length_cons]
  have hnil : ∀ {free : Nat → List Nat}, (∀ i, 0 ≤ i → i < 11 → free i = []) →
      weight free 11 = 0 := by
    intro free he
    apply Finset.sum_eq_zero
    intro i hi
    rw [he i (Nat.zero_le i) (Finset.mem_range.mp hi), List.length_nil, Nat.mul_zero]
  generalize hs : n + m = t
  induction t generalizing n m b L free q with
  | zero =>
    apply PageAlloc.Stock.intro
    · intro k hk
      omega
    · intro k hk
      omega
  | succ t ih =>
    apply PageAlloc.Stock.intro
    · intro n' hn' k hk
      have hne : free 11 ≠ [] := by
        intro he
        rw [he, List.length_nil] at hn
        omega
      have hk12 : k < 12 := hk
      have hpow : 2 ^ k ≤ 2 ^ 11 := Nat.pow_le_pow_right (by decide) (by omega)
      obtain ⟨a, b', L', free', hrun, h', ⟨hlen, hw⟩ | ⟨hlen, hw, -⟩⟩ :=
        hcall h hk ⟨11, by decide, by omega, hne⟩
      · refine ⟨a, b', hrun, ih (q := q + 1) h' (by omega) ?_ (by omega)⟩
        omega
      · exact ⟨a, b', hrun, ih (q := q) h' (by omega) (by omega) (by omega)⟩
    · intro m' hm'
      have hex : ∃ i < maxOrder, 0 ≤ i ∧ free i ≠ [] := by
        by_contra hnone
        have hall : ∀ i < maxOrder, free i = [] := by
          intro i hi
          by_contra hne
          exact hnone ⟨i, hi, Nat.zero_le i, hne⟩
        rw [hall 11 (by decide), List.length_nil] at hn
        rw [hnil fun i _ hi => hall i (hi.trans (by decide))] at hpages
        omega
      obtain ⟨a, b', L', free', hrun, h', ⟨hlen, hw⟩ | ⟨hlen, hw, hlow⟩⟩ :=
        hcall h (by decide : 0 < maxOrder) hex
      · exact ⟨a, b', hrun, ih (q := q) h' (by omega) (by omega) (by omega)⟩
      · -- the last block of 8 MiB is not yet needed for a block
        rw [hnil hlow] at hpages hw
        exact ⟨a, b', hrun, ih (q := q - 1) h' (by omega) (by omega) (by omega)⟩

/-- After a boot the whole pool is a stock. -/
theorem exists_stock (ra : Nat) (hm : Machine ram bssEnd) (ha : BlockAligned ram)
    (hf : Fits ram bssEnd) (hlt : freePoolStart ram bssEnd < poolHorizon ram) :
    ∃ b, Tended ram bssEnd b [] ∧
      ∀ n q, n + q ≤ poolCount ram bssEnd → (buddy ram ra).Stock n (2 ^ 11 * q) b := by
  obtain ⟨c, hb⟩ := exists_boot hm hf ha.end_aligned hlt
  have ht := hb.tidy hm ha hf
  obtain ⟨b, L⟩ := c
  obtain rfl : L = [] := hb.1
  refine ⟨b, ⟨_, ht⟩, fun n q hn => buddy_stock ra hm ht (?_ : n + q ≤ _) (Nat.le_add_right _ _)⟩
  have htop : ∀ xs, topLists xs 11 = xs := fun xs => by simp [topLists, maxOrder]
  rw [htop, length_poolList]
  exact hn

/-- The board has 15 blocks of 8 MiB. -/
theorem virt_stock (ra : Nat) : ∃ b, Tended virt virtBssEnd b [] ∧
    ∀ n q, n + q ≤ 15 → (buddy virt ra).Stock n (2 ^ 11 * q) b := by
  obtain ⟨b, howns, hstock⟩ :=
    exists_stock ra virt_machine virt_blockAligned virt_fits (by decide)
  have hcount : poolCount virt virtBssEnd = 15 := by decide
  exact ⟨b, howns, fun n q hn => hstock n q (hn.trans_eq hcount.symm)⟩

end RexOS.Kalloc
