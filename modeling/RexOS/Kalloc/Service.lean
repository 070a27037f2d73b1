import Mathlib.Order.Interval.Finset.Nat
import Mathlib.Order.Interval.Set.Disjoint
import RexOS.Kalloc.Safety

/-!
# The page allocator as its callers see it

The routines built on pages use `kalloc` and `kfree` through `PageAlloc` and rely on no
more than that the blocks granted are apart and are taken back. `kalloc` and `kfree` of
`kernel/kalloc.c` are such an allocator.
-/

namespace RexOS.Kalloc

/-- The two routines; the address `kalloc` returns is the only thing used of it. -/
structure PageAlloc (β : Type) where
  kalloc : β → Nat → Outcome β Nat
  kfree : β → Nat → Outcome β Unit

/-- Blocks of whole pages, apart from one another. -/
structure Blocks (L : List Grant) : Prop where
  page : ∀ g ∈ L, 4096 ∣ g.addr ∧ 0 < g.addr ∧ g.addr + 2 ^ g.order * 4096 ≤ 2 ^ 64
  apart : ∀ g ∈ L, ∀ g' ∈ L, g ≠ g' → Disjoint g.extent g'.extent

namespace Blocks

variable {L : List Grant} {g g' : Grant}

/-- Two blocks at one address are one block. -/
theorem eq_of_addr (h : Blocks L) (hg : g ∈ L) (hg' : g' ∈ L) (he : g.addr = g'.addr) : g = g' := by
  by_contra hne
  have hd := h.apart g hg g' hg' hne
  have hpos := Nat.two_pow_pos g.order
  have hpos' := Nat.two_pow_pos g'.order
  have h1 : g.addr ∈ g.extent := ⟨le_rfl, by omega⟩
  have h2 : g.addr ∈ g'.extent := ⟨he.ge, by omega⟩
  exact Set.disjoint_left.mp hd h1 h2

/-- Different blocks share no address. -/
theorem not_both (h : Blocks L) (hg : g ∈ L) (hg' : g' ∈ L) (hne : g ≠ g') {a : Nat}
    (ha : g.addr ≤ a ∧ a < g.addr + 2 ^ g.order * 4096)
    (ha' : g'.addr ≤ a ∧ a < g'.addr + 2 ^ g'.order * 4096) : False :=
  Set.disjoint_left.mp (h.apart g hg g' hg' hne) ha ha'

/-- A block of order 0 is one page. -/
theorem single_page (h : Blocks L) {a : Nat} (ha : (⟨a, 0⟩ : Grant) ∈ L) :
    4096 ∣ a ∧ 0 < a ∧ a + 4096 ≤ 2 ^ 64 := by
  simpa using h.page _ ha

end Blocks

variable {β : Type}

/-- What the page allocator owes its callers: the blocks it has granted are apart.
`Owns b L` says that `L` is granted in state `b`. -/
structure PageAlloc.Grants (A : PageAlloc β) (Owns : β → List Grant → Prop) : Prop where
  blocks : ∀ {b L}, Owns b L → Blocks L
  kalloc : ∀ {b L order a b'}, Owns b L → A.kalloc b order = .done a b' →
    (∀ g ∈ L, g.addr ≠ a) ∧ Owns b' (⟨a, order⟩ :: L)

/-- A granted block is taken back. -/
def PageAlloc.TakesBack (A : PageAlloc β) (Owns : β → List Grant → Prop) : Prop :=
  ∀ b L, ∀ g : Grant, Owns b L → g ∈ L →
    ∃ b', A.kfree b g.addr = .done () b' ∧ Owns b' (L.filter fun x => x.addr != g.addr)

/-- `n` single pages more can be had. -/
def PageAlloc.Room (A : PageAlloc β) : Nat → β → Prop
  | 0, _ => True
  | n + 1, b => ∃ u b', A.kalloc b 0 = .done u b' ∧ A.Room n b'

/-- Room for some pages is room for fewer. -/
theorem PageAlloc.Room.mono {A : PageAlloc β} {n m : Nat} {b : β} (h : A.Room n b) (hm : m ≤ n) :
    A.Room m b := by
  induction m generalizing n b with
  | zero => exact trivial
  | succ m ih =>
    obtain ⟨k, rfl⟩ := Nat.exists_eq_add_of_le' hm
    obtain ⟨u, b', hrun, h⟩ := h
    exact ⟨u, b', hrun, ih h (Nat.le_add_left m k)⟩

/-! ## The buddy allocator -/

variable {ram : Meta} {bssEnd : Nat}

/-- `kalloc` and `kfree`, called from the one place `ra`. -/
def buddy (ram : Meta) (ra : Nat) : PageAlloc State where
  kalloc b order := Kalloc.kalloc ram b order ra
  kfree b physAddr := Kalloc.kfree ram b physAddr

/-- The invariant holds with `L` as the ledger of grants. -/
def Granted (ram : Meta) (bssEnd : Nat) (b : State) (L : List Grant) : Prop :=
  ∃ free, Sound ram bssEnd ⟨b, L⟩ free

/-- A block on the ledger lies between the metadata and the end of RAM. -/
theorem grant_bounds (hm : Machine ram bssEnd) (hf : Fits ram bssEnd) {b : State} {L : List Grant}
    {free : Nat → List Nat} (h : Sound ram bssEnd ⟨b, L⟩ free) {g : Grant} (hg : g ∈ L) :
    4096 ∣ g.addr ∧ 0 < g.addr ∧ g.addr + 2 ^ g.order * 4096 ≤ 2 ^ 64 := by
  have hsub := h.live_subset hm hf hg
  have hpos := Nat.two_pow_pos g.order
  have hstart := (freePoolStart_spec hm hf).2.1
  have hfirst : g.addr ∈ pool ram bssEnd := hsub ⟨le_rfl, by omega⟩
  have hlast : g.addr + 2 ^ g.order * 4096 - 1 ∈ pool ram bssEnd :=
    hsub ⟨by omega, by omega⟩
  have hregion := hm.region
  refine ⟨?_, ?_, ?_⟩
  · rw [h.addr g hg]
    exact Nat.dvd_add hm.base_page (Nat.dvd_mul_left _ _)
  · unfold metadataTop at hstart
    exact Nat.lt_of_lt_of_le (by omega) hfirst.1
  · have := hlast.2
    omega

/-- The buddy allocator grants blocks apart from each other. -/
theorem buddy_grants (ra : Nat) (hm : Machine ram bssEnd) (hf : Fits ram bssEnd) :
    (buddy ram ra).Grants (Granted ram bssEnd) where
  blocks := by
    rintro b L ⟨free, h⟩
    refine ⟨fun g hg => grant_bounds hm hf h hg, fun g hg g' hg' hne => ?_⟩
    exact h.live_disjoint hg hg' fun he => hne (h.grant_unique hg hg' he)
  kalloc := by
    rintro b L order a b' ⟨free, h⟩ hrun
    obtain ⟨free', h'⟩ := h.onStep (.alloc order ra) hm trivial (step_of_kalloc hrun)
    refine ⟨fun g hg he => ?_, free', h'⟩
    exact (List.nodup_cons.mp h'.distinct).1 (List.mem_map.mpr ⟨g, hg, he⟩)

/-- It takes back what it granted. -/
theorem buddy_takesBack (ra : Nat) (hm : Machine ram bssEnd) :
    (buddy ram ra).TakesBack (Granted ram bssEnd) := by
  rintro b L g ⟨free, h⟩ hg
  obtain ⟨d, hs, hlive⟩ := h.exists_free hm hg
  obtain ⟨free', h'⟩ := h.onStep (.free g.addr) hm ⟨g, hg, rfl⟩ hs
  refine ⟨d.mem, (step_free.mp hs).1, free', ?_⟩
  rw [← hlive]
  exact h'

/-- As long as clients hold single pages only and fewer than the pool has, a list has a block. -/
theorem Sound.exists_listed {c : Config} {free : Nat → List Nat} (h : Sound ram bssEnd c free)
    (ho : ∀ g ∈ c.live, g.order = 0) (hn : c.live.length < totalPages ram - poolLo ram bssEnd) :
    ∃ k < maxOrder, free k ≠ [] := by
  by_contra hnone
  have hempty : ∀ k < maxOrder, free k = [] := by
    intro k hk
    by_contra hne
    exact hnone ⟨k, hk, hne⟩
  -- then every page of the pool is the page of a grant
  have hsub : Finset.Ico (poolLo ram bssEnd) (totalPages ram) ⊆
      (c.live.map fun g => pageIndex ram g.addr).toFinset := by
    intro p hp
    obtain ⟨b, (hb | ⟨g, hg, rfl⟩) | hb, hbp⟩ := (h.inv.tiles.cover p).mp (Finset.mem_Ico.mp hp)
    · obtain ⟨hk, hin⟩ := hb
      rw [hempty _ hk] at hin
      exact absurd hin List.not_mem_nil
    · have hpage : pageIndex ram g.addr = p := by
        have h1 := hbp.1
        have h2 := hbp.2
        simp only [ho g hg, pow_zero] at h1 h2
        omega
      exact List.mem_toFinset.mpr (List.mem_map.mpr ⟨g, hg, hpage⟩)
    · exact absurd hb (Set.notMem_empty _)
  have hcard := (Finset.card_le_card hsub).trans (List.toFinset_card_le _)
  rw [Nat.card_Ico, List.length_map] at hcard
  omega

/-- The pool gives as many single pages as it has. -/
theorem buddy_room (ra : Nat) (hm : Machine ram bssEnd) {n : Nat} {b : State} {L : List Grant}
    (h : Granted ram bssEnd b L) (ho : ∀ g ∈ L, g.order = 0)
    (hn : L.length + n ≤ totalPages ram - poolLo ram bssEnd) : (buddy ram ra).Room n b := by
  induction n generalizing b L with
  | zero => exact trivial
  | succ n ih =>
    obtain ⟨free, hs⟩ := h
    obtain ⟨k, hk, hne⟩ := hs.exists_listed ho (by simp only; omega)
    obtain ⟨d, idx, hstep, hlive⟩ := hs.exists_alloc hm 0 ra ⟨k, Nat.zero_le k, hk, hne⟩
    obtain ⟨free', hs'⟩ := hs.onStep (.alloc 0 ra) hm trivial hstep
    obtain ⟨u, hrun, _⟩ := step_alloc.mp hstep
    refine ⟨u, d.mem, hrun, ih (L := d.live) ⟨free', hs'⟩ (fun g hg => ?_) ?_⟩
    · rw [hlive] at hg
      rcases List.mem_cons.mp hg with rfl | hg
      · rfl
      · exact ho g hg
    · rw [hlive, List.length_cons]
      simp only
      omega

/-! ## The board the kernel is tested on -/

/-- Its pool is the RAM from 8 MiB on. -/
theorem virt_grant_bounds {b : State} {L : List Grant} (h : Granted virt virtBssEnd b L) {g : Grant}
    (hg : g ∈ L) : 0x80800000 ≤ g.addr ∧ g.addr + 2 ^ g.order * 4096 ≤ 0x88000000 := by
  obtain ⟨free, hs⟩ := h
  have hsub := hs.live_subset virt_machine virt_fits hg
  have hpos := Nat.two_pow_pos g.order
  have hpool : pool virt virtBssEnd = Set.Ico 0x80800000 0x88000000 := rfl
  have hfirst : g.addr ∈ pool virt virtBssEnd := hsub ⟨le_rfl, by omega⟩
  have hlast : g.addr + 2 ^ g.order * 4096 - 1 ∈ pool virt virtBssEnd :=
    hsub ⟨by omega, by omega⟩
  rw [hpool] at hfirst hlast
  have h1 := hfirst.1
  have h2 := hlast.2
  omega

/-- It comes up, gives a first page and has more. -/
theorem virt_first_page (ra : Nat) : ∃ u b, Granted virt virtBssEnd b [⟨u, 0⟩] ∧
    (buddy virt ra).Room 1000 b := by
  have hend : EndAligned virt := by unfold EndAligned; decide
  obtain ⟨c, hb⟩ := exists_boot virt_machine virt_fits hend (by decide)
  have hc := hb.sound virt_machine virt_fits hend
  have hgranted : Granted virt virtBssEnd c.mem c.live := ⟨_, hc⟩
  have hpages : totalPages virt - poolLo virt virtBssEnd = 30720 := by decide
  obtain ⟨u, b, hrun, _⟩ := buddy_room (n := 1) ra virt_machine hgranted (by simp [hb.1])
    (by rw [hb.1, hpages]; decide)
  have hgranted' := ((buddy_grants ra virt_machine virt_fits).kalloc hgranted hrun).2
  rw [hb.1] at hgranted'
  refine ⟨u, b, hgranted', buddy_room ra virt_machine hgranted' (by simp) ?_⟩
  rw [hpages, List.length_singleton]
  decide

end RexOS.Kalloc
