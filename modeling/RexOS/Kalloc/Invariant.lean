import RexOS.Core.Dyadic
import RexOS.Kalloc.Lists

/-!
# The allocator's invariant

The abstract state is a set of free blocks, a set of live blocks and, in the middle
of an operation, one block that is in neither. Together they tile the pool
`[lo, n)` of page indices. `Inv` ties a state of the program to it: the lists name
the free blocks, a record is marked free exactly when it is on a list, and the
record at the start of a live block carries the block's order.

The lemmas below are the moves of the two loops: take a head, free the upper half,
hand a block out, take a live block back, absorb a buddy, put a block on its list.
-/

namespace RexOS.Kalloc

open Dyadic

/-- The blocks that the free lists name. -/
def freeBlocks (free : Nat → List Nat) : Set Block :=
  {b | b.order < maxOrder ∧ b.start ∈ free b.order}

/-- The free blocks are those on the lists. -/
theorem mem_freeBlocks {free : Nat → List Nat} {i k : Nat} :
    (⟨i, k⟩ : Block) ∈ freeBlocks free ↔ k < maxOrder ∧ i ∈ free k := Iff.rfl

/-- The state `s` holds the free lists `free`, the blocks `live` handed out, and the
blocks `held` by an operation in progress. -/
structure Inv (lo n : Nat) (s : State) (free : Nat → List Nat) (live held : Set Block) :
    Prop where
  lists : Lists s free
  listed : ∀ k < maxOrder, ∀ i ∈ free k, (s.pageArray i).flag = 0 ∧ (s.pageArray i).order = k
  flagged : ∀ i < n, (s.pageArray i).flag = 0 →
    (∃ k < maxOrder, i ∈ free k) ∨ ∃ b ∈ held, b.start = i
  alive : ∀ b ∈ live, (s.pageArray b.start).flag = 1 ∧
    (s.pageArray b.start).order = b.order ∧ b.order < maxOrder
  detached : ∀ b ∈ held, b.order < maxOrder ∧ (∀ k < maxOrder, b.start ∉ free k) ∧
    ∀ c ∈ live, c.start ≠ b.start
  tiles : Tiles (freeBlocks free ∪ live ∪ held) lo n
  written : ∀ i ∈ s.written, i < n
  flag_le : ∀ i < n, (s.pageArray i).flag ≤ 2

namespace Inv

variable {lo n : Nat} {s t : State} {free : Nat → List Nat} {live held : Set Block} {i k : Nat}

/-- A listed page is in the pool. -/
theorem listed_lt (h : Inv lo n s free live held) (hk : k < maxOrder) (hi : i ∈ free k) :
    lo ≤ i ∧ i < n :=
  h.tiles.start_bounds (b := ⟨i, k⟩) (Or.inl (Or.inl ⟨hk, hi⟩))

/-- Granted blocks lie in the pool. -/
theorem live_lt (h : Inv lo n s free live held) {b : Block} (hb : b ∈ live) :
    lo ≤ b.start ∧ b.start < n := h.tiles.start_bounds (Or.inl (Or.inr hb))

/-- So does a block that is being split or merged. -/
theorem held_lt (h : Inv lo n s free live held) {b : Block} (hb : b ∈ held) :
    lo ≤ b.start ∧ b.start < n := h.tiles.start_bounds (Or.inr hb)

/-- The start of a live block is on no list. -/
theorem live_not_listed (h : Inv lo n s free live held) {b : Block} (hb : b ∈ live)
    (hk : k < maxOrder) : b.start ∉ free k := by
  intro hm
  have h0 := (h.listed k hk _ hm).1
  have h1 := (h.alive b hb).1
  omega

/-- Two free blocks with one start have one order. -/
theorem order_unique (h : Inv lo n s free live held) {j : Nat} (hj : j < maxOrder)
    (hk : k < maxOrder) (hij : i ∈ free j) (hik : i ∈ free k) : j = k :=
  h.lists.apart j hj k hk i hij hik

/-- The head of a list is a page of the pool. -/
theorem head_lt (h : Inv lo n s free live held) (hk : k < maxOrder)
    (hne : s.freeLists k ≠ noIdx) : s.freeLists k < n :=
  (h.listed_lt hk (h.lists.head_mem hk hne)).2

/-- The next block of a list is in the array. -/
theorem next_lt (h : Inv lo n s free live held) (hk : k < maxOrder) (hi : i ∈ free k)
    (hne : nextOf s i ≠ noIdx) : nextOf s i < n :=
  (h.listed_lt hk ((h.lists.dll k hk).next_mem hi hne)).2

/-- So is the one before. -/
theorem prev_lt (h : Inv lo n s free live held) (hk : k < maxOrder) (hi : i ∈ free k)
    (hne : prevOf s i ≠ noIdx) : prevOf s i < n :=
  (h.listed_lt hk ((h.lists.dll k hk).prev_mem hi hne)).2

/-- A change that keeps the heads, the links, the flags and the orders. -/
theorem congr (h : Inv lo n s free live held) (hf : t.freeLists = s.freeLists)
    (hn : ∀ j, nextOf t j = nextOf s j) (hp : ∀ j, prevOf t j = prevOf s j)
    (hflag : ∀ j, (t.pageArray j).flag = (s.pageArray j).flag)
    (horder : ∀ j, (t.pageArray j).order = (s.pageArray j).order)
    (hw : ∀ j ∈ t.written, j < n) : Inv lo n t free live held where
  lists := h.lists.congr (fun k _ => by rw [hf]) fun k _ j _ => ⟨hn j, hp j⟩
  listed k hk j hj := by
    rw [hflag, horder]
    exact h.listed k hk j hj
  flagged j hj h0 := h.flagged j hj (hflag j ▸ h0)
  alive b hb := by
    rw [hflag, horder]
    exact h.alive b hb
  detached := h.detached
  tiles := h.tiles
  written := hw
  flag_le j hj := by
    rw [hflag]
    exact h.flag_le j hj

/-- Putting the detached block `⟨i, k⟩` on its list. What is held afterwards, and that
the blocks still tile the pool, is the caller's part. -/
theorem push (held' : Set Block) (h : Inv lo n s free live held) (hn : n ≤ noIdx)
    (hk : k < maxOrder) (hi : i < n) (hoff : ∀ j < maxOrder, i ∉ free j)
    (hlive : ∀ c ∈ live, c.start ≠ i) {f : Page → Page}
    (hf : ∀ p, (f p).flag = 0 ∧ (f p).order = k ∧ (f p).nextIdx = p.nextIdx ∧
      (f p).prevIdx = p.prevIdx)
    (hcov : ∀ b ∈ held, b.start = i ∨ ∃ c ∈ held', c.start = b.start)
    (hdet : ∀ b ∈ held', b.order < maxOrder ∧ b.start ≠ i ∧
      (∀ j < maxOrder, b.start ∉ free j) ∧ ∀ c ∈ live, c.start ≠ b.start)
    (htiles : Tiles (insert ⟨i, k⟩ (freeBlocks free) ∪ live ∪ held') lo n) :
    Inv lo n ((s.setPage i f).pushFree k i) (Function.update free k (i :: free k)) live
      held' := by
  have hine : i ≠ noIdx := by omega
  have hls : Lists (s.setPage i f) free := h.lists.congr (fun _ _ => rfl) fun j hj y hy => by
    have hyi : y ≠ i := fun he => hoff j hj (he ▸ hy)
    simp [nextOf, prevOf, hyi]
  have hpage : ∀ j, (((s.setPage i f).pushFree k i).pageArray j).flag =
      (if j = i then 0 else (s.pageArray j).flag) ∧
      (((s.setPage i f).pushFree k i).pageArray j).order =
      (if j = i then k else (s.pageArray j).order) := by
    intro j
    rw [State.pushFree_page]
    by_cases hji : j = i
    · subst hji; simp [hf]
    · simp only [hji, if_false]
      split <;> simp [hji]
  have hmem : ∀ j x, x ∈ Function.update free k (i :: free k) j ↔
      (j = k ∧ x = i) ∨ x ∈ free j := by
    intro j x
    by_cases hjk : j = k
    · subst hjk; simp
    · simp [hjk]
  refine { lists := hls.push hk hoff hine, listed := ?_, flagged := ?_, alive := ?_,
           detached := ?_, tiles := ?_, written := ?_, flag_le := ?_ }
  · intro j hj x hx
    rw [(hpage x).1, (hpage x).2]
    rcases (hmem j x).mp hx with ⟨rfl, rfl⟩ | hx
    · simp
    · have hxi : x ≠ i := fun he => hoff j hj (he ▸ hx)
      simpa [hxi] using h.listed j hj x hx
  · intro x hx h0
    by_cases hxi : x = i
    · exact Or.inl ⟨k, hk, (hmem k x).mpr (Or.inl ⟨rfl, hxi⟩)⟩
    · rw [(hpage x).1, if_neg hxi] at h0
      rcases h.flagged x hx h0 with ⟨j, hj, hxj⟩ | ⟨b, hb, rfl⟩
      · exact Or.inl ⟨j, hj, (hmem j x).mpr (Or.inr hxj)⟩
      · exact Or.inr ((hcov b hb).resolve_left hxi)
  · intro b hb
    rw [(hpage _).1, (hpage _).2, if_neg (hlive b hb), if_neg (hlive b hb)]
    exact h.alive b hb
  · intro b hb
    obtain ⟨hbo, hbi, hbf, hbl⟩ := hdet b hb
    refine ⟨hbo, fun j hj hm => ?_, hbl⟩
    rcases (hmem j _).mp hm with ⟨_, he⟩ | hm
    · exact hbi he
    · exact hbf j hj hm
  · refine htiles.congr fun b => ?_
    have : b ∈ freeBlocks (Function.update free k (i :: free k)) ↔
        b ∈ insert (⟨i, k⟩ : Block) (freeBlocks free) := by
      simp only [freeBlocks, Set.mem_ofPred_eq, hmem, Set.mem_insert_iff, Block.ext_iff]
      constructor
      · rintro ⟨ho, ⟨h1, h2⟩ | hm⟩
        · exact Or.inl ⟨h2, h1⟩
        · exact Or.inr ⟨ho, hm⟩
      · rintro (⟨h1, h2⟩ | ⟨ho, hm⟩)
        · exact ⟨h2 ▸ hk, Or.inl ⟨h2, h1⟩⟩
        · exact ⟨ho, Or.inr hm⟩
    simp only [Set.mem_union, this]
  · intro x hx
    rcases State.pushFree_written _ _ _ _ hx with rfl | ⟨hxh, hxn⟩ | hx
    · exact hi
    · rw [State.setPage_freeLists] at hxh
      exact hxh ▸ h.head_lt hk (hxh ▸ hxn)
    · rcases List.mem_cons.mp hx with rfl | hx
      · exact hi
      · exact h.written x hx
  · intro x hx
    rw [(hpage x).1]
    split
    · omega
    · exact h.flag_le x hx

/-- Taking the head of a list into the hand. -/
theorem pop (h : Inv lo n s free live ∅) (hk : k < maxOrder) (hne : s.freeLists k ≠ noIdx) :
    ∃ rest, free k = s.freeLists k :: rest ∧
      Inv lo n (s.popFree k (s.freeLists k)) (Function.update free k rest) live
        {⟨s.freeLists k, k⟩} := by
  obtain ⟨rest, hrest⟩ := (h.lists.dll k hk).exists_cons hne
  refine ⟨rest, hrest, ?_⟩
  set idx := s.freeLists k with hidx
  have hin : idx ∈ free k := by rw [hrest]; exact List.mem_cons_self
  have hnd : idx ∉ rest := by
    have := (h.lists.dll k hk).nodup
    rw [hrest] at this
    exact (List.nodup_cons.mp this).1
  have hpage : ∀ j, ((s.popFree k idx).pageArray j).flag = (s.pageArray j).flag ∧
      ((s.popFree k idx).pageArray j).order = (s.pageArray j).order := by
    intro j
    rw [State.popFree_page]
    split <;> simp
  have hmem : ∀ j < maxOrder, ∀ x, x ∈ Function.update free k rest j ↔ x ∈ free j ∧ x ≠ idx := by
    intro j hj x
    by_cases hjk : j = k
    · subst hjk
      rw [Function.update_self, hrest, List.mem_cons]
      constructor
      · exact fun hx => ⟨Or.inr hx, fun he => hnd (he ▸ hx)⟩
      · rintro ⟨rfl | hx, hne⟩
        · exact absurd rfl hne
        · exact hx
    · rw [Function.update_of_ne hjk]
      exact ⟨fun hx => ⟨hx, fun he => hjk (h.order_unique hj hk (he ▸ hx) hin)⟩, fun hx => hx.1⟩
  refine { lists := h.lists.pop hk hrest, listed := ?_, flagged := ?_, alive := ?_,
           detached := ?_, tiles := ?_, written := ?_, flag_le := ?_ }
  · intro j hj x hx
    rw [(hpage x).1, (hpage x).2]
    exact h.listed j hj x ((hmem j hj x).mp hx).1
  · intro x hx h0
    rw [(hpage x).1] at h0
    rcases h.flagged x hx h0 with ⟨j, hj, hxj⟩ | ⟨b, hb, _⟩
    · by_cases hxi : x = idx
      · exact Or.inr ⟨_, rfl, hxi.symm⟩
      · exact Or.inl ⟨j, hj, (hmem j hj x).mpr ⟨hxj, hxi⟩⟩
    · exact absurd hb (Set.notMem_empty b)
  · intro b hb
    rw [(hpage _).1, (hpage _).2]
    exact h.alive b hb
  · rintro b rfl
    exact ⟨hk, fun j hj hm => ((hmem j hj _).mp hm).2 rfl,
      fun c hc he => h.live_not_listed hc hk (he ▸ hin)⟩
  · refine h.tiles.congr fun b => ?_
    simp only [Set.mem_union, Set.mem_singleton_iff, Set.mem_empty_iff_false, or_false]
    constructor
    · rintro ((hb | hb) | rfl)
      · exact Or.inl ⟨hb.1, ((hmem _ hb.1 _).mp hb.2).1⟩
      · exact Or.inr hb
      · exact Or.inl ⟨hk, hin⟩
    · rintro (hb | hb)
      · by_cases he : b.start = idx
        · refine Or.inr (Block.ext he ?_)
          exact h.order_unique hb.1 hk (he ▸ hb.2) hin
        · exact Or.inl (Or.inl ⟨hb.1, (hmem _ hb.1 _).mpr ⟨hb.2, he⟩⟩)
      · exact Or.inl (Or.inr hb)
  · intro x hx
    rcases State.popFree_written _ _ _ _ hx with ⟨hxn, hne⟩ | hx
    · have hxn' : x = nextOf s idx := hxn
      exact hxn' ▸ h.next_lt hk hin (hxn' ▸ hne)
    · exact h.written x hx
  · intro x hx
    rw [(hpage x).1]
    exact h.flag_le x hx

/-- Freeing the upper half of the block in the hand. -/
theorem splitOne (h : Inv lo n s free live {⟨i, k + 1⟩}) (hn : n ≤ noIdx) :
    Inv lo n ((s.setPage (i + 2 ^ k) fun p => { p with order := k, flag := 0 }).pushFree k
      (i + 2 ^ k)) (Function.update free k ((i + 2 ^ k) :: free k)) live {⟨i, k⟩} := by
  obtain ⟨hko, hioff, hilive⟩ := h.detached ⟨i, k + 1⟩ rfl
  have hpos := Nat.two_pow_pos k
  have hend : i + 2 ^ (k + 1) ≤ n := h.tiles.end_le (b := ⟨i, k + 1⟩) (Or.inr rfl)
  have hup : Block.Has ⟨i, k + 1⟩ (i + 2 ^ k) := by
    constructor <;> simp only [pow_succ] <;> omega
  rw [pow_succ] at hend
  -- no other block can start inside the one in the hand
  have hown : ∀ b ∈ freeBlocks free ∪ live ∪ {⟨i, k + 1⟩}, b.start ≠ i + 2 ^ k := by
    intro b hb he
    have hbe := h.tiles.disjoint b hb _ (Or.inr rfl) (i + 2 ^ k) (he ▸ b.has_start) hup
    rw [hbe] at he
    simp only at he
    omega
  refine h.push _ hn (Nat.lt_of_succ_lt hko) (by omega) (fun j hj hm => ?_) (fun c hc => ?_)
    (fun p => ⟨rfl, rfl, rfl, rfl⟩) ?_ ?_ ?_
  · exact hown ⟨_, j⟩ (Or.inl (Or.inl ⟨hj, hm⟩)) rfl
  · exact hown c (Or.inl (Or.inr hc))
  · rintro b rfl
    exact Or.inr ⟨_, rfl, rfl⟩
  · rintro b rfl
    exact ⟨Nat.lt_of_succ_lt hko, by simp only; omega, hioff, hilive⟩
  · refine h.tiles.split (i := i) (k := k) (Or.inr rfl) fun b => ?_
    simp only [Set.mem_union, Set.mem_insert_iff, Set.mem_singleton_iff]
    constructor
    · rintro (((rfl | hb) | hb) | rfl)
      · exact Or.inr (Or.inr rfl)
      · refine Or.inl ⟨Or.inl (Or.inl hb), ?_⟩
        rintro rfl
        exact hioff _ hb.1 hb.2
      · refine Or.inl ⟨Or.inl (Or.inr hb), ?_⟩
        rintro rfl
        exact hilive _ hb rfl
      · exact Or.inr (Or.inl rfl)
    · rintro (⟨((hb | hb) | hb), hne⟩ | rfl | rfl)
      · exact Or.inl (Or.inl (Or.inr hb))
      · exact Or.inl (Or.inr hb)
      · exact absurd hb hne
      · exact Or.inr rfl
      · exact Or.inl (Or.inl (Or.inl rfl))

/-- Handing out the block in the hand. -/
theorem handOut (h : Inv lo n s free live {⟨i, k⟩}) {f : Page → Page}
    (hf : ∀ p, (f p).flag = 1 ∧ (f p).order = k) :
    Inv lo n (s.setPage i f) free (insert ⟨i, k⟩ live) ∅ := by
  obtain ⟨hko, hioff, hilive⟩ := h.detached ⟨i, k⟩ rfl
  have hi := (h.held_lt (b := ⟨i, k⟩) rfl).2
  refine { lists := ?_, listed := ?_, flagged := ?_, alive := ?_, detached := ?_,
           tiles := ?_, written := ?_, flag_le := ?_ }
  · refine h.lists.congr (fun _ _ => rfl) fun j hj y hy => ?_
    have hyi : y ≠ i := fun he => hioff j hj (he ▸ hy)
    simp [nextOf, prevOf, hyi]
  · intro j hj x hx
    have hxi : x ≠ i := fun he => hioff j hj (he ▸ hx)
    simpa [hxi] using h.listed j hj x hx
  · intro x hx h0
    rw [State.setPage_page] at h0
    by_cases hxi : x = i
    · rw [if_pos hxi, (hf _).1] at h0
      omega
    · rw [if_neg hxi] at h0
      rcases h.flagged x hx h0 with hl | ⟨b, rfl, hb⟩
      · exact Or.inl hl
      · exact absurd hb.symm hxi
  · rintro b (rfl | hb)
    · simp [hf, hko]
    · have hbi : b.start ≠ i := hilive b hb
      simpa [hbi] using h.alive b hb
  · exact fun b hb => absurd hb (Set.notMem_empty b)
  · refine h.tiles.congr fun b => ?_
    simp only [Set.mem_union, Set.mem_insert_iff, Set.mem_singleton_iff, Set.mem_empty_iff_false]
    tauto
  · intro x hx
    rcases List.mem_cons.mp hx with rfl | hx
    · exact hi
    · exact h.written x hx
  · intro x hx
    rw [State.setPage_page]
    split
    · rw [(hf _).1]; omega
    · exact h.flag_le x hx

/-- Taking a live block back into the hand; the state does not change. -/
theorem takeBack (h : Inv lo n s free live ∅) {b : Block} (hb : b ∈ live) :
    Inv lo n s free (live \ {b}) {b} where
  lists := h.lists
  listed := h.listed
  flagged j hj h0 := Or.inl ((h.flagged j hj h0).resolve_right (by simp))
  alive c hc := h.alive c hc.1
  detached := by
    rintro c rfl
    refine ⟨(h.alive c hb).2.2, fun j hj => h.live_not_listed hb hj, fun d hd he => hd.2 ?_⟩
    exact h.tiles.eq_of_start (Or.inl (Or.inr hd.1)) (Or.inl (Or.inr hb)) he
  tiles := h.tiles.congr fun c => by
    simp only [Set.mem_union, Set.mem_sdiff, Set.mem_singleton_iff, Set.mem_empty_iff_false,
      or_false]
    constructor
    · rintro ((hc | hc) | rfl)
      · exact Or.inl hc
      · exact Or.inr hc.1
      · exact Or.inr hb
    · rintro (hc | hc)
      · exact Or.inl (Or.inl hc)
      · by_cases he : c = b
        · exact Or.inr he
        · exact Or.inl (Or.inr ⟨hc, he⟩)
  written := h.written
  flag_le := h.flag_le

/-- Absorbing the free buddy of the block in the hand. The merged block starts at the
lower of the two, and its record is not marked free. -/
theorem mergeOne (h : Inv lo n s free live {⟨i, k⟩}) (hk : k + 1 < maxOrder)
    (hflag : (s.pageArray i).flag ≠ 0) (hb : i ^^^ 2 ^ k < n)
    (hb0 : (s.pageArray (i ^^^ 2 ^ k)).flag = 0) (hbk : (s.pageArray (i ^^^ 2 ^ k)).order = k) :
    i ^^^ 2 ^ k ∈ free k ∧
      Inv lo n (s.takeBuddy k (i ^^^ 2 ^ k))
        (Function.update free k ((free k).erase (i ^^^ 2 ^ k))) live
        {⟨Bits.andNot i (2 ^ k), k + 1⟩} ∧
      ((s.takeBuddy k (i ^^^ 2 ^ k)).pageArray (Bits.andNot i (2 ^ k))).flag ≠ 0 := by
  have hk' : k < maxOrder := Nat.lt_of_succ_lt hk
  obtain ⟨_, hioff, hilive⟩ := h.detached ⟨i, k⟩ rfl
  set b := i ^^^ 2 ^ k with hbdef
  set m := Bits.andNot i (2 ^ k) with hmdef
  have hpos := Nat.two_pow_pos k
  -- the lower and the upper block of the pair are the one in the hand and its buddy
  have hpair : (i = m ∧ b = m + 2 ^ k) ∨ (b = m ∧ i = m + 2 ^ k) := by
    rw [hbdef, hmdef, Bits.xor_two_pow, Bits.andNot_two_pow]
    by_cases ht : i.testBit k
    · simp only [ht, if_true]
      exact Or.inr ⟨trivial, (Nat.sub_add_cancel (Nat.ge_two_pow_of_testBit ht)).symm⟩
    · simp [ht]
  have hbi : b ≠ i := by omega
  have hbfree : b ∈ free k := by
    rcases h.flagged b hb hb0 with ⟨j, hj, hbj⟩ | ⟨c, rfl, hc⟩
    · rwa [← hbk.symm.trans (h.listed j hj b hbj).2] at hbj
    · exact absurd hc.symm hbi
  have hp := h.lists.prev_ne_self hk' hbfree
  have hfields : ∀ j, j ≠ b → ((s.takeBuddy k b).pageArray j).flag = (s.pageArray j).flag ∧
      ((s.takeBuddy k b).pageArray j).order = (s.pageArray j).order := by
    intro j hj
    rw [State.takeBuddy_page s k b j hp hj]
    exact ⟨rfl, rfl⟩
  have hmem : ∀ j < maxOrder, ∀ x, x ∈ Function.update free k ((free k).erase b) j ↔
      x ∈ free j ∧ x ≠ b := by
    intro j hj x
    by_cases hjk : j = k
    · subst hjk
      rw [Function.update_self, (h.lists.dll j hj).nodup.mem_erase_iff, and_comm]
    · rw [Function.update_of_ne hjk]
      exact ⟨fun hx => ⟨hx, fun he => hjk (h.order_unique hj hk' (he ▸ hx) hbfree)⟩,
        fun hx => hx.1⟩
  refine ⟨hbfree, ?_, ?_⟩
  · refine { lists := h.lists.take hk' hbfree, listed := ?_, flagged := ?_, alive := ?_,
             detached := ?_, tiles := ?_, written := ?_, flag_le := ?_ }
    · intro j hj x hx
      obtain ⟨hxj, hxb⟩ := (hmem j hj x).mp hx
      rw [(hfields x hxb).1, (hfields x hxb).2]
      exact h.listed j hj x hxj
    · intro x hx h0
      by_cases hxb : x = b
      · rw [hxb, State.takeBuddy_self] at h0
        simp at h0
      · rw [(hfields x hxb).1] at h0
        rcases h.flagged x hx h0 with ⟨j, hj, hxj⟩ | ⟨c, rfl, rfl⟩
        · exact Or.inl ⟨j, hj, (hmem j hj x).mpr ⟨hxj, hxb⟩⟩
        · exact absurd h0 hflag
    · intro c hc
      have hcb : c.start ≠ b := fun he => h.live_not_listed hc hk' (he ▸ hbfree)
      rw [(hfields _ hcb).1, (hfields _ hcb).2]
      exact h.alive c hc
    · rintro c rfl
      refine ⟨hk, fun j hj hm => ?_, fun c hc he => ?_⟩
      · obtain ⟨hmj, hmb⟩ := (hmem j hj _).mp hm
        rcases hpair with ⟨him, _⟩ | ⟨hbm, _⟩
        · exact hioff j hj (him ▸ hmj)
        · exact hmb hbm.symm
      · rcases hpair with ⟨him, _⟩ | ⟨hbm, _⟩
        · exact hilive c hc (he.trans him.symm)
        · exact h.live_not_listed hc hk' (he.trans hbm.symm ▸ hbfree)
    · have hbS : (⟨b, k⟩ : Block) ∈ freeBlocks free ∪ live ∪ {⟨i, k⟩} :=
        Or.inl (Or.inl ⟨hk', hbfree⟩)
      have hiS : (⟨i, k⟩ : Block) ∈ freeBlocks free ∪ live ∪ {⟨i, k⟩} := Or.inr rfl
      have hlow : (⟨m, k⟩ : Block) ∈ freeBlocks free ∪ live ∪ {⟨i, k⟩} := by
        rcases hpair with ⟨him, _⟩ | ⟨hbm, _⟩
        · exact him ▸ hiS
        · exact hbm ▸ hbS
      have hhigh : (⟨m + 2 ^ k, k⟩ : Block) ∈ freeBlocks free ∪ live ∪ {⟨i, k⟩} := by
        rcases hpair with ⟨_, hbm⟩ | ⟨_, him⟩
        · exact hbm ▸ hbS
        · exact him ▸ hiS
      refine h.tiles.merge hlow hhigh fun c => ?_
      have hpairC : (c ≠ ⟨m, k⟩ ∧ c ≠ ⟨m + 2 ^ k, k⟩) ↔ (c ≠ ⟨i, k⟩ ∧ c ≠ ⟨b, k⟩) := by
        rcases hpair with ⟨him, hbm⟩ | ⟨hbm, him⟩
        · rw [← hbm, ← him]
        · rw [← him, ← hbm, and_comm]
      rw [hpairC]
      simp only [Set.mem_union, Set.mem_singleton_iff]
      constructor
      · rintro ((hc | hc) | rfl)
        · obtain ⟨hcm, hcb⟩ := (hmem _ hc.1 _).mp hc.2
          refine Or.inl ⟨Or.inl (Or.inl ⟨hc.1, hcm⟩), ?_, ?_⟩
          · rintro rfl; exact hioff _ hc.1 hcm
          · rintro rfl; exact hcb rfl
        · refine Or.inl ⟨Or.inl (Or.inr hc), ?_, ?_⟩
          · rintro rfl; exact hilive _ hc rfl
          · rintro rfl; exact h.live_not_listed hc hk' hbfree
        · exact Or.inr rfl
      · rintro (⟨((hc | hc) | hc), hci, hcb⟩ | rfl)
        · refine Or.inl (Or.inl ⟨hc.1, (hmem _ hc.1 _).mpr ⟨hc.2, fun he => hcb ?_⟩⟩)
          exact Block.ext he (h.order_unique hc.1 hk' (he ▸ hc.2) hbfree)
        · exact Or.inl (Or.inr hc)
        · exact absurd hc hci
        · exact Or.inr rfl
    · intro x hx
      rcases State.takeBuddy_written _ _ _ _ hp hx with rfl | ⟨hxp, hne⟩ | ⟨hxn, hne⟩ | hx
      · exact hb
      · exact hxp ▸ h.prev_lt hk' hbfree (hxp ▸ hne)
      · exact hxn ▸ h.next_lt hk' hbfree (hxn ▸ hne)
      · exact h.written x hx
    · intro x hx
      by_cases hxb : x = b
      · rw [hxb, State.takeBuddy_self]
      · rw [(hfields x hxb).1]
        exact h.flag_le x hx
  · rcases hpair with ⟨him, _⟩ | ⟨hbm, _⟩
    · rw [← him, (hfields i (Ne.symm hbi)).1]
      exact hflag
    · rw [← hbm, State.takeBuddy_self]
      simp

/-- Putting the block in the hand on its list ends the operation. -/
theorem release (h : Inv lo n s free live {⟨i, k⟩}) (hn : n ≤ noIdx) :
    Inv lo n (release s i k) (Function.update free k (i :: free k)) live ∅ := by
  obtain ⟨hk, hioff, hilive⟩ := h.detached ⟨i, k⟩ rfl
  have hi := (h.held_lt (b := ⟨i, k⟩) rfl).2
  have hpush := h.push ∅ (f := fun p => { p with flag := 0, order := k }) hn hk hi
    hioff hilive (fun p => ⟨rfl, rfl, rfl, rfl⟩) (by rintro b rfl; exact Or.inl rfl)
    (fun b hb => absurd hb (Set.notMem_empty b))
    (h.tiles.congr fun b => by
      simp only [Set.mem_union, Set.mem_insert_iff, Set.mem_singleton_iff,
        Set.mem_empty_iff_false]
      tauto)
  refine hpush.congr rfl (fun j => ?_) (fun j => ?_) (fun j => ?_) (fun j => ?_) ?_
  all_goals try (simp only [nextOf, prevOf, Kalloc.release, State.setPage_page]; split <;> rfl)
  intro j hj
  rcases List.mem_cons.mp hj with rfl | hj
  · exact hi
  · exact hpush.written j hj

end Inv

end RexOS.Kalloc
