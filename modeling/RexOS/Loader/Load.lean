import RexOS.Loader.Fill
import RexOS.Paging.Blocks

/-!
# Blocks one after the other

The loader takes a block, fills it and maps it. What holds between two blocks: the tables are
tiled by the calls made, nothing outside of granted memory has been written, and as long as the
ranges of the calls are apart every block keeps what it was filled with.
-/

namespace RexOS.Loader

open Bits RexOS.Kalloc RexOS.Paging Radix

variable {β : Type} {A : PageAlloc β} {Owns : β → List Grant → Prop} {root : Nat} {m₀ : Nat → Nat}
  {stack : Grant} {R L L' : List Grant} {s s₁ s' : Space β}

/-- A call that has been made, with memory before it. -/
structure Made where
  call : MapCall
  mem : Nat → Nat

def Made.tiles (b : Made) : List Tile := b.call.tiles b.mem

/-- The calls are about different addresses. -/
def Apart (bs : List Made) : Prop := bs.Pairwise fun b c => Disjoint b.call.range c.call.range

/-- After the calls `bs`. `m₀` is memory at the beginning, `R` the blocks taken for the process and
`stack` the one of its kernel stack. -/
structure Loaded (Owns : β → List Grant → Prop) (root : Nat) (m₀ : Nat → Nat) (stack : Grant)
    (R : List Grant) (s : Space β) (L : List Grant) (bs : List Made) : Prop where
  tiled : Tiled (Reserving Owns R) root s L (bs.flatMap Made.tiles)
  stack_mem : stack ∈ R
  whole : ∀ b ∈ bs, ∃ k, b.call.Whole k ∧ (b.call.isUser = true → ⟨b.call.physAddr, k⟩ ∈ R)
  kernel : ∀ b ∈ bs, b.call.isUser = false → ¬ b.call.Mega
  off_stack : ∀ b ∈ bs, b.call.isUser = true →
    Disjoint stack.extent (Set.Ico b.call.physAddr (b.call.physAddr + b.call.size))
  untouched : ∀ a, s.mem a ≠ m₀ a → ∃ g, (g ∈ R ∨ g ∈ L) ∧ a ∈ g.extent
  kept : Apart bs → ∀ b ∈ bs, b.call.isUser = true →
    ∀ w ∈ Set.Ico b.call.physAddr (b.call.physAddr + b.call.size), s.mem w = b.mem w

variable {bs : List Made} {b : Made} {c : MapCall} {k : Nat}

/-- A word of a page lies in its block. -/
theorem word_mem_page {t i : Nat} (hi : i < 512) : t + 8 * i ∈ (Grant.mk t 0).extent := by
  refine ⟨Nat.le_add_right t _, ?_⟩
  simp only [pow_zero]
  omega

/-- The block of a call. -/
theorem extent_eq (hc : c.Whole k) :
    (Grant.mk c.physAddr k).extent = Set.Ico c.physAddr (c.physAddr + c.size) := by
  rw [Grant.extent, hc.size_eq, Nat.mul_comm]

/-- The tiles of a list of calls are those of its calls. -/
theorem mem_tilesOf {e : Tile} : e ∈ bs.flatMap Made.tiles ↔ ∃ b ∈ bs, e ∈ b.tiles :=
  List.mem_flatMap

/-- A piece is open beside a list of calls if it is beside each of them. -/
theorem open_flatMap {x : Piece} : Open (bs.flatMap Made.tiles) x ↔ ∀ b ∈ bs, Open b.tiles x := by
  constructor
  · intro ho b hb
    exact ⟨fun e he => ho.1 e (mem_tilesOf.mpr ⟨b, hb, he⟩),
      fun d hd => ho.2 d (mem_tilesOf.mpr ⟨b, hb, hd⟩)⟩
  · intro ho
    refine ⟨fun e he => ?_, fun d hd => ?_⟩
    · obtain ⟨b, hb, he⟩ := mem_tilesOf.mp he
      exact (ho b hb).1 e he
    · obtain ⟨b, hb, hd⟩ := mem_tilesOf.mp hd
      exact (ho b hb).2 d hd

/-- The frame of a tile lies in the block of its call. -/
theorem tile_subset (hc : b.call.Whole k) {e : Tile} (he : e ∈ b.tiles) :
    e.piece ∈ b.call.pieces ∧ Set.Ico e.piece.pa (e.piece.pa + e.piece.span) ⊆
      Set.Ico b.call.physAddr (b.call.physAddr + b.call.size) := by
  obtain ⟨y, hy, rfl⟩ := MapCall.mem_tiles.mp he
  obtain ⟨-, -, -, f, hf, -, hpa⟩ := hc.mem_pieces hy
  refine ⟨hy, fun w hw => ⟨?_, ?_⟩⟩
  · have hlo : y.pa ≤ w := hw.1
    omega
  · have hhi : w < y.pa + y.span := hw.2
    omega

namespace Loaded

variable (h : Loaded Owns root m₀ stack R s L bs)
include h

/-- A call is open beside those made if it shares its pages with each of them. -/
theorem open_iff (hc : c.Whole k) : (∀ x ∈ c.pieces, Open (bs.flatMap Made.tiles) x) ↔
    ∀ b ∈ bs, MapCall.Shares b.mem b.call c := by
  constructor
  · intro ho b hb
    obtain ⟨l, hl, -⟩ := h.whole b hb
    exact (MapCall.open_iff hl hc).mp fun x hx => open_flatMap.mp (ho x hx) b hb
  · intro hs x hx
    apply open_flatMap.mpr
    intro b hb
    obtain ⟨l, hl, -⟩ := h.whole b hb
    exact (MapCall.open_iff hl hc).mpr (hs b hb) x hx

/-- A tile of 2 MiB lies in a block taken for the process. -/
theorem mega_block {e : Tile} (he : e ∈ bs.flatMap Made.tiles) (hm : e.Mega) :
    ∃ b ∈ bs, e ∈ b.tiles ∧ b.call.isUser = true ∧ ∃ l, b.call.Whole l ∧
      ⟨b.call.physAddr, l⟩ ∈ R := by
  obtain ⟨b, hb, heb⟩ := mem_tilesOf.mp he
  obtain ⟨l, hl, hR⟩ := h.whole b hb
  cases hu : b.call.isUser with
  | true => exact ⟨b, hb, heb, hu, l, hl, hR hu⟩
  | false =>
    exfalso
    have hlev := hl.level_eq (tile_subset hl heb).1
    rw [if_neg (h.kernel b hb hu)] at hlev
    exact absurd (hm.symm.trans hlev) (by decide)

/-- A block given now is apart from the frames of the tiles. -/
theorem frame_apart (hA : A.Grants Owns) {buff : Nat} {b' : β}
    (hrun : A.kalloc s.pages k = .done buff b') {e : Tile} (he : e ∈ bs.flatMap Made.tiles)
    (hm : e.Mega) :
    Disjoint (Set.Ico e.piece.pa (e.piece.pa + 2 ^ 21)) (Grant.mk buff k).extent := by
  obtain ⟨b, hb, heb, -, l, hl, hR⟩ := h.mega_block he hm
  have hdis := disjoint_of_take hA h.tiled.owns hrun (Or.inl hR)
  rw [extent_eq hl] at hdis
  obtain ⟨-, hsub⟩ := tile_subset hl heb
  rw [Tiled.mega_span hm] at hsub
  exact hdis.mono_left hsub

/-- What has been written is granted. -/
theorem untouched_of (hL : L ⊆ L') {R' : List Grant} (hR : R ⊆ R')
    (hw : ∀ a, s'.mem a ≠ s.mem a → ∃ g, (g ∈ R' ∨ g ∈ L') ∧ a ∈ g.extent) (a : Nat)
    (ha : s'.mem a ≠ m₀ a) : ∃ g, (g ∈ R' ∨ g ∈ L') ∧ a ∈ g.extent := by
  by_cases he : s'.mem a = s.mem a
  · obtain ⟨g, hg, hin⟩ := h.untouched a (he ▸ ha)
    exact ⟨g, hg.imp (@hR g) (@hL g), hin⟩
  · exact hw a he

/-- A block has been taken, and nothing else written. -/
theorem take (hA : A.Grants Owns) {buff : Nat} {b' : β} (hrun : A.kalloc s.pages k = .done buff b')
    (hpages : s₁.pages = b') (hmem : ∀ w, w ∉ (Grant.mk buff k).extent → s₁.mem w = s.mem w) :
    Loaded Owns root m₀ stack (⟨buff, k⟩ :: R) s₁ L bs where
  tiled := by
    refine h.tiled.agree (fun a ha => hmem a fun hin => ?_)
      (fun d hd hm n hn => hmem _ fun hin => ?_)
      (hpages ▸ reserving_take hA h.tiled.owns hrun) (List.Subset.refl L) fun g hg => hg.cons hA
    · obtain ⟨p, t, i, hp, ht, rfl⟩ := ha
      obtain ⟨hi, hp'⟩ := trail_cons.mp hp
      have hdis := disjoint_of_take hA h.tiled.owns hrun (Or.inr (h.tiled.held p t hp' ht))
      exact Set.disjoint_left.mp hdis (word_mem_page hi) hin
    · exact Set.disjoint_left.mp (h.frame_apart hA hrun hd hm) (Tiled.slot_mem hn) hin
  stack_mem := List.mem_cons_of_mem _ h.stack_mem
  whole b hb := by
    obtain ⟨l, hl, hR⟩ := h.whole b hb
    exact ⟨l, hl, fun hu => List.mem_cons_of_mem _ (hR hu)⟩
  kernel := h.kernel
  off_stack := h.off_stack
  untouched := by
    apply h.untouched_of (List.Subset.refl L) (List.subset_cons_self _ _)
    intro a ha
    refine ⟨_, Or.inl List.mem_cons_self, ?_⟩
    by_contra hin
    exact ha (hmem a hin)
  kept hap b hb hu w hw := by
    obtain ⟨l, hl, hR⟩ := h.whole b hb
    have hdis := disjoint_of_take hA h.tiled.owns hrun (Or.inl (hR hu))
    rw [extent_eq hl] at hdis
    rw [hmem w (Set.disjoint_left.mp hdis hw)]
    exact h.kept hap b hb hu w hw

/-- Only the kernel stack has been written. -/
theorem stack_write (hA : A.Grants Owns) (hpages : s₁.pages = s.pages)
    (hmem : ∀ w, w ∉ stack.extent → s₁.mem w = s.mem w) : Loaded Owns root m₀ stack R s₁ L bs where
  tiled := by
    have hres : Reserved (Reserving Owns R) stack := reserved_of_mem hA h.stack_mem
    refine h.tiled.agree (fun a ha => hmem a fun hin => ?_)
      (fun d hd hm n hn => hmem _ fun hin => ?_)
      (hpages ▸ h.tiled.owns) (List.Subset.refl L) fun g hg => hg
    · exact not_onTable_of_reserved hres h.tiled.toTree hin ha
    · obtain ⟨b, hb, hdb, hu, l, hl, -⟩ := h.mega_block hd hm
      obtain ⟨-, hsub⟩ := tile_subset hl hdb
      rw [Tiled.mega_span hm] at hsub
      exact Set.disjoint_left.mp (h.off_stack b hb hu) hin (hsub (Tiled.slot_mem hn))
  stack_mem := h.stack_mem
  whole := h.whole
  kernel := h.kernel
  off_stack := h.off_stack
  untouched := by
    apply h.untouched_of (List.Subset.refl L) (List.Subset.refl R)
    intro a ha
    refine ⟨stack, Or.inl h.stack_mem, ?_⟩
    by_contra hin
    exact ha (hmem a hin)
  kept hap b hb hu w hw := by
    rw [hmem w (Set.disjoint_right.mp (h.off_stack b hb hu) hw)]
    exact h.kept hap b hb hu w hw

/-- A call is made when it shares no page with the calls before, or only pages whose words were
even. Else the machine stops. -/
theorem mapCall (hA : A.Grants Owns) (hc : c.Whole k)
    (huser : c.isUser = true → ⟨c.physAddr, k⟩ ∈ R ∧
      Disjoint stack.extent (Set.Ico c.physAddr (c.physAddr + c.size)))
    (hkernel : c.isUser = false → ¬ c.Mega)
    (hfresh : c.Mega → ∀ e ∈ bs.flatMap Made.tiles, e.Mega →
      e.piece.pa < c.physAddr ∨ c.physAddr + c.size ≤ e.piece.pa)
    {j n : Nat} (virAddr : Nat) (hgo : A.Stock j (n + 2 * 2 ^ k) s.pages ∨
      (mapPieces A c.user c.perm root virAddr c.pieces s).Ends) :
    ((∀ b ∈ bs, MapCall.Shares b.mem b.call c) ∧ ∃ s' L',
      mapPieces A c.user c.perm root virAddr c.pieces s = .done () s' ∧
      Loaded Owns root m₀ stack R s' L' (bs ++ [⟨c, s.mem⟩]) ∧
      (A.Stock j (n + 2 * 2 ^ k) s.pages → A.Stock j n s'.pages)) ∨
    ((∃ b ∈ bs, ¬ MapCall.Shares b.mem b.call c) ∧
      ∃ arg s', mapPieces A c.user c.perm root virAddr c.pieces s = .panic 107 arg s') := by
  have hAR : A.Grants (Reserving Owns R) := reserving_grants hA
  have hres : ∀ g ∈ R, Reserved (Reserving Owns R) g := fun g hg => reserved_of_mem hA hg
  have hblock : c.Mega → Reserved (Reserving Owns R) ⟨c.physAddr, k⟩ := by
    intro hm
    cases hu : c.isUser with
    | true => exact hres _ (huser hu).1
    | false => exact absurd hm (hkernel hu)
  rcases h.tiled.mapWhole hAR hc hblock hfresh virAddr hgo with
    ⟨hopen, s', L', hmap, ht', hspread, hst⟩ | ⟨⟨x, hx, hno⟩, hstop⟩
  · have hmade : ∀ b, b ∈ bs ++ [(⟨c, s.mem⟩ : Made)] ↔ b ∈ bs ∨ b = ⟨c, s.mem⟩ := by
      intro b
      rw [List.mem_append, List.mem_singleton]
    refine Or.inl ⟨(h.open_iff hc).mp hopen, s', L', hmap, ?_, hst⟩
    have hapart : Apart (bs ++ [⟨c, s.mem⟩]) → ∀ d ∈ bs.flatMap Made.tiles, d.Mega →
        ∀ x ∈ c.pieces, ∀ n, x.path ≠ n :: d.path := by
      intro hap d hd hm x hx n hp
      obtain ⟨b, hb, hdb, -, l, hl, -⟩ := h.mega_block hd hm
      have hdis : Disjoint b.call.range c.range :=
        (List.pairwise_append.mp hap).2.2 b hb _ List.mem_cons_self
      obtain ⟨hdp, -⟩ := tile_subset hl hdb
      have hxin : x.va ∈ c.range := hc.piece_subset hx (r := 0) x.span_pos
      have hsub : d.piece.path <:+ x.path := by
        have hp : x.path = n :: d.piece.path := hp
        rw [hp]
        exact List.suffix_cons n _
      obtain ⟨r, hr, he⟩ := (hl.suffix_iff hdp (hc.canonical hxin)).mp
        (Piece.suffix_indices_of_suffix hsub)
      exact Set.disjoint_left.mp hdis (he ▸ hl.piece_subset hdp hr) hxin
    constructor
    · rw [List.flatMap_append, List.flatMap_singleton]
      exact ht'
    · exact h.stack_mem
    · intro b hb
      rcases (hmade b).mp hb with hb | rfl
      · exact h.whole b hb
      · exact ⟨k, hc, fun hu => (huser hu).1⟩
    · intro b hb hu
      rcases (hmade b).mp hb with hb | rfl
      · exact h.kernel b hb hu
      · exact hkernel hu
    · intro b hb hu
      rcases (hmade b).mp hb with hb | rfl
      · exact h.off_stack b hb hu
      · exact (huser hu).2
    · apply h.untouched_of hspread.grants (List.Subset.refl R)
      intro a ha
      by_contra hnone
      refine ha (hspread.frame a (fun hon => hnone ?_) fun d hd hm x hx n hp he => hnone ?_)
      · obtain ⟨p, t, i, hp, htab, rfl⟩ := hon
        obtain ⟨hi, hp'⟩ := trail_cons.mp hp
        exact ⟨⟨t, 0⟩, Or.inr (ht'.held p t hp' htab), word_mem_page hi⟩
      · obtain ⟨b, hb, hdb, -, l, hl, hR⟩ := h.mega_block hd hm
        obtain ⟨-, hsub⟩ := tile_subset hl hdb
        rw [Tiled.mega_span hm] at hsub
        have hpath := x.path_mem
        rw [hp] at hpath
        refine ⟨_, Or.inl hR, ?_⟩
        rw [extent_eq hl, he]
        exact hsub (Tiled.slot_mem (trail_cons.mp hpath).1)
    · intro hap b hb hu w hw
      have hR : ∃ g ∈ R, w ∈ g.extent := by
        rcases (hmade b).mp hb with hb | rfl
        · obtain ⟨l, hl, hR⟩ := h.whole b hb
          rw [← extent_eq hl] at hw
          exact ⟨_, hR hu, hw⟩
        · rw [← extent_eq hc] at hw
          exact ⟨_, (huser hu).1, hw⟩
      obtain ⟨g, hg, hwg⟩ := hR
      rw [hspread.frame w (not_onTable_of_reserved (hres g hg) ht'.toTree hwg)
          fun d hd hm x hx n hp =>
        absurd hp (hapart hap d hd hm x hx n)]
      rcases (hmade b).mp hb with hb | rfl
      · exact h.kept (List.pairwise_append.mp hap).1 b hb hu w hw
      · rfl
  · refine Or.inr ⟨?_, hstop⟩
    by_contra hall
    have hs : ∀ b ∈ bs, MapCall.Shares b.mem b.call c := by
      intro b hb
      by_contra hb'
      exact hall ⟨b, hb, hb'⟩
    exact hno ((h.open_iff hc).mpr hs x hx)

/-- A block that has been taken and filled is mapped so. -/
theorem mapBlock (hA : A.Grants Owns) {b' : β} (hc : c.Whole k) (huser : c.isUser = true)
    (hrun : A.kalloc s.pages k = .done c.physAddr b') (hpages : s₁.pages = b')
    (hmem : ∀ w, w ∉ (Grant.mk c.physAddr k).extent → s₁.mem w = s.mem w) {j n : Nat}
    (virAddr : Nat) (hgo : A.Stock j (n + 2 * 2 ^ k) s₁.pages ∨
      (mapPieces A c.user c.perm root virAddr c.pieces s₁).Ends) :
    ((∀ b ∈ bs, MapCall.Shares b.mem b.call c) ∧ ∃ s' L',
      mapPieces A c.user c.perm root virAddr c.pieces s₁ = .done () s' ∧
      Loaded Owns root m₀ stack (⟨c.physAddr, k⟩ :: R) s' L' (bs ++ [⟨c, s₁.mem⟩]) ∧
      (A.Stock j (n + 2 * 2 ^ k) s₁.pages → A.Stock j n s'.pages)) ∨
    ((∃ b ∈ bs, ¬ MapCall.Shares b.mem b.call c) ∧
      ∃ arg s', mapPieces A c.user c.perm root virAddr c.pieces s₁ = .panic 107 arg s') := by
  have hext := extent_eq hc
  have hdis := disjoint_of_take hA h.tiled.owns hrun (Or.inl h.stack_mem)
  rw [hext] at hdis
  apply (h.take hA hrun hpages hmem).mapCall hA hc (fun _ => ⟨List.mem_cons_self, hdis⟩)
    (fun hu => absurd (huser.symm.trans hu) (by decide)) _ virAddr hgo
  intro _ e he hm
  have hdis := h.frame_apart hA hrun he hm
  rw [hext] at hdis
  by_contra hin
  have hfirst : e.piece.pa ∈ Set.Ico e.piece.pa (e.piece.pa + 2 ^ 21) := ⟨le_rfl, by omega⟩
  exact Set.disjoint_left.mp hdis hfirst ⟨by omega, by omega⟩

end Loaded

end RexOS.Loader
