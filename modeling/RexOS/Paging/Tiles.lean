import RexOS.Kalloc.Stock
import RexOS.Paging.Mapping

/-!
# Pages below larger leaves

The map routines take any valid entry on their way down for a link. A page whose address lies in
2 MiB mapped before is therefore entered into the frame of these 2 MiB, unless the word there
happens to be odd, and a page mapped twice is noticed there as in a table. A tile is a piece that
has been mapped, one way or the other, with the memory of that moment.
-/

namespace RexOS.Paging

open Bits RexOS.Kalloc Radix

variable {β : Type} {A : PageAlloc β} {Owns : β → List Grant → Prop} {root : Nat}
  {s s' : Space β} {L L' : List Grant} {p q : List Nat} {a t i n : Nat}

/-! ## Memory that agrees on the tables -/

section Agree

variable (h : ∀ a, s.OnTable root a → s'.mem a = s.mem a)
include h

/-- Memory that agrees on the tables has the same entries. -/
theorem Space.cell_agree (hp : Trail 512 (i :: p)) (ht : s.table root p = some t) :
    cell s'.mem t i = cell s.mem t i := h _ ⟨p, t, i, hp, ht, rfl⟩

/-- It has the same tables. -/
theorem Space.table_agree (hp : Trail 512 p) : s'.table root p = s.table root p := by
  apply Radix.table_agree (d := p.length) _ hp le_rfl
  intro q t j _ hq ht
  exact congrArg link (Space.cell_agree h hq ht)

/-- It has the same leaves. -/
theorem Space.leaf_agree {f : Nat} : s'.Leaf root q f ↔ s.Leaf root q f := by
  constructor
  · intro hl
    obtain ⟨i, p, t, rfl, ht, rfl⟩ := hl.exists_table
    have htab : s'.table root p = s.table root p := Space.table_agree h (trail_cons.mp hl.path).2
    have ht : s.table root p = some t := htab.symm.trans ht
    exact ⟨hl.path, entry_cons.mpr ⟨t, ht, (Space.cell_agree h hl.path ht).symm⟩, hl.valid, hl.link⟩
  · intro hl
    obtain ⟨i, p, t, rfl, ht, rfl⟩ := hl.exists_table
    have htab : s'.table root p = s.table root p := Space.table_agree h (trail_cons.mp hl.path).2
    exact ⟨hl.path, entry_cons.mpr ⟨t, htab.trans ht, Space.cell_agree h hl.path ht⟩,
      hl.valid, hl.link⟩

/-- It has the same words of tables. -/
theorem Space.onTable_agree : s'.OnTable root a ↔ s.OnTable root a := by
  constructor
  · rintro ⟨p, t, i, hp, ht, rfl⟩
    exact ⟨p, t, i, hp, (Space.table_agree h (trail_cons.mp hp).2).symm.trans ht, rfl⟩
  · rintro ⟨p, t, i, hp, ht, rfl⟩
    exact ⟨p, t, i, hp, (Space.table_agree h (trail_cons.mp hp).2).trans ht, rfl⟩

/-- The walk reads nothing but the tables. -/
theorem Space.sv39_agree (va : Nat) : sv39 s'.mem root va = sv39 s.mem root va := by
  rw [sv39, sv39]
  split
  · exact Space.sv39Level_congr
      (fun q u j hsub hu => h _ ⟨q, u, j, (trail_indices va).suffix hsub, hu, rfl⟩) le_rfl rfl
  · rfl

/-- The allocator may have granted more meanwhile. -/
theorem Built.agree {Owns' : β → List Grant → Prop} (hb : Built Owns root s L)
    (howns : Owns' s'.pages L') (hL : L ⊆ L') : Built Owns' root s' L' where
  owns := howns
  shape := by
    refine ⟨fun p q t hp hq ht hu => ?_, fun p t hp ht => ?_⟩
    · exact hb.shape.inj p q t hp hq ((Space.table_agree h hp).symm.trans ht)
        ((Space.table_agree h hq).symm.trans hu)
    · exact hb.shape.depth p t hp ((Space.table_agree h hp).symm.trans ht)
  held p t hp ht := hL (hb.held p t hp ((Space.table_agree h hp).symm.trans ht))
  plain p t i u hp ht hu := by
    rw [Space.table_agree h (trail_cons.mp hp).2] at ht
    rw [Space.cell_agree h hp ht] at hu ⊢
    exact hb.plain p t i u hp ht hu
  fertile p t hp hne ht := by
    obtain ⟨q, ⟨f, hf⟩, hsub⟩ := hb.fertile p t hp hne ((Space.table_agree h hp).symm.trans ht)
    exact ⟨q, ⟨f, (Space.leaf_agree h).mpr hf⟩, hsub⟩

end Agree

/-! ## What a piece takes from a stock -/

section Stock

variable {k m : Nat}

/-- Clearing a table takes no page. -/
theorem zeroTable_pages (page : Nat) (s : Space β) : (zeroTable page s).pages = s.pages := by
  have hloop : ∀ (l : List Nat) (s : Space β),
      (l.foldl (fun s i => s.store (entryAt page i) 0) s).pages = s.pages := by
    intro l
    induction l with
    | nil => exact fun s => rfl
    | cons i l ih => exact fun s => ih (s.store (entryAt page i) 0)
  exact hloop _ s

/-- One page at most for a table. -/
theorem stock_ensureTable {code virAddr slot u : Nat} (h : A.Stock k (m + 1) s.pages)
    (hrun : ensureTable A code virAddr slot s = .done u s') : A.Stock k m s'.pages := by
  rw [ensureTable] at hrun
  split_ifs at hrun with hv
  · obtain ⟨page, s₁, hpage, hrest⟩ := Outcome.bind_eq_done.mp hrun
    obtain ⟨page', s₂, hwithin, hgiven⟩ := Outcome.bind_eq_done.mp hpage
    obtain ⟨b, hk, rfl⟩ := Outcome.within_eq_done.mp hwithin
    obtain ⟨rfl, rfl⟩ := Outcome.done.inj hgiven
    split_ifs at hrest with h0
    obtain ⟨-, rfl⟩ := Outcome.done.inj hrest
    rw [Space.store_pages, zeroTable_pages]
    exact h.of_page hk
  · obtain ⟨-, rfl⟩ := Outcome.done.inj hrun
    exact h.mono le_rfl (Nat.le_succ m)

/-- Nor does writing a leaf. -/
theorem pages_putLeaf {user perm slot pa : Nat} (hrun : putLeaf user perm slot pa s = .done () s') :
    s'.pages = s.pages := by
  rw [putLeaf] at hrun
  split_ifs at hrun
  obtain ⟨-, rfl⟩ := Outcome.done.inj hrun
  rfl

/-- Two pages at most for a piece. -/
theorem stock_mapPiece {user perm virAddr : Nat} {x : Piece} (h : A.Stock k (m + 2) s.pages)
    (hrun : mapPiece A user perm root virAddr x s = .done () s') : A.Stock k m s'.pages := by
  unfold mapPiece at hrun
  split at hrun
  · rw [pages_putLeaf hrun]
    exact h.mono le_rfl (by omega)
  · obtain ⟨t, s₁, h₁, h₂⟩ := Outcome.bind_eq_done.mp hrun
    rw [pages_putLeaf h₂]
    exact (stock_ensureTable h h₁).mono le_rfl (by omega)
  · obtain ⟨t, s₁, h₁, h₂⟩ := Outcome.bind_eq_done.mp hrun
    obtain ⟨u, s₂, h₃, h₄⟩ := Outcome.bind_eq_done.mp h₂
    rw [pages_putLeaf h₄]
    exact stock_ensureTable (stock_ensureTable h h₁) h₃

end Stock

/-! ## A page below 2 MiB -/

/-- A leaf names its frame. -/
theorem tableOf_leafPte {user perm pa : Nat} (hflags : leafFlags user perm < 1024) (hd : 4096 ∣ pa)
    (hlt : pa < 2 ^ 64) : tableOf (leafPte user perm pa) = pa := by
  rw [leafPte_eq hflags, tableOf_eq]
  omega

/-- The frame of the 2 MiB is taken for the table of its pages. -/
theorem Tree.mapPage_below (hA : A.Grants Owns) (h : Tree Owns root s L)
    {user perm virAddr va pa e : Nat} (hleaf : s.Leaf root [vpn va 21, vpn va 30] e) :
    mapPage A user perm root virAddr va pa s =
      putLeaf user perm (entryAt (tableOf e) (vpn va 12)) pa s := by
  obtain ⟨i, p, t, he, ht, hcell⟩ := hleaf.exists_table
  obtain ⟨rfl, rfl⟩ := List.cons.inj he
  obtain ⟨r, hr, hlink⟩ := table_cons.mp ht
  obtain rfl := Option.some.inj hr
  have hp1 : Trail 512 [vpn va 30] := (trail_cons.mp hleaf.path).2
  obtain ⟨⟨hv, -⟩, htab⟩ := link_eq_some.mp hlink
  have hroot : s.mem (entryAt root (vpn va 30)) = cell s.mem root (vpn va 30) := by
    rw [h.entryAt_table hA hp1 rfl]
    rfl
  have hlv1 : s.mem (entryAt t (vpn va 21)) = e := by
    rw [h.entryAt_table hA hleaf.path ht]
    exact hcell
  have hv1 : s.mem (entryAt root (vpn va 30)) &&& 0x1 ≠ 0 := by
    rw [hroot]
    exact hv
  have hv2 : s.mem (entryAt t (vpn va 21)) &&& 0x1 ≠ 0 := by
    rw [hlv1]
    exact hleaf.valid
  rw [mapPage, ensureTable, if_neg hv1, hroot, htab, Outcome.bind_done, ensureTable,
    if_neg hv2, hlv1, Outcome.bind_done]

/-! ## Tiles -/

/-- A piece with its leaf and memory when it was mapped. -/
structure Tile where
  piece : Piece
  pte : Nat
  seen : Nat → Nat

namespace Tile

variable (e : Tile)

def path : List Nat := e.piece.path

/-- Word `n` of the frame. -/
def slot (n : Nat) : Nat := e.piece.pa + 8 * n

/-- It is 2 MiB large. -/
def Mega : Prop := e.piece.level = 1

end Tile

/-- No table lies in a reserved block. -/
theorem not_onTable_of_reserved {g : Grant} (h : Reserved Owns g) (ht : Tree Owns root s L)
    (ha : a ∈ g.extent) : ¬ s.OnTable root a := by
  rintro ⟨p, t, i, hp, htab, rfl⟩
  obtain ⟨hi, hp'⟩ := trail_cons.mp hp
  refine Set.disjoint_left.mp (h _ L ht.owns _ (ht.held p t hp' htab)) ha ⟨Nat.le_add_right t _, ?_⟩
  simp only [pow_zero]
  omega

/-- The tables after the tiles have been mapped one after the other, pages below 2 MiB among
them. -/
structure Tiled (Owns : β → List Grant → Prop) (root : Nat) (s : Space β) (L : List Grant)
    (es : List Tile) : Prop extends Built Owns root s L where
  level : ∀ e ∈ es, e.piece.level ≤ 1
  frame : ∀ e ∈ es, e.Mega → tableOf e.pte = e.piece.pa ∧ 2 ^ 21 ∣ e.piece.pa
  physEnd : ∀ e ∈ es, e.Mega → e.piece.pa + 2 ^ 21 ≤ 2 ^ 64
  /-- The 2 MiB lie in a block. -/
  inBlock : ∀ e ∈ es, e.Mega → ∃ g, Reserved Owns g ∧
    Set.Ico e.piece.pa (e.piece.pa + 2 ^ 21) ⊆ g.extent
  inj : ∀ d ∈ es, ∀ e ∈ es, d.Mega → e.Mega → d.piece.pa = e.piece.pa → d = e
  leaf : ∀ q f, s.Leaf root q f → ∃ e ∈ es, q = e.path ∧ f = e.pte
  shown : ∀ e ∈ es, s.Leaf root e.path e.pte ∨
    e.piece.level = 0 ∧ ∃ d ∈ es, d.Mega ∧ d.path <:+ e.path
  /-- An odd word of these is odd from the start or the entry of a page. -/
  word : ∀ d ∈ es, d.Mega → ∀ n < 512, s.mem (d.slot n) % 2 = 1 ↔
    d.seen (d.slot n) % 2 = 1 ∨ ∃ e ∈ es, e.path = n :: d.path

/-- The piece can be mapped: it is above no tile, and where it is a page below one the word of the
frame was even. -/
def Open (es : List Tile) (x : Piece) : Prop :=
  (∀ e ∈ es, ¬ x.path <:+ e.path) ∧
    ∀ d ∈ es, ∀ n, x.path = n :: d.path → d.seen (d.slot n) % 2 = 0

namespace Tiled

variable {es : List Tile} {d e : Tile} {x : Piece}

/-- A tile is one or two tables below the root. -/
theorem path_length (h : Tiled Owns root s L es) (he : e ∈ es) :
    e.path.length = 3 - e.piece.level ∧ 2 ≤ e.path.length := by
  have hlen : e.path.length = 3 - e.piece.level := e.piece.path_length
  have hlev := h.level e he
  omega

/-- A megapage is a leaf of the tree. -/
theorem mega_leaf (h : Tiled Owns root s L es) (hd : d ∈ es) (hm : d.Mega) :
    s.Leaf root d.path d.pte := by
  rcases h.shown d hd with hl | ⟨h0, -⟩
  · exact hl
  · exact absurd (hm.symm.trans h0) (by decide)

/-- Two tiles of 2 MiB at one place are one. -/
theorem eq_of_path (h : Tiled Owns root s L es) (hd : d ∈ es) (he : e ∈ es) (hm : d.Mega)
    (hm' : e.Mega) (hp : d.path = e.path) : d = e := by
  have h1 := h.mega_leaf hd hm
  have h2 := h.mega_leaf he hm'
  rw [hp] at h1
  have hpte := (h1.eq_of_suffix h2 List.suffix_rfl).2
  apply h.inj d hd e he hm hm'
  rw [← (h.frame d hd hm).1, ← (h.frame e he hm').1, hpte]

/-- The frames are no tables. -/
theorem slot_mem (hn : n < 512) : d.slot n ∈ Set.Ico d.piece.pa (d.piece.pa + 2 ^ 21) := by
  unfold Tile.slot
  exact ⟨Nat.le_add_right _ _, by omega⟩

/-- Its block is no table. -/
theorem not_onTable (h : Tiled Owns root s L es) (hd : d ∈ es) (hm : d.Mega) (hn : n < 512) :
    ¬ s.OnTable root (d.slot n) := by
  obtain ⟨g, hg, hsub⟩ := h.inBlock d hd hm
  exact not_onTable_of_reserved hg h.toTree (hsub (slot_mem hn))

/-- Different words of frames lie at different addresses. -/
theorem slot_inj {m : Nat} (h : Tiled Owns root s L es) (hd : d ∈ es) (he : e ∈ es) (hm : d.Mega)
    (hm' : e.Mega) (hn : n < 512) (hk : m < 512) (hs : d.slot n = e.slot m) : d = e ∧ n = m := by
  obtain ⟨-, hd2⟩ := h.frame d hd hm
  obtain ⟨-, he2⟩ := h.frame e he hm'
  unfold Tile.slot at hs
  refine ⟨h.inj d hd e he hm hm' ?_, ?_⟩ <;> omega

/-- What is written elsewhere does not matter, nor what the allocator has done meanwhile. -/
theorem agree {Owns' : β → List Grant → Prop} (h : Tiled Owns root s L es)
    (htab : ∀ a, s.OnTable root a → s'.mem a = s.mem a)
    (hslot : ∀ d ∈ es, d.Mega → ∀ n < 512, s'.mem (d.slot n) = s.mem (d.slot n))
    (howns : Owns' s'.pages L') (hL : L ⊆ L') (hres : ∀ g, Reserved Owns g → Reserved Owns' g) :
    Tiled Owns' root s' L' es where
  toBuilt := h.toBuilt.agree htab howns hL
  level := h.level
  frame := h.frame
  physEnd := h.physEnd
  inBlock e he hm := by
    obtain ⟨g, hg, hsub⟩ := h.inBlock e he hm
    exact ⟨g, hres g hg, hsub⟩
  inj := h.inj
  leaf q f hl := h.leaf q f ((Space.leaf_agree htab).mp hl)
  shown e he := (h.shown e he).imp (Space.leaf_agree htab).mpr id
  word d hd hm n hn := by
    rw [hslot d hd hm n hn]
    exact h.word d hd hm n hn

/-! ## One piece more -/

/-- A piece that may be mapped: where it is 2 MiB large, to a frame in a block of its own. -/
structure Fit (Owns : β → List Grant → Prop) (es : List Tile) (x : Piece) : Prop where
  level : x.level ≤ 1
  virAddr : x.span ∣ x.va
  physAddr : x.span ∣ x.pa
  physEnd : x.pa + x.span ≤ 2 ^ 64
  inBlock : x.level = 1 → ∃ g, Reserved Owns g ∧ Set.Ico x.pa (x.pa + 2 ^ 21) ⊆ g.extent
  fresh : x.level = 1 → ∀ d ∈ es, d.Mega → d.piece.pa ≠ x.pa

/-- A megapage is 2 MiB. -/
theorem mega_span {x : Piece} (h : x.level = 1) : x.span = 2 ^ 21 := by
  rw [Piece.span, h]
  decide

/-- The tiles with one more that has become a leaf. -/
theorem snoc_leaf (h : Tiled Owns root s L es) (hx : Fit Owns es x)
    (hopen : Open es x) {pte : Nat} {m : Nat → Nat}
    (hseen : x.level = 1 → ∀ n < 512, m (x.pa + 8 * n) = s.mem (x.pa + 8 * n))
    {new : List (List Nat)} (hg : Grew A root s L new s' L')
    (hb : Built Owns root s' L') (hpte : x.level = 1 → tableOf pte = x.pa)
    (hclear : ∀ d ∈ es, d.Mega → ∀ n, x.path ≠ n :: d.path)
    (hleaf : ∀ q f, s'.Leaf root q f ↔ s.Leaf root q f ∨ (q = x.path ∧ f = pte)) :
    Tiled Owns root s' L' (es ++ [⟨x, pte, m⟩]) := by
  have hold : ∀ d ∈ es, d.Mega → ∀ n < 512, s'.mem (d.slot n) = s.mem (d.slot n) := by
    intro d hd hm n hn
    obtain ⟨g, hres, hsub⟩ := h.inBlock d hd hm
    exact hg.frame _ (not_onTable_of_reserved hres hb.toTree (hsub (slot_mem hn)))
  have hmem : ∀ e, e ∈ es ++ [(⟨x, pte, m⟩ : Tile)] ↔ e ∈ es ∨ e = ⟨x, pte, m⟩ := by
    intro e
    rw [List.mem_append, List.mem_singleton]
  refine ⟨hb, fun e he => ?_, fun e he hm => ?_, fun e he hm => ?_, fun e he hm => ?_,
    fun d hd e he hm hm' hpa => ?_,
    fun q f hl => ?_, fun e he => ?_, fun d hd hm n hn => ?_⟩
  · rcases (hmem e).mp he with he | rfl
    · exact h.level e he
    · exact hx.level
  · rcases (hmem e).mp he with he | rfl
    · exact h.frame e he hm
    · exact ⟨hpte hm, mega_span hm ▸ hx.physAddr⟩
  · rcases (hmem e).mp he with he | rfl
    · exact h.physEnd e he hm
    · have hend := hx.physEnd
      rw [mega_span hm] at hend
      exact hend
  · rcases (hmem e).mp he with he | rfl
    · exact h.inBlock e he hm
    · exact hx.inBlock hm
  · rcases (hmem d).mp hd with hd | rfl
    · rcases (hmem e).mp he with he | rfl
      · exact h.inj d hd e he hm hm' hpa
      · exact absurd hpa (hx.fresh hm' d hd hm)
    · rcases (hmem e).mp he with he | rfl
      · exact absurd hpa.symm (hx.fresh hm e he hm')
      · rfl
  · rcases (hleaf q f).mp hl with hl | ⟨rfl, rfl⟩
    · obtain ⟨e, he, hrest⟩ := h.leaf q f hl
      exact ⟨e, (hmem e).mpr (Or.inl he), hrest⟩
    · exact ⟨_, (hmem _).mpr (Or.inr rfl), rfl, rfl⟩
  · rcases (hmem e).mp he with he | rfl
    · rcases h.shown e he with hl | ⟨h0, d, hd, hm, hsub⟩
      · exact Or.inl ((hleaf _ _).mpr (Or.inl hl))
      · exact Or.inr ⟨h0, d, (hmem d).mpr (Or.inl hd), hm, hsub⟩
    · exact Or.inl ((hleaf _ _).mpr (Or.inr ⟨rfl, rfl⟩))
  · rcases (hmem d).mp hd with hd | rfl
    · rw [hold d hd hm n hn, h.word d hd hm n hn]
      apply or_congr_right
      constructor
      · rintro ⟨e, he, hp⟩
        exact ⟨e, (hmem e).mpr (Or.inl he), hp⟩
      · rintro ⟨e, he, hp⟩
        rcases (hmem e).mp he with he | rfl
        · exact ⟨e, he, hp⟩
        · exact absurd hp (hclear d hd hm n)
    · have hown : s'.mem (x.pa + 8 * n) = s.mem (x.pa + 8 * n) := by
        obtain ⟨g, hres, hsub⟩ := hx.inBlock hm
        exact hg.frame _
          (not_onTable_of_reserved hres hb.toTree (hsub ⟨Nat.le_add_right _ _, by omega⟩))
      simp only [Tile.slot, hown, hseen hm n hn]
      refine (or_iff_left ?_).symm
      rintro ⟨e, he, hp⟩
      have hsub : x.path <:+ e.path := hp ▸ List.suffix_cons n x.path
      rcases (hmem e).mp he with he | rfl
      · exact hopen.1 e he hsub
      · exact absurd hp (List.cons_ne_self n x.path).symm

/-- The tiles with a page more that has been entered into a frame. -/
theorem snoc_below (h : Tiled Owns root s L es) (hx : x.level = 0) (hd : d ∈ es)
    (hm : d.Mega) (hn : n < 512) (hp : x.path = n :: d.path) {pte : Nat} (hodd : pte % 2 = 1)
    (m : Nat → Nat) :
    Tiled Owns root (s.store (d.slot n) pte) L (es ++ [⟨x, pte, m⟩]) := by
  have htab : ∀ a, s.OnTable root a → (s.store (d.slot n) pte).mem a = s.mem a := by
    intro a ha
    apply Function.update_of_ne
    rintro rfl
    exact h.not_onTable hd hm hn ha
  have hmem : ∀ e, e ∈ es ++ [(⟨x, pte, m⟩ : Tile)] ↔ e ∈ es ∨ e = ⟨x, pte, m⟩ := by
    intro e
    rw [List.mem_append, List.mem_singleton]
  have hpage : ¬ Tile.Mega ⟨x, pte, m⟩ := by
    intro hm
    exact absurd (hx.symm.trans hm) (by decide)
  have hmega : ∀ e, e ∈ es ++ [(⟨x, pte, m⟩ : Tile)] → e.Mega → e ∈ es := by
    intro e he hm
    rcases (hmem e).mp he with he | rfl
    · exact he
    · exact absurd hm hpage
  refine ⟨h.toBuilt.agree htab h.owns (List.Subset.refl L), fun e he => ?_, fun e he hm => ?_,
    fun e he hm => ?_, fun e he hm => ?_, fun c hc e he hm hm' => ?_, fun q f hl =>
      ?_, fun e he => ?_,
    fun c hc hm' k hk => ?_⟩
  · rcases (hmem e).mp he with he | rfl
    · exact h.level e he
    · exact hx.le.trans (by decide)
  · exact h.frame e (hmega e he hm) hm
  · exact h.physEnd e (hmega e he hm) hm
  · exact h.inBlock e (hmega e he hm) hm
  · exact h.inj c (hmega c hc hm) e (hmega e he hm') hm hm'
  · obtain ⟨e, he, hrest⟩ := h.leaf q f ((Space.leaf_agree htab).mp hl)
    exact ⟨e, (hmem e).mpr (Or.inl he), hrest⟩
  · rcases (hmem e).mp he with he | rfl
    · rcases h.shown e he with hl | ⟨h0, c, hc, hm', hsub⟩
      · exact Or.inl ((Space.leaf_agree htab).mpr hl)
      · exact Or.inr ⟨h0, c, (hmem c).mpr (Or.inl hc), hm', hsub⟩
    · refine Or.inr ⟨hx, d, (hmem d).mpr (Or.inl hd), hm, ?_⟩
      have hsub : d.path <:+ n :: d.path := List.suffix_cons n d.path
      rw [← hp] at hsub
      exact hsub
  · have hc := hmega c hc hm'
    rw [Space.store_mem]
    by_cases he : c.slot k = d.slot n
    · -- the word written, odd since now
      obtain ⟨rfl, rfl⟩ := h.slot_inj hc hd hm' hm hk hn he
      rw [Function.update_self]
      exact iff_of_true hodd (Or.inr ⟨_, (hmem _).mpr (Or.inr rfl), hp⟩)
    · rw [Function.update_of_ne he, h.word c hc hm' k hk]
      apply or_congr_right
      constructor
      · rintro ⟨e, he', hq⟩
        exact ⟨e, (hmem e).mpr (Or.inl he'), hq⟩
      · rintro ⟨e, he', hq⟩
        rcases (hmem e).mp he' with he' | rfl
        · exact ⟨e, he', hq⟩
        · obtain ⟨rfl, hcd⟩ := List.cons.inj (hq.symm.trans hp)
          exact absurd (congrArg (Tile.slot · k) (h.eq_of_path hc hd hm' hm hcd)) he

/-- A place in the tree is taken when it is above a tile, unless a tile of 2 MiB lies above it. -/
theorem taken_iff (h : Tiled Owns root s L es) (hx : x.level ≤ 1)
    (hclear : ∀ d ∈ es, d.Mega → ∀ n, x.path ≠ n :: d.path) :
    s.Taken root x.path ↔ ∃ e ∈ es, x.path <:+ e.path := by
  have hne := x.path_ne_nil (by omega)
  constructor
  · intro ht
    obtain ⟨q, ⟨f, hf⟩, hsub⟩ := h.fertile.mapped_of_taken x.path_mem hne ht
    obtain ⟨e, he, rfl, -⟩ := h.leaf q f hf
    exact ⟨e, he, hsub⟩
  · rintro ⟨e, he, hsub⟩
    rcases h.shown e he with hl | ⟨h0, d, hd, hm, hdsub⟩
    · exact Space.Mapped.taken x.path_mem hne ⟨_, hl⟩ hsub
    · -- the tile is a page below 2 MiB, so the place is that of the 2 MiB
      have hlx : x.path.length = 3 - x.level := x.path_length
      have hle : e.path.length = 3 - 0 := h0 ▸ e.piece.path_length
      have hld : d.path.length = 3 - 1 := hm ▸ d.piece.path_length
      rcases Nat.le_one_iff_eq_zero_or_eq_one.mp hx with h0x | h1x
      · obtain ⟨l, hl⟩ := hdsub
        have hex : x.path = e.path := hsub.eq_of_length (by omega)
        have hone : l.length = 1 := by
          have hlen := congrArg List.length hl
          rw [List.length_append] at hlen
          omega
        obtain ⟨n, rfl⟩ := List.length_eq_one_iff.mp hone
        exact absurd (hex.trans hl.symm) (hclear d hd hm n)
      · have heq : x.path = d.path := by
          apply List.IsSuffix.eq_of_length _ (by omega)
          exact List.suffix_of_suffix_length_le hsub hdsub (by omega)
        rw [heq]
        exact Or.inl ⟨_, h.mega_leaf hd hm⟩

/-- What mapping pieces leaves alone. -/
structure Spread (root : Nat) (s : Space β) (L : List Grant) (es : List Tile) (ps : List Piece)
    (s' : Space β) (L' : List Grant) : Prop where
  grants : L ⊆ L'
  frame : ∀ a, ¬ s'.OnTable root a →
    (∀ d ∈ es, d.Mega → ∀ x ∈ ps, ∀ n, x.path = n :: d.path → a ≠ d.slot n) → s'.mem a = s.mem a
  onTable : ∀ a, s.OnTable root a → s'.OnTable root a

/-- Where the word is odd the machine stops, else it becomes the entry of the page. -/
theorem putLeaf_slot (h : Tiled Owns root s L es) (hd : d ∈ es) (hm : d.Mega) (hn : n < 512)
    (user perm pa : Nat) :
    putLeaf user perm (entryAt (tableOf d.pte) n) pa s =
      if s.mem (d.slot n) % 2 = 1 then .panic 107 pa s
      else .done () (s.store (d.slot n) (leafPte user perm pa)) := by
  obtain ⟨htab, hdvd⟩ := h.frame d hd hm
  have hend := h.physEnd d hd hm
  have hslot : entryAt (tableOf d.pte) n = d.slot n := by
    rw [htab]
    exact entryAt_eq (Nat.dvd_trans (by decide) hdvd) (by omega) hn
  rw [putLeaf, hslot]
  by_cases hodd : s.mem (d.slot n) % 2 = 1
  · rw [if_pos hodd]
    exact if_pos (valid_iff.mpr hodd)
  · rw [if_neg hodd]
    exact if_neg fun hv => hodd (valid_iff.mp hv)

section Step

variable {user perm : Nat} (hA : A.Grants Owns) (h : Tiled Owns root s L es) (hx : Fit Owns es x)
  (hperm : perm &&& 0xE ≠ 0) (hflags : leafFlags user perm < 1024) {m : Nat → Nat}
  (hseen : x.level = 1 → ∀ n < 512, m (x.pa + 8 * n) = s.mem (x.pa + 8 * n))
include hA h hx hperm hflags hseen

omit hx hperm hflags hseen in
/-- A page below a tile of 2 MiB. -/
theorem mapPiece_below (hd : d ∈ es) (hm : d.Mega) {k : Nat} (hp : x.path = k :: d.path)
    (virAddr : Nat) :
    (Open es x ∧ ∃ s', mapPiece A user perm root virAddr x s = .done () s' ∧ s'.pages = s.pages ∧
      Tiled Owns root s' L (es ++ [⟨x, leafPte user perm x.pa, m⟩]) ∧ Spread root s L es [x] s' L) ∨
    (¬ Open es x ∧ ∃ arg s', mapPiece A user perm root virAddr x s = .panic 107 arg s') := by
  have hlen : x.path.length = 3 - x.level := x.path_length
  have hld : d.path.length = 3 - 1 := hm ▸ d.piece.path_length
  have h0 : x.level = 0 := by
    rw [hp, List.length_cons] at hlen
    omega
  have hidx : x.path = indices x.va := by rw [Piece.path, h0, List.drop_zero]
  obtain ⟨rfl, hdp⟩ : vpn x.va 12 = k ∧ [vpn x.va 21, vpn x.va 30] = d.path :=
    List.cons.inj (hidx.symm.trans hp)
  have hk := vpn_lt x.va 12
  have hleaf := h.mega_leaf hd hm
  rw [← hdp] at hleaf
  have hrun : mapPiece A user perm root virAddr x s =
      if s.mem (d.slot (vpn x.va 12)) % 2 = 1 then .panic 107 x.pa s
      else .done () (s.store (d.slot (vpn x.va 12)) (leafPte user perm x.pa)) := by
    have hpage : mapPiece A user perm root virAddr x s =
        mapPage A user perm root virAddr x.va x.pa s := by
      rw [mapPiece, h0]
      rfl
    rw [hpage, h.mapPage_below hA hleaf, h.putLeaf_slot hd hm hk]
  by_cases hodd : s.mem (d.slot (vpn x.va 12)) % 2 = 1
  · right
    rw [hrun, if_pos hodd]
    refine ⟨fun ho => ?_, _, _, rfl⟩
    rcases (h.word d hd hm _ hk).mp hodd with hseen | ⟨e, he, hpe⟩
    · have heven := ho.2 d hd _ hp
      omega
    · rw [← hp] at hpe
      exact ho.1 e he (hpe ▸ List.suffix_rfl)
  · left
    rw [hrun, if_neg hodd]
    have hword := mt (h.word d hd hm _ hk).mpr hodd
    have hone : (leafPte user perm x.pa) % 2 = 1 := valid_iff.mp (valid_leafPte user perm x.pa)
    refine ⟨⟨fun e he hsub => ?_, fun c hc j hj => ?_⟩, _, rfl, rfl,
      h.snoc_below h0 hd hm hk hp hone m, List.Subset.refl L, fun a _ ha => ?_, fun a ha => ?_⟩
    · have hle : e.path.length ≤ 3 := by
        rw [(h.path_length he).1]
        omega
      have heq : x.path = e.path := hsub.eq_of_length_le (by omega)
      exact hword (Or.inr ⟨e, he, heq.symm.trans hp⟩)
    · obtain ⟨rfl, hcd⟩ := List.cons.inj (hj.symm.trans hp)
      have hcm : c.Mega := by
        have hlc := (h.path_length hc).1
        have hlev := h.level c hc
        unfold Tile.Mega
        rw [hcd] at hlc
        omega
      obtain rfl := h.eq_of_path hc hd hcm hm hcd
      have hseen := mt Or.inl hword
      omega
    · exact Function.update_of_ne (ha d hd hm x List.mem_cons_self _ hp) _ _
    · refine (Space.onTable_agree fun a ha => ?_).mpr ha
      apply Function.update_of_ne
      rintro rfl
      exact h.not_onTable hd hm hk ha

/-- A piece below no tile of 2 MiB. -/
theorem mapPiece_apart (hclear : ∀ d ∈ es, d.Mega → ∀ n, x.path ≠ n :: d.path) (virAddr : Nat)
    (hroom : A.Room 2 s.pages ∨ (Paging.mapPiece A user perm root virAddr x s).Ends) :
    (Open es x ∧ ∃ s' L', mapPiece A user perm root virAddr x s = .done () s' ∧
      Tiled Owns root s' L' (es ++ [⟨x, leafPte user perm x.pa, m⟩]) ∧
      Spread root s L es [x] s' L') ∨
    (¬ Open es x ∧ ∃ arg s', mapPiece A user perm root virAddr x s = .panic 107 arg s') := by
  have hlen : x.path.length = 3 - x.level := x.path_length
  have hlev := hx.level
  have hcl : s.Clear root x.path := by
    rintro q hq hne f hf
    obtain ⟨e, he, rfl, -⟩ := h.leaf q f hf
    obtain ⟨hle, htwo⟩ := h.path_length he
    obtain ⟨l, hl⟩ := hq
    have hsum := congrArg List.length hl
    rw [List.length_append] at hsum
    have hlne : l.length ≠ 0 := by
      intro h0
      obtain rfl := List.length_eq_zero_iff.mp h0
      exact hne hl
    have hone : l.length = 1 := by omega
    obtain ⟨n, rfl⟩ := List.length_eq_one_iff.mp hone
    have hm : e.Mega := by
      have hlevel := h.level e he
      unfold Tile.Mega
      omega
    exact hclear e he hm n hl.symm
  have hsecond : ∀ d ∈ es, ∀ n, x.path = n :: d.path → d.seen (d.slot n) % 2 = 0 := by
    intro d hd n hp
    have hm : d.Mega := by
      obtain ⟨hld, htwo⟩ := h.path_length hd
      have hlevel := h.level d hd
      have hsum := congrArg List.length hp
      rw [List.length_cons] at hsum
      unfold Tile.Mega
      omega
    exact absurd hp (hclear d hd hm n)
  have hattempt := mapPiece_spec user virAddr hA h.toTree hperm (show x.level ≤ 2 by omega) hcl
  have htaken := h.taken_iff hlev hclear
  generalize mapPiece A user perm root virAddr x s = o at hattempt hroom ⊢
  cases hattempt with
  | placed htree hg hnew hnt hleaf =>
    rename_i new s' L'
    left
    have hopen : Open es x := ⟨fun e he hsub => hnt (htaken.mpr ⟨e, he, hsub⟩), hsecond⟩
    have hb : Built Owns root s' L' := by
      refine ⟨htree, fun p t hp hne ht => ?_⟩
      rcases hg.added p t hp ht with ht | hin
      · obtain ⟨q, ⟨f, hf⟩, hsub⟩ := h.fertile p t hp hne ht
        exact ⟨q, ⟨f, (hleaf q f).mpr (Or.inl hf)⟩, hsub⟩
      · exact ⟨x.path, ⟨_, (hleaf _ _).mpr (Or.inr ⟨rfl, rfl⟩)⟩, (hnew p hin).1⟩
    have hpte : x.level = 1 → tableOf (leafPte user perm x.pa) = x.pa := by
      intro _
      have hd := (page_dvd_span x.level).trans hx.physAddr
      have hend := hx.physEnd
      have hpos := x.span_pos
      exact tableOf_leafPte hflags hd (by omega)
    exact ⟨hopen, s', L', rfl, h.snoc_leaf hx hopen hseen hg hb hpte hclear hleaf,
      ⟨hg.grants, fun a ha _ => hg.frame a ha, fun a ha => hg.onTable ha⟩⟩
  | blocked hg ht =>
    right
    refine ⟨fun ho => ?_, _, _, rfl⟩
    obtain ⟨e, he, hsub⟩ := htaken.mp ht
    exact ho.1 e he hsub
  | starved hno hg hnew hsub hne h0 hnone hk =>
    rename_i q
    exfalso
    rcases hroom with hroom | ⟨_, s₁, he⟩
    swap
    · exact hno s₁ he
    have hin : ∀ p, p <:+ x.path → p ≠ x.path → p ≠ [] →
        p ∈ ({x.path.drop 1, x.path.drop 2} : Finset (List Nat)) := by
      intro p hp hpx hp0
      obtain ⟨l, hl⟩ := hp
      have hsum := congrArg List.length hl
      rw [List.length_append] at hsum
      have hl0 : l.length ≠ 0 := by
        intro h0
        obtain rfl := List.length_eq_zero_iff.mp h0
        exact hpx hl
      have hp0' : p.length ≠ 0 := fun h0 => hp0 (List.length_eq_zero_iff.mp h0)
      have hdrop : x.path.drop l.length = p := by rw [← hl, List.drop_left]
      have hcases : l.length = 1 ∨ l.length = 2 := by omega
      rcases hcases with hc | hc
      · rw [hc] at hdrop
        exact Finset.mem_insert.mpr (Or.inl hdrop.symm)
      · rw [hc] at hdrop
        exact Finset.mem_insert.mpr (Or.inr (Finset.mem_singleton.mpr hdrop.symm))
    refine hg.not_starved (hroom.mono Finset.card_le_two) (fun r hr => ?_)
      (x.path_mem.suffix hsub) (Or.inr (hin _ hsub hne h0)) hnone hk
    obtain ⟨hrs, hrx⟩ := hnew r hr
    refine Or.inr (hin r hrs hrx ?_)
    rintro rfl
    exact absurd (hg.fresh [] hr).2.1 (by simp)

/-- A piece is mapped when the place is open, else the machine stops. -/
theorem mapPiece {j k : Nat} (virAddr : Nat)
    (hgo : A.Stock j (k + 2) s.pages ∨ (Paging.mapPiece A user perm root virAddr x s).Ends) :
    (Open es x ∧ ∃ s' L', mapPiece A user perm root virAddr x s = .done () s' ∧
      Tiled Owns root s' L' (es ++ [⟨x, leafPte user perm x.pa, m⟩]) ∧
      Spread root s L es [x] s' L' ∧ (A.Stock j (k + 2) s.pages → A.Stock j k s'.pages)) ∨
    (¬ Open es x ∧ ∃ arg s', mapPiece A user perm root virAddr x s = .panic 107 arg s') := by
  by_cases hbelow : ∃ d ∈ es, d.Mega ∧ ∃ n, x.path = n :: d.path
  · obtain ⟨d, hd, hm, n, hp⟩ := hbelow
    rcases h.mapPiece_below (m := m) hA hd hm hp virAddr with ⟨ho, s', hrun, -, ht, hs⟩ | hno
    · exact Or.inl ⟨ho, s', L, hrun, ht, hs, fun hstock => stock_mapPiece hstock hrun⟩
    · exact Or.inr hno
  · have hclear : ∀ d ∈ es, d.Mega → ∀ n, x.path ≠ n :: d.path := fun d hd hm n hp =>
      hbelow ⟨d, hd, hm, n, hp⟩
    have hroom := hgo.imp_left fun hstock => hstock.room.mono (show 2 ≤ k + 2 by omega)
    rcases h.mapPiece_apart hA hx hperm hflags hseen hclear virAddr hroom with
      ⟨ho, s', L', hrun, ht, hs⟩ | hno
    · exact Or.inl ⟨ho, s', L', hrun, ht, hs, fun hstock => stock_mapPiece hstock hrun⟩
    · exact Or.inr hno

end Step

/-! ## All pieces of a call -/

/-- A tile beside a piece does not close it. -/
theorem open_snoc {y : Piece} {pte : Nat} {m : Nat → Nat}
    (hxy : ¬ x.path <:+ y.path ∧ ¬ y.path <:+ x.path) :
    Open (es ++ [⟨x, pte, m⟩]) y ↔ Open es y := by
  constructor
  · intro ho
    exact ⟨fun e he => ho.1 e (List.mem_append_left _ he),
      fun d hd => ho.2 d (List.mem_append_left _ hd)⟩
  · intro ho
    refine ⟨fun e he hsub => ?_, fun d hd n hp => ?_⟩
    · rcases List.mem_append.mp he with he | he
      · exact ho.1 e he hsub
      · obtain rfl := List.mem_singleton.mp he
        exact hxy.2 hsub
    · rcases List.mem_append.mp hd with hd | hd
      · exact ho.2 d hd n hp
      · obtain rfl := List.mem_singleton.mp hd
        have hsub : x.path <:+ n :: x.path := List.suffix_cons n x.path
        exact absurd (hp ▸ hsub) hxy.1

/-- The tiles that pieces become, with memory before the first of them is mapped. -/
def tilesOf (user perm : Nat) (m : Nat → Nat) (ps : List Piece) : List Tile :=
  ps.map fun x => ⟨x, leafPte user perm x.pa, m⟩

/-- Pieces apart from each other are mapped when all their places are open, else the machine
stops. -/
theorem mapPieces {user perm : Nat} (hA : A.Grants Owns) (hperm : perm &&& 0xE ≠ 0)
    (hflags : leafFlags user perm < 1024) (virAddr : Nat) {m : Nat → Nat} {j k : Nat}
    {ps : List Piece} (h : Tiled Owns root s L es) (hfit : ∀ x ∈ ps, Fit Owns es x)
    (hapart : ps.Pairwise fun x y => ¬ x.path <:+ y.path ∧ ¬ y.path <:+ x.path)
    (hpa : ps.Pairwise fun x y => x.pa ≠ y.pa)
    (hseen : ∀ x ∈ ps, x.level = 1 → ∀ n < 512, m (x.pa + 8 * n) = s.mem (x.pa + 8 * n))
    (hgo : A.Stock j (k + 2 * ps.length) s.pages ∨
      (Paging.mapPieces A user perm root virAddr ps s).Ends) :
    ((∀ x ∈ ps, Open es x) ∧ ∃ s' L', mapPieces A user perm root virAddr ps s = .done () s' ∧
      Tiled Owns root s' L' (es ++ tilesOf user perm m ps) ∧ Spread root s L es ps s' L' ∧
      (A.Stock j (k + 2 * ps.length) s.pages → A.Stock j k s'.pages)) ∨
    ((∃ x ∈ ps, ¬ Open es x) ∧ ∃ arg s', mapPieces A user perm root virAddr ps s =
      .panic 107 arg s') := by
  induction ps generalizing s L es with
  | nil =>
    refine Or.inl ⟨by simp, s, L, rfl, ?_, ⟨List.Subset.refl L, fun _ _ _ => rfl, fun _ ha => ha⟩,
      id⟩
    rw [tilesOf, List.map_nil, List.append_nil]
    exact h
  | cons x ps ih =>
    obtain ⟨hx, hps⟩ := List.pairwise_cons.mp hapart
    obtain ⟨hxpa, hpspa⟩ := List.pairwise_cons.mp hpa
    have hxfit := hfit x List.mem_cons_self
    have hfirst : A.Stock j (k + 2 * ps.length + 2) s.pages ∨
        (Paging.mapPiece A user perm root virAddr x s).Ends := hgo.imp id Outcome.Ends.of_bind
    rcases h.mapPiece hA hxfit hperm hflags (hseen x List.mem_cons_self) virAddr hfirst with
      ⟨ho, s₁, L₁, hrun, ht, hspread, hst⟩ | ⟨hno, arg, s', hstop⟩
    · have hopen : ∀ y ∈ ps, Open (es ++ [⟨x, leafPte user perm x.pa, m⟩]) y ↔ Open es y :=
        fun y hy => open_snoc (hx y hy)
      have hfit' : ∀ y ∈ ps, Fit Owns (es ++ [⟨x, leafPte user perm x.pa, m⟩]) y := by
        intro y hy
        have hyfit := hfit y (List.mem_cons_of_mem _ hy)
        refine { hyfit with fresh := fun hl d hd hm => ?_ }
        rcases List.mem_append.mp hd with hd | hd
        · exact hyfit.fresh hl d hd hm
        · obtain rfl := List.mem_singleton.mp hd
          exact hxpa y hy
      have hseen' : ∀ y ∈ ps, y.level = 1 → ∀ n < 512,
          m (y.pa + 8 * n) = s₁.mem (y.pa + 8 * n) := by
        intro y hy hl n hn
        have hyfit := hfit' y hy
        rw [hseen y (List.mem_cons_of_mem _ hy) hl n hn]
        refine (hspread.frame _ (fun hon => ?_) fun d hd hm z hz i hp he => ?_).symm
        · obtain ⟨g, hres, hsub⟩ := hyfit.inBlock hl
          exact not_onTable_of_reserved hres ht.toTree (hsub ⟨Nat.le_add_right _ _, by omega⟩) hon
        · obtain rfl := List.mem_singleton.mp hz
          have hpath := z.path_mem
          rw [hp] at hpath
          have hi := (trail_cons.mp hpath).1
          have hdd := (h.frame d hd hm).2
          have hyd := hyfit.physAddr
          rw [mega_span hl] at hyd
          have hne := hyfit.fresh hl d (List.mem_append_left _ hd) hm
          unfold Tile.slot at he
          omega
      have hrest : A.Stock j (k + 2 * ps.length) s₁.pages ∨
          (Paging.mapPieces A user perm root virAddr ps s₁).Ends := by
        refine hgo.imp hst fun hends => ?_
        rw [Paging.mapPieces, hrun, Outcome.bind_done] at hends
        exact hends
      rcases ih ht hfit' hps hpspa hseen' hrest with ⟨hall, s', L', hrest, ht', hspread', hst'⟩ |
        ⟨⟨y, hy, hno⟩, arg, s', hstop⟩
      · refine Or.inl ⟨fun y hy => ?_, s', L', ?_, ?_, ⟨?_, fun a ha hne => ?_, fun a ha => ?_⟩,
          hst' ∘ hst⟩
        · rcases List.mem_cons.mp hy with rfl | hy
          · exact ho
          · exact (hopen y hy).mp (hall y hy)
        · rw [Paging.mapPieces, hrun, Outcome.bind_done, hrest]
        · rw [List.append_assoc] at ht'
          exact ht'
        · exact List.Subset.trans hspread.grants hspread'.grants
        · rw [hspread'.frame a ha, hspread.frame a (fun hon => ha (hspread'.onTable a hon))]
          · intro d hd hm z hz
            obtain rfl := List.mem_singleton.mp hz
            exact hne d hd hm z List.mem_cons_self
          · intro d hd hm z hz i hp
            rcases List.mem_append.mp hd with hd | hd
            · exact hne d hd hm z (List.mem_cons_of_mem _ hz) i hp
            · obtain rfl := List.mem_singleton.mp hd
              have hsub : x.path <:+ i :: x.path := List.suffix_cons i x.path
              exact absurd (hp ▸ hsub) (hx z hz).1
        · exact hspread'.onTable a (hspread.onTable a ha)
      · refine Or.inr ⟨⟨y, List.mem_cons_of_mem _ hy, mt (hopen y hy).mpr hno⟩, arg, s', ?_⟩
        rw [Paging.mapPieces, hrun, Outcome.bind_done, hstop]
    · refine Or.inr ⟨⟨x, List.mem_cons_self, hno⟩, arg, s', ?_⟩
      rw [Paging.mapPieces, hstop, Outcome.bind_panic]

end Tiled

end RexOS.Paging
