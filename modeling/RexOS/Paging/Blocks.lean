import RexOS.Paging.Tiles
import RexOS.Paging.UserTable

/-!
# Blocks mapped as a whole

A call that maps a block of the page allocator uses one size: pieces of 2 MiB where both the block
and its virtual address allow it, else pages. When the places of a later call are open is then a
matter of the two ranges and of one word of the block for every page they share.
-/

namespace RexOS.Paging

open Bits RexOS.Kalloc Radix

variable {β : Type} {A : PageAlloc β} {Owns : β → List Grant → Prop} {root : Nat}
  {s s' : Space β} {L L' : List Grant} {c d : MapCall} {k l : Nat} {x y : Piece} {m : Nat → Nat}

/-- The pieces have a page each at least. -/
theorem pieces_length {big : Bool} {fuel va pa size : Nat} (hva : 4096 ∣ va) (hpa : 4096 ∣ pa)
    (hsize : 4096 ∣ size) : 4096 * (pieces big fuel va pa size).length ≤ size := by
  induction fuel generalizing va pa size with
  | zero => exact Nat.zero_le size
  | succ fuel ih =>
    rw [pieces]
    by_cases h0 : size = 0
    · rw [if_pos h0]
      exact Nat.zero_le size
    · rw [if_neg h0]
      obtain ⟨-, -, hle⟩ := pieceLevel_span big hva hpa hsize h0
      have hd := page_dvd_span (pieceLevel big va pa size)
      have hrest := ih (dvd_wrap (by decide) (Nat.dvd_add hva hd))
        (dvd_wrap (by decide) (Nat.dvd_add hpa hd)) (Nat.dvd_sub hsize hd)
      have hpos : 4096 ≤ 4096 * 512 ^ pieceLevel big va pa size :=
        Nat.le_mul_of_pos_right _ (Nat.pow_pos (by decide))
      rw [List.length_cons]
      simp only [Piece.span]
      omega

/-- Where all is a multiple of 2 MiB no page is left over. -/
theorem pieces_mega {fuel va pa size : Nat} (hva : 2 ^ 21 ∣ va) (hpa : 2 ^ 21 ∣ pa)
    (hsize : 2 ^ 21 ∣ size) (hx : x ∈ pieces true fuel va pa size) : x.level ≠ 0 := by
  induction fuel generalizing va pa size with
  | zero => exact absurd hx List.not_mem_nil
  | succ fuel ih =>
    rw [pieces] at hx
    by_cases h0 : size = 0
    · rw [if_pos h0] at hx
      exact absurd hx List.not_mem_nil
    · rw [if_neg h0] at hx
      have hle : 2 ^ 21 ≤ size := Nat.le_of_dvd (Nat.pos_of_ne_zero h0) hsize
      have hlev : pieceLevel true va pa size ≠ 0 := by
        unfold pieceLevel
        split_ifs with h2 h1
        · decide
        · decide
        · exact absurd ⟨rfl, hle, hva, hpa⟩ h1
      rcases List.mem_cons.mp hx with rfl | hx
      · exact hlev
      · have hspan : 2 ^ 21 ∣ 4096 * 512 ^ pieceLevel true va pa size := by
          have h21 : (2 : Nat) ^ 21 = 4096 * 512 := rfl
          rw [h21]
          exact Nat.mul_dvd_mul_left 4096 (dvd_pow_self 512 hlev)
        exact ih (dvd_wrap (by decide) (Nat.dvd_add hva hspan))
          (dvd_wrap (by decide) (Nat.dvd_add hpa hspan)) (Nat.dvd_sub hsize hspan) hx

namespace MapCall

/-- The call maps a block of order `k` that is aligned to its size. -/
structure Whole (c : MapCall) (k : Nat) : Prop extends c.Plain where
  order : k < maxOrder
  size_eq : c.size = 4096 * 2 ^ k
  aligned : 4096 * 2 ^ k ∣ c.physAddr

/-- It does so in pieces of 2 MiB. -/
def Mega (c : MapCall) : Prop := 2 ^ 21 ∣ c.virAddr ∧ 2 ^ 21 ≤ c.size

instance (c : MapCall) : Decidable c.Mega := inferInstanceAs (Decidable (_ ∧ _))

namespace Whole

variable (h : c.Whole k)
include h

/-- The largest block is 8 MiB. -/
theorem size_le : c.size ≤ 2 ^ 23 := by
  have hk : 2 ^ k ≤ 2 ^ 11 := Nat.pow_le_pow_right (by decide) (Nat.le_of_lt_succ h.order)
  have hs := h.size_eq
  omega

/-- Each piece covers a part of the block, aligned to its span. -/
theorem mem_pieces (hx : x ∈ c.pieces) : x.level ≤ 2 ∧ x.span ∣ x.va ∧ x.span ∣ x.pa ∧
    ∃ d, d + x.span ≤ c.size ∧ x.va = c.virAddr + d ∧ x.pa = c.physAddr + d := by
  have hp : x ∈ c.piecesBy true := hx
  exact h.mem_piecesBy hp

/-- From 2 MiB on block and size are aligned to megapages. -/
theorem mega_dvd (hm : 2 ^ 21 ≤ c.size) : 2 ^ 21 ∣ c.size ∧ 2 ^ 21 ∣ c.physAddr := by
  have hk : 9 ≤ k := by
    by_contra hlt
    have hle : 2 ^ k ≤ 2 ^ 8 := Nat.pow_le_pow_right (by decide) (by omega)
    have hs := h.size_eq
    omega
  have hd : 2 ^ 21 ∣ 4096 * 2 ^ k := Nat.mul_dvd_mul_left 4096 (pow_dvd_pow 2 hk)
  rw [h.size_eq]
  exact ⟨hd, hd.trans h.aligned⟩

/-- No piece is a gigapage. -/
theorem level_le (hx : x ∈ c.pieces) : x.level ≤ 1 := by
  obtain ⟨hl, -, -, e, he, -, -⟩ := h.mem_pieces hx
  have hs := h.size_le
  by_contra hgt
  have h2 : x.level = 2 := by omega
  rw [Piece.span, h2] at he
  omega

/-- All pieces are megapages, or all are pages. -/
theorem level_eq (hx : x ∈ c.pieces) : x.level = if c.Mega then 1 else 0 := by
  obtain ⟨-, hva, hpa, e, he, hxva, hxpa⟩ := h.mem_pieces hx
  have hle := h.level_le hx
  split
  · rename_i hm
    obtain ⟨hdsize, hdphys⟩ := h.mega_dvd hm.2
    have hne : x.level ≠ 0 := by
      apply pieces_mega _ _ _ hx
      · rw [h.start_eq]
        exact hm.1
      · rw [h.frame_eq]
        exact hdphys
      · rw [h.len_eq]
        exact hdsize
    omega
  · rename_i hm
    by_contra hne
    have h1 : x.level = 1 := by omega
    rw [Tiled.mega_span h1] at hva hpa he
    have hlarge : 2 ^ 21 ≤ c.size := by omega
    obtain ⟨-, hdphys⟩ := h.mega_dvd hlarge
    refine hm ⟨?_, hlarge⟩
    omega

/-- There are at most as many pieces as pages. -/
theorem length_le : (c.pieces).length ≤ 2 ^ k := by
  have hlen : 4096 * c.pieces.length ≤ c.len := pieces_length c.dvd_start c.dvd_frame c.dvd_len
  rw [h.len_eq, h.size_eq] at hlen
  omega

/-- Their frames are different. -/
theorem pairwise_pa : c.pieces.Pairwise fun x y => x.pa ≠ y.pa := by
  have hend := h.virEnd
  have hpw : c.pieces.Pairwise fun x y => x.va + x.span ≤ y.va := by
    apply pieces_pairwise c.dvd_start c.dvd_frame c.dvd_len h.proper.frame_lt
    rw [h.start_eq, h.len_eq]
    omega
  apply List.Pairwise.imp_of_mem _ hpw
  intro x y hx hy hlt he
  obtain ⟨-, -, -, e, he, hxva, hxpa⟩ := h.mem_pieces hx
  obtain ⟨-, -, -, f, hf, hyva, hypa⟩ := h.mem_pieces hy
  have hpos := x.span_pos
  omega

end Whole

/-- Word of the block that is taken for the entry of a page. -/
def slotOf (c : MapCall) (page : Nat) : Nat :=
  c.physAddr + (page / 2 ^ 21 * 2 ^ 21 - c.virAddr) + 8 * (page / 4096 % 512)

/-- Every page the two calls share is in 2 MiB of the first and a page of the second, and the word
taken for its entry was even. -/
def Shares (m : Nat → Nat) (c d : MapCall) : Prop :=
  ∀ page, 4096 ∣ page → page ∈ c.range → page ∈ d.range →
    c.Mega ∧ ¬ d.Mega ∧ m (c.slotOf page) % 2 = 0

/-- The tiles of a call. -/
def tiles (c : MapCall) (m : Nat → Nat) : List Tile := Tiled.tilesOf c.user c.perm m c.pieces

/-- Each piece is one tile, with the leaf for it. -/
theorem mem_tiles {e : Tile} : e ∈ c.tiles m ↔
    ∃ y ∈ c.pieces, e = ⟨y, leafPte c.user c.perm y.pa, m⟩ := by
  unfold tiles Tiled.tilesOf
  rw [List.mem_map]
  constructor
  · rintro ⟨y, hy, rfl⟩
    exact ⟨y, hy, rfl⟩
  · rintro ⟨y, hy, rfl⟩
    exact ⟨y, hy, rfl⟩

/-- The index at the last level is that of the page. -/
theorem vpn_page (va : Nat) : vpn va 12 = va / 4096 % 512 := vpn_eq va 12

/-- The piece a page lies in. -/
theorem Whole.exists_page (h : c.Whole k) {page : Nat} (hd : 4096 ∣ page) (hp : page ∈ c.range) :
    ∃ y ∈ c.pieces, y.path <:+ indices page ∧
      (c.Mega → y.va = page / 2 ^ 21 * 2 ^ 21 ∧ y.level = 1) ∧
        (¬ c.Mega → y.va = page ∧ y.level = 0) := by
  obtain ⟨y, hy, r, hr, he, -⟩ := h.exists_piece true hp
  have hlev := h.level_eq hy
  obtain ⟨-, hva, -⟩ := h.mem_pieces hy
  refine ⟨y, hy, (h.suffix_iff hy (h.canonical hp)).mpr ⟨r, hr, he⟩, fun hm => ?_, fun hm => ?_⟩
  · rw [if_pos hm] at hlev
    rw [Tiled.mega_span hlev] at hva hr
    exact ⟨by omega, hlev⟩
  · rw [if_neg hm] at hlev
    have hspan : y.span = 4096 := by
      rw [Piece.span, hlev]
      rfl
    rw [hspan] at hva hr
    exact ⟨by omega, hlev⟩

/-- When the places of a later call are open. -/
theorem open_iff (hc : c.Whole k) (hd : d.Whole l) :
    (∀ x ∈ d.pieces, Open (c.tiles m) x) ↔ Shares m c d := by
  constructor
  · intro ho page hdvd hpc hpd
    obtain ⟨y, hy, hysub, hymega, hypage⟩ := hc.exists_page hdvd hpc
    obtain ⟨x, hx, hxsub, hxmega, hxpage⟩ := hd.exists_page hdvd hpd
    obtain ⟨hfirst, hsecond⟩ := ho x hx
    have hnot := hfirst _ (mem_tiles.mpr ⟨y, hy, rfl⟩)
    have hlx : x.path.length = 3 - x.level := x.path_length
    have hly : y.path.length = 3 - y.level := y.path_length
    have hlt : y.path.length < x.path.length := by
      by_contra hge
      exact hnot (List.suffix_of_suffix_length_le hxsub hysub (Nat.le_of_not_lt hge))
    have hlevx := hd.level_eq hx
    have hlevy := hc.level_eq hy
    have hcm : c.Mega := by
      by_contra hcm
      rw [if_neg hcm] at hlevy
      omega
    have hdm : ¬ d.Mega := by
      intro hdm
      rw [if_pos hdm] at hlevx
      rw [if_pos hcm] at hlevy
      omega
    obtain ⟨hyva, hy1⟩ := hymega hcm
    obtain ⟨hxva, hx0⟩ := hxpage hdm
    refine ⟨hcm, hdm, ?_⟩
    have hpath : x.path = vpn page 12 :: y.path := by
      rw [Piece.path, Piece.path, hx0, hy1, hxva, hyva, List.drop_zero]
      have hdrop : (indices (page / 2 ^ 21 * 2 ^ 21)).drop 1 = (indices page).drop 1 := by
        rw [drop_indices_eq_iff (by decide)]
        have h21 : 4096 * 512 ^ 1 = 2 ^ 21 := rfl
        rw [h21]
        omega
      rw [hdrop]
      rfl
    have heven := hsecond _ (mem_tiles.mpr ⟨y, hy, rfl⟩) _ hpath
    obtain ⟨-, -, -, e, he, hev, hep⟩ := hc.mem_pieces hy
    have hslot : y.pa + 8 * vpn page 12 = c.slotOf page := by
      rw [slotOf, vpn_page]
      omega
    rw [← hslot]
    exact heven
  · intro hs x hx
    have hlx : x.path.length = 3 - x.level := x.path_length
    have hlevx := hd.level_eq hx
    obtain ⟨-, hxd, -, -⟩ := hd.mem_pieces hx
    have hxpage : 4096 ∣ x.va := (page_dvd_span _).trans hxd
    have hxin : x.va ∈ d.range := hd.piece_subset hx (r := 0) x.span_pos
    refine ⟨fun e he hsub => ?_, fun e he n hp => ?_⟩
    · obtain ⟨y, hy, rfl⟩ := mem_tiles.mp he
      have hly : y.path.length = 3 - y.level := y.path_length
      have hlevy := hc.level_eq hy
      obtain ⟨-, hyd, -, -⟩ := hc.mem_pieces hy
      have hyin : y.va ∈ c.range := hc.piece_subset hy (r := 0) y.span_pos
      obtain ⟨r, hr, hyx⟩ := (hd.suffix_iff hx (hc.canonical hyin)).mp
        (Piece.suffix_indices_of_suffix (x := x) (y := y) hsub)
      have hyin' : y.va ∈ d.range := hyx ▸ hd.piece_subset hx hr
      obtain ⟨hcm, hdm, -⟩ := hs y.va ((page_dvd_span _).trans hyd) hyin hyin'
      rw [if_neg hdm] at hlevx
      rw [if_pos hcm] at hlevy
      have hle : x.path.length ≤ y.path.length := hsub.length_le
      omega
    · obtain ⟨y, hy, rfl⟩ := mem_tiles.mp he
      have hysub : y.path <:+ x.path := by
        have hp : x.path = n :: y.path := hp
        rw [hp]
        exact List.suffix_cons n y.path
      obtain ⟨r, hr, hxy⟩ := (hc.suffix_iff hy (hd.canonical hxin)).mp
        (Piece.suffix_indices_of_suffix hysub)
      have hxin' : x.va ∈ c.range := hxy ▸ hc.piece_subset hy hr
      obtain ⟨hcm, hdm, heven⟩ := hs x.va hxpage hxin' hxin
      have hlevy := hc.level_eq hy
      rw [if_pos hcm] at hlevy
      rw [if_neg hdm] at hlevx
      obtain ⟨-, hyd, -, f, hf, hev, hep⟩ := hc.mem_pieces hy
      rw [Tiled.mega_span hlevy] at hr hyd
      have hn : n = vpn x.va 12 := by
        have hpath : x.path = indices x.va := by rw [Piece.path, hlevx, List.drop_zero]
        exact ((List.cons.inj (hpath.symm.trans hp)).1).symm
      have hslot : y.pa + 8 * n = c.slotOf x.va := by
        rw [slotOf, hn, vpn_page]
        omega
      show m (y.pa + 8 * n) % 2 = 0
      rw [hslot]
      exact heven

end MapCall

/-! ## Mapping a block -/

/-- The pieces are those of whole pages, whatever the address. -/
theorem mapRange_eq {user v p size perm : Nat} (b : Bool) :
    mapRange A user root v p size perm s =
      mapPieces A user perm root v
        (MapCall.pieces ⟨b, v / 4096 * 4096, p / 4096 * 4096, size, perm⟩) s := by
  have hround : ∀ a, andNot (a / 4096 * 4096) 0xFFF = andNot a 0xFFF := by
    intro a
    rw [MapCall.andNot_page, MapCall.andNot_page]
    omega
  have hraw : mapRange A user root v p size perm s =
      mapPieces A user perm root v (MapCall.pieces ⟨b, v, p, size, perm⟩) s :=
    mapLoop_eq (MapCall.dvd_start ⟨b, v, p, size, perm⟩) (MapCall.dvd_frame ⟨b, v, p, size, perm⟩)
      (MapCall.dvd_len ⟨b, v, p, size, perm⟩) (MapCall.len_lt ⟨b, v, p, size, perm⟩)
      (MapCall.len_fuel ⟨b, v, p, size, perm⟩)
  rw [hraw]
  unfold MapCall.pieces MapCall.start MapCall.frame MapCall.len
  rw [hround v, hround p]

/-- A block is mapped when all places are open, else the machine stops. -/
theorem Tiled.mapWhole (hA : A.Grants Owns) {es : List Tile} (h : Tiled Owns root s L es)
    (hc : c.Whole k) (hblock : c.Mega → Reserved Owns ⟨c.physAddr, k⟩)
    (hfresh : c.Mega → ∀ e ∈ es, e.Mega →
      e.piece.pa < c.physAddr ∨ c.physAddr + c.size ≤ e.piece.pa)
    {j n : Nat} (virAddr : Nat) (hgo : A.Stock j (n + 2 * 2 ^ k) s.pages ∨
      (Paging.mapPieces A c.user c.perm root virAddr c.pieces s).Ends) :
    ((∀ x ∈ c.pieces, Open es x) ∧ ∃ s' L',
      Paging.mapPieces A c.user c.perm root virAddr c.pieces s = .done () s' ∧
      Tiled Owns root s' L' (es ++ c.tiles s.mem) ∧ Spread root s L es c.pieces s' L' ∧
      (A.Stock j (n + 2 * 2 ^ k) s.pages → A.Stock j n s'.pages)) ∨
    ((∃ x ∈ c.pieces, ¬ Open es x) ∧
      ∃ arg s', Paging.mapPieces A c.user c.perm root virAddr c.pieces s = .panic 107 arg s') := by
  have hend := hc.physEnd
  have hmega : ∀ x ∈ c.pieces, x.level = 1 → c.Mega := by
    intro x hx hl
    have hlev := hc.level_eq hx
    by_contra hm
    rw [if_neg hm] at hlev
    omega
  have hfit : ∀ x ∈ c.pieces, Fit Owns es x := by
    intro x hx
    obtain ⟨-, hva, hpa, e, he, -, hxpa⟩ := hc.mem_pieces hx
    refine ⟨hc.level_le hx, hva, hpa, by omega, fun hl => ?_, fun hl d hd hm => ?_⟩
    · have hm := hmega x hx hl
      rw [mega_span hl] at he
      refine ⟨_, hblock hm, ?_⟩
      rintro w ⟨hlo, hhi⟩
      have hsize := hc.size_eq
      refine ⟨?_, ?_⟩ <;> simp only <;> omega
    · have hapart := hfresh (hmega x hx hl) d hd hm
      have hpos := x.span_pos
      omega
  have hless : A.Stock j (n + 2 * 2 ^ k) s.pages → A.Stock j (n + 2 * c.pieces.length) s.pages := by
    intro hstock
    have hlen := hc.length_le
    exact hstock.mono le_rfl (by omega)
  rcases h.mapPieces hA hc.proper.perm_low (leafFlags_spec (MapCall.Plain.user_eq c) hc.perm).1
    virAddr
    hfit hc.own_apart hc.pairwise_pa (fun _ _ _ _ _ => rfl) (hgo.imp_left hless) with
    ⟨hopen, s', L', hrun, ht, hspread, hst⟩ | hno
  · exact Or.inl ⟨hopen, s', L', hrun, ht, hspread, hst ∘ hless⟩
  · exact Or.inr hno

/-! ## The kernel's pages of a process -/

/-- A new table has no tile. -/
theorem Blank.tiled (h : Blank Owns root s L) : Tiled Owns root s L [] where
  toBuilt := h.built
  level := by simp
  frame := by simp
  physEnd := by simp
  inBlock := by simp
  inj := by simp
  leaf q f hl := absurd ⟨f, hl⟩ (h.not_mapped q)
  shown := by simp
  word := by simp

/-- The calls for the trampoline and for the kernel stack. -/
def kernelPage (virAddr physAddr perm : Nat) : MapCall :=
  ⟨false, virAddr, physAddr / 4096 * 4096, 4096, perm⟩

/-- One page of the kernel is a whole page. -/
theorem kernelPage_whole {virAddr physAddr perm : Nat} (hd : 4096 ∣ virAddr)
    (hv : virAddr + 4096 ≤ 2 ^ 38) (hp : physAddr + 4096 ≤ 2 ^ 56) (hperm : perm ∈ leafPerms) :
    (kernelPage virAddr physAddr perm).Whole 0 where
  virAddr := hd
  physAddr := Nat.dvd_mul_left _ _
  size := dvd_rfl
  virEnd := hv
  physEnd := by
    have hle : physAddr / 4096 * 4096 ≤ physAddr := Nat.div_mul_le_self physAddr 4096
    exact (Nat.add_le_add_right hle 4096).trans hp
  perm := hperm
  order := by decide
  size_eq := rfl
  aligned := Nat.dvd_mul_left _ _

/-- It is no megapage. -/
theorem kernelPage_not_mega {virAddr physAddr perm : Nat} :
    ¬ (kernelPage virAddr physAddr perm).Mega := by
  rintro ⟨-, hle⟩
  have hsize : (kernelPage virAddr physAddr perm).size = 4096 := rfl
  rw [hsize] at hle
  exact absurd hle (by decide)

end RexOS.Paging
