import RexOS.Paging.Model

/-!
# The pieces of a range

The loop of the map routines cuts its range into pieces of three sizes and maps them one
after the other. Which pieces these are depends on its arguments alone. The loop that knows
no size but 4 KiB is the same with other pieces.
-/

namespace RexOS.Paging

open Bits RexOS.Kalloc

/-- A piece of `4096 * 512 ^ level` bytes. -/
structure Piece where
  level : Nat
  va : Nat
  pa : Nat
  deriving DecidableEq

def Piece.span (x : Piece) : Nat := 4096 * 512 ^ x.level

/-- The level of the next piece; only 4 KiB pieces unless `big`. -/
def pieceLevel (big : Bool) (va pa size : Nat) : Nat :=
  if big ∧ 0x40000000 ≤ size ∧ 0x40000000 ∣ va ∧ 0x40000000 ∣ pa then 2
  else if big ∧ 0x200000 ≤ size ∧ 0x200000 ∣ va ∧ 0x200000 ∣ pa then 1
  else 0

/-- The pieces of the range of `size` bytes from `va`, mapped from `pa` on. -/
def pieces (big : Bool) : (fuel va pa size : Nat) → List Piece
  | 0, _, _, _ => []
  | fuel + 1, va, pa, size =>
    if size = 0 then []
    else
      let x : Piece := ⟨pieceLevel big va pa size, va, pa⟩
      x :: pieces big fuel (wrap (va + x.span)) (wrap (pa + x.span)) (size - x.span)

variable {β : Type} {A : PageAlloc β} {user perm rootTable virAddr : Nat}

/-- Map one piece. -/
def mapPiece (A : PageAlloc β) (user perm rootTable virAddr : Nat) (x : Piece) (s : Space β) :
    Outcome (Space β) Unit :=
  match x.level with
  | 2 => mapGiga user perm rootTable x.va x.pa s
  | 1 => mapMega A user perm rootTable virAddr x.va x.pa s
  | _ => mapPage A user perm rootTable virAddr x.va x.pa s

/-- Map pieces one after the other. -/
def mapPieces (A : PageAlloc β) (user perm rootTable virAddr : Nat) :
    List Piece → Space β → Outcome (Space β) Unit
  | [], s => .done () s
  | x :: xs, s => (mapPiece A user perm rootTable virAddr x s).bind fun _ s =>
      mapPieces A user perm rootTable virAddr xs s

/-- The loop with its 4 KiB step alone. -/
def plainLoop (A : PageAlloc β) (user perm rootTable virAddr : Nat) :
    (fuel paVirAddr paPhysAddr size : Nat) → Space β → Outcome (Space β) Unit
  | 0, _, _, _, s => .spin s
  | fuel + 1, paVirAddr, paPhysAddr, size, s =>
    if size = 0 then .done () s
    else
      (mapPage A user perm rootTable virAddr paVirAddr paPhysAddr s).bind fun _ s =>
        plainLoop A user perm rootTable virAddr fuel (wrap (paVirAddr + 4096))
          (wrap (paPhysAddr + 4096)) (wrapSub size 4096) s

/-! ## The loops map their pieces -/

/-- Masking tests for alignment. -/
theorem and_mask_eq_zero (x k : Nat) : x &&& (2 ^ k - 1) = 0 ↔ 2 ^ k ∣ x := by
  rw [Nat.and_two_pow_sub_one_eq_mod, Nat.dvd_iff_mod_eq_zero]

/-- There are three levels. -/
theorem pieceLevel_le (big : Bool) (va pa size : Nat) : pieceLevel big va pa size ≤ 2 := by
  unfold pieceLevel
  split
  · exact le_rfl
  · split <;> decide

/-- A piece has the alignment of its size and fits. -/
theorem pieceLevel_span (big : Bool) {va pa size : Nat} (hva : 4096 ∣ va) (hpa : 4096 ∣ pa)
    (hsize : 4096 ∣ size) (h0 : size ≠ 0) :
    4096 * 512 ^ pieceLevel big va pa size ∣ va ∧ 4096 * 512 ^ pieceLevel big va pa size ∣ pa ∧
      4096 * 512 ^ pieceLevel big va pa size ≤ size := by
  unfold pieceLevel
  split
  · rename_i h
    exact ⟨h.2.2.1, h.2.2.2, h.2.1⟩
  · split
    · rename_i h
      exact ⟨h.2.2.1, h.2.2.2, h.2.1⟩
    · exact ⟨hva, hpa, Nat.le_of_dvd (Nat.pos_of_ne_zero h0) hsize⟩

/-- Every span divides the address space, so alignment survives a wrap. -/
theorem dvd_wrap {m x : Nat} (hm : m ∣ 2 ^ 64) (hx : m ∣ x) : m ∣ wrap x :=
  (Nat.dvd_mod_iff hm).mpr hx

/-- A span divides the addresses. -/
theorem span_dvd {l : Nat} (hl : l ≤ 2) : 4096 * 512 ^ l ∣ 2 ^ 64 :=
  match l, hl with
  | 0, _ => by decide
  | 1, _ => by decide
  | 2, _ => by decide

/-- A span is whole pages. -/
theorem page_dvd_span (l : Nat) : 4096 ∣ 4096 * 512 ^ l := Nat.dvd_mul_right _ _

/-- The loop takes the branch of the next piece. -/
theorem mapLoop_succ {fuel va pa size : Nat} {s : Space β} (h0 : size ≠ 0) :
    mapLoop A user perm rootTable virAddr (fuel + 1) va pa size s =
      (mapPiece A user perm rootTable virAddr ⟨pieceLevel true va pa size, va, pa⟩ s).bind
        fun _ s => mapLoop A user perm rootTable virAddr fuel
          (wrap (va + 4096 * 512 ^ pieceLevel true va pa size))
          (wrap (pa + 4096 * 512 ^ pieceLevel true va pa size))
          (wrapSub size (4096 * 512 ^ pieceLevel true va pa size)) s := by
  have h30 : ∀ x, x &&& 0x3FFFFFFF = 0 ↔ 0x40000000 ∣ x := fun x => and_mask_eq_zero x 30
  have h21 : ∀ x, x &&& 0x1FFFFF = 0 ↔ 0x200000 ∣ x := fun x => and_mask_eq_zero x 21
  rw [mapLoop, if_neg h0]
  simp only [h30, h21]
  by_cases h2 : 0x40000000 ≤ size ∧ 0x40000000 ∣ va ∧ 0x40000000 ∣ pa
  · have hl : pieceLevel true va pa size = 2 := if_pos ⟨rfl, h2⟩
    rw [if_pos h2, hl]
    rfl
  · have hn : ¬ (true = true ∧ 0x40000000 ≤ size ∧ 0x40000000 ∣ va ∧ 0x40000000 ∣ pa) :=
      fun h => h2 h.2
    by_cases h1 : 0x200000 ≤ size ∧ 0x200000 ∣ va ∧ 0x200000 ∣ pa
    · have hl : pieceLevel true va pa size = 1 := by
        rw [pieceLevel, if_neg hn, if_pos ⟨rfl, h1⟩]
      rw [if_neg h2, if_pos h1, hl]
      rfl
    · have hl : pieceLevel true va pa size = 0 := by
        rw [pieceLevel, if_neg hn, if_neg fun h => h1 h.2]
      rw [if_neg h2, if_neg h1, hl]
      rfl

/-- One round of the plain loop. -/
theorem plainLoop_succ {fuel va pa size : Nat} {s : Space β} (h0 : size ≠ 0) :
    plainLoop A user perm rootTable virAddr (fuel + 1) va pa size s =
      (mapPiece A user perm rootTable virAddr ⟨pieceLevel false va pa size, va, pa⟩ s).bind
        fun _ s => plainLoop A user perm rootTable virAddr fuel
          (wrap (va + 4096 * 512 ^ pieceLevel false va pa size))
          (wrap (pa + 4096 * 512 ^ pieceLevel false va pa size))
          (wrapSub size (4096 * 512 ^ pieceLevel false va pa size)) s := by
  rw [plainLoop, if_neg h0]
  rfl

/-- A loop that maps the next piece and goes on behind it maps the pieces of its range. -/
theorem loop_eq {loop : Nat → Nat → Nat → Nat → Space β → Outcome (Space β) Unit} {big : Bool}
    (hdone : ∀ fuel va pa s, loop (fuel + 1) va pa 0 s = .done () s)
    (hnext : ∀ fuel va pa size s, size ≠ 0 → loop (fuel + 1) va pa size s =
      (mapPiece A user perm rootTable virAddr ⟨pieceLevel big va pa size, va, pa⟩ s).bind
        fun _ s => loop fuel (wrap (va + 4096 * 512 ^ pieceLevel big va pa size))
          (wrap (pa + 4096 * 512 ^ pieceLevel big va pa size))
          (wrapSub size (4096 * 512 ^ pieceLevel big va pa size)) s)
    {fuel va pa size : Nat} {s : Space β} (hva : 4096 ∣ va) (hpa : 4096 ∣ pa)
    (hsize : 4096 ∣ size) (hlt : size < 2 ^ 64) (hf : size < 4096 * fuel) :
    loop fuel va pa size s =
      mapPieces A user perm rootTable virAddr (pieces big fuel va pa size) s := by
  induction fuel generalizing va pa size s with
  | zero => exact absurd hf (Nat.not_lt_zero _)
  | succ fuel ih =>
    rw [pieces]
    by_cases h0 : size = 0
    · rw [if_pos h0, h0, hdone]
      rfl
    · rw [if_neg h0, hnext _ _ _ _ _ h0]
      obtain ⟨_, _, hle⟩ := pieceLevel_span big hva hpa hsize h0
      have hpos : 4096 ≤ 4096 * 512 ^ pieceLevel big va pa size :=
        Nat.le_mul_of_pos_right _ (Nat.pow_pos (by decide))
      have hd := page_dvd_span (pieceLevel big va pa size)
      rw [mapPieces, wrapSub_of_le hle hlt]
      congr 1
      funext _ s
      exact ih (dvd_wrap (by decide) (Nat.dvd_add hva hd))
        (dvd_wrap (by decide) (Nat.dvd_add hpa hd)) (Nat.dvd_sub hsize hd)
        (Nat.lt_of_le_of_lt (Nat.sub_le _ _) hlt) (by omega)

/-- The loop of the code maps its pieces. -/
theorem mapLoop_eq {fuel va pa size : Nat} {s : Space β} (hva : 4096 ∣ va) (hpa : 4096 ∣ pa)
    (hsize : 4096 ∣ size) (hlt : size < 2 ^ 64) (hf : size < 4096 * fuel) :
    mapLoop A user perm rootTable virAddr fuel va pa size s =
      mapPieces A user perm rootTable virAddr (pieces true fuel va pa size) s :=
  loop_eq (fun _ _ _ _ => if_pos rfl) (fun _ _ _ _ _ h0 => mapLoop_succ h0) hva hpa hsize hlt hf

/-- The plain loop maps pages. -/
theorem plainLoop_eq {fuel va pa size : Nat} {s : Space β} (hva : 4096 ∣ va) (hpa : 4096 ∣ pa)
    (hsize : 4096 ∣ size) (hlt : size < 2 ^ 64) (hf : size < 4096 * fuel) :
    plainLoop A user perm rootTable virAddr fuel va pa size s =
      mapPieces A user perm rootTable virAddr (pieces false fuel va pa size) s :=
  loop_eq (fun _ _ _ _ => if_pos rfl) (fun _ _ _ _ _ h0 => plainLoop_succ h0) hva hpa hsize hlt hf

/-! ## The pieces cover the range -/

/-- A piece is not empty. -/
theorem Piece.span_pos (x : Piece) : 0 < x.span := Nat.mul_pos (by decide) (Nat.pow_pos (by decide))

variable {big : Bool} {fuel va pa size : Nat}

/-- A piece of the range has the alignment of its size and lies inside, its two addresses at
one distance from the two starts. -/
theorem mem_pieces (hva : 4096 ∣ va) (hpa : 4096 ∣ pa) (hsize : 4096 ∣ size)
    (hva64 : va < 2 ^ 64) (hpa64 : pa < 2 ^ 64) {x : Piece} (hx : x ∈ pieces big fuel va pa size) :
    x.level ≤ 2 ∧ x.span ∣ x.va ∧ x.span ∣ x.pa ∧
      ∃ d, d + x.span ≤ size ∧ x.va = wrap (va + d) ∧ x.pa = wrap (pa + d) := by
  induction fuel generalizing va pa size with
  | zero => exact absurd hx List.not_mem_nil
  | succ fuel ih =>
    rw [pieces] at hx
    by_cases h0 : size = 0
    · rw [if_pos h0] at hx
      exact absurd hx List.not_mem_nil
    · rw [if_neg h0] at hx
      obtain ⟨hdva, hdpa, hle⟩ := pieceLevel_span big hva hpa hsize h0
      rcases List.mem_cons.mp hx with rfl | hx
      · refine ⟨pieceLevel_le .., hdva, hdpa, 0, ?_, (wrap_of_lt hva64).symm,
          (wrap_of_lt hpa64).symm⟩
        rw [Nat.zero_add]
        exact hle
      · have hd := page_dvd_span (pieceLevel big va pa size)
        obtain ⟨hl, h1, h2, d, hd', hxva, hxpa⟩ := ih (dvd_wrap (by decide) (Nat.dvd_add hva hd))
          (dvd_wrap (by decide) (Nat.dvd_add hpa hd)) (Nat.dvd_sub hsize hd) (wrap_lt _)
          (wrap_lt _) hx
        simp only [Piece.span] at hd' hxva hxpa ⊢
        refine ⟨hl, h1, h2, 4096 * 512 ^ pieceLevel big va pa size + d, by omega, ?_, ?_⟩
        · rw [hxva]
          simp only [wrap, Nat.mod_add_mod, Nat.add_assoc]
        · rw [hxpa]
          simp only [wrap, Nat.mod_add_mod, Nat.add_assoc]

/-- Every address of the range lies in a piece. -/
theorem exists_piece (hva : 4096 ∣ va) (hpa : 4096 ∣ pa) (hsize : 4096 ∣ size)
    (hva64 : va < 2 ^ 64) (hpa64 : pa < 2 ^ 64) (hf : size < 4096 * fuel) {d : Nat}
    (hd : d < size) : ∃ x ∈ pieces big fuel va pa size, ∃ r < x.span,
      wrap (va + d) = x.va + r ∧ wrap (pa + d) = x.pa + r := by
  induction fuel generalizing va pa size d with
  | zero => exact absurd hf (Nat.not_lt_zero _)
  | succ fuel ih =>
    have h0 : size ≠ 0 := Nat.ne_zero_of_lt hd
    rw [pieces, if_neg h0]
    obtain ⟨hdva, hdpa, hle⟩ := pieceLevel_span big hva hpa hsize h0
    have hspan := span_dvd (pieceLevel_le big va pa size)
    have hpage := page_dvd_span (pieceLevel big va pa size)
    have hpos : 4096 ≤ 4096 * 512 ^ pieceLevel big va pa size :=
      Nat.le_mul_of_pos_right _ (Nat.pow_pos (by decide))
    by_cases hlt : d < 4096 * 512 ^ pieceLevel big va pa size
    · -- an aligned piece does not reach over the end of the address space
      have hfit : ∀ a, 4096 * 512 ^ pieceLevel big va pa size ∣ a → a < 2 ^ 64 →
          a + d < 2 ^ 64 := by
        intro a ha ha64
        have := Nat.le_of_dvd (by omega) (Nat.dvd_sub hspan ha)
        omega
      exact ⟨_, List.mem_cons_self, d, hlt, wrap_of_lt (hfit va hdva hva64),
        wrap_of_lt (hfit pa hdpa hpa64)⟩
    · have hd' : d - 4096 * 512 ^ pieceLevel big va pa size <
          size - 4096 * 512 ^ pieceLevel big va pa size := by omega
      obtain ⟨x, hx, r, hr, h1, h2⟩ := ih (dvd_wrap (by decide) (Nat.dvd_add hva hpage))
        (dvd_wrap (by decide) (Nat.dvd_add hpa hpage)) (Nat.dvd_sub hsize hpage) (wrap_lt _)
        (wrap_lt _) (by omega) hd'
      have hshift : ∀ a, wrap (wrap (a + 4096 * 512 ^ pieceLevel big va pa size) +
          (d - 4096 * 512 ^ pieceLevel big va pa size)) = wrap (a + d) := by
        intro a
        unfold wrap
        omega
      exact ⟨x, List.mem_cons_of_mem _ hx, r, hr, hshift va ▸ h1, hshift pa ▸ h2⟩

/-- The pieces of a range that does not wrap lie one behind the other. -/
theorem pieces_pairwise (hva : 4096 ∣ va) (hpa : 4096 ∣ pa) (hsize : 4096 ∣ size)
    (hpa64 : pa < 2 ^ 64) (hend : va + size < 2 ^ 64) :
    (pieces big fuel va pa size).Pairwise fun x y => x.va + x.span ≤ y.va := by
  induction fuel generalizing va pa size with
  | zero => exact List.Pairwise.nil
  | succ fuel ih =>
    rw [pieces]
    by_cases h0 : size = 0
    · rw [if_pos h0]
      exact List.Pairwise.nil
    · rw [if_neg h0]
      obtain ⟨_, _, hle⟩ := pieceLevel_span big hva hpa hsize h0
      have hpage := page_dvd_span (pieceLevel big va pa size)
      have hnext : wrap (va + 4096 * 512 ^ pieceLevel big va pa size) =
          va + 4096 * 512 ^ pieceLevel big va pa size := wrap_of_lt (by omega)
      simp only [Piece.span, hnext]
      refine List.pairwise_cons.mpr ⟨fun y hy => ?_, ?_⟩
      · obtain ⟨_, _, _, d, hd, hyva, _⟩ := mem_pieces (Nat.dvd_add hva hpage)
          (dvd_wrap (by decide) (Nat.dvd_add hpa hpage)) (Nat.dvd_sub hsize hpage) (by omega)
          (wrap_lt _) hy
        have hpos := y.span_pos
        change va + 4096 * 512 ^ pieceLevel big va pa size ≤ y.va
        rw [hyva, wrap_of_lt (by omega)]
        exact Nat.le_add_right _ _
      · exact ih (Nat.dvd_add hva hpage) (dvd_wrap (by decide) (Nat.dvd_add hpa hpage))
          (Nat.dvd_sub hsize hpage) (wrap_lt _) (by omega)

end RexOS.Paging
