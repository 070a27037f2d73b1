import RexOS.Paging.Overlap
import RexOS.Paging.Sv39

/-!
# What a table translates to

Calls with disjoint ranges on a zeroed root all return, and then the hardware translates
the addresses of each range to the physical range of its call, with the flags of the call,
and no others, whatever sizes the pieces have.
-/

namespace RexOS.Paging

open Bits RexOS.Kalloc Radix

variable {β : Type} {A : PageAlloc β} {Owns : β → List Grant → Prop} {root : Nat}
  {s s' : Space β} {L : List Grant} {c d : MapCall} {cs : List MapCall} {big : Bool}

namespace MapCall

/-- The virtual range of a call. -/
def range (c : MapCall) : Set Nat := Set.Ico c.virAddr (c.virAddr + c.size)

/-- V and A, the permissions, U for users and D for what may be written. -/
def flags (c : MapCall) : Nat :=
  0x41 + c.perm + (if c.isUser then 0x10 else 0) + if c.perm.testBit 2 then 0x80 else 0

/-- Whole pages of the lower half, mapped below `2 ^ 56` with permissions a leaf may have. -/
structure Plain (c : MapCall) : Prop where
  virAddr : 4096 ∣ c.virAddr
  physAddr : 4096 ∣ c.physAddr
  size : 4096 ∣ c.size
  virEnd : c.virAddr + c.size ≤ 2 ^ 38
  physEnd : c.physAddr + c.size ≤ 2 ^ 56
  perm : c.perm ∈ leafPerms

/-- The pieces of the loop as it is, or of the one with 4 KiB steps alone. -/
def piecesBy (big : Bool) (c : MapCall) : List Piece :=
  Paging.pieces big (c.len / 4096 + 1) c.start c.frame c.len

/-- The same call with the plain loop. -/
def execPlain (c : MapCall) (A : PageAlloc β) (rootTable : Nat) (s : Space β) :
    Outcome (Space β) Unit :=
  plainLoop A c.user c.perm rootTable c.virAddr (c.len / 4096 + 1) c.start c.frame c.len s

/-- The plain loop maps the same range page by page. -/
theorem execPlain_eq (A : PageAlloc β) (c : MapCall) (s : Space β) :
    c.execPlain A root s = mapPieces A c.user c.perm root c.virAddr (c.piecesBy false) s :=
  plainLoop_eq c.dvd_start c.dvd_frame c.dvd_len c.len_lt c.len_fuel

namespace Plain

/-- A call for whole pages is proper. -/
theorem proper (h : c.Plain) : c.Proper := by
  have h1 := h.virEnd
  have h2 := h.physEnd
  refine ⟨by omega, by omega, ?_⟩
  have hall : ∀ p ∈ leafPerms, p &&& 0xA ≠ 0 := by decide
  exact hall c.perm h.perm

/-- A plain call begins where it says. -/
theorem start_eq (h : c.Plain) : c.start = c.virAddr := by
  rw [start, andNot_page, Nat.div_mul_cancel h.virAddr]

/-- Its frames begin where it says. -/
theorem frame_eq (h : c.Plain) : c.frame = c.physAddr := by
  rw [frame, andNot_page, Nat.div_mul_cancel h.physAddr]

/-- It is as long as it says. -/
theorem len_eq (h : c.Plain) : c.len = c.size := by
  have h1 := h.virEnd
  have h2 := h.size
  rw [len, andNot_page, wrap_of_lt (by omega)]
  omega

/-- The user bit is set or not. -/
theorem user_eq (c : MapCall) : c.user = 0 ∨ c.user = 0x10 := by
  unfold user
  split
  · exact Or.inr rfl
  · exact Or.inl rfl

/-- The leaf has the flags of the call. -/
theorem leafFlags_eq (h : c.Plain) : leafFlags c.user c.perm = c.flags := by
  have hall : ∀ p ∈ leafPerms, ∀ b : Bool, leafFlags (if b then 0x10 else 0) p =
      0x41 + p + (if b then 0x10 else 0) + if p.testBit 2 then 0x80 else 0 := by decide
  exact hall c.perm h.perm c.isUser

/-- A piece of the call: aligned, and inside both ranges at one distance from their starts. -/
theorem mem_piecesBy (h : c.Plain) {x : Piece} (hx : x ∈ c.piecesBy big) :
    x.level ≤ 2 ∧ x.span ∣ x.va ∧ x.span ∣ x.pa ∧
      ∃ d, d + x.span ≤ c.size ∧ x.va = c.virAddr + d ∧ x.pa = c.physAddr + d := by
  have h1 := h.virEnd
  have h2 := h.physEnd
  obtain ⟨hl, hva, hpa, d, hd, hxva, hxpa⟩ := Paging.mem_pieces c.dvd_start c.dvd_frame c.dvd_len
    h.proper.start_lt h.proper.frame_lt hx
  rw [h.len_eq] at hd
  rw [h.start_eq, wrap_of_lt (by omega)] at hxva
  rw [h.frame_eq, wrap_of_lt (by omega)] at hxpa
  exact ⟨hl, hva, hpa, d, hd, hxva, hxpa⟩

/-- The place of a piece is above the addresses of the piece alone. -/
theorem suffix_iff (h : c.Plain) {x : Piece} (hx : x ∈ c.piecesBy big) {a : Nat}
    (ha : Canonical a) : x.path <:+ indices a ↔ ∃ r < x.span, a = x.va + r := by
  have h1 := h.virEnd
  obtain ⟨hl, hva, _, d, hd, hxva, _⟩ := h.mem_piecesBy hx
  have hlow : x.va % 2 ^ 39 = x.va := Nat.mod_eq_of_lt (by omega)
  rw [x.path_suffix_iff hl hva, hlow]
  constructor
  · rintro ⟨r, hr, he⟩
    refine ⟨r, hr, ?_⟩
    rcases ha with ha | ha
    · rwa [Nat.mod_eq_of_lt (by omega)] at he
    · omega
  · rintro ⟨r, hr, rfl⟩
    exact ⟨r, hr, Nat.mod_eq_of_lt (by omega)⟩

/-- Every address of the range is in some piece. -/
theorem exists_piece (h : c.Plain) (big : Bool) {a : Nat} (ha : a ∈ c.range) :
    ∃ x ∈ c.piecesBy big, ∃ r < x.span, a = x.va + r ∧ c.physAddr + (a - c.virAddr) = x.pa + r := by
  have h1 := h.virEnd
  have h2 := h.physEnd
  obtain ⟨hle, hlt⟩ := ha
  have hd : a - c.virAddr < c.len := by
    rw [h.len_eq]
    omega
  obtain ⟨x, hx, r, hr, hxva, hxpa⟩ := Paging.exists_piece c.dvd_start c.dvd_frame c.dvd_len
    h.proper.start_lt h.proper.frame_lt c.len_fuel hd
  rw [h.start_eq, Nat.add_sub_of_le hle, wrap_of_lt (by omega)] at hxva
  rw [h.frame_eq, wrap_of_lt (by omega)] at hxpa
  exact ⟨x, hx, r, hr, hxva, hxpa⟩

/-- Every piece is in the range. -/
theorem piece_subset (h : c.Plain) {x : Piece} (hx : x ∈ c.piecesBy big) {r : Nat}
    (hr : r < x.span) : x.va + r ∈ c.range := by
  obtain ⟨_, _, _, d, hd, hxva, _⟩ := h.mem_piecesBy hx
  exact ⟨by omega, by omega⟩

/-- The range is below the gap. -/
theorem canonical (h : c.Plain) {a : Nat} (ha : a ∈ c.range) : Canonical a :=
  Or.inl (lt_of_lt_of_le ha.2 h.virEnd)

/-- The places of pieces of disjoint ranges are apart. -/
theorem apart (hc : c.Plain) (hd : d.Plain) (hdis : Disjoint c.range d.range) {x y : Piece}
    (hx : x ∈ c.piecesBy big) (hy : y ∈ d.piecesBy big) :
    ¬ x.path <:+ y.path ∧ ¬ y.path <:+ x.path := by
  have key : ∀ {c d : MapCall} {x y : Piece}, c.Plain → d.Plain → Disjoint c.range d.range →
      x ∈ c.piecesBy big → y ∈ d.piecesBy big → ¬ x.path <:+ y.path := by
    intro c d x y hc hd hdis hx hy hsub
    have hin : y.va ∈ d.range := hd.piece_subset hy (r := 0) y.span_pos
    obtain ⟨r, hr, he⟩ := (hc.suffix_iff hx (hd.canonical hin)).mp (x.suffix_indices_of_suffix hsub)
    exact Set.disjoint_left.mp hdis (he ▸ hc.piece_subset hx hr) hin
  exact ⟨key hc hd hdis hx hy, key hd hc hdis.symm hy hx⟩

/-- So are those of the pieces of one call. -/
theorem own_apart (hc : c.Plain) : (c.piecesBy big).Pairwise fun x y =>
    ¬ x.path <:+ y.path ∧ ¬ y.path <:+ x.path := by
  have h1 := hc.virEnd
  have hpw : (c.piecesBy big).Pairwise fun x y => x.va + x.span ≤ y.va := by
    apply pieces_pairwise c.dvd_start c.dvd_frame c.dvd_len hc.proper.frame_lt
    rw [hc.start_eq, hc.len_eq]
    omega
  refine List.Pairwise.imp_of_mem (fun {x y} hx hy hlt => ⟨fun hsub => ?_, fun hsub => ?_⟩) hpw
  · have hin : y.va ∈ c.range := hc.piece_subset hy (r := 0) y.span_pos
    obtain ⟨r, hr, he⟩ := (hc.suffix_iff hx (hc.canonical hin)).mp (x.suffix_indices_of_suffix hsub)
    omega
  · have hin : x.va ∈ c.range := hc.piece_subset hx (r := 0) x.span_pos
    obtain ⟨r, hr, he⟩ := (hc.suffix_iff hy (hc.canonical hin)).mp (y.suffix_indices_of_suffix hsub)
    have hpos := x.span_pos
    omega

end Plain

end MapCall

/-! ## Leaves and translations -/

/-- The leaves are the pieces of the calls. -/
def Laid (big : Bool) (root : Nat) (s : Space β) (cs : List MapCall) : Prop :=
  ∀ q f, s.Leaf root q f ↔ ∃ c ∈ cs, ∃ x ∈ c.piecesBy big, q = x.path ∧ f = c.content x

/-- The hardware translates the ranges of the calls as they say, and nothing else. -/
structure Translates (root : Nat) (mem : Nat → Nat) (cs : List MapCall) : Prop where
  inside : ∀ c ∈ cs, ∀ a ∈ c.range,
    sv39 mem root a = some ⟨c.physAddr + (a - c.virAddr), c.flags⟩
  outside : ∀ a, (∀ c ∈ cs, a ∉ c.range) → sv39 mem root a = none

/-- Which loop laid the leaves does not show in the translation. -/
theorem Laid.translates (hA : A.Grants Owns) (h : Tree Owns root s L) (hL : Low L)
    (hcs : ∀ c ∈ cs, c.Plain) (hl : Laid big root s cs) : Translates root s.mem cs where
  inside c hc a ha := by
    have hp := hcs c hc
    have h2 := hp.physEnd
    obtain ⟨x, hx, r, hr, he, hphys⟩ := hp.exists_piece big ha
    obtain ⟨hlev, hva, hpa, d, hd, _, hxpa⟩ := hp.mem_piecesBy hx
    have hleaf : s.Leaf root x.path (leafPte c.user c.perm x.pa) :=
      (hl _ _).mpr ⟨c, hc, x, hx, rfl, rfl⟩
    have hpos := x.span_pos
    have hsub := (hp.suffix_iff hx (hp.canonical ha)).mpr ⟨r, hr, he⟩
    have hoff : a % x.span = r := by
      obtain ⟨k, hk⟩ := hva
      rw [he, hk, Nat.mul_add_mod, Nat.mod_eq_of_lt hr]
    rw [h.sv39_leaf hA hL (MapCall.Plain.user_eq c) hp.perm (by omega) hpa hlev hleaf
      (hp.canonical ha) hsub, hoff, hphys, hp.leafFlags_eq]
  outside a ha := by
    refine h.sv39_none hA hL fun hcan q hq => ?_
    rintro ⟨f, hf⟩
    obtain ⟨c, hc, x, hx, rfl, rfl⟩ := (hl q f).mp hf
    obtain ⟨r, hr, rfl⟩ := ((hcs c hc).suffix_iff hx hcan).mp hq
    exact ha c hc ((hcs c hc).piece_subset hx hr)

/-! ## All calls -/

/-- Make calls with the plain loop one after the other. -/
def plainAll (A : PageAlloc β) (rootTable : Nat) :
    List MapCall → Space β → Outcome (Space β) Unit
  | [], s => .done () s
  | c :: cs, s => (c.execPlain A rootTable s).bind fun _ s => plainAll A rootTable cs s

/-- The tables but the root that calls need in all. -/
def lacking (cs : List MapCall) : Finset (List Nat) :=
  ((cs.flatMap MapCall.places).flatMap fun p => p.tail.tails).toFinset.erase []

/-- The tables above a piece are missing at first. -/
theorem mem_lacking {x : Piece} {q : List Nat} (hc : c ∈ cs) (hx : x ∈ c.pieces)
    (hq : q <:+ x.path) (hne : q ≠ x.path) (hnil : q ≠ []) : q ∈ lacking cs := by
  refine Finset.mem_erase.mpr ⟨hnil, List.mem_toFinset.mpr ?_⟩
  refine List.mem_flatMap.mpr ⟨x.path, List.mem_flatMap.mpr ⟨c, hc, List.mem_map.mpr ⟨x, hx, rfl⟩⟩,
    ?_⟩
  apply (List.mem_tails q x.path.tail).mpr
  generalize x.path = p at hq hne
  cases p with
  | nil => exact hq
  | cons i p => exact (List.suffix_cons_iff.mp hq).resolve_left hne

/-- The pieces of a call apart from all calls before are apart from all leaves. -/
theorem Laid.free {ds : List MapCall} (hl : Laid big root s ds) (hds : ∀ d ∈ ds, d.Plain)
    (hc : c.Plain) (hdis : ∀ d ∈ ds, Disjoint d.range c.range) :
    ∀ x ∈ c.piecesBy big, ∀ q, s.Mapped root q → ¬ q <:+ x.path ∧ ¬ x.path <:+ q := by
  rintro x hx q ⟨f, hf⟩
  obtain ⟨d, hd, y, hy, rfl, rfl⟩ := (hl q f).mp hf
  exact (hds d hd).apart hc (hdis d hd) hy hx

/-- One call more has been laid. -/
theorem Laid.append {ds : List MapCall} (hl : Laid big root s ds)
    (hleaf : ∀ q f, s'.Leaf root q f ↔ s.Leaf root q f ∨
      ∃ x ∈ c.piecesBy big, q = x.path ∧ f = c.content x) : Laid big root s' (ds ++ [c]) := by
  intro q f
  rw [hleaf q f, hl q f]
  simp only [List.mem_append, List.mem_singleton]
  constructor
  · rintro (⟨d, hd, h⟩ | h)
    · exact ⟨d, Or.inl hd, h⟩
    · exact ⟨c, Or.inr rfl, h⟩
  · rintro ⟨d, hd | rfl, h⟩
    · exact Or.inl ⟨d, hd, h⟩
    · exact Or.inr h

/-- Calls with disjoint ranges return, one after the other. -/
theorem mapAll_returns (hA : A.Grants Owns) (ds : List MapCall) (hb : Built Owns root s L)
    (hl : Laid true root s ds) (hds : ∀ d ∈ ds, d.Plain) (hcs : ∀ c ∈ cs, c.Plain)
    (hdis : (ds ++ cs).Pairwise fun c d => Disjoint c.range d.range) {N : Finset (List Nat)}
    (hroom : A.Room N.card s.pages)
    (hneed : ∀ c ∈ cs, ∀ x ∈ c.pieces, ∀ q, q <:+ x.path → q ≠ x.path → q ≠ [] →
      s.table root q ≠ none ∨ q ∈ N) :
    ∃ s' L', mapAll A root cs s = .done () s' ∧ Built Owns root s' L' ∧
      Laid true root s' (ds ++ cs) := by
  induction cs generalizing ds s L N with
  | nil => exact ⟨s, L, rfl, hb, by rwa [List.append_nil]⟩
  | cons c cs ih =>
    have hc := hcs c List.mem_cons_self
    have hdc : ∀ d ∈ ds, Disjoint d.range c.range := fun d hd =>
      (List.pairwise_append.mp hdis).2.2 d hd c List.mem_cons_self
    obtain ⟨new, s₁, L₁, hrun, hret, hnew⟩ := hb.returns hA hc.proper hroom
      (hneed c List.mem_cons_self) (hl.free hds hc hdc) hc.own_apart
    have hds' : ∀ d ∈ ds ++ [c], d.Plain := by
      intro d hd
      rcases List.mem_append.mp hd with hd | hd
      · exact hds d hd
      · exact List.mem_singleton.mp hd ▸ hc
    have hsub : new.toFinset ⊆ N := fun q hq => hnew q (List.mem_toFinset.mp hq)
    have hroom₁ : A.Room (N \ new.toFinset).card s₁.pages := by
      apply hret.grew.room
      rw [← List.toFinset_card_of_nodup hret.grew.nodup, Finset.card_sdiff_add_card_eq_card hsub]
      exact hroom
    obtain ⟨s', L', hrest, hb', hl'⟩ := ih _ hret.built (hl.append hret.leaf) hds'
      (fun d hd => hcs d (List.mem_cons_of_mem _ hd)) (by rwa [List.append_assoc]) hroom₁
      fun d hd x hx q hq hne hnil => by
        rcases hneed d (List.mem_cons_of_mem _ hd) x hx q hq hne hnil with ht | hN
        · obtain ⟨t, ht⟩ := Option.ne_none_iff_exists'.mp ht
          have hpath := x.path_mem.suffix hq
          exact Or.inl (hret.grew.tables q t hpath ht ▸ Option.some_ne_none t)
        · by_cases hin : q ∈ new
          · exact Or.inl (hret.grew.fresh q hin).2.2
          · exact Or.inr (Finset.mem_sdiff.mpr ⟨hN, fun h => hin (List.mem_toFinset.mp h)⟩)
    refine ⟨s', L', ?_, hb', by rwa [List.append_assoc] at hl'⟩
    rw [mapAll, hrun, Outcome.bind_done, hrest]

/-- So do the calls with the plain loop, if they return. -/
theorem plainAll_laid (hA : A.Grants Owns) (ds : List MapCall) (ht : Tree Owns root s L)
    (hl : Laid false root s ds) (hds : ∀ d ∈ ds, d.Plain) (hcs : ∀ c ∈ cs, c.Plain)
    (hdis : (ds ++ cs).Pairwise fun c d => Disjoint c.range d.range)
    (hrun : plainAll A root cs s = .done () s') :
    ∃ L', Tree Owns root s' L' ∧ Laid false root s' (ds ++ cs) := by
  induction cs generalizing ds s L with
  | nil =>
    obtain ⟨_, rfl⟩ := Outcome.done.inj hrun
    exact ⟨L, ht, by rwa [List.append_nil]⟩
  | cons c cs ih =>
    have hc := hcs c List.mem_cons_self
    have hdc : ∀ d ∈ ds, Disjoint d.range c.range := fun d hd =>
      (List.pairwise_append.mp hdis).2.2 d hd c List.mem_cons_self
    obtain ⟨_, s₁, hfirst, hrest⟩ := Outcome.bind_eq_done.mp hrun
    have hpass : Passable (fun _ => True) (s.Mapped root) ((c.piecesBy false).map Piece.path) := by
      apply passable_of_apart (fun _ _ _ _ _ _ => trivial)
      · rintro p hp q hq
        obtain ⟨x, hx, rfl⟩ := List.mem_map.mp hp
        exact (hl.free hds hc hdc x hx q hq).1
      · exact List.pairwise_map.mpr (hc.own_apart.imp fun h => h.1)
    have hcourse := mapPieces_spec c.user c.virAddr hA ht hc.proper.perm_low
      (fun x hx => (hc.mem_piecesBy hx).1) hpass
    rw [← c.execPlain_eq A s, hfirst] at hcourse
    have hds' : ∀ d ∈ ds ++ [c], d.Plain := by
      intro d hd
      rcases List.mem_append.mp hd with hd | hd
      · exact hds d hd
      · exact List.mem_singleton.mp hd ▸ hc
    cases hcourse with
    | placed ht₁ _ _ hleaf _ =>
      obtain ⟨L', ht', hl'⟩ := ih _ ht₁ (hl.append hleaf) hds'
        (fun d hd => hcs d (List.mem_cons_of_mem _ hd)) (by rwa [List.append_assoc]) hrest
      exact ⟨L', ht', by rwa [List.append_assoc] at hl'⟩
    | starved hno => exact absurd rfl (hno s₁)

/-- Nothing has been laid yet. -/
theorem Blank.laid (h : Blank Owns root s L) : Laid big root s [] := by
  intro q f
  refine iff_of_false (fun hf => h.not_mapped q ⟨f, hf⟩) ?_
  rintro ⟨c, hc, _⟩
  exact absurd hc List.not_mem_nil

/-- On a zeroed root, calls with disjoint ranges return, and then the hardware translates
these ranges and nothing else, just as it does after the plain loop. -/
theorem mapAll_translates (hA : A.Grants Owns) (hlow : ∀ b L, Owns b L → Low L)
    (hb : Blank Owns root s L) (hcs : ∀ c ∈ cs, c.Plain)
    (hdis : cs.Pairwise fun c d => Disjoint c.range d.range)
    (hroom : A.Room (lacking cs).card s.pages) :
    ∃ s', mapAll A root cs s = .done () s' ∧ Translates root s'.mem cs ∧
      ∀ root₂ s₂ L₂ s₂', Blank Owns root₂ s₂ L₂ → plainAll A root₂ cs s₂ = .done () s₂' →
        ∀ a, sv39 s'.mem root a = sv39 s₂'.mem root₂ a := by
  obtain ⟨s', L', hrun, hb', hl'⟩ := mapAll_returns hA [] hb.built hb.laid (by simp) hcs
    hdis hroom fun c hc x hx q hq hne hnil => Or.inr (mem_lacking hc hx hq hne hnil)
  have ht := hl'.translates hA hb'.toTree (hlow _ _ hb'.owns) hcs
  refine ⟨s', hrun, ht, fun root₂ s₂ L₂ s₂' hb₂ hrun₂ a => ?_⟩
  obtain ⟨L₂', ht₂, hl₂⟩ := plainAll_laid hA [] hb₂.tree hb₂.laid (by simp) hcs hdis hrun₂
  have htr₂ := hl₂.translates hA ht₂ (hlow _ _ ht₂.owns) hcs
  by_cases ha : ∃ c ∈ cs, a ∈ c.range
  · obtain ⟨c, hc, hin⟩ := ha
    rw [ht.inside c hc a hin, htr₂.inside c hc a hin]
  · have hout : ∀ c ∈ cs, a ∉ c.range := fun c hc hin => ha ⟨c, hc, hin⟩
    rw [ht.outside a hout, htr₂.outside a hout]

/-- Pages of the board lie where links can name them. -/
theorem virt_low (b : State) (L : List Grant) (h : Granted virt virtBssEnd b L) : Low L := by
  intro g hg
  have hend := (virt_grant_bounds h hg).2
  omega

/-- 1 GiB for the kernel and 2 MiB for users, on the board. -/
theorem mapAll_translates_virt : ∃ (root : Nat) (s s' : Space State),
    mapAll (buddy virt 0) root [⟨false, 0x80000000, 0x80000000, 0x40000000, 6⟩, megaCall] s =
      .done () s' ∧
    Translates root s'.mem [⟨false, 0x80000000, 0x80000000, 0x40000000, 6⟩, megaCall] := by
  obtain ⟨root, s, hblank, hroom, _⟩ := exists_blank 0
  have hplain : ∀ c ∈ [(⟨false, 0x80000000, 0x80000000, 0x40000000, 6⟩ : MapCall), megaCall],
      c.Plain := by
    intro c hc
    rcases List.mem_cons.mp hc with rfl | hc
    · exact ⟨by decide, by decide, by decide, by decide, by decide, by decide⟩
    · obtain rfl := List.mem_singleton.mp hc
      exact ⟨by decide, by decide, by decide, by decide, by decide, by decide⟩
  have hdis : [(⟨false, 0x80000000, 0x80000000, 0x40000000, 6⟩ : MapCall), megaCall].Pairwise
      fun c d => Disjoint c.range d.range := by
    refine List.pairwise_pair.mpr (Set.disjoint_left.mpr fun a ha hb => ?_)
    have h1 : 0x80000000 ≤ a := ha.1
    have h2 : a < 0 + 0x200000 := hb.2
    omega
  have hcard : (lacking [(⟨false, 0x80000000, 0x80000000, 0x40000000, 6⟩ : MapCall),
      megaCall]).card ≤ 1000 := by decide +kernel
  obtain ⟨s', hrun, ht, _⟩ := mapAll_translates (buddy_grants 0 virt_machine virt_fits) virt_low
    hblank hplain hdis (hroom.mono hcard)
  exact ⟨root, s, s', hrun, ht⟩

/-! ## Writable and not readable -/

/-- Map 1 GiB at address 0 with W and X but not R. -/
def writeCall : MapCall := ⟨false, 0, 0x80000000, 0x40000000, 12⟩

/-- The call returns, and the hardware takes the leaf for a reserved entry and faults. -/
theorem writeCall_faults : ∃ (root : Nat) (s s' : Space State),
    Blank (Granted virt virtBssEnd) root s [⟨root, 0⟩] ∧ writeCall.Proper ∧
    mapAll (buddy virt 0) root [writeCall] s = .done () s' ∧ 0 ∈ writeCall.range ∧
    sv39 s'.mem root 0 = none ∧ ¬ Translates root s'.mem [writeCall] := by
  obtain ⟨root, s, hblank, hroom, _⟩ := exists_blank 0
  have hA := buddy_grants 0 virt_machine virt_fits
  have hproper : writeCall.Proper := ⟨by decide, by decide, by decide⟩
  have hpieces : writeCall.pieces = [⟨2, 0, 0x80000000⟩] := by decide +kernel
  have hneed : ∀ x ∈ writeCall.pieces, ∀ q, q <:+ x.path → q ≠ x.path → q ≠ [] →
      s.table root q ≠ none ∨ q ∈ (∅ : Finset (List Nat)) := by
    intro x hx q hq hne hnil
    rw [hpieces, List.mem_singleton] at hx
    subst hx
    rcases List.suffix_cons_iff.mp hq with he | hq
    · exact absurd he hne
    · exact absurd (List.suffix_nil.mp hq) hnil
  obtain ⟨new, s', L, hrun, hret, _⟩ := hblank.built.returns hA hproper
    (hroom.mono (Nat.zero_le _)) hneed (fun x _ q hq => absurd hq (hblank.not_mapped q))
    (by rw [hpieces]; exact List.pairwise_singleton _ _)
  have hleaf : s'.Leaf root [0] (leafPte 0 12 0x80000000) := by
    refine (hret.leaf _ _).mpr (Or.inr ⟨⟨2, 0, 0x80000000⟩, ?_, rfl, rfl⟩)
    rw [hpieces]
    exact List.mem_singleton_self _
  have hcell : s'.mem (root + 8 * (0 / (4096 * 512 ^ 2) % 512)) = leafPte 0 12 0x80000000 := by
    obtain ⟨t, ht, hc⟩ := entry_cons.mp hleaf.entry
    obtain rfl := Option.some.inj ht
    exact hc
  have hfault : sv39 s'.mem root 0 = none := by
    rw [sv39, if_pos (by decide), sv39Level]
    simp only [hcell]
    rw [if_neg (by decide), if_pos (by decide)]
  have hin : 0 ∈ writeCall.range := ⟨by decide, by decide⟩
  refine ⟨root, s, s', hblank, hproper, ?_, hin, hfault, fun ht => ?_⟩
  · rw [mapAll, hrun]
    rfl
  · have hhit := ht.inside _ (List.mem_singleton_self _) 0 hin
    rw [hfault] at hhit
    exact absurd hhit (by simp)

end RexOS.Paging
