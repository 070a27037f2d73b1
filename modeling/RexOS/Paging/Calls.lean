import RexOS.Core.Runs
import RexOS.Paging.Course

/-!
# Calls on one table

A table starts as a zeroed page. Each call of `kvm_map` or `uvm_map` that returns has
mapped all its pieces, and the tables stay a tree in which every table has a leaf below it.
-/

namespace RexOS.Paging

open Bits RexOS.Kalloc Radix

variable {β : Type} {A : PageAlloc β} {Owns : β → List Grant → Prop} {root : Nat}
  {s s' : Space β} {L : List Grant}

namespace MapCall

/-- The U bit of the leaves a call writes. -/
def user (c : MapCall) : Nat := if c.isUser then 0x10 else 0

/-- The range of the call in whole pages: where it starts, where it is mapped to and how
many bytes it has. -/
def start (c : MapCall) : Nat := andNot c.virAddr 0xFFF
def frame (c : MapCall) : Nat := andNot c.physAddr 0xFFF
def len (c : MapCall) : Nat := andNot (wrap (c.size + 0xFFF)) 0xFFF

/-- The pieces the call maps. -/
def pieces (c : MapCall) : List Piece :=
  Paging.pieces true (c.len / 4096 + 1) c.start c.frame c.len

/-- The leaf the call writes for a piece. -/
def content (c : MapCall) (x : Piece) : Nat := leafPte c.user c.perm x.pa

/-- The places of the pieces. -/
def places (c : MapCall) : List (List Nat) := c.pieces.map Piece.path

/-- The addresses are 64-bit words and the permissions hold R or X. -/
structure Proper (c : MapCall) : Prop where
  virAddr : c.virAddr < 2 ^ 64
  physAddr : c.physAddr < 2 ^ 64
  perm : c.perm &&& 0xA ≠ 0

variable {c : MapCall}

/-- The rights make the entry a leaf. -/
theorem Proper.perm_low (h : c.Proper) : c.perm &&& 0xE ≠ 0 := by
  intro h0
  apply h.perm
  have hm : (0xA : Nat) = 0xE &&& 0xA := rfl
  rw [hm, ← Nat.and_assoc, h0, Nat.zero_and]

/-- Masking rounds down to a page. -/
theorem andNot_page (x : Nat) : andNot x 0xFFF = x / 4096 * 4096 := andNot_mask x 12

/-- So the call begins at a page, in both spaces and with its size. -/
theorem dvd_start (c : MapCall) : 4096 ∣ c.start := ⟨_, (andNot_page _).trans (Nat.mul_comm _ _)⟩
theorem dvd_frame (c : MapCall) : 4096 ∣ c.frame := ⟨_, (andNot_page _).trans (Nat.mul_comm _ _)⟩
theorem dvd_len (c : MapCall) : 4096 ∣ c.len := ⟨_, (andNot_page _).trans (Nat.mul_comm _ _)⟩

/-- The first page has an address. -/
theorem Proper.start_lt (h : c.Proper) : c.start < 2 ^ 64 :=
  Nat.lt_of_le_of_lt (andNot_le _ _) h.virAddr

/-- So has the first frame. -/
theorem Proper.frame_lt (h : c.Proper) : c.frame < 2 ^ 64 :=
  Nat.lt_of_le_of_lt (andNot_le _ _) h.physAddr

/-- The length is a word. -/
theorem len_lt (c : MapCall) : c.len < 2 ^ 64 := Nat.lt_of_le_of_lt (andNot_le _ _) (wrap_lt _)

/-- The loop has rounds enough. -/
theorem len_fuel (c : MapCall) : c.len < 4096 * (c.len / 4096 + 1) := by omega

/-- The call maps its pieces, one after the other. -/
theorem exec_eq (A : PageAlloc β) (c : MapCall) (s : Space β) :
    c.exec A root s = mapPieces A c.user c.perm root c.virAddr c.pieces s := by
  have h : ∀ user, mapRange A user root c.virAddr c.physAddr c.size c.perm s =
      mapPieces A user c.perm root c.virAddr c.pieces s := fun user =>
    mapLoop_eq c.dvd_start c.dvd_frame c.dvd_len c.len_lt c.len_fuel
  unfold exec user
  split
  · exact h 0x10
  · exact h 0

/-- Each piece is a part of the call, aligned to its span. -/
theorem Proper.mem_pieces (h : c.Proper) {x : Piece} (hx : x ∈ c.pieces) :
    x.level ≤ 2 ∧ x.span ∣ x.va ∧ x.span ∣ x.pa ∧
      ∃ d, d + x.span ≤ c.len ∧ x.va = wrap (c.start + d) ∧ x.pa = wrap (c.frame + d) :=
  Paging.mem_pieces c.dvd_start c.dvd_frame c.dvd_len h.start_lt h.frame_lt hx

/-- The place of the piece an address of the range lies in. -/
theorem Proper.exists_place (h : c.Proper) {d : Nat} (hd : d < c.len) :
    ∃ x ∈ c.pieces, x.path <:+ indices (wrap (c.start + d)) ∧
      ∃ r < x.span, wrap (c.start + d) = x.va + r ∧ wrap (c.frame + d) = x.pa + r := by
  obtain ⟨x, hx, r, hr, h1, h2⟩ : ∃ x ∈ c.pieces, ∃ r < x.span, _ :=
    exists_piece c.dvd_start c.dvd_frame c.dvd_len
    h.start_lt h.frame_lt c.len_fuel hd
  obtain ⟨hl, hva, _⟩ := h.mem_pieces hx
  refine ⟨x, hx, ?_, r, hr, h1, h2⟩
  rw [h1]
  exact x.path_suffix_add hl hva hr

end MapCall

/-! ## A table under construction -/

/-- The root is a zeroed page. -/
structure Blank (Owns : β → List Grant → Prop) (root : Nat) (s : Space β) (L : List Grant) :
    Prop where
  owns : Owns s.pages L
  held : ⟨root, 0⟩ ∈ L
  zero : ∀ i < 512, s.mem (root + 8 * i) = 0

/-- A new root links to no table. -/
theorem Blank.table_cons (h : Blank Owns root s L) {p : List Nat} {i : Nat}
    (hp : Trail 512 (i :: p)) : s.table root (i :: p) = none := by
  induction p generalizing i with
  | nil =>
    show link (s.mem (root + 8 * i)) = none
    rw [h.zero i (trail_cons.mp hp).1]
    exact link_zero
  | cons j p ih =>
    have hprev : s.table root (j :: p) = none := ih (trail_cons.mp hp).2
    show (s.table root (j :: p)).bind _ = none
    rw [hprev]
    rfl

/-- So its only table is the root. -/
theorem Blank.table_eq_some (h : Blank Owns root s L) {p : List Nat} {t : Nat} (hp : Trail 512 p)
    (ht : s.table root p = some t) : p = [] ∧ t = root := by
  cases p with
  | nil => exact ⟨rfl, (Option.some.inj ht).symm⟩
  | cons i p =>
    rw [h.table_cons hp] at ht
    exact absurd ht (by simp)

/-- It is a tree. -/
theorem Blank.tree (h : Blank Owns root s L) : Tree Owns root s L where
  owns := h.owns
  shape := by
    refine ⟨fun p q t hp hq ht hu => ?_, fun p t hp ht => ?_⟩
    · rw [(h.table_eq_some hp ht).1, (h.table_eq_some hq hu).1]
    · rw [(h.table_eq_some hp ht).1]
      decide
  held p t hp ht := (h.table_eq_some hp ht).2 ▸ h.held
  plain p t i u hp ht hu := by
    have hnone := h.table_cons hp
    have hsome : s.table root (i :: p) = some u := Radix.table_cons.mpr ⟨t, ht, hu⟩
    rw [hnone] at hsome
    exact absurd hsome (by simp)

/-- It maps nothing. -/
theorem Blank.not_mapped (h : Blank Owns root s L) (p : List Nat) : ¬ s.Mapped root p := by
  rintro ⟨e, hl⟩
  obtain ⟨i, q, t, rfl, ht, rfl⟩ := hl.exists_table
  obtain ⟨hi, hq⟩ := trail_cons.mp hl.path
  obtain ⟨rfl, rfl⟩ := h.table_eq_some hq ht
  have hv := hl.valid
  rw [cell, h.zero i hi] at hv
  exact not_valid_zero hv

/-- There is room below every index. -/
theorem Blank.fertile (h : Blank Owns root s L) : Fertile root s := by
  intro p t hp hne ht
  exact absurd (h.table_eq_some hp ht).1 hne

/-- A call that returns; one that stops the machine leaves no table. -/
def step (A : PageAlloc β) (root : Nat) (s : Space β) (c : MapCall) : Option (Space β) :=
  match c.exec A root s with
  | .done _ s' => some s'
  | _ => none

/-- A step is a call that returns. -/
theorem step_eq_some {c : MapCall} : step A root s c = some s' ↔ c.exec A root s = .done () s' := by
  unfold step
  cases c.exec A root s <;> simp

/-- What the call finds lets its pieces be mapped, or stops it at a place that is taken. -/
def Shallow (root : Nat) (s : Space β) (c : MapCall) : Prop :=
  c.Proper ∧ Passable (fun _ => True) (s.Mapped root) c.places

/-- A call, from a state whose tables are a tree. -/
theorem Tree.exec (hA : A.Grants Owns) (h : Tree Owns root s L) {c : MapCall} (hc : c.Proper)
    {H : List Nat → Prop} (hpass : Passable H (s.Mapped root) c.places) :
    Course A Owns root H s L c.content c.pieces (c.exec A root s) := by
  rw [c.exec_eq A s]
  exact mapPieces_spec c.user c.virAddr hA h hc.perm_low (fun x hx => (hc.mem_pieces hx).1) hpass

/-- The tables between calls. -/
structure Built (Owns : β → List Grant → Prop) (root : Nat) (s : Space β) (L : List Grant) :
    Prop extends Tree Owns root s L where
  fertile : Fertile root s

/-- A run of calls begins with a new root. -/
theorem Blank.built (h : Blank Owns root s L) : Built Owns root s L := ⟨h.tree, h.fertile⟩

/-- What a call that returns has done. -/
structure Returned (A : PageAlloc β) (Owns : β → List Grant → Prop) (root : Nat) (s : Space β)
    (L : List Grant) (c : MapCall) (new : List (List Nat)) (s' : Space β) (L' : List Grant) :
    Prop where
  built : Built Owns root s' L'
  grew : Grew A root s L new s' L'
  leaf : ∀ q f, s'.Leaf root q f ↔ s.Leaf root q f ∨ ∃ x ∈ c.pieces, q = x.path ∧ f = c.content x
  apart : ∀ x ∈ c.pieces, ∀ q, s.Mapped root q → ¬ q <:+ x.path ∧ ¬ x.path <:+ q

/-- A call that placed its pieces has returned properly. -/
theorem Built.of_placed (h : Built Owns root s L) {c : MapCall}
    {new : List (List Nat)} {L' : List Grant} (htree : Tree Owns root s' L')
    (hg : Grew A root s L new s' L') (hnew : ∀ q ∈ new, ∃ x ∈ c.pieces, q <:+ x.path)
    (hleaf : ∀ q f, s'.Leaf root q f ↔ s.Leaf root q f ∨
      ∃ x ∈ c.pieces, q = x.path ∧ f = c.content x)
    (hapart : ∀ x ∈ c.pieces, ∀ q, s.Mapped root q → ¬ q <:+ x.path ∧ ¬ x.path <:+ q) :
    Returned A Owns root s L c new s' L' := by
  refine ⟨⟨htree, fun p t hp hne ht => ?_⟩, hg, hleaf, hapart⟩
  rcases hg.added p t hp ht with ht | hin
  · obtain ⟨q, ⟨e, hq⟩, hsub⟩ := h.fertile p t hp hne ht
    exact ⟨q, ⟨e, (hleaf q e).mpr (Or.inl hq)⟩, hsub⟩
  · obtain ⟨x, hx, hsub⟩ := hnew p hin
    exact ⟨x.path, ⟨_, (hleaf _ _).mpr (Or.inr ⟨x, hx, rfl, rfl⟩)⟩, hsub⟩

/-- With a page for each table missing, no call runs out of pages. -/
theorem Grew.not_starved {new : List (List Nat)} {L' : List Grant} (h : Grew A root s L new s' L')
    {N : Finset (List Nat)} (hroom : A.Room N.card s.pages)
    (hnew : ∀ q ∈ new, s.table root q ≠ none ∨ q ∈ N) {q : List Nat} (hq : Trail 512 q)
    (hqN : s.table root q ≠ none ∨ q ∈ N) (hnone : s'.table root q = none)
    (hk : ∀ u b, A.kalloc s'.pages 0 ≠ .done u b) : False := by
  have hin : ∀ r ∈ q :: new, r ∈ N := by
    intro r hr
    rcases List.mem_cons.mp hr with rfl | hr
    · refine hqN.resolve_left fun hne => ?_
      obtain ⟨t, ht⟩ := Option.ne_none_iff_exists'.mp hne
      rw [h.tables _ t hq ht] at hnone
      exact absurd hnone (by simp)
    · exact (hnew r hr).resolve_left fun hne => hne (h.fresh r hr).2.1
  have hnodup : (q :: new).Nodup :=
    List.nodup_cons.mpr ⟨fun hqn => (h.fresh q hqn).2.2 hnone, h.nodup⟩
  have hcard : new.length + 1 ≤ N.card := by
    rw [← List.length_cons, ← List.toFinset_card_of_nodup hnodup]
    exact Finset.card_le_card fun r hr => hin r (List.mem_toFinset.mp hr)
  obtain ⟨k, hk'⟩ := Nat.exists_eq_add_of_le' hcard
  obtain ⟨u, b, hrun, _⟩ := h.room (k + 1) (by rwa [Nat.add_right_comm, Nat.add_assoc, ← hk'])
  exact hk u b hrun

/-- A call that meets neither a leaf nor itself returns, when there are pages for the tables
it lacks. -/
theorem Built.returns (hA : A.Grants Owns) (h : Built Owns root s L) {c : MapCall} (hc : c.Proper)
    {N : Finset (List Nat)} (hroom : A.Room N.card s.pages)
    (hneed : ∀ x ∈ c.pieces, ∀ q, q <:+ x.path → q ≠ x.path → q ≠ [] →
      s.table root q ≠ none ∨ q ∈ N)
    (hfree : ∀ x ∈ c.pieces, ∀ q, s.Mapped root q → ¬ q <:+ x.path ∧ ¬ x.path <:+ q)
    (hown : c.pieces.Pairwise fun x y => ¬ x.path <:+ y.path ∧ ¬ y.path <:+ x.path) :
    ∃ new s' L', c.exec A root s = .done () s' ∧ Returned A Owns root s L c new s' L' ∧
      ∀ q ∈ new, q ∈ N := by
  have hpass : Passable (fun q => s.table root q ≠ none ∨ q ∈ N) (s.Mapped root) c.places := by
    apply passable_of_apart
    · rintro p hp
      obtain ⟨x, hx, rfl⟩ := List.mem_map.mp hp
      exact hneed x hx
    · rintro p hp q hq
      obtain ⟨x, hx, rfl⟩ := List.mem_map.mp hp
      exact (hfree x hx q hq).1
    · exact List.pairwise_map.mpr (hown.imp fun h => h.1)
  have hcourse := h.exec hA hc hpass
  generalize hrun : c.exec A root s = o at hcourse
  cases hcourse with
  | placed htree hg hnew hleaf hapart =>
    refine ⟨_, _, _, rfl, h.of_placed htree hg (fun q hq => (hnew q hq).2) hleaf hapart,
      fun q hq => ?_⟩
    exact (hnew q hq).1.resolve_left fun hne => hne (hg.fresh q hq).2.1
  | blocked he hg ht =>
    rename_i pre post x
    have hx : x ∈ c.pieces := he ▸ List.mem_append_right _ List.mem_cons_self
    obtain ⟨hl, _⟩ := hc.mem_pieces hx
    rcases ht with ht | ⟨y, hy, hsub⟩
    · obtain ⟨q, hq, hsub⟩ := h.fertile.mapped_of_taken x.path_mem (x.path_ne_nil hl) ht
      exact absurd hsub (hfree x hx q hq).2
    · rw [he] at hown
      have hpair := (List.pairwise_append.mp hown).2.2 y hy x List.mem_cons_self
      exact absurd hsub hpair.2
  | starved _ hg hnew hH hq hnone hk =>
    exact (hg.not_starved hroom hnew hq hH hnone hk).elim

/-- A call that returns keeps what is built, and adds its pieces. -/
theorem Built.onStep (hA : A.Grants Owns) (h : Built Owns root s L) {c : MapCall}
    (hc : Shallow root s c) (hs : step A root s c = some s') :
    ∃ new L', Returned A Owns root s L c new s' L' := by
  have hcourse := h.exec hA hc.1 hc.2
  rw [step_eq_some.mp hs] at hcourse
  cases hcourse with
  | placed htree hg hnew hleaf hapart =>
    exact ⟨_, _, h.of_placed htree hg (fun q hq => (hnew q hq).2) hleaf hapart⟩
  | starved hno => exact absurd rfl (hno s')

/-- The tables after any run of such calls. -/
theorem Built.onRun (hA : A.Grants Owns) (h : Built Owns root s L) {g : List (Space β × MapCall)}
    (hr : Run (step A root) s g s') (hP : Run.Steps (Shallow root) g) :
    ∃ L', Built Owns root s' L' := by
  refine hr.invariant (I := fun s => ∃ L, Built Owns root s L) hP ⟨L, h⟩ ?_
  rintro s c t ⟨L, h⟩ hc hs
  obtain ⟨_, L', hm⟩ := h.onStep hA hc hs
  exact ⟨L', hm.built⟩

end RexOS.Paging
