import RexOS.Paging.Mapping

/-!
# The tables of processes

`create_user_table` zeroes a page and maps the trampoline and the kernel stack of the
process. Its calls, like those of the syscalls, map single pages.
-/

namespace RexOS.Paging

open Bits RexOS.Kalloc Radix

variable {β : Type} {A : PageAlloc β} {Owns : β → List Grant → Prop} {root : Nat}
  {s s' : Space β} {L : List Grant} {c : MapCall}

/-! ## Calls of one page -/

/-- A call for one page is one page long. -/
theorem MapCall.len_of_page (h : c.size = 4096) : c.len = 4096 := by
  rw [MapCall.len, h]
  decide

/-- A call of one page has one piece. -/
theorem MapCall.pieces_of_page (h : c.len = 4096) : c.pieces = [⟨0, c.start, c.frame⟩] := by
  have hlev : pieceLevel true c.start c.frame 4096 = 0 := by
    simp [pieceLevel]
  rw [MapCall.pieces, h]
  show Paging.pieces true (1 + 1) c.start c.frame 4096 = _
  simp [Paging.pieces, hlev, Piece.span]

/-- Every leaf maps a page. -/
def Fine (root : Nat) (s : Space β) : Prop := ∀ q, s.Mapped root q → q.length = 3

/-- A new table has no leaf. -/
theorem Blank.fine (h : Blank Owns root s L) : Fine root s := fun q hq =>
  absurd hq (h.not_mapped q)

/-- With page leaves only, no leaf is above another. -/
theorem Fine.eq_of_suffix (h : Fine root s) {p q : List Nat} (hq : s.Mapped root q)
    (hp : p.length = 3) (hsub : q <:+ p) : q = p :=
  hsub.eq_of_length ((h q hq).trans hp.symm)

/-- Among leaves of one page a call of one page meets no larger leaf. -/
theorem Fine.shallow (h : Fine root s) (hc : c.Proper) (hl : c.len = 4096) :
    Shallow root s c := by
  refine ⟨hc, ?_⟩
  rw [MapCall.places, MapCall.pieces_of_page hl]
  refine ⟨fun q hq hne => ⟨fun hm => hne ?_, fun _ => trivial⟩, Or.inr trivial⟩
  exact h.eq_of_suffix hm (Piece.path_length _) hq

/-- A call for one page leaves page leaves only. -/
theorem Fine.onStep (h : Fine root s) {new : List (List Nat)} {L' : List Grant}
    (hl : c.len = 4096) (hr : Returned A Owns root s L c new s' L') : Fine root s' := by
  rintro q ⟨f, hq⟩
  rcases (hr.leaf q f).mp hq with hq | ⟨x, hx, rfl, _⟩
  · exact h q ⟨f, hq⟩
  · rw [MapCall.pieces_of_page hl, List.mem_singleton] at hx
    rw [hx]
    exact Piece.path_length _

/-- Where its page is not mapped it returns, and makes two tables at most. -/
theorem Fine.returns (hA : A.Grants Owns) (hf : Fine root s) (hb : Built Owns root s L)
    (hc : c.Proper) (hl : c.len = 4096) (hroom : A.Room 2 s.pages)
    (hfree : ¬ s.Mapped root (indices c.start)) :
    ∃ new s' L', c.exec A root s = .done () s' ∧ Returned A Owns root s L c new s' L' ∧
      new.length ≤ 2 := by
  have hx := MapCall.pieces_of_page hl
  have hlen : (⟨0, c.start, c.frame⟩ : Piece).path.length = 3 := Piece.path_length _
  obtain ⟨new, s', L', hrun, hret, hnew⟩ := hb.returns hA hc
    (N := {(indices c.start).drop 1, (indices c.start).drop 2})
    (hroom.mono Finset.card_le_two)
    (fun x hx' q hq hne hnil => by
      rw [hx, List.mem_singleton] at hx'
      subst hx'
      refine Or.inr (Finset.mem_insert.mpr ?_)
      rcases List.suffix_cons_iff.mp hq with rfl | hq
      · exact absurd rfl hne
      · rcases List.suffix_cons_iff.mp hq with rfl | hq
        · exact Or.inl rfl
        · rcases List.suffix_cons_iff.mp hq with rfl | hq
          · exact Or.inr (Finset.mem_singleton_self _)
          · exact absurd (List.suffix_nil.mp hq) hnil)
    (fun x hx' q hq => by
      rw [hx, List.mem_singleton] at hx'
      subst hx'
      refine ⟨fun hsub => hfree ?_, fun hsub => hfree ?_⟩
      · have he : q = indices c.start := hf.eq_of_suffix hq hlen hsub
        rwa [he] at hq
      · have he : indices c.start = q := hsub.eq_of_length (hlen.trans (hf q hq).symm)
        rwa [← he] at hq)
    (by
      rw [hx]
      exact List.pairwise_singleton _ _)
  refine ⟨new, s', L', hrun, hret, ?_⟩
  rw [← List.toFinset_card_of_nodup hret.grew.nodup]
  exact (Finset.card_le_card fun q hq => hnew q (List.mem_toFinset.mp hq)).trans Finset.card_le_two

/-! ## create_user_table -/

/-- The trampoline: X and no U. -/
def trampolineCall (trampoline : Nat) : MapCall := ⟨false, 0x3FFFFFF000, trampoline, 4096, 8⟩

/-- The kernel stack: R, W and no U. -/
def kstackCall (processKstack : Nat) : MapCall := ⟨false, 0x3FFFFFE000, processKstack, 4096, 6⟩

/-- The trampoline and the kernel stack are such calls. -/
theorem trampolineCall_proper {t : Nat} (ht : t < 2 ^ 64) : (trampolineCall t).Proper where
  virAddr := (by decide : 0x3FFFFFF000 < 2 ^ 64)
  physAddr := ht
  perm := (by decide : 8 &&& 0xA ≠ 0)

theorem kstackCall_proper {k : Nat} (hk : k < 2 ^ 64) : (kstackCall k).Proper where
  virAddr := (by decide : 0x3FFFFFE000 < 2 ^ 64)
  physAddr := hk
  perm := (by decide : 6 &&& 0xA ≠ 0)

theorem trampolineCall_len (t : Nat) : (trampolineCall t).len = 4096 := MapCall.len_of_page rfl

theorem kstackCall_len (k : Nat) : (kstackCall k).len = 4096 := MapCall.len_of_page rfl

/-- The leaf of the trampoline. -/
theorem trampolineCall_leaf {t : Nat} {q : List Nat} {f : Nat} :
    (∃ x ∈ (trampolineCall t).pieces, q = x.path ∧ f = (trampolineCall t).content x) ↔
      q = indices 0x3FFFFFF000 ∧ f = leafPte 0 8 (andNot t 0xFFF) := by
  have hstart : (trampolineCall t).start = 0x3FFFFFF000 := by
    show andNot 0x3FFFFFF000 0xFFF = 0x3FFFFFF000
    decide
  rw [MapCall.pieces_of_page (trampolineCall_len _), hstart]
  simp only [List.mem_singleton, exists_eq_left]
  rfl

/-- The leaf of the kernel stack. -/
theorem kstackCall_leaf {k : Nat} {q : List Nat} {f : Nat} :
    (∃ x ∈ (kstackCall k).pieces, q = x.path ∧ f = (kstackCall k).content x) ↔
      q = indices 0x3FFFFFE000 ∧ f = leafPte 0 6 (andNot k 0xFFF) := by
  have hstart : (kstackCall k).start = 0x3FFFFFE000 := by
    show andNot 0x3FFFFFE000 0xFFF = 0x3FFFFFE000
    decide
  rw [MapCall.pieces_of_page (kstackCall_len _), hstart]
  simp only [List.mem_singleton, exists_eq_left]
  rfl

theorem trampolineCall_exec (t : Nat) : (trampolineCall t).exec A root s =
    kvmMap A root 0x3FFFFFF000 t 4096 8 s := if_neg Bool.false_ne_true

theorem kstackCall_exec (k : Nat) : (kstackCall k).exec A root s =
    kvmMap A root 0x3FFFFFE000 k 4096 6 s := if_neg Bool.false_ne_true

/-- Its root is a page given now, zeroed, on which it makes its two calls. -/
theorem createUserTable_eq_done {trampoline kstack : Nat} :
    createUserTable A trampoline kstack s = .done root s' ↔
      ∃ b, A.kalloc s.pages 0 = .done root b ∧
        mapAll A root [trampolineCall trampoline, kstackCall kstack]
          (zeroTable root { s with pages := b, given := root :: s.given }) = .done () s' := by
  unfold createUserTable kallocPage
  constructor
  · intro h
    obtain ⟨page, s₁, h₁, h₂⟩ := Outcome.bind_eq_done.mp h
    obtain ⟨page', s₂, hw, he⟩ := Outcome.bind_eq_done.mp h₁
    obtain ⟨b, hb, rfl⟩ := Outcome.within_eq_done.mp hw
    obtain ⟨rfl, rfl⟩ := Outcome.done.inj he
    obtain ⟨_, s₃, h₃, h₄⟩ := Outcome.bind_eq_done.mp h₂
    obtain ⟨_, s₄, h₅, h₆⟩ := Outcome.bind_eq_done.mp h₄
    obtain ⟨rfl, rfl⟩ := Outcome.done.inj h₆
    refine ⟨b, hb, ?_⟩
    rw [mapAll, trampolineCall_exec, h₃, Outcome.bind_done, mapAll, kstackCall_exec, h₅]
    rfl
  · rintro ⟨b, hb, hrun⟩
    rw [mapAll, trampolineCall_exec] at hrun
    obtain ⟨_, s₃, h₃, h₄⟩ := Outcome.bind_eq_done.mp hrun
    rw [mapAll, kstackCall_exec] at h₄
    obtain ⟨_, s₄, h₅, h₆⟩ := Outcome.bind_eq_done.mp h₄
    obtain ⟨_, rfl⟩ := Outcome.done.inj h₆
    rw [hb]
    refine Outcome.bind_eq_done.mpr ⟨root, _, rfl, ?_⟩
    exact Outcome.bind_eq_done.mpr ⟨_, s₃, h₃, Outcome.bind_eq_done.mpr ⟨_, s₄, h₅, rfl⟩⟩

/-- A page given now, zeroed, is an empty table. -/
theorem blank_of_kalloc (hA : A.Grants Owns) (h : Owns s.pages L) {b : β}
    (hk : A.kalloc s.pages 0 = .done root b) :
    Blank Owns root (zeroTable root { s with pages := b, given := root :: s.given })
      (⟨root, 0⟩ :: L) := by
  have howns := (hA.kalloc h hk).2
  have hz := zeroed_of_granted (hA.blocks howns) List.mem_cons_self
    { s with pages := b, given := root :: s.given }
  refine ⟨?_, List.mem_cons_self, hz.zero⟩
  rw [hz.pages]
  exact howns

/-- What `create_user_table` leaves. -/
structure Created (Owns : β → List Grant → Prop) (root trampoline kstack : Nat) (s : Space β)
    (L : List Grant) : Prop extends Built Owns root s L where
  fine : Fine root s
  leaf : ∀ q f, s.Leaf root q f ↔
    (q = indices 0x3FFFFFF000 ∧ f = leafPte 0 8 (andNot trampoline 0xFFF)) ∨
    (q = indices 0x3FFFFFE000 ∧ f = leafPte 0 6 (andNot kstack 0xFFF))

/-- `create_user_table` makes a table with these two leaves, and writes nowhere else. -/
theorem createUserTable_spec (hA : A.Grants Owns) (h : Owns s.pages L) {trampoline kstack : Nat}
    (ht : trampoline < 2 ^ 64) (hk : kstack < 2 ^ 64)
    (hrun : createUserTable A trampoline kstack s = .done root s') :
    ∃ L', Created Owns root trampoline kstack s' L' ∧
      ∀ a, ¬ s'.OnTable root a → s'.mem a = s.mem a := by
  obtain ⟨b, hb, hcalls⟩ := createUserTable_eq_done.mp hrun
  have hblank := blank_of_kalloc hA h hb
  obtain ⟨_, s₁, h₁, hrest⟩ := Outcome.bind_eq_done.mp hcalls
  obtain ⟨_, s₂, h₂, hnil⟩ := Outcome.bind_eq_done.mp hrest
  obtain ⟨_, rfl⟩ := Outcome.done.inj hnil
  have hsh₁ := hblank.fine.shallow (trampolineCall_proper ht) (trampolineCall_len _)
  obtain ⟨new₁, L₁, hr₁⟩ := hblank.built.onStep hA hsh₁ (step_eq_some.mpr h₁)
  have hfine₁ := hblank.fine.onStep (trampolineCall_len _) hr₁
  have hsh₂ := hfine₁.shallow (kstackCall_proper hk) (kstackCall_len _)
  obtain ⟨new₂, L₂, hr₂⟩ := hr₁.built.onStep hA hsh₂ (step_eq_some.mpr h₂)
  refine ⟨L₂, ⟨hr₂.built, hfine₁.onStep (kstackCall_len _) hr₂, fun q f => ?_⟩, fun a ha => ?_⟩
  · rw [hr₂.leaf q f, hr₁.leaf q f, trampolineCall_leaf, kstackCall_leaf]
    constructor
    · rintro ((hq | h) | h)
      · exact absurd ⟨f, hq⟩ (hblank.not_mapped q)
      · exact Or.inl h
      · exact Or.inr h
    · rintro (h | h)
      · exact Or.inl (Or.inr h)
      · exact Or.inr h
  · have hgrew := hr₁.grew.trans hr₂.grew
    have hz := zeroed_of_granted (hA.blocks hblank.owns) hblank.held
      { s with pages := b, given := root :: s.given }
    rw [hgrew.frame a ha]
    refine hz.other a fun i hi he => ha (hgrew.onTable ?_)
    exact ⟨[], root, i, trail_cons.mpr ⟨hi, fun _ h => absurd h List.not_mem_nil⟩, rfl, he⟩

/-- With five pages to spare it returns. -/
theorem createUserTable_returns (hA : A.Grants Owns) (h : Owns s.pages L)
    {trampoline kstack n : Nat} (ht : trampoline < 2 ^ 64) (hk : kstack < 2 ^ 64)
    (hroom : A.Room (n + 4 + 1) s.pages) :
    ∃ root s', createUserTable A trampoline kstack s = .done root s' ∧ A.Room n s'.pages := by
  obtain ⟨root, b, hb, hroom⟩ := hroom
  have hblank := blank_of_kalloc hA h hb
  have hz := zeroed_of_granted (hA.blocks hblank.owns) hblank.held
    { s with pages := b, given := root :: s.given }
  have hroom : A.Room (n + 4)
      (zeroTable root { s with pages := b, given := root :: s.given }).pages := by
    rw [hz.pages]
    exact hroom
  obtain ⟨new₁, s₁, L₁, hrun₁, hr₁, hlen₁⟩ := hblank.fine.returns hA hblank.built
    (trampolineCall_proper ht) (trampolineCall_len _) (hroom.mono (by omega))
    (hblank.not_mapped _)
  have hroom₁ := hr₁.grew.room (n + 2) (hroom.mono (by omega))
  have hfree : ¬ s₁.Mapped root (indices (kstackCall kstack).start) := by
    rintro ⟨f, hf⟩
    rcases (hr₁.leaf _ f).mp hf with hf | hf
    · exact hblank.not_mapped _ ⟨f, hf⟩
    · have hstart : (kstackCall kstack).start = 0x3FFFFFE000 := by
        show andNot 0x3FFFFFE000 0xFFF = 0x3FFFFFE000
        decide
      rw [hstart] at hf
      exact absurd (trampolineCall_leaf.mp hf).1 (by decide)
  obtain ⟨new₂, s₂, L₂, hrun₂, hr₂, hlen₂⟩ :=
    (hblank.fine.onStep (trampolineCall_len _) hr₁).returns
    hA hr₁.built (kstackCall_proper hk) (kstackCall_len _) (hroom₁.mono (by omega)) hfree
  refine ⟨root, s₂, createUserTable_eq_done.mpr ⟨b, hb, ?_⟩, ?_⟩
  · rw [mapAll, hrun₁, Outcome.bind_done, mapAll, hrun₂]
    rfl
  · exact hr₂.grew.room n (hroom₁.mono (by omega))

/-- Whatever `satp` holds, it names a page that the hardware can reach. -/
theorem satpTable_page (satp : Nat) : 4096 ∣ satpTable satp ∧ satpTable satp < 2 ^ 56 := by
  have hand : satp &&& 0xFFFFFFFFFFF = satp % 2 ^ 44 := Nat.and_two_pow_sub_one_eq_mod satp 44
  rw [satpTable, hand, Nat.shiftLeft_eq, wrap_of_lt (by omega)]
  exact ⟨⟨_, Nat.mul_comm _ _⟩, by omega⟩

/-- The table a process finds through its `satp`. -/
theorem satpTable_satpOf (hd : 4096 ∣ root) (hlt : root < 2 ^ 56) :
    satpTable (satpOf root) = root := by
  have hsmall : root / 4096 < 2 ^ 44 := by omega
  have hand : satpOf root &&& 0xFFFFFFFFFFF = root / 4096 := by
    rw [satpOf, Nat.shiftRight_eq_div_pow, Nat.and_or_distrib_right]
    have hlow : root / 4096 &&& 0xFFFFFFFFFFF = root / 4096 % 2 ^ 44 :=
      Nat.and_two_pow_sub_one_eq_mod _ 44
    have hhigh : 0x8000000000000000 &&& 0xFFFFFFFFFFF = 0 := by decide
    rw [hhigh, Nat.zero_or, show (2 : Nat) ^ 12 = 4096 from rfl, hlow, Nat.mod_eq_of_lt hsmall]
  rw [satpTable, hand, wrap, Nat.shiftLeft_eq]
  omega

/-- On the board, with memory zeroed. -/
theorem createUserTable_virt (ra trampoline kstack : Nat) (ht : trampoline < 2 ^ 64)
    (hk : kstack < 2 ^ 64) : ∃ (root : Nat) (s₀ s : Space State) (L : List Grant),
      Granted virt virtBssEnd s₀.pages L ∧ (∀ a, s₀.mem a = 0) ∧
      createUserTable (buddy virt ra) trampoline kstack s₀ = .done root s ∧
      (buddy virt ra).Room 900 s.pages := by
  obtain ⟨_, s₀, hblank, hroom, hzero⟩ := exists_blank ra
  obtain ⟨root, s, hrun, hroom'⟩ := createUserTable_returns (n := 900)
    (buddy_grants ra virt_machine virt_fits) hblank.owns ht hk (hroom.mono (by decide))
  exact ⟨root, s₀, s, _, hblank.owns, hzero, hrun, hroom'⟩

end RexOS.Paging
