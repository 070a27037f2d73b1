import RexOS.Paging.Calls

/-!
# Mapping what is mapped

A call whose range meets a mapped page is to stop the machine with code 107 and to have
written only to tables. It does so when none of its pieces comes to lie below a larger
leaf: the routines look for a valid entry at the level of the piece only, and further up
they take a leaf for a link and go on into the frame that the leaf maps.
-/

namespace RexOS.Paging

open Bits RexOS.Kalloc Radix

variable {β : Type} {A : PageAlloc β} {Owns : β → List Grant → Prop} {root : Nat}
  {s s' : Space β} {L : List Grant} {c : MapCall}

/-- Some page of the range is mapped. -/
def Overlaps (root : Nat) (s : Space β) (c : MapCall) : Prop :=
  ∃ d < c.len, ∃ q, s.Mapped root q ∧ q <:+ indices (wrap (c.start + d))

/-- The frame that a leaf at the place `q` maps. -/
def frameOf (q : List Nat) (pte : Nat) : Set Nat :=
  Set.Ico (tableOf pte) (tableOf pte + 4096 * 512 ^ (3 - q.length))

/-- The call stops with 107. Meanwhile `kalloc` has given the pages `f`, and the words
written are entries of the tables there were or words of these pages; so none lies in a
frame that a leaf maps, unless the frame itself holds a table or such a page. -/
def Caught (A : PageAlloc β) (root : Nat) (s : Space β) (c : MapCall) : Prop :=
  ∃ arg s' f w, c.exec A root s = .panic 107 arg s' ∧
    s'.given = f ++ s.given ∧ s'.written = w ++ s.written ∧
    (∀ a ∈ w, s.OnTable root a ∨ ∃ u ∈ f, ∃ i < 512, a = u + 8 * i) ∧
    ∀ q pte, s.Leaf root q pte → (∀ a ∈ frameOf q pte, ¬ s.OnTable root a) →
      (∀ a ∈ frameOf q pte, ∀ u ∈ f, ∀ i < 512, a ≠ u + 8 * i) → ∀ a ∈ w, a ∉ frameOf q pte

/-- What a call must find to be caught: no piece lies below a larger leaf, up to the first
whose place is taken, and `kalloc` has a page for every table missing above these. -/
def Watched (A : PageAlloc β) (root : Nat) (s : Space β) (c : MapCall) : Prop :=
  c.Proper ∧ ∃ N : Finset (List Nat),
    Passable (fun q => s.table root q ≠ none ∨ q ∈ N) (s.Mapped root) c.places ∧
    A.Room N.card s.pages

/-- What is written is an entry of an old table or a word of a page given meanwhile. -/
theorem Grew.written_cases {new : List (List Nat)} {L' : List Grant}
    (h : Grew A root s L new s' L') : ∃ f w, s'.given = f ++ s.given ∧
      s'.written = w ++ s.written ∧
      ∀ a ∈ w, s.OnTable root a ∨ ∃ u ∈ f, ∃ i < 512, a = u + 8 * i := by
  obtain ⟨f, hf, hnew⟩ := h.given
  obtain ⟨w, hw, hin⟩ := h.written
  refine ⟨f, w, hf, hw, fun a ha => ?_⟩
  obtain ⟨p, t, i, hp, ht, rfl⟩ := hin a ha
  obtain ⟨hi, hp'⟩ := trail_cons.mp hp
  rcases h.added p t hp' ht with ht | hn
  · exact Or.inl ⟨p, t, i, hp, ht, rfl⟩
  · obtain ⟨u, hu, htab⟩ := hnew p hn
    obtain rfl := Option.some.inj (ht.symm.trans htab)
    exact Or.inr ⟨t, hu, i, hi, rfl⟩

/-- A call that returns has met no mapped page. -/
theorem Returned.not_overlaps {new : List (List Nat)} {L' : List Grant} (hc : c.Proper)
    (h : Returned A Owns root s L c new s' L') : ¬ Overlaps root s c := by
  rintro ⟨d, hd, q, hq, hsub⟩
  obtain ⟨x, hx, hxsub, _⟩ := hc.exists_place hd
  obtain ⟨h1, h2⟩ := h.apart x hx q hq
  exact (List.suffix_or_suffix_of_suffix hsub hxsub).elim h1 h2

/-- A call that overlaps what is built ends in the panic. -/
theorem Built.caught (hA : A.Grants Owns) (h : Built Owns root s L) (hc : Watched A root s c)
    (ho : Overlaps root s c) : Caught A root s c := by
  obtain ⟨hproper, N, hpass, hroom⟩ := hc
  have hcourse := h.exec hA hproper hpass
  generalize hrun : c.exec A root s = o at hcourse
  cases hcourse with
  | placed htree hg hnew hleaf hapart =>
    have hm := h.of_placed htree hg (fun q hq => (hnew q hq).2) hleaf hapart
    exact absurd ho (hm.not_overlaps hproper)
  | blocked _ hg _ =>
    obtain ⟨f, w, hf, hw, hin⟩ := hg.written_cases
    refine ⟨_, _, f, w, hrun, hf, hw, hin, fun q pte _ htab hfresh a ha hmem => ?_⟩
    rcases hin a ha with ht | ⟨u, hu, i, hi, he⟩
    · exact htab a hmem ht
    · exact hfresh a hmem u hu i hi he
  | starved _ hg hnew hH hq hnone hk =>
    exact (hg.not_starved hroom hnew hq hH hnone hk).elim

/-- On a table that calls have built from a zeroed root, each of which found what it must,
every further such call that meets a mapped page is caught. -/
theorem caught_of_run (hA : A.Grants Owns) {s₀ : Space β} {g : List (Space β × MapCall)}
    (h₀ : Blank Owns root s₀ L) (hr : Run (step A root) s₀ g s)
    (hP : Run.Steps (Shallow root) g) (hc : Watched A root s c) (ho : Overlaps root s c) :
    Caught A root s c := by
  obtain ⟨L', h⟩ := h₀.built.onRun hA hr hP
  exact h.caught hA hc ho

/-! ## A page inside a 2 MiB leaf -/

/-- The board comes up with a zeroed root and pages to spare. -/
theorem exists_blank (ra : Nat) : ∃ root s, Blank (Granted virt virtBssEnd) root s [⟨root, 0⟩] ∧
    (buddy virt ra).Room 1000 s.pages ∧ ∀ a, s.mem a = 0 := by
  obtain ⟨u, b, hgranted, hroom⟩ := virt_first_page ra
  exact ⟨u, ⟨fun _ => 0, b, [u], []⟩, ⟨hgranted, List.mem_singleton_self _, fun _ _ => rfl⟩,
    hroom, fun _ => rfl⟩

/-- Map 2 MiB at address 0. -/
def megaCall : MapCall := ⟨true, 0, 0x80600000, 0x200000, 6⟩

/-- Map the page at address 0. -/
def pageCall : MapCall := ⟨true, 0, 0x80700000, 4096, 6⟩

/-- A call for a megapage. -/
theorem megaCall_proper : megaCall.Proper := ⟨by decide, by decide, by decide⟩

/-- It has one piece. -/
theorem megaCall_pieces : megaCall.pieces = [⟨1, 0, 0x80600000⟩] := by decide +kernel

theorem pageCall_pieces : pageCall.pieces = [⟨0, 0, 0x80700000⟩] := by decide +kernel

/-- What the first call leaves. -/
theorem megaCall_returns (ra : Nat) : ∃ (root : Nat) (s₀ s : Space State) (L : List Grant),
    Blank (Granted virt virtBssEnd) root s₀ [⟨root, 0⟩] ∧ (∀ a, s₀.mem a = 0) ∧
    Shallow root s₀ megaCall ∧ step (buddy virt ra) root s₀ megaCall = some s ∧
    Built (Granted virt virtBssEnd) root s L ∧
    s.Leaf root [0, 0] (leafPte 0x10 6 0x80600000) ∧
    ∀ a, ¬ s.OnTable root a → s.mem a = 0 := by
  obtain ⟨root, s₀, hblank, hroom, hzero⟩ := exists_blank ra
  have hA := buddy_grants ra virt_machine virt_fits
  have hfree : ∀ x ∈ megaCall.pieces, ∀ q, s₀.Mapped root q → ¬ q <:+ x.path ∧ ¬ x.path <:+ q :=
    fun x _ q hq => absurd hq (hblank.not_mapped q)
  have hown : megaCall.pieces.Pairwise fun x y => ¬ x.path <:+ y.path ∧ ¬ y.path <:+ x.path := by
    rw [megaCall_pieces]
    exact List.pairwise_singleton _ _
  have hneed : ∀ x ∈ megaCall.pieces, ∀ q, q <:+ x.path → q ≠ x.path → q ≠ [] →
      s₀.table root q ≠ none ∨ q ∈ ({[0]} : Finset (List Nat)) := by
    intro x hx q hq hne hnil
    rw [megaCall_pieces, List.mem_singleton] at hx
    subst hx
    rcases List.suffix_cons_iff.mp hq with he | hq
    · exact absurd he hne
    · rcases List.suffix_cons_iff.mp hq with he | hq
      · exact Or.inr (Finset.mem_singleton.mpr he)
      · exact absurd (List.suffix_nil.mp hq) hnil
  obtain ⟨new, s, L, hrun, hret, _⟩ := hblank.built.returns hA megaCall_proper
    (hroom.mono (by decide)) hneed hfree hown
  refine ⟨root, s₀, s, L, hblank, hzero, ⟨megaCall_proper, ?_⟩, step_eq_some.mpr hrun, hret.built,
    ?_, fun a ha => ?_⟩
  · apply passable_of_apart (fun _ _ _ _ _ _ => trivial)
    · exact fun p _ q hq => absurd hq (hblank.not_mapped q)
    · exact List.pairwise_map.mpr (hown.imp fun h => h.1)
  · refine (hret.leaf _ _).mpr (Or.inr ⟨⟨1, 0, 0x80600000⟩, ?_, rfl, rfl⟩)
    rw [megaCall_pieces]
    exact List.mem_singleton_self _
  · rw [hret.grew.frame a ha, hzero]

/-- Mapping the same 2 MiB again is caught. -/
theorem caught_of_run_virt : ∃ (root : Nat) (s : Space State),
    Overlaps root s megaCall ∧ Caught (buddy virt 0) root s megaCall := by
  obtain ⟨root, s₀, s, L, hblank, _, hsh, hstep, _, hleaf, _⟩ := megaCall_returns 0
  have hA := buddy_grants 0 virt_machine virt_fits
  have ho : Overlaps root s megaCall := ⟨0, by decide, [0, 0], ⟨_, hleaf⟩, [0], rfl⟩
  have hw : Watched (buddy virt 0) root s megaCall := by
    refine ⟨megaCall_proper, ∅, ⟨fun q hq hne => ⟨?_, fun _ => Or.inl ?_⟩, Or.inl ?_⟩, trivial⟩
    · rintro ⟨e, hq'⟩
      exact hne (hq'.eq_of_suffix hleaf hq).1
    · obtain ⟨i, p, t, he, ht, _⟩ := hleaf.exists_table
      obtain ⟨rfl, rfl⟩ := List.cons.inj he
      rcases List.suffix_cons_iff.mp hq with he | hq
      · exact absurd he hne
      · obtain ⟨u, hu⟩ := table_suffix ht hq
        exact fun hnone => absurd (hnone.symm.trans hu) (by simp)
    · exact ⟨[0, 0], ⟨_, hleaf⟩, List.suffix_rfl⟩
  exact ⟨root, s, ho, caught_of_run hA hblank (.snoc .nil hstep)
    (Run.steps_cons.mpr ⟨hsh, Run.Steps.nil⟩) hw ho⟩

/-- After that call, mapping the page at address 0 returns and writes into the frame that the
2 MiB leaf maps. -/
theorem pageCall_not_caught : ∃ (root : Nat) (s₀ s s' : Space State),
    Blank (Granted virt virtBssEnd) root s₀ [⟨root, 0⟩] ∧
    Run (step (buddy virt 0) root) s₀ [(s₀, megaCall)] s ∧ megaCall.Proper ∧ pageCall.Proper ∧
    Overlaps root s pageCall ∧ ¬ Caught (buddy virt 0) root s pageCall ∧
    pageCall.exec (buddy virt 0) root s = .done () s' ∧ s'.written = 0x80600000 :: s.written ∧
    s.Leaf root [0, 0] (leafPte 0x10 6 0x80600000) ∧
    0x80600000 ∈ frameOf [0, 0] (leafPte 0x10 6 0x80600000) := by
  obtain ⟨root, s₀, s, L, hblank, _, _, hstep, hbuilt, hleaf, hframe⟩ := megaCall_returns 0
  have hA := buddy_grants 0 virt_machine virt_fits
  have ho : Overlaps root s pageCall := ⟨0, by decide, [0, 0], ⟨_, hleaf⟩, [0], rfl⟩
  obtain ⟨i, p, t, he, ht, hcell⟩ := hleaf.exists_table
  obtain ⟨rfl, rfl⟩ := List.cons.inj he
  obtain ⟨r, hr, hlink⟩ := table_cons.mp ht
  obtain rfl := Option.some.inj hr
  have hpath : Trail 512 [0, 0] := hleaf.path
  have hroot : entryAt root (vpn 0 30) = root + 8 * 0 :=
    hbuilt.entryAt_table hA (trail_cons.mp hpath).2 rfl
  have hlv1 : entryAt t (vpn 0 21) = t + 8 * 0 := hbuilt.entryAt_table hA hpath ht
  have hv1 : s.mem (root + 8 * 0) &&& 0x1 ≠ 0 := (link_eq_some.mp hlink).1.1
  have ht1 : tableOf (s.mem (root + 8 * 0)) = t := (link_eq_some.mp hlink).2
  have hc : s.mem (t + 8 * 0) = leafPte 0x10 6 0x80600000 := hcell
  have hv2 : s.mem (t + 8 * 0) &&& 0x1 ≠ 0 := by
    rw [hc]
    decide
  have ht2 : tableOf (s.mem (t + 8 * 0)) = 0x80600000 := by
    rw [hc]
    decide
  have hzero : s.mem 0x80600000 = 0 := by
    apply hframe
    rintro ⟨p', t', i', hp', ht', he'⟩
    obtain ⟨_, hp'⟩ := trail_cons.mp hp'
    have hlow := (virt_grant_bounds hbuilt.owns (hbuilt.held p' t' hp' ht')).1
    simp only at hlow
    omega
  have hrun : pageCall.exec (buddy virt 0) root s =
      .done () (s.store 0x80600000 (leafPte 0x10 6 0x80700000)) := by
    rw [pageCall.exec_eq, pageCall_pieces]
    simp only [mapPieces, mapPiece, mapPage]
    rw [hroot, ensureTable, if_neg hv1, ht1, Outcome.bind_done, hlv1, ensureTable, if_neg hv2, ht2,
      Outcome.bind_done, show entryAt 0x80600000 (vpn 0 12) = 0x80600000 by decide, putLeaf, hzero,
      if_neg (by decide)]
    rfl
  refine ⟨root, s₀, s, _, hblank, .snoc .nil hstep, megaCall_proper,
    ⟨by decide, by decide, by decide⟩, ho, ?_, hrun, rfl, hleaf, ?_⟩
  · rintro ⟨arg, s'', f, w, hpanic, _⟩
    rw [hrun] at hpanic
    exact absurd hpanic (by simp)
  · exact ⟨by decide, by decide⟩

end RexOS.Paging
