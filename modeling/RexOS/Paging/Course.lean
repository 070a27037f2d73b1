import Mathlib.Data.Finset.Card
import RexOS.Paging.Places

/-!
# All pieces of a call

A call maps its pieces one after the other. `Passable` is what it must find: as long as no
piece's place is taken, none lies below a leaf. Then the call ends in one of three ways:
all pieces are mapped, the place of one is taken, or the allocator has no page left.
-/

namespace RexOS.Paging

open Bits RexOS.Kalloc Radix

variable {β : Type} {A : PageAlloc β} {Owns : β → List Grant → Prop} {root : Nat}
  {s s' : Space β} {L : List Grant}

/-- Leaves at `F` let leaves be written at the given places one by one: up to the first
place that is taken, none lies below a leaf, and the tables above are among `H`. -/
def Passable (H F : List Nat → Prop) : List (List Nat) → Prop
  | [] => True
  | p :: ps => (∀ q, q <:+ p → q ≠ p → ¬ F q ∧ (q ≠ [] → H q)) ∧
      ((∃ q, F q ∧ p <:+ q) ∨ Passable H (fun q => F q ∨ q = p) ps)

/-- Places apart from each other and from all leaves are written without a hitch. -/
theorem passable_of_apart {H F : List Nat → Prop} {ps : List (List Nat)}
    (hH : ∀ p ∈ ps, ∀ q, q <:+ p → q ≠ p → q ≠ [] → H q)
    (hF : ∀ p ∈ ps, ∀ q, F q → ¬ q <:+ p)
    (hps : ps.Pairwise fun p q => ¬ p <:+ q) : Passable H F ps := by
  induction ps generalizing F with
  | nil => exact trivial
  | cons p ps ih =>
    obtain ⟨hp, hps⟩ := List.pairwise_cons.mp hps
    refine ⟨fun q hq hne => ⟨fun hFq => hF p List.mem_cons_self q hFq hq,
      hH p List.mem_cons_self q hq hne⟩, Or.inr (ih (fun x hx => hH x (List.mem_cons_of_mem _ hx))
      (fun x hx q hq => ?_) hps)⟩
    rcases hq with hq | rfl
    · exact hF x (List.mem_cons_of_mem _ hx) q hq
    · exact hp x hx

/-- The paths of the leaves. -/
def Space.Mapped (s : Space β) (root : Nat) (p : List Nat) : Prop := ∃ e, s.Leaf root p e

/-- Every table but the root has a leaf below it. -/
def Fertile (root : Nat) (s : Space β) : Prop :=
  ∀ p t, Trail 512 p → p ≠ [] → s.table root p = some t → ∃ q, s.Mapped root q ∧ p <:+ q

/-- How a call that maps `ps`, writing `content` for each, may end. -/
inductive Course (A : PageAlloc β) (Owns : β → List Grant → Prop) (root : Nat)
    (H : List Nat → Prop) (s : Space β) (L : List Grant) (content : Piece → Nat)
    (ps : List Piece) : Outcome (Space β) Unit → Prop
  | placed {new : List (List Nat)} {s' : Space β} {L' : List Grant} :
      Tree Owns root s' L' → Grew A root s L new s' L' →
      (∀ q ∈ new, H q ∧ ∃ x ∈ ps, q <:+ x.path) →
      (∀ q f, s'.Leaf root q f ↔ s.Leaf root q f ∨ ∃ x ∈ ps, q = x.path ∧ f = content x) →
      (∀ x ∈ ps, ∀ q, s.Mapped root q → ¬ q <:+ x.path ∧ ¬ x.path <:+ q) →
      Course A Owns root H s L content ps (.done () s')
  | blocked {new : List (List Nat)} {s' : Space β} {L' : List Grant} {pre post : List Piece}
      {x : Piece} :
      ps = pre ++ x :: post → Grew A root s L new s' L' →
      (s.Taken root x.path ∨ ∃ y ∈ pre, x.path <:+ y.path) →
      Course A Owns root H s L content ps (.panic 107 x.pa s')
  | starved {o : Outcome (Space β) Unit} {new : List (List Nat)} {s' : Space β}
      {L' : List Grant} {q : List Nat} :
      (∀ w, o ≠ .done () w) → Grew A root s L new s' L' → (∀ r ∈ new, H r) → H q → Trail 512 q →
      s'.table root q = none → (∀ u b, A.kalloc s'.pages 0 ≠ .done u b) →
      Course A Owns root H s L content ps o

variable {H : List Nat → Prop} {perm : Nat}

/-- A place above a leaf is taken. -/
theorem Space.Mapped.taken {p q : List Nat} (hp : Trail 512 p) (hn : p ≠ [])
    (h : s.Mapped root q) (hpq : p <:+ q) : s.Taken root p := by
  obtain ⟨e, h⟩ := h
  rcases eq_or_ne p q with rfl | hne
  · exact Or.inl ⟨e, h⟩
  · obtain ⟨i, q', t, rfl, ht, _⟩ := h.exists_table
    rcases List.suffix_cons_iff.mp hpq with rfl | hsub
    · exact absurd rfl hne
    · obtain ⟨u, hu⟩ := table_suffix ht hsub
      have hu' : s.table root p = some u := hu
      exact Or.inr (hu' ▸ Option.some_ne_none u)

/-- What is taken after one leaf has been written was taken before or is above it. -/
theorem Space.Taken.before {new : List (List Nat)} {L' : List Grant} {p r : List Nat}
    {content : Nat} (hg : Grew A root s L new s' L')
    (hleaf : ∀ q f, s'.Leaf root q f ↔ s.Leaf root q f ∨ (q = r ∧ f = content))
    (hnew : ∀ q ∈ new, q <:+ r ∧ q ≠ r) (hp : Trail 512 p) (h : s'.Taken root p) :
    s.Taken root p ∨ p <:+ r := by
  rcases h with ⟨e, hl⟩ | hne
  · rcases (hleaf p e).mp hl with hl | ⟨rfl, _⟩
    · exact Or.inl (Or.inl ⟨e, hl⟩)
    · exact Or.inr List.suffix_rfl
  · obtain ⟨t, ht⟩ := Option.ne_none_iff_exists'.mp hne
    rcases hg.added p t hp ht with ht | hin
    · exact Or.inl (Or.inr (ht ▸ Option.some_ne_none t))
    · exact Or.inr (hnew p hin).1

/-- Where every table has a leaf below it, a taken place is above a leaf. -/
theorem Fertile.mapped_of_taken (h : Fertile root s) {p : List Nat} (hp : Trail 512 p)
    (hn : p ≠ []) (ht : s.Taken root p) : ∃ q, s.Mapped root q ∧ p <:+ q := by
  rcases ht with hl | hne
  · exact ⟨p, hl, List.suffix_rfl⟩
  · obtain ⟨t, ht⟩ := Option.ne_none_iff_exists'.mp hne
    exact h p t hp hn ht

/-- One piece. -/
theorem mapPiece_spec (user virAddr : Nat) (hA : A.Grants Owns) (h : Tree Owns root s L)
    (hperm : perm &&& 0xE ≠ 0) {x : Piece} (hl : x.level ≤ 2) (hc : s.Clear root x.path) :
    Attempt A Owns root s L x.path (leafPte user perm x.pa) x.pa
      (mapPiece A user perm root virAddr x s) := by
  obtain ⟨level, va, pa⟩ := x
  match level, hl with
  | 0, _ => exact mapPage_spec hA h hperm hc
  | 1, _ => exact mapMega_spec hA h hperm hc
  | 2, _ => exact mapGiga_spec hA h hperm va pa

/-- Pieces one after the other, each where the others leave room. -/
theorem mapPieces_spec (user virAddr : Nat) (hA : A.Grants Owns) (h : Tree Owns root s L)
    (hperm : perm &&& 0xE ≠ 0) {ps : List Piece} (hl : ∀ x ∈ ps, x.level ≤ 2)
    (hpass : Passable H (s.Mapped root) (ps.map Piece.path)) :
    Course A Owns root H s L (fun x => leafPte user perm x.pa) ps
      (mapPieces A user perm root virAddr ps s) := by
  induction ps generalizing s L with
  | nil => exact .placed h Grew.refl (by simp) (by simp) (by simp)
  | cons x ps ih =>
    obtain ⟨habove, hrest⟩ := hpass
    have hlx := hl x List.mem_cons_self
    have hclear : s.Clear root x.path := fun q hq hne e he => (habove q hq hne).1 ⟨e, he⟩
    have hne : x.path ≠ [] := x.path_ne_nil hlx
    have hnewH : ∀ {new : List (List Nat)} {s' : Space β} {L' : List Grant},
        Grew A root s L new s' L' → (∀ q ∈ new, q <:+ x.path ∧ q ≠ x.path) → ∀ q ∈ new, H q := by
      intro new s' L' hg hnew q hq
      obtain ⟨hsub, hqx⟩ := hnew q hq
      refine (habove q hsub hqx).2 ?_
      rintro rfl
      exact absurd (hg.fresh [] hq).2.1 (by simp)
    have hattempt := mapPiece_spec user virAddr hA h hperm hlx hclear
    rw [mapPieces]
    generalize mapPiece A user perm root virAddr x s = o at hattempt ⊢
    cases hattempt with
    | placed htree hg hnew hnt hleaf =>
      rename_i new s₁ L₁
      have hfree : ¬ ∃ q, s.Mapped root q ∧ x.path <:+ q := by
        rintro ⟨q, hq, hsub⟩
        exact hnt (hq.taken x.path_mem hne hsub)
      have hmapped : s₁.Mapped root = fun q => s.Mapped root q ∨ q = x.path := by
        funext q
        simp only [Space.Mapped, hleaf, exists_or, exists_and_left, exists_eq, and_true]
      have hcourse := ih htree (fun y hy => hl y (List.mem_cons_of_mem _ hy))
        (hmapped ▸ hrest.resolve_left hfree)
      rw [Outcome.bind_done]
      generalize mapPieces A user perm root virAddr ps s₁ = o at hcourse ⊢
      cases hcourse with
      | placed htree' hg' hnew' hleaf' hapart =>
        refine .placed htree' (hg.trans hg') (fun q hq => ?_) (fun q f => ?_) fun y hy q hq => ?_
        · rcases List.mem_append.mp hq with hq | hq
          · obtain ⟨hH, y, hy, hsub⟩ := hnew' q hq
            exact ⟨hH, y, List.mem_cons_of_mem _ hy, hsub⟩
          · exact ⟨hnewH hg hnew q hq, x, List.mem_cons_self, (hnew q hq).1⟩
        · rw [hleaf' q f, hleaf q f, List.exists_mem_cons_iff, or_assoc]
        · rcases List.mem_cons.mp hy with rfl | hy
          · have hup : ¬ y.path <:+ q := fun hsub => hfree ⟨q, hq, hsub⟩
            refine ⟨fun hsub => ?_, hup⟩
            by_cases he : q = y.path
            · exact hup (he ▸ List.suffix_rfl)
            · exact (habove q hsub he).1 hq
          · apply hapart y hy q
            rw [hmapped]
            exact Or.inl hq
      | blocked he hg' ht =>
        rename_i pre post y
        subst he
        refine .blocked (show x :: (pre ++ y :: post) = (x :: pre) ++ y :: post from rfl)
          (hg.trans hg') ?_
        rcases ht with ht | ⟨z, hz, hsub⟩
        · exact (ht.before hg hleaf hnew y.path_mem).imp id fun hsub =>
            ⟨x, List.mem_cons_self, hsub⟩
        · exact Or.inr ⟨z, List.mem_cons_of_mem _ hz, hsub⟩
      | starved hno hg' hnew' hH hq hnone hk =>
        refine .starved hno (hg.trans hg') (fun r hr => ?_) hH hq hnone hk
        exact (List.mem_append.mp hr).elim (hnew' r) (hnewH hg hnew r)
    | blocked hg ht => exact .blocked (List.nil_append (x :: ps)).symm hg (Or.inl ht)
    | starved hno hg hnew hsub hqx hq0 hnone hk =>
      refine .starved (fun w hw => ?_) hg (hnewH hg hnew) ((habove _ hsub hqx).2 hq0)
        (x.path_mem.suffix hsub) hnone hk
      obtain ⟨_, w', hw', _⟩ := Outcome.bind_eq_done.mp hw
      exact hno w' hw'

end RexOS.Paging
