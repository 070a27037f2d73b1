import RexOS.Kalloc.Stock

/-!
# A reserve

A routine that returns although the allocator stops short of a reserve leaves the reserve to the
routine that comes next.
-/

namespace RexOS.Kalloc

variable {β : Type} {A A' : PageAlloc β} {Owns : β → List Grant → Prop} {P : β → Prop} {b b' : β}
  {a k : Nat}

/-- Where the first service grants a block, the second one grants it too. -/
def PageAlloc.Under (A' A : PageAlloc β) : Prop := ∀ b k, (A'.kalloc b k).Under (A.kalloc b k)

open Classical in
/-- The service, stopped where it would lose `P`. -/
noncomputable def PageAlloc.guarded (A : PageAlloc β) (P : β → Prop) : PageAlloc β where
  kalloc b k := (A.kalloc b k).bind fun a b' => if P b' then .done a b' else .panic 0 0 b'
  kfree := A.kfree

namespace PageAlloc

/-- A grant of the guarded allocator is one that leaves the guard. -/
theorem guarded_eq_done :
    (A.guarded P).kalloc b k = .done a b' ↔ A.kalloc b k = .done a b' ∧ P b' := by
  rw [guarded, Outcome.bind_eq_done]
  constructor
  · rintro ⟨a', c, hrun, hif⟩
    split at hif
    · rename_i hP
      obtain ⟨rfl, rfl⟩ := Outcome.done.inj hif
      exact ⟨hrun, hP⟩
    · cases hif
  · rintro ⟨hrun, hP⟩
    exact ⟨a, b', hrun, if_pos hP⟩

/-- It answers less often. -/
theorem guarded_under (A : PageAlloc β) (P : β → Prop) : (A.guarded P).Under A :=
  fun _ _ _ _ h => (guarded_eq_done.mp h).1

/-- Its grants are grants. -/
theorem Grants.guarded (hA : A.Grants Owns) :
    (A.guarded P).Grants fun b L => Owns b L ∧ P b where
  blocks h := hA.blocks h.1
  kalloc h hrun := by
    obtain ⟨hrun, hP⟩ := guarded_eq_done.mp hrun
    obtain ⟨hne, howns⟩ := hA.kalloc h.1 hrun
    exact ⟨hne, howns, hP⟩

/-- They are aligned as before. -/
theorem Aligned.guarded (hal : A.Aligned Owns) :
    (A.guarded P).Aligned fun b L => Owns b L ∧ P b :=
  fun h hrun => hal h.1 (guarded_eq_done.mp hrun).1

/-- A stock is had on top of the reserve. -/
theorem Stock.guarded {n n' m m' : Nat} (h : A.Stock (n + n') (m + m') b) :
    (A.guarded (A.Stock n' m')).Stock n m b := by
  generalize hs : n + m = t
  induction t generalizing n m b with
  | zero =>
    apply Stock.intro
    · intro j hj
      omega
    · intro j hj
      omega
  | succ t ih =>
    apply Stock.intro
    · rintro j rfl k hk
      rw [Nat.add_right_comm] at h
      obtain ⟨a, b', hrun, h'⟩ := h.block hk
      exact ⟨a, b', guarded_eq_done.mpr ⟨hrun, h'.mono (by omega) (by omega)⟩,
        ih h' (by omega)⟩
    · rintro j rfl
      rw [Nat.add_right_comm j] at h
      obtain ⟨a, b', hrun, h'⟩ := h.page
      exact ⟨a, b', guarded_eq_done.mpr ⟨hrun, h'.mono (by omega) (by omega)⟩,
        ih h' (by omega)⟩

end PageAlloc

end RexOS.Kalloc
