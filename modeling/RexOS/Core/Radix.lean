import Mathlib.Data.List.Infix

/-!
# Trees of tables in a store of cells

A table has numbered cells, and a cell may link to a further table. Tables and cells are
named by the indices that lead to them from the root, the index taken last first, so that
what lies below a table or a cell has its path as a suffix. `Shape` says that the tables
form a tree: no table is reached in two ways, and none lies too deep. A cell that is valid
and links nowhere is a leaf. The edits a tree knows, writing a cell that is no link and
hanging an empty table below one, are stated on the cells of the tree alone, so any store
that agrees on them may use them.
-/

namespace Radix

variable {ι ε : Type*} {link : ε → Option ι} {valid : ε → Prop} {cell cell' : ι → Nat → ε}
  {root : ι} {n d : Nat}

/-- All indices are below `n`. -/
def Trail (n : Nat) (p : List Nat) : Prop := ∀ i ∈ p, i < n

variable (link cell root)

/-- The table a path leads to. -/
def table : List Nat → Option ι
  | [] => some root
  | i :: p => (table p).bind fun t => link (cell t i)

/-- The cell a path leads to. -/
def entry : List Nat → Option ε
  | [] => none
  | i :: p => (table link cell root p).map fun t => cell t i

/-- The tables form a tree of `d` levels. -/
structure Shape (n d : Nat) : Prop where
  inj : ∀ p q t, Trail n p → Trail n q → table link cell root p = some t →
    table link cell root q = some t → p = q
  depth : ∀ p t, Trail n p → table link cell root p = some t → p.length < d

/-- The cell at `p` is a leaf with content `e`. -/
structure Leaf (valid : ε → Prop) (n : Nat) (p : List Nat) (e : ε) : Prop where
  path : Trail n p
  entry : Radix.entry link cell root p = some e
  valid : valid e
  link : link e = none

variable {link cell root}
variable {p q r : List Nat} {i : Nat} {t u : ι} {e : ε}

theorem trail_nil : Trail n [] := fun _ h => absurd h List.not_mem_nil

/-- A trail is made of indices. -/
theorem trail_cons : Trail n (i :: p) ↔ i < n ∧ Trail n p := List.forall_mem_cons

/-- The way to a table above is a trail. -/
theorem Trail.suffix (h : Trail n q) (hp : p <:+ q) : Trail n p := fun i hi => h i (hp.subset hi)

@[simp] theorem table_nil : table link cell root [] = some root := rfl

/-- A table below another one is linked from it. -/
theorem table_cons : table link cell root (i :: p) = some u ↔
    ∃ t, table link cell root p = some t ∧ link (cell t i) = some u := by
  simp [table, Option.bind_eq_some_iff]

/-- An entry is in a table. -/
theorem entry_cons : entry link cell root (i :: p) = some e ↔
    ∃ t, table link cell root p = some t ∧ cell t i = e := by
  simp [entry]

/-- Every table on the way to a table is there. -/
theorem table_suffix (h : table link cell root q = some u) (hp : p <:+ q) :
    ∃ t, table link cell root p = some t := by
  induction q generalizing u with
  | nil => exact ⟨u, List.suffix_nil.mp hp ▸ h⟩
  | cons j q ih =>
    rcases List.suffix_cons_iff.mp hp with rfl | hp
    · exact ⟨u, h⟩
    · obtain ⟨t, ht, _⟩ := table_cons.mp h
      exact ih ht hp

/-- A table is not below a cell that links nowhere. -/
theorem table_eq_none (ht : table link cell root p = some t) (hl : link (cell t i) = none)
    (hq : (i :: p) <:+ q) : table link cell root q = none := by
  by_contra h
  obtain ⟨u, hu⟩ := Option.ne_none_iff_exists'.mp h
  obtain ⟨v, hv⟩ := table_suffix hu hq
  obtain ⟨t', ht', hl'⟩ := table_cons.mp hv
  obtain rfl := Option.some.inj (ht.symm.trans ht')
  simp [hl] at hl'

namespace Leaf

/-- A leaf is in a table. -/
theorem exists_table (h : Leaf link cell root valid n p e) :
    ∃ i q t, p = i :: q ∧ table link cell root q = some t ∧ cell t i = e := by
  cases p with
  | nil => exact absurd h.entry (by simp [Radix.entry])
  | cons i q =>
    obtain ⟨t, ht, he⟩ := entry_cons.mp h.entry
    exact ⟨i, q, t, rfl, ht, he⟩

/-- No leaf lies below another. -/
theorem eq_of_suffix {f : ε} (h : Leaf link cell root valid n p e)
    (h' : Leaf link cell root valid n q f) (hpq : p <:+ q) : p = q ∧ e = f := by
  obtain ⟨i, p', t, rfl, ht, rfl⟩ := h.exists_table
  obtain ⟨j, q', t', rfl, ht', rfl⟩ := h'.exists_table
  rcases List.suffix_cons_iff.mp hpq with heq | hlt
  · obtain ⟨rfl, rfl⟩ := List.cons.inj heq
    obtain rfl := Option.some.inj (ht.symm.trans ht')
    exact ⟨rfl, rfl⟩
  · rw [table_eq_none ht h.link hlt] at ht'
    exact absurd ht' (by simp)

/-- A place lies below one leaf at most. -/
theorem unique {f : ε} (h : Leaf link cell root valid n p e)
    (h' : Leaf link cell root valid n q f) (hp : p <:+ r) (hq : q <:+ r) : p = q ∧ e = f := by
  rcases List.suffix_or_suffix_of_suffix hp hq with hpq | hqp
  · exact h.eq_of_suffix h' hpq
  · exact (h'.eq_of_suffix h hqp).imp Eq.symm Eq.symm

end Leaf

/-! ## Edits -/

/-- The tables that do not lie below an edited cell stay. -/
theorem table_congr (hc : ∀ q t' j, Trail n (j :: q) → table link cell root q = some t' →
      j :: q ≠ i :: p → link (cell' t' j) = link (cell t' j)) (hq : Trail n q)
    (hn : ¬ (i :: p) <:+ q) : table link cell' root q = table link cell root q := by
  induction q with
  | nil => rfl
  | cons j q ih =>
    have hrest := ih (trail_cons.mp hq).2 fun h => hn (h.trans (List.suffix_cons j q))
    rw [table, table, hrest]
    cases hu : table link cell root q with
    | none => rfl
    | some u => exact hc q u j hq hu fun h => hn (h ▸ List.suffix_rfl)

section Edit

variable (hp : Trail n (i :: p)) (ht : table link cell root p = some t)
  (hc : ∀ q t' j, Trail n (j :: q) → table link cell root q = some t' →
    j :: q ≠ i :: p → cell' t' j = cell t' j)
include hp ht hc

/-- The table that holds an edited cell stays. -/
theorem table_edited : table link cell' root p = some t := by
  rw [table_congr (fun q t' j hq ht' hne => congrArg link (hc q t' j hq ht' hne))
    (trail_cons.mp hp).2 fun h => absurd h.length_le (by simp)]
  exact ht

/-- Writing a cell that links nowhere, before and after. -/
theorem table_write (h0 : link (cell t i) = none) (h1 : link (cell' t i) = none) (hq : Trail n q) :
    table link cell' root q = table link cell root q := by
  by_cases hn : (i :: p) <:+ q
  · rw [table_eq_none ht h0 hn, table_eq_none (table_edited hp ht hc) h1 hn]
  · exact table_congr (fun q t' j hq ht' hne => congrArg link (hc q t' j hq ht' hne)) hq hn

/-- The shape after writing such a cell. -/
theorem Shape.write (hs : Shape link cell root n d) (h0 : link (cell t i) = none)
    (h1 : link (cell' t i) = none) :
    Shape link cell' root n d := by
  have htab := fun {q} => table_write (q := q) hp ht hc h0 h1
  refine ⟨fun q r u hq hr hqu hru => ?_, fun q u hq hqu => ?_⟩
  · rw [htab hq] at hqu
    rw [htab hr] at hru
    exact hs.inj q r u hq hr hqu hru
  · rw [htab hq] at hqu
    exact hs.depth q u hq hqu

/-- The leaves after writing such a cell. -/
theorem leaf_write (h0 : link (cell t i) = none) (h1 : link (cell' t i) = none) {f : ε} :
    Leaf link cell' root valid n q f ↔ (Leaf link cell root valid n q f ∧ q ≠ i :: p) ∨
      (q = i :: p ∧ f = cell' t i ∧ valid f) := by
  have htab := fun {q} => table_write (q := q) hp ht hc h0 h1
  have hentry : ∀ q, Trail n q → q ≠ i :: p →
      entry link cell' root q = entry link cell root q := by
    intro q hq hne
    cases q with
    | nil => rfl
    | cons j q =>
      rw [entry, entry, htab (trail_cons.mp hq).2]
      cases hu : table link cell root q with
      | none => rfl
      | some u => exact congrArg some (hc q u j hq hu hne)
  have hself : entry link cell' root (i :: p) = some (cell' t i) := by
    rw [entry, htab (trail_cons.mp hp).2, ht]
    rfl
  constructor
  · intro h
    by_cases hne : q = i :: p
    · subst hne
      obtain rfl := Option.some.inj (hself.symm.trans h.entry)
      exact Or.inr ⟨rfl, rfl, h.valid⟩
    · exact Or.inl ⟨⟨h.path, hentry q h.path hne ▸ h.entry, h.valid, h.link⟩, hne⟩
  · rintro (⟨h, hne⟩ | ⟨rfl, rfl, hv⟩)
    · exact ⟨h.path, (hentry q h.path hne).symm ▸ h.entry, h.valid, h.link⟩
    · exact ⟨hp, hself, hv, h1⟩

section Hang

variable (h0 : link (cell t i) = none) (h1 : link (cell' t i) = some u)
  (hempty : ∀ j < n, link (cell' u j) = none)
include h0 h1 hempty

/-- Hanging an empty table below a cell adds that table. -/
theorem table_hang (hq : Trail n q) : table link cell' root q =
    if q = i :: p then some u else table link cell root q := by
  have hu : table link cell' root (i :: p) = some u := table_cons.mpr ⟨t, table_edited hp ht hc, h1⟩
  by_cases hn : (i :: p) <:+ q
  · by_cases hqe : q = i :: p
    · rw [if_pos hqe, hqe, hu]
    · rw [if_neg hqe, table_eq_none ht h0 hn]
      -- the path goes on below the new table, which links nowhere
      obtain ⟨l, rfl⟩ := hn
      have hl : l ≠ [] := fun h => hqe (by simp [h])
      have hlast : l.dropLast ++ [l.getLast hl] = l := List.dropLast_append_getLast hl
      have hlt : l.getLast hl < n := hq _ (List.mem_append_left _ (List.getLast_mem hl))
      refine table_eq_none (i := l.getLast hl) hu (hempty _ hlt) ⟨l.dropLast, ?_⟩
      calc l.dropLast ++ (l.getLast hl :: i :: p)
          = (l.dropLast ++ [l.getLast hl]) ++ (i :: p) := List.append_cons ..
        _ = l ++ (i :: p) := by rw [hlast]
  · have hne : q ≠ i :: p := fun h => hn (h ▸ List.suffix_rfl)
    rw [if_neg hne]
    exact table_congr (fun q t' j hq ht' hne => congrArg link (hc q t' j hq ht' hne)) hq hn

/-- The shape after hanging a fresh table. -/
theorem Shape.hang (hs : Shape link cell root n d)
    (hfresh : ∀ q, Trail n q → table link cell root q ≠ some u)
    (hd : (i :: p).length < d) : Shape link cell' root n d := by
  have htab := fun {q} => table_hang (q := q) hp ht hc h0 h1 hempty
  refine ⟨fun q r v hq hr hqv hrv => ?_, fun q v hq hqv => ?_⟩
  · rw [htab hq] at hqv
    rw [htab hr] at hrv
    by_cases hqe : q = i :: p <;> by_cases hre : r = i :: p
    · rw [hqe, hre]
    · rw [if_pos hqe] at hqv
      rw [if_neg hre, ← hqv] at hrv
      exact absurd hrv (hfresh r hr)
    · rw [if_pos hre] at hrv
      rw [if_neg hqe, ← hrv] at hqv
      exact absurd hqv (hfresh q hq)
    · rw [if_neg hqe] at hqv
      rw [if_neg hre] at hrv
      exact hs.inj q r v hq hr hqv hrv
  · rw [htab hq] at hqv
    by_cases hqe : q = i :: p
    · exact hqe ▸ hd
    · rw [if_neg hqe] at hqv
      exact hs.depth q v hq hqv

/-- Hanging an empty table below an invalid cell changes no leaf. -/
theorem leaf_hang {f : ε} (hv : ¬ valid (cell t i)) (hnew : ∀ j < n, ¬ valid (cell' u j)) :
    Leaf link cell' root valid n q f ↔ Leaf link cell root valid n q f := by
  have htab := fun {q} => table_hang (q := q) hp ht hc h0 h1 hempty
  constructor
  · intro h
    obtain ⟨j, q, v, rfl, hqv, rfl⟩ := h.exists_table
    obtain ⟨hj, hq⟩ := trail_cons.mp h.path
    rw [htab hq] at hqv
    by_cases hqe : q = i :: p
    · rw [if_pos hqe] at hqv
      obtain rfl := Option.some.inj hqv
      exact absurd h.valid (hnew j hj)
    · rw [if_neg hqe] at hqv
      have hne : j :: q ≠ i :: p := by
        intro he
        obtain ⟨rfl, rfl⟩ := List.cons.inj he
        obtain rfl := Option.some.inj (ht.symm.trans hqv)
        exact absurd h.link (by simp [h1])
      have hcell := hc q v j h.path hqv hne
      exact ⟨h.path, entry_cons.mpr ⟨v, hqv, hcell.symm⟩, h.valid, h.link⟩
  · intro h
    obtain ⟨j, q, v, rfl, hqv, rfl⟩ := h.exists_table
    have hq := (trail_cons.mp h.path).2
    have hne : j :: q ≠ i :: p := by
      intro he
      obtain ⟨rfl, rfl⟩ := List.cons.inj he
      obtain rfl := Option.some.inj (ht.symm.trans hqv)
      exact hv h.valid
    have hqe : q ≠ i :: p := by
      rintro rfl
      rw [table_eq_none ht h0 List.suffix_rfl] at hqv
      exact absurd hqv (by simp)
    have hqv' : table link cell' root q = some v := by rw [htab hq, if_neg hqe, hqv]
    exact ⟨h.path, entry_cons.mpr ⟨v, hqv', hc q v j h.path hqv hne⟩, h.valid, h.link⟩

end Hang

end Edit

/-! ## The upper levels alone

What lies `d` levels deep or deeper may be anything, also what looks like a link. -/

/-- Tables above that depth depend on the cells above it. -/
theorem table_agree (hc : ∀ q t' j, q.length < d → Trail n (j :: q) →
      table link cell root q = some t' → link (cell' t' j) = link (cell t' j)) (hq : Trail n q)
    (hd : q.length ≤ d) : table link cell' root q = table link cell root q := by
  induction q with
  | nil => rfl
  | cons j q ih =>
    rw [table, table, ih (trail_cons.mp hq).2 (Nat.le_of_succ_le hd)]
    cases hu : table link cell root q with
    | none => rfl
    | some u => exact hc q u j hd hq hu

/-- Hanging an empty table there adds that table. -/
theorem table_hang_upper (ht : table link cell root p = some t)
    (hc : ∀ q t' j, q.length < d → Trail n (j :: q) → table link cell root q = some t' →
      j :: q ≠ i :: p → cell' t' j = cell t' j)
    (h0 : link (cell t i) = none) (h1 : link (cell' t i) = some u)
    (hempty : ∀ j < n, link (cell' u j) = none) (hq : Trail n q) (hd : q.length ≤ d) :
    table link cell' root q = if q = i :: p then some u else table link cell root q := by
  induction q with
  | nil => rw [if_neg (List.cons_ne_nil i p).symm]; rfl
  | cons j q ih =>
    obtain ⟨hj, hq'⟩ := trail_cons.mp hq
    rw [table, table, ih hq' (Nat.le_of_succ_le hd)]
    by_cases hqe : q = i :: p
    · -- below the new table there is nothing yet
      subst hqe
      have hnone : table link cell root (i :: p) = none := table_eq_none ht h0 List.suffix_rfl
      have hne : j :: i :: p ≠ i :: p := List.cons_ne_self j (i :: p)
      rw [if_pos rfl, if_neg hne, hnone]
      exact hempty j hj
    · rw [if_neg hqe]
      by_cases hjq : j :: q = i :: p
      · obtain ⟨rfl, rfl⟩ := List.cons.inj hjq
        rw [if_pos rfl, ht]
        exact h1
      · rw [if_neg hjq]
        cases hw : table link cell root q with
        | none => rfl
        | some w => exact congrArg link (hc q w j hd hq hw hjq)

end Radix
