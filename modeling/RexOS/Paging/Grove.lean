import RexOS.Paging.Walkers

/-!
# Tables in pages of their own

Tables of several roots in one memory, whose entries may map pages or larger frames. The entries
of the last tables may then be anything: where no larger leaf lies above an address, what a
walker or the hardware gets for it is decided by the one word `pteAt` of its page. `Grove` is
kept by mapping a page, which changes what the hardware gets at that page alone.
-/

namespace RexOS.Paging

open Bits RexOS.Kalloc Radix

variable {β : Type} {A : PageAlloc β} {Owns : β → List Grant → Prop} {roots : List Nat}
  {s s' s'' : Space β} {L : List Grant} {r r' : Nat} {p q : List Nat} {t u i j : Nat}

/-- The tables of the roots are pages of their own down to the last level, and what links to
them has no bit but V. -/
structure Grove (Owns : β → List Grant → Prop) (roots : List Nat) (s : Space β)
    (L : List Grant) : Prop where
  owns : Owns s.pages L
  held : ∀ r ∈ roots, ∀ p t, p.length ≤ 2 → Trail 512 p → s.table r p = some t → ⟨t, 0⟩ ∈ L
  inj : ∀ r ∈ roots, ∀ r' ∈ roots, ∀ p q t, p.length ≤ 2 → q.length ≤ 2 → Trail 512 p →
    Trail 512 q → s.table r p = some t → s.table r' q = some t → r = r' ∧ p = q
  links : ∀ r ∈ roots, ∀ p t i u, p.length < 2 → Trail 512 (i :: p) → s.table r p = some t →
    link (cell s.mem t i) = some u → cell s.mem t i = linkPte u

/-- The valid entry of the page of an address. -/
def Space.pteAt (s : Space β) (root va : Nat) : Option Nat :=
  (Radix.entry link (cell s.mem) root (indices va)).filter fun e => decide (Valid e)

/-- The entry of the last level for an address. -/
theorem Space.pteAt_eq_some {va e : Nat} : s.pteAt r va = some e ↔
    ∃ t, s.table r [vpn va 21, vpn va 30] = some t ∧ cell s.mem t (vpn va 12) = e ∧ Valid e := by
  unfold Space.pteAt indices
  rw [Option.filter_eq_some_iff, decide_eq_true_iff, entry_cons]
  constructor
  · rintro ⟨⟨t, ht, he⟩, hv⟩
    exact ⟨t, ht, he, hv⟩
  · rintro ⟨t, ht, he, hv⟩
    exact ⟨⟨t, ht, he⟩, hv⟩

/-- It depends on the indices only. -/
theorem Space.pteAt_congr {a b : Nat} (h : indices a = indices b) : s.pteAt r a = s.pteAt r b := by
  rw [Space.pteAt, h, Space.pteAt]

/-- What the hardware makes of the entry of a page. -/
def pageHit (va : Nat) (e : Nat) : Option Hit :=
  if (e.testBit 2 = true → e.testBit 1 = true) ∧ e < 2 ^ 54 ∧
      (e.testBit 1 = true ∨ e.testBit 3 = true) then
    some ⟨e / 1024 * 4096 + va % 4096, e % 1024⟩
  else none

/-- An entry that is accepted gives frame, offset and flags. -/
theorem pageHit_eq_some {va e : Nat} {hit : Hit} (hv : Valid e) : pageHit va e = some hit ↔
    Accepted 0 e ∧ hit = ⟨e / 1024 * 4096 + va % 4096, e % 1024⟩ := by
  have h0 : e.testBit 0 = true := by
    rw [valid_iff] at hv
    simpa [Nat.testBit_zero] using hv
  unfold pageHit
  split
  · rename_i hc
    obtain ⟨hw, hlt, hl⟩ := hc
    rw [Option.some_inj, eq_comm]
    exact (and_iff_right ⟨h0, hw, hlt, hl, Nat.mod_one _⟩).symm
  · rename_i hc
    refine iff_of_false (by simp) fun h => hc ?_
    exact ⟨h.1.writable, h.1.small, h.1.leaf⟩

namespace Grove

/-- The tables of fewer roots. -/
theorem mono {roots' : List Nat} (h : Grove Owns roots s L) (hsub : roots' ⊆ roots) :
    Grove Owns roots' s L where
  owns := h.owns
  held r hr := h.held r (hsub hr)
  inj r hr r' hr' := h.inj r (hsub hr) r' (hsub hr')
  links r hr := h.links r (hsub hr)

section Read

variable (hA : A.Grants Owns) (h : Grove Owns roots s L)
include hA h

/-- A table is a page. -/
theorem page (hr : r ∈ roots) (hd : p.length ≤ 2) (hp : Trail 512 p) (ht : s.table r p = some t) :
    4096 ∣ t ∧ 0 < t ∧ t + 4096 ≤ 2 ^ 64 :=
  (hA.blocks h.owns).single_page (h.held r hr p t hd hp ht)

/-- Its entries are its words. -/
theorem entryAt_table (hr : r ∈ roots) (hd : p.length ≤ 2) (hp : Trail 512 (i :: p))
    (ht : s.table r p = some t) : entryAt t i = t + 8 * i := by
  obtain ⟨hi, hp⟩ := trail_cons.mp hp
  obtain ⟨hdvd, _, hlt⟩ := h.page hA hr hd hp ht
  exact entryAt_eq hdvd (by omega) hi

/-- Two different entries are two different words. -/
theorem slot_inj (hr : r ∈ roots) (hr' : r' ∈ roots) (hd : p.length ≤ 2) (hd' : q.length ≤ 2)
    (hp : Trail 512 (i :: p)) (hq : Trail 512 (j :: q)) (ht : s.table r p = some t)
    (hu : s.table r' q = some u) (he : t + 8 * i = u + 8 * j) : r = r' ∧ i :: p = j :: q := by
  obtain ⟨hi, hp'⟩ := trail_cons.mp hp
  obtain ⟨hj, hq'⟩ := trail_cons.mp hq
  have h1 := (h.page hA hr hd hp' ht).1
  have h2 := (h.page hA hr' hd' hq' hu).1
  have htu : t = u := by omega
  have hij : i = j := by omega
  rw [← htu] at hu
  obtain ⟨rfl, rfl⟩ := h.inj r hr r' hr' p q t hd hd' hp' hq' ht hu
  exact ⟨rfl, congrArg (· :: p) hij⟩

/-- One step of a walker, where the entry is no leaf. -/
theorem next (hr : r ∈ roots) (hd : p.length < 2) (hp : Trail 512 (i :: p))
    (ht : s.table r p = some t) (hn : ¬ s.Mapped r (i :: p)) :
    (s.mem (entryAt t i) &&& 0x1 = 0 ∧ s.table r (i :: p) = none) ∨
    (s.mem (entryAt t i) &&& 0x1 ≠ 0 ∧
      s.table r (i :: p) = some (tableOf (s.mem (entryAt t i)))) := by
  have hcell : s.mem (entryAt t i) = cell s.mem t i := by
    rw [h.entryAt_table hA hr hd.le hp ht]
    rfl
  rw [hcell]
  cases hl : link (cell s.mem t i) with
  | none =>
    left
    refine ⟨not_not.mp fun hv => hn ⟨_, hp, entry_cons.mpr ⟨t, ht, rfl⟩, hv, hl⟩, ?_⟩
    exact table_eq_none ht hl List.suffix_rfl
  | some u =>
    obtain ⟨⟨hv, -⟩, htable⟩ := link_eq_some.mp hl
    exact Or.inr ⟨hv, table_cons.mpr ⟨t, ht, htable ▸ hl⟩⟩

/-- The walkers come to the entry of the page. -/
theorem leafSlot_eq {satp va : Nat} (hr : r ∈ roots) (hsatp : satpTable satp = r)
    (hsmall : Small r s va) :
    (s.pteAt r va = none ∧ leafSlot s.mem satp va = none) ∨
    ∃ t, s.table r [vpn va 21, vpn va 30] = some t ∧
      leafSlot s.mem satp va = some (t + 8 * vpn va 12) ∧
      s.pteAt r va = some (cell s.mem t (vpn va 12)) := by
  have hp3 := trail_indices va
  have hp2 : Trail 512 [vpn va 21, vpn va 30] := (trail_cons.mp hp3).2
  have hp1 : Trail 512 [vpn va 30] := (trail_cons.mp hp2).2
  have hn1 : ¬ s.Mapped r [vpn va 30] := fun hm =>
    absurd (hsmall _ ⟨[vpn va 12, vpn va 21], rfl⟩ hm) (by simp [indices])
  have hn2 : ¬ s.Mapped r [vpn va 21, vpn va 30] := fun hm =>
    absurd (hsmall _ ⟨[vpn va 12], rfl⟩ hm) (by simp [indices])
  have hnone : s.table r [vpn va 21, vpn va 30] = none → s.pteAt r va = none := by
    intro hn
    cases he : s.pteAt r va with
    | none => rfl
    | some e =>
      obtain ⟨t, ht, _⟩ := Space.pteAt_eq_some.mp he
      exact absurd (hn.symm.trans ht) (by simp)
  unfold leafSlot
  rw [hsatp]
  rcases h.next hA hr (by simp) hp1 rfl hn1 with ⟨h0, hn⟩ | ⟨h0, ht1⟩
  · left
    rw [if_pos h0]
    refine ⟨hnone ?_, rfl⟩
    show (s.table r [vpn va 30]).bind _ = none
    rw [hn]
    rfl
  · rw [if_neg h0]
    rcases h.next hA hr (by simp) hp2 ht1 hn2 with ⟨h0', hn⟩ | ⟨h0', ht2⟩
    · left
      rw [if_pos h0']
      exact ⟨hnone hn, rfl⟩
    · rw [if_neg h0']
      generalize tableOf (s.mem (entryAt (tableOf (s.mem (entryAt r (vpn va 30)))) (vpn va 21))) = t
        at ht2
      rw [h.entryAt_table hA hr le_rfl hp3 ht2]
      by_cases hv : Valid (cell s.mem t (vpn va 12))
      · exact Or.inr ⟨t, ht2, if_neg hv, Space.pteAt_eq_some.mpr ⟨t, ht2, rfl, hv⟩⟩
      · left
        refine ⟨?_, if_pos (not_not.mp hv)⟩
        cases he : s.pteAt r va with
        | none => rfl
        | some e =>
          obtain ⟨t', ht', rfl, hv'⟩ := Space.pteAt_eq_some.mp he
          obtain rfl := Option.some.inj (ht2.symm.trans ht')
          exact absurd hv' hv

/-- What `uvm_translate` returns. -/
theorem uvmTranslate_pteAt {satp va : Nat} (hr : r ∈ roots) (hsatp : satpTable satp = r)
    (hsmall : Small r s va) :
    uvmTranslate s.mem satp va =
      match s.pteAt r va with
      | none => 0
      | some e => tableOf e ||| (va &&& 0xFFF) := by
  rw [uvmTranslate_eq]
  rcases h.leafSlot_eq hA hr hsatp hsmall with ⟨h1, h2⟩ | ⟨t, _, h2, h1⟩
  · rw [h1, h2]
  · rw [h1, h2]
    rfl

end Read

/-! ## The hardware -/

section Walk

variable (hA : A.Grants Owns) (h : Grove Owns roots s L) (hL : Low L) (hr : r ∈ roots)
include hA h hL hr

/-- An entry that links leads the walk on. -/
theorem sv39Level_next {va level : Nat} (hl : level + 1 ≤ 2)
    (ht : s.table r ((indices va).drop (level + 2)) = some t)
    (hu : link (cell s.mem t (index va (level + 1))) = some u) :
    s.table r ((indices va).drop (level + 1)) = some u ∧
      sv39Level s.mem va (level + 1) t = sv39Level s.mem va level u := by
  have hdrop := drop_indices va (level + 1) hl
  have hp := (trail_indices va).suffix (List.drop_suffix (level + 1) _)
  have hlen : ((indices va).drop (level + 1 + 1)).length = 3 - (level + 2) := List.length_drop
  rw [hdrop] at hp ⊢
  have hu' : s.table r (index va (level + 1) :: (indices va).drop (level + 2)) = some u :=
    table_cons.mpr ⟨t, ht, hu⟩
  have hd : (index va (level + 1) :: (indices va).drop (level + 2)).length ≤ 2 := by
    rw [List.length_cons, hlen]
    omega
  have hlink := h.links r hr _ t _ u (by omega) hp ht hu
  refine ⟨hu', sv39Level_link (h.page hA hr hd hp hu').1 ?_ hlink⟩
  exact hL _ (h.held r hr _ u hd hp hu')

/-- The walk comes through the tables above the indices of its address. -/
theorem sv39Level_table {va level : Nat} (hl : level ≤ 2)
    (ht : s.table r ((indices va).drop (level + 1)) = some t) :
    sv39Level s.mem va 2 r = sv39Level s.mem va level t := by
  obtain ⟨k, hk⟩ := Nat.exists_eq_add_of_le hl
  induction k generalizing level t with
  | zero =>
    obtain rfl : level = 2 := by omega
    rw [Option.some.inj ht]
  | succ k ih =>
    have hstep := ht
    rw [drop_indices va (level + 1) (by omega)] at hstep
    obtain ⟨t', ht', hu⟩ := table_cons.mp hstep
    rw [ih (by omega) ht' (by omega)]
    exact (h.sv39Level_next hA hL hr (by omega) ht' hu).2

/-- Below no larger leaf the walk is decided by the entry of the page. -/
theorem sv39_eq {va : Nat} (hsmall : Small r s va) : sv39 s.mem r va =
    if Canonical va then (s.pteAt r va).bind (pageHit va) else none := by
  have hindex : indices va = index va 0 :: (indices va).drop 1 := drop_indices va 0 (by decide)
  have hpath : [vpn va 21, vpn va 30] = (indices va).drop 1 := rfl
  have hvpn : vpn va 12 = index va 0 := (List.cons.inj hindex).1
  rw [sv39]
  split
  · -- from one table to the next, or the walk ends
    have hstep : ∀ l t, l + 1 ≤ 2 → s.table r ((indices va).drop (l + 2)) = some t →
        (s.table r ((indices va).drop (l + 1)) = none ∧ sv39Level s.mem va (l + 1) t = none) ∨
        ∃ u, s.table r ((indices va).drop (l + 1)) = some u ∧
          sv39Level s.mem va (l + 1) t = sv39Level s.mem va l u := by
      intro l t hl ht
      cases hu : link (cell s.mem t (index va (l + 1))) with
      | some u => exact Or.inr ⟨u, h.sv39Level_next hA hL hr hl ht hu⟩
      | none =>
        have hdrop := drop_indices va (l + 1) hl
        have hsub := List.drop_suffix (l + 1) (indices va)
        have hp := (trail_indices va).suffix hsub
        rw [hdrop] at hp hsub ⊢
        refine Or.inl ⟨table_eq_none ht hu List.suffix_rfl, sv39Level_invalid fun hv => ?_⟩
        have heq := hsmall _ hsub ⟨_, hp, entry_cons.mpr ⟨t, ht, rfl⟩, hv, hu⟩
        rw [← hdrop] at heq
        have hlen := congrArg List.length heq
        rw [List.length_drop, show (indices va).length = 3 from rfl] at hlen
        omega
    have hnone : s.table r ((indices va).drop 1) = none → s.pteAt r va = none := by
      intro hn
      cases he : s.pteAt r va with
      | none => rfl
      | some e =>
        obtain ⟨t, ht, _⟩ := Space.pteAt_eq_some.mp he
        rw [hpath] at ht
        exact absurd (hn.symm.trans ht) (by simp)
    rcases hstep 1 r (by decide) rfl with ⟨hn, hw⟩ | ⟨t₁, ht₁, hw⟩
    · have hn' : s.table r ((indices va).drop 1) = none := by
        rw [drop_indices va 1 (by decide)]
        show (s.table r ((indices va).drop 2)).bind _ = none
        rw [hn]
        rfl
      rw [hw, hnone hn']
      rfl
    · rw [hw]
      rcases hstep 0 t₁ (by decide) ht₁ with ⟨hn, hw'⟩ | ⟨t₂, ht₂, hw'⟩
      · rw [hw', hnone hn]
        rfl
      · rw [hw']
        have hpte : s.pteAt r va =
            if Valid (cell s.mem t₂ (index va 0)) then some
                (cell s.mem t₂ (index va 0)) else none := by
          have hentry : Radix.entry link (cell s.mem) r (indices va) =
              some (cell s.mem t₂ (index va 0)) := by
            rw [hindex]
            exact entry_cons.mpr ⟨t₂, ht₂, rfl⟩
          rw [Space.pteAt, hentry]
          simp [Option.filter_some]
        rw [hpte]
        split
        · rename_i hv
          rw [Option.bind_some]
          cases hh : pageHit va (cell s.mem t₂ (index va 0)) with
          | none =>
            by_contra hne
            have hacc := accepted_of_sv39Level rfl hne
            exact absurd (hh.symm.trans ((pageHit_eq_some hv).mpr ⟨hacc, rfl⟩)) (by simp)
          | some hit =>
            obtain ⟨hacc, rfl⟩ := (pageHit_eq_some hv).mp hh
            exact Paging.sv39Level_leaf hacc rfl
        · rename_i hv
          exact sv39Level_invalid hv
  · rfl

end Walk

end Grove

/-! ## Edits -/

/-- The entries of the tables are the same, but for that at the place `p` below `r`. -/
def AllBut (roots : List Nat) (r : Nat) (p : List Nat) (s s' : Space β) : Prop :=
  ∀ r' ∈ roots, ∀ q t j, q.length ≤ 2 → Trail 512 (j :: q) → s.table r' q = some t →
    ¬ (r' = r ∧ j :: q = p) → cell s'.mem t j = cell s.mem t j

/-- The hardware gets the same at every address that is not below that place. -/
theorem AllBut.sv39_eq (h : AllBut roots r p s s') (hr' : r' ∈ roots) {a : Nat}
    (ha : ¬ (r' = r ∧ p <:+ indices a)) : sv39 s'.mem r' a = sv39 s.mem r' a := by
  rw [sv39, sv39]
  split
  · refine Space.sv39Level_congr (fun q u j hq hu => ?_) le_rfl rfl
    have hlen : (j :: q).length ≤ 3 := hq.length_le
    refine h r' hr' q u j (Nat.le_of_succ_le_succ hlen) ((trail_indices a).suffix hq) hu ?_
    rintro ⟨rfl, rfl⟩
    exact ha ⟨rfl, hq⟩
  · rfl

/-- From `s` to `s'` empty tables were hung, in places that were free. -/
structure Grown (Owns : β → List Grant → Prop) (roots : List Nat) (s s' : Space β) : Prop where
  pte : ∀ r ∈ roots, ∀ a, s'.pteAt r a = s.pteAt r a
  mapped : ∀ r ∈ roots, ∀ q, q.length ≤ 2 → s'.Mapped r q → s.Mapped r q
  sv39 : (∀ b L, Owns b L → Low L) → ∀ r ∈ roots, ∀ a, sv39 s'.mem r a = sv39 s.mem r a

/-- Nothing has been added. -/
theorem Grown.refl (s : Space β) : Grown Owns roots s s :=
  ⟨fun _ _ _ => rfl, fun _ _ _ _ => id, fun _ _ _ _ => rfl⟩

/-- Two calls in a row. -/
theorem Grown.trans (h : Grown Owns roots s s') (h' : Grown Owns roots s' s'') :
    Grown Owns roots s s'' where
  pte r hr a := (h'.pte r hr a).trans (h.pte r hr a)
  mapped r hr q hq hm := h.mapped r hr q hq (h'.mapped r hr q hq hm)
  sv39 hlow r hr a := (h'.sv39 hlow r hr a).trans (h.sv39 hlow r hr a)

/-- From `s` to `s'` the page of an address, which was free, got the entry `e`. -/
structure PageAdded (Owns : β → List Grant → Prop) (roots : List Nat) (r va e : Nat)
    (s s' : Space β) : Prop where
  grove : ∃ L', Grove Owns roots s' L'
  free : s.pteAt r va = none
  pte : ∀ r' ∈ roots, ∀ a, s'.pteAt r' a =
    if r' = r ∧ indices a = indices va then some e else s.pteAt r' a
  mapped : ∀ r' ∈ roots, ∀ q, q.length ≤ 2 → s'.Mapped r' q → s.Mapped r' q
  others : (∀ b L, Owns b L → Low L) → ∀ r' ∈ roots, ∀ a,
    ¬ (r' = r ∧ indices a = indices va) → sv39 s'.mem r' a = sv39 s.mem r' a

namespace Grove

section Edit

variable (hA : A.Grants Owns) (h : Grove Owns roots s L) (hr : r ∈ roots)
  (hp : Trail 512 (i :: p)) (ht : s.table r p = some t)
include hA h hr hp ht

/-- Any word may be written to an entry of a last table. -/
theorem store_last (hd : p.length = 2) {v : Nat} (hs : s' = s.store (t + 8 * i) v) :
    Grove Owns roots s' L ∧ AllBut roots r (i :: p) s s' ∧
      (∀ r' ∈ roots, ∀ q, q.length ≤ 2 → s'.Mapped r' q → s.Mapped r' q) ∧
      ∀ r' ∈ roots, ∀ a, s'.pteAt r' a =
        if r' = r ∧ indices a = i :: p then (if Valid v then some v else none)
        else s.pteAt r' a := by
  have hother : AllBut roots r (i :: p) s s' := by
    intro r' hr' q u j hq hqt hu hne
    rw [hs]
    refine Function.update_of_ne (fun he => hne ?_) _ _
    exact h.slot_inj hA hr' hr hq hd.le hqt hp hu ht he
  -- no entry above the last level is the one that is written
  have hupper : ∀ r' ∈ roots, ∀ q u j, q.length < 2 → Trail 512 (j :: q) →
      s.table r' q = some u → cell s'.mem u j = cell s.mem u j := by
    intro r' hr' q u j hlt hqt hu
    refine hother r' hr' q u j hlt.le hqt hu ?_
    rintro ⟨_, he⟩
    rw [(List.cons.inj he).2, hd] at hlt
    exact absurd hlt (lt_irrefl 2)
  have htab : ∀ r' ∈ roots, ∀ q, q.length ≤ 2 → Trail 512 q → s'.table r' q = s.table r' q :=
    fun r' hr' q hq hqt => table_agree (d := 2) (fun q u j hlt hqt hu =>
      congrArg link (hupper r' hr' q u j hlt hqt hu)) hqt hq
  refine ⟨⟨?_, fun r' hr' q u hq hqt hu => ?_,
    fun r₁ h₁ r₂ h₂ q₁ q₂ u hq₁ hq₂ ht₁ ht₂ hu₁ hu₂ => ?_,
    fun r' hr' q u j w hq hqt hu hw => ?_⟩, hother, fun r' hr' q hq hm => ?_, fun r' hr' a => ?_⟩
  · rw [hs]
    exact h.owns
  · rw [htab r' hr' q hq hqt] at hu
    exact h.held r' hr' q u hq hqt hu
  · rw [htab r₁ h₁ q₁ hq₁ ht₁] at hu₁
    rw [htab r₂ h₂ q₂ hq₂ ht₂] at hu₂
    exact h.inj r₁ h₁ r₂ h₂ q₁ q₂ u hq₁ hq₂ ht₁ ht₂ hu₁ hu₂
  · rw [htab r' hr' q hq.le (trail_cons.mp hqt).2] at hu
    rw [hupper r' hr' q u j hq hqt hu] at hw ⊢
    exact h.links r' hr' q u j w hq hqt hu hw
  · obtain ⟨e, hleaf⟩ := hm
    obtain ⟨j, q, u, rfl, hu, rfl⟩ := hleaf.exists_table
    have hlt : q.length < 2 := hq
    replace hu : s'.table r' q = some u := hu
    rw [htab r' hr' q hlt.le (trail_cons.mp hleaf.path).2] at hu
    have hcell := hupper r' hr' q u j hlt hleaf.path hu
    refine ⟨_, hleaf.path, entry_cons.mpr ⟨u, hu, rfl⟩, ?_, ?_⟩
    · exact hcell ▸ hleaf.valid
    · exact hcell ▸ hleaf.link
  · have hat := trail_indices a
    obtain ⟨_, hat2⟩ := trail_cons.mp hat
    have htab' := htab r' hr' [vpn a 21, vpn a 30] le_rfl hat2
    split
    · rename_i hc
      obtain ⟨rfl, he⟩ := hc
      obtain ⟨hi, hrest⟩ := List.cons.inj he
      have hself : cell s'.mem t i = v := by
        rw [hs]
        exact Function.update_self ..
      have hentry : Radix.entry link (cell s'.mem) r' (indices a) = some v := by
        rw [he]
        refine entry_cons.mpr ⟨t, ?_, hself⟩
        rw [hrest] at htab'
        exact htab'.trans ht
      rw [Space.pteAt, hentry, Option.filter_some]
      simp
    · rename_i hc
      have hentry : Radix.entry link (cell s'.mem) r' (indices a) =
          Radix.entry link (cell s.mem) r' (indices a) := by
        show (s'.table r' [vpn a 21, vpn a 30]).map _ = (s.table r' [vpn a 21, vpn a 30]).map _
        rw [htab']
        cases hu : s.table r' [vpn a 21, vpn a 30] with
        | none => rfl
        | some u => exact congrArg some (hother r' hr' _ u _ le_rfl hat hu hc)
      rw [Space.pteAt, hentry, Space.pteAt]

/-- A new page, zeroed and hung below an invalid entry, maps nothing. -/
theorem hang (hd : p.length < 2) (hv : ¬ Valid (cell s.mem t i)) {b : β}
    (hk : A.kalloc s.pages 0 = .done u b)
    (hs : s' = (zeroTable u { s with pages := b, given := u :: s.given }).store (t + 8 * i)
      (linkPte u)) :
    Grove Owns roots s' (⟨u, 0⟩ :: L) ∧ s'.table r (i :: p) = some u ∧ Grown Owns roots s s' := by
  obtain ⟨hne, howns⟩ := hA.kalloc h.owns hk
  obtain ⟨hdvd, -, hlt⟩ := (hA.blocks howns).single_page List.mem_cons_self
  have hz := zeroed_of_granted (hA.blocks howns) List.mem_cons_self
    { s with pages := b, given := u :: s.given }
  -- no entry of an old table lies in the new page
  have haway : ∀ r' ∈ roots, ∀ q w j, q.length ≤ 2 → Trail 512 (j :: q) → s.table r' q = some w →
      ∀ k < 512, w + 8 * j ≠ u + 8 * k := by
    intro r' hr' q w j hq hqt hw k hk' he
    obtain ⟨hj, hqt⟩ := trail_cons.mp hqt
    have hw1 := (h.page hA hr' hq hqt hw).1
    apply hne _ (h.held r' hr' q w hq hqt hw)
    show w = u
    omega
  have hother : AllBut roots r (i :: p) s s' := by
    intro r' hr' q w j hq hqt hw hjq
    rw [hs, cell, Space.store_mem, Function.update_of_ne fun he =>
      hjq (h.slot_inj hA hr' hr hq hd.le hqt hp hw ht he),
      hz.other _ (haway r' hr' q w j hq hqt hw)]
    rfl
  have hself : cell s'.mem t i = linkPte u := by
    rw [hs]
    exact Function.update_self ..
  have hzero : ∀ j < 512, cell s'.mem u j = 0 := by
    intro j hj
    rw [hs, cell, Space.store_mem, Function.update_of_ne (haway r hr p t i hd.le hp ht j hj).symm]
    exact hz.zero j hj
  have h0 : link (cell s.mem t i) = none := link_eq_none.mpr fun hv' => absurd hv' hv
  have h1 : link (cell s'.mem t i) = some u := by
    rw [hself]
    exact link_linkPte hdvd (by omega)
  have hempty : ∀ j < 512, link (cell s'.mem u j) = none := by
    intro j hj
    rw [hzero j hj]
    exact link_zero
  have htab : ∀ r' ∈ roots, ∀ q, q.length ≤ 2 → Trail 512 q →
      s'.table r' q = if r' = r ∧ q = i :: p then some u else s.table r' q := by
    intro r' hr' q hq hqt
    by_cases he : r' = r
    · subst he
      simp only [true_and]
      exact table_hang_upper (d := 2) ht (fun q w j hlt hqt hw hjq =>
        hother r' hr' q w j hlt.le hqt hw fun hc => hjq hc.2) h0 h1 hempty hqt hq
    · rw [if_neg fun hc => he hc.1]
      refine table_agree (d := 2) (fun q w j hlt hqt hw => ?_) hqt hq
      rw [hother r' hr' q w j hlt.le hqt hw fun hc => he hc.1]
  have hold : ∀ r' ∈ roots, ∀ q w, q.length ≤ 2 → Trail 512 q → s.table r' q = some w → w ≠ u := by
    rintro r' hr' q w hq hqt hw rfl
    exact hne _ (h.held r' hr' q w hq hqt hw) rfl
  have hgrove : Grove Owns roots s' (⟨u, 0⟩ :: L) := by
    refine ⟨?_, fun r' hr' q w hq hqt hw => ?_,
      fun r₁ h₁ r₂ h₂ q₁ q₂ w hq₁ hq₂ ht₁ ht₂ hw₁ hw₂ => ?_,
      fun r' hr' q w j x hq hqt hw hx => ?_⟩
    · rw [hs, Space.store_pages, hz.pages]
      exact howns
    · rw [htab r' hr' q hq hqt] at hw
      split at hw
      · obtain rfl := Option.some.inj hw
        exact List.mem_cons_self
      · exact List.mem_cons_of_mem _ (h.held r' hr' q w hq hqt hw)
    · rw [htab r₁ h₁ q₁ hq₁ ht₁] at hw₁
      rw [htab r₂ h₂ q₂ hq₂ ht₂] at hw₂
      split at hw₁ <;> split at hw₂
      · rename_i hc₁ hc₂
        exact ⟨hc₁.1.trans hc₂.1.symm, hc₁.2.trans hc₂.2.symm⟩
      · obtain rfl := Option.some.inj hw₁
        exact absurd rfl (hold r₂ h₂ q₂ _ hq₂ ht₂ hw₂)
      · obtain rfl := Option.some.inj hw₂
        exact absurd rfl (hold r₁ h₁ q₁ _ hq₁ ht₁ hw₁)
      · exact h.inj r₁ h₁ r₂ h₂ q₁ q₂ w hq₁ hq₂ ht₁ ht₂ hw₁ hw₂
    · obtain ⟨hj, hqt'⟩ := trail_cons.mp hqt
      rw [htab r' hr' q hq.le hqt'] at hw
      split at hw
      · obtain rfl := Option.some.inj hw
        rw [hempty j hj] at hx
        exact absurd hx (by simp)
      · by_cases hc : r' = r ∧ j :: q = i :: p
        · obtain ⟨rfl, hjq⟩ := hc
          obtain ⟨rfl, rfl⟩ := List.cons.inj hjq
          obtain rfl := Option.some.inj (ht.symm.trans hw)
          obtain rfl := Option.some.inj (h1.symm.trans hx)
          exact hself
        · rw [hother r' hr' q w j hq.le hqt hw hc] at hx ⊢
          exact h.links r' hr' q w j x hq hqt hw hx
  refine ⟨hgrove, ?_, fun r' hr' a => ?_, fun r' hr' q hq hm => ?_, fun hlow r' hr' a => ?_⟩
  · rw [htab r hr (i :: p) hd hp, if_pos ⟨rfl, rfl⟩]
  · have hat := trail_indices a
    obtain ⟨hai, hat2⟩ := trail_cons.mp hat
    have htab' := htab r' hr' [vpn a 21, vpn a 30] le_rfl hat2
    ext e
    rw [Space.pteAt_eq_some, Space.pteAt_eq_some, htab']
    split
    · rename_i hc
      obtain ⟨rfl, hc⟩ := hc
      have hnone : s.table r' [vpn a 21, vpn a 30] = none := by
        rw [hc]
        exact table_eq_none ht h0 List.suffix_rfl
      constructor
      · rintro ⟨w, hw, rfl, hval⟩
        obtain rfl := Option.some.inj hw
        rw [hzero _ hai] at hval
        exact absurd hval not_valid_zero
      · rintro ⟨w, hw, _⟩
        exact absurd (hnone.symm.trans hw) (by simp)
    · have hcell : ∀ w, s.table r' [vpn a 21, vpn a 30] = some w →
          cell s'.mem w (vpn a 12) = cell s.mem w (vpn a 12) := by
        intro w hw
        refine hother r' hr' _ w _ le_rfl hat hw ?_
        rintro ⟨_, he⟩
        rw [← (List.cons.inj he).2] at hd
        exact absurd hd (lt_irrefl 2)
      constructor
      · rintro ⟨w, hw, rfl, hval⟩
        rw [hcell w hw] at hval ⊢
        exact ⟨w, hw, rfl, hval⟩
      · rintro ⟨w, hw, rfl, hval⟩
        exact ⟨w, hw, hcell w hw, hval⟩
  · obtain ⟨e, hleaf⟩ := hm
    obtain ⟨j, q, w, rfl, hw, rfl⟩ := hleaf.exists_table
    obtain ⟨hj, hqt⟩ := trail_cons.mp hleaf.path
    have hlt : q.length < 2 := hq
    replace hw : s'.table r' q = some w := hw
    rw [htab r' hr' q hlt.le hqt] at hw
    split at hw
    · obtain rfl := Option.some.inj hw
      have hval := hleaf.valid
      rw [hzero j hj] at hval
      exact absurd hval not_valid_zero
    · have hc : ¬ (r' = r ∧ j :: q = i :: p) := by
        rintro ⟨rfl, hjq⟩
        obtain ⟨rfl, rfl⟩ := List.cons.inj hjq
        obtain rfl := Option.some.inj (ht.symm.trans hw)
        exact absurd (hleaf.link.symm.trans h1) (by simp)
      have hcell := hother r' hr' q w j hlt.le hleaf.path hw hc
      refine ⟨_, hleaf.path, entry_cons.mpr ⟨w, hw, rfl⟩, ?_, ?_⟩
      · exact hcell ▸ hleaf.valid
      · exact hcell ▸ hleaf.link
  · by_cases hc : r' = r ∧ (i :: p) <:+ indices a
    · -- the walk ends at the entry, and then in the new table
      obtain ⟨rfl, hsub⟩ := hc
      obtain ⟨l, hl⟩ : ∃ l, p.length + l = 1 := Nat.le.dest (Nat.le_of_lt_succ hd)
      have hdrop : i :: p = (indices a).drop (l + 1) := by
        have heq := List.suffix_iff_eq_drop.mp hsub
        have hlen : (indices a).length - (i :: p).length = l + 1 := by
          simp only [indices, List.length_cons, List.length_nil]
          omega
        rwa [hlen] at heq
      rw [drop_indices a (l + 1) (by omega)] at hdrop
      obtain ⟨rfl, rfl⟩ := List.cons.inj hdrop
      have ht' : s'.table r' ((indices a).drop (l + 2)) = some t := by
        rw [htab r' hr _ (by omega) (trail_cons.mp hp).2, if_neg fun hc =>
          (List.cons_ne_self _ _) hc.2.symm]
        exact ht
      have hbefore : sv39Level s.mem a 2 r' = sv39Level s.mem a (l + 1) t :=
        h.sv39Level_table hA (hlow _ _ h.owns) hr (by omega) ht
      have hafter : sv39Level s'.mem a 2 r' = sv39Level s'.mem a (l + 1) t :=
        hgrove.sv39Level_table hA (hlow _ _ hgrove.owns) hr (by omega) ht'
      have hnext : sv39Level s'.mem a (l + 1) t = sv39Level s'.mem a l u :=
        (hgrove.sv39Level_next hA (hlow _ _ hgrove.owns) hr (by omega) ht' h1).2
      have hend : ¬ Valid (cell s'.mem u (index a l)) := by
        rw [hzero _ (index_lt a l)]
        exact not_valid_zero
      rw [sv39, sv39, hbefore, hafter, hnext, sv39Level_invalid hv, sv39Level_invalid hend]
    · exact AllBut.sv39_eq hother hr' hc

/-- What a call of `ensureTable` that returns has done, where the entry is no leaf. -/
theorem ensureTable_done (hd : p.length < 2) (hn : ¬ s.Mapped r (i :: p)) {code virAddr : Nat}
    (hrun : ensureTable A code virAddr (entryAt t i) s = .done u s') :
    (∃ L', Grove Owns roots s' L') ∧ s'.table r (i :: p) = some u ∧ Grown Owns roots s s' := by
  have hslot := h.entryAt_table hA hr hd.le hp ht
  rcases h.next hA hr hd hp ht hn with ⟨h0, hnone⟩ | ⟨h0, hu⟩
  · rw [ensureTable, if_pos h0, kallocPage] at hrun
    cases hk : A.kalloc s.pages 0 with
    | done v b =>
      have hv : ¬ Valid (cell s.mem t i) := by
        rw [hslot] at h0
        exact not_not.mpr h0
      obtain ⟨hne, howns⟩ := hA.kalloc h.owns hk
      obtain ⟨hdvd, hpos, hlt⟩ := (hA.blocks howns).single_page List.mem_cons_self
      obtain ⟨hf, htab, hgrown⟩ := h.hang hA hr hp ht hd hv hk rfl
      rw [hk] at hrun
      simp only [Outcome.within, Outcome.bind_done] at hrun
      rw [if_neg (Nat.pos_iff_ne_zero.mp hpos), hslot, Space.store_mem, Function.update_self,
        tableOf_linkPte hdvd (by omega)] at hrun
      obtain ⟨rfl, rfl⟩ := Outcome.done.inj hrun
      exact ⟨⟨_, hf⟩, htab, hgrown⟩
    | panic c x b =>
      rw [hk] at hrun
      simp [Outcome.within] at hrun
    | spin b =>
      rw [hk] at hrun
      simp [Outcome.within] at hrun
  · rw [ensureTable, if_neg h0] at hrun
    obtain ⟨rfl, rfl⟩ := Outcome.done.inj hrun
    exact ⟨⟨L, h⟩, hu, Grown.refl s⟩

end Edit

/-! ## Whole calls -/

section Calls

variable (hA : A.Grants Owns) (h : Grove Owns roots s L) (hr : r ∈ roots)
include hA h hr

/-- Mapping one page below no larger leaf. -/
theorem mapPage_done {user perm virAddr va pa : Nat} (hsmall : Small r s va)
    (hrun : mapPage A user perm r virAddr va pa s = .done () s') :
    PageAdded Owns roots r va (leafPte user perm pa) s s' := by
  have hp3 := trail_indices va
  have hp2 : Trail 512 [vpn va 21, vpn va 30] := (trail_cons.mp hp3).2
  have hp1 : Trail 512 [vpn va 30] := (trail_cons.mp hp2).2
  have hn1 : ¬ s.Mapped r [vpn va 30] := fun hm =>
    absurd (hsmall _ ⟨[vpn va 12, vpn va 21], rfl⟩ hm) (by simp [indices])
  have hn2 : ¬ s.Mapped r [vpn va 21, vpn va 30] := fun hm =>
    absurd (hsmall _ ⟨[vpn va 12], rfl⟩ hm) (by simp [indices])
  obtain ⟨t₁, s₁, hrun₁, hrest⟩ := Outcome.bind_eq_done.mp hrun
  obtain ⟨⟨L₁, h₁⟩, ht₁, hg₁⟩ := h.ensureTable_done hA hr hp1 rfl (by simp) hn1 hrun₁
  obtain ⟨t₂, s₂, hrun₂, hput⟩ := Outcome.bind_eq_done.mp hrest
  obtain ⟨⟨L₂, h₂⟩, ht₂, hg₂⟩ := h₁.ensureTable_done hA hr hp2 ht₁ (by simp)
    (fun hm => hn2 (hg₁.mapped r hr _ (by simp) hm)) hrun₂
  have hgrown := hg₁.trans hg₂
  rw [putLeaf, h₂.entryAt_table hA hr le_rfl hp3 ht₂] at hput
  split at hput
  · exact absurd hput (by simp)
  · rename_i hv
    obtain ⟨_, rfl⟩ := Outcome.done.inj hput
    obtain ⟨h₃, hbut, hmapped, hpte⟩ := h₂.store_last hA hr hp3 ht₂ rfl rfl
      (v := leafPte user perm pa)
    refine ⟨⟨L₂, h₃⟩, ?_, fun r' hr' a => ?_, fun r' hr' q hq hm =>
      hgrown.mapped r' hr' q hq (hmapped r' hr' q hq hm), fun hlow r' hr' a ha => ?_⟩
    · rw [← hgrown.pte r hr va]
      cases he : s₂.pteAt r va with
      | none => rfl
      | some e =>
        obtain ⟨t, ht, rfl, hval⟩ := Space.pteAt_eq_some.mp he
        obtain rfl := Option.some.inj (ht₂.symm.trans ht)
        exact absurd hval hv
    · rw [hpte r' hr' a, hgrown.pte r' hr' a, if_pos (valid_leafPte _ _ _)]
      rfl
    · have hlen : (indices va).length = (indices a).length := rfl
      rw [hbut.sv39_eq hr' fun hc => ha ⟨hc.1, (hc.2.eq_of_length hlen).symm⟩]
      exact hgrown.sv39 hlow r' hr' a

/-- A call of one page. -/
theorem exec_done {c : MapCall} (hl : c.len = 4096) (hsmall : Small r s c.virAddr)
    (hrun : c.exec A r s = .done () s') :
    PageAdded Owns roots r c.virAddr (leafPte c.user c.perm c.frame) s s' := by
  have hstart : indices c.start = indices c.virAddr := by
    refine indices_eq_of_page ?_
    rw [MapCall.start, MapCall.andNot_page, Nat.mul_div_cancel _ (by decide)]
  rw [c.exec_eq, MapCall.pieces_of_page hl] at hrun
  simp only [mapPieces, mapPiece] at hrun
  obtain ⟨_, s₁, hmap, hnil⟩ := Outcome.bind_eq_done.mp hrun
  obtain ⟨_, rfl⟩ := Outcome.done.inj hnil
  have hsmall' : Small r s c.start := by
    unfold Small
    rw [hstart]
    exact hsmall
  have hadded := h.mapPage_done hA hr hsmall' hmap
  refine ⟨hadded.grove, ?_, ?_, hadded.mapped, ?_⟩
  · rw [Space.pteAt, ← hstart]
    exact hadded.free
  · rw [← hstart]
    exact hadded.pte
  · rw [← hstart]
    exact hadded.others

end Calls

end Grove

namespace Fenced

variable {root va : Nat}

end Fenced

end RexOS.Paging
