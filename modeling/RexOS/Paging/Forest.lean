import RexOS.Paging.Grove

/-!
# The tables of several processes

Tables of several roots in one memory, all leaves being single pages. `Forest` is kept by every
call that maps one page and by `uvm_unmap`, and each changes what one word `pteAt` says.
-/

namespace RexOS.Paging

open Bits RexOS.Kalloc Radix

variable {β : Type} {A : PageAlloc β} {Owns : β → List Grant → Prop} {roots : List Nat}
  {s s' : Space β} {L : List Grant} {r r' : Nat} {p q : List Nat} {t u i j : Nat}

/-- The tables of the roots are pages of their own down to the last level, and no entry above
that level is a leaf. -/
structure Forest (Owns : β → List Grant → Prop) (roots : List Nat) (s : Space β)
    (L : List Grant) : Prop extends Grove Owns roots s L where
  pages : ∀ r ∈ roots, ∀ q, q.length ≤ 2 → ¬ s.Mapped r q

namespace Forest

/-- The tables of fewer roots. -/
theorem mono {roots' : List Nat} (h : Forest Owns roots s L) (hsub : roots' ⊆ roots) :
    Forest Owns roots' s L :=
  ⟨h.toGrove.mono hsub, fun r hr => h.pages r (hsub hr)⟩

/-- No larger leaf is above any address. -/
theorem small (h : Forest Owns roots s L) (hr : r ∈ roots) (va : Nat) : Small r s va := by
  intro q hq hm
  by_contra hne
  have hlen : q.length ≤ (indices va).length := hq.length_le
  refine h.pages r hr q ?_ hm
  have hne' : q.length ≠ (indices va).length := fun he => hne (hq.eq_of_length he)
  simp only [indices, List.length_cons, List.length_nil] at hlen hne'
  omega

section Read

variable (hA : A.Grants Owns) (h : Forest Owns roots s L)
include hA h

/-- What `uvm_translate` returns. -/
theorem uvmTranslate_pteAt {satp : Nat} (hr : r ∈ roots) (hsatp : satpTable satp = r) (va : Nat) :
    uvmTranslate s.mem satp va =
      match s.pteAt r va with
      | none => 0
      | some e => tableOf e ||| (va &&& 0xFFF) :=
  h.toGrove.uvmTranslate_pteAt hA hr hsatp (h.small hr va)

end Read

/-- The walk is decided by the entry of the page. -/
theorem sv39_eq (hA : A.Grants Owns) (h : Forest Owns roots s L) (hL : Low L) (hr : r ∈ roots)
    (va : Nat) : sv39 s.mem r va =
      if Canonical va then (s.pteAt r va).bind (pageHit va) else none :=
  h.toGrove.sv39_eq hA hL hr (h.small hr va)

/-! ## Whole calls -/

section Calls

variable (hA : A.Grants Owns) (h : Forest Owns roots s L) (hr : r ∈ roots)
include hA h hr

/-- A call of one page. -/
theorem exec_done {c : MapCall} (hl : c.len = 4096) (hrun : c.exec A r s = .done () s') :
    (∃ L', Forest Owns roots s' L') ∧ s.pteAt r c.virAddr = none ∧ ∀ r' ∈ roots, ∀ a,
      s'.pteAt r' a = if r' = r ∧ indices a = indices c.virAddr then
        some (leafPte c.user c.perm c.frame) else s.pteAt r' a := by
  have hadded := h.toGrove.exec_done hA hr hl (h.small hr _) hrun
  obtain ⟨L', hgrove⟩ := hadded.grove
  exact ⟨⟨L', hgrove, fun r' hr' q hq hm => h.pages r' hr' q hq (hadded.mapped r' hr' q hq hm)⟩,
    hadded.free, hadded.pte⟩

/-- `uvm_unmap` takes away the entry of one page. -/
theorem uvmUnmap_pteAt {satp : Nat} (hsatp : satpTable satp = r) (va : Nat) :
    (s.pteAt r va = none ∧ uvmUnmap satp va s = (0, s)) ∨
    (s.pteAt r va ≠ none ∧ ∃ s', uvmUnmap satp va s = (1, s') ∧ Forest Owns roots s' L ∧
      ∀ r' ∈ roots, ∀ a, s'.pteAt r' a =
        if r' = r ∧ indices a = indices va then none else s.pteAt r' a) := by
  rw [uvmUnmap_eq]
  rcases h.toGrove.leafSlot_eq hA hr hsatp (h.small hr va) with ⟨h1, h2⟩ | ⟨t, ht, h2, h1⟩
  · rw [h2]
    exact Or.inl ⟨h1, rfl⟩
  · rw [h2]
    refine Or.inr ⟨h1 ▸ Option.some_ne_none _, _, rfl, ?_⟩
    have hinv : ¬ Valid (andNot (s.mem (t + 8 * vpn va 12)) 0x1) := by
      rw [valid_iff, Nat.mod_two_eq_one_iff_testBit_zero, testBit_andNot]
      simp
    obtain ⟨hf, -, hmapped, hpte⟩ := h.toGrove.store_last hA hr (trail_indices va) ht rfl rfl
      (v := andNot (s.mem (t + 8 * vpn va 12)) 0x1)
    refine ⟨⟨hf, fun r' hr' q hq hm => h.pages r' hr' q hq (hmapped r' hr' q hq hm)⟩,
      fun r' hr' a => ?_⟩
    rw [hpte r' hr' a, if_neg hinv]
    rfl

end Calls

/-! ## A new table -/

/-- A page given now and zeroed is one more root, with nothing mapped. -/
theorem cons (hA : A.Grants Owns) (h : Forest Owns roots s L) {b : β}
    (hk : A.kalloc s.pages 0 = .done u b)
    (hs : s' = zeroTable u { s with pages := b, given := u :: s.given }) :
    Forest Owns (u :: roots) s' (⟨u, 0⟩ :: L) ∧ (∀ a, s'.pteAt u a = none) ∧
      ∀ r ∈ roots, ∀ a, s'.pteAt r a = s.pteAt r a := by
  obtain ⟨hne, howns⟩ := hA.kalloc h.owns hk
  obtain ⟨hdvd, -, hlt⟩ := (hA.blocks howns).single_page List.mem_cons_self
  have hz := zeroed_of_granted (hA.blocks howns) List.mem_cons_self
    { s with pages := b, given := u :: s.given }
  rw [← hs] at hz
  have hother : ∀ r ∈ roots, ∀ q w j, q.length ≤ 2 → Trail 512 (j :: q) → s.table r q = some w →
      cell s'.mem w j = cell s.mem w j := by
    intro r hr q w j hq hqt hw
    refine hz.other _ fun k hk' he => ?_
    obtain ⟨hj, hqt⟩ := trail_cons.mp hqt
    have hw1 := (h.toGrove.page hA hr hq hqt hw).1
    apply hne _ (h.held r hr q w hq hqt hw)
    show w = u
    omega
  have htab : ∀ r ∈ roots, ∀ q, q.length ≤ 2 → Trail 512 q → s'.table r q = s.table r q :=
    fun r hr q hq hqt => table_agree (d := 2) (fun q w j hlt hqt hw => by
      rw [hother r hr q w j hlt.le hqt hw]) hqt hq
  have hnew : ∀ q w, Trail 512 q → s'.table u q = some w → q = [] ∧ w = u := by
    intro q w hqt hw
    cases q with
    | nil => exact ⟨rfl, (Option.some.inj hw).symm⟩
    | cons j q =>
      obtain ⟨hj, hqt⟩ := trail_cons.mp hqt
      have hnone : ∀ j q, Trail 512 (j :: q) → s'.table u (j :: q) = none := by
        intro j q
        induction q generalizing j with
        | nil =>
          intro hq
          show link (s'.mem (u + 8 * j)) = none
          rw [hz.zero j (trail_cons.mp hq).1]
          exact link_zero
        | cons k q ih =>
          intro hq
          show (s'.table u (k :: q)).bind _ = none
          rw [ih k (trail_cons.mp hq).2]
          rfl
      exact absurd ((hnone j q (trail_cons.mpr ⟨hj, hqt⟩)).symm.trans hw) (by simp)
  have hold : ∀ r ∈ roots, ∀ q w, q.length ≤ 2 → Trail 512 q → s'.table r q = some w → w ≠ u := by
    rintro r hr q w hq hqt hw rfl
    rw [htab r hr q hq hqt] at hw
    exact hne _ (h.held r hr q w hq hqt hw) rfl
  refine ⟨⟨⟨?_, fun r hr q w hq hqt hw => ?_,
    fun r₁ h₁ r₂ h₂ q₁ q₂ w hq₁ hq₂ ht₁ ht₂ hw₁ hw₂ => ?_,
    fun r hr q w j x hq hqt hw hx => ?_⟩, fun r hr q hq hm => ?_⟩, fun a => ?_, fun r hr a => ?_⟩
  · rw [hz.pages]
    exact howns
  · rcases List.mem_cons.mp hr with rfl | hr
    · rw [(hnew q w hqt hw).2]
      exact List.mem_cons_self
    · rw [htab r hr q hq hqt] at hw
      exact List.mem_cons_of_mem _ (h.held r hr q w hq hqt hw)
  · rcases List.mem_cons.mp h₁ with rfl | hm₁ <;> rcases List.mem_cons.mp h₂ with rfl | hm₂
    · exact ⟨rfl, (hnew q₁ w ht₁ hw₁).1.trans (hnew q₂ w ht₂ hw₂).1.symm⟩
    · exact absurd (hnew q₁ w ht₁ hw₁).2 (hold r₂ hm₂ q₂ w hq₂ ht₂ hw₂)
    · exact absurd (hnew q₂ w ht₂ hw₂).2 (hold r₁ hm₁ q₁ w hq₁ ht₁ hw₁)
    · rw [htab r₁ hm₁ q₁ hq₁ ht₁] at hw₁
      rw [htab r₂ hm₂ q₂ hq₂ ht₂] at hw₂
      exact h.inj r₁ hm₁ r₂ hm₂ q₁ q₂ w hq₁ hq₂ ht₁ ht₂ hw₁ hw₂
  · obtain ⟨hj, hqt'⟩ := trail_cons.mp hqt
    rcases List.mem_cons.mp hr with rfl | hr
    · rw [(hnew q w hqt' hw).2, cell, hz.zero j hj, link_zero] at hx
      exact absurd hx (by simp)
    · rw [htab r hr q hq.le hqt'] at hw
      rw [hother r hr q w j hq.le hqt hw] at hx ⊢
      exact h.links r hr q w j x hq hqt hw hx
  · obtain ⟨e, hleaf⟩ := hm
    obtain ⟨j, q, w, rfl, hw, rfl⟩ := hleaf.exists_table
    obtain ⟨hj, hqt⟩ := trail_cons.mp hleaf.path
    have hlt : q.length < 2 := hq
    have hvalid := hleaf.valid
    rcases List.mem_cons.mp hr with rfl | hr
    · rw [(hnew q w hqt hw).2, cell, hz.zero j hj] at hvalid
      exact absurd hvalid not_valid_zero
    · have hw' : s.table r q = some w := (htab r hr q hlt.le hqt).symm.trans hw
      have hcell := hother r hr q w j hlt.le hleaf.path hw'
      refine h.pages r hr _ hq ⟨_, hleaf.path, entry_cons.mpr ⟨w, hw', rfl⟩, ?_, ?_⟩
      · exact hcell ▸ hvalid
      · exact hcell ▸ hleaf.link
  · cases he : s'.pteAt u a with
    | none => rfl
    | some e =>
      obtain ⟨w, hw, _⟩ := Space.pteAt_eq_some.mp he
      exact absurd (hnew _ w (trail_cons.mp (trail_indices a)).2 hw).1 (by simp)
  · have hat := trail_indices a
    have htab' := htab r hr [vpn a 21, vpn a 30] le_rfl (trail_cons.mp hat).2
    have hentry : Radix.entry link (cell s'.mem) r (indices a) =
        Radix.entry link (cell s.mem) r (indices a) := by
      show (s'.table r [vpn a 21, vpn a 30]).map _ = (s.table r [vpn a 21, vpn a 30]).map _
      rw [htab']
      cases hu : s.table r [vpn a 21, vpn a 30] with
      | none => rfl
      | some w => exact congrArg some (hother r hr _ w _ le_rfl hat hu)
    rw [Space.pteAt, hentry, Space.pteAt]

/-- `create_user_table` adds a table with its two pages. -/
theorem createUserTable_done (hA : A.Grants Owns) (h : Forest Owns roots s L)
    {trampoline kstack : Nat} (hrun : createUserTable A trampoline kstack s = .done r s') :
    (∃ L', Forest Owns (r :: roots) s' L') ∧
      (∀ a, s'.pteAt r a =
        if indices a = indices 0x3FFFFFE000 then some (leafPte 0 6 (andNot kstack 0xFFF))
        else if indices a = indices 0x3FFFFFF000 then some (leafPte 0 8 (andNot trampoline 0xFFF))
        else none) ∧
      ∀ r' ∈ roots, r' ≠ r → ∀ a, s'.pteAt r' a = s.pteAt r' a := by
  obtain ⟨b, hb, hcalls⟩ := createUserTable_eq_done.mp hrun
  obtain ⟨h₀, hnew, hold⟩ := h.cons hA hb rfl
  obtain ⟨_, s₁, h₁, hrest⟩ := Outcome.bind_eq_done.mp hcalls
  obtain ⟨_, s₂, h₂, hnil⟩ := Outcome.bind_eq_done.mp hrest
  obtain ⟨_, rfl⟩ := Outcome.done.inj hnil
  obtain ⟨⟨L₁, hf₁⟩, _, hpte₁⟩ := h₀.exec_done hA List.mem_cons_self (trampolineCall_len _) h₁
  obtain ⟨⟨L₂, hf₂⟩, _, hpte₂⟩ := hf₁.exec_done hA List.mem_cons_self (kstackCall_len _) h₂
  refine ⟨⟨L₂, hf₂⟩, fun a => ?_, fun r' hr' hne a => ?_⟩
  · rw [hpte₂ r List.mem_cons_self a, hpte₁ r List.mem_cons_self a, hnew a]
    simp only [true_and]
    rfl
  · have hin := List.mem_cons_of_mem r hr'
    rw [hpte₂ r' hin a, if_neg fun hc => hne hc.1, hpte₁ r' hin a, if_neg fun hc => hne hc.1,
      hold r' hr' a]

end Forest

end RexOS.Paging
