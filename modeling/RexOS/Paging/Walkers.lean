import RexOS.Paging.UserTable

/-!
# The walkers of the kernel

`uvm_translate` and `uvm_unmap` go down three levels on any address, testing V alone. Where
the address is canonical, or below no leaf, and no leaf above it is larger than a page, they
see what the hardware sees.
-/

namespace RexOS.Paging

open Bits RexOS.Kalloc Radix

variable {β : Type} {A : PageAlloc β} {Owns : β → List Grant → Prop} {root : Nat}
  {s s' : Space β} {L : List Grant} {va satp : Nat}

/-- The entry both walkers come to, if all three on the way are valid. -/
def leafSlot (mem : Nat → Nat) (userSatp virAddr : Nat) : Option Nat :=
  let pteLv2 := mem (entryAt (satpTable userSatp) (vpn virAddr 30))
  if pteLv2 &&& 0x1 = 0 then none
  else
    let pteLv1 := mem (entryAt (tableOf pteLv2) (vpn virAddr 21))
    if pteLv1 &&& 0x1 = 0 then none
    else
      let slot := entryAt (tableOf pteLv1) (vpn virAddr 12)
      if mem slot &&& 0x1 = 0 then none else some slot

/-- `uvm_translate` reads the slot of the last level, if it comes there. -/
theorem uvmTranslate_eq (mem : Nat → Nat) (userSatp virAddr : Nat) :
    uvmTranslate mem userSatp virAddr =
      match leafSlot mem userSatp virAddr with
      | none => 0
      | some slot => tableOf (mem slot) ||| (virAddr &&& 0xFFF) := by
  unfold uvmTranslate leafSlot
  dsimp only
  split_ifs <;> rfl

/-- What it returns is a word. -/
theorem uvmTranslate_lt (mem : Nat → Nat) (userSatp virAddr : Nat) :
    uvmTranslate mem userSatp virAddr < 2 ^ 64 := by
  rw [uvmTranslate_eq]
  split
  · decide
  · have hoff : virAddr &&& 0xFFF ≤ 0xFFF := Nat.and_le_right
    exact Nat.or_lt_two_pow (wrap_lt _) (by omega)

/-- The way of an address depends on its indices only. -/
theorem leafSlot_congr {mem : Nat → Nat} {a b : Nat} (h : indices a = indices b) :
    leafSlot mem satp a = leafSlot mem satp b := by
  obtain ⟨h12, h21, h30, -⟩ : vpn a 12 = vpn b 12 ∧ vpn a 21 = vpn b 21 ∧ vpn a 30 = vpn b 30 ∧
      True := by simpa [indices] using h
  unfold leafSlot
  rw [h12, h21, h30]

/-- The entry that `uvm_translate` comes to gives its result. -/
theorem uvmTranslate_of_slot {mem : Nat → Nat} {slot : Nat}
    (hslot : leafSlot mem satp va = some slot) :
    uvmTranslate mem satp va = mem slot / 1024 % 2 ^ 52 * 4096 + va % 4096 := by
  have hmask : va &&& 0xFFF = va % 4096 := Nat.and_two_pow_sub_one_eq_mod va 12
  have htable : tableOf (mem slot) = (mem slot / 1024 % 2 ^ 52) <<< 12 := by
    rw [tableOf_eq, Nat.shiftLeft_eq]
    omega
  rw [uvmTranslate_eq, hslot]
  dsimp only
  rw [hmask, htable, ← Nat.shiftLeft_add_eq_or_of_lt (Nat.mod_lt _ (by decide)), Nat.shiftLeft_eq]

/-- `uvm_unmap` clears the valid bit of this slot. -/
theorem uvmUnmap_eq (userSatp virAddr : Nat) (s : Space β) :
    uvmUnmap userSatp virAddr s =
      match leafSlot s.mem userSatp virAddr with
      | none => (0, s)
      | some slot => (1, s.store slot (andNot (s.mem slot) 0x1)) := by
  unfold uvmUnmap leafSlot
  dsimp only
  split_ifs <;> rfl

/-- No leaf above the address is larger than a page. -/
def Small (root : Nat) (s : Space β) (va : Nat) : Prop :=
  ∀ q, q <:+ indices va → s.Mapped root q → q = indices va

/-- With page leaves only, no larger leaf is above an address. -/
theorem Fine.small (h : Fine root s) (va : Nat) : Small root s va := fun _ hq hm =>
  h.eq_of_suffix hm rfl hq

/-- Where the hardware finds the leaf of a page, the walkers find it too. -/
theorem leafSlot_of_sv39 {hit : Hit} (hhit : sv39 s.mem (satpTable satp) va = some hit)
    (hsmall : Small (satpTable satp) s va) : ∃ slot, leafSlot s.mem satp va = some slot ∧
      Accepted 0 (s.mem slot) ∧
      hit = ⟨s.mem slot / 1024 * 4096 + va % 4096, s.mem slot % 1024⟩ := by
  have hp3 := trail_indices va
  have hp2 : Trail 512 [vpn va 21, vpn va 30] := (trail_cons.mp hp3).2
  have hp1 : Trail 512 [vpn va 30] := (trail_cons.mp hp2).2
  have hindex : vpn va 30 = index va 2 ∧ vpn va 21 = index va 1 ∧ vpn va 12 = index va 0 := by
    refine ⟨?_, ?_, ?_⟩ <;> exact vpn_eq _ _
  obtain ⟨-, hwalk⟩ := sv39_eq_some.mp hhit
  have hstep : ∀ {l t p}, s.table (satpTable satp) p = some t → Trail 512 (index va (l + 1) :: p) →
      (index va (l + 1) :: p) <:+ indices va → (index va (l + 1) :: p) ≠ indices va →
      4096 ∣ t → t < 2 ^ 56 → sv39Level s.mem va (l + 1) t = some hit →
      ∃ u, s.mem (entryAt t (index va (l + 1))) &&& 0x1 ≠ 0 ∧
        tableOf (s.mem (entryAt t (index va (l + 1)))) = u ∧
        s.table (satpTable satp) (index va (l + 1) :: p) = some u ∧
        sv39Level s.mem va l u = some hit ∧ 4096 ∣ u ∧ u < 2 ^ 56 := by
    intro l t p ht hp hsub hne hd hlt h
    have hv := valid_of_sv39Level h
    have hcell : s.mem (entryAt t (index va (l + 1))) = cell s.mem t (index va (l + 1)) := by
      rw [entryAt_eq hd (by omega) (index_lt _ _)]
      rfl
    cases hl : link (cell s.mem t (index va (l + 1))) with
    | none => exact absurd (hsmall _ hsub ⟨_, hp, entry_cons.mpr ⟨t, ht, rfl⟩, hv, hl⟩) hne
    | some u =>
      rw [hcell]
      exact ⟨u, hv, (link_eq_some.mp hl).2, table_cons.mpr ⟨t, ht, hl⟩, sv39Level_of_link h hl⟩
  obtain ⟨e2, e1, e0⟩ := hindex
  obtain ⟨hd, hlt⟩ := satpTable_page satp
  rw [e2] at hp1
  rw [e1, e2] at hp2
  have hindices : indices va = [index va 0, index va 1, index va 2] := by
    rw [indices, e0, e1, e2]
  obtain ⟨t₁, hv₁, ht₁, htab₁, hwalk₁, hd₁, hlt₁⟩ := hstep rfl hp1 ⟨[index va 0, index va 1],
    hindices.symm⟩ (by simp [hindices]) hd hlt hwalk
  obtain ⟨t₀, hv₀, ht₀, htab₀, hwalk₀, hd₀, hlt₀⟩ := hstep htab₁ hp2 ⟨[index va 0],
    hindices.symm⟩ (by simp [hindices]) hd₁ hlt₁ hwalk₁
  have hslot : entryAt t₀ (index va 0) = t₀ + 8 * index va 0 :=
    entryAt_eq hd₀ (by omega) (index_lt _ _)
  have hacc : Accepted 0 (s.mem (t₀ + 8 * index va 0)) :=
    accepted_of_sv39Level rfl (by rw [hwalk₀]; simp)
  have hv : s.mem (t₀ + 8 * index va 0) &&& 0x1 ≠ 0 := valid_of_sv39Level hwalk₀
  refine ⟨t₀ + 8 * index va 0, ?_, hacc, ?_⟩
  · unfold leafSlot
    dsimp only
    rw [e2, e1, e0, if_neg hv₁, ht₁, if_neg hv₀, ht₀, hslot, if_neg hv]
  · rw [Paging.sv39Level_leaf hacc rfl, pow_zero, Nat.mul_one] at hwalk₀
    exact (Option.some.inj hwalk₀).symm

/-- One step of a walker: a valid entry that is no leaf leads to the table below it. -/
theorem Tree.next (hA : A.Grants Owns) (h : Tree Owns root s L) {i : Nat} {p : List Nat} {t : Nat}
    (hp : Trail 512 (i :: p)) (ht : s.table root p = some t) (hn : ¬ s.Mapped root (i :: p)) :
    (s.mem (entryAt t i) &&& 0x1 = 0 ∧ ¬ s.Taken root (i :: p)) ∨
    (s.mem (entryAt t i) &&& 0x1 ≠ 0 ∧
      s.table root (i :: p) = some (tableOf (s.mem (entryAt t i)))) := by
  have hcell : s.mem (entryAt t i) = cell s.mem t i := by
    rw [h.entryAt_table hA hp ht]
    rfl
  rw [hcell]
  by_cases hv : Valid (cell s.mem t i)
  · right
    refine ⟨hv, ?_⟩
    obtain ⟨u, hu⟩ := Option.ne_none_iff_exists'.mp
      (((valid_iff_taken hp ht).mp hv).resolve_left fun hl => hn hl)
    obtain ⟨t', ht', hlink⟩ := table_cons.mp hu
    obtain rfl := Option.some.inj (ht.symm.trans ht')
    rw [(link_eq_some.mp hlink).2]
    exact hu
  · exact Or.inl ⟨not_not.mp hv, fun h => hv ((valid_iff_taken hp ht).mpr h)⟩

/-- The walkers come to the leaf of the address, or there is none above it. -/
theorem Tree.leafSlot_spec (hA : A.Grants Owns) (h : Tree Owns root s L)
    (hsatp : satpTable satp = root) (hsmall : Small root s va) :
    (∃ t, s.table root [vpn va 21, vpn va 30] = some t ∧
      leafSlot s.mem satp va = some (t + 8 * vpn va 12) ∧
      s.Leaf root (indices va) (s.mem (t + 8 * vpn va 12))) ∨
    (leafSlot s.mem satp va = none ∧ ∀ q, q <:+ indices va → ¬ s.Mapped root q) := by
  have hp3 := trail_indices va
  have hp2 : Trail 512 [vpn va 21, vpn va 30] := (trail_cons.mp hp3).2
  have hp1 : Trail 512 [vpn va 30] := (trail_cons.mp hp2).2
  have hn1 : ¬ s.Mapped root [vpn va 30] := fun hm =>
    absurd (hsmall _ ⟨[vpn va 12, vpn va 21], rfl⟩ hm) (by simp [indices])
  have hn2 : ¬ s.Mapped root [vpn va 21, vpn va 30] := fun hm =>
    absurd (hsmall _ ⟨[vpn va 12], rfl⟩ hm) (by simp [indices])
  -- nothing is mapped below a place that is not taken
  have hnone : ∀ p, p <:+ indices va → p ≠ [] → ¬ s.Taken root p →
      ∀ q, q <:+ indices va → ¬ s.Mapped root q := by
    intro p hp hne hnt q hq hm
    refine hnt (hm.taken (hp3.suffix hp) hne ?_)
    rw [hsmall q hq hm]
    exact hp
  unfold leafSlot
  rw [hsatp]
  rcases h.next hA hp1 rfl hn1 with ⟨h0, hnt⟩ | ⟨h0, ht1⟩
  · right
    rw [if_pos h0]
    exact ⟨rfl, hnone _ ⟨[vpn va 12, vpn va 21], rfl⟩ (by simp) hnt⟩
  · rw [if_neg h0]
    rcases h.next hA hp2 ht1 hn2 with ⟨h0', hnt⟩ | ⟨h0', ht2⟩
    · right
      rw [if_pos h0']
      exact ⟨rfl, hnone _ ⟨[vpn va 12], rfl⟩ (by simp) hnt⟩
    · rw [if_neg h0']
      generalize tableOf
        (s.mem (entryAt (tableOf (s.mem (entryAt root (vpn va 30)))) (vpn va 21))) = t
        at ht2
      rw [h.entryAt_table hA hp3 ht2]
      by_cases hv : Valid (cell s.mem t (vpn va 12))
      · left
        refine ⟨t, ht2, if_neg hv, ?_⟩
        rcases (valid_iff_taken hp3 ht2).mp hv with ⟨e, hl⟩ | hne
        · obtain ⟨t', ht', he⟩ := entry_cons.mp hl.entry
          obtain rfl := Option.some.inj (ht2.symm.trans ht')
          have he' : s.mem (t + 8 * vpn va 12) = e := he
          rw [he']
          exact hl
        · obtain ⟨u, hu⟩ := Option.ne_none_iff_exists'.mp hne
          exact absurd (h.shape.depth _ _ hp3 hu) (by simp [indices])
      · right
        refine ⟨if_pos (not_not.mp hv), hnone _ List.suffix_rfl (by simp [indices]) fun ht => ?_⟩
        exact hv ((valid_iff_taken hp3 ht2).mpr ht)

/-! ## Agreement with the hardware -/

/-- The walkers do what the walk of the hardware says. -/
structure WalkersAgree (root satp va : Nat) (s : Space β) : Prop where
  translate : ∀ hit, sv39 s.mem root va = some hit → uvmTranslate s.mem satp va = hit.phys
  fault : uvmTranslate s.mem satp va = 0 ↔ sv39 s.mem root va = none
  unmap : (uvmUnmap satp va s).1 = 1 ↔ sv39 s.mem root va ≠ none
  gone : sv39 s.mem root va ≠ none → ∀ a, a / 4096 = va / 4096 →
    sv39 (uvmUnmap satp va s).2.mem root a = none
  others : ∀ a, a / 4096 ≠ va / 4096 →
    sv39 (uvmUnmap satp va s).2.mem root a = sv39 s.mem root a
  written : ∃ w, (uvmUnmap satp va s).2.written = w ++ s.written ∧ ∀ x ∈ w, s.OnTable root x

/-- The address is canonical or below no leaf, and the hardware accepts the leaf of its page,
which does not map it to physical address 0. -/
structure Seen (root : Nat) (s : Space β) (va : Nat) : Prop where
  canonical : Canonical va ∨ ∀ q, q <:+ indices va → ¬ s.Mapped root q
  accepted : ∀ e, s.Leaf root (indices va) e → Accepted 0 e
  nonzero : ∀ e, s.Leaf root (indices va) e → tableOf e + va % 4096 ≠ 0

/-- Frame and offset do not overlap. -/
theorem tableOf_or {e : Nat} (he : e < 2 ^ 54) (va : Nat) :
    tableOf e ||| (va &&& 0xFFF) = e / 1024 * 4096 + va % 4096 := by
  have hmask : va &&& 0xFFF = va % 4096 := Nat.and_two_pow_sub_one_eq_mod va 12
  have hsmall : e / 1024 * 4096 % 2 ^ 64 = e / 1024 * 4096 := Nat.mod_eq_of_lt (by omega)
  have hlt : va % 4096 < 2 ^ 12 := Nat.mod_lt _ (by decide)
  have hor : (e / 1024) <<< 12 + va % 4096 = (e / 1024) <<< 12 ||| va % 4096 :=
    Nat.shiftLeft_add_eq_or_of_lt hlt _
  rw [Nat.shiftLeft_eq] at hor
  rw [tableOf_eq, hsmall, hmask]
  exact hor.symm

/-- Canonical addresses with the same indices are in one page. -/
theorem page_eq_of_indices {a : Nat} (ha : Canonical a) (hva : Canonical va)
    (he : indices a = indices va) : a / 4096 = va / 4096 := by
  have h := indices_eq_iff.mp he
  unfold Canonical at ha hva
  omega

/-- The addresses of a page have the same indices. -/
theorem indices_eq_of_page {a : Nat} (he : a / 4096 = va / 4096) : indices a = indices va :=
  indices_eq_iff.mpr (by omega)

/-- Clearing V of the leaf of a page takes the leaf away and nothing else. -/
theorem Tree.unmap_spec (hA : A.Grants Owns) (h : Tree Owns root s L) (hL : Low L) {t : Nat}
    (ht : s.table root [vpn va 21, vpn va 30] = some t) (hva : Canonical va)
    (hleaf : s.Leaf root (indices va) (s.mem (t + 8 * vpn va 12)))
    (hs : s' = s.store (t + 8 * vpn va 12) (andNot (s.mem (t + 8 * vpn va 12)) 0x1)) :
    (∀ a, a / 4096 = va / 4096 → sv39 s'.mem root a = none) ∧
    ∀ a, a / 4096 ≠ va / 4096 → sv39 s'.mem root a = sv39 s.mem root a := by
  have hinv : ¬ Valid (andNot (s.mem (t + 8 * vpn va 12)) 0x1) := by
    rw [valid_iff, Nat.mod_two_eq_one_iff_testBit_zero, testBit_andNot]
    simp
  have h1 : link (andNot (s.mem (t + 8 * vpn va 12)) 0x1) = none :=
    link_eq_none.mpr fun hv => absurd hv hinv
  obtain ⟨htree, _, hleaves⟩ := h.write hA (trail_indices va) ht hleaf.link h1
  rw [← hs] at htree hleaves
  have hgone : ∀ q, s'.Mapped root q → s.Mapped root q ∧ q ≠ indices va := by
    rintro q ⟨f, hf⟩
    rcases (hleaves q f).mp hf with ⟨hq, hne⟩ | ⟨_, _, hv⟩
    · exact ⟨⟨f, hq⟩, hne⟩
    · exact absurd hv hinv
  refine ⟨fun a ha => ?_, fun a ha => ?_⟩
  · refine htree.sv39_none hA hL fun _ q hq hm => ?_
    obtain ⟨⟨f, hf⟩, hne⟩ := hgone q hm
    rw [indices_eq_of_page ha] at hq
    exact hne (hf.unique hleaf hq List.suffix_rfl).1
  · rw [sv39, sv39]
    split
    · rename_i hcan
      refine Space.sv39Level_congr (fun q u j hq hu => ?_) le_rfl rfl
      rw [hs]
      refine h.store_cell hA (trail_indices va) ht ((trail_indices a).suffix hq) hu fun he => ?_
      -- the entry written is on the way of the addresses of its page alone
      rw [he] at hq
      have hlen : (vpn va 12 :: [vpn va 21, vpn va 30]).length = (indices a).length := rfl
      exact ha (page_eq_of_indices hcan hva (hq.eq_of_length hlen).symm)
    · rfl

/-- Where no leaf above the address is larger than a page, the walkers agree with the hardware
if they see what it sees. -/
theorem Tree.walkersAgree (hA : A.Grants Owns) (h : Tree Owns root s L) (hL : Low L)
    (hsatp : satpTable satp = root) (hsmall : Small root s va) (hseen : Seen root s va) :
    WalkersAgree root satp va s := by
  have htr := uvmTranslate_eq s.mem satp va
  have hun := uvmUnmap_eq satp va s
  rcases h.leafSlot_spec hA hsatp hsmall with ⟨t, ht, hslot, hleaf⟩ | ⟨hslot, hnone⟩
  · rw [hslot] at htr hun
    dsimp only at htr hun
    have hva : Canonical va := hseen.canonical.resolve_right fun hn =>
      hn _ List.suffix_rfl ⟨_, hleaf⟩
    have hacc := hseen.accepted _ hleaf
    have hhit : sv39 s.mem root va = some ⟨s.mem (t + 8 * vpn va 12) / 1024 * 4096 + va % 4096,
        s.mem (t + 8 * vpn va 12) % 1024⟩ := by
      rw [sv39, if_pos hva]
      exact h.sv39Level_leaf hA hL hacc (m := 0) hleaf (Nat.zero_le 2) le_rfl rfl
    have hnz := hseen.nonzero _ hleaf
    rw [tableOf_or hacc.small] at htr
    have hphys : tableOf (s.mem (t + 8 * vpn va 12)) = s.mem (t + 8 * vpn va 12) / 1024 * 4096 := by
      rw [tableOf_eq]
      have := hacc.small
      omega
    rw [hphys, ← htr] at hnz
    obtain ⟨hgone, hothers⟩ := h.unmap_spec hA hL ht hva hleaf rfl
    refine ⟨fun hit hh => ?_, ?_, ?_, fun _ a ha => ?_, fun a ha => ?_, ?_⟩
    · rw [hhit] at hh
      rw [htr, ← Option.some.inj hh]
    · rw [hhit]
      exact iff_of_false hnz (by simp)
    · rw [hun, hhit]
      exact iff_of_true rfl (by simp)
    · rw [hun]
      exact hgone a ha
    · rw [hun]
      exact hothers a ha
    · rw [hun]
      exact ⟨[t + 8 * vpn va 12], rfl, fun x hx => List.mem_singleton.mp hx ▸
        ⟨_, t, _, trail_indices va, ht, rfl⟩⟩
  · rw [hslot] at htr hun
    dsimp only at htr hun
    have hfault : sv39 s.mem root va = none := h.sv39_none hA hL fun _ => hnone
    refine ⟨fun hit hh => ?_, iff_of_true htr hfault, ?_, fun hne => absurd hfault hne,
      fun a _ => ?_, ?_⟩
    · rw [hfault] at hh
      exact absurd hh (by simp)
    · rw [hun]
      exact iff_of_false (by simp) (not_not.mpr hfault)
    · rw [hun]
    · rw [hun]
      exact ⟨[], rfl, by simp⟩

/-- And only if. -/
theorem Tree.seen_of_walkersAgree (hA : A.Grants Owns) (h : Tree Owns root s L) (hL : Low L)
    (hsatp : satpTable satp = root) (hsmall : Small root s va)
    (hagree : WalkersAgree root satp va s) : Seen root s va := by
  have htr := uvmTranslate_eq s.mem satp va
  have hun := uvmUnmap_eq satp va s
  rcases h.leafSlot_spec hA hsatp hsmall with ⟨t, ht, hslot, hleaf⟩ | ⟨_, hnone⟩
  · rw [hslot] at htr hun
    dsimp only at htr hun
    have hne : sv39 s.mem root va ≠ none := by
      apply hagree.unmap.mp
      rw [hun]
    have hcan : Canonical va := by
      by_contra hcan
      exact hne (if_neg hcan)
    have hacc : Accepted 0 (s.mem (t + 8 * vpn va 12)) := by
      rw [sv39, if_pos hcan, h.sv39Level_descend hA hL (m := 0) (Nat.zero_le 2) le_rfl rfl ht]
        at hne
      refine accepted_of_sv39Level ?_ hne
      rw [← List.head_eq_of_cons_eq (drop_indices va 0 (by decide))]
      rfl
    have hnz : tableOf (s.mem (t + 8 * vpn va 12)) + va % 4096 ≠ 0 := by
      intro h0
      refine hne (hagree.fault.mp ?_)
      have hmask : va &&& 0xFFF = va % 4096 := Nat.and_two_pow_sub_one_eq_mod va 12
      obtain ⟨h1, h2⟩ := Nat.add_eq_zero_iff.mp h0
      rw [htr, hmask, h1, h2]
      rfl
    refine ⟨Or.inl hcan, fun e he => ?_, fun e he => ?_⟩
    · rw [← (hleaf.unique he List.suffix_rfl List.suffix_rfl).2]
      exact hacc
    · rw [← (hleaf.unique he List.suffix_rfl List.suffix_rfl).2]
      exact hnz
  · refine ⟨Or.inr hnone, fun e he => ?_, fun e he => ?_⟩
    · exact absurd ⟨e, he⟩ (hnone _ List.suffix_rfl)
    · exact absurd ⟨e, he⟩ (hnone _ List.suffix_rfl)

/-- On a table that `create_user_table` has made and calls have added to, each of which met no
larger leaf, the walkers agree with the hardware at the addresses below no leaf larger than a
page exactly where they see what it sees. -/
theorem walkersAgree_of_run (hA : A.Grants Owns) (hlow : ∀ b L, Owns b L → Low L)
    {s₀ s₁ : Space β} (h : Owns s₀.pages L) {trampoline kstack : Nat} (ht : trampoline < 2 ^ 64)
    (hk : kstack < 2 ^ 64) (hcreate : createUserTable A trampoline kstack s₀ = .done root s₁)
    {g : List (Space β × MapCall)} (hr : Run (step A root) s₁ g s)
    (hP : Run.Steps (Shallow root) g) (hsmall : Small root s va) :
    WalkersAgree root (satpOf root) va s ↔ Seen root s va := by
  obtain ⟨L₁, hcreated, _⟩ := createUserTable_spec hA h ht hk hcreate
  obtain ⟨L', hbuilt⟩ := hcreated.toBuilt.onRun hA hr hP
  have hL := hlow _ _ hbuilt.owns
  have hroot := hbuilt.held [] root (fun _ h => absurd h List.not_mem_nil) rfl
  have hsatp := satpTable_satpOf ((hA.blocks hbuilt.owns).page _ hroot).1 (hL _ hroot)
  exact ⟨hbuilt.toTree.seen_of_walkersAgree hA hL hsatp hsmall,
    hbuilt.toTree.walkersAgree hA hL hsatp hsmall⟩

/-- A page for users at 0x1000, to read and to write. -/
def dataCall : MapCall := ⟨true, 0x1000, 0x80600000, 4096, 6⟩

/-- On the board, at a page that is mapped into a new table. -/
theorem walkersAgree_of_run_virt : ∃ (root : Nat) (s₀ s₁ s : Space State),
    createUserTable (buddy virt 0) 0x80200000 0x80A00000 s₀ = .done root s₁ ∧
    Run (step (buddy virt 0) root) s₁ [(s₁, dataCall)] s ∧
    WalkersAgree root (satpOf root) 0x1000 s := by
  have hA := buddy_grants 0 virt_machine virt_fits
  obtain ⟨root, s₀, s₁, L, howns, _, hcreate, hroom⟩ := createUserTable_virt 0 0x80200000
    0x80A00000 (by decide) (by decide)
  obtain ⟨_, hcreated, _⟩ := createUserTable_spec hA howns (by decide) (by decide) hcreate
  have hlen : dataCall.len = 4096 := MapCall.len_of_page rfl
  have hproper : dataCall.Proper := ⟨by decide, by decide, by decide⟩
  have hstart : dataCall.start = 0x1000 := by decide
  have hfree : ¬ s₁.Mapped root (indices dataCall.start) := by
    rintro ⟨f, hf⟩
    rw [hstart] at hf
    rcases (hcreated.leaf _ f).mp hf with ⟨he, _⟩ | ⟨he, _⟩
    · exact absurd he (by decide)
    · exact absurd he (by decide)
  obtain ⟨new, s, L', hexec, hret, _⟩ := hcreated.fine.returns hA hcreated.toBuilt hproper hlen
    (hroom.mono (by decide)) hfree
  have hrun : Run (step (buddy virt 0) root) s₁ [(s₁, dataCall)] s :=
    .snoc .nil (step_eq_some.mpr hexec)
  have hsmall := (hcreated.fine.onStep hlen hret).small 0x1000
  have hleaf : ∀ e, s.Leaf root (indices 0x1000) e → e = leafPte 0x10 6 0x80600000 := by
    intro e he
    rcases (hret.leaf _ e).mp he with he | ⟨x, hx, -, rfl⟩
    · exact absurd ⟨e, hstart ▸ he⟩ hfree
    · rw [MapCall.pieces_of_page hlen, List.mem_singleton] at hx
      rw [hx]
      decide
  refine ⟨root, s₀, s₁, s, hcreate, hrun, (walkersAgree_of_run hA virt_low howns (by decide)
    (by decide) hcreate hrun (Run.steps_cons.mpr ⟨?_, Run.Steps.nil⟩) hsmall).mpr
    ⟨Or.inl (by decide), fun e he => ?_, fun e he => ?_⟩⟩
  · exact hcreated.fine.shallow hproper hlen
  · rw [hleaf e he]
    exact ⟨by decide, by decide, by decide, by decide, by decide⟩
  · rw [hleaf e he]
    decide

/-! ## An address below a 2 MiB leaf -/

/-- With 2 MiB mapped at address 0 of a new table, the hardware translates address 0 and
`uvm_translate` takes the frame for a table and finds nothing. -/
theorem megaCall_not_translated : ∃ (root : Nat) (s₀ s₁ s : Space State),
    createUserTable (buddy virt 0) 0x80200000 0x80A00000 s₀ = .done root s₁ ∧
    Run (step (buddy virt 0) root) s₁ [(s₁, megaCall)] s ∧ Shallow root s₁ megaCall ∧
    sv39 s.mem root 0 = some ⟨0x80600000, 0xD7⟩ ∧ uvmTranslate s.mem (satpOf root) 0 = 0 ∧
    ¬ WalkersAgree root (satpOf root) 0 s := by
  have hA := buddy_grants 0 virt_machine virt_fits
  obtain ⟨root, s₀, s₁, L₀, howns, hzero, hrun, hroom⟩ := createUserTable_virt 0 0x80200000
    0x80A00000 (by decide) (by decide)
  obtain ⟨L₁, hcreated, hframe⟩ := createUserTable_spec hA howns (by decide) (by decide) hrun
  have hfree : ∀ x ∈ megaCall.pieces, ∀ q, s₁.Mapped root q → ¬ q <:+ x.path ∧ ¬ x.path <:+ q := by
    rintro x hx q ⟨f, hq⟩
    rw [megaCall_pieces, List.mem_singleton] at hx
    subst hx
    rcases (hcreated.leaf q f).mp hq with ⟨rfl, _⟩ | ⟨rfl, _⟩
    · decide
    · decide
  have hown : megaCall.pieces.Pairwise fun x y => ¬ x.path <:+ y.path ∧ ¬ y.path <:+ x.path := by
    rw [megaCall_pieces]
    exact List.pairwise_singleton _ _
  have hneed : ∀ x ∈ megaCall.pieces, ∀ q, q <:+ x.path → q ≠ x.path → q ≠ [] →
      s₁.table root q ≠ none ∨ q ∈ ({[0]} : Finset (List Nat)) := by
    intro x hx q hq hne hnil
    rw [megaCall_pieces, List.mem_singleton] at hx
    subst hx
    rcases List.suffix_cons_iff.mp hq with he | hq
    · exact absurd he hne
    · rcases List.suffix_cons_iff.mp hq with he | hq
      · exact Or.inr (Finset.mem_singleton.mpr he)
      · exact absurd (List.suffix_nil.mp hq) hnil
  obtain ⟨new, s, L, hmega, hret, _⟩ := hcreated.toBuilt.returns hA megaCall_proper
    (hroom.mono (by decide)) hneed hfree hown
  have hL := virt_low _ _ hret.built.owns
  have hleaf : s.Leaf root [0, 0] (leafPte 0x10 6 0x80600000) := by
    refine (hret.leaf _ _).mpr (Or.inr ⟨⟨1, 0, 0x80600000⟩, ?_, rfl, rfl⟩)
    rw [megaCall_pieces]
    exact List.mem_singleton_self _
  have hhit : sv39 s.mem root 0 = some ⟨0x80600000, 0xD7⟩ := by
    have h : sv39 s.mem root 0 = some ⟨0x80600000 + 0 % 0x200000, leafFlags 0x10 6⟩ :=
      hret.built.sv39_leaf hA hL (x := ⟨1, 0, 0x80600000⟩) (Or.inr rfl) (by decide) (by decide)
        (by decide) (by decide) hleaf (by decide) ⟨[0], rfl⟩
    exact h
  have hmem : s.mem 0x80600000 = 0 := by
    have hout : ¬ s.OnTable root 0x80600000 := by
      rintro ⟨p, t, i, hp, ht, he⟩
      obtain ⟨_, hp⟩ := trail_cons.mp hp
      have hlow := (virt_grant_bounds hret.built.owns (hret.built.held p t hp ht)).1
      simp only at hlow
      omega
    rw [hret.grew.frame _ hout, hframe _ fun hon => hout (hret.grew.onTable hon), hzero]
  -- the walker goes down to the leaf and from there into the frame
  have htr : uvmTranslate s.mem (satpOf root) 0 = 0 := by
    obtain ⟨i, p, t, he, ht, hcell⟩ := hleaf.exists_table
    obtain ⟨rfl, rfl⟩ := List.cons.inj he
    obtain ⟨r, hr, hlink⟩ := table_cons.mp ht
    obtain rfl := Option.some.inj hr
    have hroot := hret.built.held [] root (fun _ h => absurd h List.not_mem_nil) rfl
    have hsatp : satpTable (satpOf root) = root :=
      satpTable_satpOf ((hA.blocks hret.built.owns).page _ hroot).1 (hL _ hroot)
    have h2 : entryAt root (vpn 0 30) = root + 8 * 0 :=
      hret.built.entryAt_table hA (trail_cons.mp hleaf.path).2 rfl
    have h1 : entryAt t (vpn 0 21) = t + 8 * 0 := hret.built.entryAt_table hA hleaf.path ht
    obtain ⟨⟨hvalid, _⟩, ht'⟩ := link_eq_some.mp hlink
    have hv : s.mem (root + 8 * 0) &&& 0x1 ≠ 0 := hvalid
    have htab : tableOf (s.mem (root + 8 * 0)) = t := ht'
    have hc : s.mem (t + 8 * 0) = leafPte 0x10 6 0x80600000 := hcell
    have hlv0 : entryAt (tableOf (leafPte 0x10 6 0x80600000)) (vpn 0 12) = 0x80600000 := by decide
    unfold uvmTranslate
    dsimp only
    rw [hsatp, h2, if_neg hv, htab, h1, hc, if_neg (by decide), hlv0, hmem]
    rfl
  refine ⟨root, s₀, s₁, s, hrun, .snoc .nil (step_eq_some.mpr hmega), ⟨megaCall_proper, ?_⟩, hhit,
    htr, fun hagree => ?_⟩
  · apply passable_of_apart (fun _ _ _ _ _ _ => trivial)
    · intro p hp q hq
      obtain ⟨x, hx, rfl⟩ := List.mem_map.mp hp
      exact (hfree x hx q hq).1
    · exact List.pairwise_map.mpr (hown.imp fun h => h.1)
  · have h := hagree.fault.mp htr
    rw [hhit] at h
    exact absurd h (by simp)

end RexOS.Paging
