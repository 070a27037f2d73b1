import RexOS.Paging.Walkers

/-!
# Addresses in pages of 4 KiB

Where the hardware finds the leaf of a page behind two links, whatever else is in memory,
`uvm_translate` gives the same physical address. The addresses of one page lie in one frame.
-/

namespace RexOS.Paging

open Bits

variable {mem : Nat → Nat} {root satp va va' : Nat} {hit hit' : Hit}

/-- The hardware translates the address through a page of 4 KiB. -/
structure PageHit (mem : Nat → Nat) (root va : Nat) (hit : Hit) : Prop where
  walk : sv39 mem root va = some hit
  links : ∃ t₁ t₀, link (cell mem root (index va 2)) = some t₁ ∧
    link (cell mem t₁ (index va 1)) = some t₀

/-- The code and the manual number the levels alike. -/
theorem vpn_index (va : Nat) : vpn va 30 = index va 2 ∧ vpn va 21 = index va 1 ∧
    vpn va 12 = index va 0 :=
  ⟨vpn_eq va 30, vpn_eq va 21, vpn_eq va 12⟩

/-- At the last level the walk gives the frame of the entry. -/
theorem phys_of_sv39Level {t : Nat} (h : sv39Level mem va 0 t = some hit) :
    (cell mem t (index va 0)).testBit 0 = true ∧ cell mem t (index va 0) < 2 ^ 54 ∧
      hit = ⟨cell mem t (index va 0) / 1024 * 4096 + va % 4096,
        cell mem t (index va 0) % 1024⟩ := by
  have hacc : Accepted 0 (cell mem t (index va 0)) :=
    accepted_of_sv39Level rfl (h ▸ Option.some_ne_none hit)
  rw [sv39Level_leaf hacc rfl] at h
  exact ⟨hacc.valid, hacc.small, (Option.some.inj h).symm⟩

/-! ## Pages of any size -/

/-- Two addresses with the same page number lie in one frame of 4 KiB. -/
theorem phys_of_sv39Level_page {level t : Nat} (hpage : va' / 4096 = va / 4096)
    (h : sv39Level mem va level t = some hit) (h' : sv39Level mem va' level t = some hit') :
    hit'.phys + va % 4096 = hit.phys + va' % 4096 := by
  have hidx : ∀ l, va' / (4096 * 512 ^ l) = va / (4096 * 512 ^ l) := by
    intro l
    rw [← Nat.div_div_eq_div_mul, ← Nat.div_div_eq_div_mul, hpage]
  have hoff : ∀ l, va' % (4096 * 512 ^ l) + va % 4096 = va % (4096 * 512 ^ l) + va' % 4096 := by
    intro l
    rw [Nat.mod_mul, Nat.mod_mul, hpage]
    omega
  have hleaf : ∀ {l frame flags : Nat},
      some ⟨frame + va % (4096 * 512 ^ l), flags⟩ = some hit →
      some ⟨frame + va' % (4096 * 512 ^ l), flags⟩ = some hit' →
      hit'.phys + va % 4096 = hit.phys + va' % 4096 := by
    intro l frame flags h h'
    obtain rfl := Option.some.inj h
    obtain rfl := Option.some.inj h'
    have hl := hoff l
    dsimp only
    omega
  induction level generalizing t with
  | zero =>
    rw [sv39Level] at h h'
    rw [hidx] at h'
    split_ifs at h h'
    exact hleaf h h'
  | succ level ih =>
    rw [sv39Level] at h h'
    rw [hidx] at h'
    split_ifs at h h'
    · exact hleaf h h'
    · exact ih h h'

/-- Two addresses of a page are as far apart as their frames. -/
theorem phys_of_page (hpage : va' / 4096 = va / 4096) (h : sv39 mem root va = some hit)
    (h' : sv39 mem root va' = some hit') : hit'.phys + va % 4096 = hit.phys + va' % 4096 := by
  rw [sv39] at h h'
  split at h
  · split at h'
    · exact phys_of_sv39Level_page hpage h h'
    · cases h'
  · cases h

/-- A physical address has 56 bits. -/
theorem phys_lt_of_sv39 (h : sv39 mem root va = some hit) : hit.phys < 2 ^ 56 :=
  phys_lt_of_sv39Level le_rfl (sv39_eq_some.mp h).2

/-- The lowest bit makes an entry valid. -/
theorem valid_of_testBit {e : Nat} (h : e.testBit 0 = true) : e &&& 0x1 ≠ 0 := by
  have hv : Valid e := by
    rw [valid_iff]
    simpa [Nat.testBit_zero] using h
  exact hv

namespace PageHit

variable (h : PageHit mem root va hit)
include h

/-- An address that is translated is canonical. -/
theorem canonical : Canonical va := by
  by_contra hc
  have hw := h.walk
  rw [sv39, if_neg hc] at hw
  exact absurd hw (by simp)

/-- The three entries on the way. -/
theorem entries : ∃ t₁ t₀, link (cell mem root (index va 2)) = some t₁ ∧
    link (cell mem t₁ (index va 1)) = some t₀ ∧ (4096 ∣ t₁ ∧ t₁ < 2 ^ 56) ∧
      (4096 ∣ t₀ ∧ t₀ < 2 ^ 56) ∧
    sv39Level mem va 0 t₀ = some hit := by
  obtain ⟨t₁, t₀, hl₁, hl₀⟩ := h.links
  have hw := h.walk
  rw [sv39, if_pos h.canonical] at hw
  obtain ⟨hw₁, hd₁, hlt₁⟩ := sv39Level_of_link hw hl₁
  obtain ⟨hw₀, hd₀, hlt₀⟩ := sv39Level_of_link hw₁ hl₀
  exact ⟨t₁, t₀, hl₁, hl₀, ⟨hd₁, hlt₁⟩, ⟨hd₀, hlt₀⟩, hw₀⟩

/-- What it is translated to has 56 bits. -/
theorem phys_lt : hit.phys < 2 ^ 56 := by
  obtain ⟨t₁, t₀, -, -, -, -, hw⟩ := h.entries
  obtain ⟨-, hlt, rfl⟩ := phys_of_sv39Level hw
  dsimp only
  omega

/-- The offset in the page stays. -/
theorem phys_mod : hit.phys % 4096 = va % 4096 := by
  obtain ⟨t₁, t₀, -, -, -, -, hw⟩ := h.entries
  obtain ⟨-, -, rfl⟩ := phys_of_sv39Level hw
  dsimp only
  omega

/-- Two addresses in one page lie in one frame. -/
theorem frame_eq (h' : PageHit mem root va' hit') (he : va / 4096 = va' / 4096) :
    hit.phys / 4096 = hit'.phys / 4096 := by
  have hidx : ∀ l ≤ 2, index va l = index va' l := by
    intro l hl
    have hpage : ∀ a, index a l = a / 4096 / 512 ^ l % 512 := fun a => by
      rw [index, Nat.div_div_eq_div_mul]
    rw [hpage, hpage, he]
  obtain ⟨t₁, t₀, hl₁, hl₀, -, -, hw⟩ := h.entries
  obtain ⟨u₁, u₀, hm₁, hm₀, -, -, hw'⟩ := h'.entries
  rw [← hidx 2 le_rfl, hl₁] at hm₁
  obtain rfl := Option.some.inj hm₁
  rw [← hidx 1 (by decide), hl₀] at hm₀
  obtain rfl := Option.some.inj hm₀
  obtain ⟨-, -, rfl⟩ := phys_of_sv39Level hw
  obtain ⟨-, -, rfl⟩ := phys_of_sv39Level hw'
  rw [← hidx 0 (by decide)]
  dsimp only
  omega

end PageHit

/-- The kernel finds the page where the hardware does. -/
theorem PageHit.uvmTranslate (h : PageHit mem (satpTable satp) va hit) :
    uvmTranslate mem satp va = hit.phys := by
  obtain ⟨t₁, t₀, hl₁, hl₀, ⟨hd₁, hlt₁⟩, ⟨hd₀, hlt₀⟩, hw⟩ := h.entries
  obtain ⟨hv, hlt, rfl⟩ := phys_of_sv39Level hw
  obtain ⟨⟨hv₁, -⟩, ht₁⟩ := link_eq_some.mp hl₁
  obtain ⟨⟨hv₀, -⟩, ht₀⟩ := link_eq_some.mp hl₀
  obtain ⟨h2, h1, h0⟩ := vpn_index va
  have hroot : 4096 ∣ satpTable satp := by
    rw [satpTable, Nat.shiftLeft_eq]
    exact dvd_wrap (by decide) (Nat.dvd_mul_left _ _)
  have hslot : ∀ t, 4096 ∣ t → t < 2 ^ 64 → ∀ l, entryAt t (index va l) = t + 8 * index va l :=
    fun t hd ht l => entryAt_eq hd ht (index_lt va l)
  have hv₁ : mem (satpTable satp + 8 * index va 2) &&& 0x1 ≠ 0 := hv₁
  have ht₁ : tableOf (mem (satpTable satp + 8 * index va 2)) = t₁ := ht₁
  have hv₀ : mem (t₁ + 8 * index va 1) &&& 0x1 ≠ 0 := hv₀
  have ht₀ : tableOf (mem (t₁ + 8 * index va 1)) = t₀ := ht₀
  have hv : mem (t₀ + 8 * index va 0) &&& 0x1 ≠ 0 := valid_of_testBit hv
  unfold Paging.uvmTranslate
  dsimp only
  rw [h2, h1, h0, hslot _ hroot (wrap_lt _), if_neg hv₁, ht₁, hslot _ hd₁ (by omega),
    if_neg hv₀, ht₀, hslot _ hd₀ (by omega), if_neg hv]
  exact tableOf_or hlt va

end RexOS.Paging
