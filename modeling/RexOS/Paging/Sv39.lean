import RexOS.Paging.Calls

/-!
# The walk of the hardware

The translation of an address by the three-level scheme Sv39, and what it is on tables that
the map routines have built: the leaf above the indices of a canonical address decides.
-/

namespace RexOS.Paging

open Bits RexOS.Kalloc Radix

/-- A physical address with the flags of the leaf that gave it. -/
structure Hit where
  phys : Nat
  flags : Nat
  deriving DecidableEq

/-- The bits above the 39 that are translated repeat the highest of these. -/
def Canonical (va : Nat) : Prop := va < 2 ^ 38 ∨ (2 ^ 64 - 2 ^ 38 ≤ va ∧ va < 2 ^ 64)

instance (va : Nat) : Decidable (Canonical va) := inferInstanceAs (Decidable (_ ∨ _))

/-- The walk from a table of the given level on. -/
def sv39Level (mem : Nat → Nat) (va : Nat) : (level table : Nat) → Option Hit
  | level, table =>
    let pte := mem (table + 8 * (va / (4096 * 512 ^ level) % 512))
    if ¬ pte.testBit 0 then none
    -- writable but not readable is reserved, and so are the bits above the page number
    else if (¬ pte.testBit 1 ∧ pte.testBit 2) ∨ 2 ^ 54 ≤ pte then none
    else if pte.testBit 1 ∨ pte.testBit 3 then
      -- a leaf above level 0 must name an aligned frame
      if pte / 1024 % 512 ^ level ≠ 0 then none
      else some ⟨pte / 1024 * 4096 + va % (4096 * 512 ^ level), pte % 1024⟩
    else
      match level with
      | 0 => none
      -- U, A and D are reserved in a link
      | level + 1 => if pte &&& 0xD0 ≠ 0 then none else sv39Level mem va level (pte / 1024 * 4096)

/-- The walk from the root; `none` is a page fault. -/
def sv39 (mem : Nat → Nat) (root va : Nat) : Option Hit :=
  if Canonical va then sv39Level mem va 2 root else none

/-! ## One level -/

variable {mem : Nat → Nat} {va level t u : Nat}

/-- The index of an address at a level. -/
def index (va level : Nat) : Nat := va / (4096 * 512 ^ level) % 512

/-- An index is one of 512. -/
theorem index_lt (va level : Nat) : index va level < 512 := Nat.mod_lt _ (by decide)

/-- The walk goes from one index to the next. -/
theorem drop_indices (va level : Nat) (hl : level ≤ 2) :
    (indices va).drop level = index va level :: (indices va).drop (level + 1) := by
  match level, hl with
  | 0, _ => simp only [indices, vpn_eq, index, List.drop_zero, List.drop_succ_cons]; rfl
  | 1, _ => simp only [indices, vpn_eq, index, List.drop_zero, List.drop_succ_cons]; rfl
  | 2, _ => simp only [indices, vpn_eq, index, List.drop_zero, List.drop_succ_cons]; rfl

/-- An invalid entry ends it. -/
theorem sv39Level_invalid (h : ¬ Valid (cell mem t (index va level))) :
    sv39Level mem va level t = none := by
  have h0 : ¬ (cell mem t (index va level)).testBit 0 := by
    rw [valid_iff] at h
    simpa [Nat.testBit_zero] using h
  unfold sv39Level
  exact if_pos h0

/-- The flags of a hit are those of a word of memory. -/
theorem flags_of_sv39Level {hit : Hit} (h : sv39Level mem va level t = some hit) :
    ∃ a, hit.flags = mem a % 1024 := by
  induction level generalizing t with
  | zero =>
    rw [sv39Level] at h
    split_ifs at h
    obtain rfl := Option.some.inj h
    exact ⟨_, rfl⟩
  | succ level ih =>
    rw [sv39Level] at h
    split_ifs at h
    · obtain rfl := Option.some.inj h
      exact ⟨_, rfl⟩
    · exact ih h

/-- The flags of a hit are those of an entry. -/
theorem flags_of_sv39 {root : Nat} {hit : Hit} (h : sv39 mem root va = some hit) :
    ∃ a, hit.flags = mem a % 1024 := by
  rw [sv39] at h
  split at h
  · exact flags_of_sv39Level h
  · cases h

/-- A link leads on. -/
theorem sv39Level_link (hd : 4096 ∣ u) (hlt : u < 2 ^ 56)
    (h : cell mem t (index va (level + 1)) = linkPte u) :
    sv39Level mem va (level + 1) t = sv39Level mem va level u := by
  have h' : mem (t + 8 * (va / (4096 * 512 ^ (level + 1)) % 512)) = u / 4096 * 1024 + 1 :=
    h.trans (linkPte_eq u)
  have hmod : (u / 4096 * 1024 + 1) % 1024 = 1 := by omega
  have hbit : ∀ i < 10, (u / 4096 * 1024 + 1).testBit i = (1 : Nat).testBit i := by
    intro i hi
    rw [testBit_flags _ hi, hmod]
  have hand : (u / 4096 * 1024 + 1) &&& 0xD0 = 0 := by
    rw [and_flags _ (by decide), hmod]
    rfl
  have hsmall : ¬ 2 ^ 54 ≤ u / 4096 * 1024 + 1 := by omega
  have hnext : (u / 4096 * 1024 + 1) / 1024 * 4096 = u := by omega
  rw [sv39Level]
  simp only [h', hbit 0 (by decide), hbit 1 (by decide), hbit 2 (by decide), hbit 3 (by decide),
    hand, hsmall, hnext]
  rfl

/-- Physical addresses have 56 bits. -/
theorem phys_lt_of_sv39Level {hit : Hit} (hlevel : level ≤ 2)
    (h : sv39Level mem va level t = some hit) : hit.phys < 2 ^ 56 := by
  -- the offset in a frame does not carry into its number
  have hleaf : ∀ {l pte : Nat}, l ≤ 2 → pte < 2 ^ 54 → pte / 1024 % 512 ^ l = 0 →
      pte / 1024 * 4096 + va % (4096 * 512 ^ l) < 2 ^ 56 := by
    intro l pte hl hlt halign
    match l, hl with
    | 0, _ => omega
    | 1, _ => omega
    | 2, _ => omega
  induction level generalizing t with
  | zero =>
    rw [sv39Level] at h
    split_ifs at h with hv hres hl halign
    obtain rfl := Option.some.inj h
    exact hleaf (Nat.zero_le 2) (by omega) (not_not.mp halign)
  | succ level ih =>
    rw [sv39Level] at h
    split_ifs at h with hv hres hl halign hbits
    · obtain rfl := Option.some.inj h
      exact hleaf hlevel (by omega) (not_not.mp halign)
    · exact ih (by omega) h

/-- Where the walk comes to something its entries are valid. -/
theorem valid_of_sv39Level {hit : Hit} (h : sv39Level mem va level t = some hit) :
    Valid (cell mem t (index va level)) := by
  by_contra hv
  rw [sv39Level_invalid hv] at h
  exact absurd h (by simp)

/-- A walk goes on where the entry links to. -/
theorem sv39Level_of_link {hit : Hit} (h : sv39Level mem va (level + 1) t = some hit)
    (hl : link (cell mem t (index va (level + 1))) = some u) :
    sv39Level mem va level u = some hit ∧ 4096 ∣ u ∧ u < 2 ^ 56 := by
  obtain ⟨⟨_, hflags⟩, rfl⟩ := link_eq_some.mp hl
  have hcell : mem (t + 8 * (va / (4096 * 512 ^ (level + 1)) % 512)) =
      cell mem t (index va (level + 1)) := rfl
  rw [sv39Level] at h
  simp only [hcell] at h
  have hbit : ∀ i ∈ [1, 3], (cell mem t (index va (level + 1))).testBit i = false := by
    intro i hi
    have hmask : (0xE : Nat).testBit i = true := by
      rcases List.mem_pair.mp hi with rfl | rfl <;> decide
    have hand := congrArg (fun x => x.testBit i) hflags
    simpa only [Nat.testBit_and, hmask, Bool.and_true, Nat.zero_testBit] using hand
  split_ifs at h with hv hres hleaf halign hbits
  · simp [hbit] at hleaf
  · have hlt : cell mem t (index va (level + 1)) < 2 ^ 54 :=
      Nat.lt_of_not_le fun hge => hres (Or.inr hge)
    have htable : tableOf (cell mem t (index va (level + 1))) =
        cell mem t (index va (level + 1)) / 1024 * 4096 := by
      rw [tableOf_eq]
      omega
    rw [htable]
    exact ⟨h, ⟨_, Nat.mul_comm _ _⟩, by omega⟩

/-- A hit is one from the root, for a canonical address. -/
theorem sv39_eq_some {root : Nat} {hit : Hit} :
    sv39 mem root va = some hit ↔ Canonical va ∧ sv39Level mem va 2 root = some hit := by
  rw [sv39]
  split
  · exact (and_iff_right ‹_›).symm
  · exact iff_of_false (by simp) fun h => absurd h.1 ‹_›

/-- The permissions a leaf may have: W only with R, and R or X. -/
def leafPerms : List Nat := [2, 6, 8, 10, 14]

/-- The flags of a leaf with such permissions, for the kernel or for users. -/
theorem leafFlags_spec {user perm : Nat} (hu : user = 0 ∨ user = 0x10) (hp : perm ∈ leafPerms) :
    leafFlags user perm < 1024 ∧ (leafFlags user perm).testBit 0 = true ∧
    (¬ ((leafFlags user perm).testBit 1 = false ∧ (leafFlags user perm).testBit 2 = true)) ∧
    ((leafFlags user perm).testBit 1 = true ∨ (leafFlags user perm).testBit 3 = true) := by
  have hall : ∀ u ∈ [0, 0x10], ∀ p ∈ leafPerms, leafFlags u p < 1024 ∧
      (leafFlags u p).testBit 0 = true ∧
      (¬ ((leafFlags u p).testBit 1 = false ∧ (leafFlags u p).testBit 2 = true)) ∧
      ((leafFlags u p).testBit 1 = true ∨ (leafFlags u p).testBit 3 = true) := by decide
  exact hall user (by simpa using hu) perm hp

/-- The hardware takes the entry for a leaf at this level. -/
structure Accepted (level pte : Nat) : Prop where
  valid : pte.testBit 0 = true
  writable : pte.testBit 2 = true → pte.testBit 1 = true
  small : pte < 2 ^ 54
  leaf : pte.testBit 1 = true ∨ pte.testBit 3 = true
  aligned : pte / 1024 % 512 ^ level = 0

/-- A leaf ends the walk. -/
theorem sv39Level_leaf {e : Nat} (he : Accepted level e) (h : cell mem t (index va level) = e) :
    sv39Level mem va level t =
      some ⟨e / 1024 * 4096 + va % (4096 * 512 ^ level), e % 1024⟩ := by
  have h' : mem (t + 8 * (va / (4096 * 512 ^ level) % 512)) = e := h
  unfold sv39Level
  simp only [h', he.aligned, he.valid]
  rw [if_neg (by decide), if_neg, if_pos he.leaf, if_neg (by decide)]
  rintro (⟨h1, h2⟩ | hge)
  · exact h1 (he.writable h2)
  · have hlt := he.small
    omega

/-- At the last level an entry that is not accepted ends it in a fault. -/
theorem accepted_of_sv39Level {e : Nat} (h : cell mem t (index va 0) = e)
    (hne : sv39Level mem va 0 t ≠ none) : Accepted 0 e := by
  have h' : mem (t + 8 * (va / (4096 * 512 ^ 0) % 512)) = e := h
  rw [sv39Level] at hne
  simp only [h'] at hne
  split_ifs at hne with hv hres hleaf halign
  · exact absurd rfl hne
  · exact absurd rfl hne
  · refine ⟨hv, fun h2 => ?_, ?_, hleaf, Nat.mod_one _⟩
    · by_contra h1
      exact hres (Or.inl ⟨h1, h2⟩)
    · exact Nat.lt_of_not_le fun hge => hres (Or.inr hge)
  · exact absurd rfl hne
  · exact absurd rfl hne

/-- The leaf of a piece is accepted. -/
theorem accepted_leafPte {user perm pa : Nat} (hu : user = 0 ∨ user = 0x10)
    (hp : perm ∈ leafPerms) (hpa : pa < 2 ^ 56) (hd : 4096 * 512 ^ level ∣ pa) :
    Accepted level (leafPte user perm pa) ∧ leafPte user perm pa / 1024 * 4096 = pa ∧
      leafPte user perm pa % 1024 = leafFlags user perm := by
  obtain ⟨hlt, h0, hw, hleaf⟩ := leafFlags_spec hu hp
  rw [leafPte_eq hlt]
  have hmod : (pa / 4096 * 1024 + leafFlags user perm) % 1024 = leafFlags user perm := by omega
  have hdiv : (pa / 4096 * 1024 + leafFlags user perm) / 1024 = pa / 4096 := by omega
  have hsmall : pa / 4096 * 1024 + leafFlags user perm < 2 ^ 54 := by omega
  obtain ⟨hframe, halign⟩ : pa / 4096 * 4096 = pa ∧ pa / 4096 % 512 ^ level = 0 := by
    obtain ⟨k, rfl⟩ := hd
    rw [Nat.mul_assoc, Nat.mul_div_cancel_left _ (by decide), Nat.mul_mod_right, Nat.mul_comm]
    exact ⟨rfl, rfl⟩
  have hbit : ∀ i < 10, (pa / 4096 * 1024 + leafFlags user perm).testBit i =
      (leafFlags user perm).testBit i := by
    intro i hi
    rw [testBit_flags _ hi, hmod]
  refine ⟨⟨?_, fun h2 => ?_, hsmall, ?_, by rw [hdiv, halign]⟩, by rw [hdiv, hframe], hmod⟩
  · rw [hbit 0 (by decide), h0]
  · rw [hbit 2 (by decide)] at h2
    rw [hbit 1 (by decide)]
    by_contra h1
    exact hw ⟨Bool.eq_false_of_not_eq_true h1, h2⟩
  · rw [hbit 1 (by decide), hbit 3 (by decide)]
    exact hleaf

/-! ## The whole walk -/

variable {β : Type} {A : PageAlloc β} {Owns : β → List Grant → Prop} {root : Nat}
  {s : Space β} {L : List Grant}

/-- Tables lie where a link can name them. -/
def Low (L : List Grant) : Prop := ∀ g ∈ L, g.addr < 2 ^ 56

/-- The walk passes through the tables above the indices of `va`. -/
theorem Tree.sv39Level_descend (hA : A.Grants Owns) (h : Tree Owns root s L) (hL : Low L) {m : Nat}
    (hm : m ≤ level) (hl : level ≤ 2) (ht : s.table root ((indices va).drop (level + 1)) = some t)
    (hu : s.table root ((indices va).drop (m + 1)) = some u) :
    sv39Level s.mem va level t = sv39Level s.mem va m u := by
  induction level generalizing t with
  | zero =>
    obtain rfl : m = 0 := by omega
    rw [Option.some.inj (ht.symm.trans hu)]
  | succ level ih =>
    rcases Nat.lt_or_eq_of_le hm with hlt | rfl
    · -- the entry at this level leads on to the next table
      have hpath := (trail_indices va).suffix (List.drop_suffix (level + 1) _)
      have hsub : (indices va).drop (level + 1) <:+ (indices va).drop (m + 1) :=
        List.drop_suffix_drop_left _ (by omega)
      obtain ⟨w, hw⟩ := table_suffix hu hsub
      have hstep := hw
      rw [drop_indices va _ hl] at hstep hpath
      obtain ⟨t', ht', hlink⟩ := table_cons.mp hstep
      obtain rfl := Option.some.inj (ht.symm.trans ht')
      have hplain := h.plain _ _ _ _ hpath ht hlink
      rw [← drop_indices va _ hl] at hpath
      rw [sv39Level_link (h.page hA hpath hw).1 (hL _ (h.held _ _ hpath hw)) hplain]
      exact ih (by omega) (by omega) hw
    · rw [Option.some.inj (ht.symm.trans hu)]

/-- From a table above the indices of `va` the walk finds the leaf above them. -/
theorem Tree.sv39Level_leaf (hA : A.Grants Owns) (h : Tree Owns root s L) (hL : Low L)
    {e m : Nat} (he : Accepted m e) (hleaf : s.Leaf root ((indices va).drop m) e) (hm : m ≤ level)
    (hl : level ≤ 2) (ht : s.table root ((indices va).drop (level + 1)) = some t) :
    sv39Level s.mem va level t =
      some ⟨e / 1024 * 4096 + va % (4096 * 512 ^ m), e % 1024⟩ := by
  have hentry := hleaf.entry
  rw [drop_indices va m (by omega)] at hentry
  obtain ⟨u, hu, hcell⟩ := entry_cons.mp hentry
  rw [h.sv39Level_descend hA hL hm hl ht hu]
  exact Paging.sv39Level_leaf he hcell

/-- Without a leaf above the indices of `va` the walk faults. -/
theorem Tree.sv39Level_none (hA : A.Grants Owns) (h : Tree Owns root s L) (hL : Low L)
    (hnone : ∀ q, q <:+ indices va → ¬ s.Mapped root q) (hl : level ≤ 2)
    (ht : s.table root ((indices va).drop (level + 1)) = some t) :
    sv39Level s.mem va level t = none := by
  induction level generalizing t with
  | zero =>
    have hpath := (trail_indices va).suffix (List.drop_suffix 0 _)
    by_cases hv : Valid (cell s.mem t (index va 0))
    · have hdrop := drop_indices va 0 (by decide)
      rw [hdrop] at hpath
      rcases (valid_iff_taken hpath ht).mp hv with hleaf | hne
      · rw [← hdrop] at hleaf
        exact absurd hleaf (hnone _ (List.drop_suffix 0 _))
      · obtain ⟨u, hu⟩ := Option.ne_none_iff_exists'.mp hne
        have hlt := h.shape.depth _ _ hpath hu
        rw [← hdrop] at hlt
        exact absurd hlt (by simp [indices])
    · exact sv39Level_invalid hv
  | succ level ih =>
    have hpath := (trail_indices va).suffix (List.drop_suffix (level + 1) _)
    have hdrop := drop_indices va _ hl
    by_cases hv : Valid (cell s.mem t (index va (level + 1)))
    · rw [hdrop] at hpath
      rcases (valid_iff_taken hpath ht).mp hv with hleaf | hne
      · rw [← hdrop] at hleaf
        exact absurd hleaf (hnone _ (List.drop_suffix _ _))
      · obtain ⟨u, hu⟩ := Option.ne_none_iff_exists'.mp hne
        obtain ⟨t', ht', hlink⟩ := table_cons.mp hu
        obtain rfl := Option.some.inj (ht.symm.trans ht')
        have hplain := h.plain _ _ _ _ hpath ht hlink
        rw [sv39Level_link (h.page hA hpath hu).1 (hL _ (h.held _ _ hpath hu)) hplain]
        apply ih (by omega)
        rw [hdrop]
        exact hu
    · exact sv39Level_invalid hv

/-- The hardware gives what the leaf of a piece says at the addresses of the piece. -/
theorem Tree.sv39_leaf (hA : A.Grants Owns) (h : Tree Owns root s L) (hL : Low L) {x : Piece}
    {user perm : Nat} (hu : user = 0 ∨ user = 0x10) (hp : perm ∈ leafPerms)
    (hpa : x.pa < 2 ^ 56) (hd : x.span ∣ x.pa) (hl : x.level ≤ 2)
    (hleaf : s.Leaf root x.path (leafPte user perm x.pa)) (hva : Canonical va)
    (hsub : x.path <:+ indices va) :
    sv39 s.mem root va = some ⟨x.pa + va % x.span, leafFlags user perm⟩ := by
  rw [Piece.path, suffix_indices_iff.mp hsub] at hleaf
  obtain ⟨he, hframe, hflags⟩ := accepted_leafPte hu hp hpa hd
  rw [sv39, if_pos hva, h.sv39Level_leaf hA hL he hleaf hl le_rfl rfl, hframe, hflags]
  rfl

/-- It gives nothing at an address below no leaf. -/
theorem Tree.sv39_none (hA : A.Grants Owns) (h : Tree Owns root s L) (hL : Low L)
    (hnone : Canonical va → ∀ q, q <:+ indices va → ¬ s.Mapped root q) :
    sv39 s.mem root va = none := by
  rw [sv39]
  split
  · rename_i hva
    exact h.sv39Level_none hA hL (hnone hva) le_rfl rfl
  · rfl

/-- The walk reads the entries on the way of the address and no others. -/
theorem Space.sv39Level_congr {mem' : Nat → Nat}
    (hc : ∀ q u j, (j :: q) <:+ indices va → s.table root q = some u →
      cell mem' u j = cell s.mem u j) (hl : level ≤ 2)
    (ht : s.table root ((indices va).drop (level + 1)) = some t) :
    sv39Level mem' va level t = sv39Level s.mem va level t := by
  induction level generalizing t with
  | zero =>
    have hcell : mem' (t + 8 * (va / (4096 * 512 ^ 0) % 512)) =
        s.mem (t + 8 * (va / (4096 * 512 ^ 0) % 512)) :=
      hc _ t (index va 0) (drop_indices va 0 (by decide) ▸ List.drop_suffix 0 _) ht
    rw [sv39Level, sv39Level, hcell]
  | succ level ih =>
    have hsub : (index va (level + 1) :: (indices va).drop (level + 1 + 1)) <:+ indices va :=
      drop_indices va _ hl ▸ List.drop_suffix (level + 1) _
    have hcell : mem' (t + 8 * (va / (4096 * 512 ^ (level + 1)) % 512)) =
        s.mem (t + 8 * (va / (4096 * 512 ^ (level + 1)) % 512)) := hc _ t _ hsub ht
    rw [sv39Level, sv39Level, hcell]
    generalize he : s.mem (t + 8 * (va / (4096 * 512 ^ (level + 1)) % 512)) = e
    split_ifs with hv hres hleaf halign hbits <;> try rfl
    have h54 : e < 2 ^ 54 := Nat.lt_of_not_le fun hge => hres (Or.inr hge)
    have hperm : e &&& 0xE = 0 := by
      have h1 : e.testBit 1 = false := Bool.eq_false_of_not_eq_true fun h1 => hleaf (Or.inl h1)
      have h3 : e.testBit 3 = false := Bool.eq_false_of_not_eq_true fun h3 => hleaf (Or.inr h3)
      have h2 : e.testBit 2 = false := Bool.eq_false_of_not_eq_true fun h2 =>
        hres (Or.inl ⟨by simp [h1], h2⟩)
      apply Nat.eq_of_testBit_eq
      intro i
      rw [Nat.testBit_and, Nat.zero_testBit]
      match i with
      | 0 => simp
      | 1 => simp [h1]
      | 2 => simp [h2]
      | 3 => simp [h3]
      | i + 4 =>
        have h0 : Nat.testBit 0xE (i + 4) = false := Nat.testBit_lt_two_pow
          (lt_of_lt_of_le (by decide : 0xE < 2 ^ 4)
            (Nat.pow_le_pow_right (by decide) (Nat.le_add_left 4 i)))
        rw [h0, Bool.and_false]
    have hlink : link e = some (e / 1024 * 4096) := by
      refine link_eq_some.mpr ⟨⟨valid_iff.mpr ?_, hperm⟩, ?_⟩
      · simpa [Nat.testBit_zero] using hv
      · rw [tableOf_eq]
        omega
    apply ih (by omega)
    rw [drop_indices va _ hl]
    exact table_cons.mpr ⟨t, ht, he ▸ hlink⟩

end RexOS.Paging
