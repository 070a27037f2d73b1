import RexOS.Kalloc.Guarded
import RexOS.Loader.Frame
import RexOS.Loader.Shows
import RexOS.Paging.KernelSpace

/-!
# One process after the other

`kmain` makes the tables of the kernel and then its processes. With memory for all of them every
call returns, and what a call has made is left alone by the calls behind it.
-/

namespace RexOS.Loader

open Bits RexOS.Kalloc RexOS.Paging Radix

variable {β : Type} {A A' : PageAlloc β} {Owns : β → List Grant → Prop} {s s' : Space β}
  {L M : List Grant}

/-! ## Routines on a service that grants less often -/

section Under

variable (h : A'.Under A)
include h

/-- With an allocator that answers less often, each routine comes to its end less often. -/
theorem kallocBlock_under (order : Nat) (s : Space β) :
    (kallocBlock A' order s).Under (kallocBlock A order s) :=
  ((h s.pages order).within _).bind fun _ _ => .refl _

theorem kallocPage_under (s : Space β) : (kallocPage A' s).Under (kallocPage A s) :=
  ((h s.pages 0).within _).bind fun _ _ => .refl _

theorem ensureTable_under (code virAddr slot : Nat) (s : Space β) :
    (ensureTable A' code virAddr slot s).Under (ensureTable A code virAddr slot s) := by
  unfold ensureTable
  split
  · exact (kallocPage_under h s).bind fun _ _ => .refl _
  · exact .refl _

variable (user perm rootTable virAddr : Nat)

theorem mapMega_under (va pa : Nat) (s : Space β) :
    (mapMega A' user perm rootTable virAddr va pa s).Under
      (mapMega A user perm rootTable virAddr va pa s) :=
  (ensureTable_under h _ _ _ s).bind fun _ _ => .refl _

theorem mapPage_under (va pa : Nat) (s : Space β) :
    (mapPage A' user perm rootTable virAddr va pa s).Under
      (mapPage A user perm rootTable virAddr va pa s) :=
  (ensureTable_under h _ _ _ s).bind fun _ s => (ensureTable_under h _ _ _ s).bind fun _ _ =>
    .refl _

theorem mapLoop_under (fuel va pa size : Nat) (s : Space β) :
    (mapLoop A' user perm rootTable virAddr fuel va pa size s).Under
      (mapLoop A user perm rootTable virAddr fuel va pa size s) := by
  induction fuel generalizing va pa size s with
  | zero => exact .refl _
  | succ fuel ih =>
    rw [mapLoop, mapLoop]
    split
    · exact .refl _
    split
    · exact (Outcome.Under.refl _).bind fun _ _ => ih _ _ _ _
    split
    · exact (mapMega_under h _ _ _ _ _ _ s).bind fun _ _ => ih _ _ _ _
    · exact (mapPage_under h _ _ _ _ _ _ s).bind fun _ _ => ih _ _ _ _

theorem mapRange_under (physAddr size : Nat) (s : Space β) :
    (mapRange A' user rootTable virAddr physAddr size perm s).Under
      (mapRange A user rootTable virAddr physAddr size perm s) :=
  mapLoop_under h _ _ _ _ _ _ _ _ s

omit user perm virAddr

theorem mapAll_under (cs : List MapCall) (s : Space β) :
    (mapAll A' rootTable cs s).Under (mapAll A rootTable cs s) := by
  induction cs generalizing s with
  | nil => exact .refl _
  | cons c cs ih =>
    refine Outcome.Under.bind ?_ fun _ s => ih s
    unfold MapCall.exec
    split <;> exact mapRange_under h _ _ _ _ _ _ s

omit rootTable

theorem kvmInit_under (l : Layout) (s : Space β) : (kvmInit A' l s).Under (kvmInit A l s) := by
  refine (kallocPage_under h s).bind fun root s => ?_
  split
  · exact .refl _
  · exact (mapAll_under h _ _ _).bind fun _ _ => .refl _

theorem createUserTable_under (trampoline kstack : Nat) (s : Space β) :
    (createUserTable A' trampoline kstack s).Under (createUserTable A trampoline kstack s) :=
  (kallocPage_under h s).bind fun _ _ => (mapRange_under h _ _ _ _ _ _ _).bind fun _ s =>
    (mapRange_under h _ _ _ _ _ _ s).bind fun _ _ => .refl _

theorem loadSegment_under (binary : Nat → UInt8) (userTable : Nat) (ph : Phdr) (s : Space β) :
    (loadSegment A' binary userTable ph s).Under (loadSegment A binary userTable ph s) := by
  unfold loadSegment
  split
  · exact .refl _
  · exact (kallocBlock_under h _ s).bind fun _ _ => mapRange_under h _ _ _ _ _ _ _

theorem loadSegments_under (binary : Nat → UInt8) (userTable phentsize n ph : Nat) (s : Space β) :
    (loadSegments A' binary userTable phentsize n ph s).Under
      (loadSegments A binary userTable phentsize n ph s) := by
  induction n generalizing ph s with
  | zero => exact .refl _
  | succ n ih =>
    refine Outcome.Under.bind ?_ fun _ s => ih _ s
    split
    · exact loadSegment_under h _ _ _ s
    · exact .refl _

theorem finishProcess_under (binary : Nat → UInt8) (tf userTable : Nat) (s : Space β) :
    (finishProcess A' binary tf userTable s).Under (finishProcess A binary tf userTable s) :=
  (kallocBlock_under h _ _).bind fun _ _ => (mapRange_under h _ _ _ _ _ _ _).bind fun _ _ =>
    (kallocBlock_under h _ _).bind fun _ _ => .refl _

theorem spawnProcess_under (site : Site) (binary : Nat → UInt8) (s : Space β) :
    (spawnProcess A' site binary s).Under (spawnProcess A site binary s) := by
  refine (kallocBlock_under h _ s).bind fun stack s => ?_
  split
  · exact .refl _
  refine (createUserTable_under h _ _ _).bind fun table s => ?_
  dsimp only
  split
  · exact .refl _
  · exact (loadSegments_under h _ _ _ _ _ _).bind fun _ _ => finishProcess_under h _ _ _ _

end Under

/-! ## What a process consists of -/

section Housed

variable {site : Site} {binary : Nat → UInt8} {m₀ : Nat → Nat} {root stack : Nat}

/-- U of the leaves of a call. -/
theorem testBit_flags_user {c : MapCall} (hc : c.Plain) : c.flags.testBit 4 = c.isUser := by
  have hall : ∀ q ∈ leafPerms, ∀ b : Bool,
      (0x41 + q + (if b then 0x10 else 0) + if q.testBit 2 then 0x80 else 0).testBit 4 = b := by
    decide
  exact hall c.perm hc.perm c.isUser

/-- The rights of the trampoline and of the kernel stack. -/
theorem flags_kernelPage (va pa : Nat) :
    (kernelPage va pa 8).flags = 0x49 ∧ (kernelPage va pa 6).flags = 0xC7 := by
  have hx : Nat.testBit 8 2 = false := by decide
  have hw : Nat.testBit 6 2 = true := by decide
  simp [MapCall.flags, kernelPage, hx, hw]

/-- An address that belongs to a process: in its tables, on its kernel stack, or within its reach in
user mode. -/
def Belongs (s : Space β) (root stack a : Nat) : Prop :=
  s.OnTable root a ∨ a ∈ (Grant.mk stack 0).extent ∨
    ∃ va hit, sv39 s.mem root va = some hit ∧ hit.flags.testBit 4 = true ∧ hit.phys = a

/-- What belongs to a process is found through its tables. -/
theorem belongs_agree (h : ∀ a, s.OnTable root a → s'.mem a = s.mem a) (a : Nat) :
    Belongs s' root stack a ↔ Belongs s root stack a := by
  rw [Belongs, Belongs, Space.onTable_agree h]
  simp only [Space.sv39_agree h]

/-- The block of the capability words of the process that was made last. -/
def capabilityBlock (s : Space β) : Grant := ⟨s.given.headD 0, 2⟩

/-- What a new process consists of, in the blocks of `M`, and what its table translates. -/
structure Housed (Owns : β → List Grant → Prop) (site : Site) (m₀ : Nat → Nat) (root stack : Nat)
    (s : Space β) (M : List Grant) : Prop where
  owns : Owns s.pages M
  untouched : ∀ a, s.mem a ≠ m₀ a → ∃ g ∈ M, a ∈ g.extent
  granted : 4096 ∣ stack ∧ ⟨stack, 0⟩ ∈ M
  satp : satpTable (satpOf root) = root
  code : ∀ a ∈ trampolinePage, sv39 s.mem root a =
    some ⟨site.userTrampoline / 4096 * 4096 + (a - 0x3FFFFFF000), 0x49⟩
  kstack : ∀ a ∈ Set.Ico 0x3FFFFFE000 0x3FFFFFF000, sv39 s.mem root a =
    some ⟨stack + (a - 0x3FFFFFE000), 0xC7⟩
  user : ∀ a hit, sv39 s.mem root a = some hit → hit.flags.testBit 4 = true →
    hit.phys < 2 ^ 64 ∧ ¬ s.OnTable root hit.phys ∧ hit.phys ∉ (Grant.mk stack 0).extent ∧
      ∃ g ∈ M, hit.phys ∈ g.extent
  tables : ∀ a, s.OnTable root a → a < 2 ^ 64 ∧ a ∉ (Grant.mk stack 0).extent ∧
    ∃ g ∈ M, a ∈ g.extent
  caps : capabilityBlock s ∈ M ∧ ∀ a, Belongs s root stack a → a ∉ (capabilityBlock s).extent

/-- The process lives in the blocks taken for it, and in none of the others. -/
theorem Spawned.housed (h : Spawned Owns site binary m₀ root stack s) (hA : A.Grants Owns)
    (hlow : ∀ b L, Owns b L → Low L) (hsep : Separate binary) :
    ∃ M, Housed Owns site m₀ root stack s M := by
  obtain ⟨m, m', R, L, cs, ustack, hl, hcs, hcall, haside⟩ := h.loaded
  obtain ⟨M, howns, hM, -⟩ := hl.tiled.owns
  have hstack : (⟨stack, 0⟩ : Grant) ∈ M := (hM _).mpr (Or.inl hl.stack_mem)
  have hd : 4096 ∣ stack := ((hA.blocks howns).page _ hstack).1
  have htr := hl.translates hA hlow (hsep.apart hcs hcall)
  have hreach : ∀ a hit, sv39 s.mem root a = some hit → hit.flags.testBit 4 = true →
      ∃ b ∈ kernelPages site.userTrampoline stack m m' ++ (cs ++ [ustack]),
        b.call.isUser = true ∧
          hit.phys ∈ Set.Ico b.call.physAddr (b.call.physAddr + b.call.size) := by
    intro a hit hhit hu
    by_cases hin : ∃ c ∈ (kernelPages site.userTrampoline stack m m' ++
        (cs ++ [ustack])).map Made.call, a ∈ c.range
    · obtain ⟨c, hc, ha⟩ := hin
      obtain ⟨b, hb, rfl⟩ := List.mem_map.mp hc
      obtain ⟨k, hk, -⟩ := hl.whole b hb
      rw [htr.inside _ hc a ha, Option.some_inj] at hhit
      subst hhit
      have ha : b.call.virAddr ≤ a ∧ a < b.call.virAddr + b.call.size := ha
      exact ⟨b, hb, (testBit_flags_user hk.toPlain).symm.trans hu, by dsimp only; omega,
        by dsimp only; omega⟩
    · rw [htr.outside a fun c hc ha => hin ⟨c, hc, ha⟩] at hhit
      cases hhit
  refine ⟨M, howns, fun a ha => ?_, ⟨hd, hstack⟩, hl.satpTable_eq hA hlow, fun a ha => ?_,
    fun a ha => ?_, fun a hit hhit hu => ?_, fun a ha => ?_, (hM _).mpr (Or.inl haside.taken),
    fun a ha hin => ?_⟩
  · obtain ⟨g, hg, hin⟩ := hl.untouched a ha
    exact ⟨g, (hM g).mpr hg, hin⟩
  · rw [htr.inside (kernelPage 0x3FFFFFF000 site.userTrampoline 8) (by simp [kernelPages]) a ha,
      (flags_kernelPage _ _).1, kernelPage]
  · rw [htr.inside (kernelPage 0x3FFFFFE000 stack 6) (by simp [kernelPages]) a ha,
      (flags_kernelPage _ _).2, kernelPage, Nat.div_mul_cancel hd]
  · obtain ⟨b, hb, huser, hext⟩ := hreach a hit hhit hu
    obtain ⟨k, hk, hR⟩ := hl.whole b hb
    have hapart := Set.disjoint_left.mp (hl.off_stack b hb huser)
    have hgrant := (hM _).mpr (Or.inl (hR huser))
    have hend := ((hA.blocks howns).page _ hgrant).2.2
    refine ⟨?_, ?_, fun hs => hapart hs hext, _, hgrant, ?_⟩ <;> rw [← extent_eq hk] at hext
    · exact lt_of_lt_of_le hext.2 hend
    · exact not_onTable_of_reserved (reserved_of_mem hA (hR huser)) hl.tiled.toTree hext
    · exact hext
  · have hout := fun hs => not_onTable_of_reserved (reserved_of_mem hA hl.stack_mem)
      hl.tiled.toTree hs ha
    obtain ⟨q, t, i, hq, hu, rfl⟩ := ha
    obtain ⟨hi, hq⟩ := trail_cons.mp hq
    have hend := (hl.tiled.toTree.page (reserving_grants hA) hq hu).2.2
    exact ⟨by omega, hout, _, (hM _).mpr (Or.inr (hl.tiled.held q t hq hu)), word_mem_page hi⟩
  · rcases ha with ha | ha | ⟨va, hit, hhit, hu, rfl⟩
    · exact not_onTable_of_reserved (reserved_of_mem hA haside.taken) hl.tiled.toTree hin ha
    · exact Set.disjoint_left.mp haside.stack ha hin
    · obtain ⟨b, hb, huser, hext⟩ := hreach va hit hhit hu
      exact Set.disjoint_left.mp (haside.mapped b hb huser) hin hext

/-- What belongs to a process lies in its blocks. -/
theorem Housed.belongs {M : List Grant} (h : Housed Owns site m₀ root stack s M) {a : Nat}
    (ha : Belongs s root stack a) : ∃ g ∈ M, a ∈ g.extent := by
  rcases ha with ha | ha | ⟨va, hit, hhit, hu, rfl⟩
  · exact (h.tables a ha).2.2
  · exact ⟨_, h.granted.2, ha⟩
  · exact (h.user va hit hhit hu).2.2.2

end Housed

/-! ## What is left alone -/

/-- From `s` on, nothing was written to the blocks `M`, which are now among `M'`. -/
structure Kept (M : List Grant) (s s' : Space β) (M' : List Grant) : Prop where
  grants : M ⊆ M'
  kept : ∀ g ∈ M, ∀ a ∈ g.extent, s'.mem a = s.mem a

/-- Nothing has been taken yet. -/
theorem Kept.refl (M : List Grant) (s : Space β) : Kept M s s M :=
  ⟨List.Subset.refl M, fun _ _ _ _ => rfl⟩

/-- What is kept twice is kept. -/
theorem Kept.trans {s₁ : Space β} {M₁ M' : List Grant} (h : Kept M s s₁ M₁)
    (h' : Kept M₁ s₁ s' M') : Kept M s s' M' where
  grants := List.Subset.trans h.grants h'.grants
  kept g hg a ha := (h'.kept g (h.grants hg) a ha).trans (h.kept g hg a ha)

/-- From `s` with ledger `M` on, nothing was written to the blocks of the ledger. -/
structure Later (Owns : β → List Grant → Prop) (M : List Grant) (s s' : Space β)
    (M' : List Grant) : Prop extends Kept M s s' M' where
  owns : Owns s'.pages M'

/-- Two calls, one after the other. -/
theorem Later.trans {s₁ : Space β} {M₁ M' : List Grant} (h : Later Owns M s s₁ M₁)
    (h' : Later Owns M₁ s₁ s' M') : Later Owns M s s' M' where
  toKept := h.toKept.trans h'.toKept
  owns := h'.owns

/-- A process that was made with the blocks of `M` on the ledger is as `spawn_process` has left it,
and what belongs to it lies in blocks on the ledger `M'` and in none of `M`. -/
def Stands (Owns : β → List Grant → Prop) (M : List Grant) (site : Site) (binary : Nat → UInt8)
    (root stack : Nat) (s : Space β) (M' : List Grant) : Prop :=
  ∃ R m₀ s₀, M ⊆ R ∧ Spawned (Reserving Owns R) site binary m₀ root stack s₀ ∧
    ∀ a, Belongs s₀ root stack a →
      s.mem a = s₀.mem a ∧ (∃ g ∈ M', a ∈ g.extent) ∧ ∀ g ∈ R, a ∉ g.extent

namespace Stands

variable {site : Site} {binary : Nat → UInt8} {root stack : Nat} {M' M₁ : List Grant}

/-- A process stands as long as its blocks are kept. -/
theorem later (h : Stands Owns M site binary root stack s M₁) (hl : Kept M₁ s s' M') :
    Stands Owns M site binary root stack s' M' := by
  obtain ⟨R, m₀, s₀, hR, hs, hwords⟩ := h
  refine ⟨R, m₀, s₀, hR, hs, fun a ha => ?_⟩
  obtain ⟨hword, ⟨g, hg, hin⟩, hout⟩ := hwords a ha
  exact ⟨(hl.kept g hg a hin).trans hword, ⟨g, hl.grants hg, hin⟩, hout⟩

/-- It stands beside fewer blocks than before as well. -/
theorem mono (h : Stands Owns M₁ site binary root stack s M') (hM : M ⊆ M₁) :
    Stands Owns M site binary root stack s M' := by
  obtain ⟨R, m₀, s₀, hR, hs, hwords⟩ := h
  exact ⟨R, m₀, s₀, List.Subset.trans hM hR, hs, hwords⟩

/-- What belongs to it lies in its own blocks and beside the earlier ones. -/
theorem belongs (h : Stands Owns M site binary root stack s M') {a : Nat}
    (ha : Belongs s root stack a) : (∃ g ∈ M', a ∈ g.extent) ∧ ∀ g ∈ M, a ∉ g.extent := by
  obtain ⟨R, m₀, s₀, hR, hs, hwords⟩ := h
  have hsame : ∀ b, s₀.OnTable root b → s.mem b = s₀.mem b :=
    fun b hb => (hwords b (Or.inl hb)).1
  obtain ⟨-, hin, hout⟩ := hwords a ((belongs_agree hsame a).mp ha)
  exact ⟨hin, fun g hg => hout g (hR hg)⟩

/-- What belongs to it is the same later. -/
theorem belongs_later (h : Stands Owns M site binary root stack s M₁)
    (hl : Kept M₁ s s' M') (a : Nat) :
    Belongs s' root stack a ↔ Belongs s root stack a := by
  refine belongs_agree (fun b hb => ?_) a
  obtain ⟨g, hg, hin⟩ := (h.belongs (Or.inl hb)).1
  exact hl.kept g hg b hin

end Stands

section Reserving

variable {R : List Grant}

/-- At the start every block is kept from the next call. -/
theorem reserving_all (h : Owns s.pages M) : Reserving Owns M s.pages [] :=
  ⟨M, h, by simp, by simp⟩

/-- Blocks that are kept do not change the alignment of others. -/
theorem reserving_aligned (hal : A.Aligned Owns) : A.Aligned (Reserving Owns R) := by
  rintro b L order a b' ⟨M, howns, -, -⟩ hrun
  exact hal howns hrun

/-- Nor how high they are. -/
theorem reserving_low (hlow : ∀ b L, Owns b L → Low L) (b : β) (L : List Grant)
    (h : Reserving Owns R b L) : Low L := by
  obtain ⟨M, howns, hM, -⟩ := h
  exact fun g hg => hlow _ _ howns g ((hM g).mpr (Or.inr hg))

end Reserving

section Spawn

variable (hA : A.Grants Owns) (hal : A.Aligned Owns) (hlow : ∀ b L, Owns b L → Low L)
include hA hal hlow

/-- A process is made from new blocks. -/
theorem spawnProcess_stands {site : Site} {binary : Nat → UInt8} {r : Option Nat}
    (ht : site.userTrampoline + 4096 ≤ 2 ^ 56) (helf : IsElf binary) (hsep : Separate binary)
    (howns : Owns s.pages M) (hrun : spawnProcess A site binary s = .done r s') :
    ∃ root stack M', r = some (satpOf root) ∧ Later Owns M s s' M' ∧
      Stands Owns M site binary root stack s' M' ∧ capabilityBlock s' ∈ M' ∧
      capabilityBlock s' ∉ M ∧ ∀ a, Belongs s' root stack a → a ∉ (capabilityBlock s').extent := by
  obtain ⟨root, stack, hr, hs⟩ := spawnProcess_spawned (reserving_grants hA) (reserving_aligned hal)
    (reserving_low hlow) ht helf hsep.usable (reserving_all howns) hrun
  obtain ⟨N, hh⟩ := hs.housed (reserving_grants hA) (reserving_low hlow) hsep
  have hnew : ∀ g ∈ M, ∀ g' ∈ N, ∀ a ∈ g.extent, a ∉ g'.extent := fun g hg g' hg' a ha =>
    Set.disjoint_left.mp (reserved_of_mem hA hg _ N hh.owns g' hg') ha
  obtain ⟨M', howns', hM', hne⟩ := hh.owns
  obtain ⟨hcaps, hoff⟩ := hh.caps
  refine ⟨root, stack, M', hr,
    ⟨⟨fun g hg => (hM' g).mpr (Or.inl hg), fun g hg a ha => ?_⟩, howns'⟩,
    ⟨M, s.mem, s', List.Subset.refl M, hs, fun a ha => ⟨rfl, ?_, fun g hg hin => ?_⟩⟩,
    (hM' _).mpr (Or.inr hcaps), fun hin => hne _ hin _ hcaps rfl, hoff⟩
  · by_contra hchanged
    obtain ⟨g', hg', hin⟩ := hh.untouched a hchanged
    exact hnew g hg g' hg' a ha hin
  · obtain ⟨g, hg, hin⟩ := hh.belongs ha
    exact ⟨g, (hM' g).mpr (Or.inr hg), hin⟩
  · obtain ⟨g', hg', hin'⟩ := hh.belongs ha
    exact hnew g hg g' hg' a hin hin'

/-- With enough memory it is made. -/
theorem Separate.spawns {site : Site} {binary : Nat → UInt8}
    (ht : site.userTrampoline + 4096 ≤ 2 ^ 56) (helf : IsElf binary) (hsep : Separate binary)
    (howns : Owns s.pages M) (hstock : A.Stock ((segments binary).length + 1)
      (tablePages (segments binary) + 9) s.pages) :
    ∃ satp s', spawnProcess A site binary s = .done (some satp) s' := by
  refine spawnProcess_returns hA hal hlow ht helf hsep.usable hsep.below howns hstock
    (fun qs cs hqs hcs => ?_) fun cs u hcs c hc => ?_
  · exact (hsep.apart_blocks hqs.sublist hcs).imp Shares.of_disjoint
  · obtain ⟨ph, hph, hp⟩ := exists_of_forall₂ hcs hc
    apply Shares.of_disjoint
    rw [hp.range_eq, ustackCall_range]
    exact hsep.stack ph hph

/-- With memory for it and for more, the memory for more is left. -/
theorem Separate.spawns_leaving {site : Site} {binary : Nat → UInt8} {n m : Nat}
    (ht : site.userTrampoline + 4096 ≤ 2 ^ 56) (helf : IsElf binary) (hsep : Separate binary)
    (howns : Owns s.pages M) (hstock : A.Stock ((segments binary).length + 1 + n)
      (tablePages (segments binary) + 9 + m) s.pages) :
    ∃ satp s', spawnProcess A site binary s = .done (some satp) s' ∧ A.Stock n m s'.pages := by
  let P := A.Stock n m
  have hA' := hA.guarded (P := P)
  have hstock' : (A.guarded P).Stock ((segments binary).length + 1)
      (tablePages (segments binary) + 9) s.pages := PageAlloc.Stock.guarded hstock
  have howns' : Owns s.pages M ∧ P s.pages :=
    ⟨howns, hstock.mono (Nat.le_add_left _ _) (Nat.le_add_left _ _)⟩
  have hlow' : ∀ b L, Owns b L ∧ P b → Low L := fun b L h => hlow b L h.1
  obtain ⟨satp, s', hrun⟩ := hsep.spawns hA' hal.guarded hlow' (s := s) ht helf howns' hstock'
  obtain ⟨-, -, M', -, hlater, -⟩ :=
    spawnProcess_stands hA' hal.guarded hlow' ht helf hsep howns' hrun
  exact ⟨satp, s', spawnProcess_under (A.guarded_under P) _ _ _ _ _ hrun, hlater.owns.2⟩

end Spawn

/-! ## The processes of `kmain` -/

/-- A call of `spawn_process`: what it knows of the kernel, and an image. -/
abbrev Launch := Site × (Nat → UInt8)

/-- Images that `spawn_process` takes as they are. -/
def Launch.Good (x : Launch) : Prop :=
  x.1.userTrampoline + 4096 ≤ 2 ^ 56 ∧ IsElf x.2 ∧ Separate x.2

/-- The calls one after the other, from the kernel stack on: their `struct process` is not asked for
here. -/
def spawnAll (A : PageAlloc β) : List Launch → Space β → Outcome (Space β) (List (Option Nat))
  | [], s => .done [] s
  | x :: xs, s => (spawnProcess A x.1 x.2 s).bind fun r s =>
      (spawnAll A xs s).bind fun rs s => .done (r :: rs) s

/-- The blocks and the single pages that the calls need at most. -/
def blocksOf (xs : List Launch) : Nat := (xs.map fun x => (segments x.2).length + 1).sum
def pagesOf (xs : List Launch) : Nat := (xs.map fun x => tablePages (segments x.2) + 9).sum

section Series

variable (hA : A.Grants Owns) (hal : A.Aligned Owns) (hlow : ∀ b L, Owns b L → Low L)
  {xs : List Launch}
include hA hal hlow

/-- After the calls every process is as it was made. -/
theorem spawnAll_stands (hx : ∀ x ∈ xs, Launch.Good x) (howns : Owns s.pages M)
    {rs : List (Option Nat)} (hrun : spawnAll A xs s = .done rs s') :
    ∃ (M' : List Grant) (qs : List (Nat × Nat)), Later Owns M s s' M' ∧
      rs = qs.map (fun q => some (satpOf q.1)) ∧
      List.Forall₂ (fun x q => Stands Owns M x.1 x.2 q.1 q.2 s' M') xs qs ∧
      qs.Pairwise fun q q' => ∀ a, Belongs s' q.1 q.2 a → ¬ Belongs s' q'.1 q'.2 a := by
  induction xs generalizing s M rs with
  | nil =>
    obtain ⟨rfl, rfl⟩ := Outcome.done.inj hrun
    exact ⟨M, [], ⟨.refl M s, howns⟩, rfl, .nil, .nil⟩
  | cons x xs ih =>
    obtain ⟨r, s₁, hfirst, hrest⟩ := Outcome.bind_eq_done.mp hrun
    obtain ⟨rs', s₂, htail, hend⟩ := Outcome.bind_eq_done.mp hrest
    obtain ⟨rfl, rfl⟩ := Outcome.done.inj hend
    obtain ⟨ht, helf, hsep⟩ := hx x List.mem_cons_self
    obtain ⟨root, stack, M₁, hr, hlater, hstands, -⟩ :=
      spawnProcess_stands hA hal hlow ht helf hsep howns hfirst
    obtain ⟨M', qs, hlater', rfl, hall, hpair⟩ :=
      ih (fun y hy => hx y (List.mem_cons_of_mem _ hy)) hlater.owns htail
    refine ⟨M', (root, stack) :: qs, hlater.trans hlater', by rw [hr, List.map_cons],
      .cons (hstands.later hlater'.toKept) (hall.imp fun y q h => h.mono hlater.grants),
      List.pairwise_cons.mpr ⟨fun q hq a ha hb => ?_, hpair⟩⟩
    obtain ⟨i, rfl⟩ := List.get_of_mem hq
    have hy := hall.get (by rw [hall.length_eq]; exact i.isLt) i.isLt
    obtain ⟨⟨g, hg, hin⟩, -⟩ := hstands.belongs ((hstands.belongs_later hlater'.toKept a).mp ha)
    exact (Stands.belongs hy hb).2 g hg hin

/-- Processes are isolated: no address belongs to two of them, be it in their tables, on their
kernel stacks or within their reach in user mode, and none that belongs to one was granted
before. -/
theorem spawnAll_isolated (hx : ∀ x ∈ xs, Launch.Good x) (howns : Owns s.pages M)
    {rs : List (Option Nat)} (hrun : spawnAll A xs s = .done rs s') :
    ∃ qs : List (Nat × Nat), rs = qs.map (fun q => some (satpOf q.1)) ∧
      (qs.Pairwise fun q q' => ∀ a, Belongs s' q.1 q.2 a → ¬ Belongs s' q'.1 q'.2 a) ∧
      ∀ q ∈ qs, ∀ a, Belongs s' q.1 q.2 a → ∀ g ∈ M, a ∉ g.extent := by
  obtain ⟨M', qs, -, hr, hall, hpair⟩ := spawnAll_stands hA hal hlow hx howns hrun
  refine ⟨qs, hr, hpair, fun q hq a ha => ?_⟩
  obtain ⟨i, rfl⟩ := List.get_of_mem hq
  have hs := hall.get (by rw [hall.length_eq]; exact i.isLt) i.isLt
  exact (Stands.belongs hs ha).2

/-- With memory for all of them every call returns. -/
theorem spawnAll_returns (hx : ∀ x ∈ xs, Launch.Good x) (howns : Owns s.pages M)
    (hstock : A.Stock (blocksOf xs) (pagesOf xs) s.pages) :
    ∃ rs s', spawnAll A xs s = .done rs s' := by
  induction xs generalizing s M with
  | nil => exact ⟨[], s, rfl⟩
  | cons x xs ih =>
    obtain ⟨ht, helf, hsep⟩ := hx x List.mem_cons_self
    obtain ⟨satp, s₁, hrun, hstock₁⟩ :=
      hsep.spawns_leaving hA hal hlow (n := blocksOf xs) (m := pagesOf xs) ht helf howns hstock
    obtain ⟨-, -, M₁, -, hlater, -⟩ := spawnProcess_stands hA hal hlow ht helf hsep howns hrun
    obtain ⟨rs, s', hrest⟩ := ih (fun y hy => hx y (List.mem_cons_of_mem _ hy)) hlater.owns hstock₁
    refine ⟨some satp :: rs, s', ?_⟩
    rw [spawnAll, hrun, Outcome.bind_done, hrest, Outcome.bind_done]

end Series

/-- Two processes on the board. -/
theorem spawnAll_isolated_virt : ∃ (bd : State) (qs : List (Nat × Nat)) (s' : Space State),
    spawnAll (buddy virt 0) [(virtSite, image 1), (virtSite, image 1)] ⟨fun _ => 0, bd, [], []⟩ =
      .done (qs.map fun q => some (satpOf q.1)) s' ∧
    qs.Pairwise fun q q' => ∀ a, Belongs s' q.1 q.2 a → ¬ Belongs s' q'.1 q'.2 a := by
  obtain ⟨bd, howns, hstock⟩ := virt_stock 0
  have hA := tended_grants 0 virt_machine virt_fits
  have hal : (buddy virt 0).Aligned (Tended virt virtBssEnd) :=
    tended_aligned 0 virt_machine virt_blockAligned
  have hlow := tended_low virt_machine virt_fits (by decide)
  have hx : ∀ x ∈ [(virtSite, image 1), (virtSite, image 1)], Launch.Good x := by
    have hgood : Launch.Good (virtSite, image 1) :=
      ⟨by decide, image_one_orderly.elf, image_one_separate⟩
    simp [hgood]
  have hneed : blocksOf [(virtSite, image 1), (virtSite, image 1)] = 4 ∧
      pagesOf [(virtSite, image 1), (virtSite, image 1)] ≤ 2 ^ 11 := by
    simp only [blocksOf, pagesOf, List.map_cons, List.map_nil, segments_image_one]
    decide
  obtain ⟨rs, s', hrun⟩ := spawnAll_returns hA hal hlow (s := ⟨fun _ => 0, bd, [], []⟩) hx howns
    ((hstock 4 1 (by decide)).mono hneed.1.le (by simpa using hneed.2))
  obtain ⟨qs, rfl, hpair, -⟩ := spawnAll_isolated hA hal hlow hx howns hrun
  exact ⟨bd, qs, s', hrun, hpair⟩

end RexOS.Loader
