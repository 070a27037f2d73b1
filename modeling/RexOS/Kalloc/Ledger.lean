import Mathlib.Order.Interval.Set.Defs
import RexOS.Core.Runs
import RexOS.Kalloc.Init

/-!
# Runs of the allocator and the ledger of what is handed out

A configuration is the allocator's memory together with the grants its clients hold: an
address that `kalloc` returned and the order it was asked for. The ledger is kept from
the calls and their results alone; `Sound` ties it to the blocks of the invariant, and
one lemma for each call says how the free lists and the ledger move together.
-/

namespace RexOS.Kalloc

open Dyadic Bits

/-- A block handed out: the address returned and the order asked for. -/
@[ext]
structure Grant where
  addr : Nat
  order : Nat
  deriving DecidableEq, Repr

/-- The addresses of a block. -/
def Grant.extent (g : Grant) : Set Nat := Set.Ico g.addr (g.addr + 2 ^ g.order * 4096)

/-- The allocator and its clients. -/
structure Config where
  mem : State
  /-- The grants returned and not freed since, the last one first. -/
  live : List Grant

/-- A call of the allocator. -/
inductive Op where
  | alloc (order caller : Nat)
  | free (physAddr : Nat)

/-- A call that returns; a call that stops the machine has no next configuration. -/
def step (ram : Meta) (c : Config) : Op → Option Config
  | .alloc order caller =>
    match kalloc ram c.mem order caller with
    | .done addr t => some ⟨t, ⟨addr, order⟩ :: c.live⟩
    | _ => none
  | .free physAddr =>
    match kfree ram c.mem physAddr with
    | .done _ t => some ⟨t, c.live.filter fun g => g.addr != physAddr⟩
    | _ => none

/-- A configuration that `kalloc_init` returns in, from memory with any content. -/
def Boot (ram : Meta) (bssEnd : Nat) (c : Config) : Prop :=
  c.live = [] ∧ ∃ s : State, s.written = [] ∧ kallocInit ram bssEnd s = .done () c.mem

/-- Clients free only what they hold. -/
def FreesLive (c : Config) : Op → Prop
  | .alloc _ _ => True
  | .free physAddr => ∃ g ∈ c.live, g.addr = physAddr

/-- The blocks, as page indices, behind the grants. -/
def liveBlocks (ram : Meta) (live : List Grant) : Set Block :=
  {b | ∃ g ∈ live, b = ⟨pageIndex ram g.addr, g.order⟩}

variable {ram : Meta} {bssEnd : Nat} {c d : Config} {free : Nat → List Nat}

/-- An address whose low twelve bits are clear is a page address. -/
theorem and_page_eq_zero {a : Nat} : a &&& 0xFFF = 0 ↔ 4096 ∣ a := by
  rw [Nat.dvd_iff_mod_eq_zero]
  exact (Nat.and_two_pow_sub_one_eq_mod a 12) ▸ Iff.rfl

/-- A step that allocates is a `kalloc` that returns. -/
theorem step_alloc {order caller : Nat} :
    step ram c (.alloc order caller) = some d ↔
      ∃ addr, kalloc ram c.mem order caller = .done addr d.mem ∧
        d.live = ⟨addr, order⟩ :: c.live := by
  obtain ⟨t, l⟩ := d
  rw [step]
  cases kalloc ram c.mem order caller <;> simp only [reduceCtorEq, false_and, exists_false,
    Option.some.injEq, Config.mk.injEq, Outcome.done.injEq]
  constructor
  · rintro ⟨rfl, rfl⟩
    exact ⟨_, ⟨rfl, rfl⟩, rfl⟩
  · rintro ⟨_, ⟨rfl, rfl⟩, rfl⟩
    exact ⟨rfl, rfl⟩

/-- A `kalloc` that returns is a step. -/
theorem step_of_kalloc {order caller addr : Nat} {t : State}
    (h : kalloc ram c.mem order caller = .done addr t) :
    step ram c (.alloc order caller) = some ⟨t, ⟨addr, order⟩ :: c.live⟩ :=
  step_alloc.mpr ⟨_, h, rfl⟩

/-- A step that frees is a `kfree` that returns. -/
theorem step_free {physAddr : Nat} :
    step ram c (.free physAddr) = some d ↔
      kfree ram c.mem physAddr = .done () d.mem ∧
        d.live = c.live.filter fun g => g.addr != physAddr := by
  obtain ⟨t, l⟩ := d
  rw [step]
  cases kfree ram c.mem physAddr <;> simp [eq_comm]

/-- The invariant holds, with the blocks behind the ledger as the live ones. -/
structure Sound (ram : Meta) (bssEnd : Nat) (c : Config) (free : Nat → List Nat) : Prop where
  inv : Inv (poolLo ram bssEnd) (totalPages ram) c.mem free (liveBlocks ram c.live) ∅
  addr : ∀ g ∈ c.live, g.addr = ram.baseAddr + pageIndex ram g.addr * 4096
  distinct : (c.live.map Grant.addr).Nodup

namespace Sound

/-- A grant more is a block more. -/
theorem liveBlocks_cons {g : Grant} {live : List Grant} : liveBlocks ram (g :: live) =
    insert ⟨pageIndex ram g.addr, g.order⟩ (liveBlocks ram live) := by
  ext b
  simp [liveBlocks]

/-- The address of a grant fits a register. -/
theorem grant_lt (hm : Machine ram bssEnd) (h : Sound ram bssEnd c free) {g : Grant}
    (hg : g ∈ c.live) : g.addr < 2 ^ 64 := by
  rw [h.addr g hg]
  exact addr_lt hm (h.inv.live_lt ⟨g, hg, rfl⟩).2

/-- Two grants at one address are one grant. -/
theorem grant_unique (h : Sound ram bssEnd c free) {g g' : Grant} (hg : g ∈ c.live)
    (hg' : g' ∈ c.live) (he : g.addr = g'.addr) : g = g' :=
  List.inj_on_of_nodup_map h.distinct hg hg' he

/-- Grants with one first page are one grant. -/
theorem index_inj (h : Sound ram bssEnd c free) {g g' : Grant} (hg : g ∈ c.live)
    (hg' : g' ∈ c.live) (he : pageIndex ram g.addr = pageIndex ram g'.addr) : g = g' := by
  refine h.grant_unique hg hg' ?_
  rw [h.addr g hg, h.addr g' hg', he]

/-- Removing the grant at an address removes its block. -/
theorem liveBlocks_filter (h : Sound ram bssEnd c free) {g : Grant} (hg : g ∈ c.live) :
    liveBlocks ram (c.live.filter fun x => x.addr != g.addr) =
      liveBlocks ram c.live \ {⟨pageIndex ram g.addr, g.order⟩} := by
  ext b
  simp only [liveBlocks, List.mem_filter, bne_iff_ne, ne_eq, Set.mem_sdiff, Set.mem_ofPred_eq,
    Set.mem_singleton_iff]
  constructor
  · rintro ⟨x, ⟨hx, hne⟩, rfl⟩
    refine ⟨⟨x, hx, rfl⟩, fun he => hne ?_⟩
    rw [h.index_inj hx hg (Block.ext_iff.mp he).1]
  · rintro ⟨⟨x, hx, rfl⟩, hne⟩
    refine ⟨x, ⟨hx, fun he => hne ?_⟩, rfl⟩
    rw [h.grant_unique hx hg he]

/-- A grant is a block. -/
theorem live_block (ram : Meta) {g : Grant} (hg : g ∈ c.live) :
    (⟨pageIndex ram g.addr, g.order⟩ : Block) ∈ liveBlocks ram c.live := ⟨g, hg, rfl⟩

/-- The ledger and the lists after a `kalloc` that finds a block on list `k`. -/
theorem onAlloc {order k : Nat} (caller : Nat) (hm : Machine ram bssEnd)
    (h : Sound ram bssEnd c free) (hk : search c.mem order = some k) :
    ∃ idx rest t, idx = c.mem.freeLists k ∧ free k = idx :: rest ∧ order ≤ k ∧ k < maxOrder ∧
      kalloc ram c.mem order caller = .done (ram.baseAddr + idx * 4096) t ∧
      (∀ x, (t.pageArray x).flag = 1 → x = idx ∨ (c.mem.pageArray x).flag = 1) ∧
      Sound ram bssEnd ⟨t, ⟨ram.baseAddr + idx * 4096, order⟩ :: c.live⟩
        (allocLists free idx order k rest) := by
  obtain ⟨hok, hkm, _, _⟩ := search_eq_some.mp hk
  obtain ⟨rest, t, hrun, hfree, _, hflag, hinv⟩ :=
    kalloc_of_search ram caller h.inv (totalPages_le hm) hk
  have hin : c.mem.freeLists k ∈ free k := by rw [hfree]; exact List.mem_cons_self
  have hlt := (h.inv.listed_lt hkm hin).2
  have hidx := pageIndex_addr hm hlt
  refine ⟨_, rest, t, rfl, hfree, hok, hkm, ?_, hflag, ?_, ?_, ?_⟩
  · rw [hrun, wrap_of_lt (addr_lt hm hlt)]
  · rw [liveBlocks_cons]
    simpa only [hidx] using hinv
  · intro g hg
    rcases List.mem_cons.mp hg with rfl | hg
    · simp only [hidx]
    · exact h.addr g hg
  · rw [List.map_cons, List.nodup_cons]
    refine ⟨fun hmem => ?_, h.distinct⟩
    obtain ⟨g, hg, he⟩ := List.mem_map.mp hmem
    refine h.inv.live_not_listed (live_block ram hg) hkm ?_
    simp only [he, hidx]
    exact hin

/-- The ledger and the lists after a `kfree` of a grant. -/
theorem onFree {g : Grant} (hm : Machine ram bssEnd) (h : Sound ram bssEnd c free)
    (hg : g ∈ c.live) :
    ∃ t free' i' k', kfree ram c.mem g.addr = .done () (release t i' k') ∧
      Coalesced (poolLo ram bssEnd) (totalPages ram) c.mem free
        (liveBlocks ram c.live \ {⟨pageIndex ram g.addr, g.order⟩})
        (pageIndex ram g.addr) g.order t free' i' k' ∧
      Sound ram bssEnd ⟨release t i' k', c.live.filter fun x => x.addr != g.addr⟩
        (Function.update free' k' (i' :: free' k')) := by
  have hb := live_block ram hg
  have hlt := (h.inv.live_lt hb).2
  obtain ⟨hflag, horder, hlim⟩ := h.inv.alive _ hb
  simp only at hlt hflag horder hlim
  obtain ⟨t, free', i', k', hrun, hc⟩ := coalesce_spec (d := maxOrder - 1 - g.order)
    (h.inv.takeBack hb) (by simp only [hflag]; decide) (by omega)
  refine ⟨t, free', i', k', ?_, hc, ?_, ?_, ?_⟩
  · have hal : g.addr &&& 0xFFF = 0 := by
      rw [h.addr g hg, and_page_eq_zero]
      exact Nat.dvd_add hm.base_page (Nat.dvd_mul_left _ _)
    rw [kfree]
    simp only [hal, hflag, horder, hrun, ne_eq, not_true_eq_false, if_false, ge_iff_le,
      Nat.not_le.mpr hlt, Nat.one_ne_zero, OfNat.one_ne_ofNat]
  · rw [h.liveBlocks_filter hg]
    exact hc.inv.release (totalPages_le hm)
  · exact fun x hx => h.addr x (List.mem_filter.mp hx).1
  · exact h.distinct.sublist (List.filter_sublist.map _)

/-- A `kalloc` that returns has found a list. -/
theorem search_of_kalloc {order caller addr : Nat} {s t : State}
    (h : kalloc ram s order caller = .done addr t) : ∃ k, search s order = some k := by
  rw [kalloc] at h
  split at h
  · simp at h
  · cases hk : search s order with
    | none => simp [hk] at h
    | some k => exact ⟨k, rfl⟩

/-- One call. -/
theorem onStep (op : Op) (hm : Machine ram bssEnd) (h : Sound ram bssEnd c free)
    (hop : FreesLive c op) (hs : step ram c op = some d) : ∃ free', Sound ram bssEnd d free' := by
  obtain ⟨t, live⟩ := d
  cases op with
  | alloc order caller =>
    obtain ⟨addr, hrun, rfl⟩ := step_alloc.mp hs
    obtain ⟨k, hk⟩ := search_of_kalloc hrun
    obtain ⟨idx, rest, t', _, _, _, _, hrun', _, hnew⟩ := h.onAlloc caller hm hk
    obtain ⟨rfl, rfl⟩ := Outcome.done.inj (hrun'.symm.trans hrun)
    exact ⟨_, hnew⟩
  | free physAddr =>
    obtain ⟨hrun, rfl⟩ := step_free.mp hs
    obtain ⟨g, hg, rfl⟩ := hop
    obtain ⟨t', free', i', k', hrun', _, hnew⟩ := h.onFree hm hg
    obtain ⟨_, rfl⟩ := Outcome.done.inj (hrun'.symm.trans hrun)
    exact ⟨_, hnew⟩

end Sound

section Steps

variable (hm : Machine ram bssEnd) (h : Sound ram bssEnd c free)
include hm h

/-- A call for a block that some list can serve returns. -/
theorem Sound.exists_alloc (order caller : Nat)
    (hne : ∃ k, order ≤ k ∧ k < maxOrder ∧ free k ≠ []) :
    ∃ d idx, step ram c (.alloc order caller) = some d ∧
      d.live = ⟨ram.baseAddr + idx * 4096, order⟩ :: c.live := by
  obtain ⟨k, hk⟩ : ∃ k, search c.mem order = some k := by
    rw [← Option.isSome_iff_exists, Option.isSome_iff_ne_none]
    intro hnone
    obtain ⟨k, hok, hkm, hne⟩ := hne
    exact hne ((h.inv.lists.head_eq_noIdx_iff hkm).mp (search_eq_none.mp hnone k hok hkm))
  obtain ⟨idx, rest, t, _, _, _, _, hrun, _⟩ := h.onAlloc caller hm hk
  exact ⟨_, idx, step_of_kalloc hrun, rfl⟩

/-- Freeing a grant returns. -/
theorem Sound.exists_free {g : Grant} (hg : g ∈ c.live) :
    ∃ d, step ram c (.free g.addr) = some d ∧
      d.live = c.live.filter fun x => x.addr != g.addr := by
  obtain ⟨t, free', i', k', hrun, _⟩ := h.onFree hm hg
  exact ⟨⟨_, _⟩, step_free.mpr ⟨hrun, rfl⟩, rfl⟩

end Steps

/-- A machine that boots has a pool. -/
theorem Boot.pool (h : Boot ram bssEnd c) : freePoolStart ram bssEnd < poolHorizon ram := by
  obtain ⟨_, s, _, hrun⟩ := h
  by_contra hge
  rw [kallocInit, if_pos (Nat.not_lt.mp hge)] at hrun
  simp at hrun

/-- What `kalloc_init` returns with, when the blocks end below `2 ^ 64`. -/
theorem Boot.filling (hm : Machine ram bssEnd) (hf : Fits ram bssEnd)
    (hw : freePoolStart ram bssEnd + 8388608 * poolCount ram bssEnd < 2 ^ 64)
    (h : Boot ram bssEnd c) :
    Filling (totalPages ram) c.mem (poolList (poolLo ram bssEnd) (poolCount ram bssEnd)) := by
  have hlt := h.pool
  obtain ⟨_, s, hs, hrun⟩ := h
  obtain ⟨t, hrun', hfill⟩ := kallocInit_spec hm hf hlt hw hs
  obtain ⟨_, rfl⟩ := Outcome.done.inj (hrun'.symm.trans hrun)
  exact hfill

/-- When RAM ends on a multiple of 8 MiB the invariant holds after `kalloc_init`. -/
theorem Boot.sound (hm : Machine ram bssEnd) (hf : Fits ram bssEnd) (he : EndAligned ram)
    (h : Boot ram bssEnd c) :
    Sound ram bssEnd c (topLists (poolList (poolLo ram bssEnd) (poolCount ram bssEnd))) := by
  have hlt := h.pool
  have hfill := h.filling hm hf (poolCount_spec hm hf he hlt).2
  have hnone : liveBlocks ram c.live = ∅ := by
    ext b
    simp [liveBlocks, h.1]
  exact ⟨hnone ▸ hfill.inv hm hf he hlt, by simp [h.1], by simp [h.1]⟩

/-- A machine with a pool boots. -/
theorem exists_boot (hm : Machine ram bssEnd) (hf : Fits ram bssEnd) (he : EndAligned ram)
    (hlt : freePoolStart ram bssEnd < poolHorizon ram) : ∃ c, Boot ram bssEnd c := by
  obtain ⟨t, ht, _⟩ := kallocInit_spec hm hf hlt (poolCount_spec hm hf he hlt).2
    (s := ⟨fun _ => ⟨0, 0, 0, 0, 0⟩, fun _ => 0, []⟩) rfl
  exact ⟨⟨t, []⟩, rfl, _, rfl, ht⟩

/-- The invariant holds in every configuration of every run. -/
theorem sound_of_run (hm : Machine ram bssEnd) (hf : Fits ram bssEnd) (he : EndAligned ram)
    {h : List (Config × Op)} (hb : Boot ram bssEnd c) (hr : Run (step ram) c h d)
    (hop : Run.Steps FreesLive h) : ∃ free, Sound ram bssEnd d free :=
  hr.invariant (I := fun e => ∃ free, Sound ram bssEnd e free) hop ⟨_, hb.sound hm hf he⟩
    fun _ _ _ ⟨_, hs⟩ hop hst => hs.onStep _ hm hop hst

/-- The board the kernel is tested on: 128 MiB of RAM from `0x80000000` on. -/
def virt : Meta := ⟨0x80000000, 0x8000000⟩

/-- An end of the kernel image on that board. -/
def virtBssEnd : Nat := 0x80020000

/-- The board is one that `kalloc_init` takes. -/
theorem virt_machine : Machine virt virtBssEnd where
  base_page := by decide
  size_page := by decide
  size_lt := by decide
  region := by decide
  bss_ge := by decide
  bss_le := by decide

/-- The pool of the board fits. -/
theorem virt_fits : Fits virt virtBssEnd := by
  unfold Fits
  decide

/-- That board boots, and a page can be taken and given back. -/
theorem virt_run : ∃ c m p d, Boot virt virtBssEnd c ∧
    Run (step virt) c [(m, .free p), (c, .alloc 0 0)] d ∧ p < 2 ^ 64 ∧
    Run.Steps FreesLive [(m, .free p), (c, .alloc 0 0)] := by
  have hend : EndAligned virt := by unfold EndAligned; decide
  have hcount : poolCount virt virtBssEnd = 15 := by decide
  obtain ⟨c, hb⟩ := exists_boot virt_machine virt_fits hend (by decide)
  have hc := hb.sound virt_machine virt_fits hend
  obtain ⟨m, idx, hs, hlive⟩ := hc.exists_alloc virt_machine 0 0
    ⟨maxOrder - 1, by decide, by decide, by simp [topLists, hcount, poolList]⟩
  obtain ⟨free, hm⟩ := hc.onStep (.alloc 0 0) virt_machine trivial hs
  have hmem : (⟨virt.baseAddr + idx * 4096, 0⟩ : Grant) ∈ m.live := by simp [hlive]
  obtain ⟨d, hs', _⟩ := hm.exists_free virt_machine hmem
  refine ⟨c, m, _, d, hb, (Run.nil.snoc hs).snoc hs', hm.grant_lt virt_machine hmem, ?_⟩
  exact Run.steps_cons.mpr ⟨⟨_, hmem, rfl⟩, Run.steps_cons.mpr ⟨trivial, Run.Steps.nil⟩⟩

end RexOS.Kalloc
