import RexOS.Kvmalloc.Supply
import RexOS.Loader.Words

/-!
# What `kmain` asks for

`kmain` between the two allocators and its idle loop: the tables of the kernel, its own run queue,
what `scheduler_init` takes, the stacks of the other harts, and `spawn_process` from its
`struct process` on. Between two requests the code stores into what it has asked for. What it stores
there is left open, and no table and nothing of a process is changed by it.
-/

namespace RexOS.Loader

open RexOS.Kalloc RexOS.Paging
open Kvmalloc (Cache Heap Obj Holds overwrite)

variable {β : Type} {A : PageAlloc β} {cachesAt : Nat} {Owns : β → List Grant → Prop}

/-- Memory, with the caches of `kvmalloc` beside it. -/
structure Arena (β : Type) where
  space : Space β
  caches : Nat → Cache
  /-- Ghost: the header and the cache of every slab made. -/
  slabs : List (Nat × Nat)
  /-- Ghost: what the kernel has asked for, the last object first. -/
  asked : List Obj

/-- The code around the requests: where it calls `kvmalloc` from, and what it leaves in the objects
it has asked for, by their number. -/
structure Client where
  caller : Nat → Nat
  stored : Nat → Nat → Nat

/-- Addresses and stores are words. -/
structure Client.Words (c : Client) : Prop where
  caller : ∀ n, c.caller n < 2 ^ 64
  stored : ∀ n a, c.stored n a < 2 ^ 64

namespace Arena

def heap (k : Arena β) : Heap β := ⟨k.space.mem, k.caches, k.space.pages, k.slabs⟩

def withHeap (k : Arena β) (h : Heap β) : Arena β :=
  { k with
    space := { k.space with mem := h.mem, pages := h.pages }
    caches := h.caches
    slabs := h.slabs }

variable (c : Client)

/-- The stores after a request. -/
def stores (k : Arena β) : Arena β :=
  { k with space := { k.space with
      mem := overwrite k.asked (c.stored k.asked.length) k.space.mem } }

/-- One more object. -/
def hold (k : Arena β) (addr size : Nat) : Arena β :=
  stores c { k with asked := ⟨addr, size⟩ :: k.asked }

variable (A : PageAlloc β) (cachesAt : Nat)

def kvmalloc (size : Nat) (k : Arena β) : Outcome (Arena β) Nat :=
  ((Kvmalloc.kvmalloc A cachesAt k.heap size (c.caller k.asked.length)).within k.withHeap).bind
    fun slot k => .done slot (k.hold c slot size)

def kalloc (order : Nat) (k : Arena β) : Outcome (Arena β) Nat :=
  ((A.kalloc k.space.pages order).within fun b =>
    { k with space := { k.space with pages := b } }).bind fun block k =>
      .done block (k.hold c block (4096 <<< order))

/-- `scheduler_init`: the idle process, its capability words and `pid_registry`. -/
def schedulerInit (k : Arena β) : Outcome (Arena β) Unit :=
  (k.kvmalloc c A cachesAt 512).bind fun _ k => (k.kalloc c A 2).bind fun _ k =>
    (k.kalloc c A 0).bind fun _ k => .done () k

/-- The loop of `kmain` over the other harts, each with two stacks. -/
def hartStacks : Nat → Arena β → Outcome (Arena β) Unit
  | 0, k => .done () k
  | n + 1, k => (k.kalloc c A 0).bind fun _ k => (k.kalloc c A 0).bind fun _ k => hartStacks n k

/-- `spawn_process`, with its `struct process`. Its pid takes no memory, and the exit where there is
none left is not taken this early. -/
def spawnProcess (x : Launch) (k : Arena β) : Outcome (Arena β) (Option Nat) :=
  (k.kvmalloc c A cachesAt 512).bind fun newProcess k =>
    if newProcess = 0 then .done none k
    else
      ((Loader.spawnProcess A x.1 x.2 k.space).within fun s => { k with space := s }).bind
        fun satp k =>
          if satp = none then .done none k
          else .done satp (k.hold c (capabilityBlock k.space).addr (4096 <<< 2))

def spawnAll : List Launch → Arena β → Outcome (Arena β) (List (Option Nat))
  | [], k => .done [] k
  | x :: xs, k => (k.spawnProcess c A cachesAt x).bind fun satp k =>
      (spawnAll xs k).bind fun satps k => .done (satp :: satps) k

/-- `kvmalloc_init`. -/
def kvmallocInit (k : Arena β) : Arena β := k.withHeap (Kvmalloc.kvmallocInit k.heap)

end Arena

/-- What `spawn_process` finds when `kmain` calls it: `root_table` and the run queue of hart 0. -/
def Launch.found (l : Layout) (rootTable runqueue : Nat) (x : Launch) : Launch :=
  ({ x.1 with
      rootTable := rootTable, userTrampoline := l.userTrampoline, runqueue := runqueue }, x.2)

/-- What `kmain` has made: `root_table`, the run queue of hart 0, and the `satp` of each process. -/
structure Started where
  rootTable : Nat
  runqueue : Nat
  satps : List (Option Nat)

/-- `kmain` from `kvmalloc_init` on, for `hart` harts, whatever `kvmalloc_caches` holds before. -/
def kmain (c : Client) (A : PageAlloc β) (cachesAt : Nat) (l : Layout) (hart : Nat)
    (xs : List Launch) (caches : Nat → Cache) (s : Space β) : Outcome (Arena β) Started :=
  let k : Arena β := Arena.kvmallocInit ⟨s, caches, [], []⟩
  ((kvmInit A l k.space).within fun s => { k with space := s }).bind fun rootTable k =>
    (k.kvmalloc c A cachesAt 312).bind fun runqueue k =>
      (k.schedulerInit c A cachesAt).bind fun _ k =>
        (k.kvmalloc c A cachesAt (hart * 32)).bind fun _ k =>
          (k.hartStacks c A (hart - 1)).bind fun _ k =>
            (k.spawnAll c A cachesAt (xs.map (Launch.found l rootTable runqueue))).bind
              fun satps k => .done ⟨rootTable, runqueue, satps⟩ k

/-! ## What is kept -/

/-- The slab allocator stands beside the blocks `R`, in memory of words. -/
structure Sound (cachesAt : Nat) (Owns : β → List Grant → Prop) (R : List Grant) (k : Arena β) :
    Prop where
  holds : ∃ a L, Holds cachesAt (Reserving Owns R) k.heap a k.asked L
  words : k.heap.Words

/-- After some requests: the blocks `R` are as they were, and there is memory for `n` blocks and `m`
pages more. -/
structure Goes (A : PageAlloc β) (cachesAt : Nat) (Owns : β → List Grant → Prop) (R : List Grant)
    (k : Arena β) (n m : Nat) (k' : Arena β) (R' : List Grant) : Prop extends
    Kept R k.space k'.space R' where
  sound : Sound cachesAt Owns R' k'
  stock : A.Stock n m k'.space.pages

variable {c : Client} {k k' k₁ : Arena β} {R R' R₁ M M' L : List Grant} {n m n' m' size : Nat}

/-- One series of requests after another. -/
theorem Goes.trans (h : Goes A cachesAt Owns R k n' m' k₁ R₁)
    (h' : Goes A cachesAt Owns R₁ k₁ n m k' R') : Goes A cachesAt Owns R k n m k' R' where
  toKept := h.toKept.trans h'.toKept
  sound := h'.sound
  stock := h'.stock

section Requests

variable (hA : A.Grants Owns)
include hA

/-- What lies in a block of the slab allocator lies in none that is kept from it. -/
theorem not_reserved {b : β} (h : Reserving Owns R b L) {x : Nat} {g g' : Grant} (hg : g ∈ R)
    (hx : x ∈ g.extent) (hg' : g' ∈ L) : x ∉ g'.extent :=
  Set.disjoint_left.mp (reserved_of_mem hA hg b L h g' hg') hx

/-- Stores stay in the objects. -/
theorem Sound.stores (hc : c.Words) (h : Sound cachesAt Owns R k) :
    Sound cachesAt Owns R (k.stores c) ∧ Kept R k.space (k.stores c).space R := by
  obtain ⟨⟨a, L, hh⟩, hw⟩ := h
  refine ⟨⟨⟨a, L, hh.write _⟩, fun x => ?_, hw.head⟩, List.Subset.refl R, fun g hg x hx => ?_⟩
  · change overwrite k.asked (c.stored k.asked.length) k.space.mem x < 2 ^ 64
    unfold overwrite
    split
    · exact hc.stored _ _
    · exact hw.mem x
  · refine if_neg fun hany => ?_
    obtain ⟨o, ho, hcell⟩ := List.any_eq_true.mp hany
    obtain ⟨g', hg', hin⟩ := Kvmalloc.obj_block hh.layout ho (of_decide_eq_true hcell)
    exact not_reserved hA (hh.pages ▸ hh.owns) hg hx hg' hin

/-- An object more is asked for, and the code stores into its objects. -/
theorem Sound.hold {addr : Nat} (hc : c.Words)
    (h : Sound cachesAt Owns R { k with asked := ⟨addr, size⟩ :: k.asked }) :
    Sound cachesAt Owns R (k.hold c addr size) ∧
      Kept R k.space (k.hold c addr size).space R := h.stores hA hc

/-- `kvmalloc` with memory to spare. -/
theorem Sound.kvmalloc (size : Nat) (hc : c.Words) (hat : cachesAt + 640 ≤ 2 ^ 64)
    (h : Sound cachesAt Owns R k) (h1 : 1 ≤ size) (h8 : size ≤ 0x800000)
    (hstock : A.Stock (n + Kvmalloc.blocksFor size) (m + Kvmalloc.pagesFor size) k.space.pages) :
    ∃ p k', k.kvmalloc c A cachesAt size = .done p k' ∧ Goes A cachesAt Owns R k n m k' R ∧
      0 < p ∧ p < 2 ^ 64 := by
  obtain ⟨⟨a, L, hh⟩, hw⟩ := h
  have hAR : A.Grants (Reserving Owns R) := reserving_grants hA
  obtain ⟨p, t, a', L', hrun, hh', hwrites, hleft⟩ :=
    hh.kvmalloc_returns hAR hstock h1 h8 (c.caller k.asked.length)
  have hw' := Kvmalloc.kvmalloc_words hAR hat (hc.caller _) hh h1 hw hrun
  have hsound : Sound cachesAt Owns R { k.withHeap t with asked := ⟨p, size⟩ :: k.asked } :=
    ⟨⟨a', L', hh'⟩, hw'⟩
  obtain ⟨hs, hkept⟩ := hsound.hold hA hc
  have hwritten : Kept R k.space (k.withHeap t).space R :=
    ⟨List.Subset.refl R, fun g hg x hx => hwrites x fun g' hg' =>
      not_reserved hA hh'.owns hg hx hg'⟩
  refine ⟨p, _, ?_, ⟨hwritten.trans hkept, hs, hleft⟩,
    Kvmalloc.obj_addr hh'.layout List.mem_cons_self⟩
  rw [Arena.kvmalloc, hrun]
  rfl

/-- `kalloc` where there is the block. -/
theorem Sound.kalloc (hc : c.Words) (h : Sound cachesAt Owns R k) {order : Nat}
    (horder : order < maxOrder)
    (hblock : ∃ p b, A.kalloc k.space.pages order = .done p b ∧ A.Stock n m b) :
    ∃ p k', k.kalloc c A order = .done p k' ∧ Goes A cachesAt Owns R k n m k' R := by
  obtain ⟨⟨a, L, hh⟩, hw⟩ := h
  obtain ⟨p, b, hrun, hleft⟩ := hblock
  have hAR : A.Grants (Reserving Owns R) := reserving_grants hA
  obtain ⟨hfresh, howns⟩ := hAR.kalloc (hh.pages ▸ hh.owns) hrun
  have hsound : Sound cachesAt Owns R { k with
      space := { k.space with pages := b }, asked := ⟨p, 4096 <<< order⟩ :: k.asked } :=
    ⟨⟨_, _, hh.takeBlock horder (hAR.blocks howns) hfresh howns⟩, hw.mem, hw.head⟩
  obtain ⟨hs, hkept⟩ := Sound.hold hA (k := { k with space := { k.space with pages := b } }) hc
    hsound
  refine ⟨p, _, ?_, ⟨⟨hkept.grants, hkept.kept⟩, hs, hleft⟩⟩
  rw [Arena.kalloc, hrun]
  rfl

/-- `scheduler_init` takes a slot, a block of four pages and a page. -/
theorem Sound.schedulerInit (hc : c.Words) (hat : cachesAt + 640 ≤ 2 ^ 64)
    (h : Sound cachesAt Owns R k) (hstock : A.Stock (n + 1) (m + 2) k.space.pages) :
    ∃ k', k.schedulerInit c A cachesAt = .done () k' ∧ Goes A cachesAt Owns R k n m k' R := by
  obtain ⟨p, k₁, hrun₁, hgo₁, -⟩ := h.kvmalloc hA (n := n + 1) (m := m + 1) 512 hc hat
    (by decide) (by decide) hstock
  obtain ⟨p₂, k₂, hrun₂, hgo₂⟩ := hgo₁.sound.kalloc hA hc (by decide : 2 < maxOrder)
    (hgo₁.stock.block (by decide))
  obtain ⟨p₃, k₃, hrun₃, hgo₃⟩ := hgo₂.sound.kalloc hA hc (by decide : 0 < maxOrder)
    hgo₂.stock.page
  refine ⟨k₃, ?_, (hgo₁.trans hgo₂).trans hgo₃⟩
  rw [Arena.schedulerInit, hrun₁, Outcome.bind_done, hrun₂, Outcome.bind_done, hrun₃,
    Outcome.bind_done]

/-- Each further hart takes two pages. -/
theorem Sound.hartStacks (hc : c.Words) {j : Nat} (h : Sound cachesAt Owns R k)
    (hstock : A.Stock n (m + 2 * j) k.space.pages) :
    ∃ k', k.hartStacks c A j = .done () k' ∧ Goes A cachesAt Owns R k n m k' R := by
  induction j generalizing k with
  | zero => exact ⟨k, rfl, ⟨.refl R k.space, h, hstock⟩⟩
  | succ j ih =>
    rw [Nat.mul_succ, ← Nat.add_assoc] at hstock
    obtain ⟨p, k₁, hrun₁, hgo₁⟩ := h.kalloc hA hc (by decide : 0 < maxOrder)
      (PageAlloc.Stock.page (m := m + 2 * j + 1) hstock)
    obtain ⟨p₂, k₂, hrun₂, hgo₂⟩ := hgo₁.sound.kalloc hA hc (by decide : 0 < maxOrder)
      hgo₁.stock.page
    obtain ⟨k', hrun, hgo⟩ := ih hgo₂.sound hgo₂.stock
    refine ⟨k', ?_, (hgo₁.trans hgo₂).trans hgo⟩
    rw [Arena.hartStacks, hrun₁, Outcome.bind_done, hrun₂, Outcome.bind_done, hrun]

end Requests

/-! ## spawn_process -/

/-- Of the blocks taken since, one goes to the slab allocator and the others are kept from it. -/
theorem reserving_more (hA : A.Grants Owns) {b' : β} {g : Grant}
    (hsplit : ∀ x, x ∈ M ↔ x ∈ R ∨ x ∈ L) (hne : ∀ x ∈ R, ∀ y ∈ L, x.addr ≠ y.addr)
    (hM' : Owns b' M') (hsub : M ⊆ M') (hg : g ∈ M') (hnew : g ∉ M) :
    ∃ R', R ⊆ R' ∧ Reserving Owns R' b' (g :: L) ∧ ∀ x ∈ M', x ∉ M → x ≠ g → x ∈ R' := by
  have hmem : ∀ x, x ∈ R ++ M'.filter (fun x => decide (x ∉ M ∧ x ≠ g)) ↔
      x ∈ R ∨ x ∈ M' ∧ x ∉ M ∧ x ≠ g := fun x => by
    rw [List.mem_append, List.mem_filter, decide_eq_true_eq]
  refine ⟨_, List.subset_append_left R _, ⟨M', hM', fun x => ?_, fun x hx y hy he => ?_⟩,
    fun x hx hxM hxg => (hmem x).mpr (Or.inr ⟨hx, hxM, hxg⟩)⟩
  · rw [hmem, List.mem_cons]
    constructor
    · intro hx
      by_cases hxM : x ∈ M
      · exact ((hsplit x).mp hxM).imp Or.inl Or.inr
      · by_cases hxg : x = g
        · exact Or.inr (Or.inl hxg)
        · exact Or.inl (Or.inr ⟨hx, hxM, hxg⟩)
    · rintro ((hx | ⟨hx, -⟩) | rfl | hx)
      · exact hsub ((hsplit x).mpr (Or.inl hx))
      · exact hx
      · exact hg
      · exact hsub ((hsplit x).mpr (Or.inr hx))
  · have hblocks := hA.blocks hM'
    have hyM' : y ∈ M' := by
      rcases List.mem_cons.mp hy with rfl | hy
      · exact hg
      · exact hsub ((hsplit y).mpr (Or.inr hy))
    rcases (hmem x).mp hx with hxR | ⟨hxM', hxM, hxg⟩
    · rcases List.mem_cons.mp hy with rfl | hy
      · have hxM : x ∈ M := (hsplit x).mpr (Or.inl hxR)
        obtain rfl := hblocks.eq_of_addr (hsub hxM) hyM' he
        exact hnew hxM
      · exact hne x hxR y hy he
    · obtain rfl := hblocks.eq_of_addr hxM' hyM' he
      rcases List.mem_cons.mp hy with rfl | hy
      · exact hxg rfl
      · exact hxM ((hsplit x).mpr (Or.inr hy))

/-- The single pages of `spawn_process`, the one of its `struct process` among them. -/
def pagesWithStructs (xs : List Launch) : Nat := pagesOf xs + xs.length

section Spawn

variable (hA : A.Grants Owns) (hal : A.Aligned Owns) (hlow : ∀ b L, Owns b L → Low L)
  (hc : c.Words) (hat : cachesAt + 640 ≤ 2 ^ 64)
include hA hal hlow hc hat

/-- `spawn_process` takes its blocks beside those of the slab allocator, and no later store reaches
them. -/
theorem Sound.spawnProcess {x : Launch} (hx : x.Good) (hsite : SiteWords x.1)
    (h : Sound cachesAt Owns R k) (hstock : A.Stock ((segments x.2).length + 1 + n)
      (tablePages (segments x.2) + 9 + m + 1) k.space.pages) :
    ∃ root stack k' R', k.spawnProcess c A cachesAt x = .done (some (satpOf root)) k' ∧
      Goes A cachesAt Owns R k n m k' R' ∧
      Stands Owns R x.1 x.2 root stack k'.space R' := by
  obtain ⟨ht, helf, hsep⟩ := hx
  obtain ⟨p, k₁, hrun₁, hgo₁, hpos, -⟩ := h.kvmalloc hA 512 hc hat (by decide)
    (by decide) hstock
  obtain ⟨⟨a, L, hh⟩, hw⟩ := hgo₁.sound
  obtain ⟨M, howns, hsplit, hne⟩ := hh.owns
  rw [← hh.pages] at howns
  obtain ⟨satp, s', hrun₂, hleft⟩ :=
    hsep.spawns_leaving hA hal hlow ht helf (s := k₁.space) howns hgo₁.stock
  obtain ⟨root, stack, M', hr, hlater, hstands, hcaps, hnew, hoff⟩ :=
    spawnProcess_stands hA hal hlow ht helf hsep (s := k₁.space) howns hrun₂
  obtain ⟨R', hsub, hres, hmore⟩ :=
    reserving_more hA hsplit hne hlater.owns hlater.grants hcaps hnew
  have hRM : R ⊆ M := fun g hg => (hsplit g).mpr (Or.inl hg)
  have hkept : ∀ g ∈ L, ∀ y ∈ g.extent, s'.mem y = k₁.space.mem y := fun g hg =>
    hlater.kept g ((hsplit g).mpr (Or.inr hg))
  have hresL : Reserving Owns R' s'.pages (capabilityBlock s' :: L) := hres
  have hfresh : ∀ g ∈ L, g.addr ≠ (capabilityBlock s').addr := by
    intro g hg he
    have hgM := (hsplit g).mpr (Or.inr hg)
    obtain rfl := (hA.blocks hlater.owns).eq_of_addr (hlater.grants hgM) hcaps he
    exact hnew hgM
  have hheld := (hh.agree hkept).takeBlock (by decide : 2 < maxOrder)
    ((reserving_grants hA).blocks hresL) hfresh hresL
  have hwords := spawnProcess_worded hA (s := k₁.space) ⟨hw.mem, M, howns⟩ hsite hrun₂
  have hsound : Sound cachesAt Owns R' { k₁ with
      space := s', asked := ⟨(capabilityBlock s').addr, 4096 <<< 2⟩ :: k₁.asked } :=
    ⟨⟨_, _, hheld⟩, hwords.word, hw.head⟩
  obtain ⟨hs, hstores⟩ := Sound.hold hA (k := { k₁ with space := s' }) hc hsound
  have hspawned : Kept R k₁.space s' R' := ⟨hsub, fun g hg => hlater.kept g (hRM hg)⟩
  have hmine : Stands Owns R x.1 x.2 root stack s' R' := by
    obtain ⟨R₀, m₀, s₀, hR₀, hs₀, hmade⟩ := hstands
    refine ⟨R₀, m₀, s₀, List.Subset.trans hRM hR₀, hs₀, fun y hy => ?_⟩
    obtain ⟨hword, ⟨g, hg, hin⟩, hout⟩ := hmade y hy
    have hthere := (belongs_agree (fun z hz => (hmade z (Or.inl hz)).1) y).mpr hy
    refine ⟨hword, ⟨g, hmore g hg (fun hgM => hout g (hR₀ hgM) hin) ?_, hin⟩, hout⟩
    rintro rfl
    exact hoff y hthere hin
  refine ⟨root, stack, _, R', ?_, ⟨(hgo₁.toKept.trans hspawned).trans hstores, hs, hleft⟩,
    hmine.later hstores⟩
  rw [Arena.spawnProcess, hrun₁, Outcome.bind_done, if_neg hpos.ne', hrun₂, hr]
  rfl

/-- One process after the other. -/
theorem Sound.spawnAll {xs : List Launch} (hx : ∀ x ∈ xs, Launch.Good x ∧ SiteWords x.1)
    (h : Sound cachesAt Owns R k)
    (hstock : A.Stock (blocksOf xs) (pagesWithStructs xs) k.space.pages) :
    ∃ (qs : List (Nat × Nat)) (k' : Arena β) (R' : List Grant),
      k.spawnAll c A cachesAt xs = .done (qs.map fun q => some (satpOf q.1)) k' ∧
      Goes A cachesAt Owns R k 0 0 k' R' ∧
      List.Forall₂ (fun x q => Stands Owns R x.1 x.2 q.1 q.2 k'.space R') xs qs := by
  induction xs generalizing k R with
  | nil => exact ⟨[], k, R, rfl, ⟨.refl R k.space, h, hstock⟩, .nil⟩
  | cons x xs ih =>
    obtain ⟨hgood, hsite⟩ := hx x List.mem_cons_self
    have hneed : A.Stock ((segments x.2).length + 1 + blocksOf xs)
        (tablePages (segments x.2) + 9 + pagesWithStructs xs + 1) k.space.pages := by
      refine hstock.mono (le_of_eq rfl) (le_of_eq ?_)
      simp only [pagesWithStructs, pagesOf, List.map_cons, List.sum_cons, List.length_cons]
      omega
    obtain ⟨root, stack, k₁, R₁, hrun₁, hgo₁, hstands⟩ :=
      h.spawnProcess hA hal hlow hc hat hgood hsite hneed
    obtain ⟨qs, k', R', hrun, hgo, hall⟩ :=
      ih (fun y hy => hx y (List.mem_cons_of_mem _ hy)) hgo₁.sound hgo₁.stock
    refine ⟨(root, stack) :: qs, k', R', ?_, hgo₁.trans hgo,
      .cons (hstands.later hgo.toKept) (hall.imp fun y q hq => hq.mono hgo₁.grants)⟩
    rw [Arena.spawnAll, hrun₁, Outcome.bind_done, hrun, Outcome.bind_done, List.map_cons]

end Spawn

/-! ## kmain -/

/-- The blocks and the single pages that `kmain` needs at most, besides those of the kernel's
tables. -/
def kmainBlocks (hart : Nat) (xs : List Launch) : Nat :=
  1 + Kvmalloc.blocksFor (hart * 32) + blocksOf xs
def kmainPages (hart : Nat) (xs : List Launch) : Nat :=
  3 + Kvmalloc.pagesFor (hart * 32) + 2 * (hart - 1) + pagesWithStructs xs

/-- What `kmain` knows by then does not change what an image needs. -/
theorem needs_found (l : Layout) (rootTable runqueue : Nat) (xs : List Launch) :
    blocksOf (xs.map (Launch.found l rootTable runqueue)) = blocksOf xs ∧
      pagesWithStructs (xs.map (Launch.found l rootTable runqueue)) = pagesWithStructs xs := by
  simp only [blocksOf, pagesWithStructs, pagesOf, List.map_map, List.length_map]
  exact ⟨rfl, rfl⟩

/-- Once the tables of the kernel are there, with memory for the rest `kmain` comes to its end. The
blocks of the tables stay as they are, and so does every process from when it is made. -/
theorem kmain_goes (hA : A.Grants Owns) (hal : A.Aligned Owns) (hlow : ∀ b L, Owns b L → Low L)
    (hc : c.Words) (hat : cachesAt + 640 ≤ 2 ^ 64) {l : Layout} {s s₁ : Space β} {kroot hart : Nat}
    {xs : List Launch} (caches : Nat → Cache) (hhart : 1 ≤ hart) (hmax : hart * 32 ≤ 0x800000)
    (hx : ∀ x ∈ xs, IsElf x.2 ∧ Separate x.2) (hsites : ∀ x ∈ xs, SiteWords x.1)
    (htramp : l.userTrampoline + 4096 ≤ 2 ^ 56) (hrun : kvmInit A l s = .done kroot s₁)
    (hroot : kroot < 2 ^ 64) (howns : Owns s₁.pages L) (hword : ∀ a, s₁.mem a < 2 ^ 64)
    (hstock : A.Stock (kmainBlocks hart xs) (kmainPages hart xs) s₁.pages) :
    ∃ (rq : Nat) (qs : List (Nat × Nat)) (k' : Arena β) (R' : List Grant),
      kmain c A cachesAt l hart xs caches s =
        .done ⟨kroot, rq, qs.map fun q => some (satpOf q.1)⟩ k' ∧
      Kept L s₁ k'.space R' ∧ (∀ a, k'.space.mem a < 2 ^ 64) ∧
      List.Forall₂ (fun x q => Stands Owns L (Launch.found l kroot rq x).1 x.2 q.1 q.2 k'.space R')
        xs qs := by
  let k : Arena β := { Arena.kvmallocInit ⟨s, caches, [], []⟩ with space := s₁ }
  have hcaches : ∀ i < Kvmalloc.numCaches, ∀ x, k.heap.head i x = 0 := by
    intro i hi x
    change (if i < Kvmalloc.numCaches then _ else _ : Cache).heads x = 0
    rw [if_pos hi]
  have hempty : Holds cachesAt (Reserving Owns L) k.heap ⟨fun _ _ => [], s₁.pages⟩ [] [] :=
    Kvmalloc.kvmallocInit_holds cachesAt (reserving_grants hA) (s := ⟨s₁.mem, caches, s₁.pages, []⟩)
      rfl (reserving_all howns)
  have hsound : Sound cachesAt Owns L k :=
    ⟨⟨_, _, hempty⟩, hword, fun i hi x => (hcaches i hi x).trans_lt (by decide)⟩
  have hstock : A.Stock (blocksOf xs + Kvmalloc.blocksFor (hart * 32) + 1)
      (pagesWithStructs xs + 2 * (hart - 1) + Kvmalloc.pagesFor (hart * 32) + 2 + 1)
      k.space.pages := by
    refine hstock.mono ?_ ?_
    · unfold kmainBlocks
      omega
    · unfold kmainPages
      omega
  obtain ⟨rq, k₁, hrun₁, hgo₁, -, hrq⟩ := hsound.kvmalloc hA 312 hc hat (by decide)
    (by decide) hstock
  obtain ⟨k₂, hrun₂, hgo₂⟩ := hgo₁.sound.schedulerInit hA hc hat hgo₁.stock
  obtain ⟨_, k₃, hrun₃, hgo₃, -⟩ := hgo₂.sound.kvmalloc hA (hart * 32) hc hat (by omega)
    hmax hgo₂.stock
  obtain ⟨k₄, hrun₄, hgo₄⟩ := hgo₃.sound.hartStacks hA hc hgo₃.stock
  have hgood : ∀ y ∈ xs.map (Launch.found l kroot rq), Launch.Good y ∧ SiteWords y.1 := by
    intro y hy
    obtain ⟨x, hxs, rfl⟩ := List.mem_map.mp hy
    obtain ⟨hst, -, hrouter, -, -⟩ := hsites x hxs
    exact ⟨⟨htramp, hx x hxs⟩, hst, hroot, hrouter, hrq, by change l.userTrampoline < _; omega⟩
  obtain ⟨hblocks, hpages⟩ := needs_found l kroot rq xs
  obtain ⟨qs, k', R', hrun₅, hgo₅, hall⟩ := hgo₄.sound.spawnAll hA hal hlow hc hat hgood
    (by rw [hblocks, hpages]; exact hgo₄.stock)
  have hgo := (((hgo₁.trans hgo₂).trans hgo₃).trans hgo₄).trans hgo₅
  rw [List.forall₂_map_left_iff] at hall
  refine ⟨rq, qs, k', R', ?_, hgo.toKept, hgo.sound.words.mem, hall.imp fun x q hq => hq⟩
  rw [kmain]
  change ((kvmInit A l s).within _).bind _ = _
  rw [hrun]
  change ((k.kvmalloc c A cachesAt 312).bind _) = _
  rw [hrun₁, Outcome.bind_done, hrun₂, Outcome.bind_done, hrun₃, Outcome.bind_done, hrun₄,
    Outcome.bind_done, hrun₅, Outcome.bind_done]

end RexOS.Loader
