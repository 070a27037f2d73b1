import RexOS.Kalloc.Service

/-!
# The slab allocator of `kernel/vm.c`

Objects of up to 2048 bytes come from eight caches of slabs, larger ones from the page
allocator. The header of a slab lies at the start of its page for objects of up to 512
bytes and in a 64-byte object of its own above that. Free slots are chained through
their first word.

`mem` is the kernel's memory as 64-bit words. Every access below is to a multiple of 8,
so that a word is known by its address and two addresses name disjoint words. The array
`kvmalloc_caches` stands beside it; only the address of an element is ever stored.
`kvmalloc_lock` is not modelled, and `slabs` is not part of the program: it records
every slab made, as its header and the index of its cache.
-/

namespace RexOS.Kvmalloc

open Bits
open Kalloc (PageAlloc)

/-- The three list heads of `struct kvmem_cache`. -/
inductive SlabList where
  | listFull
  | listPartial
  | listEmpty
  deriving DecidableEq, Repr

/-- `struct kvmem_cache` without `cache_name` and `next_cache`, which no routine reads. -/
structure Cache where
  objSize : Nat
  alignedSize : Nat
  flag : Nat
  heads : SlabList → Nat

/-- The allocator's data. -/
structure Heap (β : Type) where
  mem : Nat → Nat
  caches : Nat → Cache
  pages : β
  /-- Ghost: the header and the cache of every slab made. -/
  slabs : List (Nat × Nat)

/-- `NUM_KVMALLOC_CACHES`. -/
def numCaches : Nat := 8

/-- `sizeof(struct slab)`. -/
def slabSize : Nat := 64

namespace Heap

variable {β : Type} (s : Heap β)

/-- A store of one word. -/
def store (a v : Nat) : Heap β := { s with mem := Function.update s.mem a v }

/-! ## The fields of `struct slab` -/

def parentCache (h : Nat) : Nat := s.mem h
def activeObjCount (h : Nat) : Nat := s.mem (h + 8)
def prev (h : Nat) : Nat := s.mem (h + 16)
def next (h : Nat) : Nat := s.mem (h + 24)
def freeSlot (h : Nat) : Nat := s.mem (h + 32)
def virtStart (h : Nat) : Nat := s.mem (h + 40)

def setParentCache (h v : Nat) : Heap β := s.store h v
def setActiveObjCount (h v : Nat) : Heap β := s.store (h + 8) v
def setPrev (h v : Nat) : Heap β := s.store (h + 16) v
def setNext (h v : Nat) : Heap β := s.store (h + 24) v
def setFreeSlot (h v : Nat) : Heap β := s.store (h + 32) v
def setVirtStart (h v : Nat) : Heap β := s.store (h + 40) v
def setAllocCaller (h v : Nat) : Heap β := s.store (h + 48) v
def setPhysStart (h v : Nat) : Heap β := s.store (h + 56) v

/-- `kvmalloc_caches[i].list_… `. -/
def head (i : Nat) (k : SlabList) : Nat := (s.caches i).heads k

/-- A store to a list head of cache `i`. -/
def setHead (i : Nat) (k : SlabList) (v : Nat) : Heap β :=
  { s with
    caches := Function.update s.caches i
      { s.caches i with heads := Function.update (s.caches i).heads k v } }

end Heap

/-- `kvmalloc_init`. -/
def kvmallocInit {β : Type} (s : Heap β) : Heap β :=
  { s with
    caches := fun i =>
      if i < numCaches then
        { objSize := 16 * 1 <<< i
          alignedSize := 16 * 1 <<< i
          flag := if 16 * 1 <<< i > 512 then 1 else 0
          heads := fun _ => 0 }
      else s.caches i }

/-- How many objects a slab of a cache holds. -/
def maxObjs (c : Cache) : Nat :=
  if c.flag = 0 then (4096 - slabSize) / c.alignedSize else 4096 / c.alignedSize

/-! ## Lists of slabs -/

section Lists

variable {β : Type}

/-- `kvmem_cache_alloc` moves the head of `list_partial` to the head of `list_full`. -/
def moveToFull (s : Heap β) (i currSlab : Nat) : Heap β :=
  let s := s.setHead i .listPartial (s.next currSlab)
  let s := if s.head i .listPartial ≠ 0 then s.setPrev (s.head i .listPartial) 0 else s
  let s := s.setNext currSlab (s.head i .listFull)
  let s := s.setPrev currSlab 0
  let s := if s.head i .listFull ≠ 0 then s.setPrev (s.head i .listFull) currSlab else s
  s.setHead i .listFull currSlab

/-- `kvmem_cache_alloc` moves the head of `list_empty` to `list_partial`. -/
def moveToPartial (s : Heap β) (i currSlab : Nat) : Heap β :=
  let s := s.setHead i .listEmpty (s.next currSlab)
  let s := s.setNext currSlab (s.head i .listPartial)
  let s := if s.head i .listEmpty ≠ 0 then s.setPrev (s.head i .listEmpty) 0 else s
  let s := s.setHead i .listPartial currSlab
  s.setPrev currSlab 0

/-- The move from list `x` to the head of list `y` that `kvmfree` writes out four times. -/
def moveSlab (s : Heap β) (i currHeader : Nat) (x y : SlabList) : Heap β :=
  let s := if s.prev currHeader ≠ 0 then s.setNext (s.prev currHeader) (s.next currHeader)
    else s.setHead i x (s.next currHeader)
  let s := if s.next currHeader ≠ 0 then s.setPrev (s.next currHeader) (s.prev currHeader) else s
  let s := s.setNext currHeader (s.head i y)
  let s := s.setPrev currHeader 0
  let s := if s.next currHeader ≠ 0 then s.setPrev (s.next currHeader) currHeader else s
  s.setHead i y currHeader

end Lists

/-! ## Allocation -/

section Alloc

variable {β : Type}

/-- `kvmem_cache_alloc` with a slab on `list_partial`. -/
def allocPartial (s : Heap β) (i : Nat) : Nat × Heap β :=
  let currSlab := s.head i .listPartial
  let slot := s.freeSlot currSlab
  let s := s.setActiveObjCount currSlab (wrap (s.activeObjCount currSlab + 1))
  let s := if s.activeObjCount currSlab = maxObjs (s.caches i) then moveToFull s i currSlab else s
  let s := s.setFreeSlot currSlab (s.mem (s.freeSlot currSlab))
  (slot, s)

/-- `kvmem_cache_alloc` with a slab on `list_empty` only. -/
def allocEmpty (s : Heap β) (i : Nat) : Nat × Heap β :=
  let currSlab := s.head i .listEmpty
  let slot := s.freeSlot currSlab
  let s := s.setActiveObjCount currSlab 1
  let s := moveToPartial s i currSlab
  let s := s.setFreeSlot currSlab (s.mem (s.freeSlot currSlab))
  (slot, s)

/-- The loop that chains the first `n` slots of a new slab. -/
def threadSlots (s : Heap β) (firstObj size : Nat) : Nat → Heap β
  | 0 => s
  | n + 1 => (threadSlots s firstObj size n).store (firstObj + n * size) (firstObj + (n + 1) * size)

/-- A new slab: its slots are chained and its header is filled in, as the only slab on
`list_partial`. -/
def initSlab (s : Heap β) (i header newSlab firstObj caller : Nat) : Heap β :=
  let size := (s.caches i).alignedSize
  let s := threadSlots s firstObj size (maxObjs (s.caches i) - 1)
  let s := s.store (firstObj + (maxObjs (s.caches i) - 1) * size) 0
  let s := s.setFreeSlot header (firstObj + size)
  let s := s.setActiveObjCount header 1
  let s := s.setNext header 0
  let s := s.setPrev header 0
  let s := s.setVirtStart header newSlab
  let s := s.setPhysStart header newSlab
  let s := s.setAllocCaller header caller
  { s.setHead i .listPartial header with slabs := (header, i) :: s.slabs }

variable (A : PageAlloc β) (cachesAt : Nat)

/-- `&kvmalloc_caches[i]`; `sizeof(struct kvmem_cache)` is 80. -/
def cacheAddr (i : Nat) : Nat := cachesAt + i * 80

/-- `kvmem_cache_alloc` on cache `i`. The routine calls itself for the header of an
off-slab slab; `depth` bounds the calls still possible. -/
def kvmemCacheAlloc : Nat → Heap β → Nat → Nat → Outcome (Heap β) Nat
  | 0, s, _, _ => .spin s
  | depth + 1, s, i, caller =>
    if s.head i .listPartial ≠ 0 then .done (allocPartial s i).1 (allocPartial s i).2
    else if s.head i .listEmpty ≠ 0 then .done (allocEmpty s i).1 (allocEmpty s i).2
    else
      ((A.kalloc s.pages 0).within fun b => { s with pages := b }).bind fun newSlab s =>
        if newSlab = 0 then .panic 108 (cacheAddr cachesAt i) s
        else if (s.caches i).flag = 0 then
          let firstObj := newSlab + slabSize
          let s := s.setParentCache newSlab (cacheAddr cachesAt i)
          .done firstObj (initSlab s i newSlab newSlab firstObj caller)
        else
          (kvmemCacheAlloc depth s 2 caller).bind fun header s =>
            if header = 0 then .panic 109 (cacheAddr cachesAt i) s
            else
              let s := s.setParentCache header (cacheAddr cachesAt i)
              .done newSlab (initSlab s i header newSlab newSlab caller)

/-- The loop of `kvmalloc` over the caches. -/
def cacheFor (s : Heap β) (size : Nat) : Option Nat :=
  (List.range numCaches).find? fun i => ! decide ((s.caches i).alignedSize < size)

/-- The loop of `kvmalloc` over the orders; from order 52 on the register is 0. -/
def orderFor (size : Nat) : Option Nat :=
  (List.range 52).find? fun order => ! decide (4096 <<< order < size)

/-- `kvmalloc`; `caller` is `__builtin_return_address(0)`. -/
def kvmalloc (s : Heap β) (size caller : Nat) : Outcome (Heap β) Nat :=
  if size = 0 then .done 0 s
  else if size ≤ 2048 then
    match cacheFor s size with
    | some i => kvmemCacheAlloc A cachesAt 2 s i caller
    | none => .spin s
  else
    match orderFor size with
    | some order => (A.kalloc s.pages order).within fun b => { s with pages := b }
    | none => .spin s

end Alloc

/-! ## Freeing -/

section Free

variable {β : Type}

/-- What `kvmfree` does first in every branch: the slot goes back on the chain. -/
def pushSlot (s : Heap β) (currHeader slot : Nat) : Heap β :=
  let s := s.store slot (s.freeSlot currHeader)
  let s := s.setFreeSlot currHeader slot
  s.setActiveObjCount currHeader (wrapSub (s.activeObjCount currHeader) 1)

/-- `kvmfree` into an on-slab slab. -/
def freeOnSlab (s : Heap β) (i currHeader slot : Nat) : Heap β :=
  let s := pushSlot s currHeader slot
  let maxObjs := (4096 - slabSize) / (s.caches i).alignedSize
  if s.activeObjCount currHeader = maxObjs - 1 then moveSlab s i currHeader .listFull .listPartial
  else if s.activeObjCount currHeader = 0 then moveSlab s i currHeader .listPartial .listEmpty
  else s

/-- `kvmfree` into an off-slab slab found on `list_full`. -/
def freeFromFull (s : Heap β) (i currHeader slot : Nat) : Heap β :=
  moveSlab (pushSlot s currHeader slot) i currHeader .listFull .listPartial

/-- `kvmfree` into an off-slab slab found on `list_partial`. -/
def freeFromPartial (s : Heap β) (i currHeader slot : Nat) : Heap β :=
  let s := pushSlot s currHeader slot
  if s.activeObjCount currHeader = 0 then moveSlab s i currHeader .listPartial .listEmpty else s

/-- The walk along a list of slabs for the one at `baseAddr`; `none` when it does not end.
A walk of more than `2 ^ 64` steps has come back to a header it has been at. -/
def findSlab (s : Heap β) (baseAddr : Nat) : Nat → Nat → Option (Option Nat)
  | 0, _ => none
  | fuel + 1, currHeader =>
    if currHeader = 0 then some none
    else if s.virtStart currHeader = baseAddr then some (some currHeader)
    else findSlab s baseAddr fuel (s.next currHeader)

variable (A : PageAlloc β) (cachesAt : Nat)

/-- The loop of `kvmfree` over the off-slab caches, and `kfree` after it. -/
def freeOffSlab (s : Heap β) (baseAddr slot : Nat) : List Nat → Outcome (Heap β) Unit
  | [] => (A.kfree s.pages baseAddr).within fun b => { s with pages := b }
  | i :: is =>
    match findSlab s baseAddr (2 ^ 64 + 1) (s.head i .listFull) with
    | none => .spin s
    | some (some h) => .done () (freeFromFull s i h slot)
    | some none =>
      match findSlab s baseAddr (2 ^ 64 + 1) (s.head i .listPartial) with
      | none => .spin s
      | some (some h) => .done () (freeFromPartial s i h slot)
      | some none => freeOffSlab s baseAddr slot is

/-- The loop of `kvmfree` that compares the first word of a page with the addresses of
the on-slab caches. -/
def onSlabCache (parent : Nat) : Option Nat :=
  (List.range 6).find? fun i => cacheAddr cachesAt i == parent

/-- `kvmfree`. -/
def kvmfree (s : Heap β) (slot : Nat) : Outcome (Heap β) Unit :=
  if slot = 0 then .done () s
  else
    let baseAddr := andNot slot 0xFFF
    match onSlabCache cachesAt (s.parentCache baseAddr) with
    | some i => .done () (freeOnSlab s i baseAddr slot)
    | none => freeOffSlab A s baseAddr slot [6, 7]

end Free

end RexOS.Kvmalloc
