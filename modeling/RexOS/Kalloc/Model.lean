import RexOS.Core.Bits
import RexOS.Core.Outcome
import Mathlib.Logic.Function.Basic

/-!
# The page allocator of `kernel/kalloc.c`

`page_array` has one record per page of RAM and `free_lists` one head index per
order; both are linked by page index, with `0xFFFFFFFF` for "none". A block of
order `k` is `2 ^ k` pages, recorded at its first page only. `kalloc_lock` is not
modelled: the routines below run one at a time.

`written` is not part of the program. It records every index of `page_array` that
has been written, so that an access outside the array can be spoken about.
-/

namespace RexOS.Kalloc

open Bits

/-- `MAX_ORDER`. -/
def maxOrder : Nat := 12

/-- The index `0xFFFFFFFF`, which ends a list. -/
def noIdx : Nat := 0xFFFFFFFF

/-- `struct page`. -/
structure Page where
  order : Nat
  flag : Nat
  nextIdx : Nat
  prevIdx : Nat
  allocCaller : Nat
  deriving DecidableEq, Repr

/-- `struct meta` of `dtb.h`; `ram` is the one the allocator reads. -/
structure Meta where
  baseAddr : Nat
  totalSize : Nat
  deriving DecidableEq, Repr

/-- The allocator's data. -/
structure State where
  pageArray : Nat → Page
  freeLists : Nat → Nat
  /-- Ghost: the indices of `page_array` written so far. -/
  written : List Nat

namespace State

/-- A store to the record of page `i`. -/
def setPage (s : State) (i : Nat) (f : Page → Page) : State :=
  { s with
    pageArray := Function.update s.pageArray i (f (s.pageArray i))
    written := i :: s.written }

/-- `free_lists[k] = i`. -/
def setHead (s : State) (k i : Nat) : State :=
  { s with freeLists := Function.update s.freeLists k i }

@[simp] theorem setPage_same (s : State) (i : Nat) (f : Page → Page) :
    (s.setPage i f).pageArray i = f (s.pageArray i) := by simp [setPage]

@[simp] theorem setPage_ne (s : State) {i j : Nat} (f : Page → Page) (h : j ≠ i) :
    (s.setPage i f).pageArray j = s.pageArray j := by simp [setPage, h]

/-- A store into the page array. -/
theorem setPage_page (s : State) (i j : Nat) (f : Page → Page) :
    (s.setPage i f).pageArray j = if j = i then f (s.pageArray j) else s.pageArray j := by
  by_cases h : j = i
  · subst h; simp
  · simp [h]

@[simp] theorem setPage_freeLists (s : State) (i : Nat) (f : Page → Page) :
    (s.setPage i f).freeLists = s.freeLists := rfl

@[simp] theorem setPage_written (s : State) (i : Nat) (f : Page → Page) :
    (s.setPage i f).written = i :: s.written := rfl

@[simp] theorem setHead_pageArray (s : State) (k i : Nat) :
    (s.setHead k i).pageArray = s.pageArray := rfl

@[simp] theorem setHead_freeLists (s : State) (k i : Nat) :
    (s.setHead k i).freeLists = Function.update s.freeLists k i := rfl

@[simp] theorem setHead_written (s : State) (k i : Nat) :
    (s.setHead k i).written = s.written := rfl

/-- The head insertion that `kalloc_init`, `kalloc` and `kfree` each write out:
page `i` becomes the first of list `k`. -/
def pushFree (s : State) (k i : Nat) : State :=
  let prevPage := s.freeLists k
  let s := s.setPage i fun p => { p with nextIdx := prevPage }
  let s := s.setHead k i
  let s := if prevPage ≠ noIdx then s.setPage prevPage fun p => { p with prevIdx := i } else s
  s.setPage i fun p => { p with prevIdx := noIdx }

/-- `kalloc` takes the head `idx` off list `k`. -/
def popFree (s : State) (k idx : Nat) : State :=
  let s := s.setHead k (s.pageArray idx).nextIdx
  let currHead := s.freeLists k
  if currHead ≠ noIdx then s.setPage currHead fun p => { p with prevIdx := noIdx } else s

/-- `kfree` takes a buddy out of list `k`, wherever it stands there, and clears its record. -/
def takeBuddy (s : State) (k b : Nat) : State :=
  let s := if (s.pageArray b).prevIdx = noIdx then s.setHead k (s.pageArray b).nextIdx else s
  let s := if (s.pageArray b).prevIdx ≠ noIdx then
      s.setPage (s.pageArray b).prevIdx fun p => { p with nextIdx := (s.pageArray b).nextIdx }
    else s
  let s := if (s.pageArray b).nextIdx ≠ noIdx then
      s.setPage (s.pageArray b).nextIdx fun p => { p with prevIdx := (s.pageArray b).prevIdx }
    else s
  s.setPage b fun _ =>
    { order := 0, flag := 2, nextIdx := noIdx, prevIdx := noIdx, allocCaller := 0 }

end State

/-! ## Initialisation -/

section Layout

variable (ram : Meta) (bssEnd : Nat)

/-- `metadata_start`, where `page_array` is placed. -/
def metadataStart : Nat := andNot (wrap (bssEnd + 0xFFF)) 0xFFF

/-- `total_pages`. -/
def totalPages : Nat := ram.totalSize / 4096

/-- `metadata_blob_size`; `sizeof(struct page)` is 32. -/
def metadataBlobSize : Nat := wrap (totalPages ram * 32 + maxOrder * 16)

/-- `metadata_end`. -/
def metadataEnd : Nat := wrap (metadataStart bssEnd + metadataBlobSize ram)

/-- `max_block_size`, 8 MiB. -/
def maxBlockSize : Nat := (1 <<< (maxOrder - 1)) * 4096

/-- `alignment_mask`. -/
def alignmentMask : Nat := maxBlockSize - 1

/-- `free_pool_start`. -/
def freePoolStart : Nat := andNot (wrap (metadataEnd ram bssEnd + alignmentMask)) alignmentMask

/-- `pool_horizon`. -/
def poolHorizon : Nat := wrap (ram.baseAddr + ram.totalSize)

end Layout

/-- The loop that marks the first `n` pages as reserved; `alloc_caller` is left as it was. -/
def clearPages (s : State) : Nat → State
  | 0 => s
  | n + 1 => (clearPages s n).setPage n fun p =>
      { p with order := 0, flag := 2, nextIdx := noIdx, prevIdx := noIdx }

/-- The loop that empties the `MAX_ORDER` lists. -/
def clearLists (s : State) : State :=
  { s with freeLists := fun k => if k < maxOrder then noIdx else s.freeLists k }

/-- The loop that puts one block of the largest order after the other on its list. The
address is a multiple of 8 MiB in a 64-bit register, so a loop that has not ended after
`2 ^ 41` rounds has come round to an address it has been at before. -/
def poolLoop (ram : Meta) : Nat → Nat → State → Outcome State Unit
  | 0, _, s => .spin s
  | fuel + 1, currentPhysAddr, s =>
    if currentPhysAddr < poolHorizon ram then
      let idx := wrapSub currentPhysAddr ram.baseAddr / 4096
      let s := s.setPage idx fun p => { p with flag := 0, order := maxOrder - 1 }
      let s := s.pushFree (maxOrder - 1) idx
      poolLoop ram fuel (wrap (currentPhysAddr + maxBlockSize)) s
    else .done () s

/-- `kalloc_init`, after `dtb_parser_ram` has filled in `ram`. -/
def kallocInit (ram : Meta) (bssEnd : Nat) (s : State) : Outcome State Unit :=
  if freePoolStart ram bssEnd ≥ poolHorizon ram then .panic 106 (freePoolStart ram bssEnd) s
  else
    let s := clearPages s (totalPages ram)
    let s := clearLists s
    poolLoop ram (2 ^ 41 + 1) (freePoolStart ram bssEnd) s

/-! ## Allocation -/

/-- The loop that looks for the first order from `order` on with a non-empty list. -/
def search (s : State) (order : Nat) : Option Nat :=
  (List.range' order (maxOrder - order)).find? fun k => s.freeLists k != noIdx

/-- The loop that halves the block at `idx` down from order `order + d` to `order`, each
time freeing the upper half. -/
def splitDown (s : State) (idx order : Nat) : Nat → State
  | 0 => s
  | d + 1 =>
    let currOrder := order + d
    let buddyIdx := idx + 1 <<< currOrder
    let s := s.setPage buddyIdx fun p => { p with order := currOrder, flag := 0 }
    let s := s.pushFree currOrder buddyIdx
    splitDown s idx order d

/-- `kalloc`; `caller` is `__builtin_return_address(0)`. -/
def kalloc (ram : Meta) (s : State) (order caller : Nat) : Outcome State Nat :=
  if order ≥ maxOrder then .panic 100 order s
  else
    match search s order with
    | none => .panic 101 0 s
    | some currOrder =>
      let idx := s.freeLists currOrder
      let s := s.popFree currOrder idx
      let s := splitDown s idx order (currOrder - order)
      let s := s.setPage idx fun _ =>
        { order := order, flag := 1, nextIdx := noIdx, prevIdx := noIdx, allocCaller := caller }
      .done (wrap (ram.baseAddr + idx * 4096)) s

/-! ## Freeing -/

/-- The merge loop, from a block at `idx` of order `order`, with `d` orders to go. It
returns the block it ends with. -/
def coalesce (total : Nat) : Nat → State → Nat → Nat → State × Nat × Nat
  | 0, s, idx, order => (s, idx, order)
  | d + 1, s, idx, order =>
    let buddyIdx := idx ^^^ 1 <<< order
    if buddyIdx ≥ total then (s, idx, order)
    else if (s.pageArray buddyIdx).flag ≠ 0 then (s, idx, order)
    else if (s.pageArray buddyIdx).order ≠ order then (s, idx, order)
    else coalesce total d (s.takeBuddy order buddyIdx) (andNot idx (1 <<< order)) (order + 1)

/-- The end of `kfree`: the merged block goes to the head of its list. -/
def release (s : State) (idx order : Nat) : State :=
  let s := s.setPage idx fun p => { p with flag := 0, order := order }
  let s := s.pushFree order idx
  s.setPage idx fun p => { p with allocCaller := 0 }

/-- The page index `kfree` computes from an address. -/
def pageIndex (ram : Meta) (physAddr : Nat) : Nat := wrapSub physAddr ram.baseAddr / 4096

/-- `kfree`. -/
def kfree (ram : Meta) (s : State) (physAddr : Nat) : Outcome State Unit :=
  if physAddr &&& 0xFFF ≠ 0 then .panic 104 physAddr s
  else
    let idx := pageIndex ram physAddr
    if idx ≥ totalPages ram then .panic 102 physAddr s
    else if (s.pageArray idx).flag = 0 then .panic 103 physAddr s
    else if (s.pageArray idx).flag = 2 then .panic 105 physAddr s
    else
      let order := (s.pageArray idx).order
      let (s, idx, order) := coalesce (totalPages ram) (maxOrder - 1 - order) s idx order
      .done () (release s idx order)

end RexOS.Kalloc
