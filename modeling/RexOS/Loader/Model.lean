import RexOS.Core.Bytes
import RexOS.Paging.Model

/-!
# The loader

What `spawn_process` of `kernel/scheduler.c` does to memory: the kernel stack with the trap frame,
the table of the process, the segments of its ELF image, its stack and its capability words. The
image lies in the data of the kernel and is only read.
-/

namespace RexOS.Loader

open Bits RexOS.Kalloc RexOS.Paging

variable {β : Type}

/-! ## Bytes -/

/-- A word with another byte `i`. -/
def putByte (w i : Nat) (v : UInt8) : Nat :=
  w / 256 ^ (i + 1) * 256 ^ (i + 1) + v.toNat * 256 ^ i + w % 256 ^ i

/-- The byte at an address of a memory in words. -/
def byteAt (mem : Nat → Nat) (addr : Nat) : UInt8 := Bytes.byteOf (mem (addr / 8 * 8)) (addr % 8)

/-- Write one byte. -/
def storeByte (s : Space β) (addr : Nat) (v : UInt8) : Space β :=
  s.store (addr / 8 * 8) (putByte (s.mem (addr / 8 * 8)) (addr % 8) v)

/-! ## Program headers -/

/-- `struct elf64_phdr`, as far as it is used. -/
structure Phdr where
  pType : Nat
  pFlags : Nat
  pOffset : Nat
  pVaddr : Nat
  pFilesz : Nat
  pMemsz : Nat
  deriving DecidableEq

/-- The header `ph` bytes behind the start of the image. -/
def phdrAt (binary : Nat → UInt8) (ph : Nat) : Phdr where
  pType := Bytes.load binary ph 4
  pFlags := Bytes.load binary (ph + 4) 4
  pOffset := Bytes.load binary (ph + 8) 8
  pVaddr := Bytes.load binary (ph + 16) 8
  pFilesz := Bytes.load binary (ph + 32) 8
  pMemsz := Bytes.load binary (ph + 40) 8

/-- `4096 << order`, an `int`, as an `unsigned long`: the shift takes `order` modulo 32, and the
sign is extended. -/
def shiftPage (order : Nat) : Nat :=
  let x := 4096 * 2 ^ (order % 32) % 2 ^ 32
  if x < 2 ^ 31 then x else x + (2 ^ 64 - 2 ^ 32)

/-- `while ( mem_size > (4096 << order) ) order++`. -/
def orderLoop (memSize : Nat) : (fuel order : Nat) → Option Nat
  | 0, _ => none
  | fuel + 1, order =>
    if shiftPage order < memSize then orderLoop memSize fuel (order + 1) else some order

/-- The order the loop ends with; what 32 rounds do not find is never found. -/
def orderOf (memSize : Nat) : Option Nat := orderLoop memSize 32 0

/-- The permissions for `p_flags`. -/
def permOf (pFlags : Nat) : Nat :=
  (if pFlags &&& 0x1 ≠ 0 ∧ pFlags &&& 0x2 = 0 then 8 else if pFlags &&& 0x2 ≠ 0 then 4 else 0) +
    if pFlags &&& 0x4 ≠ 0 then 2 else 0

/-! ## Segments -/

/-- `kalloc(order)`. -/
def kallocBlock (A : PageAlloc β) (order : Nat) (s : Space β) : Outcome (Space β) Nat :=
  ((A.kalloc s.pages order).within fun b => { s with pages := b }).bind fun block s =>
    .done block { s with given := block :: s.given }

/-- `n` rounds of the loop that copies. -/
def copyLoop (binary : Nat → UInt8) (filePtr buff : Nat) : Nat → Space β → Space β
  | 0, s => s
  | n + 1, s =>
    storeByte (copyLoop binary filePtr buff n s) (wrap (buff + n)) (binary (wrap (filePtr + n)))

/-- `n` rounds of the loop that fills with zero from byte `j` on. -/
def zeroLoop (buff j : Nat) : Nat → Space β → Space β
  | 0, s => s
  | n + 1, s => storeByte (zeroLoop buff j n s) (wrap (buff + (j + n))) 0

section Segments

variable (A : PageAlloc β) (binary : Nat → UInt8) (userTable : Nat)

/-- The block of a segment. -/
def fillBlock (ph : Phdr) (buff : Nat) (s : Space β) : Space β :=
  zeroLoop buff ph.pFilesz (ph.pMemsz - ph.pFilesz) (copyLoop binary ph.pOffset buff ph.pFilesz s)

/-- A header with `p_type` 1. -/
def loadSegment (ph : Phdr) (s : Space β) : Outcome (Space β) Unit :=
  match orderOf ph.pMemsz with
  | none => .spin s
  | some order =>
    (kallocBlock A order s).bind fun buff s =>
      uvmMap A userTable ph.pVaddr buff (shiftPage order) (permOf ph.pFlags)
        (fillBlock binary ph buff s)

/-- The loop over the program headers, with `n` to go from the one at `ph` on. -/
def loadSegments (phentsize : Nat) : (n ph : Nat) → Space β → Outcome (Space β) Unit
  | 0, _, s => .done () s
  | n + 1, ph, s =>
    (if (phdrAt binary ph).pType = 1 then loadSegment A binary userTable (phdrAt binary ph) s
      else .done () s).bind fun _ s => loadSegments phentsize n (wrap (ph + phentsize)) s

end Segments

/-! ## spawn_process -/

/-- What `spawn_process` knows of the kernel: its argument `sstatus_val`, the addresses of
`root_table`, `strap_router`, `get_runqueue()` and `_user_trampoline`, and the pid it has taken. -/
structure Site where
  sstatusVal : Nat
  rootTable : Nat
  strapRouter : Nat
  runqueue : Nat
  userTrampoline : Nat
  pid : Nat

/-- `sizeof(struct trapframe)`: 32 registers and seven words more. -/
def trapframeSize : Nat := 312

/-- Write zero to `n` words. -/
def zeroWords (n addr : Nat) (s : Space β) : Space β :=
  (List.range n).foldl (fun s i => s.store (entryAt addr i) 0) s

/-- The trap frame before there is a table. -/
def initTrapframe (site : Site) (tf : Nat) (s : Space β) : Space β :=
  let s := zeroWords (trapframeSize / 8) tf s
  let s := s.store (entryAt tf 33) site.sstatusVal
  let s := s.store (entryAt tf 34) (satpOf site.rootTable)
  let s := s.store (entryAt tf 36) site.strapRouter
  let s := s.store (entryAt tf 35) tf
  s.store (entryAt tf 38) site.runqueue

/-- The four bytes an ELF file starts with. -/
def IsElf (binary : Nat → UInt8) : Prop :=
  binary 0 = 0x7F ∧ binary 1 = 0x45 ∧ binary 2 = 0x4C ∧ binary 3 = 0x46

instance (binary : Nat → UInt8) : Decidable (IsElf binary) := inferInstanceAs (Decidable (_ ∧ _))

/-- The stack of the process and its capability words, after its segments. -/
def finishProcess (A : PageAlloc β) (binary : Nat → UInt8) (tf userTable : Nat) (s : Space β) :
    Outcome (Space β) (Option Nat) :=
  (kallocBlock A 0 (s.store (entryAt tf 32) (Bytes.load binary 24 8))).bind fun ustack s =>
    (uvmMap A userTable 0x7FFFF000 ustack 4096 6 (zeroTable ustack s)).bind fun _ s =>
      (kallocBlock A 2 (s.store (entryAt tf 2) 0x80000000)).bind fun capabilityRoot s =>
        .done (some (satpOf userTable)) (zeroWords 2048 capabilityRoot s)

/-- `spawn_process`; the result is the `satp` of the new process. -/
def spawnProcess (A : PageAlloc β) (site : Site) (binary : Nat → UInt8) (s : Space β) :
    Outcome (Space β) (Option Nat) :=
  (kallocBlock A 0 s).bind fun processStack s =>
    if processStack = 0 then .done none s
    else
      let tf := wrapSub (wrap (processStack + 4096)) trapframeSize
      (createUserTable A site.userTrampoline processStack (initTrapframe site tf s)).bind
        fun userTable s =>
          let s := s.store (entryAt tf 37) (satpOf userTable)
          if ¬ IsElf binary then .panic 116 site.pid s
          else
            (loadSegments A binary userTable (Bytes.load binary 54 2) (Bytes.load binary 56 2)
              (Bytes.load binary 32 8) s).bind fun _ s => finishProcess A binary tf userTable s

end RexOS.Loader
