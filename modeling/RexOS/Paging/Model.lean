import RexOS.Core.Bits
import RexOS.Kalloc.Service

/-!
# Page tables

`kvm_map`, `uvm_map`, `create_user_table`, `uvm_translate` and `uvm_unmap` of
`kernel/vm.c`. Memory is read and written in words of 64 bits by address; a table is the
address of its first entry. The two map routines differ in one bit of the leaves they
write, so they are one routine with that bit as an argument.
-/

namespace RexOS.Paging

open Bits RexOS.Kalloc

/-- Memory, the page allocator, the pages it has given and the address of every word
written, both latest first. -/
structure Space (β : Type) where
  mem : Nat → Nat
  pages : β
  given : List Nat
  written : List Nat

variable {β : Type}

/-- Write one word. -/
def Space.store (s : Space β) (addr value : Nat) : Space β :=
  { s with mem := Function.update s.mem addr value, written := addr :: s.written }

/-- The address of `table[vpn]`. -/
def entryAt (table vpn : Nat) : Nat := wrap (table + 8 * vpn)

/-- The nine bits of an address from `shift` on. -/
def vpn (virAddr shift : Nat) : Nat := virAddr >>> shift &&& 0x1FF

/-- The table an entry points to. -/
def tableOf (pte : Nat) : Nat := wrap ((pte >>> 10) <<< 12)

/-- The entry that points to a table. -/
def linkPte (page : Nat) : Nat := (page >>> 12) <<< 10 ||| 0x1

/-- The entry that maps `physAddr`; `user` is the U bit or nothing. -/
def leafPte (user perm physAddr : Nat) : Nat :=
  (physAddr >>> 12) <<< 10 ||| (if perm &&& 4 ≠ 0 then 0x40 ||| 0x80 else 0x40) ||| user |||
    perm ||| 0x1

/-- `kalloc(0)`. -/
def kallocPage (A : PageAlloc β) (s : Space β) : Outcome (Space β) Nat :=
  ((A.kalloc s.pages 0).within fun b => { s with pages := b }).bind fun page s =>
    .done page { s with given := page :: s.given }

/-- Write zero to the 512 entries of a page. -/
def zeroTable (page : Nat) (s : Space β) : Space β :=
  (List.range 512).foldl (fun s i => s.store (entryAt page i) 0) s

/-- The table the entry at `slot` points to, made from a new page where the entry is not
valid. `code` is the panic of the level and `virAddr` its argument. -/
def ensureTable (A : PageAlloc β) (code virAddr slot : Nat) (s : Space β) :
    Outcome (Space β) Nat :=
  if s.mem slot &&& 0x1 = 0 then
    (kallocPage A s).bind fun newPage s =>
      if newPage = 0 then .panic code virAddr s
      else
        let s := (zeroTable newPage s).store slot (linkPte newPage)
        .done (tableOf (s.mem slot)) s
  else .done (tableOf (s.mem slot)) s

/-- Write a leaf to the entry at `slot`, which must not be valid. -/
def putLeaf (user perm slot paPhysAddr : Nat) (s : Space β) : Outcome (Space β) Unit :=
  if s.mem slot &&& 0x1 ≠ 0 then .panic 107 paPhysAddr s
  else .done () (s.store slot (leafPte user perm paPhysAddr))

section Pieces

variable (A : PageAlloc β) (user perm rootTable virAddr : Nat)

/-- Map 1 GiB. -/
def mapGiga (paVirAddr paPhysAddr : Nat) (s : Space β) : Outcome (Space β) Unit :=
  putLeaf user perm (entryAt rootTable (vpn paVirAddr 30)) paPhysAddr s

/-- Map 2 MiB. -/
def mapMega (paVirAddr paPhysAddr : Nat) (s : Space β) : Outcome (Space β) Unit :=
  (ensureTable A 110 virAddr (entryAt rootTable (vpn paVirAddr 30)) s).bind fun lv1Table s =>
    putLeaf user perm (entryAt lv1Table (vpn paVirAddr 21)) paPhysAddr s

/-- Map 4 KiB. -/
def mapPage (paVirAddr paPhysAddr : Nat) (s : Space β) : Outcome (Space β) Unit :=
  (ensureTable A 110 virAddr (entryAt rootTable (vpn paVirAddr 30)) s).bind fun lv1Table s =>
    (ensureTable A 111 virAddr (entryAt lv1Table (vpn paVirAddr 21)) s).bind fun lv0Table s =>
      putLeaf user perm (entryAt lv0Table (vpn paVirAddr 12)) paPhysAddr s

/-- The loop `while ( size > 0 )`. -/
def mapLoop : (fuel paVirAddr paPhysAddr size : Nat) → Space β → Outcome (Space β) Unit
  | 0, _, _, _, s => .spin s
  | fuel + 1, paVirAddr, paPhysAddr, size, s =>
    if size = 0 then .done () s
    else if 0x40000000 ≤ size ∧ paVirAddr &&& 0x3FFFFFFF = 0 ∧
        paPhysAddr &&& 0x3FFFFFFF = 0 then
      (mapGiga user perm rootTable paVirAddr paPhysAddr s).bind fun _ s =>
        mapLoop fuel (wrap (paVirAddr + 0x40000000)) (wrap (paPhysAddr + 0x40000000))
          (wrapSub size 0x40000000) s
    else if 0x200000 ≤ size ∧ paVirAddr &&& 0x1FFFFF = 0 ∧ paPhysAddr &&& 0x1FFFFF = 0 then
      (mapMega A user perm rootTable virAddr paVirAddr paPhysAddr s).bind fun _ s =>
        mapLoop fuel (wrap (paVirAddr + 0x200000)) (wrap (paPhysAddr + 0x200000))
          (wrapSub size 0x200000) s
    else
      (mapPage A user perm rootTable virAddr paVirAddr paPhysAddr s).bind fun _ s =>
        mapLoop fuel (wrap (paVirAddr + 4096)) (wrap (paPhysAddr + 4096)) (wrapSub size 4096) s

end Pieces

/-- The routine behind `kvm_map` and `uvm_map`. -/
def mapRange (A : PageAlloc β) (user rootTable virAddr physAddr size perm : Nat) (s : Space β) :
    Outcome (Space β) Unit :=
  let size := andNot (wrap (size + 0xFFF)) 0xFFF
  mapLoop A user perm rootTable virAddr (size / 4096 + 1) (andNot virAddr 0xFFF)
    (andNot physAddr 0xFFF) size s

def kvmMap (A : PageAlloc β) (rootTable virAddr physAddr size perm : Nat) (s : Space β) :
    Outcome (Space β) Unit :=
  mapRange A 0 rootTable virAddr physAddr size perm s

def uvmMap (A : PageAlloc β) (userTable virAddr physAddr size perm : Nat) (s : Space β) :
    Outcome (Space β) Unit :=
  mapRange A 0x10 userTable virAddr physAddr size perm s

/-- `create_user_table`; `trampoline` is the address of `_user_trampoline`. -/
def createUserTable (A : PageAlloc β) (trampoline processKstack : Nat) (s : Space β) :
    Outcome (Space β) Nat :=
  (kallocPage A s).bind fun newUserTable s =>
    (kvmMap A newUserTable 0x3FFFFFF000 trampoline 4096 8 (zeroTable newUserTable s)).bind
      fun _ s => (kvmMap A newUserTable 0x3FFFFFE000 processKstack 4096 6 s).bind
        fun _ s => .done newUserTable s

/-- The `satp` of a process with this table: Sv39 and the page number. -/
def satpOf (userTable : Nat) : Nat := 0x8000000000000000 ||| userTable >>> 12

/-- The root table that `satp` names. -/
def satpTable (userSatp : Nat) : Nat := wrap ((userSatp &&& 0xFFFFFFFFFFF) <<< 12)

def uvmTranslate (mem : Nat → Nat) (userSatp virAddr : Nat) : Nat :=
  let lv2Table := satpTable userSatp
  let pteLv2 := mem (entryAt lv2Table (vpn virAddr 30))
  if pteLv2 &&& 0x1 = 0 then 0
  else
    let lv1Table := tableOf pteLv2
    let pteLv1 := mem (entryAt lv1Table (vpn virAddr 21))
    if pteLv1 &&& 0x1 = 0 then 0
    else
      let lv0Table := tableOf pteLv1
      let pteLv0 := mem (entryAt lv0Table (vpn virAddr 12))
      if pteLv0 &&& 0x1 = 0 then 0
      else tableOf pteLv0 ||| (virAddr &&& 0xFFF)

def uvmUnmap (userSatp virAddr : Nat) (s : Space β) : Nat × Space β :=
  let lv2Table := satpTable userSatp
  let pteLv2 := s.mem (entryAt lv2Table (vpn virAddr 30))
  if pteLv2 &&& 0x1 = 0 then (0, s)
  else
    let lv1Table := tableOf pteLv2
    let pteLv1 := s.mem (entryAt lv1Table (vpn virAddr 21))
    if pteLv1 &&& 0x1 = 0 then (0, s)
    else
      let lv0Table := tableOf pteLv1
      let pteLv0 := s.mem (entryAt lv0Table (vpn virAddr 12))
      if pteLv0 &&& 0x1 = 0 then (0, s)
      else (1, s.store (entryAt lv0Table (vpn virAddr 12)) (andNot pteLv0 0x1))

/-! ## One call among several -/

/-- The arguments of a call of `kvm_map` or of `uvm_map`. -/
structure MapCall where
  isUser : Bool
  virAddr : Nat
  physAddr : Nat
  size : Nat
  perm : Nat
  deriving DecidableEq

/-- Make the call on a table. -/
def MapCall.exec (c : MapCall) (A : PageAlloc β) (rootTable : Nat) (s : Space β) :
    Outcome (Space β) Unit :=
  if c.isUser then uvmMap A rootTable c.virAddr c.physAddr c.size c.perm s
  else kvmMap A rootTable c.virAddr c.physAddr c.size c.perm s

/-- Make calls on a table one after the other. -/
def mapAll (A : PageAlloc β) (rootTable : Nat) : List MapCall → Space β → Outcome (Space β) Unit
  | [], s => .done () s
  | c :: cs, s => (c.exec A rootTable s).bind fun _ s => mapAll A rootTable cs s

end RexOS.Paging
