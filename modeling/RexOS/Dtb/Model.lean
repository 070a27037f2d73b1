import RexOS.Kalloc.Model

/-!
# The device tree parsers

`string.c`, and the five walks of `dtb.c` over a flattened device tree. Addresses count from
`_dtb_ptr` on; the blob lies so far below the end of memory that no pointer wraps. Only the bytes
of the blob may be read: a read behind them ends a walk. A string is what memory holds from its
first byte on.
-/

namespace RexOS.Dtb

open Bits Kalloc

/-- Why a walk does not return. -/
inductive Stop where
  /-- It reads a byte outside the blob. -/
  | outside
  /-- The kernel panics. -/
  | panic (code : Nat)
  /-- A loop is out of turns. -/
  | spin
  deriving DecidableEq

/-- What reads the blob. -/
abbrev Read (α : Type) := Except Stop α

/-- The bytes from `_dtb_ptr` on. -/
abbrev Blob := List UInt8

/-- An `unsigned int`. -/
def wrap32 (x : Nat) : Nat := x % 2 ^ 32

/-! ## Words -/

/-- `*ptr`. -/
def load (b : Blob) (ptr : Nat) : Read Nat :=
  match b.drop ptr with
  | b₀ :: b₁ :: b₂ :: b₃ :: _ =>
    .ok (b₀.toNat + 256 * (b₁.toNat + 256 * (b₂.toNat + 256 * b₃.toNat)))
  | _ => .error .outside

/-- The loop of `kswap_endian`. -/
def kswapEndian (inputEndian : Nat) : Nat :=
  (List.range 4).foldl
    (fun outputEndian i =>
      outputEndian ||| ((inputEndian >>> (24 - 8 * i)) &&& 0xFF) <<< (8 * i)) 0

/-- `kswap_endian(*ptr)`. -/
def word (b : Blob) (ptr : Nat) : Read Nat := do
  let x ← load b ptr
  pure (kswapEndian x)

/-- Two words, the high one first. -/
def cells (b : Blob) (ptr : Nat) : Read Nat := do
  let high ← word b ptr
  let low ← word b (ptr + 4)
  pure (high <<< 32 ||| low)

/-! ## Strings -/

/-- The bytes of a string of the program. -/
def chars (s : String) : List UInt8 := s.toList.map fun c => UInt8.ofNat c.toNat

/-- The string as it lies in memory. -/
def cstr (s : String) : List UInt8 := chars s ++ [0]

def kstrcmp : List UInt8 → List UInt8 → Read Bool
  | c₁ :: s₁, c₂ :: s₂ =>
    if c₁ ≠ c₂ then .ok false
    else if c₁ = 0 then .ok true
    else kstrcmp s₁ s₂
  | _, _ => .error .outside

def kstrlen : List UInt8 → Read Nat
  | [] => .error .outside
  | c :: s =>
    if c ≠ 0 then do
      let len ← kstrlen s
      pure (len + 1)
    else .ok 0

def kstrHasPrefix : List UInt8 → List UInt8 → Read Bool
  | [], _ => .error .outside
  | c₁ :: s₁, str =>
    if c₁ = 0 then .ok true
    else match str with
      | [] => .error .outside
      | c₂ :: s₂ =>
        if c₂ = 0 then .ok false
        else if c₁ ≠ c₂ then .ok false
        else kstrHasPrefix s₁ s₂

/-! ## The walk that the parsers share -/

/-- How many bytes the pointer moves over `n` bytes: `((n + 3) & ~3) / 4` words. -/
def skip (n : Nat) : Nat := 4 * (andNot (wrap32 (n + 3)) 3 / 4)

/-- What a parser does at each token. -/
structure Visitor (σ : Type) where
  /-- At a node; the name comes next. -/
  beginNode : (name : List UInt8) → σ → Read σ
  endNode : σ → σ
  /-- At a property; its length, the offset of its name and its value come next. -/
  prop : (b : Blob) → (strings ptr propLen : Nat) → σ → Read σ

variable {σ : Type}

/-- The loop over the tokens. -/
def walk (V : Visitor σ) (b : Blob) (strings endTk endDtb : Nat) : Nat → Nat → σ → Read σ
  | 0, _, _ => .error .spin
  | n + 1, ptr, s =>
    if ptr < endTk ∧ ptr < endDtb then do
      let token ← word b ptr
      let ptr := ptr + 4
      if token = 0x00000001 then do
        let s ← V.beginNode (b.drop ptr) s
        let len ← kstrlen (b.drop ptr)
        walk V b strings endTk endDtb n (ptr + skip (len + 1)) s
      else if token = 0x00000002 then walk V b strings endTk endDtb n ptr (V.endNode s)
      else if token = 0x00000003 then do
        let propLen ← word b ptr
        let s ← V.prop b strings ptr propLen s
        walk V b strings endTk endDtb n (ptr + 8 + skip propLen) s
      else walk V b strings endTk endDtb n ptr s
    else .ok s

/-- A parser: the header, and the walk. -/
def parser (V : Visitor σ) (b : Blob) (s : σ) : Read σ := do
  let magic ← word b 0
  if magic = 0xD00DFEED then do
    let offDtStruct ← word b 8
    let offDtStrings ← word b 12
    let totalsize ← word b 4
    let sizeDtStruct ← word b 36
    walk V b offDtStrings (offDtStruct + 4 * (sizeDtStruct / 4)) totalsize (b.length + 1)
      offDtStruct s
  else pure s

/-! ## The parsers -/

/-- The data of `dtb_parser_ram`. -/
structure RamScan where
  insideMemory : Bool
  ram : Meta
  deriving DecidableEq

def ramVisitor : Visitor RamScan where
  beginNode name s := do
    let inside ← kstrHasPrefix (cstr "memory") name
    pure { s with insideMemory := inside }
  endNode s := s
  prop b strings ptr _ s := do
    let nameoff ← word b (ptr + 4)
    if s.insideMemory then do
      if ← kstrcmp (cstr "reg") (b.drop (strings + nameoff)) then do
        let ramBase ← cells b (ptr + 8)
        let ramSize ← cells b (ptr + 16)
        pure { s with ram := ⟨ramBase, ramSize⟩ }
      else pure s
    else pure s

def dtbParserRam (b : Blob) (ram : Meta) : Read Meta := do
  let s ← parser ramVisitor b ⟨false, ram⟩
  pure s.ram

/-- The data of `dtb_parser_time` and of `dtb_parser_hart`, each with the global that it sets.
`hart` is an `unsigned long` in the source, a natural number here: a blob of less than `2 ^ 32`
bytes has fewer nodes than that, so that a count from 0 on does not wrap. -/
structure CpusScan where
  cpusDepth : Nat
  global : Nat
  deriving DecidableEq

def timeVisitor : Visitor CpusScan where
  beginNode name s := do
    if ← kstrHasPrefix (cstr "cpus") name then pure { s with cpusDepth := 1 }
    else if s.cpusDepth > 0 then pure { s with cpusDepth := s.cpusDepth + 1 }
    else pure s
  endNode s := if s.cpusDepth > 0 then { s with cpusDepth := s.cpusDepth - 1 } else s
  prop b strings ptr propLen s := do
    let nameoff ← word b (ptr + 4)
    if s.cpusDepth > 0 then do
      if ← kstrcmp (cstr "timebase-frequency") (b.drop (strings + nameoff)) then do
        let freq ← word b (ptr + 8)
        if propLen = 8 then do
          let low ← word b (ptr + 12)
          pure { s with global := freq <<< 32 ||| low }
        else pure { s with global := freq }
      else pure s
    else pure s

def dtbParserTime (b : Blob) (timebaseFreq : Nat) : Read Nat := do
  let s ← parser timeVisitor b ⟨0, timebaseFreq⟩
  pure s.global

/-- The data of `dtb_parser_context`. -/
structure ContextScan where
  insidePlicContext : Bool
  contextIdx : Nat
  deriving DecidableEq

/-- The loop that looks for interrupt 9 from pair `i` on; `n` pairs are left. -/
def seekNine (b : Blob) (value : Nat) : (n i : Nat) → Read Nat
  | 0, i => .ok i
  | n + 1, i => do
    let x ← word b (value + 4 * (i + (i + 1)))
    if x ≠ 0x9 then seekNine b value n (i + 1) else pure i

def contextVisitor : Visitor ContextScan where
  beginNode name s := do
    let inside ← kstrHasPrefix (cstr "plic@") name
    pure { s with insidePlicContext := inside }
  endNode s := s
  prop b strings ptr propLen s := do
    let nameoff ← word b (ptr + 4)
    if s.insidePlicContext then do
      if ← kstrcmp (cstr "interrupts-extended") (b.drop (strings + nameoff)) then do
        let i ← seekNine b (ptr + 8) (propLen / 8) 0
        if i < propLen / 8 then pure { s with contextIdx := i } else .error (.panic 117)
      else pure s
    else pure s

def dtbParserContext (b : Blob) (contextIdx : Nat) : Read Nat := do
  let s ← parser contextVisitor b ⟨false, contextIdx⟩
  pure s.contextIdx

def hartVisitor : Visitor CpusScan where
  beginNode name s := do
    if ← kstrHasPrefix (cstr "cpus") name then pure { s with cpusDepth := 1 }
    else if s.cpusDepth > 0 then do
      let found ← kstrHasPrefix (cstr "cpu@") name
      pure { s with
        global := if found then s.global + 1 else s.global
        cpusDepth := s.cpusDepth + 1 }
    else pure s
  endNode s := if s.cpusDepth > 0 then { s with cpusDepth := s.cpusDepth - 1 } else s
  prop _ _ _ _ s := pure s

def dtbParserHart (b : Blob) (hart : Nat) : Read Nat := do
  let s ← parser hartVisitor b ⟨0, hart⟩
  pure s.global

/-- The loop over a list of strings of `strLen` bytes. -/
def dtbCompatibleMatchFrom (target str : List UInt8) (strLen : Nat) : Nat → Nat → Read Bool
  | 0, _ => .error .spin
  | n + 1, itr =>
    if itr < strLen then do
      if ← kstrHasPrefix target (str.drop itr) then pure true
      else do
        let len ← kstrlen (str.drop itr)
        dtbCompatibleMatchFrom target str strLen n (wrap32 (itr + len + 1))
    else pure false

def dtbCompatibleMatch (target str : List UInt8) (strLen : Nat) : Read Bool :=
  dtbCompatibleMatchFrom target str strLen (str.length + 1) 0

/-- The data of `dtb_parser_mmio`. -/
structure MmioScan where
  activeDevice : Nat
  base : Nat
  size : Nat
  currDepth : Int
  devDepth : Int
  uart : Meta
  clint : Meta
  plic : Meta
  deriving DecidableEq

/-- `x || y`. -/
def either (x y : Read Bool) : Read Bool := do
  if ← x then pure true else y

/-- Where the test succeeds, the node is that of the device. -/
def activate (test : Read Bool) (device : Nat) (s : MmioScan) : Read MmioScan := do
  if ← test then pure { s with activeDevice := device, devDepth := s.currDepth } else pure s

/-- The tests of a `compatible` property. -/
def matchDevice (str : List UInt8) (propLen : Nat) (s : MmioScan) : Read MmioScan := do
  let s ← activate (dtbCompatibleMatch (cstr "ns16550a") str propLen) 1 s
  let s ← activate (either (dtbCompatibleMatch (cstr "sifive,clint0") str propLen)
    (dtbCompatibleMatch (cstr "riscv,clint0") str propLen)) 2 s
  activate (either (dtbCompatibleMatch (cstr "riscv,plic0") str propLen)
    (dtbCompatibleMatch (cstr "sifive,plic-1.0.0") str propLen)) 3 s

/-- The branch for a `reg` property. -/
def readReg (b : Blob) (value propLen : Nat) (s : MmioScan) : Read MmioScan := do
  if propLen ≥ 16 then do
    let base ← cells b value
    let size ← cells b (value + 8)
    pure { s with base := base, size := size }
  else if propLen ≥ 8 then do
    let base ← word b value
    let size ← word b (value + 4)
    pure { s with base := base, size := size }
  else pure s

def mmioVisitor : Visitor MmioScan where
  beginNode _ s := pure { s with currDepth := s.currDepth + 1 }
  endNode s :=
    let s :=
      if s.activeDevice > 0 ∧ s.currDepth = s.devDepth then
        { s with
          uart := if s.activeDevice = 1 then ⟨s.base, s.size⟩ else s.uart
          clint := if s.activeDevice = 2 then ⟨s.base, s.size⟩ else s.clint
          plic := if s.activeDevice = 3 then ⟨s.base, s.size⟩ else s.plic
          activeDevice := 0
          base := 0
          size := 0
          devDepth := 0 }
      else s
    { s with currDepth := s.currDepth - 1 }
  prop b strings ptr propLen s := do
    let nameoff ← word b (ptr + 4)
    let s ←
      if ← kstrcmp (cstr "compatible") (b.drop (strings + nameoff)) then
        matchDevice (b.drop (ptr + 8)) propLen s
      else pure s
    if ← kstrcmp (cstr "reg") (b.drop (strings + nameoff)) then readReg b (ptr + 8) propLen s
    else pure s

/-- The devices that `dtb_parser_mmio` finds. -/
structure Devices where
  uart : Meta
  clint : Meta
  plic : Meta
  deriving DecidableEq

def dtbParserMmio (b : Blob) (d : Devices) : Read Devices := do
  let s ← parser mmioVisitor b ⟨0, 0, 0, 0, 0, d.uart, d.clint, d.plic⟩
  pure ⟨s.uart, s.clint, s.plic⟩

end RexOS.Dtb
