import Mathlib.Data.BitVec
import Mathlib.Logic.Function.Basic

/-!
# Harts of a 64-bit RISC-V machine

The part of the instruction set that trap entries, context switches and simple programs are
written in: integer registers, control and status registers, doublewords of memory, the
privileged returns and the two ways into a trap. Memory is shared, everything else belongs
to one hart.

Text is an image apart from the data: it gives the instruction at a physical address with its
length, and symbols keep the addresses they were linked at. A reference to a symbol is relative
to the program counter, so code that runs at another virtual address refers to other places.
-/

namespace Riscv

abbrev Word := BitVec 64

/-- Aligned addresses add up to one. -/
theorem aligned_add {a b : Word} (ha : 8 ∣ a.toNat) (hb : 8 ∣ b.toNat) : 8 ∣ (a + b).toNat := by
  rw [BitVec.toNat_add]
  exact (Nat.dvd_mod_iff (by decide)).mpr (Nat.dvd_add ha hb)

/-- Eight bytes are aligned. -/
theorem aligned_mul (a : Word) : 8 ∣ (8 * a).toNat := by
  rw [BitVec.toNat_mul]
  exact (Nat.dvd_mod_iff (by decide)).mpr (Nat.dvd_mul_right 8 _)

/-- The integer registers by number. -/
abbrev Reg := Fin 32

/-- Numerals name registers. -/
scoped instance neZero_regs : NeZero 32 := ⟨by decide⟩

/-! The names of the calling convention. -/

@[reducible] def zero : Reg := 0
@[reducible] def ra : Reg := 1
@[reducible] def sp : Reg := 2
@[reducible] def tp : Reg := 4
@[reducible] def t0 : Reg := 5
@[reducible] def t1 : Reg := 6
@[reducible] def t2 : Reg := 7
@[reducible] def s0 : Reg := 8
@[reducible] def s1 : Reg := 9
@[reducible] def a0 : Reg := 10
@[reducible] def a1 : Reg := 11
@[reducible] def a2 : Reg := 12
@[reducible] def s2 : Reg := 18
@[reducible] def s3 : Reg := 19
@[reducible] def s4 : Reg := 20
@[reducible] def s5 : Reg := 21
@[reducible] def s6 : Reg := 22
@[reducible] def s7 : Reg := 23
@[reducible] def s8 : Reg := 24
@[reducible] def s9 : Reg := 25
@[reducible] def s10 : Reg := 26
@[reducible] def s11 : Reg := 27

inductive Mode where
  | user
  | supervisor
  | machine
  deriving DecidableEq, Repr

inductive Csr where
  | sstatus | sie | sip | stvec | sscratch | sepc | scause | stval | satp
  | mstatus | mie | mip | mtvec | mscratch | mepc | mcause | mhartid | medeleg | mideleg
  | pmpaddr0 | pmpcfg0
  deriving DecidableEq, Repr

namespace Csr

/-- Open to supervisor mode; the others are open to machine mode only. -/
def supervisor : Csr → Bool
  | sstatus | sie | sip | stvec | sscratch | sepc | scause | stval | satp => true
  | _ => false

/-- Whether code of a mode may name the register. -/
def openTo (c : Csr) : Mode → Bool
  | .user => false
  | .supervisor => c.supervisor
  | .machine => true

end Csr

/-- Operands `y : σ` are symbols. Constants are as the assembler expands them. -/
inductive Instr (σ : Type) where
  | li (rd : Reg) (imm : Word)
  | la (rd : Reg) (y : σ)
  | addi (rd rs : Reg) (imm : Word)
  | add (rd rs rt : Reg)
  | sub (rd rs rt : Reg)
  | or (rd rs rt : Reg)
  | mul (rd rs rt : Reg)
  | slli (rd rs : Reg) (k : Nat)
  | srli (rd rs : Reg) (k : Nat)
  | ld (rd : Reg) (off : Word) (base : Reg)
  | sd (rs : Reg) (off : Word) (base : Reg)
  | amoswap (rd rs base : Reg)
  | csrrw (rd : Reg) (c : Csr) (rs : Reg)
  | csrrs (rd : Reg) (c : Csr) (rs : Reg)
  | csrrc (rd : Reg) (c : Csr) (rs : Reg)
  | beqz (rs : Reg) (y : σ)
  | bnez (rs : Reg) (y : σ)
  | bge (rs rt : Reg) (y : σ)
  | jal (rd : Reg) (y : σ)
  | jalr (rd rs : Reg) (imm : Word)
  -- fences of memory, of translations and of fetches
  | fence
  | wfi
  | ecall
  | mret
  | sret

namespace Instr

variable {σ : Type}

/-! The other spellings of the assembler. -/

@[reducible] def mv (rd rs : Reg) : Instr σ := addi rd rs 0
@[reducible] def csrr (rd : Reg) (c : Csr) : Instr σ := csrrs rd c zero
@[reducible] def csrw (c : Csr) (rs : Reg) : Instr σ := csrrw zero c rs
@[reducible] def call (y : σ) : Instr σ := jal ra y
@[reducible] def jr (rs : Reg) : Instr σ := jalr zero rs 0
@[reducible] def ret : Instr σ := jalr zero ra 0

end Instr

/-- Why an instruction was not carried out, as the trap registers tell it. -/
structure Fault where
  cause : Word
  tval : Word
  deriving DecidableEq

/-- What a hart has to itself. -/
structure Hart where
  pc : Word
  mode : Mode
  reg : Reg → Word
  csr : Csr → Word

/-- Doublewords by their physical address. -/
abbrev Memory := Word → Word

def Memory.store (m : Memory) (a v : Word) : Memory := fun b => if b = a then v else m b

@[simp] theorem Memory.store_self (m : Memory) (a v : Word) : m.store a v a = v := if_pos rfl

/-- A store changes one word. -/
theorem Memory.store_ne (m : Memory) {a b : Word} (v : Word) (hb : b ≠ a) :
    m.store a v b = m b := if_neg hb

/-! ## Registers -/

/-- The bits of `mstatus` that `sstatus` shows. -/
def sstatusMask : Word := 0x80000003000DE762

/-- `new` at the bits of the mask, `old` at the others. -/
def blend (mask old new : Word) : Word := (old &&& ~~~mask) ||| (new &&& mask)

/-- The masked bits are new, the others old. -/
theorem getLsbD_blend (mask old new : Word) (i : Nat) :
    (blend mask old new).getLsbD i = if mask.getLsbD i then new.getLsbD i else old.getLsbD i := by
  by_cases hi : i < 64
  · cases hk : mask.getLsbD i <;>
      simp only [blend, BitVec.getLsbD_or, BitVec.getLsbD_and, BitVec.getLsbD_not, hk, hi] <;> simp
  · simp [blend, BitVec.getLsbD_of_ge _ i (Nat.not_lt.mp hi)]

/-- Writing back what the mask shows changes nothing. -/
theorem blend_self (mask old : Word) : blend mask old (old &&& mask) = old := by
  apply BitVec.eq_of_getLsbD_eq
  intro i hi
  rw [getLsbD_blend]
  cases hk : mask.getLsbD i <;> simp [hk]

/-- Bit `k` set to `b`. -/
def putBit (w : Word) (k : Nat) (b : Bool) : Word :=
  blend (1#64 <<< k) w (if b then 1#64 <<< k else 0)

/-- One bit is put. -/
theorem getLsbD_putBit (w : Word) {k : Nat} (hk : k < 64) (b : Bool) (i : Nat) :
    (putBit w k b).getLsbD i = if i = k then b else w.getLsbD i := by
  have hone : (1#64 <<< k).getLsbD i = decide (i = k) := by
    rw [BitVec.getLsbD_shiftLeft, BitVec.getLsbD_one]
    by_cases h : i = k
    · simp [h, hk]
    · by_cases hi : i < 64
      · simp [h, hi]
        omega
      · simp [h, hi]
  rw [putBit, getLsbD_blend, hone]
  by_cases h : i = k <;> cases b <;> simp [h, hk]

namespace Hart

variable (h : Hart)

/-- Register 0 reads as zero. -/
def get (r : Reg) : Word := if r = 0 then 0 else h.reg r

/-- Writes to register 0 are lost. -/
def set (r : Reg) (v : Word) : Hart :=
  { h with reg := fun q => if q = r ∧ r ≠ 0 then v else h.reg q }

/-- On to the next instruction. -/
def advance (n : Word) : Hart := { h with pc := h.pc + n }

def goto (a : Word) : Hart := { h with pc := a }

@[simp] theorem get_zero : h.get 0 = 0 := rfl

@[simp] theorem get_advance (n : Word) (r : Reg) : (h.advance n).get r = h.get r := rfl

@[simp] theorem get_goto (a : Word) (r : Reg) : (h.goto a).get r = h.get r := rfl

/-- Register 0 is not written. -/
@[simp] theorem set_zero (v : Word) : h.set 0 v = h := by
  simp [set]

/-- The register that is written. -/
theorem get_set_self {r : Reg} (hr : r ≠ 0) (v : Word) : (h.set r v).get r = v := by
  simp [get, set, hr]

/-- Other registers stay. -/
theorem get_set_ne {q r : Reg} (hr : r ≠ q) (v : Word) : (h.set q v).get r = h.get r := by
  simp [get, set, hr]

/-- A control register as the hart shows it: the supervisor's are views of the machine's. -/
def read : Csr → Word
  | .sstatus => h.csr .mstatus &&& sstatusMask
  | .sie => h.csr .mie &&& h.csr .mideleg
  | .sip => h.csr .mip &&& h.csr .mideleg
  | c => h.csr c

def putCsr (c : Csr) (v : Word) : Hart :=
  { h with csr := fun d => if d = c then v else h.csr d }

@[simp] theorem get_putCsr (c : Csr) (v : Word) (r : Reg) : (h.putCsr c v).get r = h.get r := rfl

/-- A write through a view changes the bits that the view shows. -/
def write (c : Csr) (v : Word) : Hart :=
  match c with
  | .sstatus => h.putCsr .mstatus (blend sstatusMask (h.csr .mstatus) v)
  | .sie => h.putCsr .mie (blend (h.csr .mideleg) (h.csr .mie) v)
  -- of the pending bits a supervisor has only its own software interrupt to write
  | .sip => h.putCsr .mip (blend (h.csr .mideleg &&& 2) (h.csr .mip) v)
  | c => h.putCsr c v

/-- A control register keeps its value. -/
theorem putCsr_self (c : Csr) : h.putCsr c (h.csr c) = h := by
  have hcsr : (fun d => if d = c then h.csr c else h.csr d) = h.csr := by
    funext d
    split
    · rename_i hd
      rw [hd]
    · rfl
  rw [putCsr, hcsr]

/-- Writing back what was read changes nothing. -/
theorem write_read (c : Csr) : h.write c (h.read c) = h := by
  have hsip : blend (h.csr .mideleg &&& 2) (h.csr .mip) (h.csr .mip &&& h.csr .mideleg) =
      h.csr .mip := by
    apply BitVec.eq_of_getLsbD_eq
    intro i hi
    rw [getLsbD_blend]
    cases hk : (h.csr .mideleg).getLsbD i <;> simp [hk]
  cases c with
  | sstatus => rw [read, write, blend_self, putCsr_self]
  | sie => rw [read, write, blend_self, putCsr_self]
  | sip => rw [read, write, hsip, putCsr_self]
  | _ => exact h.putCsr_self _

/-- Control registers are no registers. -/
@[simp] theorem get_write (c : Csr) (v : Word) (r : Reg) : (h.write c v).get r = h.get r := by
  cases c <;> rfl

/-- Interrupts are enabled for the supervisor, or were before its trap. -/
def sie : Bool := (h.csr .mstatus).getLsbD 1
def spie : Bool := (h.csr .mstatus).getLsbD 5

/-- The same for the machine. -/
def mie : Bool := (h.csr .mstatus).getLsbD 3
def mpie : Bool := (h.csr .mstatus).getLsbD 7

/-- The mode that `sret` goes back to. -/
def spp : Mode := if (h.csr .mstatus).getLsbD 8 then .supervisor else .user

/-- The mode that `mret` goes back to. -/
def mpp : Mode :=
  if (h.csr .mstatus).getLsbD 12 then .machine
  else if (h.csr .mstatus).getLsbD 11 then .supervisor else .user

/-! ## Traps -/

/-- Into the supervisor's handler. -/
def trapS (f : Fault) : Hart :=
  { h with
    pc := h.csr .stvec
    mode := .supervisor
    csr := fun c =>
      match c with
      | .sepc => h.pc
      | .scause => f.cause
      | .stval => f.tval
      | .mstatus =>
        putBit (putBit (putBit (h.csr .mstatus) 5 h.sie) 1 false) 8 (h.mode != .user)
      | c => h.csr c }

/-- Back from it. -/
def sret : Hart :=
  { h with
    pc := h.csr .sepc
    mode := h.spp
    csr := fun c =>
      match c with
      | .mstatus => putBit (putBit (putBit (h.csr .mstatus) 1 h.spie) 5 true) 8 false
      | c => h.csr c }

/-- Into the machine's handler. -/
def trapM (cause : Word) : Hart :=
  { h with
    pc := h.csr .mtvec
    mode := .machine
    csr := fun c =>
      match c with
      | .mepc => h.pc
      | .mcause => cause
      | .mstatus =>
        putBit (putBit (putBit (putBit (h.csr .mstatus) 7 h.mie) 3 false)
          11 (h.mode != .user)) 12 (h.mode == .machine)
      | c => h.csr c }

/-- Back from it. -/
def mret : Hart :=
  { h with
    pc := h.csr .mepc
    mode := h.mpp
    csr := fun c =>
      match c with
      | .mstatus =>
        putBit (putBit (putBit (putBit (h.csr .mstatus) 3 h.mpie) 7 true) 11 false) 12 false
      | c => h.csr c }

/-- The status that a trap leaves, once written back, has the mode and the interrupt enable from
before the trap. -/
theorem spp_of_status {h' : Hart} {f : Fault} {w : Word} (hmode : h.mode ≠ .machine)
    (hs : h'.csr .mstatus = blend sstatusMask w ((h.trapS f).read .sstatus)) :
    h'.spp = h.mode := by
  have hbit : (h'.csr .mstatus).getLsbD 8 = (h.mode != .user) := by
    rw [hs, getLsbD_blend, if_pos (by decide), read, BitVec.getLsbD_and, trapS,
      getLsbD_putBit _ (by decide)]
    simp [sstatusMask]
  rw [spp, hbit]
  cases hm : h.mode with
  | user => rfl
  | supervisor => rfl
  | machine => exact absurd hm hmode

/-- A status that is restored has the interrupt bit of before the trap. -/
theorem spie_of_status {h' : Hart} {f : Fault} {w : Word}
    (hs : h'.csr .mstatus = blend sstatusMask w ((h.trapS f).read .sstatus)) :
    h'.spie = h.sie := by
  rw [spie, hs, getLsbD_blend, if_pos (by decide), read, BitVec.getLsbD_and, trapS,
    getLsbD_putBit _ (by decide), getLsbD_putBit _ (by decide), getLsbD_putBit _ (by decide)]
  simp [sstatusMask]

/-- `sret` enables interrupts as they were before the trap. -/
theorem sie_sret : h.sret.sie = h.spie := by
  rw [sie, sret, getLsbD_putBit _ (by decide), getLsbD_putBit _ (by decide),
    getLsbD_putBit _ (by decide)]
  rfl

/-- `mret` undoes what the trap did to the status, its own previous bits apart. -/
theorem getLsbD_mret {h' : Hart} {cause : Word}
    (hs : h'.csr .mstatus = (h.trapM cause).csr .mstatus) {i : Nat} (h7 : i ≠ 7) (h11 : i ≠ 11)
    (h12 : i ≠ 12) :
    (h'.mret.csr .mstatus).getLsbD i = (h.csr .mstatus).getLsbD i := by
  have hmpie : h'.mpie = h.mie := by
    rw [mpie, hs, trapM, getLsbD_putBit _ (by decide), getLsbD_putBit _ (by decide),
      getLsbD_putBit _ (by decide), getLsbD_putBit _ (by decide)]
    rfl
  rw [mret, getLsbD_putBit _ (by decide), if_neg h12, getLsbD_putBit _ (by decide), if_neg h11,
    getLsbD_putBit _ (by decide), if_neg h7, getLsbD_putBit _ (by decide), hmpie]
  split
  · rename_i h3
    rw [h3, mie]
  · rename_i h3
    rw [hs, trapM, getLsbD_putBit _ (by decide), if_neg h12, getLsbD_putBit _ (by decide),
      if_neg h11, getLsbD_putBit _ (by decide), if_neg h3, getLsbD_putBit _ (by decide), if_neg h7]

/-- The mode before the trap is kept. -/
theorem mpp_of_trapM {h' : Hart} {cause : Word}
    (hs : h'.csr .mstatus = (h.trapM cause).csr .mstatus) : h'.mpp = h.mode := by
  have h12 : (h'.csr .mstatus).getLsbD 12 = (h.mode == .machine) := by
    rw [hs, trapM, getLsbD_putBit _ (by decide), if_pos rfl]
  have h11 : (h'.csr .mstatus).getLsbD 11 = (h.mode != .user) := by
    rw [hs, trapM, getLsbD_putBit _ (by decide), if_neg (by decide), getLsbD_putBit _ (by decide),
      if_pos rfl]
  rw [mpp, h12, h11]
  cases h.mode <;> rfl

end Hart

/-! ## Instructions -/

inductive Access where
  | fetch
  | load
  | store
  deriving DecidableEq, Repr

/-- The cause of a page fault. -/
def Access.fault : Access → Word
  | .fetch => 12
  | .load => 13
  | .store => 15

/-- What a machine and the program on it are given by. -/
structure Platform (σ : Type) where
  /-- The instruction at a physical address, with its length. -/
  code : Word → Option (Instr σ × Word)
  /-- The address a symbol was linked at. -/
  symbol : σ → Word
  /-- The walk of the tables under `satp`, by code of a mode other than the machine's. -/
  walk : Access → Mode → (satp : Word) → Memory → Word → Option Word

namespace Platform

variable {σ : Type} (p : Platform σ)

/-- From virtual to physical addresses; machine mode has only the latter. -/
def translate (x : Access) (m : Mode) (satp : Word) (mem : Memory) (va : Word) : Option Word :=
  if m = .machine then some va else p.walk x m satp mem va

/-- The physical address of a doubleword. -/
def doubleword (x : Access) (h : Hart) (m : Memory) (va : Word) : Except Fault Word :=
  if 8 ∣ va.toNat then
    match p.translate x h.mode (h.csr .satp) m va with
    | some pa => .ok pa
    | none => .error ⟨x.fault, va⟩
  else .error ⟨if x = .load then 4 else 6, va⟩

/-- Reads a control register and writes `f` of it. -/
def csrOp (rd : Reg) (c : Csr) (f : Word → Word) (n : Word) (h : Hart) (m : Memory) :
    Except Fault (Hart × Memory) :=
  if c.openTo h.mode then .ok (((h.write c (f (h.read c))).set rd (h.read c)).advance n, m)
  else .error ⟨2, 0⟩

/-- What the instruction `i`, fetched from `pa` and `n` bytes long, does. -/
def exec (i : Instr σ) (pa n : Word) (h : Hart) (m : Memory) : Except Fault (Hart × Memory) :=
  -- where a reference to a symbol leads from here
  let target (y : σ) : Word := h.pc + (p.symbol y - pa)
  match i with
  | .li rd v => .ok ((h.set rd v).advance n, m)
  | .la rd y => .ok ((h.set rd (target y)).advance n, m)
  | .addi rd rs v => .ok ((h.set rd (h.get rs + v)).advance n, m)
  | .add rd rs rt => .ok ((h.set rd (h.get rs + h.get rt)).advance n, m)
  | .sub rd rs rt => .ok ((h.set rd (h.get rs - h.get rt)).advance n, m)
  | .or rd rs rt => .ok ((h.set rd (h.get rs ||| h.get rt)).advance n, m)
  | .mul rd rs rt => .ok ((h.set rd (h.get rs * h.get rt)).advance n, m)
  | .slli rd rs k => .ok ((h.set rd (h.get rs <<< k)).advance n, m)
  | .srli rd rs k => .ok ((h.set rd (h.get rs >>> k)).advance n, m)
  | .ld rd off b => do
    let a ← p.doubleword .load h m (h.get b + off)
    .ok ((h.set rd (m a)).advance n, m)
  | .sd rs off b => do
    let a ← p.doubleword .store h m (h.get b + off)
    .ok (h.advance n, m.store a (h.get rs))
  | .amoswap rd rs b => do
    let a ← p.doubleword .store h m (h.get b)
    .ok ((h.set rd (m a)).advance n, m.store a (h.get rs))
  | .csrrw rd c rs => csrOp rd c (fun _ => h.get rs) n h m
  | .csrrs rd c rs => csrOp rd c (· ||| h.get rs) n h m
  | .csrrc rd c rs => csrOp rd c (· &&& ~~~ h.get rs) n h m
  | .beqz rs y => .ok (if h.get rs = 0 then h.goto (target y) else h.advance n, m)
  | .bnez rs y => .ok (if h.get rs ≠ 0 then h.goto (target y) else h.advance n, m)
  | .bge rs rt y =>
    .ok (if (h.get rt).sle (h.get rs) then h.goto (target y) else h.advance n, m)
  | .jal rd y => .ok ((h.set rd (h.pc + n)).goto (target y), m)
  | .jalr rd rs v => .ok ((h.set rd (h.pc + n)).goto (h.get rs + v), m)
  | .fence => .ok (h.advance n, m)
  | .wfi => .ok (h.advance n, m)
  | .ecall =>
    .error ⟨match h.mode with | .user => 8 | .supervisor => 9 | .machine => 11, 0⟩
  | .mret => if h.mode = .machine then .ok (h.mret, m) else .error ⟨2, 0⟩
  | .sret => if h.mode = .user then .error ⟨2, 0⟩ else .ok (h.sret, m)

/-- One instruction. -/
def step (h : Hart) (m : Memory) : Except Fault (Hart × Memory) :=
  match p.translate .fetch h.mode (h.csr .satp) m h.pc with
  | none => .error ⟨Access.fetch.fault, h.pc⟩
  | some pa =>
    match p.code pa with
    | none => .error ⟨2, 0⟩
    | some (i, n) => p.exec i pa n h m

end Platform

end Riscv
