import RexOS.Core.Leads

/-!
# The text of `start.S`

The instructions of the two trap handlers of the kernel, of the trampoline and of the first switch
to a process, label by label. A handler is told in two parts, up to the call of its router and from
its return on.
-/

namespace RexOS.Assembly

open Riscv

/-- The labels and data that the text refers to. -/
inductive Symbol where
  | mmodeTrapHandler | smodeTrapHandler | userTrampoline | restoreState | processBootstrap
  | mtrapRouter | strapRouter
  deriving DecidableEq, Repr

abbrev Source := List (Instr Symbol)

/-! ## The handlers of the kernel -/

/-- `_mmode_trap_handler`, up to the call. -/
def mmodeEntry : Source := [
  .csrrw sp .mscratch sp, .addi sp sp (-256), .sd 1 0 sp, .csrr 1 .mscratch, .sd 1 8 sp,
  .sd 3 16 sp, .sd 4 24 sp, .sd 5 32 sp, .sd 6 40 sp, .sd 7 48 sp, .sd 8 56 sp, .sd 9 64 sp,
  .sd 10 72 sp, .sd 11 80 sp, .sd 12 88 sp, .sd 13 96 sp, .sd 14 104 sp, .sd 15 112 sp,
  .sd 16 120 sp, .sd 17 128 sp, .sd 18 136 sp, .sd 19 144 sp, .sd 20 152 sp, .sd 21 160 sp,
  .sd 22 168 sp, .sd 23 176 sp, .sd 24 184 sp, .sd 25 192 sp, .sd 26 200 sp, .sd 27 208 sp,
  .sd 28 216 sp, .sd 29 224 sp, .sd 30 232 sp, .sd 31 240 sp, .csrr a0 .mcause, .csrr a1 .mepc,
  .csrr a2 .mhartid, .call .mtrapRouter]

def mmodeExit : Source := [
  .ld 31 240 sp, .ld 30 232 sp, .ld 29 224 sp, .ld 28 216 sp, .ld 27 208 sp, .ld 26 200 sp,
  .ld 25 192 sp, .ld 24 184 sp, .ld 23 176 sp, .ld 22 168 sp, .ld 21 160 sp, .ld 20 152 sp,
  .ld 19 144 sp, .ld 18 136 sp, .ld 17 128 sp, .ld 16 120 sp, .ld 15 112 sp, .ld 14 104 sp,
  .ld 13 96 sp, .ld 12 88 sp, .ld 11 80 sp, .ld 10 72 sp, .ld 9 64 sp, .ld 8 56 sp, .ld 7 48 sp,
  .ld 6 40 sp, .ld 5 32 sp, .ld 4 24 sp, .ld 3 16 sp, .ld 1 8 sp, .csrw .mscratch 1, .ld 1 0 sp,
  .addi sp sp 256, .csrrw sp .mscratch sp, .mret]

/-- `_smode_trap_handler`, up to the call. -/
def smodeEntry : Source := [
  .addi sp sp (-272), .sd 0 0 sp, .sd 1 8 sp, .addi 1 sp 272, .sd 1 16 sp, .sd 3 24 sp,
  .sd 4 32 sp, .sd 5 40 sp, .sd 6 48 sp, .sd 7 56 sp, .sd 8 64 sp, .sd 9 72 sp, .sd 10 80 sp,
  .sd 11 88 sp, .sd 12 96 sp, .sd 13 104 sp, .sd 14 112 sp, .sd 15 120 sp, .sd 16 128 sp,
  .sd 17 136 sp, .sd 18 144 sp, .sd 19 152 sp, .sd 20 160 sp, .sd 21 168 sp, .sd 22 176 sp,
  .sd 23 184 sp, .sd 24 192 sp, .sd 25 200 sp, .sd 26 208 sp, .sd 27 216 sp, .sd 28 224 sp,
  .sd 29 232 sp, .sd 30 240 sp, .sd 31 248 sp, .csrr t0 .sepc, .sd t0 256 sp, .csrr t0 .sstatus,
  .sd t0 264 sp, .csrr a0 .scause, .csrr a1 .stval, .call .strapRouter]

def smodeExit : Source := [
  .ld t0 264 sp, .csrw .sstatus t0, .ld t0 256 sp, .csrw .sepc t0, .ld 31 248 sp, .ld 30 240 sp,
  .ld 29 232 sp, .ld 28 224 sp, .ld 27 216 sp, .ld 26 208 sp, .ld 25 200 sp, .ld 24 192 sp,
  .ld 23 184 sp, .ld 22 176 sp, .ld 21 168 sp, .ld 20 160 sp, .ld 19 152 sp, .ld 18 144 sp,
  .ld 17 136 sp, .ld 16 128 sp, .ld 15 120 sp, .ld 14 112 sp, .ld 13 104 sp, .ld 12 96 sp,
  .ld 11 88 sp, .ld 10 80 sp, .ld 9 72 sp, .ld 8 64 sp, .ld 7 56 sp, .ld 6 48 sp, .ld 5 40 sp,
  .ld 4 32 sp, .ld 3 24 sp, .ld 1 8 sp, .ld 0 0 sp, .addi sp sp 272, .sret]

/-! ## The trampoline -/

/-- `_user_trampoline`, up to the call through `t2`. -/
def trampolineEntry : Source := [
  .csrrw sp .sscratch sp, .sd 0 0 sp, .sd 1 8 sp, .csrr 1 .sscratch, .sd 1 16 sp, .sd 3 24 sp,
  .sd 4 32 sp, .sd 5 40 sp, .sd 6 48 sp, .sd 7 56 sp, .sd 8 64 sp, .sd 9 72 sp, .sd 10 80 sp,
  .sd 11 88 sp, .sd 12 96 sp, .sd 13 104 sp, .sd 14 112 sp, .sd 15 120 sp, .sd 16 128 sp,
  .sd 17 136 sp, .sd 18 144 sp, .sd 19 152 sp, .sd 20 160 sp, .sd 21 168 sp, .sd 22 176 sp,
  .sd 23 184 sp, .sd 24 192 sp, .sd 25 200 sp, .sd 26 208 sp, .sd 27 216 sp, .sd 28 224 sp,
  .sd 29 232 sp, .sd 30 240 sp, .sd 31 248 sp, .csrr t0 .sepc, .sd t0 256 sp, .csrr t0 .sstatus,
  .sd t0 264 sp, .ld t0 272 sp, .ld t1 280 sp, .ld t2 288 sp, .ld tp 304 sp, .csrw .satp t0,
  .fence, .csrw .sscratch sp, .mv sp t1, .la t0 .smodeTrapHandler, .csrw .stvec t0,
  .csrr a0 .scause, .csrr a1 .stval, .jalr ra t2 0]

/-- Its one instruction behind the call; `_restore_state` follows. -/
def trampolineReturn : Source := [
  .csrr sp .sscratch]

def restoreState : Source := [
  .li t0 0x3FFFFFF000, .csrw .stvec t0, .ld t0 264 sp, .csrw .sstatus t0, .ld t0 256 sp,
  .csrw .sepc t0, .ld t0 296 sp, .li t1 0x3FFFFFEEC8, .csrw .satp t0, .fence, .mv sp t1,
  .ld 31 248 sp, .ld 30 240 sp, .ld 29 232 sp, .ld 28 224 sp, .ld 27 216 sp, .ld 26 208 sp,
  .ld 25 200 sp, .ld 24 192 sp, .ld 23 184 sp, .ld 22 176 sp, .ld 21 168 sp, .ld 20 160 sp,
  .ld 19 152 sp, .ld 18 144 sp, .ld 17 136 sp, .ld 16 128 sp, .ld 15 120 sp, .ld 14 112 sp,
  .ld 13 104 sp, .ld 12 96 sp, .ld 11 88 sp, .ld 10 80 sp, .ld 9 72 sp, .ld 8 64 sp, .ld 7 56 sp,
  .ld 6 48 sp, .ld 5 40 sp, .ld 4 32 sp, .ld 3 24 sp, .ld 1 8 sp, .ld 0 0 sp, .csrw .sscratch sp,
  .ld 2 16 sp, .sret]

def processBootstrap : Source := [
  .la t0 .userTrampoline, .la t1 .restoreState, .sub t1 t1 t0, .li t0 0x3FFFFFF000, .add t0 t0 t1,
  .jr t0]

/-! ## The frames in the text -/

/-- Where a frame keeps a register. -/
def place (r : Reg) : Word := 8 * BitVec.ofNat 64 r

/-- The registers from `x3` on at their places, `d` bytes down. -/
def upper (d : Word) : List Slot :=
  (List.range 29).map fun k => (Fin.ofNat 32 (k + 3), place (Fin.ofNat 32 (k + 3)) - d)

/-- What the two handlers of supervisor mode do first, `i` being the instruction that takes the
interrupted stack pointer to `x1`. -/
def filling (i : Instr Symbol) : Source :=
  saves [(0, 0), (1, 8)] sp ++ i :: (saves ((1, 16) :: upper 0) sp ++
    [.csrr t0 .sepc, .sd t0 256 sp, .csrr t0 .sstatus, .sd t0 264 sp])

/-- The registers that they load last. -/
def drained : List Slot := (upper 0).reverse ++ [(1, 8), (0, 0)]

/-- The handlers, with their stores and loads as series. -/
theorem smodeEntry_eq : smodeEntry =
    .addi sp sp (-272) :: (filling (.addi 1 sp 272) ++
      [.csrr a0 .scause, .csrr a1 .stval, .call .strapRouter]) := rfl

theorem smodeExit_eq : smodeExit =
    [.ld t0 264 sp, .csrw .sstatus t0, .ld t0 256 sp, .csrw .sepc t0] ++
      (restores drained sp ++ [.addi sp sp 272, .sret]) := rfl

theorem trampolineEntry_eq : trampolineEntry =
    .csrrw sp .sscratch sp :: (filling (.csrr 1 .sscratch) ++
      [.ld t0 272 sp, .ld t1 280 sp, .ld t2 288 sp, .ld tp 304 sp, .csrw .satp t0, .fence,
        .csrw .sscratch sp, .mv sp t1, .la t0 .smodeTrapHandler, .csrw .stvec t0,
        .csrr a0 .scause, .csrr a1 .stval, .jalr ra t2 0]) := rfl

theorem restoreState_eq : restoreState =
    [.li t0 0x3FFFFFF000, .csrw .stvec t0, .ld t0 264 sp, .csrw .sstatus t0, .ld t0 256 sp,
      .csrw .sepc t0, .ld t0 296 sp, .li t1 0x3FFFFFEEC8, .csrw .satp t0, .fence, .mv sp t1] ++
    (restores drained sp ++ [.csrw .sscratch sp, .ld 2 16 sp, .sret]) := rfl

theorem mmodeEntry_eq : mmodeEntry =
    [.csrrw sp .mscratch sp, .addi sp sp (-256), .sd 1 0 sp, .csrr 1 .mscratch] ++
    (saves ((1, 8) :: upper 8) sp ++
      [.csrr a0 .mcause, .csrr a1 .mepc, .csrr a2 .mhartid, .call .mtrapRouter]) := rfl

theorem mmodeExit_eq : mmodeExit =
    restores ((upper 8).reverse ++ [(1, 8)]) sp ++
      [.csrw .mscratch 1, .ld 1 0 sp, .addi sp sp 256, .csrrw sp .mscratch sp, .mret] := rfl

end RexOS.Assembly
