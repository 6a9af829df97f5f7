import EeKernel.Lib.R5900

/-!
# `vec.s`: the exception vectors

The text of each vector, line by line.  A symbol is the address
`config/kernel/symbol_addrs.txt` or its own name gives it.  `#include
"regnames.h"` only names the registers, and what `.org` fills in between the
vectors is never run.
-/

namespace EeKernel.Vec

open EeKernel.R5900

/-! ## Symbols -/

def user_context : Word := 0x80001100
def func_800161BC : Word := 0x800161BC
def func_8001625C : Word := 0x8001625C
def syscall_handler : Word := 0x80016f80
def exc_handler : Word := 0x80017380
def t9_backup : Word := 0x800173b8
def irq_handler : Word := 0x800173c0
def D_8001B400 : Word := 0x8001B400

/-- `vectors`, where the kernel is loaded. -/
def vectors : Word := 0x80000000

/-- Run the text of the vector at an offset. -/
def take (callee : Word → Cpu → Cpu) (offset : Word) (text : List Line) (s : Cpu) : Run :=
  run callee none (vectors + offset) text s

/-! ## The text -/

/-- TLB REFILL -/
def tlbRefill : List Line := [
  .op (.lui .k0 (hi t9_backup)),
  .op (.sd .t9 (lo t9_backup) .k0),
  .op (.mfc0 .t9 .cause),
  .op (.lui .k0 (hi exc_handler)),
  .op (.andi .t9 .t9 0x7C),
  .op (.addu .k0 .k0 .t9),
  .op (.lw .k0 (lo exc_handler) .k0),
  .op (.lui .t9 (hi t9_backup)),
  .jr .k0,
  .op (.ld .t9 (lo t9_backup) .t9)]

/-- COUNTER -/
def counter : List Line := [
  .j func_800161BC,
  .op .nop]

/-- DEBUG -/
def debug : List Line := [
  .j func_800161BC,
  .op .nop]

/-- COMMON -/
def common : List Line := [
  .op (.lui .k0 (hi t9_backup)),
  .op (.sd .t9 (lo t9_backup) .k0),
  .op (.mfc0 .t9 .cause),
  .op (.lui .k0 (hi exc_handler)),
  .op (.andi .t9 .t9 0x7C),
  .op (.addu .k0 .k0 .t9),
  .op (.lw .k0 (lo exc_handler) .k0),
  .op (.lui .t9 (hi t9_backup)),
  .jr .k0,
  .op (.ld .t9 (lo t9_backup) .t9)]

/-- INTERRUPT -/
def interrupt : List Line := [
  .op (.lui .k0 (hi user_context)),
  .op (.sq .sp (lo user_context) .k0),
  .op (.sq .ra (lo (user_context + 0x10)) .k0),
  .op (.sq .at (lo (user_context + 0x20)) .k0),
  .op (.mfc0 .at .cause),
  .op (.mfc0 .k0 .status),
  .op (.and .at .at .k0),
  .op (.srl .at .at 8),
  .op (.andi .at .at 0xFF),
  .op (.plzcw .k0 .at),
  .op (.andi .k0 .k0 0xFF),
  .op (.li .at 0x1E),
  .op (.subu .at .at .k0),
  .op (.sll .at .at 2),
  .op (.lui .k0 (hi irq_handler)),
  .op (.addu .k0 .k0 .at),
  .op (.lw .k0 (lo irq_handler) .k0),
  .jr .k0,
  .op .nop]

/-- SYSCALL; `$v1` = syscall number -/
def syscall : List Line := [
  -- negative syscalls
  .bltzl .v1 2,
  .op (.negu .v1 .v1),
  -- syscall number 0x7c
  .op (.li .k0 0x7C),
  .bne .k0 .v1 1,
  .op .nop,
  .j func_8001625C,
  .op .nop,
  .label 1,
  .op (.lui .k0 (hi user_context)),
  .op (.sq .sp (lo user_context) .k0),
  .op (.sq .ra (lo (user_context + 0x10)) .k0),
  .op (.sq .at (lo (user_context + 0x20)) .k0),
  .op (.mfc0 .at .status),
  .op (.li .k0 (-0x1C)),
  .op (.and .at .at .k0),
  .op (.mtc0 .at .status),
  .op .syncP,
  .op (.move .k0 .sp),
  .op (.lui .sp (hi D_8001B400)),
  .op (.addiu .sp .sp (lo D_8001B400)),
  .op (.addiu .sp .sp (-0x10)),
  .op (.sw .ra 0x0 .sp),
  .op (.sw .k0 0x4 .sp),
  .op (.mfc0 .k0 .epc),
  .op (.addiu .k0 .k0 0x4),
  .op (.sw .k0 0x8 .sp),
  .op (.mtc0 .k0 .epc),
  .op .syncP,
  .op (.sll .v1 .v1 2),
  .op (.lui .k0 (hi syscall_handler)),
  .op (.addu .k0 .k0 .v1),
  .op (.lw .k0 (lo syscall_handler) .k0),
  .jalr .k0,
  .op .nop,
  .op (.lw .k0 0x8 .sp),
  .op (.lw .ra 0x0 .sp),
  .op (.lw .sp 0x4 .sp),
  .op (.mtc0 .k0 .epc),
  .op .syncP,
  .op (.mfc0 .k0 .status),
  .op (.ori .k0 .k0 0x13),
  .op (.mtc0 .k0 .status),
  .op .syncP,
  .eret,
  .label 2,
  -- call on users stack
  .op (.addiu .sp .sp (-0x10)),
  .op (.sw .ra 0x0 .sp),
  .op (.mfc0 .k0 .epc),
  .op (.addiu .k0 .k0 0x4),
  .op (.sw .k0 0x4 .sp),
  .op (.mtc0 .k0 .epc),
  .op .syncP,
  .op (.sll .v1 .v1 2),
  .op (.lui .k0 (hi syscall_handler)),
  .op (.addu .k0 .k0 .v1),
  .op (.lw .k0 (lo syscall_handler) .k0),
  .jalr .k0,
  .op .nop,
  .op (.lw .k0 0x4 .sp),
  .op (.lw .ra 0x0 .sp),
  .op (.addiu .sp .sp 0x10),
  .op (.mtc0 .k0 .epc),
  .op .syncP,
  .eret]

end EeKernel.Vec
