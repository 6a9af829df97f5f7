import EeKernel.Vec.Model

/-!
# The two ways through the SYSCALL vector

The text of `syscall` in stretches: what comes before the call on either path,
the call itself, and what comes after it.  The lemma of a stretch says where it
leaves the stack pointer, the frame, EPC and Status; the registers it does not
name are as they were, by the frame lemmas of the library.
-/

namespace EeKernel.Vec

open EeKernel.R5900

/-- `|v1|` in 32-bit arithmetic. -/
def number (v1 : BitVec 64) : Word := if v1.toInt < 0 then -word v1 else word v1

/-- The word of `syscall_handler` a number stands for. -/
def slot (number : Word) : Word := syscall_handler + number <<< 2

/-- The frame of the path on the kernel's stack. -/
def kernelFrame : Word := D_8001B400 - 0x10

/-- A table of words is read at aligned addresses only. -/
theorem aligned_entry {table : Word} (ht : Aligned 4 table) (n : Word) :
    Aligned 4 (table + n <<< 2) := by
  unfold Aligned at ht ⊢
  rw [BitVec.toNat_add, BitVec.toNat_shiftLeft, Nat.shiftLeft_eq]
  omega

theorem aligned_slot (n : Word) : Aligned 4 (slot n) :=
  aligned_entry (by decide) n

/-- A caller with zero everywhere but in `$v1` and `$sp`. -/
def caller (v1 : BitVec 64) (sp : Word) : Cpu where
  gpr
    | .v1 => v1
    | .sp => sx sp
    | _ => 0
  upper _ := 0
  cop0 _ := 0
  mem _ := 0

/-! ## The stretches -/

/-- Save three registers for the context and clear EXL, KSU, IE in Status. -/
def saveContext : List Op := [
  .lui .k0 (hi user_context),
  .sq .sp (lo user_context) .k0,
  .sq .ra (lo (user_context + 0x10)) .k0,
  .sq .at (lo (user_context + 0x20)) .k0,
  .mfc0 .at .status,
  .li .k0 (-0x1C),
  .and .at .at .k0,
  .mtc0 .at .status,
  .syncP]

def pushKernel : List Op := [
  .move .k0 .sp,
  .lui .sp (hi D_8001B400),
  .addiu .sp .sp (lo D_8001B400),
  .addiu .sp .sp (-0x10),
  .sw .ra 0x0 .sp,
  .sw .k0 0x4 .sp,
  .mfc0 .k0 .epc,
  .addiu .k0 .k0 0x4,
  .sw .k0 0x8 .sp,
  .mtc0 .k0 .epc,
  .syncP]

/-- Both paths fetch the handler this way. -/
def fetch : List Op := [
  .sll .v1 .v1 2,
  .lui .k0 (hi syscall_handler),
  .addu .k0 .k0 .v1,
  .lw .k0 (lo syscall_handler) .k0]

def popKernel : List Op := [
  .lw .k0 0x8 .sp,
  .lw .ra 0x0 .sp,
  .lw .sp 0x4 .sp,
  .mtc0 .k0 .epc,
  .syncP,
  .mfc0 .k0 .status,
  .ori .k0 .k0 0x13,
  .mtc0 .k0 .status,
  .syncP]

def pushUser : List Op := [
  .addiu .sp .sp (-0x10),
  .sw .ra 0x0 .sp,
  .mfc0 .k0 .epc,
  .addiu .k0 .k0 0x4,
  .sw .k0 0x4 .sp,
  .mtc0 .k0 .epc,
  .syncP]

def popUser : List Op := [
  .lw .k0 0x4 .sp,
  .lw .ra 0x0 .sp,
  .addiu .sp .sp 0x10,
  .mtc0 .k0 .epc,
  .syncP]

/-- Up to label 1. -/
def checkNumber : List Line := [
  .op (.li .k0 0x7C),
  .bne .k0 .v1 1,
  .op .nop,
  .j func_8001625C,
  .op .nop,
  .label 1]

/-- From label 1 to the first `eret`. -/
def kernelPath : List Line :=
  (saveContext ++ pushKernel ++ fetch).map .op ++ .jalr .k0 :: .op .nop ::
    (popKernel.map .op ++ [.eret])

/-- From label 2 to the second. -/
def userPath : List Line :=
  (pushUser ++ fetch).map .op ++ .jalr .k0 :: .op .nop :: (popUser.map .op ++ [.eret])

theorem syscall_text : syscall =
    .bltzl .v1 2 :: .op (.negu .v1 .v1) :: (checkNumber ++ kernelPath ++ .label 2 :: userPath) :=
  rfl

/-! ## What the stretches do -/

section Stretch

variable (s : Cpu)

theorem saveContext_aligned : AlignedAll saveContext s := by
  simp [saveContext, AlignedAll, Op.Aligned]

theorem saveContext_status :
    (applyAll saveContext s).cop0 .status = s.cop0 .status &&& 0xFFFFFFE4 := by
  simp [saveContext, applyAll, Op.apply, Cpu.set_gpr, Cpu.setCop0_cop0]

theorem saveContext_mem : OnlyAt (words user_context 12) s.mem (applyAll saveContext s).mem := by
  have h1 : hi user_context ++ 0#16 + (lo (user_context + 0x10)).signExtend 32
      = user_context + 0x10 := by decide
  have h2 : hi user_context ++ 0#16 + (lo (user_context + 0x20)).signExtend 32
      = user_context + 0x20 := by decide
  have h := ((OnlyAt.storeQuad s.mem user_context (s.gpr .sp) (s.upper .sp)).trans
    (.storeQuad _ (user_context + 0x10) (s.gpr .ra) (s.upper .ra))).trans
    (.storeQuad _ (user_context + 0x20) (s.gpr .at) (s.upper .at))
  have hwords : words user_context 4 ++ words (user_context + 0x10) 4 ++
      words (user_context + 0x20) 4 = words user_context 12 := by decide
  simp [saveContext, applyAll, Op.apply, Cpu.set_gpr, Cpu.addr] at h1 h2 ⊢
  rw [h1, h2, ← hwords]
  exact h

theorem pushKernel_aligned : AlignedAll pushKernel s := by
  simp [pushKernel, AlignedAll, Op.Aligned, Op.apply, Cpu.set_gpr, Cpu.addr]
  decide

theorem pushKernel_sp : (applyAll pushKernel s).gpr .sp = sx kernelFrame := by
  simp [pushKernel, applyAll, Op.apply, Cpu.set_gpr, Cpu.addr]
  rfl

theorem pushKernel_mem : (applyAll pushKernel s).mem =
    ((s.mem.write kernelFrame (word (s.gpr .ra))).write (kernelFrame + 4)
      (word (s.gpr .sp))).write (kernelFrame + 8) (s.cop0 .epc + 4) := by
  simp [pushKernel, applyAll, Op.apply, Cpu.set_gpr, Cpu.addr]
  rfl

theorem fetch_aligned : AlignedAll fetch s := by
  have ha := aligned_slot (word (s.gpr .v1))
  simp [fetch, AlignedAll, Op.Aligned, Op.apply, Cpu.set_gpr, Cpu.addr]
  exact ha

theorem fetch_reads : reads fetch s = [.lw (slot (word (s.gpr .v1)))] := by
  simp [fetch, reads, Op.events, Op.apply, Cpu.set_gpr, Cpu.addr, slot]

theorem fetch_target :
    (applyAll fetch s).gpr .k0 = sx (s.mem.read (slot (word (s.gpr .v1)))) := by
  simp [fetch, applyAll, Op.apply, Cpu.set_gpr, Cpu.addr, slot]

theorem pushUser_aligned : AlignedAll pushUser s ↔ Aligned 4 (word (s.gpr .sp)) := by
  have h0 : Aligned 4 (word (s.gpr .sp) + 4294967280#32) ↔ Aligned 4 (word (s.gpr .sp)) := by
    unfold Aligned
    rw [BitVec.toNat_add, BitVec.toNat_ofNat]
    omega
  have h4 : Aligned 4 (word (s.gpr .sp) + 4294967280#32 + 4#32) ↔ Aligned 4 (word (s.gpr .sp)) := by
    unfold Aligned
    rw [BitVec.toNat_add, BitVec.toNat_add, BitVec.toNat_ofNat, BitVec.toNat_ofNat]
    omega
  simp [pushUser, AlignedAll, Op.Aligned, Op.apply, Cpu.set_gpr, Cpu.addr]
  rw [h0, h4, and_self_iff]

theorem pushUser_sp : (applyAll pushUser s).gpr .sp = sx (word (s.gpr .sp) - 0x10) := by
  simp [pushUser, applyAll, Op.apply, Cpu.set_gpr, BitVec.sub_eq_add_neg]

theorem pushUser_mem : (applyAll pushUser s).mem =
    (s.mem.write (word (s.gpr .sp) - 0x10) (word (s.gpr .ra))).write
      (word (s.gpr .sp) - 0x10 + 4) (s.cop0 .epc + 4) := by
  simp [pushUser, applyAll, Op.apply, Cpu.set_gpr, Cpu.addr, BitVec.sub_eq_add_neg]

end Stretch

/-! ## The paths up to the call and from it -/

variable {callee : Word → Cpu → Cpu} {s : Cpu}

/-- The state in which the kernel's path calls. -/
def kernelCall (s : Cpu) : Cpu :=
  (applyAll (saveContext ++ pushKernel ++ fetch) (s.set .k0 0x7C)).set .ra (sx (vectors + 0x304))

/-- The state in which the user's path calls. -/
def userCall (s : Cpu) : Cpu :=
  (applyAll (pushUser ++ fetch) (s.set .v1 (sx (-word (s.gpr .v1))))).set .ra (sx (vectors + 0x360))

/-- After a frame is pushed the handler of `v1` is fetched and called. -/
theorem run_push {push : List Op} {rest : List Line} {pc : Word} (ha : AlignedAll push s)
    (hreads : reads push s = []) (hv1 : .v1 ∉ push.filterMap Op.dest) :
    run callee none pc ((push ++ fetch).map .op ++ .jalr .k0 :: .op .nop :: rest) s =
      let ret := pc + 4 * BitVec.ofNat 32 (push ++ fetch).length + 8
      let c := (applyAll (push ++ fetch) s).set .ra (sx ret)
      let target := c.mem.read (slot (word (s.gpr .v1)))
      (run callee none ret rest (callee target c)).after
        [.lw (slot (word (s.gpr .v1))), .call target c] := by
  have haligned : AlignedAll (push ++ fetch) s := alignedAll_append.mpr ⟨ha, fetch_aligned _⟩
  have hslot : (applyAll push s).gpr .v1 = s.gpr .v1 := applyAll_gpr hv1
  have hfetched : reads (push ++ fetch) s = [.lw (slot (word (s.gpr .v1)))] := by
    rw [reads_append, hreads, fetch_reads, hslot, List.nil_append]
  have hmem : (applyAll (push ++ fetch) s).mem = (applyAll push s).mem := by
    rw [applyAll_append]
    exact applyAll_mem (by decide)
  have htarget : (applyAll (push ++ fetch) s).gpr .k0 =
      sx ((applyAll (push ++ fetch) s).mem.read (slot (word (s.gpr .v1)))) := by
    rw [hmem, applyAll_append, fetch_target, hslot]
  rw [run_ops haligned, run]
  simp [Op.Aligned, Op.apply, Op.events, htarget, hfetched]

@[simp] theorem sx_7C : sx 0x7C#32 = 0x7C#64 := by decide

theorem take_nonneg (hpos : ¬ (s.gpr .v1).toInt < 0) :
    take callee 0x280 syscall s =
      run callee none (vectors + 0x288) (checkNumber ++ kernelPath ++ .label 2 :: userPath) s := by
  rw [take, syscall_text, run, if_neg hpos]
  rfl

theorem checkNumber_run {rest : List Line} :
    run callee none (vectors + 0x288) (checkNumber ++ rest) s =
      if s.gpr .v1 = 0x7C then
        { events := [], exit := .jump func_8001625C, cpu := s.set .k0 0x7C }
      else run callee none (vectors + 0x29C) rest (s.set .k0 0x7C) := by
  by_cases h : s.gpr .v1 = 0x7C#64
  · simp [checkNumber, run, h, Op.Aligned, Op.apply, Op.events, Cpu.set_gpr]
  · have hne : ¬ 0x7C#64 = s.gpr .v1 := fun he => h he.symm
    simp [checkNumber, run, h, hne, Op.Aligned, Op.apply, Op.events, Cpu.set_gpr]
    rfl

theorem take_neg (hneg : (s.gpr .v1).toInt < 0) :
    take callee 0x280 syscall s =
      run callee none (vectors + 0x32C) userPath (s.set .v1 (sx (-word (s.gpr .v1)))) := by
  have hpc : vectors + 0x280 + 8 + 4 * BitVec.ofNat 32
      ((checkNumber ++ kernelPath).map Line.size).sum = vectors + 0x32C := by decide
  have hskip : Line.label 2 ∉ checkNumber ++ kernelPath := by decide
  have hslot : (Op.negu .v1 .v1).Aligned s := trivial
  have hevents : (Op.negu .v1 .v1).events s = [] := rfl
  have happly : (Op.negu .v1 .v1).apply s = s.set .v1 (sx (-word (s.gpr .v1))) := rfl
  rw [take, syscall_text, run, if_pos hneg, if_pos hslot, run_skip hskip, hpc, hevents, happly,
    Run.after_nil]

theorem pushKernel_clear (s : Cpu) : AlignedAll (saveContext ++ pushKernel) s :=
  alignedAll_append.mpr ⟨saveContext_aligned s, pushKernel_aligned _⟩

theorem take_kernel (hpos : ¬ (s.gpr .v1).toInt < 0) (hnum : s.gpr .v1 ≠ 0x7C) :
    take callee 0x280 syscall s =
      let c := kernelCall s
      let target := c.mem.read (slot (number (s.gpr .v1)))
      (run callee none (vectors + 0x304) (popKernel.map .op ++ .eret :: .label 2 :: userPath)
        (callee target c)).after [.lw (slot (number (s.gpr .v1))), .call target c] := by
  have hpc : vectors + 0x29C + 4 * BitVec.ofNat 32 (saveContext ++ pushKernel ++ fetch).length + 8
      = vectors + 0x304 := by decide
  have hv1 : (s.set .k0 0x7C).gpr .v1 = s.gpr .v1 := by rw [Cpu.set_gpr, if_neg (by decide)]
  have htext : kernelPath ++ .label 2 :: userPath =
      (saveContext ++ pushKernel ++ fetch).map .op ++ .jalr .k0 :: .op .nop ::
        (popKernel.map .op ++ .eret :: .label 2 :: userPath) := rfl
  rw [take_nonneg hpos, List.append_assoc, checkNumber_run, if_neg hnum, htext,
    run_push (pushKernel_clear _) rfl (by decide), hpc, hv1, number, if_neg hpos]
  rfl

theorem take_user (hneg : (s.gpr .v1).toInt < 0) (hsp : Aligned 4 (word (s.gpr .sp))) :
    take callee 0x280 syscall s =
      let c := userCall s
      let target := c.mem.read (slot (number (s.gpr .v1)))
      (run callee none (vectors + 0x360) (popUser.map .op ++ [.eret])
        (callee target c)).after [.lw (slot (number (s.gpr .v1))), .call target c] := by
  have hpc : vectors + 0x32C + 4 * BitVec.ofNat 32 (pushUser ++ fetch).length + 8
      = vectors + 0x360 := by decide
  have hsp' : Aligned 4 (word ((s.set .v1 (sx (-word (s.gpr .v1)))).gpr .sp)) := by
    rwa [Cpu.set_gpr, if_neg (by decide)]
  have hv1 : word ((s.set .v1 (sx (-word (s.gpr .v1)))).gpr .v1) = number (s.gpr .v1) := by
    rw [Cpu.set_gpr, if_pos rfl, word_sx, number, if_pos hneg]
  rw [take_neg hneg, userPath, run_push ((pushUser_aligned _).mpr hsp') rfl (by decide), hpc, hv1]
  rfl

/-- On the user's path a stack pointer that is not a multiple of 4 faults at the first store. -/
theorem take_user_fault (hneg : (s.gpr .v1).toInt < 0) (hsp : ¬ Aligned 4 (word (s.gpr .sp))) :
    (take callee 0x280 syscall s).exit = .addressError ∧
      (take callee 0x280 syscall s).events = [] := by
  have hfault : ¬ (Op.sw .ra 0x0 .sp).Aligned
      (applyAll [.addiu .sp .sp (-0x10)] (s.set .v1 (sx (-word (s.gpr .v1))))) := by
    intro h
    apply hsp
    have h' : Aligned 4 (word (s.gpr .sp) + 4294967280#32) := by
      simpa [Op.Aligned, applyAll, Op.apply, Cpu.addr, Cpu.set_gpr] using h
    unfold Aligned at h' ⊢
    rw [BitVec.toNat_add, BitVec.toNat_ofNat] at h'
    omega
  have htext : userPath = [Op.addiu .sp .sp (-0x10)].map .op ++ .op (.sw .ra 0x0 .sp) ::
      userPath.drop 2 := rfl
  have hclear : AlignedAll [.addiu .sp .sp (-0x10)] (s.set .v1 (sx (-word (s.gpr .v1)))) :=
    ⟨trivial, trivial⟩
  rw [take_neg hneg, htext, run_fault hclear hfault]
  exact ⟨rfl, rfl⟩

end EeKernel.Vec
