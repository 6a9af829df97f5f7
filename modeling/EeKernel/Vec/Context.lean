import EeKernel.Lib.Alike
import EeKernel.Vec.Tables

/-!
# What an exception does to the program it interrupts

TLB REFILL and COMMON enter a handler with everything as it was but `$k0`, and
INTERRUPT with everything but `$k0` and `$at`, which it has put in `user_context`
beside `$sp` and `$ra`.  Behind `exc_handler` lies `t9_backup`, so two exception
codes have the interrupted code's own `$t9` for their handler.
-/

namespace EeKernel.Vec

open EeKernel.R5900 EeKernel.Lib
open EeKernel.Intr (idx toNat_idx)

/-! ## How a handler is entered -/

/-- The handler at `target` is entered, with everything as it was but the `used` registers and
the `saved` words. -/
structure Enters (used : List Gpr) (saved : List Word) (s : Cpu) (r : Run) (target : Word) :
    Prop where
  exit : r.exit = .jump target
  gpr : ∀ g, g ∉ used → r.cpu.gpr g = s.gpr g
  upper : r.cpu.upper = s.upper
  cop0 : r.cpu.cop0 = s.cop0
  mem : OnlyAt saved s.mem r.cpu.mem

/-- `user_context` holds a register each in its first three quadwords. -/
structure HoldsContext (m : Mem) (s : Cpu) : Prop where
  sp : HoldsQuad m user_context (s.gpr .sp) (s.upper .sp)
  ra : HoldsQuad m (user_context + 0x10) (s.gpr .ra) (s.upper .ra)
  at_ : HoldsQuad m (user_context + 0x20) (s.gpr .at) (s.upper .at)

section Exc

variable (callee : Word → Cpu → Cpu) (pc : Word) (s : Cpu)

theorem exc_cpu : (run callee none pc tlbRefill s).cpu =
    (Op.ld .t9 (lo t9_backup) .t9).apply (applyAll excStub s) := by
  have hexit := (exc_jumps callee pc s).jumps
  rw [exc_text.1] at hexit ⊢
  exact run_jr_cpu hexit

theorem excStub_mem : (applyAll excStub s).mem = storeDouble s.mem t9_backup (s.gpr .t9) := by
  simp [excStub, applyAll, Op.apply, Cpu.addr, Cpu.set_gpr]

theorem excStub_t9 :
    ((Op.ld .t9 (lo t9_backup) .t9).apply (applyAll excStub s)).gpr .t9 = s.gpr .t9 := by
  have haddr : (applyAll excStub s).addr (lo t9_backup) .t9 = t9_backup := by
    simp [excStub, applyAll, Op.apply, Cpu.addr, Cpu.set_gpr]
  have hload := loadDouble_storeDouble s.mem t9_backup (s.gpr .t9)
  rw [Op.apply, Cpu.set_gpr, if_pos rfl, haddr, excStub_mem]
  exact hload

/-- TLB REFILL and COMMON give `$t9` back before they jump. -/
theorem exc_enters : Enters [.k0] (words t9_backup 2) s (run callee none pc tlbRefill s)
    ((storeDouble s.mem t9_backup (s.gpr .t9)).read (exc_handler + excCode s <<< 2)) := by
  have hjumps := (exc_jumps callee pc s).jumps
  have hmem : (run callee none pc tlbRefill s).cpu.mem = _ := congrArg Cpu.mem (exc_cpu callee pc s)
  rw [apply_mem rfl, excStub_mem] at hmem
  rw [hmem] at hjumps
  refine ⟨hjumps, fun g hg => ?_, ?_, ?_, ?_⟩
  · rw [exc_cpu]
    by_cases ht9 : g = .t9
    · subst ht9
      exact excStub_t9 s
    · have hdest : ∀ q ∈ excStub.filterMap Op.dest, q = .k0 ∨ q = .t9 := by decide
      have hstub : g ∉ excStub.filterMap Op.dest := fun h =>
        (hdest g h).elim (fun hk0 => hg (List.mem_singleton.mpr hk0)) ht9
      have hload : (Op.ld .t9 (lo t9_backup) .t9).dest ≠ some g := fun h =>
        ht9 (Option.some_inj.mp h).symm
      rw [apply_gpr hload, applyAll_gpr hstub]
  · rw [exc_cpu, apply_upper, applyAll_upper]
  · funext c
    have hdest : excStub.filterMap Op.destCop0 = [] := rfl
    have hload : (Op.ld .t9 (lo t9_backup) .t9).destCop0 ≠ some c := Option.some_ne_none c |>.symm
    rw [exc_cpu, apply_cop0 hload, applyAll_cop0 (by simp [hdest])]
  · rw [hmem, words_two]
    exact .storeDouble _ _ _

end Exc

section Irq

/-- The quadwords INTERRUPT stores. -/
def saveQuads : List Op := [
  .lui .k0 (hi user_context),
  .sq .sp (lo user_context) .k0,
  .sq .ra (lo (user_context + 0x10)) .k0,
  .sq .at (lo (user_context + 0x20)) .k0]

theorem irqStub_saves : irqStub = saveQuads ++ irqStub.drop 4 := rfl

variable (s : Cpu)

theorem saveQuads_mem : (applyAll saveQuads s).mem =
    storeQuad (storeQuad (storeQuad s.mem user_context (s.gpr .sp) (s.upper .sp))
      (user_context + 0x10) (s.gpr .ra) (s.upper .ra))
      (user_context + 0x20) (s.gpr .at) (s.upper .at) := by
  have h1 : hi user_context ++ 0#16 + (lo (user_context + 0x10)).signExtend 32
      = user_context + 0x10 := by decide
  have h2 : hi user_context ++ 0#16 + (lo (user_context + 0x20)).signExtend 32
      = user_context + 0x20 := by decide
  simp [saveQuads, applyAll, Op.apply, Cpu.set_gpr, Cpu.addr] at h1 h2 ⊢
  rw [h1, h2]
  rfl

theorem irqStub_mem : (applyAll irqStub s).mem = (applyAll saveQuads s).mem := by
  rw [irqStub_saves, applyAll_append]
  exact applyAll_mem (by decide)

theorem irqStub_onlyAt : OnlyAt (words user_context 12) s.mem (applyAll irqStub s).mem := by
  have hwords : words user_context 4 ++ words (user_context + 0x10) 4 ++
      words (user_context + 0x20) 4 = words user_context 12 := by decide
  rw [irqStub_mem, saveQuads_mem, ← hwords]
  exact ((OnlyAt.storeQuad s.mem user_context _ _).trans
    (.storeQuad _ (user_context + 0x10) _ _)).trans (.storeQuad _ (user_context + 0x20) _ _)

theorem irqStub_context : HoldsContext (applyAll irqStub s).mem s := by
  have hsp : ∀ b ∈ words user_context 4,
      b ∉ words (user_context + 0x10) 4 ++ words (user_context + 0x20) 4 := by
    intro b hb h
    rcases List.mem_append.mp h with h | h
    · exact words_disjoint (by decide) (by decide) hb h
    · exact words_disjoint (by decide) (by decide) hb h
  have hra : ∀ b ∈ words (user_context + 0x10) 4, b ∉ words (user_context + 0x20) 4 :=
    fun b hb h => words_disjoint (by decide) (by decide) hb h
  rw [irqStub_mem, saveQuads_mem]
  refine ⟨?_, ?_, holdsQuad_storeQuad _ _ _ _⟩
  · have hkeep := (OnlyAt.storeQuad (storeQuad s.mem user_context (s.gpr .sp) (s.upper .sp))
      (user_context + 0x10) (s.gpr .ra) (s.upper .ra)).trans
      (.storeQuad _ (user_context + 0x20) (s.gpr .at) (s.upper .at))
    exact (holdsQuad_storeQuad _ _ _ _).keep hkeep hsp
  · exact (holdsQuad_storeQuad _ _ _ _).keep (.storeQuad _ _ _ _) hra

/-- INTERRUPT jumps to the handler of the highest pending line, which finds the context. -/
theorem irq_enters (callee : Word → Cpu → Cpu) (pc : Word) (h : pending s ≠ 0) :
    ∃ i : Fin 32, Highest (pending s) i ∧ (i : Nat) < 8 ∧
      Enters [.at, .k0] (words user_context 12) s (run callee none pc interrupt s)
        (s.mem.read (irq_handler + idx i <<< 2)) ∧
      HoldsContext (run callee none pc interrupt s).cpu.mem s := by
  obtain ⟨i, htop, hjumps, -⟩ := irq_jumps callee pc h
  have hlt := pending_lt htop
  have hcpu : (run callee none pc interrupt s).cpu = applyAll irqStub s := by
    have hexit := hjumps.jumps
    have hslot : Op.nop.apply (applyAll irqStub s) = applyAll irqStub s := by rw [Op.apply]
    rw [irq_text] at hexit ⊢
    rw [run_jr_cpu hexit, hslot]
  have hentry : irq_handler + idx i <<< 2 ∉ words user_context 12 := by
    have htable : irq_handler + idx i <<< 2 ∈ words irq_handler 8 :=
      entry_mem_words irq_handler (by rwa [toNat_idx (by omega)])
    exact fun h => words_disjoint (by decide) (by decide) h htable
  refine ⟨i, htop, hlt, ⟨?_, fun g hg => ?_, ?_, ?_, ?_⟩, ?_⟩
  · have hread : (applyAll irqStub s).mem.read (irq_handler + idx i <<< 2) =
        s.mem.read (irq_handler + idx i <<< 2) := irqStub_onlyAt s _ hentry
    have hexit := hjumps.jumps
    rw [hcpu, hread] at hexit
    exact hexit
  · have hdest : irqStub.filterMap Op.dest ⊆ [.at, .k0] := by decide
    rw [hcpu, applyAll_gpr fun h => hg (hdest h)]
  · rw [hcpu, applyAll_upper]
  · funext c
    have hdest : irqStub.filterMap Op.destCop0 = [] := rfl
    rw [hcpu, applyAll_cop0 (by simp [hdest])]
  · rw [hcpu]
    exact irqStub_onlyAt s
  · rw [hcpu]
    exact irqStub_context s

end Irq

/-- What TLB REFILL and COMMON jump to.  The two words behind `exc_handler` are `t9_backup`. -/
def excTarget (s : Cpu) : Word :=
  if excCode s = 14 then word (s.gpr .t9)
  else if excCode s = 15 then word (s.gpr .t9 >>> 32)
  else s.mem.read (exc_handler + excCode s <<< 2)

theorem excCode_lt (s : Cpu) : (excCode s).toNat < 32 := by
  have hmask : (0x1F#32).toNat < 2 ^ 5 := by decide
  unfold excCode
  rw [BitVec.toNat_and]
  exact Nat.and_lt_two_pow _ hmask

/-- Different codes have different entries. -/
theorem exc_entry_ne {c k : Word} (hc : c.toNat < 32) (hk : k.toNat < 32) (h : c ≠ k) :
    exc_handler + c <<< 2 ≠ exc_handler + k <<< 2 := by
  intro heq
  have hshift : c <<< 2 = k <<< 2 := (BitVec.add_right_inj _).mp heq
  have hnat := congrArg BitVec.toNat hshift
  rw [BitVec.toNat_shiftLeft, BitVec.toNat_shiftLeft, Nat.shiftLeft_eq, Nat.shiftLeft_eq] at hnat
  exact h (BitVec.eq_of_toNat_eq (by omega))

theorem read_backup (s : Cpu) :
    (storeDouble s.mem t9_backup (s.gpr .t9)).read (exc_handler + excCode s <<< 2) =
      excTarget s := by
  have h14 : t9_backup = exc_handler + (14 : Word) <<< 2 := by decide
  have h15 : t9_backup + (4 : Word) = exc_handler + (15 : Word) <<< 2 := by decide
  have hne : exc_handler + (14 : Word) <<< 2 ≠ exc_handler + (15 : Word) <<< 2 := by decide
  have hlt := excCode_lt s
  unfold storeDouble excTarget
  rw [h15, h14]
  by_cases hc14 : excCode s = 14
  · rw [if_pos hc14, hc14, Mem.read_write_of_ne _ _ hne, Mem.read_write_same]
  by_cases hc15 : excCode s = 15
  · rw [if_neg hc14, if_pos hc15, hc15, Mem.read_write_same]
  rw [if_neg hc14, if_neg hc15,
    Mem.read_write_of_ne _ _ (exc_entry_ne hlt (by decide) hc15),
    Mem.read_write_of_ne _ _ (exc_entry_ne hlt (by decide) hc14)]

/-- Each vector, in any state, whatever the exception code. -/
structure Entry (callee : Word → Cpu → Cpu) (s : Cpu) : Prop where
  tlbRefill : Enters [.k0] (words t9_backup 2) s (take callee 0x0 tlbRefill s) (excTarget s)
  common : Enters [.k0] (words t9_backup 2) s (take callee 0x180 common s) (excTarget s)
  interrupt : pending s ≠ 0 → ∃ i : Fin 32, Highest (pending s) i ∧
    Enters [.at, .k0] (words user_context 12) s (take callee 0x200 interrupt s)
      (s.mem.read (irq_handler + idx i <<< 2)) ∧
    HoldsContext (take callee 0x200 interrupt s).cpu.mem s
  counter : Enters [] [] s (take callee 0x80 counter s) func_800161BC
  debug : Enters [] [] s (take callee 0x100 debug s) func_800161BC

theorem enters_handlers (callee : Word → Cpu → Cpu) (s : Cpu) : Entry callee s := by
  have hexc : ∀ pc, Enters [.k0] (words t9_backup 2) s (run callee none pc tlbRefill s)
      (excTarget s) := by
    intro pc
    rw [← read_backup]
    exact exc_enters callee pc s
  have hjump : ∀ pc, Enters [] [] s (run callee none pc counter s) func_800161BC :=
    fun _ => ⟨rfl, fun _ _ => rfl, rfl, rfl, fun _ _ => rfl⟩
  refine ⟨hexc _, hexc _, fun h => ?_, hjump _, hjump _⟩
  obtain ⟨i, htop, -, henters, hcontext⟩ := irq_enters s callee (vectors + 0x200) h
  exact ⟨i, htop, henters, hcontext⟩

end EeKernel.Vec
