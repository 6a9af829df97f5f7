import EeKernel.Sbus.Model
import EeKernel.Vec.Syscall

/-!
# The words the vectors jump through

TLB REFILL and COMMON mask the exception code, INTERRUPT searches the highest of
eight bits, so both stay inside their tables.  SYSCALL takes the number in `$v1`
as it is: `exists_outside` is what 256 does, and `confined_iff` says which
numbers stay inside `syscall_handler`.
-/

namespace EeKernel.Vec

open EeKernel.R5900 EeKernel.Lib
open EeKernel.Intr (idx toNat_idx)

/-- An aligned word inside a table. -/
structure Inside (table : Word) (size : Nat) (a : Word) : Prop where
  aligned : Aligned 4 a
  lower : table.toNat ≤ a.toNat
  upper : a.toNat + 4 ≤ table.toNat + size

/-- The run reads one word and jumps to what it holds. -/
structure JumpsThrough (r : Run) (a : Word) : Prop where
  reads : r.events = [.lw a]
  jumps : r.exit = .jump (r.cpu.mem.read a)

/-- The words called through: each is read right before the call. -/
def calledThrough : List Event → List Word
  | .lw a :: .call target s :: es => a :: calledThrough (.call target s :: es)
  | _ :: es => calledThrough es
  | [] => []

theorem calledThrough_reads {es : List Event} (h : ∀ e ∈ es, ∃ a, e = .lw a) :
    calledThrough es = [] := by
  induction es with
  | nil => rfl
  | cons e es ih =>
    obtain ⟨a, rfl⟩ := h e List.mem_cons_self
    have hes : ∀ e ∈ es, ∃ a, e = .lw a := fun e he => h e (List.mem_cons_of_mem _ he)
    cases es with
    | nil => rfl
    | cons f fs =>
      obtain ⟨b, rfl⟩ := hes f List.mem_cons_self
      exact ih hes

theorem calledThrough_call {a target : Word} {s : Cpu} {es : List Event}
    (h : ∀ e ∈ es, ∃ a, e = .lw a) : calledThrough (.lw a :: .call target s :: es) = [a] := by
  rw [calledThrough, calledThrough, calledThrough_reads h]
  intro _ _ _ _ he
  cases he

/-- The ExcCode field. -/
def excCode (s : Cpu) : Word := (s.cop0 .cause >>> 2) &&& 0x1F#32

/-- The IP bits that are pending and enabled, from bit 0. -/
def pending (s : Cpu) : Word := ((s.cop0 .cause &&& s.cop0 .status) >>> 8) &&& 0xFF#32

/-- Every vector fetches its handler from its own table. -/
structure Confined (callee : Word → Cpu → Cpu) (s : Cpu) : Prop where
  tlbRefill : (excCode s).toNat ≤ 13 →
    ∃ a, JumpsThrough (take callee 0x0 tlbRefill s) a ∧ Inside exc_handler 0x38 a
  common : (excCode s).toNat ≤ 13 →
    ∃ a, JumpsThrough (take callee 0x180 common s) a ∧ Inside exc_handler 0x38 a
  interrupt : pending s ≠ 0 →
    ∃ i : Fin 32, Highest (pending s) i ∧
      JumpsThrough (take callee 0x200 interrupt s) (irq_handler + idx i <<< 2) ∧
      Inside irq_handler 0x40 (irq_handler + idx i <<< 2)
  syscall : ∀ a ∈ calledThrough (take callee 0x280 syscall s).events,
    Inside syscall_handler 0x400 a

variable {callee : Word → Cpu → Cpu} {s : Cpu}

/-- The entry `n` lies inside a table exactly if `4 * n` does, as a word. -/
theorem inside_iff {table : Word} {size : Nat} (ht : Aligned 4 table) (hsize : size % 4 = 0)
    (hfit : table.toNat + size ≤ 2 ^ 32) (n : Word) :
    Inside table size (table + n <<< 2) ↔ (n <<< 2).toNat < size := by
  have hn : (n <<< 2).toNat % 4 = 0 := by
    rw [BitVec.toNat_shiftLeft, Nat.shiftLeft_eq]
    omega
  have htable := table.isLt
  have hword := (n <<< 2).isLt
  constructor
  · intro h
    have hlow := h.lower
    have hup := h.upper
    rw [BitVec.toNat_add] at hlow hup
    omega
  · intro h
    refine ⟨aligned_entry ht n, ?_, ?_⟩
    · rw [BitVec.toNat_add]
      omega
    · rw [BitVec.toNat_add]
      omega

/-! ## TLB REFILL and COMMON -/

def excStub : List Op := [
  .lui .k0 (hi t9_backup),
  .sd .t9 (lo t9_backup) .k0,
  .mfc0 .t9 .cause,
  .lui .k0 (hi exc_handler),
  .andi .t9 .t9 0x7C,
  .addu .k0 .k0 .t9,
  .lw .k0 (lo exc_handler) .k0,
  .lui .t9 (hi t9_backup)]

/-- TLB REFILL and COMMON are one text. -/
theorem exc_text : tlbRefill = excStub.map .op ++ [.jr .k0, .op (.ld .t9 (lo t9_backup) .t9)] ∧
    common = tlbRefill := ⟨rfl, rfl⟩

theorem mask_excCode (s : Cpu) : s.cop0 .cause &&& 0x7C#32 = excCode s <<< 2 := by
  have hmask : ∀ i : Fin 32, (0x7C#32).getLsbD i =
      (!decide ((i : Nat) < 2) && (0x1F#32).getLsbD (i - 2)) := by
    decide
  apply BitVec.eq_of_getLsbD_eq
  intro i hi
  have hi' : (0x7C#32).getLsbD i = (!decide (i < 2) && (0x1F#32).getLsbD (i - 2)) := hmask ⟨i, hi⟩
  simp only [excCode, BitVec.getLsbD_and, BitVec.getLsbD_shiftLeft, BitVec.getLsbD_ushiftRight, hi,
    decide_true, Bool.true_and, hi']
  by_cases h2 : i < 2
  · simp [h2]
  · simp [h2, Nat.add_sub_cancel' (Nat.le_of_not_lt h2)]

theorem exc_jumps (callee : Word → Cpu → Cpu) (pc : Word) (s : Cpu) :
    JumpsThrough (run callee none pc tlbRefill s) (exc_handler + excCode s <<< 2) := by
  have hmask : s.cop0 .cause &&& word 0x7C#64 = excCode s <<< 2 := mask_excCode s
  have hbackup : Aligned 8 t9_backup := by decide
  have haligned : AlignedAll excStub s := by
    have hentry : Aligned 4 (exc_handler + excCode s <<< 2) := aligned_entry (by decide) _
    simp [excStub, AlignedAll, Op.Aligned, Op.apply, Cpu.addr, Cpu.set_gpr, hmask]
    exact ⟨hbackup, hentry⟩
  have hslot : (Op.ld .t9 (lo t9_backup) .t9).Aligned (applyAll excStub s) := by
    simp [excStub, applyAll, Op.Aligned, Op.apply, Cpu.addr, Cpu.set_gpr]
    exact hbackup
  rw [exc_text.1, run_jr haligned hslot]
  constructor
  · simp [excStub, reads, Op.events, Op.apply, Cpu.addr, Cpu.set_gpr, hmask]
  · simp [excStub, applyAll, Op.apply, Cpu.addr, Cpu.set_gpr, hmask]

theorem exc_inside (h : (excCode s).toNat ≤ 13) :
    Inside exc_handler 0x38 (exc_handler + excCode s <<< 2) := by
  rw [inside_iff (by decide) (by decide) (by decide), BitVec.toNat_shiftLeft, Nat.shiftLeft_eq]
  omega

/-! ## INTERRUPT -/

def irqStub : List Op := [
  .lui .k0 (hi user_context),
  .sq .sp (lo user_context) .k0,
  .sq .ra (lo (user_context + 0x10)) .k0,
  .sq .at (lo (user_context + 0x20)) .k0,
  .mfc0 .at .cause,
  .mfc0 .k0 .status,
  .and .at .at .k0,
  .srl .at .at 8,
  .andi .at .at 0xFF,
  .plzcw .k0 .at,
  .andi .k0 .k0 0xFF,
  .li .at 0x1E,
  .subu .at .at .k0,
  .sll .at .at 2,
  .lui .k0 (hi irq_handler),
  .addu .k0 .k0 .at,
  .lw .k0 (lo irq_handler) .k0]

theorem irq_text : interrupt = irqStub.map .op ++ [.jr .k0, .op .nop] := rfl

/-- Bits 8 to 15 are eight bits. -/
theorem pending_lt {i : Fin 32} (h : Highest (pending s) i) : (i : Nat) < 8 := by
  have hbit := h.set
  rw [pending, BitVec.getLsbD_and, Bool.and_eq_true] at hbit
  have hmask : ∀ i : Fin 32, (0xFF#32).getLsbD i = true → (i : Nat) < 8 := by decide
  exact hmask i hbit.2

/-- The search of the stub is that of the SBUS handler, for a word without a sign bit. -/
theorem search_eq (s : Cpu) :
    0x1E#32 - (R5900.plzcw (pending s) &&& 0xFF#32) = Sbus.highestBit (pending s) := by
  have hsign : ¬ (pending s &&& 0x80000000 ≠ 0) := by
    rw [Sbus.sign_iff, BitVec.msb_eq_getLsbD_last, pending, BitVec.getLsbD_and]
    simp
  rw [Sbus.highestBit, if_neg hsign]
  rfl

theorem irq_jumps (callee : Word → Cpu → Cpu) (pc : Word) (h : pending s ≠ 0) :
    ∃ i : Fin 32, Highest (pending s) i ∧
      JumpsThrough (run callee none pc interrupt s) (irq_handler + idx i <<< 2) ∧
      Inside irq_handler 0x40 (irq_handler + idx i <<< 2) := by
  obtain ⟨i, hi, htop⟩ := Sbus.highestBit_spec h
  have hlt := pending_lt htop
  have hsearch : 0x1E#32 - (R5900.plzcw ((s.cop0 .cause &&& s.cop0 .status) >>> 8 &&& word 0xFF#64)
      &&& word 0xFF#64) = idx i := (search_eq s).trans hi
  have haligned : AlignedAll irqStub s := by
    have hentry : Aligned 4 (irq_handler + idx i <<< 2) := aligned_entry (by decide) _
    simp [irqStub, AlignedAll, Op.Aligned, Op.apply, Cpu.addr, Cpu.set_gpr, hsearch]
    exact hentry
  have hinside : Inside irq_handler 0x40 (irq_handler + idx i <<< 2) := by
    rw [inside_iff (by decide) (by decide) (by decide), BitVec.toNat_shiftLeft, Nat.shiftLeft_eq,
      toNat_idx (by omega)]
    omega
  have hslot : Op.nop.Aligned (applyAll irqStub s) := trivial
  refine ⟨i, htop, ?_, hinside⟩
  rw [irq_text, run_jr haligned hslot]
  constructor
  · simp [irqStub, reads, Op.events, Op.apply, Cpu.addr, Cpu.set_gpr, hsearch]
  · simp [irqStub, applyAll, Op.apply, Cpu.addr, Cpu.set_gpr, hsearch]

/-! ## SYSCALL -/

/-- The one word SYSCALL calls through, where it gets that far. -/
theorem syscall_calledThrough (callee : Word → Cpu → Cpu) (s : Cpu) :
    calledThrough (take callee 0x280 syscall s).events =
      if (s.gpr .v1).toInt < 0 ∧ ¬ Aligned 4 (word (s.gpr .sp)) ∨ s.gpr .v1 = 0x7C then []
      else [slot (number (s.gpr .v1))] := by
  by_cases hneg : (s.gpr .v1).toInt < 0
  · have hnum : s.gpr .v1 ≠ 0x7C := fun h => absurd (h ▸ hneg) (by decide)
    by_cases hsp : Aligned 4 (word (s.gpr .sp))
    · rw [if_neg (not_or.mpr ⟨fun h => h.2 hsp, hnum⟩), take_user hneg hsp]
      exact calledThrough_call (run_ops_noCall _ _)
    · rw [if_pos (.inl ⟨hneg, hsp⟩), (take_user_fault hneg hsp).2]
      rfl
  · by_cases hnum : s.gpr .v1 = 0x7C
    · rw [if_pos (.inr hnum), take_nonneg hneg, List.append_assoc, checkNumber_run, if_pos hnum]
      rfl
    · rw [if_neg (not_or.mpr ⟨fun h => hneg h.1, hnum⟩), take_kernel hneg hnum]
      exact calledThrough_call (run_ops_noCall _ _)

theorem slot_inside_iff (n : Word) :
    Inside syscall_handler 0x400 (slot n) ↔ n.toNat % 2 ^ 30 < 0x100 := by
  rw [slot, inside_iff (by decide) (by decide) (by decide), BitVec.toNat_shiftLeft,
    Nat.shiftLeft_eq]
  omega

/-- The vectors stay inside their tables exactly for the numbers whose absolute value, less its
two top bits, is below 256; with a negative one the stub may also fault before it calls. -/
theorem confined_iff (callee : Word → Cpu → Cpu) (s : Cpu) :
    Confined callee s ↔
      (number (s.gpr .v1)).toNat % 2 ^ 30 < 0x100 ∨
        (s.gpr .v1).toInt < 0 ∧ ¬ Aligned 4 (word (s.gpr .sp)) := by
  have h7C : (number 0x7C).toNat % 2 ^ 30 < 0x100 := by decide
  constructor
  · intro h
    by_cases hfault : (s.gpr .v1).toInt < 0 ∧ ¬ Aligned 4 (word (s.gpr .sp))
    · exact .inr hfault
    · by_cases hnum : s.gpr .v1 = 0x7C
      · exact .inl (hnum ▸ h7C)
      · have hcalled := h.syscall (slot (number (s.gpr .v1)))
        rw [syscall_calledThrough, if_neg (not_or.mpr ⟨hfault, hnum⟩), slot_inside_iff] at hcalled
        exact .inl (hcalled List.mem_cons_self)
  · intro h
    refine ⟨fun hexc => ⟨_, exc_jumps callee _ s, exc_inside hexc⟩,
      fun hexc => ⟨_, exc_jumps callee _ s, exc_inside hexc⟩, irq_jumps callee _, ?_⟩
    intro a ha
    rw [syscall_calledThrough] at ha
    split at ha
    · cases ha
    · next hcalls =>
      obtain rfl := List.mem_singleton.mp ha
      rcases h with hnum | hfault
      · exact (slot_inside_iff _).mpr hnum
      · exact absurd (.inl hfault) hcalls

/-- Number 256 is called through the first word of `exc_handler`, past the end of
`syscall_handler`. -/
theorem exists_outside :
    calledThrough (take (fun _ c => c) 0x280 syscall (caller 0x100 0)).events = [exc_handler] ∧
      exc_handler.toNat = syscall_handler.toNat + 0x400 ∧
      ¬ Confined (fun _ c => c) (caller 0x100 0) := by
  have hcalled : calledThrough (take (fun _ c => c) 0x280 syscall (caller 0x100 0)).events =
      [exc_handler] := by
    rw [syscall_calledThrough, if_neg (by decide)]
    decide
  refine ⟨hcalled, by decide, fun h => ?_⟩
  have hinside := h.syscall exc_handler (hcalled ▸ List.mem_singleton_self exc_handler)
  exact absurd hinside.upper (by decide)

end EeKernel.Vec
