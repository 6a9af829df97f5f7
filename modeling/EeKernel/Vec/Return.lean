import EeKernel.Vec.Syscall

/-!
# What SYSCALL gives back

Both paths save what they need in a frame below the stack pointer they call
with, and a callee that keeps that pointer and those words comes back to the
caller's `$sp`, `$ra` and the instruction after its `syscall`.
-/

namespace EeKernel.Vec

open EeKernel.R5900

/-- The callee comes back to `$ra` with the stack pointer, and `n` words from it on, as they
were. -/
structure Keeps (callee : Word → Cpu → Cpu) (target : Word) (c : Cpu) (n : Nat) : Prop where
  sp : (callee target c).gpr .sp = c.gpr .sp
  frame : ∀ a ∈ words (word (c.gpr .sp)) n, (callee target c).mem.read a = c.mem.read a

/-- The size of the frame, in words. -/
def frameSize (v1 : BitVec 64) : Nat := if v1.toInt < 0 then 2 else 3

/-- Status as an exception from user mode leaves it: IE, EXL and the upper bit of KSU. -/
structure UserStatus (status : Word) : Prop where
  bit0 : status.getLsbD 0 = true
  bit1 : status.getLsbD 1 = true
  bit3 : status.getLsbD 3 = false
  bit4 : status.getLsbD 4 = true

/-- What the kernel's path clears before the call is what it sets after it. -/
theorem UserStatus.restored {status : Word} (h : UserStatus status) :
    status &&& 0xFFFFFFE4#32 ||| 0x13#32 = status := by
  have hclear : ∀ i : Fin 32, (0xFFFFFFE4#32).getLsbD i =
      !decide ((i : Nat) = 0 ∨ (i : Nat) = 1 ∨ (i : Nat) = 3 ∨ (i : Nat) = 4) := by decide
  have hset : ∀ i : Fin 32, (0x13#32).getLsbD i =
      decide ((i : Nat) = 0 ∨ (i : Nat) = 1 ∨ (i : Nat) = 4) := by decide
  apply BitVec.eq_of_getLsbD_eq
  intro i hi
  rw [BitVec.getLsbD_or, BitVec.getLsbD_and, hclear ⟨i, hi⟩, hset ⟨i, hi⟩]
  by_cases h0 : i = 0
  · subst h0
    rw [h.bit0]
    rfl
  by_cases h1 : i = 1
  · subst h1
    rw [h.bit1]
    rfl
  by_cases h3 : i = 3
  · subst h3
    rw [h.bit3]
    rfl
  by_cases h4 : i = 4
  · subst h4
    rw [h.bit4]
    rfl
  simp [h0, h1, h3, h4]

/-- One call, in state `c`, of the handler of the number, and back to the caller. -/
structure Returned (s : Cpu) (r : Run) (c : Cpu) : Prop where
  calls : r.calls = [(c.mem.read (slot (number (s.gpr .v1))), c)]
  gpr : ∀ g, g ∉ [Gpr.at, .v1, .k0, .sp, .ra] → c.gpr g = s.gpr g
  upper : c.upper = s.upper
  exit : r.exit = .eret
  epc : r.cpu.cop0 .epc = s.cop0 .epc + 4
  sp : r.cpu.gpr .sp = s.gpr .sp
  ra : r.cpu.gpr .ra = s.gpr .ra

/-- The kernel's path calls on the stack below `D_8001B400` and leaves that alone. -/
structure OnKernelStack (callee : Word → Cpu → Cpu) (s : Cpu) (r : Run) (c : Cpu) : Prop where
  sp : c.gpr .sp = sx kernelFrame
  below : ∀ a ∈ words kernelFrame 3, a.toNat + 4 ≤ D_8001B400.toNat
  mem : OnlyAt (words user_context 12 ++ words kernelFrame 3) s.mem c.mem
  status : UserStatus (s.cop0 .status) →
    (∀ t ∈ r.calls, (callee t.1 t.2).cop0 .status = t.2.cop0 .status) →
    r.cpu.cop0 .status = s.cop0 .status

/-- The user's path calls on the caller's stack and never writes Status. -/
structure OnUserStack (callee : Word → Cpu → Cpu) (s : Cpu) (r : Run) (c : Cpu) : Prop where
  sp : c.gpr .sp = sx (word (s.gpr .sp) - 0x10)
  mem : OnlyAt (words (word (s.gpr .sp) - 0x10) 2) s.mem c.mem
  statusCall : c.cop0 .status = s.cop0 .status
  statusReturn : ∀ t ∈ r.calls, r.cpu.cop0 .status = (callee t.1 t.2).cop0 .status

section Kernel

variable (s : Cpu)

theorem kernelCall_gpr {g : Gpr} (h : g ∉ [Gpr.at, .v1, .k0, .sp, .ra]) :
    (kernelCall s).gpr g = s.gpr g := by
  have hdest : (saveContext ++ pushKernel ++ fetch).filterMap Op.dest ⊆
      [Gpr.at, .v1, .k0, .sp, .ra] := by decide
  have hra : g ≠ .ra := fun hg => h (by simp [hg])
  have hk0 : g ≠ .k0 := fun hg => h (by simp [hg])
  rw [kernelCall, Cpu.set_gpr, if_neg hra, applyAll_gpr fun hg => h (hdest hg), Cpu.set_gpr,
    if_neg hk0]

theorem kernelCall_upper : (kernelCall s).upper = s.upper := by
  rw [kernelCall, Cpu.set_upper, applyAll_upper, Cpu.set_upper]

theorem kernelCall_sp : (kernelCall s).gpr .sp = sx kernelFrame := by
  rw [kernelCall, Cpu.set_gpr, if_neg (by decide), applyAll_append, applyAll_gpr (by decide),
    applyAll_append, pushKernel_sp]

theorem kernelCall_status : (kernelCall s).cop0 .status = s.cop0 .status &&& 0xFFFFFFE4 := by
  rw [kernelCall, Cpu.set_cop0, applyAll_append, applyAll_cop0 (by decide), applyAll_append,
    applyAll_cop0 (by decide), saveContext_status]
  rfl

theorem kernelCall_mem : (kernelCall s).mem =
    (((applyAll saveContext (s.set .k0 0x7C)).mem.write kernelFrame (word (s.gpr .ra))).write
      (kernelFrame + 4) (word (s.gpr .sp))).write (kernelFrame + 8) (s.cop0 .epc + 4) := by
  rw [kernelCall, Cpu.set_mem, applyAll_append, applyAll_mem (by decide), applyAll_append,
    pushKernel_mem, applyAll_gpr (by decide), applyAll_gpr (by decide), applyAll_cop0 (by decide)]
  rfl

theorem kernelCall_onlyAt :
    OnlyAt (words user_context 12 ++ words kernelFrame 3) s.mem (kernelCall s).mem := by
  rw [kernelCall_mem]
  have hsave := saveContext_mem (s.set .k0 0x7C)
  have hpush := ((hsave.trans (.write _ kernelFrame (word (s.gpr .ra)))).trans
    (.write _ (kernelFrame + 4) (word (s.gpr .sp)))).trans
    (.write _ (kernelFrame + 8) (s.cop0 .epc + 4))
  rw [List.append_assoc, List.append_assoc] at hpush
  exact hpush

theorem kernelFrame_below : ∀ a ∈ words kernelFrame 3, a.toNat + 4 ≤ D_8001B400.toNat := by
  simp [words, List.range_succ, kernelFrame, D_8001B400]

theorem kernelCall_frame :
    (kernelCall s).mem.read kernelFrame = word (s.gpr .ra) ∧
    (kernelCall s).mem.read (kernelFrame + 4) = word (s.gpr .sp) ∧
    (kernelCall s).mem.read (kernelFrame + 8) = s.cop0 .epc + 4 := by
  rw [kernelCall_mem]
  refine ⟨?_, ?_, Mem.read_write_same _ _ _⟩
  · rw [Mem.read_write_of_ne _ _ (by decide), Mem.read_write_of_ne _ _ (by decide),
      Mem.read_write_same]
  · rw [Mem.read_write_of_ne _ _ (by decide), Mem.read_write_same]

theorem popKernel_sp : (applyAll popKernel s).gpr .sp =
    sx (s.mem.read (word (s.gpr .sp) + 4)) := by
  simp [popKernel, applyAll, Op.apply, Cpu.addr, Cpu.set_gpr]

theorem popKernel_ra : (applyAll popKernel s).gpr .ra = sx (s.mem.read (word (s.gpr .sp))) := by
  simp [popKernel, applyAll, Op.apply, Cpu.addr, Cpu.set_gpr]

theorem popKernel_epc : (applyAll popKernel s).cop0 .epc =
    s.mem.read (word (s.gpr .sp) + 8) := by
  simp [popKernel, applyAll, Op.apply, Cpu.addr, Cpu.set_gpr, Cpu.setCop0_cop0]

theorem popKernel_status : (applyAll popKernel s).cop0 .status = s.cop0 .status ||| 0x13 := by
  simp [popKernel, applyAll, Op.apply, Cpu.addr, Cpu.set_gpr, Cpu.setCop0_cop0]
  rfl

theorem popKernel_aligned (h : s.gpr .sp = sx kernelFrame) : AlignedAll popKernel s := by
  simp [popKernel, AlignedAll, Op.Aligned, Op.apply, Cpu.addr, Cpu.set_gpr, h]
  decide

end Kernel

section User

variable (s : Cpu)

theorem userCall_gpr {g : Gpr} (h : g ∉ [Gpr.at, .v1, .k0, .sp, .ra]) :
    (userCall s).gpr g = s.gpr g := by
  have hdest : (pushUser ++ fetch).filterMap Op.dest ⊆ [Gpr.at, .v1, .k0, .sp, .ra] := by decide
  have hra : g ≠ .ra := fun hg => h (by simp [hg])
  have hv1 : g ≠ .v1 := fun hg => h (by simp [hg])
  rw [userCall, Cpu.set_gpr, if_neg hra, applyAll_gpr fun hg => h (hdest hg), Cpu.set_gpr,
    if_neg hv1]

theorem userCall_upper : (userCall s).upper = s.upper := by
  rw [userCall, Cpu.set_upper, applyAll_upper, Cpu.set_upper]

theorem userCall_sp : (userCall s).gpr .sp = sx (word (s.gpr .sp) - 0x10) := by
  rw [userCall, Cpu.set_gpr, if_neg (by decide), applyAll_append, applyAll_gpr (by decide),
    pushUser_sp, Cpu.set_gpr, if_neg (by decide)]

theorem userCall_status : (userCall s).cop0 .status = s.cop0 .status := by
  rw [userCall, Cpu.set_cop0, applyAll_cop0 (by decide), Cpu.set_cop0]

theorem userCall_mem : (userCall s).mem =
    (s.mem.write (word (s.gpr .sp) - 0x10) (word (s.gpr .ra))).write
      (word (s.gpr .sp) - 0x10 + 4) (s.cop0 .epc + 4) := by
  rw [userCall, Cpu.set_mem, applyAll_append, applyAll_mem (by decide), pushUser_mem,
    Cpu.set_gpr, if_neg (by decide), Cpu.set_gpr, if_neg (by decide)]
  rfl

theorem userCall_onlyAt :
    OnlyAt (words (word (s.gpr .sp) - 0x10) 2) s.mem (userCall s).mem := by
  rw [userCall_mem]
  have hpush := (OnlyAt.write s.mem (word (s.gpr .sp) - 0x10) (word (s.gpr .ra))).trans
    (.write _ (word (s.gpr .sp) - 0x10 + 4) (s.cop0 .epc + 4))
  simpa [words, List.range_succ] using hpush

theorem userCall_frame :
    (userCall s).mem.read (word (s.gpr .sp) - 0x10) = word (s.gpr .ra) ∧
    (userCall s).mem.read (word (s.gpr .sp) - 0x10 + 4) = s.cop0 .epc + 4 := by
  rw [userCall_mem]
  refine ⟨?_, Mem.read_write_same _ _ _⟩
  have hne : word (s.gpr .sp) - 0x10 ≠ word (s.gpr .sp) - 0x10 + 4 := by
    simp
  rw [Mem.read_write_of_ne _ _ hne, Mem.read_write_same]

theorem popUser_sp : (applyAll popUser s).gpr .sp = sx (word (s.gpr .sp) + 0x10) := by
  simp [popUser, applyAll, Op.apply, Cpu.addr, Cpu.set_gpr]

theorem popUser_ra : (applyAll popUser s).gpr .ra = sx (s.mem.read (word (s.gpr .sp))) := by
  simp [popUser, applyAll, Op.apply, Cpu.addr, Cpu.set_gpr]

theorem popUser_epc : (applyAll popUser s).cop0 .epc = s.mem.read (word (s.gpr .sp) + 4) := by
  simp [popUser, applyAll, Op.apply, Cpu.addr, Cpu.set_gpr, Cpu.setCop0_cop0]

theorem popUser_status : (applyAll popUser s).cop0 .status = s.cop0 .status :=
  applyAll_cop0 (by decide)

theorem popUser_aligned {sp : Word} (hsp : Aligned 4 sp) (h : s.gpr .sp = sx (sp - 0x10)) :
    AlignedAll popUser s := by
  simp [popUser, AlignedAll, Op.Aligned, Op.apply, Cpu.addr, Cpu.set_gpr, h]
  unfold Aligned at hsp ⊢
  rw [BitVec.toNat_add, BitVec.toNat_sub]
  simp only [BitVec.toNat_ofNat]
  omega

end User

variable {callee : Word → Cpu → Cpu} {s : Cpu}

theorem calls_after {target a : Word} {c : Cpu} {r : Run} (h : ∀ e ∈ r.events, ∃ b, e = .lw b) :
    (r.after [.lw a, .call target c]).calls = [(target, c)] := by
  have hnil : r.calls = [] := by
    apply List.filterMap_eq_nil_iff.mpr
    intro e he
    obtain ⟨b, rfl⟩ := h e he
    rfl
  exact congrArg ((target, c) :: ·) hnil

theorem kernel_returns (hpos : ¬ (s.gpr .v1).toInt < 0) (hnum : s.gpr .v1 ≠ 0x7C)
    (hsp : s.gpr .sp = sx (word (s.gpr .sp))) (hra : s.gpr .ra = sx (word (s.gpr .ra)))
    (hkeeps : ∀ t ∈ (take callee 0x280 syscall s).calls, Keeps callee t.1 t.2 3) :
    Returned s (take callee 0x280 syscall s) (kernelCall s) ∧
      OnKernelStack callee s (take callee 0x280 syscall s) (kernelCall s) := by
  have hrun : take callee 0x280 syscall s = _ := take_kernel hpos hnum
  have hcalls : (take callee 0x280 syscall s).calls =
      [((kernelCall s).mem.read (slot (number (s.gpr .v1))), kernelCall s)] := by
    rw [hrun]
    exact calls_after (run_ops_noCall _ _)
  have hmem := List.mem_singleton.mpr (Eq.refl ((kernelCall s).mem.read
    (slot (number (s.gpr .v1))), kernelCall s))
  rw [← hcalls] at hmem
  -- `t` is what the callee leaves
  obtain ⟨t, ht⟩ : ∃ t, t = callee ((kernelCall s).mem.read (slot (number (s.gpr .v1))))
    (kernelCall s) := ⟨_, rfl⟩
  obtain ⟨htsp, htframe⟩ := hkeeps _ hmem
  simp only [← ht] at hrun htsp htframe
  rw [kernelCall_sp] at htsp htframe
  rw [word_sx] at htframe
  rw [run_eret (popKernel_aligned t htsp)] at hrun
  have hsp' := popKernel_sp t
  have hra' := popKernel_ra t
  have hepc' := popKernel_epc t
  obtain ⟨hframe, hframe4, hframe8⟩ := kernelCall_frame s
  rw [htsp, word_sx, htframe _ (by decide), hframe4, ← hsp] at hsp'
  rw [htsp, word_sx, htframe _ (by decide), hframe, ← hra] at hra'
  rw [htsp, word_sx, htframe _ (by decide), hframe8] at hepc'
  rw [hrun] at hcalls hmem ⊢
  refine ⟨⟨hcalls, fun g hg => kernelCall_gpr s hg, kernelCall_upper s, rfl, hepc', hsp', hra'⟩,
    kernelCall_sp s, kernelFrame_below, kernelCall_onlyAt s, ?_⟩
  intro hstatus hleaves
  have hleft := hleaves _ hmem
  simp only [← ht] at hleft
  rw [Run.after_cpu, popKernel_status, hleft, kernelCall_status]
  exact hstatus.restored

theorem user_returns (hneg : (s.gpr .v1).toInt < 0) (haligned : Aligned 4 (word (s.gpr .sp)))
    (hsp : s.gpr .sp = sx (word (s.gpr .sp))) (hra : s.gpr .ra = sx (word (s.gpr .ra)))
    (hkeeps : ∀ t ∈ (take callee 0x280 syscall s).calls, Keeps callee t.1 t.2 2) :
    Returned s (take callee 0x280 syscall s) (userCall s) ∧
      OnUserStack callee s (take callee 0x280 syscall s) (userCall s) := by
  have hrun : take callee 0x280 syscall s = _ := take_user hneg haligned
  have hcalls : (take callee 0x280 syscall s).calls =
      [((userCall s).mem.read (slot (number (s.gpr .v1))), userCall s)] := by
    rw [hrun]
    exact calls_after (run_ops_noCall _ _)
  have hmem := List.mem_singleton.mpr (Eq.refl ((userCall s).mem.read
    (slot (number (s.gpr .v1))), userCall s))
  rw [← hcalls] at hmem
  obtain ⟨t, ht⟩ : ∃ t, t = callee ((userCall s).mem.read (slot (number (s.gpr .v1))))
    (userCall s) := ⟨_, rfl⟩
  obtain ⟨htsp, htframe⟩ := hkeeps _ hmem
  simp only [← ht] at hrun htsp htframe
  rw [userCall_sp] at htsp htframe
  rw [word_sx] at htframe
  rw [run_eret (popUser_aligned t haligned htsp)] at hrun
  have hsp' := popUser_sp t
  have hra' := popUser_ra t
  have hepc' := popUser_epc t
  have hstatus' := popUser_status t
  obtain ⟨hframe, hframe4⟩ := userCall_frame s
  rw [htsp, word_sx, BitVec.sub_add_cancel, ← hsp] at hsp'
  rw [htsp, word_sx, htframe _ (by simp [words, List.range_succ]), hframe, ← hra] at hra'
  rw [htsp, word_sx, htframe _ (by simp [words, List.range_succ]), hframe4] at hepc'
  rw [hrun] at hcalls ⊢
  refine ⟨⟨hcalls, fun g hg => userCall_gpr s hg, userCall_upper s, rfl, hepc', hsp', hra'⟩,
    userCall_sp s, userCall_onlyAt s, userCall_status s, ?_⟩
  intro u hu
  rw [hcalls, List.mem_singleton] at hu
  rw [hu, Run.after_cpu, hstatus', ht]

/-- Either way through SYSCALL makes one call and brings the caller back. -/
theorem syscall_returns (callee : Word → Cpu → Cpu) (s : Cpu) (hnum : s.gpr .v1 ≠ 0x7C)
    (hsp : s.gpr .sp = sx (word (s.gpr .sp))) (hra : s.gpr .ra = sx (word (s.gpr .ra)))
    (haligned : (s.gpr .v1).toInt < 0 → Aligned 4 (word (s.gpr .sp)))
    (hkeeps : ∀ t ∈ (take callee 0x280 syscall s).calls,
      Keeps callee t.1 t.2 (frameSize (s.gpr .v1))) :
    ∃ c, Returned s (take callee 0x280 syscall s) c ∧
      (¬ (s.gpr .v1).toInt < 0 → OnKernelStack callee s (take callee 0x280 syscall s) c) ∧
      ((s.gpr .v1).toInt < 0 → OnUserStack callee s (take callee 0x280 syscall s) c) := by
  by_cases hneg : (s.gpr .v1).toInt < 0
  · rw [frameSize, if_pos hneg] at hkeeps
    obtain ⟨hback, huser⟩ := user_returns hneg (haligned hneg) hsp hra hkeeps
    exact ⟨_, hback, fun hpos => absurd hneg hpos, fun _ => huser⟩
  · rw [frameSize, if_neg hneg] at hkeeps
    obtain ⟨hback, hkernel⟩ := kernel_returns hneg hnum hsp hra hkeeps
    exact ⟨_, hback, fun _ => hkernel, fun hneg' => absurd hneg' hneg⟩

theorem syscall_returns_four :
    (∃ c, Returned (caller 4 0x70000000)
        (take (fun _ c => c) 0x280 syscall (caller 4 0x70000000)) c ∧
      (¬ (4 : BitVec 64).toInt < 0 → OnKernelStack (fun _ c => c) (caller 4 0x70000000)
        (take (fun _ c => c) 0x280 syscall (caller 4 0x70000000)) c) ∧
      ((4 : BitVec 64).toInt < 0 → OnUserStack (fun _ c => c) (caller 4 0x70000000)
        (take (fun _ c => c) 0x280 syscall (caller 4 0x70000000)) c)) ∧
    ∃ c, Returned (caller (-4) 0x70000000)
        (take (fun _ c => c) 0x280 syscall (caller (-4) 0x70000000)) c ∧
      (¬ (-4 : BitVec 64).toInt < 0 → OnKernelStack (fun _ c => c) (caller (-4) 0x70000000)
        (take (fun _ c => c) 0x280 syscall (caller (-4) 0x70000000)) c) ∧
      ((-4 : BitVec 64).toInt < 0 → OnUserStack (fun _ c => c) (caller (-4) 0x70000000)
        (take (fun _ c => c) 0x280 syscall (caller (-4) 0x70000000)) c) :=
  ⟨syscall_returns _ _ (by decide) (by decide) (by decide) (fun _ => by decide)
      fun _ _ => ⟨rfl, fun _ _ => rfl⟩,
    syscall_returns _ _ (by decide) (by decide) (by decide) (fun _ => by decide)
      fun _ _ => ⟨rfl, fun _ _ => rfl⟩⟩

/-- A caller with number -1 and an odd stack pointer gets an address error: no handler is
called, and the caller does not come back. -/
theorem exists_not_returned :
    let s := caller (-1) 1
    let r := take (fun _ c => c) 0x280 syscall s
    s.gpr .v1 ≠ 0x7C ∧ s.gpr .sp = sx (word (s.gpr .sp)) ∧ s.gpr .ra = sx (word (s.gpr .ra)) ∧
      (∀ t ∈ r.calls, Keeps (fun _ c => c) t.1 t.2 (frameSize (s.gpr .v1))) ∧
      r.exit = .addressError ∧ r.calls = [] ∧ ¬ ∃ c, Returned s r c := by
  intro s r
  obtain ⟨hexit, hevents⟩ : r.exit = .addressError ∧ r.events = [] :=
    take_user_fault (by decide) (by decide)
  have hcalls : r.calls = [] := by
    rw [Run.calls, hevents]
    rfl
  refine ⟨by decide, by decide, by decide, fun _ _ => ⟨rfl, fun _ _ => rfl⟩, hexit, hcalls, ?_⟩
  intro ⟨c, hc⟩
  have heret := hc.exit
  rw [hexit] at heret
  cases heret

end EeKernel.Vec
