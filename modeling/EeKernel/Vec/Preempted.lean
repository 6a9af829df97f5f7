import EeKernel.Vec.Context

/-!
# Programs that are interrupted

An exception of user code goes through TLB REFILL or COMMON, an interrupt through
INTERRUPT, and a handler comes back from each.  A program that keeps to user
memory and has no use for `$k0` does not notice where and how often that happens,
as long as the handlers the tables hold put back what they were given.
-/

namespace EeKernel.Vec

open EeKernel.R5900 EeKernel.Lib
open EeKernel.Intr (idx toNat_idx)

/-! ## Handlers -/

/-- An exception handler comes back with everything but `$k0`, and user memory, as it found
them. -/
structure Resumes (user : Word → Prop) (c t : Cpu) : Prop where
  alike : Alike (· = .k0) user c t
  epc : t.cop0 .epc = c.cop0 .epc

/-- So does an interrupt handler, but for the registers it finds in `user_context`. -/
structure ResumesContext (user : Word → Prop) (c t : Cpu) : Prop where
  alike : Alike (fun g => g ∈ [.at, .k0, .sp, .ra]) user c t
  context : HoldsContext c.mem t
  epc : t.cop0 .epc = c.cop0 .epc

/-- The tables hold exception handlers and interrupt handlers. -/
structure Installed (exc irq : Word → Prop) (m : Mem) : Prop where
  exc : ∀ a ∈ words exc_handler 14, exc (m.read a)
  irq : ∀ a ∈ words irq_handler 8, irq (m.read a)

/-- User memory: the addresses code in user mode can access. -/
def User (a : Word) : Prop := a.msb = false

/-- The handlers of a kernel, and what each does until its `eret`. -/
structure Handlers where
  exc : Word → Prop
  irq : Word → Prop
  serve : Word → Cpu → Cpu
  exc_resumes : ∀ a c, exc a → Resumes User c (serve a c)
  irq_resumes : ∀ a c, irq a → ResumesContext User c (serve a c)
  installed : ∀ a c, exc a ∨ irq a → Installed exc irq c.mem → Installed exc irq (serve a c).mem

/-- The vectors an exception or an interrupt of user code goes through. -/
inductive Vector
  | tlbRefill
  | common
  | interrupt

namespace Vector

def offset : Vector → Word
  | tlbRefill => 0x0
  | common => 0x180
  | interrupt => 0x200

def text : Vector → List Line
  | tlbRefill => Vec.tlbRefill
  | common => Vec.common
  | interrupt => Vec.interrupt

/-- What Cause and Status hold when it is gone through. -/
def Ready (s : Cpu) : Vector → Prop
  | tlbRefill | common => (excCode s).toNat ≤ 13
  | interrupt => pending s ≠ 0

end Vector

/-- The processor at a vector, from `p`: nothing has changed but the coprocessor, and EPC is the
instruction to go on with. -/
structure Raised (v : Vector) (p : Core) (s : Cpu) : Prop where
  gpr : s.gpr = p.cpu.gpr
  upper : s.upper = p.cpu.upper
  mem : s.mem = p.cpu.mem
  epc : s.cop0 .epc = p.pc
  ready : v.Ready s

/-- An exception or an interrupt, from the instruction it comes before to the `eret`. -/
inductive Trap (H : Handlers) : Core → Core → Prop
  | trap {v : Vector} {p : Core} {s : Cpu} {target : Word} (raised : Raised v p s)
      (jumps : (take H.serve v.offset v.text s).exit = .jump target) :
      Trap H p
        { pc := (H.serve target (take H.serve v.offset v.text s).cpu).cop0 .epc
          cpu := H.serve target (take H.serve v.offset v.text s).cpu }

/-! ## What a trap leaves -/

theorem not_user_words {a : Word} {n : Nat} (ha : 2 ^ 31 ≤ a.toNat)
    (hfit : a.toNat + 4 * n ≤ 2 ^ 32) : ∀ b ∈ words a n, ¬ User b := by
  intro b hb huser
  have hrange := words_range hb hfit
  unfold User at huser
  rw [BitVec.msb_eq_decide, decide_eq_false_iff_not] at huser
  omega

section Trap

variable {H : Handlers} {p q : Core} {s : Cpu} {r : Run} {target : Word} {used : List Gpr}
  {saved : List Word} {m m' : Mem} {exc irq : Word → Prop}

/-- What is not stored to the tables leaves the handlers installed. -/
theorem Installed.onlyAt (h : Installed exc irq m) (hkeep : OnlyAt saved m m')
    (hexc : ∀ a ∈ words exc_handler 14, a ∉ saved)
    (hirq : ∀ a ∈ words irq_handler 8, a ∉ saved) : Installed exc irq m' where
  exc a ha := by
    rw [hkeep a (hexc a ha)]
    exact h.exc a ha
  irq a ha := by
    rw [hkeep a (hirq a ha)]
    exact h.irq a ha

theorem Raised.alike {v : Vector} (h : Raised v p s) : Alike (· = .k0) User p.cpu s where
  gpr g _ := by rw [h.gpr]
  upper g _ := by rw [h.upper]
  mem a _ := by rw [h.mem]

theorem Enters.mem_user (h : Enters used saved s r target) (hsaved : ∀ a ∈ saved, ¬ User a)
    {a : Word} (ha : User a) : r.cpu.mem.read a = s.mem.read a :=
  h.mem a fun hmem => hsaved a hmem ha

/-- An exception, as the program sees it. -/
theorem exc_alike {t : Cpu} (h : Enters [.k0] (words t9_backup 2) s r target)
    (ht : Resumes User r.cpu t) : Alike (· = .k0) User s t := by
  have hstub : Alike (· = .k0) User s r.cpu :=
    { gpr := fun g hg => h.gpr g (mt List.mem_singleton.mp hg)
      upper := fun g _ => by rw [h.upper]
      mem := fun a ha => h.mem_user (not_user_words (by decide) (by decide)) ha }
  exact hstub.trans ht.alike

/-- An interrupt, as the program sees it. -/
theorem irq_alike {t : Cpu} (h : Enters [.at, .k0] (words user_context 12) s r target)
    (hcontext : HoldsContext r.cpu.mem s) (ht : ResumesContext User r.cpu t) :
    Alike (· = .k0) User s t := by
  have hregs : ∀ g ∈ [Gpr.sp, .ra, .at], t.gpr g = s.gpr g ∧ t.upper g = s.upper g := by
    have hsp := ht.context.sp
    have hra := ht.context.ra
    have hat := ht.context.at_
    simp only [List.forall_mem_cons, List.not_mem_nil, false_imp_iff, implies_true, and_true]
    exact ⟨⟨hsp.lower.symm.trans hcontext.sp.lower, hsp.upper.symm.trans hcontext.sp.upper⟩,
      ⟨hra.lower.symm.trans hcontext.ra.lower, hra.upper.symm.trans hcontext.ra.upper⟩,
      hat.lower.symm.trans hcontext.at_.lower, hat.upper.symm.trans hcontext.at_.upper⟩
  refine ⟨fun g hg => ?_, fun g hg => ?_, fun a ha => ?_⟩
  · by_cases hsaved : g ∈ [Gpr.sp, .ra, .at]
    · exact (hregs g hsaved).1
    · have hkept : g ∉ [Gpr.at, .k0, .sp, .ra] := by simp_all
      rw [ht.alike.gpr g hkept]
      exact h.gpr g (by simp_all)
  · by_cases hsaved : g ∈ [Gpr.sp, .ra, .at]
    · exact (hregs g hsaved).2
    · have hkept : g ∉ [Gpr.at, .k0, .sp, .ra] := by simp_all
      rw [ht.alike.upper g hkept, h.upper]
  · rw [ht.alike.mem a ha]
    exact h.mem_user (not_user_words (by decide) (by decide)) ha

/-- What holds between the program before a trap and after it. -/
structure Unnoticed (H : Handlers) (p q : Core) : Prop where
  alike : p.Alike (· = .k0) User q
  installed : Installed H.exc H.irq q.cpu.mem

theorem exc_unnoticed {v : Vector} (raised : Raised v p s) (hcode : (excCode s).toNat ≤ 13)
    (hinst : Installed H.exc H.irq p.cpu.mem) (h : Enters [.k0] (words t9_backup 2) s r
      ((storeDouble s.mem t9_backup (s.gpr .t9)).read (exc_handler + excCode s <<< 2)))
    (jumps : r.exit = .jump target) :
    Unnoticed H p { pc := (H.serve target r.cpu).cop0 .epc, cpu := H.serve target r.cpu } := by
  have hentry : exc_handler + excCode s <<< 2 ∈ words exc_handler 14 :=
    entry_mem_words exc_handler (by omega)
  have hbackup : ∀ a ∈ words exc_handler 14, a ∉ words t9_backup 2 :=
    fun a ha hb => words_disjoint (by decide) (by decide) ha hb
  have hstored : Installed H.exc H.irq r.cpu.mem := by
    rw [← raised.mem] at hinst
    exact hinst.onlyAt h.mem hbackup
      fun a ha hb => words_disjoint (by decide) (by decide) hb ha
  have htarget : H.exc target := by
    obtain rfl := Exit.jump.inj (h.exit.symm.trans jumps)
    have hread : (storeDouble s.mem t9_backup (s.gpr .t9)).read (exc_handler + excCode s <<< 2)
        = s.mem.read (exc_handler + excCode s <<< 2) := by
      refine OnlyAt.storeDouble s.mem t9_backup (s.gpr .t9) _ ?_
      rw [← words_two]
      exact hbackup _ hentry
    rw [hread, raised.mem]
    exact hinst.exc _ hentry
  have hback := H.exc_resumes target r.cpu htarget
  refine ⟨⟨?_, raised.alike.trans (exc_alike h hback)⟩, H.installed _ _ (.inl htarget) hstored⟩
  exact hback.epc.trans ((congrFun h.cop0 _).trans raised.epc)

theorem irq_unnoticed {v : Vector} (raised : Raised v p s) {i : Fin 32} (hi : (i : Nat) < 8)
    (hinst : Installed H.exc H.irq p.cpu.mem) (h : Enters [.at, .k0] (words user_context 12) s r
      (s.mem.read (irq_handler + idx i <<< 2)))
    (hcontext : HoldsContext r.cpu.mem s) (jumps : r.exit = .jump target) :
    Unnoticed H p { pc := (H.serve target r.cpu).cop0 .epc, cpu := H.serve target r.cpu } := by
  have hentry : irq_handler + idx i <<< 2 ∈ words irq_handler 8 :=
    entry_mem_words irq_handler (by rwa [toNat_idx (by omega)])
  have hstored : Installed H.exc H.irq r.cpu.mem := by
    rw [← raised.mem] at hinst
    exact hinst.onlyAt h.mem (fun a ha hb => words_disjoint (by decide) (by decide) hb ha)
      fun a ha hb => words_disjoint (by decide) (by decide) hb ha
  have htarget : H.irq target := by
    obtain rfl := Exit.jump.inj (h.exit.symm.trans jumps)
    rw [raised.mem]
    exact hinst.irq _ hentry
  have hback := H.irq_resumes target r.cpu htarget
  refine ⟨⟨?_, raised.alike.trans (irq_alike h hcontext hback)⟩,
    H.installed _ _ (.inr htarget) hstored⟩
  exact hback.epc.trans ((congrFun h.cop0 _).trans raised.epc)

theorem Trap.unnoticed (h : Trap H p q) (hinst : Installed H.exc H.irq p.cpu.mem) :
    Unnoticed H p q := by
  cases h with
  | @trap v p s target raised jumps =>
    cases v with
    | tlbRefill =>
      have henters := exc_enters H.serve (vectors + 0x0) s
      exact exc_unnoticed raised raised.ready hinst henters jumps
    | common =>
      have henters := exc_enters H.serve (vectors + 0x180) s
      rw [← exc_text.2] at henters
      exact exc_unnoticed raised raised.ready hinst henters jumps
    | interrupt =>
      have hrun : run H.serve none (vectors + 0x200) Vec.interrupt s =
          take H.serve Vector.interrupt.offset Vector.interrupt.text s := by
        unfold take Vector.offset Vector.text
        rfl
      obtain ⟨i, -, hi, henters, hcontext⟩ := irq_enters s H.serve (vectors + 0x200) raised.ready
      rw [hrun] at henters hcontext
      exact irq_unnoticed raised hi hinst henters hcontext jumps

/-- User code does not reach the tables. -/
theorem executes_installed {code : Code (· = .k0)} {i : Op} (h : Executes code User p i q)
    (hinst : Installed exc irq p.cpu.mem) : Installed exc irq q.cpu.mem := by
  cases h with
  | @op pc pc' s i _ _ hseen =>
    have htables : ∀ {a : Word} {n : Nat}, 2 ^ 31 ≤ a.toNat → a.toNat + 4 * n ≤ 2 ^ 32 →
        ∀ b ∈ words a n, b ∉ i.touches s :=
      fun ha hfit b hb htouch => not_user_words ha hfit b hb (hseen b htouch)
    exact hinst.onlyAt (apply_onlyAt i s) (htables (by decide) (by decide))
      (htables (by decide) (by decide))

/-- **Preemption.**  However often and wherever a program is interrupted, it executes what it
would have executed undisturbed, and can go on as it would have. -/
theorem preempted_unnoticed (H : Handlers) (code : Code (· = .k0)) {p q : Core}
    {ls : List (Option Op)} (hinst : Installed H.exc H.irq p.cpu.mem)
    (run : (disturbed code User (Trap H)).Exec p ls q) :
    ∃ p', (undisturbed code User).Exec p ls.reduceOption p' ∧ p'.Alike (· = .k0) User q ∧
      Installed H.exc H.irq q.cpu.mem ∧
      ∀ {i p''}, Executes code User p' i p'' →
        ∃ q', Executes code User q i q' ∧ p''.Alike (· = .k0) User q' := by
  have hsim : Lts.WeakSimulation (disturbed code User (Trap H)) (undisturbed code User)
      fun q p => p.Alike (· = .k0) User q ∧ Installed H.exc H.irq q.cpu.mem :=
    disturbed_weakSimulation (fun hinst h => executes_installed h hinst)
      fun hinst h => ⟨(h.unnoticed hinst).alike, (h.unnoticed hinst).installed⟩
  obtain ⟨p', run', hsame, hinst'⟩ := hsim.exec run ⟨⟨rfl, .refl _⟩, hinst⟩
  refine ⟨p', run', hsame, hinst', fun h => ?_⟩
  obtain ⟨q', hq', hsame'⟩ := h.alike hsame.symm
  exact ⟨q', hq', hsame'.symm⟩

/-! ## A program that counts -/

/-- The processor at a vector, with these values in Cause and Status. -/
def raise (p : Core) (cause status : Word) : Cpu where
  gpr := p.cpu.gpr
  upper := p.cpu.upper
  cop0
    | .status => status
    | .cause => cause
    | .epc => p.pc
  mem := p.cpu.mem

/-- Any instruction can be trapped before. -/
theorem exists_trap (H : Handlers) {v : Vector} {cause status : Word}
    (ready : v.Ready (raise p cause status)) : ∃ q, Trap H p q := by
  have raised : Raised v p (raise p cause status) := ⟨rfl, rfl, rfl, rfl, ready⟩
  cases v with
  | tlbRefill => exact ⟨_, .trap raised (exc_enters _ _ _).exit⟩
  | common => exact ⟨_, .trap raised (exc_enters H.serve (vectors + 0x180) _).exit⟩
  | interrupt =>
    obtain ⟨i, -, -, henters, -⟩ := irq_enters _ H.serve (vectors + 0x200) ready
    exact ⟨_, .trap raised henters.exit⟩

end Trap

/-- The registers of the context, put back. -/
def restore (c : Cpu) : Cpu where
  gpr g :=
    if g = .sp then loadDouble c.mem user_context
    else if g = .ra then loadDouble c.mem (user_context + 0x10)
    else if g = .at then loadDouble c.mem (user_context + 0x20)
    else c.gpr g
  upper g :=
    if g = .sp then loadDouble c.mem (user_context + 8)
    else if g = .ra then loadDouble c.mem (user_context + 0x10 + 8)
    else if g = .at then loadDouble c.mem (user_context + 0x20 + 8)
    else c.upper g
  cop0 := c.cop0
  mem := c.mem

theorem restore_resumes (c : Cpu) : ResumesContext User c (restore c) where
  alike := by
    refine ⟨fun g hg => ?_, fun g hg => ?_, fun _ _ => rfl⟩
    · simp only [List.mem_cons, List.not_mem_nil, or_false, not_or] at hg
      simp [restore, hg]
    · simp only [List.mem_cons, List.not_mem_nil, or_false, not_or] at hg
      simp [restore, hg]
  context := ⟨⟨rfl, rfl⟩, ⟨rfl, rfl⟩, rfl, rfl⟩
  epc := rfl

/-- Exceptions go back at once, and interrupts when they have restored the context. -/
def restoring : Handlers where
  exc a := a = 1
  irq a := a = 2
  serve a c := if a = 2 then restore c else c
  exc_resumes := by
    rintro _ c rfl
    exact ⟨.refl c, rfl⟩
  irq_resumes := by
    rintro _ c rfl
    exact restore_resumes c
  installed a c _ h := by
    by_cases ha : a = 2
    · rw [if_pos ha]
      exact h
    · rw [if_neg ha]
      exact h

/-- `$v0` is counted up for ever. -/
def counting : Code (· = .k0) where
  next pc _ := (.addiu .v0 .v0 1, pc + 4)
  blind _ _ _ _ := rfl
  names _ _ := by simp [Op.names]
  user _ _ := rfl

/-- Where it starts; the tables hold 1 and 2. -/
def countingStart : Core where
  pc := 0x100000
  cpu :=
    { gpr _ := 0
      upper _ := 0
      cop0 _ := 0
      mem a := if irq_handler.toNat ≤ a.toNat then 2 else 1 }

theorem countingStart_installed : Installed restoring.exc restoring.irq countingStart.cpu.mem where
  exc a ha := by
    have hrange := words_range ha (by decide)
    have hlast : exc_handler.toNat + 4 * 14 ≤ irq_handler.toNat := by decide
    have hlt : ¬ irq_handler.toNat ≤ a.toNat := by omega
    exact if_neg hlt
  irq a ha := if_pos (words_range ha (by decide)).1

theorem preempted_unnoticed_counter : ∃ q,
    (disturbed counting User (Trap restoring)).Exec countingStart
      [none, some (.addiu .v0 .v0 1), none] q ∧
    ∃ p', (undisturbed counting User).Exec countingStart [.addiu .v0 .v0 1] p' ∧
      p'.Alike (· = .k0) User q ∧ Installed restoring.exc restoring.irq q.cpu.mem ∧
      ∀ {i p''}, Executes counting User p' i p'' →
        ∃ q', Executes counting User q i q' ∧ p''.Alike (· = .k0) User q' := by
  have hsyscall : ∀ p, Vector.common.Ready (raise p 0x20 0) := by
    intro p
    change ((0x20#32 >>> 2) &&& 0x1F#32).toNat ≤ 13
    decide
  have htimer : ∀ p, Vector.interrupt.Ready (raise p 0x8000 0x8000) := by
    intro p
    change ((0x8000#32 &&& 0x8000#32) >>> 8) &&& 0xFF#32 ≠ 0
    decide
  obtain ⟨p₁, first⟩ := exists_trap restoring (hsyscall countingStart)
  have next : Executes counting User p₁ (.addiu .v0 .v0 1) _ :=
    .op rfl trivial fun _ h => absurd h List.not_mem_nil
  obtain ⟨q, second⟩ := exists_trap restoring (htimer _)
  have run : (disturbed counting User (Trap restoring)).Exec countingStart
      ([] ++ [none] ++ [some (.addiu .v0 .v0 1)] ++ [none]) q :=
    (((Lts.Exec.refl _).snoc (Disturbed.trap first)).snoc (Disturbed.op next)).snoc
      (Disturbed.trap second)
  exact ⟨q, run, preempted_unnoticed restoring counting countingStart_installed run⟩

end EeKernel.Vec
