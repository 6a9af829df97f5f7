import EeKernel.Memory

/-!
# Assembly of the R5900

The instructions of the EE core that hand-written exception code is made of, and
what a stretch of assembly text does: straight-line instructions, branches to
local labels further on (`1f`), jumps with their delay slots, calls that come
back, and `eret`.

A register is its lower doubleword, which is what instructions compute with, and
its upper one, which only a quadword store reads.  An instruction on words takes
the low words of its operands and sign-extends its result.  Every aligned
address is backed by memory; an access that is not aligned is an address error.
-/

namespace EeKernel.R5900

/-- The registers but `$zero`, which no instruction below names. -/
inductive Gpr
  | at | v0 | v1 | a0 | a1 | a2 | a3
  | t0 | t1 | t2 | t3 | t4 | t5 | t6 | t7
  | s0 | s1 | s2 | s3 | s4 | s5 | s6 | s7
  | t8 | t9 | k0 | k1 | gp | sp | fp | ra
  deriving DecidableEq, Repr

inductive Cop0
  | status
  | cause
  | epc
  deriving DecidableEq, Repr

structure Cpu where
  gpr : Gpr → BitVec 64
  upper : Gpr → BitVec 64
  cop0 : Cop0 → Word
  mem : Mem

/-- The low word of a doubleword. -/
def word (x : BitVec 64) : Word := x.setWidth 32

/-- A word as a register holds it. -/
def sx (w : Word) : BitVec 64 := w.signExtend 64

/-- `%hi(a)`: the upper half to load for `%lo(a)` to be added with its sign. -/
def hi (a : Word) : BitVec 16 := ((a + 0x8000) >>> 16).setWidth 16

/-- `%lo(a)` -/
def lo (a : Word) : BitVec 16 := a.setWidth 16

namespace Cpu

def set (s : Cpu) (r : Gpr) (v : BitVec 64) : Cpu := { s with gpr := Function.update s.gpr r v }

def setCop0 (s : Cpu) (c : Cop0) (v : Word) : Cpu := { s with cop0 := Function.update s.cop0 c v }

def withMem (s : Cpu) (m : Mem) : Cpu := { s with mem := m }

/-- `off(base)` -/
def addr (s : Cpu) (off : BitVec 16) (base : Gpr) : Word := word (s.gpr base) + off.signExtend 32

end Cpu

def Aligned (n : Nat) (a : Word) : Prop := a.toNat % n = 0

instance (n : Nat) (a : Word) : Decidable (Aligned n a) := inferInstanceAs (Decidable (_ = _))

/-- `plzcw`, in one word: the leading bits equal to the sign bit, less one. -/
def plzcw (x : Word) : Word :=
  BitVec.ofNat 32 ((if x.msb then (~~~x).clz else x.clz).toNat - 1)

def storeDouble (m : Mem) (a : Word) (v : BitVec 64) : Mem :=
  (m.write a (word v)).write (a + 4) (word (v >>> 32))

def storeQuad (m : Mem) (a : Word) (lower upper : BitVec 64) : Mem :=
  storeDouble (storeDouble m a lower) (a + 8) upper

/-- An instruction that goes on to the next one. -/
inductive Op
  | nop
  | syncP
  | lui (rt : Gpr) (imm : BitVec 16)
  | li (rt : Gpr) (imm : BitVec 16)
  | move (rd rs : Gpr)
  | negu (rd rt : Gpr)
  | addiu (rt rs : Gpr) (imm : BitVec 16)
  | addu (rd rs rt : Gpr)
  | subu (rd rs rt : Gpr)
  | and (rd rs rt : Gpr)
  | andi (rt rs : Gpr) (imm : BitVec 16)
  | ori (rt rs : Gpr) (imm : BitVec 16)
  | sll (rd rt : Gpr) (sa : Nat)
  | srl (rd rt : Gpr) (sa : Nat)
  | plzcw (rd rs : Gpr)
  | mfc0 (rt : Gpr) (c : Cop0)
  | mtc0 (rt : Gpr) (c : Cop0)
  | lw (rt : Gpr) (off : BitVec 16) (base : Gpr)
  | ld (rt : Gpr) (off : BitVec 16) (base : Gpr)
  | sw (rt : Gpr) (off : BitVec 16) (base : Gpr)
  | sd (rt : Gpr) (off : BitVec 16) (base : Gpr)
  | sq (rt : Gpr) (off : BitVec 16) (base : Gpr)
  deriving DecidableEq

/-- Whether the address an instruction accesses, if any, is aligned. -/
def Op.Aligned (s : Cpu) : Op → Prop
  | lw _ off base | sw _ off base => R5900.Aligned 4 (s.addr off base)
  | ld _ off base | sd _ off base => R5900.Aligned 8 (s.addr off base)
  | _ => True

instance (s : Cpu) : (i : Op) → Decidable (i.Aligned s)
  | .lw _ off base | .sw _ off base => inferInstanceAs (Decidable (Aligned 4 (s.addr off base)))
  | .ld _ off base | .sd _ off base => inferInstanceAs (Decidable (Aligned 8 (s.addr off base)))
  | .nop | .syncP | .lui _ _ | .li _ _ | .move _ _ | .negu _ _ | .addiu _ _ _ | .addu _ _ _
  | .subu _ _ _ | .and _ _ _ | .andi _ _ _ | .ori _ _ _ | .sll _ _ _ | .srl _ _ _ | .plzcw _ _
  | .mfc0 _ _ | .mtc0 _ _ | .sq _ _ _ => inferInstanceAs (Decidable True)

/-- What an instruction does, where it is aligned. -/
def Op.apply (s : Cpu) : Op → Cpu
  | nop => s
  | syncP => s
  | lui rt imm => s.set rt (sx (imm ++ (0 : BitVec 16)))
  | li rt imm => s.set rt (sx (imm.signExtend 32))
  | move rd rs => s.set rd (s.gpr rs)
  | negu rd rt => s.set rd (sx (-word (s.gpr rt)))
  | addiu rt rs imm => s.set rt (sx (word (s.gpr rs) + imm.signExtend 32))
  | addu rd rs rt => s.set rd (sx (word (s.gpr rs) + word (s.gpr rt)))
  | subu rd rs rt => s.set rd (sx (word (s.gpr rs) - word (s.gpr rt)))
  | and rd rs rt => s.set rd (s.gpr rs &&& s.gpr rt)
  | andi rt rs imm => s.set rt (s.gpr rs &&& imm.setWidth 64)
  | ori rt rs imm => s.set rt (s.gpr rs ||| imm.setWidth 64)
  | sll rd rt sa => s.set rd (sx (word (s.gpr rt) <<< sa))
  | srl rd rt sa => s.set rd (sx (word (s.gpr rt) >>> sa))
  | plzcw rd rs =>
      s.set rd (R5900.plzcw (word (s.gpr rs >>> 32)) ++ R5900.plzcw (word (s.gpr rs)))
  | mfc0 rt c => s.set rt (sx (s.cop0 c))
  | mtc0 rt c => s.setCop0 c (word (s.gpr rt))
  | lw rt off base => s.set rt (sx (s.mem.read (s.addr off base)))
  | ld rt off base =>
      s.set rt (s.mem.read (s.addr off base + 4) ++ s.mem.read (s.addr off base))
  | sw rt off base => s.withMem (s.mem.write (s.addr off base) (word (s.gpr rt)))
  | sd rt off base => s.withMem (storeDouble s.mem (s.addr off base) (s.gpr rt))
  | sq rt off base =>
      -- the low four bits of the address are ignored
      s.withMem (storeQuad s.mem (s.addr off base &&& ~~~0xF) (s.gpr rt) (s.upper rt))

/-- A line of assembly text.  Branches and jumps have the line after them for their
delay slot. -/
inductive Line
  | label (n : Nat)
  | op (i : Op)
  | bne (rs rt : Gpr) (n : Nat)
  | bltzl (rs : Gpr) (n : Nat)
  | j (target : Word)
  | jr (rs : Gpr)
  | jalr (rs : Gpr)
  | eret
  deriving DecidableEq

/-- What is seen of a run: the words `lw` reads, and the calls. -/
inductive Event
  | lw (a : Word)
  | call (target : Word) (s : Cpu)

inductive Exit
  | jump (target : Word)
  | eret
  | addressError
  | offEnd

structure Run where
  events : List Event
  exit : Exit
  cpu : Cpu

def Run.after (es : List Event) (r : Run) : Run := { r with events := es ++ r.events }

def Run.calls (r : Run) : List (Word × Cpu) :=
  r.events.filterMap fun
    | .call target s => some (target, s)
    | .lw _ => none

def Op.events (s : Cpu) : Op → List Event
  | .lw _ off base => [.lw (s.addr off base)]
  | _ => []

/-- Run the text from address `pc` on, looking for the label `n` first in mode
`some n`.  `callee` is what a call does until it comes back to `$ra`. -/
def run (callee : Word → Cpu → Cpu) : Option Nat → Word → List Line → Cpu → Run
  | some n, pc, .label k :: rest, s => run callee (if k = n then none else some n) pc rest s
  | some n, pc, _ :: rest, s => run callee (some n) (pc + 4) rest s
  | none, pc, .label _ :: rest, s => run callee none pc rest s
  | none, pc, .op i :: rest, s =>
    if i.Aligned s then (run callee none (pc + 4) rest (i.apply s)).after (i.events s)
    else { events := [], exit := .addressError, cpu := s }
  | none, pc, .bne rs rt n :: .op slot :: rest, s =>
    if slot.Aligned s then
      (run callee (if s.gpr rs ≠ s.gpr rt then some n else none) (pc + 8) rest
        (slot.apply s)).after (slot.events s)
    else { events := [], exit := .addressError, cpu := s }
  | none, pc, .bltzl rs n :: .op slot :: rest, s =>
    if (s.gpr rs).toInt < 0 then
      if slot.Aligned s then
        (run callee (some n) (pc + 8) rest (slot.apply s)).after (slot.events s)
      else { events := [], exit := .addressError, cpu := s }
    else run callee none (pc + 8) rest s
  | none, _, .j target :: .op slot :: _, s =>
    if slot.Aligned s then
      { events := slot.events s, exit := .jump target, cpu := slot.apply s }
    else { events := [], exit := .addressError, cpu := s }
  | none, _, .jr rs :: .op slot :: _, s =>
    if slot.Aligned s then
      { events := slot.events s, exit := .jump (word (s.gpr rs)), cpu := slot.apply s }
    else { events := [], exit := .addressError, cpu := s }
  | none, pc, .jalr rs :: .op slot :: rest, s =>
    let t := s.set .ra (sx (pc + 8))
    if slot.Aligned t then
      let target := word (s.gpr rs)
      (run callee none (pc + 8) rest (callee target (slot.apply t))).after
        (slot.events t ++ [.call target (slot.apply t)])
    else { events := [], exit := .addressError, cpu := t }
  | none, _, .eret :: _, s => { events := [], exit := .eret, cpu := s }
  | _, _, _, s => { events := [], exit := .offEnd, cpu := s }

/-! ## Words and doublewords -/

section Word

@[simp] theorem word_sx (w : Word) : word (sx w) = w := by
  ext i h
  have h64 : i < 64 := by omega
  simp [word, sx, BitVec.getElem_setWidth, BitVec.getElem_signExtend, h64, h]

@[simp] theorem word_and (x y : BitVec 64) : word (x &&& y) = word x &&& word y :=
  BitVec.setWidth_and

@[simp] theorem word_or (x y : BitVec 64) : word (x ||| y) = word x ||| word y :=
  BitVec.setWidth_or

@[simp] theorem word_append (x y : Word) : word (x ++ y) = y := by
  ext i h
  have h64 : i < 64 := by omega
  simp only [word, BitVec.getElem_setWidth, BitVec.getLsbD_eq_getElem h64]
  exact (BitVec.getElem_append ..).trans (dif_pos h)

/-- The two halves of an address, put together again. -/
@[simp] theorem hi_lo (a : Word) : hi a ++ 0#16 + (lo a).signExtend 32 = a := by
  apply BitVec.eq_of_toNat_eq
  have ha := a.isLt
  have hlow : ((lo a).signExtend 32).toNat =
      a.toNat % 65536 + if 32768 ≤ a.toNat % 65536 then 2 ^ 32 - 65536 else 0 := by
    rw [BitVec.toNat_signExtend, BitVec.msb_eq_decide]
    simp [lo]
    omega
  have hhigh : (hi a ++ 0#16).toNat = (a.toNat + 32768) % 2 ^ 32 / 65536 * 65536 := by
    rw [BitVec.toNat_append]
    simp [hi, Nat.shiftLeft_eq, Nat.shiftRight_eq_div_pow]
    omega
  rw [BitVec.toNat_add, hhigh, hlow]
  split <;> omega

/-- `lui`, an index added, and the lower half as the offset of the access. -/
@[simp] theorem hi_add_lo (a w : Word) : hi a ++ 0#16 + w + (lo a).signExtend 32 = a + w := by
  rw [BitVec.add_assoc, BitVec.add_comm w, ← BitVec.add_assoc, hi_lo]

end Word

/-! ## Reading a state after an instruction -/

namespace Cpu

variable (s : Cpu) (r q : Gpr) (c d : Cop0) (v w : BitVec 64) (x : Word) (m : Mem)

theorem set_gpr : (s.set r v).gpr q = if q = r then v else s.gpr q :=
  Function.update_apply s.gpr r v q

@[simp] theorem set_upper : (s.set r v).upper = s.upper := rfl

@[simp] theorem set_cop0 : (s.set r v).cop0 = s.cop0 := rfl

@[simp] theorem set_mem : (s.set r v).mem = s.mem := rfl

@[simp] theorem setCop0_gpr : (s.setCop0 c x).gpr = s.gpr := rfl

@[simp] theorem setCop0_upper : (s.setCop0 c x).upper = s.upper := rfl

theorem setCop0_cop0 : (s.setCop0 c x).cop0 d = if d = c then x else s.cop0 d :=
  Function.update_apply s.cop0 c x d

@[simp] theorem setCop0_mem : (s.setCop0 c x).mem = s.mem := rfl

@[simp] theorem withMem_gpr : (s.withMem m).gpr = s.gpr := rfl

@[simp] theorem withMem_upper : (s.withMem m).upper = s.upper := rfl

@[simp] theorem withMem_cop0 : (s.withMem m).cop0 = s.cop0 := rfl

@[simp] theorem withMem_mem : (s.withMem m).mem = m := rfl

@[simp] theorem set_set : (s.set r v).set r w = s.set r w := by
  simp [set]

end Cpu

/-! ## Running a stretch of text -/

/-- What straight-line instructions do, one after the other. -/
def applyAll : List Op → Cpu → Cpu
  | [], s => s
  | i :: is, s => applyAll is (i.apply s)

def AlignedAll : List Op → Cpu → Prop
  | [], _ => True
  | i :: is, s => i.Aligned s ∧ AlignedAll is (i.apply s)

/-- What is seen of them. -/
def reads : List Op → Cpu → List Event
  | [], _ => []
  | i :: is, s => i.events s ++ reads is (i.apply s)

section Run

variable {callee : Word → Cpu → Cpu} {pc : Word} {rest : List Line} {s : Cpu} {is js : List Op}

@[simp] theorem Run.after_after (es fs : List Event) (r : Run) :
    (r.after fs).after es = r.after (es ++ fs) := by
  simp [Run.after]

@[simp] theorem Run.after_nil (r : Run) : r.after [] = r := rfl

@[simp] theorem Run.after_exit (es : List Event) (r : Run) : (r.after es).exit = r.exit := rfl

@[simp] theorem Run.after_cpu (es : List Event) (r : Run) : (r.after es).cpu = r.cpu := rfl

@[simp] theorem Run.after_events (es : List Event) (r : Run) :
    (r.after es).events = es ++ r.events := rfl

theorem applyAll_append : applyAll (is ++ js) s = applyAll js (applyAll is s) := by
  induction is generalizing s with
  | nil => rfl
  | cons i is ih => exact ih

theorem alignedAll_append :
    AlignedAll (is ++ js) s ↔ AlignedAll is s ∧ AlignedAll js (applyAll is s) := by
  induction is generalizing s with
  | nil => exact (and_iff_right trivial).symm
  | cons i is ih => exact (and_congr_right fun _ => ih).trans and_assoc.symm

theorem reads_append : reads (is ++ js) s = reads is s ++ reads js (applyAll is s) := by
  induction is generalizing s with
  | nil => rfl
  | cons i is ih => exact (congrArg (i.events s ++ ·) ih).trans (List.append_assoc _ _ _).symm

theorem advance (pc : Word) (n : Nat) :
    pc + 4 + 4 * BitVec.ofNat 32 n = pc + 4 * BitVec.ofNat 32 (n + 1) := by
  rw [← ofNat_succ, BitVec.mul_add, BitVec.add_assoc, BitVec.add_comm 4]
  rfl

theorem run_ops (h : AlignedAll is s) :
    run callee none pc (is.map .op ++ rest) s =
      (run callee none (pc + 4 * BitVec.ofNat 32 is.length) rest (applyAll is s)).after
        (reads is s) := by
  induction is generalizing s pc with
  | nil => simp [reads, applyAll]
  | cons i is ih =>
    rw [List.map_cons, List.cons_append, run, if_pos h.1, ih h.2, advance, Run.after_after]
    rfl

/-- An address error ends the run at the instruction that makes it. -/
theorem run_fault {i : Op} (h : AlignedAll is s) (hi : ¬ i.Aligned (applyAll is s)) :
    run callee none pc (is.map .op ++ .op i :: rest) s =
      { events := reads is s, exit := .addressError, cpu := applyAll is s } := by
  rw [run_ops h, run, if_neg hi]
  simp [Run.after]

/-- A jump at the end of a stretch. -/
theorem run_jr {r : Gpr} {slot : Op} (h : AlignedAll is s) (hslot : slot.Aligned (applyAll is s)) :
    run callee none pc (is.map .op ++ .jr r :: .op slot :: rest) s =
      { events := reads is s ++ slot.events (applyAll is s)
        exit := .jump (word ((applyAll is s).gpr r))
        cpu := slot.apply (applyAll is s) } := by
  rw [run_ops h, run, if_pos hslot]
  rfl

theorem run_eret (h : AlignedAll is s) :
    run callee none pc (is.map .op ++ .eret :: rest) s =
      { events := reads is s, exit := .eret, cpu := applyAll is s } := by
  rw [run_ops h, run]
  simp [Run.after]

def Line.size : Line → Nat
  | .label _ => 0
  | _ => 1

/-- A branch goes on at its label, past whatever does not bear it. -/
theorem run_skip {n : Nat} {ls : List Line} (h : .label n ∉ ls) :
    run callee (some n) pc (ls ++ .label n :: rest) s =
      run callee none (pc + 4 * BitVec.ofNat 32 (ls.map Line.size).sum) rest s := by
  induction ls generalizing pc with
  | nil => simp [run]
  | cons l ls ih =>
    obtain ⟨hl, hls⟩ := not_or.mp (mt List.mem_cons.mpr h)
    cases l with
    | label k =>
      have hk : k ≠ n := fun hk => hl (hk ▸ rfl)
      rw [List.cons_append, run, if_neg hk, ih hls, List.map_cons, List.sum_cons, Line.size,
        Nat.zero_add]
    | _ =>
      simp only [List.cons_append, run, ih hls, List.map_cons, List.sum_cons, Line.size, advance,
        Nat.add_comm 1]

theorem reads_noCall (is : List Op) (s : Cpu) : ∀ e ∈ reads is s, ∃ a, e = .lw a := by
  induction is generalizing s with
  | nil =>
    intro e he
    cases he
  | cons i is ih =>
    intro e he
    rcases List.mem_append.mp he with he | he
    · cases i with
      | lw rt off base => exact ⟨_, List.mem_singleton.mp he⟩
      | _ => cases he
    · exact ih (i.apply s) e he

/-- Straight-line text up to `eret` makes no call, whether it comes to its end or not. -/
theorem run_ops_noCall (is : List Op) (s : Cpu) :
    ∀ e ∈ (run callee none pc (is.map .op ++ .eret :: rest) s).events, ∃ a, e = .lw a := by
  induction is generalizing s pc with
  | nil =>
    intro e he
    cases he
  | cons i is ih =>
    intro e he
    rw [List.map_cons, List.cons_append, run] at he
    split at he
    · rcases List.mem_append.mp he with he | he
      · exact reads_noCall [i] s e (List.mem_append_left _ he)
      · exact ih (i.apply s) e he
    · cases he

end Run

/-! ## What an instruction leaves alone -/

/-- The register an instruction writes. -/
def Op.dest : Op → Option Gpr
  | .lui rt _ | .li rt _ | .move rt _ | .negu rt _ | .addiu rt _ _ | .addu rt _ _ | .subu rt _ _
  | .and rt _ _ | .andi rt _ _ | .ori rt _ _ | .sll rt _ _ | .srl rt _ _ | .plzcw rt _
  | .mfc0 rt _ | .lw rt _ _ | .ld rt _ _ => some rt
  | .nop | .syncP | .mtc0 _ _ | .sw _ _ _ | .sd _ _ _ | .sq _ _ _ => none

def Op.destCop0 : Op → Option Cop0
  | .mtc0 _ c => some c
  | _ => none

def Op.stores : Op → Bool
  | .sw _ _ _ | .sd _ _ _ | .sq _ _ _ => true
  | _ => false

section Frame

variable {s : Cpu} {i : Op} {is : List Op} {g : Gpr} {c : Cop0}

theorem apply_gpr (h : i.dest ≠ some g) : (i.apply s).gpr g = s.gpr g := by
  cases i with
  | nop | syncP | mtc0 _ _ | sw _ _ _ | sd _ _ _ | sq _ _ _ => rfl
  | _ => exact (Cpu.set_gpr ..).trans (if_neg fun hg => h (congrArg some hg.symm))

theorem apply_upper : (i.apply s).upper = s.upper := by
  cases i <;> rfl

theorem apply_cop0 (h : i.destCop0 ≠ some c) : (i.apply s).cop0 c = s.cop0 c := by
  cases i with
  | mtc0 rt d => exact (Cpu.setCop0_cop0 ..).trans (if_neg fun hc => h (congrArg some hc.symm))
  | _ => rfl

theorem apply_mem (h : i.stores = false) : (i.apply s).mem = s.mem := by
  cases i with
  | sw _ _ _ | sd _ _ _ | sq _ _ _ => cases h
  | _ => rfl

/-- What every instruction of a stretch leaves as it is, the stretch does. -/
theorem applyAll_same {α : Type} (f : Cpu → α) (h : ∀ i ∈ is, ∀ s, f (i.apply s) = f s) :
    f (applyAll is s) = f s := by
  induction is generalizing s with
  | nil => rfl
  | cons i is ih =>
    exact (ih fun j hj => h j (List.mem_cons_of_mem _ hj)).trans (h i List.mem_cons_self s)

theorem applyAll_gpr (h : g ∉ is.filterMap Op.dest) : (applyAll is s).gpr g = s.gpr g :=
  applyAll_same (fun s => s.gpr g) fun i hi _ =>
    apply_gpr fun hg => h (List.mem_filterMap.mpr ⟨i, hi, hg⟩)

theorem applyAll_upper : (applyAll is s).upper = s.upper :=
  applyAll_same Cpu.upper fun _ _ _ => apply_upper

theorem applyAll_cop0 (h : c ∉ is.filterMap Op.destCop0) : (applyAll is s).cop0 c = s.cop0 c :=
  applyAll_same (fun s => s.cop0 c) fun i hi _ =>
    apply_cop0 fun hc => h (List.mem_filterMap.mpr ⟨i, hi, hc⟩)

theorem applyAll_mem (h : ∀ i ∈ is, i.stores = false) : (applyAll is s).mem = s.mem :=
  applyAll_same Cpu.mem fun i hi _ => apply_mem (h i hi)

end Frame

/-! ## Stores -/

/-- `n` words of memory from `a` on. -/
def words (a : Word) (n : Nat) : List Word := (List.range n).map fun k => a + 4 * BitVec.ofNat 32 k

/-- Nothing has changed but the words of `l`. -/
def OnlyAt (l : List Word) (m m' : Mem) : Prop := ∀ b, b ∉ l → m'.read b = m.read b

namespace OnlyAt

variable {l k : List Word} {m m' m'' : Mem} {a v : Word}

theorem trans (h : OnlyAt l m m') (h' : OnlyAt k m' m'') : OnlyAt (l ++ k) m m'' := by
  intro b hb
  rw [List.mem_append, not_or] at hb
  rw [h' b hb.2, h b hb.1]

theorem write (m : Mem) (a v : Word) : OnlyAt [a] m (m.write a v) :=
  fun _ hb => Mem.read_write_of_ne m v (List.ne_of_not_mem_cons hb)

theorem storeDouble (m : Mem) (a : Word) (v : BitVec 64) :
    OnlyAt [a, a + 4] m (storeDouble m a v) :=
  (write m a _).trans (write _ (a + 4) _)

theorem storeQuad (m : Mem) (a : Word) (v u : BitVec 64) :
    OnlyAt (words a 4) m (storeQuad m a v u) := by
  have h := (storeDouble m a v).trans (storeDouble (R5900.storeDouble m a v) (a + 8) u)
  have hwords : words a 4 = [a, a + 4] ++ [a + 8, a + 8 + 4] := by
    simp [words, List.range_succ, BitVec.add_assoc]
  rw [hwords]
  exact h

end OnlyAt

end EeKernel.R5900
