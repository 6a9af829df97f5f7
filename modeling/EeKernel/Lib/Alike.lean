import EeKernel.Lib.Lts
import EeKernel.Lib.R5900

/-!
# A program that is interrupted

`Alike` states are the same to a program that has no use for the hidden registers
and sees part of the memory only: an instruction takes them to alike states.  So
where every interruption leaves the program at the same instruction, in an alike
state, it executes what it would have executed undisturbed.
-/

namespace EeKernel.R5900

open EeKernel.Lib

/-- The registers an instruction names. -/
def Op.names : Op → List Gpr
  | .nop | .syncP => []
  | .lui rt _ | .li rt _ | .mfc0 rt _ | .mtc0 rt _ => [rt]
  | .move r q | .negu r q | .addiu r q _ | .andi r q _ | .ori r q _ | .sll r q _ | .srl r q _
  | .plzcw r q | .lw r _ q | .ld r _ q | .sw r _ q | .sd r _ q | .sq r _ q => [r, q]
  | .addu rd rs rt | .subu rd rs rt | .and rd rs rt => [rd, rs, rt]

/-- The words of memory it accesses. -/
def Op.touches (s : Cpu) : Op → List Word
  | .lw _ off base | .sw _ off base => words (s.addr off base) 1
  | .ld _ off base | .sd _ off base => words (s.addr off base) 2
  | .sq _ off base => words (s.addr off base &&& ~~~0xF) 4
  | _ => []

/-- Only the kernel accesses the coprocessor. -/
def Op.coprocessor : Op → Bool
  | .mfc0 _ _ | .mtc0 _ _ => true
  | _ => false

theorem words_one (a : Word) : words a 1 = [a] := by
  simp [words]

theorem words_two (a : Word) : words a 2 = [a, a + 4] := by
  simp [words, List.range_succ]

theorem words_four (a : Word) : words a 4 = [a, a + 4, a + 8, a + 8 + 4] := by
  simp [words, List.range_succ, BitVec.add_assoc]

/-- Where the words of a stretch of memory lie. -/
theorem words_range {a b : Word} {n : Nat} (hb : b ∈ words a n) (hfit : a.toNat + 4 * n ≤ 2 ^ 32) :
    a.toNat ≤ b.toNat ∧ b.toNat + 4 ≤ a.toNat + 4 * n := by
  obtain ⟨k, hk, rfl⟩ := List.mem_map.mp hb
  have hkn : k < n := List.mem_range.mp hk
  have hfour : (4 : Word).toNat = 4 := rfl
  rw [BitVec.toNat_add, BitVec.toNat_mul, BitVec.toNat_ofNat, hfour]
  omega

theorem words_disjoint {a b : Word} {n k : Nat} (hab : a.toNat + 4 * n ≤ b.toNat)
    (hfit : b.toNat + 4 * k ≤ 2 ^ 32) {c : Word} (ha : c ∈ words a n) (hb : c ∈ words b k) :
    False := by
  have hc := words_range ha (by omega)
  have hc' := words_range hb hfit
  omega

/-- The entry `k` of a table of `n` words. -/
theorem entry_mem_words (table : Word) {k : Word} {n : Nat} (h : k.toNat < n) :
    table + k <<< 2 ∈ words table n := by
  refine List.mem_map.mpr ⟨k.toNat, List.mem_range.mpr h, ?_⟩
  have hfour : (4 : Word).toNat = 4 := rfl
  have hk : (4 : Word) * BitVec.ofNat 32 k.toNat = k <<< 2 := by
    apply BitVec.eq_of_toNat_eq
    rw [BitVec.toNat_mul, BitVec.toNat_shiftLeft, BitVec.toNat_ofNat, Nat.shiftLeft_eq, hfour]
    omega
  rw [hk]

/-- The same but for the hidden registers and the memory that is not seen. -/
structure Alike (hidden : Gpr → Prop) (seen : Word → Prop) (s t : Cpu) : Prop where
  gpr : ∀ g, ¬ hidden g → t.gpr g = s.gpr g
  upper : ∀ g, ¬ hidden g → t.upper g = s.upper g
  mem : ∀ a, seen a → t.mem.read a = s.mem.read a

section Alike

variable {hidden : Gpr → Prop} {seen : Word → Prop} {s t u : Cpu} {i : Op}

namespace Alike

theorem refl (s : Cpu) : Alike hidden seen s s :=
  ⟨fun _ _ => rfl, fun _ _ => rfl, fun _ _ => rfl⟩

theorem trans (h : Alike hidden seen s t) (h' : Alike hidden seen t u) :
    Alike hidden seen s u where
  gpr g hg := (h'.gpr g hg).trans (h.gpr g hg)
  upper g hg := (h'.upper g hg).trans (h.upper g hg)
  mem a ha := (h'.mem a ha).trans (h.mem a ha)

theorem symm (h : Alike hidden seen s t) : Alike hidden seen t s where
  gpr g hg := (h.gpr g hg).symm
  upper g hg := (h.upper g hg).symm
  mem a ha := (h.mem a ha).symm

theorem set (h : Alike hidden seen s t) {r : Gpr} {v w : BitVec 64} (hv : w = v) :
    Alike hidden seen (s.set r v) (t.set r w) where
  gpr g hg := by rw [Cpu.set_gpr, Cpu.set_gpr, hv, h.gpr g hg]
  upper := h.upper
  mem := h.mem

theorem addr (h : Alike hidden seen s t) {base : Gpr} (hbase : ¬ hidden base) (off : BitVec 16) :
    t.addr off base = s.addr off base := by
  unfold Cpu.addr
  rw [h.gpr base hbase]

theorem write (h : Alike hidden seen s t) (a v : Word) :
    Alike hidden seen (s.withMem (s.mem.write a v)) (t.withMem (t.mem.write a v)) where
  gpr := h.gpr
  upper := h.upper
  mem b hb := by
    by_cases hba : b = a
    · subst hba
      exact (Mem.read_write_same _ _ _).trans (Mem.read_write_same _ _ _).symm
    · have hs := Mem.read_write_of_ne s.mem v hba
      have ht := Mem.read_write_of_ne t.mem v hba
      exact ht.trans ((h.mem b hb).trans hs.symm)

theorem storeDouble (h : Alike hidden seen s t) (a : Word) (v : BitVec 64) :
    Alike hidden seen (s.withMem (R5900.storeDouble s.mem a v))
      (t.withMem (R5900.storeDouble t.mem a v)) :=
  (h.write a (word v)).write (a + 4) (word (v >>> 32))

theorem storeQuad (h : Alike hidden seen s t) (a : Word) (v u : BitVec 64) :
    Alike hidden seen (s.withMem (R5900.storeQuad s.mem a v u))
      (t.withMem (R5900.storeQuad t.mem a v u)) :=
  (h.storeDouble a v).storeDouble (a + 8) u

/-- An instruction that names no hidden register and accesses what is seen. -/
theorem apply (h : Alike hidden seen s t) (hnames : ∀ g ∈ i.names, ¬ hidden g)
    (htouches : ∀ a ∈ i.touches s, seen a) (huser : i.coprocessor = false) :
    Alike hidden seen (i.apply s) (i.apply t) := by
  have hgpr : ∀ g ∈ i.names, t.gpr g = s.gpr g := fun g hg => h.gpr g (hnames g hg)
  have hread : ∀ a ∈ i.touches s, t.mem.read a = s.mem.read a := fun a ha => h.mem a (htouches a ha)
  cases i with
  | nop | syncP => exact h
  | lui rt imm | li rt imm => exact h.set rfl
  | move rd rs | negu rd rs | addiu rd rs imm | andi rd rs imm | ori rd rs imm | sll rd rs sa
  | srl rd rs sa | plzcw rd rs =>
    have hrs : t.gpr rs = s.gpr rs := hgpr rs (by simp [Op.names])
    exact h.set (by rw [hrs])
  | addu rd rs rt | subu rd rs rt | and rd rs rt =>
    have hrs : t.gpr rs = s.gpr rs := hgpr rs (by simp [Op.names])
    have hrt : t.gpr rt = s.gpr rt := hgpr rt (by simp [Op.names])
    exact h.set (by rw [hrs, hrt])
  | mfc0 rt c | mtc0 rt c => cases huser
  | lw rt off base =>
    have haddr := h.addr (hnames base (by simp [Op.names])) off
    have hword := hread (s.addr off base) (by simp [Op.touches, words_one])
    exact h.set (by rw [haddr, hword])
  | ld rt off base =>
    have haddr := h.addr (hnames base (by simp [Op.names])) off
    have hlow := hread (s.addr off base) (by simp [Op.touches, words_two])
    have hhigh := hread (s.addr off base + 4) (by simp [Op.touches, words_two])
    exact h.set (by rw [haddr, hlow, hhigh])
  | sw rt off base =>
    have haddr := h.addr (hnames base (by simp [Op.names])) off
    have hrt : t.gpr rt = s.gpr rt := hgpr rt (by simp [Op.names])
    have hstore := h.write (s.addr off base) (word (s.gpr rt))
    rw [Op.apply, Op.apply, haddr, hrt]
    exact hstore
  | sd rt off base =>
    have haddr := h.addr (hnames base (by simp [Op.names])) off
    have hrt : t.gpr rt = s.gpr rt := hgpr rt (by simp [Op.names])
    have hstore := h.storeDouble (s.addr off base) (s.gpr rt)
    rw [Op.apply, Op.apply, haddr, hrt]
    exact hstore
  | sq rt off base =>
    have haddr := h.addr (hnames base (by simp [Op.names])) off
    have hrt : t.gpr rt = s.gpr rt := hgpr rt (by simp [Op.names])
    have hupper : t.upper rt = s.upper rt := h.upper rt (hnames rt (by simp [Op.names]))
    have hstore := h.storeQuad (s.addr off base &&& ~~~0xF) (s.gpr rt) (s.upper rt)
    rw [Op.apply, Op.apply, haddr, hrt, hupper]
    exact hstore

theorem touches (h : Alike hidden seen s t) (hnames : ∀ g ∈ i.names, ¬ hidden g) :
    i.touches t = i.touches s := by
  cases i with
  | lw rt off base | sw rt off base | ld rt off base | sd rt off base | sq rt off base =>
    rw [Op.touches, Op.touches, h.addr (hnames base (by simp [Op.names])) off]
  | _ => rfl

theorem aligned (h : Alike hidden seen s t) (hnames : ∀ g ∈ i.names, ¬ hidden g) :
    i.Aligned t ↔ i.Aligned s := by
  cases i with
  | lw rt off base | sw rt off base | ld rt off base | sd rt off base =>
    rw [Op.Aligned, Op.Aligned, h.addr (hnames base (by simp [Op.names])) off]
  | _ => exact Iff.rfl

end Alike

end Alike

/-- An instruction changes the words it accesses at most. -/
theorem apply_onlyAt (i : Op) (s : Cpu) : OnlyAt (i.touches s) s.mem (i.apply s).mem := by
  cases i with
  | sw rt off base =>
    rw [Op.touches, words_one]
    exact .write s.mem _ _
  | sd rt off base =>
    rw [Op.touches, words_two]
    exact .storeDouble s.mem _ _
  | sq rt off base => exact .storeQuad s.mem _ _ _
  | _ => exact fun _ _ => rfl

/-! ## Doublewords and quadwords in memory -/

def loadDouble (m : Mem) (a : Word) : BitVec 64 := m.read (a + 4) ++ m.read a

/-- The quadword at `a` is that of a register. -/
structure HoldsQuad (m : Mem) (a : Word) (lower upper : BitVec 64) : Prop where
  lower : loadDouble m a = lower
  upper : loadDouble m (a + 8) = upper

theorem word_shift_append (v : BitVec 64) : word (v >>> 32) ++ word v = v := by
  apply BitVec.eq_of_getLsbD_eq
  intro i hi
  rw [BitVec.getLsbD_append, word, word, BitVec.getLsbD_setWidth, BitVec.getLsbD_setWidth]
  by_cases h : i < 32
  · simp [h]
  · have hi' : i - 32 < 32 := by omega
    have hsum : 32 + (i - 32) = i := by omega
    simp [h, hi', hsum]

theorem loadDouble_storeDouble (m : Mem) (a : Word) (v : BitVec 64) :
    loadDouble (storeDouble m a v) a = v := by
  have hne : a ≠ a + 4 := by simp
  rw [loadDouble, storeDouble, Mem.read_write_same, Mem.read_write_of_ne _ _ hne,
    Mem.read_write_same, word_shift_append]

theorem loadDouble_onlyAt {l : List Word} {m m' : Mem} {a : Word} (h : OnlyAt l m m')
    (ha : a ∉ l) (ha' : a + 4 ∉ l) : loadDouble m' a = loadDouble m a := by
  rw [loadDouble, loadDouble, h a ha, h (a + 4) ha']

theorem holdsQuad_storeQuad (m : Mem) (a : Word) (v u : BitVec 64) :
    HoldsQuad (storeQuad m a v u) a v u where
  lower := by
    have hkeep := OnlyAt.storeDouble (storeDouble m a v) (a + 8) u
    rw [storeQuad, loadDouble_onlyAt hkeep (by simp [BitVec.add_assoc])
      (by simp [BitVec.add_assoc]), loadDouble_storeDouble]
  upper := loadDouble_storeDouble _ _ _

theorem HoldsQuad.keep {l : List Word} {m m' : Mem} {a : Word} {v u : BitVec 64}
    (h : HoldsQuad m a v u) (hkeep : OnlyAt l m m') (ha : ∀ b ∈ words a 4, b ∉ l) :
    HoldsQuad m' a v u := by
  rw [words_four] at ha
  constructor
  · rw [loadDouble_onlyAt hkeep (ha a (by simp)) (ha (a + 4) (by simp)), h.lower]
  · rw [loadDouble_onlyAt hkeep (ha (a + 8) (by simp)) (ha (a + 8 + 4) (by simp)), h.upper]

/-- A run that gets to the jump at the end of a stretch has done all before it. -/
theorem run_jr_cpu {callee : Word → Cpu → Cpu} {pc target : Word} {is : List Op} {r : Gpr}
    {slot : Op} {rest : List Line} {s : Cpu}
    (h : (run callee none pc (is.map .op ++ .jr r :: .op slot :: rest) s).exit = .jump target) :
    (run callee none pc (is.map .op ++ .jr r :: .op slot :: rest) s).cpu =
      slot.apply (applyAll is s) := by
  induction is generalizing s pc with
  | nil =>
    rw [List.map_nil, List.nil_append, run] at h ⊢
    split at h
    · next hslot =>
      rw [if_pos hslot]
      rfl
    · cases h
  | cons i is ih =>
    rw [List.map_cons, List.cons_append, run] at h ⊢
    split at h
    · next hi =>
      rw [if_pos hi]
      exact ih h
    · cases h

/-! ## Programs -/

/-- What is executed at an address, with these registers, and where the program goes on: it
goes by the registers that are not hidden, names no other, and leaves the coprocessor alone. -/
structure Code (hidden : Gpr → Prop) where
  next : Word → (Gpr → BitVec 64) → Op × Word
  blind : ∀ pc r q, (∀ g, ¬ hidden g → q g = r g) → next pc q = next pc r
  names : ∀ pc r, ∀ g ∈ (next pc r).1.names, ¬ hidden g
  user : ∀ pc r, (next pc r).1.coprocessor = false

/-- A program counter and the rest. -/
structure Core where
  pc : Word
  cpu : Cpu

variable {hidden : Gpr → Prop} {seen : Word → Prop}

/-- One instruction, with its accesses aligned and to memory that is seen. -/
inductive Executes (code : Code hidden) (seen : Word → Prop) : Core → Op → Core → Prop
  | op {pc pc' : Word} {s : Cpu} {i : Op} (hnext : code.next pc s.gpr = (i, pc'))
      (haligned : i.Aligned s) (hseen : ∀ a ∈ i.touches s, seen a) :
      Executes code seen { pc, cpu := s } i { pc := pc', cpu := i.apply s }

/-- The program, from anywhere. -/
def undisturbed (code : Code hidden) (seen : Word → Prop) : Lts Core Op where
  init _ := True
  step := Executes code seen

/-- The program, with interruptions between its instructions. -/
inductive Disturbed (code : Code hidden) (seen : Word → Prop) (trap : Core → Core → Prop) :
    Core → Option Op → Core → Prop
  | op {p q : Core} {i : Op} (h : Executes code seen p i q) : Disturbed code seen trap p (some i) q
  | trap {p q : Core} (h : trap p q) : Disturbed code seen trap p none q

def disturbed (code : Code hidden) (seen : Word → Prop) (trap : Core → Core → Prop) :
    Lts Core (Option Op) where
  init _ := True
  step := Disturbed code seen trap

/-- At the same instruction, in alike states. -/
structure Core.Alike (hidden : Gpr → Prop) (seen : Word → Prop) (p q : Core) : Prop where
  pc : q.pc = p.pc
  cpu : R5900.Alike hidden seen p.cpu q.cpu

theorem Core.Alike.symm {p q : Core} (h : p.Alike hidden seen q) : q.Alike hidden seen p :=
  ⟨h.pc.symm, h.cpu.symm⟩

theorem Executes.alike {code : Code hidden} {p q q' : Core} {i : Op} (h : p.Alike hidden seen q)
    (next : Executes code seen q i q') :
    ∃ p', Executes code seen p i p' ∧ p'.Alike hidden seen q' := by
  obtain ⟨_, s⟩ := p
  cases next with
  | @op pc pc' t i hnext haligned hseen =>
    obtain ⟨rfl, hst⟩ := h
    have hsame : code.next pc s.gpr = (i, pc') := (code.blind _ _ _ hst.gpr).symm.trans hnext
    have hnames : ∀ g ∈ i.names, ¬ hidden g := by
      have h := code.names pc s.gpr
      rwa [hsame] at h
    have huser : i.coprocessor = false := by
      have h := code.user pc s.gpr
      rwa [hsame] at h
    have htouches : ∀ a ∈ i.touches s, seen a := by
      rw [← hst.touches hnames]
      exact hseen
    exact ⟨_, .op hsame ((hst.aligned hnames).mp haligned) htouches, rfl,
      hst.apply hnames htouches huser⟩

/-- **Interruptions go unnoticed.**  `Inv` is what they need to find and leave. -/
theorem disturbed_weakSimulation {code : Code hidden} {trap : Core → Core → Prop}
    {Inv : Core → Prop} (hop : ∀ {p i q}, Inv p → Executes code seen p i q → Inv q)
    (htrap : ∀ {p q}, Inv p → trap p q → p.Alike hidden seen q ∧ Inv q) :
    Lts.WeakSimulation (disturbed code seen trap) (undisturbed code seen)
      fun q p => p.Alike hidden seen q ∧ Inv q where
  shown := by
    rintro q i q' p ⟨hpq, hinv⟩ next
    cases next with
    | op h =>
      obtain ⟨p', hp', hpq'⟩ := h.alike hpq
      exact ⟨p', hp', hpq', hop hinv h⟩
  silent := by
    rintro q q' p ⟨hpq, hinv⟩ next
    cases next with
    | trap h =>
      obtain ⟨hqq', hinv'⟩ := htrap hinv h
      exact ⟨⟨hqq'.pc.trans hpq.pc, hpq.cpu.trans hqq'.cpu⟩, hinv'⟩

end EeKernel.R5900
