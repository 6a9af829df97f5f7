import EeKernel.Intr.Init

/-!
# `intr.c`: the INTC and DMAC dispatchers

`func_80001670` and `func_800017D8` walk the queue of a cause with a counter:
`hnd` follows `l.next`, the bound `entries` is read again in every round, and
each descriptor is called, at user level through `func_800029C0` or directly,
or skipped by its `state`.

What a handler does when it is called is a parameter, `Callees`: it may change
the whole machine.  A callee is also told through which pointer it was found,
so that two registrations of one function may behave differently.  A VSYNC
registration holds two pointers of its caller's, and nothing checks where they
point; that they point outside the tables is a hypothesis, `VsyncOutside`.
-/

namespace EeKernel.Intr

open EeKernel.Lib

/-- The machine while an interrupt is served; `env` is whatever else a callee
keeps. -/
structure Machine (ε : Type) where
  mem : Mem
  gsCsr : BitVec 64
  gp : Word
  epc : Word
  env : ε

def machineOf {ε : Type} (m : Mem) (env : ε) : Machine ε where
  mem := m
  gsCsr := 0
  gp := 0
  epc := 0
  env := env

structure UserCall where
  base : Word
  handler : Word
  inum : Word
  arg : Word
  epc : Word
  deriving DecidableEq

/-- The code a dispatcher calls. -/
structure Callees (ε : Type) where
  /-- run a handler at user level; `$gp` is the machine's -/
  func_800029C0 : Word → UserCall → Machine ε → Machine ε × Word
  /-- `hnd->handler(inum)` -/
  direct : Word → Word → Word → Machine ε → Machine ε
  kprintf : String → Word → Machine ε → Machine ε
  func_80000DC0 : Word → Machine ε → Machine ε

inductive Invocation
  | user (call : UserCall) (gp res : Word)
  | direct (handler inum : Word)
  deriving DecidableEq

/-- The fields of a `struct IntHandler` the walk reads. -/
structure Descriptor where
  handler : Word
  gp : Word
  arg : Word
  state : Word
  deriving DecidableEq

/-- The fields behind a pointer, whatever it points to. -/
def readDescriptor (m : Mem) (hnd : Word) : Descriptor where
  handler := m.read (fHandler hnd)
  gp := m.read (fGp hnd)
  arg := m.read (fArg hnd)
  state := m.read (fState hnd)

/-- State 0 or 2. -/
def enabled (m : Mem) (i : Hid) : Bool :=
  let state := (readDescriptor m (Node.hnd i).word).state
  state = 2 || state = 0

theorem readDescriptor_frame {cs : Set Cell} {m m' : Mem} (hm : ChangesOnly cs m m') {i : Hid}
    (hi : Cell.handler i ∉ cs ∧ Cell.gp i ∉ cs ∧ Cell.arg i ∉ cs ∧ Cell.state i ∉ cs) :
    readDescriptor m' (Node.hnd i).word = readDescriptor m (Node.hnd i).word := by
  obtain ⟨hh, hg, ha, hs⟩ := hi
  simp only [readDescriptor, fHandler_word, fGp_word, fArg_word, fState_word, hm.cell hh,
    hm.cell hg, hm.cell ha, hm.cell hs]

theorem Added.descriptor {m m' : Mem} {r : Lists} {q : Queue} {i : Hid}
    {gp handler next arg unk : Word} (A : Added m m' r q i gp handler next arg unk) :
    readDescriptor m' (Node.hnd i).word =
      { handler := handler, gp := gp, arg := arg, state := unk } := by
  simp only [readDescriptor, fHandler_word, fGp_word, fArg_word, fState_word, A.handler, A.gp,
    A.arg, A.state]

/-- One round of the walk: the machine when it started, the pointer it read the
descriptor through, and what it invoked. -/
structure Visit (ε : Type) where
  before : Machine ε
  hnd : Word
  invoked : Option Invocation

/-- What serving an interrupt came to. -/
structure Served (ε : Type) where
  machine : Machine ε
  visits : List (Visit ε)
  early : Bool
  count : Word
  missing : Bool

namespace Served

variable {ε : Type}

def invocations (w : Served ε) : List Invocation := w.visits.filterMap Visit.invoked

def push (v : Visit ε) (w : Served ε) : Served ε := { w with visits := v :: w.visits }

end Served

variable {ε : Type}

def D_800174E4 : Word := 0x800174E4

/-- The call a descriptor in state 2 gets. -/
def userCall (inum : Word) (d : Descriptor) (s : Machine ε) : UserCall where
  base := s.mem.read D_800174E4
  handler := d.handler
  inum := inum
  arg := d.arg
  epc := s.epc

/-- `func_800029C0` with `$gp` saved, set to `hnd->gp` and put back. -/
def callUser (C : Callees ε) (inum hnd : Word) (d : Descriptor) (s : Machine ε) :
    Machine ε × Word :=
  let gp := s.gp
  let s := { s with gp := d.gp }
  let (s, res) := C.func_800029C0 hnd (userCall inum d s) s
  ({ s with gp := gp }, res)

/-- The body of the loop, up to the step to `l.next`.  The third component says
whether it returned. -/
def visit (C : Callees ε) (inum hnd : Word) (s : Machine ε) :
    Machine ε × Option Invocation × Bool :=
  let d := readDescriptor s.mem hnd
  if d.state = 2 then
    let (s', res) := callUser C inum hnd d s
    (s', some (.user (userCall inum d s) d.gp res), decide (res.toInt < 0))
  else if d.state = 0 then
    (C.direct hnd d.handler inum s, some (.direct d.handler inum), false)
  else (s, none, false)

/-- `for (i = 0; i < queue.entries; i++)`, from round `i` on. -/
def walk (C : Callees ε) (queue inum : Word) : Nat → Word → Word → Machine ε → Option (Served ε)
  | 0, _, _, _ => none
  | fuel + 1, i, hnd, s =>
    if i.toInt < (s.mem.read (fEntries queue)).toInt then
      let (s', invoked, stop) := visit C inum hnd s
      let v := { before := s, hnd := hnd, invoked := invoked }
      if stop then
        some { machine := s', visits := [v], early := true, count := i, missing := false }
      else (walk C queue inum fuel (i + 1) (s'.mem.read (fNext hnd)) s').map (Served.push v)
    else some { machine := s, visits := [], early := false, count := i, missing := false }

/-- `if (i == 0) { kprintf(...); func_80000DC0(1); }`, unless the loop returned. -/
def finish (C : Callees ε) (message : String) (inum : Word) (w : Served ε) : Served ε :=
  if w.early = false ∧ w.count = 0 then
    { w with machine := C.func_80000DC0 1 (C.kprintf message inum w.machine), missing := true }
  else w

/-- What both dispatchers do with the queue at `queue`. -/
def dispatch (C : Callees ε) (message : String) (queue : Word) (fuel : Nat) (inum : Word)
    (s : Machine ε) : Option (Served ε) :=
  (walk C queue inum fuel 0 (s.mem.read (fNext queue)) s).map (finish C message inum)

/-- VSYNC flag ptr -/
def D_8001B404 : Word := Cell.vsyncFlag.word

/-- VSYNC CSR ptr -/
def D_8001B408 : Word := Cell.vsyncCsr.word

/-- `*D_8001B408 = *(volatile u_long*)0xb2001000`, a 64-bit store. -/
def storeCsr (m : Mem) (p : Word) (csr : BitVec 64) : Mem :=
  (m.write p (csr.setWidth 32)).write (p + 4) ((csr >>> 32).setWidth 32)

/-- The VSYNC cells `func_80001670` updates first. -/
def vsync (inum : Word) (s : Machine ε) : Machine ε :=
  if inum = idx INTC_VBLANK_S ∧ s.mem.read D_8001B404 ≠ 0 then
    let s := { s with mem := s.mem.write (s.mem.read D_8001B404) 1 }
    let s := { s with mem := s.mem.write D_8001B404 0 }
    if s.mem.read D_8001B408 ≠ 0 then
      let s := { s with mem := storeCsr s.mem (s.mem.read D_8001B408) s.gsCsr }
      { s with mem := s.mem.write D_8001B408 0 }
    else s
  else s

/-- INTC irq handler -/
def func_80001670 (C : Callees ε) (fuel : Nat) (inum : Word) (s : Machine ε) : Option (Served ε) :=
  dispatch C "# INTC(%d) Handler does not exist.\n" (intc_queue inum) fuel inum (vsync inum s)

/-- DMAC irq handler -/
def func_800017D8 (C : Callees ε) (fuel : Nat) (inum : Word) (s : Machine ε) : Option (Served ε) :=
  dispatch C "# DMAC(%d) Handler does not exist.\n" (dmac_queue inum) fuel inum s

/-! ## An interrupt, by queue -/

def Queue.inum : Queue → Word
  | .intc c => idx c
  | .dmac c => idx c

/-- What the dispatcher of a queue prints when the queue is empty. -/
def Queue.message : Queue → String
  | .intc _ => "# INTC(%d) Handler does not exist.\n"
  | .dmac _ => "# DMAC(%d) Handler does not exist.\n"

/-- The machine the loop starts from. -/
def entered : Queue → Machine ε → Machine ε
  | .intc c, s => vsync (idx c) s
  | .dmac _, s => s

/-- The interrupt of a queue, delivered through its dispatcher. -/
def interrupt (C : Callees ε) (fuel : Nat) : Queue → Machine ε → Option (Served ε)
  | .intc c, s => func_80001670 C fuel (idx c) s
  | .dmac c, s => func_800017D8 C fuel (idx c) s

theorem interrupt_eq (C : Callees ε) (fuel : Nat) (q : Queue) (s : Machine ε) :
    interrupt C fuel q s =
      dispatch C q.message (Node.head (.queue q)).word fuel q.inum (entered q s) := by
  cases q with
  | intc c => rw [interrupt, func_80001670, intc_queue_idx]; rfl
  | dmac c => rw [interrupt, func_800017D8, dmac_queue_idx]; rfl

@[simp] theorem vsync_gp (inum : Word) (s : Machine ε) : (vsync inum s).gp = s.gp := by
  unfold vsync
  split
  · dsimp only
    split <;> rfl
  · rfl

theorem vsync_of_ne {c : Fin 15} (hc : c ≠ INTC_VBLANK_S) (s : Machine ε) :
    vsync (idx c) s = s := by
  rw [vsync, if_neg]
  rw [idx_inj (by omega)]
  exact fun h => hc h.1

/-! ## Where a VSYNC registration points -/

/-- The pointers of a VSYNC registration name words outside the tables. -/
structure PointsOutside (p p' : Word) : Prop where
  flag : ∀ c : Cell, p ≠ c.word
  csr : ∀ c : Cell, p' ≠ c.word
  csrHigh : ∀ c : Cell, p' + 4 ≠ c.word

/-- As null pointers do. -/
theorem pointsOutside_null : PointsOutside 0 0 where
  flag c := c.low_ne_word (n := 0) (by omega)
  csr c := c.low_ne_word (n := 0) (by omega)
  csrHigh c := c.low_ne_word (n := 4) (by omega)

/-- What the interrupt of `q` stores for a VSYNC registration, it stores outside the tables:
there is none, or it is not a blank, or the pointers are elsewhere. -/
def VsyncOutside (q : Queue) (m : Mem) : Prop :=
  q = .intc INTC_VBLANK_S → m.read D_8001B404 ≠ 0 →
    PointsOutside (m.read D_8001B404) (m.read D_8001B408)

theorem vsyncOutside_of_ne {q : Queue} (hq : q ≠ .intc INTC_VBLANK_S) (m : Mem) :
    VsyncOutside q m :=
  fun h => absurd h hq

theorem SameRegistry.write_outside {m m' : Mem} (h : SameRegistry m m') {a : Word}
    (ha : ∀ c : Cell, a ≠ c.word) (v : Word) : SameRegistry m (m'.write a v) :=
  fun c hc => (Mem.read_write_of_ne m' v (ha c).symm).trans (h c hc)

theorem SameRegistry.write_other {m m' : Mem} (h : SameRegistry m m') {d : Cell}
    (hd : ¬ d.Registry) (v : Word) : SameRegistry m (m'.write d.word v) := by
  intro c hc
  have hne : c ≠ d := fun e => hd (e ▸ hc)
  rw [read_write_cell, if_neg hne]
  exact h c hc

theorem vsync_same {c : Fin 15} {s : Machine ε} (hv : VsyncOutside (.intc c) s.mem) :
    SameRegistry s.mem (vsync (idx c) s).mem := by
  unfold vsync
  split
  · next h =>
    obtain ⟨hc, hflag⟩ := h
    rw [idx_inj (by omega)] at hc
    subst hc
    obtain ⟨hf, hp, hp'⟩ := hv rfl hflag
    have h₁ := ((SameRegistry.refl s.mem).write_outside hf 1).write_other
      (show ¬ Cell.vsyncFlag.Registry from id) 0
    -- the flag's own store is not at `D_8001B408`
    have hne : D_8001B408 ≠ s.mem.read D_8001B404 := (hf .vsyncCsr).symm
    have hcsr : ((s.mem.write (s.mem.read D_8001B404) 1).write D_8001B404 0).read D_8001B408 =
        s.mem.read D_8001B408 := by
      rw [Mem.read_write_of_ne _ _ (by decide), Mem.read_write_of_ne _ _ hne]
    dsimp only
    rw [hcsr]
    split
    · exact ((h₁.write_outside hp _).write_outside hp' _).write_other
        (show ¬ Cell.vsyncCsr.Registry from id) 0
    · exact h₁
  · exact SameRegistry.refl _

theorem entered_same {q : Queue} {s : Machine ε} (hv : VsyncOutside q s.mem) :
    SameRegistry s.mem (entered q s).mem := by
  cases q with
  | intc c => exact vsync_same hv
  | dmac c => exact SameRegistry.refl s.mem

/-! ## What was invoked -/

def Visit.called (v : Visit ε) : Option Word := v.invoked.map fun _ => v.hnd

/-- The handlers invoked are `l`, in this order. -/
def Served.Called (w : Served ε) (l : List Hid) : Prop :=
  w.visits.filterMap Visit.called = l.map fun i => (Node.hnd i).word

namespace Served.Called

variable {w : Served ε} {s : Machine ε} {l l' : List Hid} {i : Hid} {hnd : Word} {v : Invocation}

theorem unique (h : w.Called l) (h' : w.Called l') : l = l' := by
  refine List.map_injective_iff.mpr (fun i j hij => ?_) (h.symm.trans h')
  simpa using Node.word_inj.mp hij

theorem push_none (h : w.Called l) :
    (w.push { before := s, hnd := hnd, invoked := none }).Called l := h

theorem push_some (h : w.Called l) :
    (w.push { before := s, hnd := (Node.hnd i).word, invoked := some v }).Called (i :: l) :=
  congrArg ((Node.hnd i).word :: ·) h

end Served.Called

theorem enabled_eq {m : Mem} {i : Hid} {d : Descriptor}
    (hd : readDescriptor m (Node.hnd i).word = d) : enabled m i = (d.state = 2 || d.state = 0) := by
  rw [enabled, hd]

/-! ## One round -/

variable {C : Callees ε} {queue inum hnd i : Word} {s s' : Machine ε} {fuel : Nat}
  {invoked : Option Invocation}

section Visit

variable (C inum) {d : Descriptor} (hd : readDescriptor s.mem hnd = d)

include hd

theorem visit_user (h2 : d.state = 2) :
    visit C inum hnd s = ((callUser C inum hnd d s).1,
      some (.user (userCall inum d s) d.gp (callUser C inum hnd d s).2),
      decide ((callUser C inum hnd d s).2.toInt < 0)) := by
  subst hd
  exact if_pos h2

theorem visit_direct (h2 : d.state ≠ 2) (h0 : d.state = 0) :
    visit C inum hnd s =
      (C.direct hnd d.handler inum s, some (.direct d.handler inum), false) := by
  subst hd
  exact (if_neg h2).trans (if_pos h0)

theorem visit_skip (h2 : d.state ≠ 2) (h0 : d.state ≠ 0) :
    visit C inum hnd s = (s, none, false) := by
  subst hd
  exact (if_neg h2).trans (if_neg h0)

end Visit

theorem walk_done (h : ¬ i.toInt < (s.mem.read (fEntries queue)).toInt) :
    walk C queue inum (fuel + 1) i hnd s =
      some { machine := s, visits := [], early := false, count := i, missing := false } := by
  rw [walk, if_neg h]

theorem walk_return (h : i.toInt < (s.mem.read (fEntries queue)).toInt)
    (hv : visit C inum hnd s = (s', invoked, true)) :
    walk C queue inum (fuel + 1) i hnd s =
      some { machine := s', visits := [{ before := s, hnd := hnd, invoked := invoked }],
             early := true, count := i, missing := false } := by
  rw [walk, if_pos h, hv]
  rfl

theorem walk_next (h : i.toInt < (s.mem.read (fEntries queue)).toInt)
    (hv : visit C inum hnd s = (s', invoked, false)) :
    walk C queue inum (fuel + 1) i hnd s =
      (walk C queue inum fuel (i + 1) (s'.mem.read (fNext hnd)) s').map
        (Served.push { before := s, hnd := hnd, invoked := invoked }) := by
  rw [walk, if_pos h, hv]
  rfl

/-- A walk that ended needs no more fuel. -/
theorem walk_mono {w : Served ε} {fuel' : Nat} (h : walk C queue inum fuel i hnd s = some w)
    (hle : fuel ≤ fuel') : walk C queue inum fuel' i hnd s = some w := by
  induction fuel generalizing i hnd s w fuel' with
  | zero => cases h
  | succ fuel ih =>
    obtain ⟨fuel', rfl⟩ := Nat.exists_eq_add_of_lt (Nat.lt_of_succ_le hle)
    rw [show fuel + fuel' + 1 = (fuel + fuel') + 1 from rfl]
    by_cases hc : i.toInt < (s.mem.read (fEntries queue)).toInt
    · rcases hv : visit C inum hnd s with ⟨s', invoked, _ | _⟩
      · rw [walk_next hc hv, Option.map_eq_some_iff] at h
        obtain ⟨w', hw', rfl⟩ := h
        rw [walk_next hc hv, ih hw' (Nat.le_add_right _ _)]
        rfl
      · rw [walk_return hc hv] at h ⊢
        exact h
    · rw [walk_done hc] at h ⊢
      exact h

@[simp] theorem finish_visits (C : Callees ε) (message : String) (inum : Word) (w : Served ε) :
    (finish C message inum w).visits = w.visits := by
  unfold finish
  split <;> rfl

@[simp] theorem finish_called (C : Callees ε) (message : String) (inum : Word) (w : Served ε)
    (l : List Hid) : (finish C message inum w).Called l ↔ w.Called l := by
  rw [Served.Called, finish_visits]
  rfl

theorem dispatch_mono {w : Served ε} {message : String} {fuel' : Nat}
    (h : dispatch C message queue fuel inum s = some w) (hle : fuel ≤ fuel') :
    dispatch C message queue fuel' inum s = some w := by
  unfold dispatch at h ⊢
  rw [Option.map_eq_some_iff] at h ⊢
  obtain ⟨w', hw', hw⟩ := h
  exact ⟨w', walk_mono hw' hle, hw⟩

theorem counter_lt {a b : Nat} (ha : a < 2 ^ 31) (hb : b < 2 ^ 31) :
    (BitVec.ofNat 32 a).toInt < (BitVec.ofNat 32 b).toInt ↔ a < b := by
  have h : ∀ n : Nat, n < 2 ^ 31 → (BitVec.ofNat 32 n).toInt = n := by
    intro n hn
    have hnat : (BitVec.ofNat 32 n).toNat = n := by
      rw [BitVec.toNat_ofNat, Nat.mod_eq_of_lt (by omega)]
    rw [BitVec.toInt_eq_toNat_of_lt (by omega), hnat]
  rw [h a ha, h b hb]
  omega

section Position

variable {m : Mem} {r : Lists} {q : Queue} {done rest : List Hid}

/-- With `done` walked, the bound asks for more exactly when some are left. -/
theorem Counted.more_iff (hC : Counted m r) (hk : r (.queue q) = done ++ rest) :
    (BitVec.ofNat 32 done.length).toInt <
      (m.read (fEntries (Node.head (.queue q)).word)).toInt ↔ rest ≠ [] := by
  have hlen := hC.length_le (.queue q)
  rw [hk, List.length_append] at hlen
  rw [fEntries_word, hC.entries, hk, List.length_append, counter_lt (by omega) (by omega),
    ← List.length_pos_iff_ne_nil]
  omega

/-- `hnd = hnd->l.next`, from a member of a list. -/
theorem Rings.next_word (R : Rings m r) {h : Head} {i : Hid} (hk : r h = done ++ i :: rest) :
    m.read (fNext (Node.hnd i).word) = (first (Node.head h) (rest.map .hnd)).word := by
  have hring := R.ring h
  rw [hk, List.map_append, List.map_cons] at hring
  rw [fNext_word]
  exact hring.rel_next.1

theorem Rings.first_word (R : Rings m r) (h : Head) :
    m.read (fNext (Node.head h).word) = (first (Node.head h) ((r h).map .hnd)).word := by
  rw [fNext_word]
  exact (R.ring h).rel_first.1

end Position

/-! ## The interrupt as a walk -/

theorem interrupt_mono {C : Callees ε} {q : Queue} {s : Machine ε} {w : Served ε} {fuel fuel' : Nat}
    (h : interrupt C fuel q s = some w) (hle : fuel ≤ fuel') : interrupt C fuel' q s = some w := by
  rw [interrupt_eq] at h ⊢
  exact dispatch_mono h hle

/-- The loop starts at the first member with the counter at 0. -/
theorem interrupt_walk {r : Lists} {q : Queue} {s : Machine ε} (hC : Counted s.mem r)
    (hv : VsyncOutside q s.mem) (C : Callees ε) (fuel : Nat) :
    interrupt C fuel q s =
      (walk C (Node.head (.queue q)).word q.inum fuel (BitVec.ofNat 32 0)
        (first (Node.head (.queue q)) ((r (.queue q)).map .hnd)).word (entered q s)).map
          (finish C q.message q.inum) := by
  rw [interrupt_eq, dispatch, (hC.congr (entered_same hv)).first_word]
  rfl

end EeKernel.Intr
