import Mathlib.Data.Set.Lattice
import EeKernel.Memory

/-!
# The interrupt tables in memory

`intr.c` keeps its state in consecutive global arrays.  `Node` names what can
be linked on a list: the pool head `D_8001B410`, the list heads of
`intc_queue[15]` and `dmac_queue[16]`, and the descriptors of
`int_handler[129]`.  `Cell` names every word of these tables by its C lvalue,
and `Cell.addr` is where `config/kernel/symbol_addrs.txt` puts it.  Reading a
field through a pointer to something else (a list head walked as a
`struct IntHandler`, an index past an array) is then a read at a computed
address and needs no case of its own.
-/

namespace EeKernel.Intr

/-- Index into `int_handler`; entry 0 is never handed out. -/
abbrev Hid := Fin 129

/-- Entry 0 exists in `int_handler` and in the INTC tables. -/
instance instNeZeroHid : NeZero 129 := ⟨by decide⟩

instance instNeZeroIntc : NeZero 15 := ⟨by decide⟩

/-- One of the 31 interrupt queues. -/
inductive Queue
  | intc (cause : Fin 15)
  | dmac (cause : Fin 16)
  deriving DecidableEq, Repr

/-- A list head: the pool's or a queue's. -/
inductive Head
  | pool
  | queue (q : Queue)
  deriving DecidableEq, Repr

/-- Anything with a `struct list_head` at its start. -/
inductive Node
  | head (h : Head)
  | hnd (i : Hid)
  deriving DecidableEq, Repr

/-- `&intc_queue[cause]`, `&dmac_queue[cause]`; `struct IntQueue` is 12 bytes. -/
def Queue.addr : Queue → Nat
  | .intc cause => 0x8001B418 + 12 * cause
  | .dmac cause => 0x8001B4D0 + 12 * cause

def Head.addr : Head → Nat
  | .pool => 0x8001B410
  | .queue q => q.addr

/-- `struct IntHandler` is 24 bytes. -/
def Node.addr : Node → Nat
  | .head h => h.addr
  | .hnd i => 0x8001B590 + 24 * i

/-- The words of the interrupt tables. -/
inductive Cell
  | used
  | vsyncFlag
  | vsyncCsr
  | prev (n : Node)
  | next (n : Node)
  | handler (i : Hid)
  | gp (i : Hid)
  | arg (i : Hid)
  | state (i : Hid)
  | entries (q : Queue)
  | sbus (bit : Fin 32)
  deriving DecidableEq, Repr

def Cell.addr : Cell → Nat
  | .used => 0x8001B400
  | .vsyncFlag => 0x8001B404
  | .vsyncCsr => 0x8001B408
  | .prev n => n.addr
  | .next n => n.addr + 4
  | .handler i => (Node.hnd i).addr + 0x8
  | .gp i => (Node.hnd i).addr + 0xc
  | .arg i => (Node.hnd i).addr + 0x10
  | .state i => (Node.hnd i).addr + 0x14
  | .entries q => q.addr + 8
  | .sbus bit => 0x8001C1A8 + 4 * bit

def Cell.word (c : Cell) : Word := BitVec.ofNat 32 c.addr

def Node.word (n : Node) : Word := BitVec.ofNat 32 n.addr

/-- The tables lie between `D_8001B400` and `D_8001C228`. -/
theorem Cell.addr_range (c : Cell) : 0x8001B400 ≤ c.addr ∧ c.addr < 0x8001C228 := by
  rcases c with _ | _ | _ | ((_ | (c | c)) | i) | ((_ | (c | c)) | i) | i | i | i | i |
      (c | c) | k <;>
    simp only [Cell.addr, Node.addr, Head.addr, Queue.addr] <;> omega

theorem Cell.addr_lt (c : Cell) : c.addr < 2 ^ 32 := c.addr_range.2.trans (by omega)

theorem Cell.low_ne_word (c : Cell) {n : Nat} (hn : n < 0x8001B400) :
    BitVec.ofNat 32 n ≠ c.word := by
  intro h
  have hle := c.addr_range.1
  have heq := ofNat_inj (by omega) c.addr_lt h
  omega

/-- No two cells share an address: the tables of `symbol_addrs.txt` do not overlap. -/
theorem Cell.addr_inj {c d : Cell} (h : c.addr = d.addr) : c = d := by
  rcases c with _ | _ | _ | ((_ | (c | c)) | i) | ((_ | (c | c)) | i) | i | i | i | i |
      (c | c) | k <;>
  rcases d with _ | _ | _ | ((_ | (c' | c')) | i') | ((_ | (c' | c')) | i') | i' | i' | i' | i' |
      (c' | c') | k' <;>
    simp only [Cell.addr, Node.addr, Head.addr, Queue.addr] at h <;>
    first
      | (exfalso; omega)
      | rfl
      | (congr; omega)
      | (congr; exact Fin.ext (by omega))

theorem Cell.word_inj {c d : Cell} : c.word = d.word ↔ c = d :=
  ⟨fun h => Cell.addr_inj (ofNat_inj c.addr_lt d.addr_lt h), fun h => h ▸ rfl⟩

theorem Node.word_eq_prev (n : Node) : n.word = (Cell.prev n).word := rfl

theorem Node.word_inj {a b : Node} : a.word = b.word ↔ a = b := by
  rw [Node.word_eq_prev, Node.word_eq_prev, Cell.word_inj, Cell.prev.injEq]

theorem Node.word_ne_zero (n : Node) : n.word ≠ 0 :=
  ((Cell.prev n).low_ne_word (n := 0) (by omega)).symm

/-- An index, as a C `int`. -/
def idx {n : Nat} (i : Fin n) : Word := BitVec.ofNat 32 i

/-! ## Reads, writes and frames by cell -/

theorem read_write_cell (m : Mem) (c d : Cell) (v : Word) :
    (m.write c.word v).read d.word = if d = c then v else m.read d.word := by
  rw [Mem.read_write]
  simp only [Cell.word_inj]

/-- Every word but the cells in `cs` is the same in `m'`. -/
def ChangesOnly (cs : Set Cell) (m m' : Mem) : Prop :=
  ∀ a : Word, (∀ c ∈ cs, a ≠ c.word) → m'.read a = m.read a

namespace ChangesOnly

variable {cs ds : Set Cell} {m m' m'' : Mem}

theorem refl (m : Mem) : ChangesOnly cs m m := fun _ _ => rfl

theorem mono (h : ChangesOnly cs m m') (hs : cs ⊆ ds) : ChangesOnly ds m m' :=
  fun a ha => h a fun c hc => ha c (hs hc)

theorem trans (h : ChangesOnly cs m m') (h' : ChangesOnly cs m' m'') : ChangesOnly cs m m'' :=
  fun a ha => (h' a ha).trans (h a ha)

theorem write (h : ChangesOnly cs m m') {c : Cell} (hc : c ∈ cs) {v : Word} :
    ChangesOnly cs m (m'.write c.word v) :=
  fun a ha => (Mem.read_write_of_ne m' v (ha c hc)).trans (h a ha)

theorem cell (h : ChangesOnly cs m m') {c : Cell} (hc : c ∉ cs) :
    m'.read c.word = m.read c.word :=
  h c.word fun _ hd he => hc (Cell.word_inj.mp he ▸ hd)

end ChangesOnly

/-! ## Fields through a pointer -/

/-- `&p->next`; `prev` comes first in `struct list_head`. -/
def fNext (p : Word) : Word := p + 4

def fHandler (p : Word) : Word := p + 0x8

def fGp (p : Word) : Word := p + 0xc

def fArg (p : Word) : Word := p + 0x10

def fState (p : Word) : Word := p + 0x14

/-- `&q->entries` of a `struct IntQueue`. -/
def fEntries (p : Word) : Word := p + 8

@[simp] theorem fNext_word (n : Node) : fNext n.word = (Cell.next n).word :=
  (BitVec.ofNat_add n.addr 4).symm

@[simp] theorem fHandler_word (i : Hid) : fHandler (Node.hnd i).word = (Cell.handler i).word :=
  (BitVec.ofNat_add _ _).symm

@[simp] theorem fGp_word (i : Hid) : fGp (Node.hnd i).word = (Cell.gp i).word :=
  (BitVec.ofNat_add _ _).symm

@[simp] theorem fArg_word (i : Hid) : fArg (Node.hnd i).word = (Cell.arg i).word :=
  (BitVec.ofNat_add _ _).symm

@[simp] theorem fState_word (i : Hid) : fState (Node.hnd i).word = (Cell.state i).word :=
  (BitVec.ofNat_add _ _).symm

@[simp] theorem fEntries_word (q : Queue) :
    fEntries (Node.head (.queue q)).word = (Cell.entries q).word :=
  (BitVec.ofNat_add _ _).symm

end EeKernel.Intr
