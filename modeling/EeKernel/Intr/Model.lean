import Mathlib.Data.Fintype.Basic
import Mathlib.Data.List.FinRange
import EeKernel.Intr.ListHelpers

/-!
# `intr.c`: the handler registry

The functions of `intr.c` that build and change the registry, under their own
names.  A C `int` is a `Word`; a comparison the source makes on `u_int` reads
`toNat`, one it makes on `int` reads `toInt`.  `$gp`, which `func_800018F0` and
`func_80001B50` read with inline assembly, is an argument.
-/

namespace EeKernel.Intr

/-! ## Addresses -/

/-- number of used int handlers -/
def D_8001B400 : Word := Cell.used.word

/-- int handler pool list -/
def D_8001B410 : Word := (Node.head .pool).word

/-- `&intc_queue[cause]` -/
def intc_queue (cause : Word) : Word := 0x8001B418 + 12 * cause

/-- `&dmac_queue[cause]` -/
def dmac_queue (cause : Word) : Word := 0x8001B4D0 + 12 * cause

/-- `&int_handler[i]` -/
def int_handler (i : Word) : Word := 0x8001B590 + 24 * i

/-- `&sbus_int_handler[i]` -/
def sbus_int_handler (i : Word) : Word := 0x8001C1A8 + 4 * i

def INTC_SBUS : Fin 15 := 1
def INTC_VBLANK_S : Fin 15 := 2
def INTC_TIM3 : Fin 15 := 12
def INTC_MAX : Nat := 15
def DMAC_MAX : Nat := 16

/-- The ids 1..128 the descriptor loops run over. -/
def allHids : List Hid := (List.finRange 128).map Fin.succ

/-- `p - int_handler`, a signed count of 24-byte descriptors. -/
def handlerIndex (p : Word) : Word := BitVec.ofInt 32 ((p - int_handler 0).toInt.tdiv 24)

/-! ## The pool -/

variable (L : ListHelpers)

/-- pop int handler pool -/
def func_800015E0 (m : Mem) : Mem × Word :=
  let (m, i) := L.func_80006420 m D_8001B410
  if i = 0 then (m, 0) else (m.write D_8001B400 (m.read D_8001B400 + 1), i)

/-- return to pool -/
def func_80001628 (m : Mem) (arg0 : Word) : Mem :=
  let m := L.func_800064D0 m D_8001B410 (int_handler arg0)
  m.write D_8001B400 (m.read D_8001B400 - 1)

/-! ## Add -/

/-- The four stores into a popped descriptor. -/
def fillDescriptor (m : Mem) (hnd handler gp arg unk : Word) : Mem :=
  (((m.write (fHandler hnd) handler).write (fGp hnd) gp).write (fArg hnd) arg).write
    (fState hnd) unk

/-- `hid < 0 || hid - 1 > 0x7fu`: the second comparison is unsigned. -/
def badHid (hid : Word) : Prop := hid.toInt < 0 ∨ (hid - 1).toNat > 0x7f

instance (hid : Word) : Decidable (badHid hid) := inferInstanceAs (Decidable (_ ∨ _))

def countAdd (m : Mem) (queue hnd : Word) : Mem × Word :=
  (m.write (fEntries queue) (m.read (fEntries queue) + 1), handlerIndex hnd)

/-- What `func_800018F0` and `func_80001B50` do once `cause` is accepted, for
the queue at `queue`. -/
def addHandler (m : Mem) (gp queue handler next arg unk : Word) : Mem × Word :=
  let (m, hnd) := func_800015E0 L m
  if hnd = 0 then (m, -1)
  else
    let m := fillDescriptor m hnd handler gp arg unk
    if next = -1 then countAdd (L.func_800064D0 m queue hnd) queue hnd
    else if next = 0 then countAdd (L.func_800064D0 m (m.read (fNext queue)) hnd) queue hnd
    else if badHid next ∨ m.read (fState (int_handler next)) = 3 then (m, -1)
    else countAdd (L.func_800064D0 m (int_handler next) hnd) queue hnd

def func_800018F0 (m : Mem) (gp cause handler next arg unk : Word) : Mem × Word :=
  if unk ≠ 0 ∧ cause = idx INTC_SBUS then (m, -1)
  else if cause.toNat ≥ INTC_MAX then (m, -1)
  else addHandler L m gp (intc_queue cause) handler next arg unk

/-- AddIntcHandler -/
def func_80001A70 (m : Mem) (gp cause handler next arg : Word) : Mem × Word :=
  func_800018F0 L m gp cause handler next arg 2

def func_80001A90 (m : Mem) (gp cause handler next arg : Word) : Mem × Word :=
  func_800018F0 L m gp cause handler next arg 0

def func_80001B50 (m : Mem) (gp cause handler next arg unk : Word) : Mem × Word :=
  if cause.toNat ≥ DMAC_MAX then (m, -1)
  else addHandler L m gp (dmac_queue cause) handler next arg unk

def func_80001CB8 (m : Mem) (gp cause handler next arg : Word) : Mem × Word :=
  func_80001B50 L m gp cause handler next arg 2

def func_80001CD8 (m : Mem) (gp cause handler next arg : Word) : Mem × Word :=
  func_80001B50 L m gp cause handler next arg 0

/-! ## Remove -/

/-- The body of `func_80001AB0` and `func_80001CF8`, for the queue at `queue`. -/
def removeHandler (m : Mem) (queue hid : Word) : Mem × Word :=
  if badHid hid then (m, -1)
  else if m.read (fState (int_handler hid)) = 3 then (m, -1)
  else
    let m := m.write (fState (int_handler hid)) 3
    let m := m.write (fHandler (int_handler hid)) 0
    let m := L.func_800064B0 m (int_handler hid)
    let m := func_80001628 L m hid
    let m := m.write (fEntries queue) (m.read (fEntries queue) - 1)
    (m, m.read (fEntries queue))

/-- RemoveIntcHandler2 -/
def func_80001AB0 (m : Mem) (cause hid : Word) : Mem × Word :=
  removeHandler L m (intc_queue cause) hid

def func_80001CF8 (m : Mem) (cause hid : Word) : Mem × Word :=
  removeHandler L m (dmac_queue cause) hid

/-! ## Enable and disable -/

/-- `int_handler[hid].state = state; return hid;` -/
def setState (m : Mem) (hid state : Word) : Mem × Word :=
  (m.write (fState (int_handler hid)) state, hid)

def func_80001FE0 (m : Mem) (hid : Word) : Mem × Word := setState m hid 2

def func_80002008 (m : Mem) (hid : Word) : Mem × Word := setState m hid 1

def func_80002030 (m : Mem) (hid : Word) : Mem × Word := setState m hid 2

def func_80002058 (m : Mem) (hid : Word) : Mem × Word := setState m hid 1

def func_80002080 (m : Mem) : Word := m.read D_8001B400

/-! ## Initialisation and soft reset -/

inductive Isr
  | func_80001670
  | func_800017D8
  | func_80001D98
  | func_80002690
  deriving DecidableEq, Repr

/-- The registry's memory and the service routines the dispatch code, which is
assembly outside the source tree, calls for each cause. -/
structure Kernel where
  mem : Mem
  intcIsr : Fin 15 → Isr
  dmacIsr : Fin 16 → Isr
  intcEnabled : Fin 15 → Bool

namespace Kernel

/-- Make `f(i)` the service routine of INTC cause `i`. -/
def func_80000700 (k : Kernel) (i : Fin 15) (f : Isr) : Kernel :=
  { k with intcIsr := fun c => if c = i then f else k.intcIsr c }

/-- Make `f(i)` the service routine of DMAC cause `i`. -/
def func_80000780 (k : Kernel) (i : Fin 16) (f : Isr) : Kernel :=
  { k with dmacIsr := fun c => if c = i then f else k.dmacIsr c }

def EnableIntc (k : Kernel) (i : Fin 15) : Kernel :=
  { k with intcEnabled := fun c => c = i || k.intcEnabled c }

end Kernel

def list_init (m : Mem) (l : Word) : Mem := (m.write (fNext l) l).write l l

/-- `entries = 0; list_init(&queue->l);` -/
def clearQueue (m : Mem) (queue : Word) : Mem := list_init (m.write (fEntries queue) 0) queue

def initIntc (k : Kernel) (i : Fin 15) : Kernel :=
  { k with mem := clearQueue k.mem (intc_queue (idx i)) }.func_80000700 i .func_80001670

def initDmac (k : Kernel) (i : Fin 16) : Kernel :=
  { k with mem := clearQueue k.mem (dmac_queue (idx i)) }.func_80000780 i .func_800017D8

def freeDescriptor (m : Mem) (i : Word) : Mem :=
  let m := m.write (fHandler (int_handler i)) 0
  let m := m.write (fState (int_handler i)) 3
  L.func_800064D0 m D_8001B410 (int_handler i)

/-- `list_init(&D_8001B410); for (i = 1; i < 129; i++) ...` -/
def rebuildPool (m : Mem) : Mem :=
  allHids.foldl (fun m i => freeDescriptor L m (idx i))
    (list_init m D_8001B410)

/-- `for (i = 0; i < 32; i++) sbus_int_handler[i] = NULL;` -/
def clearSbus (m : Mem) : Mem :=
  (List.finRange 32).foldl (fun m i => m.write (sbus_int_handler (idx i)) 0) m

def func_80002090 (k : Kernel) : Kernel × Word :=
  let k := { k with mem := k.mem.write D_8001B400 0 }
  let k := (List.finRange 15).foldl initIntc k
  let k := k.func_80000700 INTC_TIM3 .func_80002690
  let k := k.func_80000700 INTC_SBUS .func_80001D98
  let k := { k with mem := clearSbus k.mem }
  let k := k.EnableIntc INTC_SBUS
  let k := (List.finRange 16).foldl initDmac k
  ({ k with mem := rebuildPool L k.mem }, 0x81)

def func_800021F0 (k : Kernel) : Kernel × Word :=
  let k := { k with mem := k.mem.write D_8001B400 0 }
  let k := (List.finRange 15).foldl (fun k i => if i = INTC_SBUS then k else initIntc k i) k
  let k := k.func_80000700 INTC_TIM3 .func_80002690
  let k := (List.finRange 16).foldl initDmac k
  ({ k with mem := rebuildPool L k.mem }, 0x81)

end EeKernel.Intr
