import Mathlib.Logic.Function.Basic
import EeKernel.Memory

/-!
# `alarm.c`: the alarms of timer 3

Up to 64 alarms are kept in three places at once: a bit for each active one in
`D_8001C228`, their number in `D_8001C230` and a queue of their ids in
`D_8001C738`.  `func_800025B0` releases an alarm and `func_80002690` serves the
compare interrupt; both are modelled as written in C.  An array is a function of
its index: an entry past the end is whatever lies there, and is not tied to the
array that follows.

`func_80002318`, which sets an alarm, is assembly outside the source tree; what
is assumed of it is stated where runs are.
-/

namespace EeKernel.Alarm

/-- `struct alarm` -/
structure Record where
  handler : Word
  arg : Word
  gp : Word
  time : Word
  target : Word
  deriving DecidableEq

/-- The alarm tables, and what was last written to the two registers of timer 3. -/
structure State where
  /-- active alarm bitfield -/
  D_8001C228 : BitVec 64
  /-- alarm count -/
  D_8001C230 : Word
  /-- alarms -/
  D_8001C238 : Word → Record
  /-- alarm queue -/
  D_8001C738 : Nat → BitVec 8
  T3_MODE : Word
  T3_COMP : Word

def ofChar (c : BitVec 8) : Word := c.signExtend 32

/-- `1ull << id`; the shift takes the low six bits of its count. -/
def oneShl (id : Word) : BitVec 64 := BitVec.twoPow 64 (id.toNat % 64)

def rounds (n : Word) : List Nat := List.range n.toInt.toNat

/-- `for (i = 0; i < count; i++) queue[i] = queue[i + 1];` -/
def shift (count : Word) (queue : Nat → BitVec 8) : Nat → BitVec 8 :=
  (rounds count).foldl (fun queue i => Function.update queue i (queue (i + 1))) queue

/-- ReleaseAlarm.  `cur_time` is what `T3_COUNT` reads. -/
def func_800025B0 (cur_time : Word) (s : State) (id : Word) : State × Word :=
  if (s.D_8001C228 >>> (id.toNat % 64)) &&& 1 = 0 then (s, -1)
  else
    let s := { s with D_8001C230 := s.D_8001C230 - 1 }
    let s := { s with D_8001C228 := s.D_8001C228 &&& ~~~oneShl id }
    let s := { s with T3_MODE := if s.D_8001C230 = 0 then 0x83 else s.T3_MODE }
    let s := { s with D_8001C738 := shift s.D_8001C230 s.D_8001C738 }
    -- in memory record 64 lies over `D_8001C738`, which the loop has just shifted; here it is a
    -- record of its own, so what is proved of such an id holds for every content it can have
    let alarm_time := (s.D_8001C238 id).time
    (s, if cur_time.toNat ≥ alarm_time.toNat then cur_time - alarm_time
      else cur_time + (0x10000 - alarm_time))

/-- AlarmCount -/
def func_80002828 (s : State) : Word := s.D_8001C230

/-- `for (i = 0; i < 64; i++) D_8001C738[i] = 0;` -/
def clearQueue (queue : Nat → BitVec 8) : Nat → BitVec 8 :=
  (List.range 64).foldl (fun queue i => Function.update queue i 0) queue

/-- InitAlarm; it also enables INTC cause TIM3. -/
def func_80002838 (s : State) : State :=
  { s with D_8001C230 := 0, D_8001C228 := 0, D_8001C738 := clearQueue s.D_8001C738 }

/-! ## The compare interrupt -/

/-- The machine while timer 3 is served; `env` is whatever else a callback keeps. -/
structure Machine (ε : Type) where
  state : State
  D_800174E4 : Word
  gp : Word
  env : ε

/-- The arguments of `func_800029C0`, and the `$gp` it is called with. -/
structure UserCall where
  base : Word
  handler : Word
  aidx : Word
  target : Word
  arg : Word
  gp : Word
  deriving DecidableEq

variable {ε : Type}

def dequeue (s : State) : State :=
  let aidx := ofChar (s.D_8001C738 0)
  let s := { s with D_8001C230 := s.D_8001C230 - 1 }
  let s := { s with D_8001C738 := shift s.D_8001C230 s.D_8001C738 }
  { s with D_8001C228 := s.D_8001C228 &&& ~~~oneShl aidx }

def userCall (aidx : Word) (s : Machine ε) : UserCall :=
  let alarm := s.state.D_8001C238 aidx
  { base := s.D_800174E4, handler := alarm.handler, aidx := aidx, target := alarm.target &&& 0xffff,
    arg := alarm.arg, gp := alarm.gp }

/-- One round of the loop, up to its test: `func_800029C0` with `$gp` saved, set
to the alarm's and put back. -/
def fire (C : UserCall → Machine ε → Machine ε) (s : Machine ε) : Machine ε × UserCall :=
  let aidx := ofChar (s.state.D_8001C738 0)
  let s := { s with state := dequeue s.state }
  let gp := s.gp
  let call := userCall aidx s
  let s := C call { s with gp := call.gp }
  ({ s with gp := gp }, call)

/-- `D_8001C230 > 0 && target == D_8001C238[aidx = D_8001C738[0]].target` -/
def again (target : Word) (s : State) : Prop :=
  0 < s.D_8001C230.toInt ∧ target = (s.D_8001C238 (ofChar (s.D_8001C738 0))).target

instance (target : Word) (s : State) : Decidable (again target s) :=
  inferInstanceAs (Decidable (_ ∧ _))

/-- `do { ... } while (...)`, with the calls made. -/
def fireAll (C : UserCall → Machine ε → Machine ε) :
    Nat → Machine ε → Option (Machine ε × List UserCall)
  | 0, _ => none
  | fuel + 1, s =>
    let (s, call) := fire C s
    if again call.target s.state then
      (fireAll C fuel s).map fun (s, calls) => (s, call :: calls)
    else some (s, [call])

/-- The timer is set for the alarm after the head, if there is one. -/
def rearm (s : State) : State :=
  if s.D_8001C230.toInt ≥ 2 then
    { s with T3_MODE := 0x583, T3_COMP := (s.D_8001C238 (ofChar (s.D_8001C738 1))).target }
  else { s with T3_MODE := 0x483 }

/-- timer 3 irq handler -/
def func_80002690 (C : UserCall → Machine ε → Machine ε) (fuel : Nat) (s : Machine ε) :
    Option (Machine ε × List UserCall) :=
  fireAll C fuel { s with state := rearm s.state }

end EeKernel.Alarm
