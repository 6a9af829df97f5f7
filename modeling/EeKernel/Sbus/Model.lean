import EeKernel.Intr.Dispatch
import EeKernel.Lib.BitSet
import EeKernel.Lib.R5900

/-!
# `intr.c`: the SBUS table

`func_80001D98` serves SBUS interrupts from `sbus_int_handler[32]`, which four
calls fill and empty.  The wrappers for user level compare the cause with 16 as
a signed number, the inner functions with 32 as an unsigned one.

What the callbacks do is a parameter, `Callees`, as it is for the dispatchers.
An interrupt leaves a list of `Event`s: its stores to `SBUS_SMFLAG` and the
calls it made, in order.
-/

namespace EeKernel.Sbus

open EeKernel.Intr EeKernel.Lib

/-! ## The calls -/

def func_80001E78 (m : Mem) (cause handler : Word) : Mem × Word :=
  if cause.toNat ≥ 32 then (m, -1)
  else if m.read (sbus_int_handler cause) ≠ 0 then (m, -1)
  else (m.write (sbus_int_handler cause) handler, cause)

def func_80001EB8 (m : Mem) (cause handler : Word) : Mem × Word :=
  if cause.toInt ≥ 16 then (m, -1) else func_80001E78 m cause handler

def func_80001EE8 (m : Mem) (cause : Word) : Mem × Word :=
  if cause.toNat ≥ 32 then (m, -1) else (m.write (sbus_int_handler cause) 0, cause)

/-- The handler is not used. -/
def func_80001F10 (m : Mem) (cause _handler : Word) : Mem × Word :=
  if cause.toInt ≥ 16 then (m, -1) else func_80001EE8 m cause

/-! ## The interrupt -/

/-- The inline assembly of `func_80001D98`: what it leaves in `bit`. -/
def highestBit (smflag : Word) : Word :=
  if smflag &&& 0x80000000 ≠ 0 then 0x1f
  else 0x1e - (R5900.plzcw smflag &&& 0xff)

/-- The code `func_80001D98` calls. -/
structure Callees (ε : Type) where
  /-- get smflag -/
  func_800112C0 : Machine ε → Word
  /-- run a handler at user level: the stub, the handler and the bit -/
  func_800029C0 : Word → Word → Word → Machine ε → Machine ε
  /-- `hnd(bit)` -/
  direct : Word → Word → Machine ε → Machine ε

inductive Event
  | smflag (v : Word)
  | user (base hnd bit : Word)
  | direct (hnd bit : Word)
  deriving DecidableEq

/-- `1 << bit`; the shift takes the low five bits of its count. -/
def oneShl (bit : Word) : Word := (1 : Word) <<< (bit.toNat % 32)

variable {ε : Type}

def serveBit (C : Callees ε) (bit : Word) (s : Machine ε) : Machine ε × List Event :=
  let hnd := s.mem.read (sbus_int_handler bit)
  if hnd ≠ 0 then
    if bit.toInt < 16 then
      let base := s.mem.read D_800174E4
      (C.func_800029C0 base hnd bit s, [.smflag (oneShl bit), .user base hnd bit])
    else (C.direct hnd bit s, [.direct hnd bit])
  else (s, [])

/-- `while (smflag) { ... }` -/
def serveBits (C : Callees ε) : Nat → Word → Machine ε → Option (Machine ε × List Event)
  | 0, _, _ => none
  | fuel + 1, smflag, s =>
    if smflag = 0 then some (s, [])
    else
      let bit := highestBit smflag
      let tmp := oneShl bit
      let smflag := smflag &&& ~~~tmp
      let (s, done) := serveBit C bit s
      (serveBits C fuel smflag s).map fun (s, later) => (s, done ++ later)

/-- SBUS irq handler -/
def func_80001D98 (C : Callees ε) (fuel : Nat) (_cause : Word) (s : Machine ε) :
    Option (Machine ε × List Event) :=
  serveBits C fuel (C.func_800112C0 s) s

/-! ## The highest bit -/

theorem sign_iff (smflag : Word) : smflag &&& 0x80000000 ≠ 0 ↔ smflag.msb = true := by
  have htwo : (0x80000000 : Word) = BitVec.twoPow 32 31 := by decide
  rw [htwo, BitVec.and_twoPow, BitVec.msb_eq_getLsbD_last]
  cases smflag.getLsbD (32 - 1) with
  | false => simp
  | true => simp

/-- The inline assembly finds the highest set bit, whatever the sign. -/
theorem highestBit_spec {smflag : Word} (h : smflag ≠ 0) :
    ∃ i : Fin 32, highestBit smflag = idx i ∧ Highest smflag i := by
  have hlt : smflag.clz.toNat < 32 := by
    have hclz := BitVec.clz_lt_iff_ne_zero.mpr h
    simpa [BitVec.lt_def] using hclz
  refine ⟨⟨31 - smflag.clz.toNat, by omega⟩, ?_, highest_clz (by omega) h rfl⟩
  have hmsb : smflag.clz.toNat = 0 ↔ smflag.msb = true := by
    have hclz := BitVec.clz_eq_zero_iff (x := smflag) (Nat.succ_pos 31)
    have hsign := BitVec.msb_eq_decide smflag
    exact hclz.trans (hsign ▸ decide_eq_true_iff.symm)
  change highestBit smflag = BitVec.ofNat 32 (31 - smflag.clz.toNat)
  rw [highestBit, R5900.plzcw]
  by_cases hs : smflag.msb = true
  · rw [if_pos ((sign_iff smflag).mpr hs)]
    simp only [hmsb.mpr hs]
    decide
  · have hpos : smflag.clz.toNat ≠ 0 := fun h0 => hs (hmsb.mp h0)
    have hsub : ∀ n : Fin 32, (n : Nat) ≠ 0 →
        (0x1e : Word) - (BitVec.ofNat 32 (n - 1) &&& 0xff) = BitVec.ofNat 32 (31 - n) := by
      decide
    rw [if_neg (mt (sign_iff smflag).mp hs), if_neg hs]
    exact hsub ⟨_, hlt⟩ hpos

@[simp] theorem oneShl_idx (i : Fin 32) : oneShl (idx i) = BitVec.twoPow 32 i := by
  rw [oneShl, toNat_idx (by omega), Nat.mod_eq_of_lt i.isLt]
  rfl

/-! ## The loop, bit by bit -/

/-- Serving the bits of a list, in order. -/
def serveAll (C : Callees ε) : List (Fin 32) → Machine ε → Machine ε × List Event
  | [], s => (s, [])
  | i :: bits, s =>
    let (s, done) := serveBit C (idx i) s
    let (s, later) := serveAll C bits s
    (s, done ++ later)

/-- The loop serves the set bits of `smflag`, highest first, one in each round. -/
theorem serveBits_eq (C : Callees ε) (fuel : Nat) (smflag : Word) (s : Machine ε) :
    serveBits C fuel smflag s =
      if (setBits smflag).length < fuel then some (serveAll C (setBits smflag) s) else none := by
  induction fuel generalizing smflag s with
  | zero => rfl
  | succ fuel ih =>
    rw [serveBits]
    by_cases h : smflag = 0
    · subst h
      rw [if_pos rfl, show setBits (0 : Word) = [] from setBits_zero]
      rfl
    · obtain ⟨i, hi, htop⟩ := highestBit_spec h
      simp only [if_neg h, hi, oneShl_idx]
      rw [← clearBit, ih, setBits_cons htop, List.length_cons]
      by_cases hlt : (setBits (clearBit smflag i)).length < fuel
      · rw [if_pos hlt, if_pos (by omega)]
        rfl
      · rw [if_neg hlt, if_neg (by omega)]
        rfl

theorem func_80001D98_eq (C : Callees ε) {fuel : Nat} (hfuel : 32 < fuel) (cause : Word)
    (s : Machine ε) :
    func_80001D98 C fuel cause s = some (serveAll C (setBits (C.func_800112C0 s)) s) := by
  rw [func_80001D98, serveBits_eq, if_pos (lt_of_le_of_lt (length_setBits_le _) hfuel)]

theorem func_80001D98_some {C : Callees ε} {fuel : Nat} {cause : Word} {s : Machine ε}
    {w : Machine ε × List Event} (h : func_80001D98 C fuel cause s = some w) :
    w = serveAll C (setBits (C.func_800112C0 s)) s := by
  rw [func_80001D98, serveBits_eq] at h
  split at h
  · exact (Option.some.inj h).symm
  · cases h

end EeKernel.Sbus
