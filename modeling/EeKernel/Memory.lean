import Mathlib.Algebra.GroupWithZero.Nat
import Mathlib.Logic.Function.Basic

/-!
# Words and memory

The EE core is a 32-bit address machine as far as the kernel's C code goes:
`int`, `u_int` and every pointer are one 32-bit word.  Memory is a total map
from word addresses to words, so that a C access through a wrong pointer or a
wild index reads and writes whatever lies there, as it does on the machine.
-/

namespace EeKernel

/-- A C `int`, `u_int` or pointer. -/
abbrev Word := BitVec 32

/-- Memory, by the address of each aligned word. -/
abbrev Mem := Word → Word

namespace Mem

def read (m : Mem) (a : Word) : Word := m a

def write (m : Mem) (a v : Word) : Mem := fun b => if b = a then v else m b

@[simp] theorem read_write_same (m : Mem) (a v : Word) : (m.write a v).read a = v := by
  simp [read, write]

theorem read_write_of_ne (m : Mem) {a b : Word} (v : Word) (h : b ≠ a) :
    (m.write a v).read b = m.read b := by
  simp [read, write, h]

theorem read_write (m : Mem) (a b v : Word) :
    (m.write a v).read b = if b = a then v else m.read b := rfl

end Mem

/-- Distinct addresses below 2^32 are distinct words. -/
theorem ofNat_inj {x y : Nat} (hx : x < 2 ^ 32) (hy : y < 2 ^ 32)
    (h : BitVec.ofNat 32 x = BitVec.ofNat 32 y) : x = y := by
  have h' := congrArg BitVec.toNat h
  rwa [BitVec.toNat_ofNat, BitVec.toNat_ofNat, Nat.mod_eq_of_lt hx, Nat.mod_eq_of_lt hy] at h'

theorem ofNat_succ (n : Nat) : BitVec.ofNat 32 n + 1 = BitVec.ofNat 32 (n + 1) :=
  (BitVec.ofNat_add n 1).symm

theorem ofNat_pred {n : Nat} (h : 0 < n) : BitVec.ofNat 32 n - 1 = BitVec.ofNat 32 (n - 1) := by
  obtain ⟨k, rfl⟩ := Nat.exists_eq_add_of_lt h
  rw [Nat.zero_add, ← ofNat_succ, BitVec.add_sub_cancel, Nat.add_sub_cancel]

end EeKernel
