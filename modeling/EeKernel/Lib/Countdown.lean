import Mathlib.Data.BitVec
import Mathlib.Data.List.Basic

/-!
# Counters that come round

A counter of `w` bits goes up by one each tick and wraps.  `ticksTo c t` is how
long it takes from `c` to show `t` next, and `met` is what becomes of a list of
marks each of which is waited for from the one before.
-/

namespace EeKernel.Lib

section Ticks

variable {w : Nat}

/-- The ticks until a counter at `c` next shows `t`: one at least. -/
def ticksTo (c t : BitVec w) : Nat := (t - (c + 1)).toNat + 1

variable {c t : BitVec w}

theorem ticksTo_pos : 0 < ticksTo c t := Nat.succ_pos _

theorem ticksTo_le : ticksTo c t ≤ 2 ^ w := (t - (c + 1)).isLt

theorem ticksTo_eq_one (h : c + 1 = t) : ticksTo c t = 1 := by
  rw [ticksTo, h, BitVec.sub_self]
  rfl

theorem toNat_sub_one {d : BitVec w} (h : d ≠ 0) : (d - 1).toNat + 1 = d.toNat := by
  have hpos : d.toNat ≠ 0 := fun h0 => h (BitVec.eq_of_toNat_eq h0)
  have hlt := d.isLt
  have hone : (1 : BitVec w).toNat = 1 :=
    (BitVec.toNat_ofNat 1 w).trans (Nat.mod_eq_of_lt (by omega))
  rw [BitVec.toNat_sub_of_le (by rw [BitVec.le_def]; omega), hone]
  omega

theorem ticksTo_succ (h : c + 1 ≠ t) : ticksTo c t = ticksTo (c + 1) t + 1 := by
  have hne : t - (c + 1) ≠ 0 := by
    intro h0
    exact h ((BitVec.sub_eq_iff_eq_add.mp h0).trans (BitVec.zero_add _)).symm
  have hsub : t - (c + 1 + 1) = t - (c + 1) - 1 := (BitVec.sub_sub t (c + 1) 1).symm
  rw [ticksTo, ticksTo, hsub, toNat_sub_one hne]

end Ticks

/-! ## Marks met in turn -/

section Met

variable {α : Type} {w : Nat} (t : α → BitVec w)

/-- The marks met in `n` ticks from `c`. -/
def met : BitVec w → List α → Nat → List α
  | _, [], _ => []
  | c, a :: l, n => if ticksTo c (t a) ≤ n then a :: met (t a) l (n - ticksTo c (t a)) else []

theorem met_zero (c : BitVec w) (l : List α) : met t c l 0 = [] := by
  cases l with
  | nil => rfl
  | cons a l => exact if_neg (Nat.not_le.mpr ticksTo_pos)

/-- The first of `n + 1` ticks. -/
theorem met_succ (c : BitVec w) (a : α) (l : List α) (n : Nat) :
    met t c (a :: l) (n + 1) =
      if c + 1 = t a then a :: met t (c + 1) l n else met t (c + 1) (a :: l) n := by
  by_cases h : c + 1 = t a
  · rw [if_pos h, met, ticksTo_eq_one h, if_pos (Nat.le_add_left 1 n), h]
    rfl
  · rw [if_neg h, met, met, ticksTo_succ h]
    by_cases hle : ticksTo (c + 1) (t a) ≤ n
    · rw [if_pos (Nat.succ_le_succ hle), if_pos hle, Nat.add_sub_add_right]
    · rw [if_neg (fun h' => hle (Nat.le_of_succ_le_succ h')), if_neg hle]

/-- A full turn of the counter for each mark meets them all. -/
theorem met_all (c : BitVec w) (l : List α) {n : Nat} (h : 2 ^ w * l.length ≤ n) :
    met t c l n = l := by
  induction l generalizing c n with
  | nil => rfl
  | cons a l ih =>
    have hle : ticksTo c (t a) ≤ 2 ^ w := ticksTo_le
    rw [List.length_cons, Nat.mul_succ] at h
    rw [met, if_pos (by omega), ih _ (by omega)]

end Met

end EeKernel.Lib
