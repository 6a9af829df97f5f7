import Mathlib.Data.List.FinRange
import Mathlib.Data.List.Nodup

/-!
# Machine words as sets of bits

`setBits x` lists the set bits of a word, highest first, and `clearBit` takes
one out.  A loop that serves the highest set bit and clears it goes through
`setBits` from the head (`setBits_cons`).
-/

namespace EeKernel.Lib

variable {w : Nat} {x : BitVec w} {i j : Fin w}

/-- The set bits, highest first. -/
def setBits (x : BitVec w) : List (Fin w) :=
  (List.finRange w).reverse.filter fun i => x.getLsbD i

/-- `x & ~(1 << i)` -/
def clearBit (x : BitVec w) (i : Fin w) : BitVec w := x &&& ~~~(BitVec.twoPow w i)

structure Highest (x : BitVec w) (i : Fin w) : Prop where
  set : x.getLsbD i = true
  above : ∀ j : Fin w, i < j → x.getLsbD j = false

@[simp] theorem getLsbD_clearBit :
    (clearBit x i).getLsbD j = (x.getLsbD j && decide (j ≠ i)) := by
  rw [clearBit, BitVec.getLsbD_and, BitVec.getLsbD_not, BitVec.getLsbD_twoPow]
  have hj := j.isLt
  have hi := i.isLt
  by_cases hij : j = i
  · subst hij
    simp
  · have hne : (i : Nat) ≠ j := fun h => hij (Fin.ext h.symm)
    simp [hij, hne, hj]

@[simp] theorem mem_setBits : i ∈ setBits x ↔ x.getLsbD i = true := by
  simp [setBits]

theorem setBits_sorted (x : BitVec w) : (setBits x).Pairwise fun i j => j < i := by
  apply List.Pairwise.filter _
  rw [List.pairwise_reverse]
  exact List.pairwise_lt_finRange w

theorem setBits_nodup (x : BitVec w) : (setBits x).Nodup :=
  (setBits_sorted x).imp fun h => (ne_of_lt h).symm

theorem length_setBits_le (x : BitVec w) : (setBits x).length ≤ w := by
  have h := List.length_filter_le (fun i : Fin w => x.getLsbD i) (List.finRange w).reverse
  rwa [List.length_reverse, List.length_finRange] at h

theorem cpopNatRec_eq_countP (x : BitVec w) (n : Nat) :
    x.cpopNatRec n 0 = (List.range n).countP x.getLsbD := by
  induction n with
  | zero => rfl
  | succ n ih =>
    rw [BitVec.cpopNatRec_succ, BitVec.cpopNatRec_eq, ih, List.range_succ, List.countP_append,
      Nat.zero_add, List.countP_singleton]
    cases x.getLsbD n <;> rfl

theorem length_setBits (x : BitVec w) : (setBits x).length = x.cpop.toNat := by
  have hle : x.cpopNatRec w 0 < 2 ^ w :=
    lt_of_le_of_lt (BitVec.cpopNatRec_zero_le x w) Nat.lt_two_pow_self
  rw [BitVec.cpop, BitVec.toNat_ofNat, Nat.mod_eq_of_lt hle, cpopNatRec_eq_countP,
    ← List.map_coe_finRange_eq_range, List.countP_map, setBits, ← List.countP_eq_length_filter,
    List.countP_reverse]
  rfl

@[simp] theorem setBits_zero : setBits (0#w) = [] := by
  simp [setBits]

theorem setBits_clearBit : setBits (clearBit x i) = (setBits x).erase i := by
  rw [(setBits_nodup x).erase_eq_filter]
  simp only [setBits, getLsbD_clearBit, List.filter_filter]
  apply List.filter_congr
  intro j _
  rw [Bool.and_comm]
  simp [Bool.beq_eq_decide_eq, bne]

theorem setBits_or_twoPow (h : x.getLsbD i = false) :
    (setBits (x ||| BitVec.twoPow w i)).Perm (i :: setBits x) := by
  have hbit : ∀ j : Fin w,
      (x ||| BitVec.twoPow w i).getLsbD j = (x.getLsbD j || decide (j = i)) := by
    intro j
    rw [BitVec.getLsbD_or, BitVec.getLsbD_twoPow, Bool.and_eq_right_iff_imp.mpr]
    · congr 1
      exact decide_eq_decide.mpr ⟨fun h => Fin.ext h.symm, fun h => h ▸ rfl⟩
    · exact fun _ => decide_eq_true i.isLt
  have hclear : setBits (clearBit (x ||| BitVec.twoPow w i) i) = setBits x := by
    apply List.filter_congr
    intro j _
    rw [getLsbD_clearBit, hbit]
    by_cases hji : j = i
    · subst hji
      rw [decide_eq_false (not_not.mpr rfl), Bool.and_false, h]
    · rw [decide_eq_false hji, decide_eq_true hji, Bool.or_false, Bool.and_true]
  have hi : i ∈ setBits (x ||| BitVec.twoPow w i) := by
    rw [mem_setBits, hbit, decide_eq_true rfl, Bool.or_true]
  rw [← hclear, setBits_clearBit]
  exact List.perm_cons_erase hi

/-- The head of `setBits` is the highest set bit, the tail what is left when it is cleared. -/
theorem setBits_cons (h : Highest x i) : setBits x = i :: setBits (clearBit x i) := by
  have hi : i ∈ setBits x := mem_setBits.mpr h.set
  rw [setBits_clearBit]
  cases hx : setBits x with
  | nil => rw [hx] at hi; cases hi
  | cons a l =>
    have hsorted := setBits_sorted x
    have ha : x.getLsbD a = true := mem_setBits.mp (hx ▸ List.mem_cons_self)
    rw [hx] at hi hsorted
    have hai : a = i := by
      rcases List.mem_cons.mp hi with rfl | hi
      · rfl
      · have hlt := List.rel_of_pairwise_cons hsorted hi
        rw [h.above a hlt] at ha
        cases ha
    subst hai
    rw [List.erase_cons_head]

/-- Leading zeros find the highest set bit. -/
theorem highest_clz (hw : 0 < w) (hx : x ≠ 0#w) (hi : (i : Nat) = w - 1 - x.clz.toNat) :
    Highest x i where
  set := hi ▸ BitVec.getLsbD_true_clz_of_ne_zero hw hx
  above j hj := by
    have hij : (i : Nat) < j := hj
    have hle : 2 ^ (w - x.clz.toNat) ≤ 2 ^ (j : Nat) := Nat.pow_le_pow_right (by omega) (by omega)
    exact Nat.testBit_lt_two_pow (lt_of_lt_of_le BitVec.toNat_lt_two_pow_sub_clz hle)

end EeKernel.Lib
