import Mathlib.Data.List.Basic
import Mathlib.Logic.Function.Basic

/-!
# Loops over slots

A loop that writes one slot in each round establishes, for every slot it
visits, whatever a round establishes for its own slot and a round for another
slot keeps.  Where the slots are written in order and no round looks back, each
ends up with the value its round would write at the outset.
-/

namespace EeKernel.Lib

variable {ι σ : Type} {f : σ → ι → σ} {Q : ι → σ → Prop} {l : List ι}

theorem foldl_each_keep (hset : ∀ s x, x ∈ l → Q x (f s x))
    (hkeep : ∀ s x y, x ≠ y → Q x s → Q x (f s y)) {x : ι} {s : σ} (hs : Q x s) :
    Q x (l.foldl f s) := by
  induction l generalizing s with
  | nil => exact hs
  | cons y l ih =>
    refine ih (fun s z hz => hset s z (List.mem_cons_of_mem y hz)) ?_
    by_cases hxy : x = y
    · subst hxy
      exact hset s x List.mem_cons_self
    · exact hkeep s x y hxy hs

/-- Every slot the loop visits ends up as its round left it. -/
theorem foldl_each (hset : ∀ s x, x ∈ l → Q x (f s x))
    (hkeep : ∀ s x y, x ≠ y → Q x s → Q x (f s y)) {x : ι} (hx : x ∈ l) (s : σ) :
    Q x (l.foldl f s) := by
  induction l generalizing s with
  | nil => cases hx
  | cons y l ih =>
    have hset' : ∀ s z, z ∈ l → Q z (f s z) := fun s z hz => hset s z (List.mem_cons_of_mem y hz)
    rcases List.mem_cons.mp hx with rfl | hx
    · exact foldl_each_keep hset' hkeep (hset s x List.mem_cons_self)
    · exact ih hset' hx (f s y)

section Update

variable {β : Type} {v : (Nat → β) → Nat → β}

/-- `for (i = 0; i < k; i++) q[i] = v(q, i);`, where `v` reads no slot before `i`. -/
theorem foldl_update_range (hv : ∀ q q' i, (∀ n, i ≤ n → q n = q' n) → v q i = v q' i)
    (q : Nat → β) (k n : Nat) :
    (List.range k).foldl (fun q i => Function.update q i (v q i)) q n =
      if n < k then v q n else q n := by
  induction k generalizing n with
  | zero => rfl
  | succ k ih =>
    rw [List.range_succ, List.foldl_append, List.foldl_cons, List.foldl_nil]
    by_cases hn : n = k
    · subst hn
      rw [Function.update_self, if_pos (Nat.lt_succ_self n)]
      -- the slots round `n` reads are as they were
      refine hv _ _ _ fun n' hle => ?_
      rw [ih, if_neg (Nat.not_lt.mpr hle)]
    · rw [Function.update_of_ne hn, ih]
      by_cases hlt : n < k
      · rw [if_pos hlt, if_pos (Nat.lt_succ_of_lt hlt)]
      · rw [if_neg hlt, if_neg (by omega)]

end Update

end EeKernel.Lib
