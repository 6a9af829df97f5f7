import EeKernel.Alarm.Bookkeeping

/-!
# Arming the timer after an expiry

`func_80002690` sets timer 3 for the second alarm before it knows how many it is
going to fire.  That is right if the batch is the head alone, and also where the
head is all there is; if the second alarm falls due with the first, the timer is
left for a target that is gone.
-/

namespace EeKernel.Alarm

open EeKernel.Lib

/-- The compare interrupt is enabled in the value written to `T3_MODE`. -/
def enabled (s : State) : Bool := s.T3_MODE.getLsbD 8

/-- The timer is armed for exactly what is pending. -/
structure Armed (s : State) : Prop where
  enabled : enabled s = true ↔ 0 < s.D_8001C230.toInt
  comp : 0 < s.D_8001C230.toInt → s.T3_COMP = (s.D_8001C238 (ofChar (s.D_8001C738 0))).target

section Expire

variable {ε : Type} {C : UserCall → Machine ε → Machine ε} {m : Machine ε} {s : State}
  {i j : Fin 64} {l : List (Fin 64)}

theorem rearm_one (H : Holds s [i]) : enabled (rearm s) = false := by
  have h : ¬ s.D_8001C230.toInt ≥ 2 := by
    rw [H.toInt_count, List.length_singleton]
    decide
  rw [rearm, if_neg h]
  change (0x483 : Word).getLsbD 8 = false
  decide

theorem rearm_more (H : Holds s (i :: j :: l)) :
    enabled (rearm s) = true ∧ (rearm s).T3_COMP = target s j := by
  have h : s.D_8001C230.toInt ≥ 2 := by
    rw [H.toInt_count, List.length_cons, List.length_cons]
    omega
  rw [rearm, if_pos h, H.ofChar_next]
  refine ⟨?_, rfl⟩
  change (0x583 : Word).getLsbD 8 = true
  decide

theorem and_ffff {w : Word} (h : w.toNat ≤ 0xffff) : w &&& 0xffff = w := by
  apply BitVec.eq_of_toNat_eq
  rw [BitVec.toNat_and]
  exact (Nat.and_two_pow_sub_one_eq_mod _ 16).trans (Nat.mod_eq_of_lt (by omega))

/-- The alarm left at the head has another target than those fired. -/
theorem left_head {t : Fin 64 → Word} (ht : ∀ k ∈ i :: l, (t k).toNat ≤ 0xffff)
    {l' : List (Fin 64)} (h : left t i l = j :: l') : t i ≠ t j := by
  induction l generalizing i with
  | nil => cases h
  | cons k l ih =>
    have hi := and_ffff (ht i List.mem_cons_self)
    rw [left, hi] at h
    by_cases hik : t i = t k
    · rw [if_pos hik] at h
      rw [hik]
      exact ih (fun k' hk' => ht k' (List.mem_cons_of_mem i hk')) h
    · rw [if_neg hik] at h
      cases h
      exact hik

theorem Expired.armed_iff {m' : Machine ε} {calls : List UserCall} (E : Expired m i l m' calls)
    (T : SameTimer (rearm m.state) m'.state) :
    Armed m'.state ↔
      (enabled (rearm m.state) = true ↔ left (target m.state) i l ≠ []) ∧
        ∀ j l', left (target m.state) i l = j :: l' →
          (rearm m.state).T3_COMP = target m.state j := by
  have hcount : 0 < m'.state.D_8001C230.toInt ↔ left (target m.state) i l ≠ [] := by
    rw [E.holds.toInt_count, ← List.length_pos_iff_ne_nil]
    omega
  have henabled : enabled m'.state = enabled (rearm m.state) := by rw [enabled, T.mode, ← enabled]
  have hhead : ∀ {j l'}, left (target m.state) i l = j :: l' →
      (m'.state.D_8001C238 (ofChar (m'.state.D_8001C738 0))).target = target m.state j := by
    intro j l' hl
    have H := E.holds
    rw [hl] at H
    rw [H.ofChar_head, E.records, target]
  constructor
  · rintro ⟨hen, hcomp⟩
    rw [henabled, hcount] at hen
    refine ⟨hen, fun j l' hl => ?_⟩
    rw [← T.comp, hcomp (hcount.mpr (by simp [hl])), hhead hl]
  · rintro ⟨hen, hcomp⟩
    refine ⟨by rw [henabled, hcount, hen], fun hpos => ?_⟩
    obtain ⟨j, l', hl⟩ := List.exists_cons_of_ne_nil (hcount.mp hpos)
    rw [T.comp, hcomp j l' hl, hhead hl]

/-- **Arming.**  After an expiry the timer is armed for what is pending exactly
when the head was alone or the second alarm had another target. -/
theorem expiry_armed_iff (hC : Quiet C) (h : Consistent m.state)
    (hpos : 0 < m.state.D_8001C230.toInt)
    (htargets : ∀ i ∈ active m.state, (target m.state i).toNat ≤ 0xffff) :
    ∃ w, (∀ fuel, 64 < fuel → func_80002690 C fuel m = some w) ∧
      (Armed w.1.state ↔ m.state.D_8001C230 = 1 ∨
        (m.state.D_8001C238 (ofChar (m.state.D_8001C738 1))).target ≠
          (m.state.D_8001C238 (ofChar (m.state.D_8001C738 0))).target) := by
  obtain ⟨i, l, H⟩ := h.exists_cons hpos
  obtain ⟨m', calls, hrun, E⟩ := func_80002690_spec hC.leavesTables H
  have T := func_80002690_timer hC (hrun 65 (by omega))
  refine ⟨(m', calls), hrun, ?_⟩
  rw [E.armed_iff T]
  cases l with
  | nil =>
    have hone : m.state.D_8001C230 = 1 := H.count
    rw [rearm_one H]
    simp [left, hone]
  | cons j l =>
    obtain ⟨henabled, hcomp⟩ := rearm_more H
    rw [henabled, hcomp, H.ofChar_next, H.ofChar_head, ← target, ← target]
    have ht : ∀ k ∈ i :: j :: l, (target m.state k).toNat ≤ 0xffff :=
      fun k hk => htargets k (H.active.mem_iff.mp hk)
    rw [left, and_ffff (ht i List.mem_cons_self)]
    by_cases hij : target m.state i = target m.state j
    · -- the second alarm is fired with the first
      rw [if_pos hij]
      have hno : ¬ (m.state.D_8001C230 = 1 ∨ target m.state j ≠ target m.state i) := by
        rintro (hone | hne)
        · exact H.count_ne_one hone
        · exact hne hij.symm
      refine iff_of_false ?_ hno
      rintro ⟨hen, hall⟩
      obtain ⟨k, l', hl⟩ := List.exists_cons_of_ne_nil (hen.mp rfl)
      exact left_head (fun k' hk' => ht k' (List.mem_cons_of_mem i hk')) hl (hall k l' hl)
    · rw [if_neg hij]
      refine iff_of_true ⟨by simp, ?_⟩ (.inr fun h => hij h.symm)
      rintro _ _ ⟨⟩
      rfl

end Expire

/-- Two alarms with one target are fired together, and the timer stays enabled
with nothing pending. -/
theorem expiry_leaves_enabled :
    let m : Machine Unit := { state := twoAlarms 5 5, D_800174E4 := 0, gp := 0, env := () }
    Run m.state ∧ ∃ m' calls, func_80002690 idleCallback 65 m = some (m', calls) ∧
      m'.state.D_8001C230 = 0 ∧ enabled m'.state = true ∧ ¬ Armed m'.state := by
  intro m
  have H : Holds m.state [0, 1] := ⟨rfl, rfl, by decide⟩
  obtain ⟨m', calls, hrun, E⟩ := func_80002690_spec idleCallback_quiet.leavesTables H
  have T := func_80002690_timer idleCallback_quiet (hrun 65 (by omega))
  have hleft : left (target m.state) 0 [1] = [] := by decide
  have hcount : m'.state.D_8001C230 = 0 := by
    rw [E.holds.count, hleft]
    rfl
  have hen : enabled m'.state = true := by
    rw [enabled, T.mode, ← enabled]
    exact (rearm_more H).1
  refine ⟨twoAlarms_run 5 5, m', calls, hrun 65 (by omega), hcount, hen, fun hA => ?_⟩
  have hpos := hA.enabled.mp hen
  rw [hcount] at hpos
  exact absurd hpos (by decide)

theorem target_twoAlarms_le (i : Fin 64) : (target (twoAlarms 5 9) i).toNat ≤ 0xffff := by
  simp only [target, twoAlarms]
  split <;> decide

theorem expiry_armed_iff_two_alarms :
    let m : Machine Unit := { state := twoAlarms 5 9, D_800174E4 := 0, gp := 0, env := () }
    ∃ w, (∀ fuel, 64 < fuel → func_80002690 idleCallback fuel m = some w) ∧
      (Armed w.1.state ↔ m.state.D_8001C230 = 1 ∨
        (m.state.D_8001C238 (ofChar (m.state.D_8001C738 1))).target ≠
          (m.state.D_8001C238 (ofChar (m.state.D_8001C738 0))).target) := by
  intro m
  have h : Consistent m.state := (twoAlarms_run 5 9).consistent
  exact expiry_armed_iff idleCallback_quiet h (by decide) fun i _ => target_twoAlarms_le i

end EeKernel.Alarm
