import EeKernel.Alarm.DueBatch

/-!
# Release and the timer

`func_800025B0` turns the compare interrupt off with the last alarm and otherwise
leaves timer 3 alone.  The head of the queue is gone by then and `T3_COMP` still
holds its target, so that the timer is right only if the next alarm has the same
one.

The bit the release tests is the one `id` names modulo 64, which is also all
that stands before a record outside of the table.
-/

namespace EeKernel.Alarm

open EeKernel.Lib

theorem forall₂_mem_right {α β : Type} {R : α → β → Prop} {l₁ : List α} {l₂ : List β}
    (h : List.Forall₂ R l₁ l₂) {b : β} (hb : b ∈ l₂) : ∃ a ∈ l₁, R a b := by
  induction h with
  | nil => cases hb
  | cons hab _ ih =>
    rcases List.mem_cons.mp hb with rfl | hb
    · exact ⟨_, List.mem_cons_self, hab⟩
    · obtain ⟨a, ha, hR⟩ := ih hb
      exact ⟨a, List.mem_cons_of_mem _ ha, hR⟩

/-! ## The compare value after a release -/

/-- The next compare interrupt, which comes at `T3_COMP`, runs just callbacks
with this target. -/
def OnTime (s : State) : Prop :=
  0 < s.D_8001C230.toInt → ∀ (ε : Type) (C : UserCall → Machine ε → Machine ε) (m : Machine ε),
    Quiet C → m.state = s → ∃ m' calls,
      (∀ fuel, 64 < fuel → func_80002690 C fuel m = some (m', calls)) ∧
        ∀ call ∈ calls, call.target = s.T3_COMP &&& 0xffff

section Compare

variable {s s₀ s' : State} {i j k : Fin 64} {l : List (Fin 64)} {t : Word}

theorem batch_target {t : Fin 64 → Word} (hk : k ∈ batch t i l) :
    t k &&& 0xffff = t i &&& 0xffff := by
  induction l generalizing i with
  | nil => rw [List.mem_singleton.mp hk]
  | cons j l ih =>
    rw [batch] at hk
    by_cases hij : t i &&& 0xffff = t j
    · rw [if_pos hij] at hk
      rcases List.mem_cons.mp hk with rfl | hk
      · rfl
      · rw [ih hk, ← hij, BitVec.and_assoc, BitVec.and_self]
    · rw [if_neg hij] at hk
      rw [List.mem_singleton.mp hk]

/-- A release leaves the queue that the expiry of the head would leave. -/
theorem Released.sameQueue (R : Released s i s') : SameQueue (dequeue s) s' where
  count := R.count
  records := R.records
  queue n _ := by
    rw [R.queue, R.count]
    rfl

/-- The bits play no part in what fires, so they need not be those of the queue. -/
theorem SameQueue.onTime (h : SameQueue s₀ s') (H : Holds s₀ (k :: l))
    (hk : s'.T3_COMP = target s₀ k) : OnTime s' := by
  rintro - ε C m hC rfl
  obtain ⟨m₀, calls₀, hrun₀, E⟩ :=
    func_80002690_spec (m := { m with state := s₀ }) hC.leavesTables H
  have hsame : SameQueue { m with state := Alarm.rearm s₀ }.state
      { m with state := Alarm.rearm m.state }.state :=
    h.untouched (rearm_untouched s₀) (rearm_untouched m.state)
  obtain ⟨m', calls, hrun, -, hcalls⟩ :=
    fireAll_same (fun _ _ h => h) (fun _ _ _ _ h => h.dequeue) (fun _ _ _ _ h => h.untouched)
      hC.leavesTables hC.leavesTables hsame H.rearm (hrun₀ 65 (by omega))
  refine ⟨m', calls, fun fuel hfuel => fireAll_mono hrun hfuel, fun call hcall => ?_⟩
  obtain ⟨call₀, hcall₀, hcall⟩ := forall₂_mem_right hcalls hcall
  obtain ⟨a, ha, hfires⟩ := forall₂_mem_right E.fired hcall₀
  have htarget : call.target = call₀.target := by rw [hcall]
  rw [htarget, hfires.target, batch_target ha, hk]

/-- What a release writes to the timer. -/
theorem func_800025B0_timer (hi : i ∈ active s) (t : Word) :
    (func_800025B0 t s (idWord i)).1.T3_MODE =
        (if s.D_8001C230 - 1 = 0 then 0x83 else s.T3_MODE) ∧
      (func_800025B0 t s (idWord i)).1.T3_COMP = s.T3_COMP := by
  unfold func_800025B0
  rw [if_neg (bit_of_active hi)]
  exact ⟨rfl, rfl⟩

theorem Released.armed_one (R : Released s i s') (hmode : s'.T3_MODE = 0x83)
    (H : Holds s [j]) : Armed s' ∧ OnTime s' := by
  have hpos : ¬ 0 < s'.D_8001C230.toInt := by
    rw [(R.queued H).1]
    decide
  have henabled : enabled s' = false := by
    rw [enabled, hmode]
    decide
  refine ⟨⟨?_, fun h => absurd h hpos⟩, fun h => absurd h hpos⟩
  rw [henabled]
  exact iff_of_false Bool.false_ne_true hpos

theorem Released.armed_more (R : Released s i s') (hmode : s'.T3_MODE = s.T3_MODE)
    (hcomp : s'.T3_COMP = s.T3_COMP) (H : Holds s (j :: k :: l)) (hA : Armed s) :
    (Armed s' ∧ OnTime s') ↔ target s k = target s j := by
  have hlen := H.length_le
  rw [List.length_cons] at hlen
  have hcount : 0 < s.D_8001C230.toInt := by
    rw [H.toInt_count, List.length_cons]
    omega
  have hcount' : 0 < s'.D_8001C230.toInt := by
    rw [(R.queued H).1, toInt_ofNat (by omega), List.length_cons]
    omega
  have Hd := H.dequeue
  have hhead : s'.D_8001C738 0 = byte k := by
    rw [R.sameQueue.head, Hd.head]
  have htarget : (s'.D_8001C238 (ofChar (s'.D_8001C738 0))).target = target s k := by
    rw [hhead, ofChar_byte, R.records, target]
  have hj : s'.T3_COMP = target s j := by
    rw [hcomp, hA.comp hcount, H.ofChar_head, target]
  constructor
  · rintro ⟨hA', -⟩
    rw [← hj, hA'.comp hcount', htarget]
  · intro hkj
    refine ⟨⟨?_, fun _ => ?_⟩, R.sameQueue.onTime Hd (hj.trans hkj.symm)⟩
    · rw [enabled, hmode, ← enabled, hA.enabled]
      exact iff_of_true hcount hcount'
    · rw [hj, htarget, hkj]

end Compare

/-- **Release.**  The timer stays armed, and no callback runs early, exactly if
the alarm was the last one or the second on the queue has the target of the
first. -/
theorem release_armed_iff {s : State} {i : Fin 64} (h : Consistent s) (hA : Armed s)
    (hi : i ∈ active s) (t : Word) :
    (Armed (func_800025B0 t s (idWord i)).1 ∧ OnTime (func_800025B0 t s (idWord i)).1) ↔
      s.D_8001C230 = 1 ∨ (s.D_8001C238 (ofChar (s.D_8001C738 1))).target =
        (s.D_8001C238 (ofChar (s.D_8001C738 0))).target := by
  obtain ⟨l, H⟩ := consistent_iff.mp h
  have R := func_800025B0_spec hi t
  obtain ⟨hmode, hcomp⟩ := func_800025B0_timer hi t
  cases l with
  | nil => exact absurd (H.active.mem_iff.mpr hi) List.not_mem_nil
  | cons j l =>
    cases l with
    | nil =>
      have hone : s.D_8001C230 = 1 := H.count
      rw [hone] at hmode
      exact iff_of_true (R.armed_one hmode H) (.inl hone)
    | cons k l =>
      have hcount : ¬ s.D_8001C230 - 1 = 0 := by
        intro h
        exact H.count_ne_one (BitVec.sub_eq_iff_eq_add.mp h)
      rw [if_neg hcount] at hmode
      rw [R.armed_more hmode hcomp H hA, H.ofChar_next, H.ofChar_head, ← target, ← target]
      exact (or_iff_right H.count_ne_one).symm

theorem twoAlarms_armed : Armed (twoAlarms 5 9) where
  enabled := by decide
  comp _ := by decide

/-- The first of two alarms is released: the timer keeps its target, and goes off
before the other one's. -/
theorem release_keeps_compare :
    let s := twoAlarms 5 9
    let s' := (func_800025B0 0 s (idWord 0)).1
    Run s ∧ Armed s ∧ (0 : Fin 64) ∈ active s ∧ queued s' = [byte 1] ∧ s'.T3_COMP = 5 ∧
      (s'.D_8001C238 (idWord 1)).target = 9 ∧ ¬ Armed s' ∧ ¬ OnTime s' := by
  intro s s'
  have hs : Run s := twoAlarms_run 5 9
  have H : Holds s' [1] :=
    (func_800025B0_spec (by decide : (0 : Fin 64) ∈ active s) 0).holds ⟨rfl, rfl, by decide⟩
  refine ⟨hs, twoAlarms_armed, by decide, H.queue, by decide, by decide, fun hA => ?_, fun hT => ?_⟩
  · have hcomp := hA.comp (by decide)
    rw [H.ofChar_head] at hcomp
    exact absurd hcomp (by decide)
  · let m : Machine Unit := { state := s', D_800174E4 := 0, gp := 0, env := () }
    obtain ⟨m', calls, hrun, htarget⟩ := hT (by decide) Unit idleCallback m idleCallback_quiet rfl
    -- the one call there is has the target of the second alarm
    obtain ⟨m₂, calls₂, hrun₂, E⟩ := func_80002690_spec (m := m) idleCallback_quiet.leavesTables H
    have hw := Option.some.inj ((hrun 65 (by omega)).symm.trans (hrun₂ 65 (by omega)))
    cases hw
    obtain ⟨call, calls', hcall, -, rfl⟩ := List.forall₂_cons_left_iff.mp E.fired
    have h := htarget call List.mem_cons_self
    rw [hcall.target] at h
    exact absurd h (by decide)

theorem release_armed_iff_first :
    (Armed (func_800025B0 0 (twoAlarms 5 9) (idWord 0)).1 ∧
        OnTime (func_800025B0 0 (twoAlarms 5 9) (idWord 0)).1) ↔
      (twoAlarms 5 9).D_8001C230 = 1 ∨
        ((twoAlarms 5 9).D_8001C238 (ofChar ((twoAlarms 5 9).D_8001C738 1))).target =
          ((twoAlarms 5 9).D_8001C238 (ofChar ((twoAlarms 5 9).D_8001C738 0))).target :=
  release_armed_iff (twoAlarms_run 5 9).consistent twoAlarms_armed (by decide) 0

/-! ## Ids of no alarm -/

/-- The release of `id` is turned down: nothing is changed and no record outside
of the table is looked at. -/
structure Refused (t : Word) (s : State) (id : Word) : Prop where
  value : (func_800025B0 t s id).2 = -1
  bits : (func_800025B0 t s id).1.D_8001C228 = s.D_8001C228
  count : (func_800025B0 t s id).1.D_8001C230 = s.D_8001C230
  queue : (func_800025B0 t s id).1.D_8001C738 = s.D_8001C738
  mode : (func_800025B0 t s id).1.T3_MODE = s.T3_MODE
  unread : ∀ records, (∀ i : Fin 64, records (idWord i) = s.D_8001C238 (idWord i)) →
    (func_800025B0 t { s with D_8001C238 := records } id).2 = -1

section Refused

variable {s : State} {id t : Word}

theorem refused_of_clear (h : s.D_8001C228.getLsbD (id.toNat % 64) = false) :
    Refused t s id := by
  have hs : ∀ records, func_800025B0 t { s with D_8001C238 := records } id =
      ({ s with D_8001C238 := records }, -1) := by
    intro records
    unfold func_800025B0
    exact if_pos (shift_and_one.mpr h)
  have hown := hs s.D_8001C238
  refine ⟨?_, ?_, ?_, ?_, ?_, fun records _ => by rw [hs]⟩
  all_goals
    rw [hown]

/-- An id that passes the test is counted out, whatever it is. -/
theorem count_of_set (h : s.D_8001C228.getLsbD (id.toNat % 64) = true) :
    (func_800025B0 t s id).1.D_8001C230 = s.D_8001C230 - 1 := by
  have hset : ¬ (s.D_8001C228 >>> (id.toNat % 64)) &&& 1 = 0 := by
    rw [shift_and_one, h]
    nofun
  unfold func_800025B0
  rw [if_neg hset]

theorem Refused.clear (h : Refused t s id) : s.D_8001C228.getLsbD (id.toNat % 64) = false := by
  by_contra hset
  rw [Bool.not_eq_false] at hset
  have hcount : s.D_8001C230 - 1 = s.D_8001C230 := (count_of_set hset).symm.trans h.count
  have hone : (1 : Word) = 0 := BitVec.self_eq_add_right.mp (BitVec.sub_eq_iff_eq_add.mp hcount)
  exact absurd hone (by decide)

end Refused

/-- **Refusal.**  An id is turned down exactly if no active alarm has its number
modulo 64. -/
theorem release_refused_iff (t : Word) (s : State) (id : Word) :
    Refused t s id ↔ ∀ i ∈ active s, (i : Nat) ≠ id.toNat % 64 := by
  have hlt : id.toNat % 64 < 64 := Nat.mod_lt _ (by omega)
  constructor
  · intro h i hi hmod
    have hclear := h.clear
    rw [← hmod, mem_setBits.mp hi] at hclear
    cases hclear
  · intro h
    apply refused_of_clear
    by_contra hset
    rw [Bool.not_eq_false] at hset
    exact h ⟨id.toNat % 64, hlt⟩ (mem_setBits.mpr hset) rfl

/-- Of two alarms none is number 64, yet its release takes one off and reads a
record past the table. -/
theorem release_takes_wrapped_id :
    let s := twoAlarms 5 9
    Run s ∧ (∀ i ∈ active s, idWord i ≠ 64) ∧ (func_800025B0 0 s 64).2 ≠ -1 ∧
      active (func_800025B0 0 s 64).1 = [1] ∧ (func_800025B0 0 s 64).1.D_8001C230 = 1 ∧
      queued (func_800025B0 0 s 64).1 = [byte 1] ∧
      ∃ records, (∀ i : Fin 64, records (idWord i) = s.D_8001C238 (idWord i)) ∧
        (func_800025B0 0 { s with D_8001C238 := records } 64).2 ≠ (func_800025B0 0 s 64).2 := by
  intro s
  have hne : ∀ i : Fin 64, idWord i ≠ 64 := by decide
  refine ⟨twoAlarms_run 5 9, fun i _ => hne i, by decide, by decide, by decide, by decide, ?_⟩
  let other : Record := { s.D_8001C238 64 with time := 1 }
  refine ⟨Function.update s.D_8001C238 64 other, fun i => ?_, by decide⟩
  exact Function.update_of_ne (hne i) _ _

end EeKernel.Alarm
