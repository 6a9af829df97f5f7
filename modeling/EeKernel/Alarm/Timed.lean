import EeKernel.Lib.Countdown
import EeKernel.Lib.Lts
import EeKernel.Alarm.Release

/-!
# The alarms against the clock

`T3_COUNT` goes up by one each tick and wraps at 16 bits.  When it comes to
`T3_COMP` with the compare interrupt enabled, `func_80002690` is served, before
the next tick.  As long as no two alarms that follow each other on the queue have
one target, each of them is fired when the count is its own.

Without the clock, interrupts alone empty the queue, whatever the targets are.
-/

namespace EeKernel.Alarm

open EeKernel.Lib

/-- The count at which an alarm is due. -/
def deadline (s : State) (i : Fin 64) : BitVec 16 := (target s i).setWidth 16

/-- Timer 3 asks for its interrupt at this count. -/
def Matches (s : State) (count : BitVec 16) : Prop :=
  enabled s = true ∧ s.T3_COMP.setWidth 16 = count

/-- A tick, and the calls made at the new count. -/
inductive Tick : State × BitVec 16 → List (BitVec 16 × UserCall) → State × BitVec 16 → Prop
  | quiet {s : State} {c : BitVec 16} (h : ¬ Matches s (c + 1)) : Tick (s, c) [] (s, c + 1)
  | served {ε : Type} {C : UserCall → Machine ε → Machine ε} {m m' : Machine ε}
      {calls : List UserCall} {c : BitVec 16} (h : Matches m.state (c + 1)) (hC : Quiet C)
      (fuel : Nat) (hrun : func_80002690 C fuel m = some (m', calls)) :
      Tick (m.state, c) (calls.map fun call => (c + 1, call)) (m'.state, c + 1)

def timer : Lts (State × BitVec 16) (List (BitVec 16 × UserCall)) where
  init s := Consistent s.1 ∧ Armed s.1
  step := Tick

/-- The timer is armed for the queue `l`, and no alarm has the target of the one before. -/
structure Scheduled (s : State) (l : List (Fin 64)) : Prop where
  holds : Holds s l
  armed : Armed s
  fits : ∀ i ∈ l, (target s i).toNat ≤ 0xffff
  apart : l.IsChain fun i j => target s i ≠ target s j

/-- The call is the one alarm `i` is owed, at its own time. -/
structure FiresAt (s : State) (i : Fin 64) (x : BitVec 16 × UserCall) : Prop where
  fires : Fires s i x.2
  count : x.1 = deadline s i

/-! ## One tick -/

section Tick

variable {s s' : State} {c c' : BitVec 16} {l : List (Fin 64)} {i : Fin 64}
  {x : List (BitVec 16 × UserCall)}

theorem Scheduled.matches_iff (S : Scheduled s l) :
    Matches s c ↔ ∃ i l', l = i :: l' ∧ c = deadline s i := by
  have hpos : 0 < s.D_8001C230.toInt ↔ l ≠ [] := by
    rw [S.holds.toInt_count, ← List.length_pos_iff_ne_nil]
    omega
  rw [Matches, S.armed.enabled, hpos]
  cases l with
  | nil => simp
  | cons i l =>
    have hcomp := S.armed.comp (hpos.mpr (List.cons_ne_nil i l))
    rw [S.holds.ofChar_head, ← target] at hcomp
    constructor
    · rintro ⟨-, h⟩
      exact ⟨i, l, rfl, by rw [← h, hcomp, deadline]⟩
    · rintro ⟨_, _, ⟨⟩, rfl⟩
      exact ⟨List.cons_ne_nil i l, by rw [hcomp, deadline]⟩

/-- The head alone is fired, and the timer is armed for the next. -/
theorem Scheduled.expired {ε : Type} {m m' : Machine ε} {calls : List UserCall}
    (S : Scheduled m.state (i :: l)) (E : Expired m i l m' calls)
    (T : SameTimer (rearm m.state) m'.state) :
    Scheduled m'.state l ∧ ∃ call, calls = [call] ∧ Fires m.state i call := by
  have htarget := target_congr E.records
  have hi := and_ffff (S.fits i List.mem_cons_self)
  -- the next alarm has another target, so the loop stops after the head
  have hbatch : batch (target m.state) i l = [i] ∧ left (target m.state) i l = l := by
    cases l with
    | nil => exact ⟨rfl, rfl⟩
    | cons j l =>
      have hij := (List.isChain_cons_cons.mp S.apart).1
      rw [batch, left, hi, if_neg hij, if_neg hij]
      exact ⟨rfl, rfl⟩
  have hA := E.armed_iff T
  have hH := E.holds
  have hF := E.fired
  simp only [hbatch.1, hbatch.2] at hA hH hF
  refine ⟨⟨hH, hA.mpr ?_, ?_, ?_⟩, ?_⟩
  · cases l with
    | nil =>
      rw [rearm_one S.holds]
      exact ⟨by simp, by simp⟩
    | cons j l =>
      obtain ⟨henabled, hcomp⟩ := rearm_more S.holds
      refine ⟨iff_of_true henabled (List.cons_ne_nil j l), ?_⟩
      rintro _ _ ⟨⟩
      exact hcomp
  · intro j hj
    rw [htarget]
    exact S.fits j (List.mem_cons_of_mem i hj)
  · rw [htarget]
    exact List.isChain_of_isChain_cons S.apart
  · obtain ⟨call, calls', hfires, hnil, rfl⟩ := List.forall₂_cons_left_iff.mp hF
    obtain rfl := List.forall₂_nil_left_iff.mp hnil
    exact ⟨call, rfl, hfires⟩

/-- A tick brings the count to the head's target and fires it, or does nothing. -/
theorem Scheduled.tick (S : Scheduled s l) (step : Tick (s, c) x (s', c')) :
    c' = c + 1 ∧ s'.D_8001C238 = s.D_8001C238 ∧
      ((x = [] ∧ Scheduled s' l ∧ ∀ i l', l = i :: l' → c + 1 ≠ deadline s i) ∨
        ∃ i l' call, l = i :: l' ∧ c + 1 = deadline s i ∧ x = [(c + 1, call)] ∧
          Fires s i call ∧ Scheduled s' l') := by
  cases step with
  | quiet h =>
    rw [S.matches_iff] at h
    refine ⟨rfl, rfl, .inl ⟨rfl, S, fun i l' hl hc => h ⟨i, l', hl, hc⟩⟩⟩
  | @served ε C m m' calls _ h hC fuel hrun =>
    obtain ⟨i, l', rfl, hc⟩ := S.matches_iff.mp h
    have E := expired_of_run hC.leavesTables S.holds hrun
    obtain ⟨S', call, rfl, hfires⟩ := S.expired E (func_80002690_timer hC hrun)
    exact ⟨rfl, E.records, .inr ⟨i, l', call, rfl, hc, rfl, hfires, S'⟩⟩

theorem Scheduled.can_tick (S : Scheduled s l) (c : BitVec 16) :
    ∃ x s', Tick (s, c) x (s', c + 1) := by
  by_cases h : Matches s (c + 1)
  · obtain ⟨i, l', rfl, -⟩ := S.matches_iff.mp h
    let m : Machine Unit := { state := s, D_800174E4 := 0, gp := 0, env := () }
    obtain ⟨m', calls, hrun, -⟩ :=
      func_80002690_spec (m := m) idleCallback_quiet.leavesTables S.holds
    exact ⟨_, m'.state, .served (m := m) h idleCallback_quiet 65 (hrun 65 (by omega))⟩
  · exact ⟨[], s, .quiet h⟩

end Tick

/-! ## Every run -/

section Run

variable {s s' : State} {c c' : BitVec 16} {l : List (Fin 64)}
  {xs : List (List (BitVec 16 × UserCall))}

theorem deadline_congr {s₁ : State} (h : s₁.D_8001C238 = s.D_8001C238) :
    deadline s₁ = deadline s := by
  funext i
  rw [deadline, deadline, target_congr h]

theorem FiresAt.congr {s₁ : State} {i : Fin 64} {x : BitVec 16 × UserCall}
    (h : s₁.D_8001C238 = s.D_8001C238) (hx : FiresAt s₁ i x) : FiresAt s i x :=
  ⟨hx.fires.congr h, hx.count.trans (congrFun (deadline_congr h) i)⟩

theorem Scheduled.run (S : Scheduled s l) (run : timer.Exec (s, c) xs (s', c')) :
    List.Forall₂ (FiresAt s) (met (deadline s) c l xs.length) xs.flatten ∧
      Scheduled s' (l.drop (met (deadline s) c l xs.length).length) := by
  induction xs generalizing s c l with
  | nil =>
    cases run.of_nil
    rw [List.length_nil, met_zero]
    exact ⟨.nil, S⟩
  | cons x xs ih =>
    obtain ⟨⟨s₁, c₁⟩, hstep, hrest⟩ := run.head
    obtain ⟨rfl, hrecords, hcases⟩ := S.tick hstep
    have hdeadline := deadline_congr hrecords
    rw [List.length_cons, List.flatten_cons]
    rcases hcases with ⟨rfl, S₁, hno⟩ | ⟨i, l', call, rfl, hc, rfl, hfires, S₁⟩
    · obtain ⟨hcalls, S'⟩ := ih S₁ hrest
      have hmet : met (deadline s) c l (xs.length + 1) = met (deadline s) (c + 1) l xs.length := by
        cases l with
        | nil => rfl
        | cons i l => rw [met_succ, if_neg (hno i l rfl)]
      rw [hdeadline] at hcalls S'
      rw [hmet]
      exact ⟨hcalls.imp fun i x hx => hx.congr hrecords, S'⟩
    · obtain ⟨hcalls, S'⟩ := ih S₁ hrest
      rw [hdeadline] at hcalls S'
      rw [met_succ, if_pos hc]
      exact ⟨.cons ⟨hfires, hc⟩ (hcalls.imp fun i x hx => hx.congr hrecords), S'⟩

/-- Time can always go on. -/
theorem Scheduled.runs (S : Scheduled s l) (c : BitVec 16) (n : Nat) :
    ∃ xs s' c', xs.length = n ∧ timer.Exec (s, c) xs (s', c') := by
  induction n with
  | zero => exact ⟨[], s, c, rfl, .refl _⟩
  | succ n ih =>
    obtain ⟨xs, s₁, c₁, rfl, run⟩ := ih
    obtain ⟨-, S₁⟩ := S.run run
    obtain ⟨x, s₂, hstep⟩ := S₁.can_tick c₁
    exact ⟨xs ++ [x], s₂, c₁ + 1, by simp, .snoc run hstep⟩

/-- **On time.**  With the timer armed and no two alarms of one target in a row, the
calls of any number of ticks are those of the alarms whose turn has come, in the order
of the queue and each at the count of its target; the timer stays armed for the rest,
and a full turn of the counter for each alarm fires them all. -/
theorem alarms_on_time (H : Holds s l) (hA : Armed s)
    (hfits : ∀ i ∈ l, (target s i).toNat ≤ 0xffff)
    (hapart : l.IsChain fun i j => target s i ≠ target s j) :
    (∀ xs s' c', timer.Exec (s, c) xs (s', c') →
      List.Forall₂ (FiresAt s) (met (deadline s) c l xs.length) xs.flatten ∧
        Holds s' (l.drop (met (deadline s) c l xs.length).length) ∧ Armed s' ∧
        (2 ^ 16 * l.length ≤ xs.length → met (deadline s) c l xs.length = l)) ∧
      ∀ n, ∃ xs s' c', xs.length = n ∧ timer.Exec (s, c) xs (s', c') := by
  have S : Scheduled s l := ⟨H, hA, hfits, hapart⟩
  refine ⟨fun xs s' c' run => ?_, S.runs c⟩
  obtain ⟨hcalls, S'⟩ := S.run run
  exact ⟨hcalls, S'.holds, S'.armed, fun h => met_all _ c l h⟩

theorem alarms_on_time_two_alarms :
    ∃ xs s' c', xs.length = 2 ^ 17 ∧ timer.Exec (twoAlarms 5 9, 0) xs (s', c') ∧
      List.Forall₂ (FiresAt (twoAlarms 5 9)) [0, 1] xs.flatten ∧ Holds s' [] ∧ Armed s' := by
  have H : Holds (twoAlarms 5 9) [0, 1] := ⟨rfl, rfl, by decide⟩
  have hne : target (twoAlarms 5 9) 0 ≠ target (twoAlarms 5 9) 1 := by decide
  obtain ⟨hall, hruns⟩ := alarms_on_time (c := 0) H twoAlarms_armed
    (fun i _ => target_twoAlarms_le i) (List.isChain_cons_cons.mpr ⟨hne, .singleton 1⟩)
  obtain ⟨xs, s', c', hlen, run⟩ := hruns (2 ^ 17)
  obtain ⟨hcalls, H', hA', hfull⟩ := hall xs s' c' run
  have hmet : met (deadline (twoAlarms 5 9)) 0 [0, 1] xs.length = [0, 1] := by
    apply hfull
    rw [hlen]
    exact Nat.le_refl _
  rw [hmet] at hcalls H'
  exact ⟨xs, s', c', hlen, run, hcalls, H', hA'⟩

end Run

/-! ## Until the queue is empty -/

section Drain

variable {ε : Type} {C : UserCall → Machine ε → Machine ε} {m m' : Machine ε}
  {calls : List UserCall} {l : List (Fin 64)}

/-- One interrupt after the other until no alarm is left, with the calls made. -/
inductive Drains (C : UserCall → Machine ε → Machine ε) :
    Machine ε → List UserCall → Machine ε → Prop
  | done {m : Machine ε} (h : m.state.D_8001C230 = 0) : Drains C m [] m
  | more {m m₁ m' : Machine ε} {calls later : List UserCall} (h : m.state.D_8001C230 ≠ 0)
      (fuel : Nat) (hrun : func_80002690 C fuel m = some (m₁, calls))
      (rest : Drains C m₁ later m') : Drains C m (calls ++ later) m'

theorem Holds.count_eq_zero {s : State} (H : Holds s l) : s.D_8001C230 = 0 ↔ l = [] := by
  have hlen := H.length_le
  rw [H.count]
  constructor
  · intro h
    exact List.length_eq_zero_iff.mp (ofNat_inj (by omega) (by omega) h)
  · rintro rfl
    rfl

/-- An interrupt fires a first part of the queue and leaves the rest. -/
theorem interrupt_fires {i : Fin 64} (H : Holds m.state (i :: l)) (hC : LeavesTables C)
    {fuel : Nat} (hrun : func_80002690 C fuel m = some (m', calls)) :
    ∃ l₁ l₂, i :: l = l₁ ++ l₂ ∧ l₂.length ≤ l.length ∧ List.Forall₂ (Fires m.state) l₁ calls ∧
      Holds m'.state l₂ ∧ m'.state.D_8001C238 = m.state.D_8001C238 := by
  have E := expired_of_run hC H hrun
  have hsplit := batch_append_left (target m.state) i l
  refine ⟨_, _, hsplit.symm, ?_, E.fired, E.holds, E.records⟩
  have hpos : 0 < (batch (target m.state) i l).length := by
    cases l with
    | nil => exact Nat.one_pos
    | cons j l =>
      rw [batch]
      split <;> simp
  have hlen := congrArg List.length hsplit
  rw [List.length_append, List.length_cons] at hlen
  omega

theorem Holds.drains (H : Holds m.state l) (hC : LeavesTables C) :
    ∃ calls m', Drains C m calls m' := by
  obtain ⟨n, hn⟩ : ∃ n, l.length ≤ n := ⟨_, Nat.le_refl _⟩
  induction n generalizing m l with
  | zero =>
    have hnil := List.length_eq_zero_iff.mp (Nat.le_zero.mp hn)
    exact ⟨[], m, .done (H.count_eq_zero.mpr hnil)⟩
  | succ n ih =>
    cases l with
    | nil => exact ⟨[], m, .done (H.count_eq_zero.mpr rfl)⟩
    | cons i l =>
      obtain ⟨m₁, calls, hrun, -⟩ := func_80002690_spec hC H
      have hrun := hrun 65 (by omega)
      obtain ⟨-, l₂, -, hle, -, H₁, -⟩ := interrupt_fires H hC hrun
      rw [List.length_cons] at hn
      obtain ⟨later, m', rest⟩ := ih H₁ (by omega)
      exact ⟨calls ++ later, m', .more (H.count_eq_zero.not.mpr (by simp)) 65 hrun rest⟩

theorem Drains.fires (h : Drains C m calls m') (hC : LeavesTables C) (H : Holds m.state l) :
    List.Forall₂ (Fires m.state) l calls ∧ Holds m'.state [] := by
  induction h generalizing l with
  | done hzero =>
    obtain rfl := H.count_eq_zero.mp hzero
    exact ⟨.nil, H⟩
  | more hne fuel hrun rest ih =>
    cases l with
    | nil => exact absurd (H.count_eq_zero.mpr rfl) hne
    | cons i l =>
      obtain ⟨l₁, l₂, hsplit, -, hfired, H₁, hrecords⟩ := interrupt_fires H hC hrun
      obtain ⟨hlater, H'⟩ := ih H₁
      rw [hsplit]
      exact ⟨List.rel_append hfired (hlater.imp fun k call h => h.congr hrecords), H'⟩

/-- **No alarm is lost or fired twice.**  Whatever the targets, interrupts that go on
until the queue is empty come to an end, and have fired each alarm once, in order. -/
theorem drains_all (hC : LeavesTables C) (H : Holds m.state l) :
    (∃ calls m', Drains C m calls m') ∧
      ∀ calls m', Drains C m calls m' →
        List.Forall₂ (Fires m.state) l calls ∧ queued m'.state = [] ∧ active m'.state = [] := by
  refine ⟨H.drains hC, fun calls m' h => ?_⟩
  obtain ⟨hfired, H'⟩ := h.fires hC H
  exact ⟨hfired, H'.queue, List.nil_perm.mp H'.active⟩

/-- Two alarms of one target. -/
theorem drains_all_same_target :
    let m : Machine Unit := { state := twoAlarms 5 5, D_800174E4 := 0, gp := 0, env := () }
    (∃ calls m', Drains idleCallback m calls m') ∧
      ∀ calls m', Drains idleCallback m calls m' →
        List.Forall₂ (Fires m.state) [0, 1] calls ∧ queued m'.state = [] ∧
          active m'.state = [] := by
  intro m
  have H : Holds m.state [0, 1] := ⟨rfl, rfl, by decide⟩
  exact drains_all idleCallback_quiet.leavesTables H

end Drain

end EeKernel.Alarm
