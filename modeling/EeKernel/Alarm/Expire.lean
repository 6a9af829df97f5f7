import EeKernel.Alarm.Queue

/-!
# Expiry

`func_80002690` fires the head of the queue and goes on while the next alarm has
the target of the one just fired.  `batch` and `left` say this of the list of
ids: the first are fired in order, the second stay queued.
-/

namespace EeKernel.Alarm

open EeKernel.Lib

def target (s : State) (i : Fin 64) : Word := (s.D_8001C238 (idWord i)).target

section Batch

variable (t : Fin 64 → Word)

/-- The alarms fired with `i`, the queue behind it being `l`. -/
def batch : Fin 64 → List (Fin 64) → List (Fin 64)
  | i, [] => [i]
  | i, j :: l => if t i &&& 0xffff = t j then i :: batch j l else [i]

/-- The alarms still queued after `i` was fired. -/
def left : Fin 64 → List (Fin 64) → List (Fin 64)
  | _, [] => []
  | i, j :: l => if t i &&& 0xffff = t j then left j l else j :: l

theorem batch_append_left (i : Fin 64) (l : List (Fin 64)) :
    batch t i l ++ left t i l = i :: l := by
  induction l generalizing i with
  | nil => rfl
  | cons j l ih =>
    rw [batch, left]
    split
    · rw [List.cons_append, ih]
    · rfl

theorem left_sublist (i : Fin 64) (l : List (Fin 64)) : (left t i l).Sublist (i :: l) :=
  batch_append_left t i l ▸ List.sublist_append_right _ _

end Batch

/-- The alarm tables of `s'` are those of `s`. -/
structure Untouched (s s' : State) : Prop where
  bits : s'.D_8001C228 = s.D_8001C228
  count : s'.D_8001C230 = s.D_8001C230
  records : s'.D_8001C238 = s.D_8001C238
  queue : s'.D_8001C738 = s.D_8001C738

/-- The callbacks leave the alarm tables alone. -/
def LeavesTables {ε : Type} (C : UserCall → Machine ε → Machine ε) : Prop :=
  ∀ call s, Untouched s.state (C call s).state

/-- The callbacks leave the alarm tables and the timer alone. -/
def Quiet {ε : Type} (C : UserCall → Machine ε → Machine ε) : Prop :=
  ∀ call s, (C call s).state = s.state

theorem Quiet.leavesTables {ε : Type} {C : UserCall → Machine ε → Machine ε} (hC : Quiet C) :
    LeavesTables C := by
  intro call s
  rw [hC]
  exact ⟨rfl, rfl, rfl, rfl⟩

/-- The call alarm `i` is owed. -/
structure Fires (s : State) (i : Fin 64) (call : UserCall) : Prop where
  aidx : call.aidx = idWord i
  handler : call.handler = (s.D_8001C238 (idWord i)).handler
  target : call.target = target s i &&& 0xffff
  arg : call.arg = (s.D_8001C238 (idWord i)).arg
  gp : call.gp = (s.D_8001C238 (idWord i)).gp

section Fire

variable {ε : Type} {C : UserCall → Machine ε → Machine ε} {s : Machine ε} {i : Fin 64}
  {l : List (Fin 64)}

theorem Holds.congr {s s' : State} (H : Holds s l) (h : Untouched s s') : Holds s' l where
  count := h.count.trans H.count
  queue := by rw [queued, h.count, h.queue, ← queued, H.queue]
  active := by
    rw [Alarm.active, h.bits]
    exact H.active

theorem Holds.dequeue {s : State} (H : Holds s (i :: l)) : Holds (dequeue s) l := by
  have hshift : Shifted s (Alarm.dequeue s) := ⟨rfl, rfl⟩
  apply hshift.holds H
  simp only [Alarm.dequeue, H.ofChar_head]

theorem fire_untouched (hC : LeavesTables C) (s : Machine ε) :
    Untouched (Alarm.dequeue s.state) (fire C s).1.state :=
  hC (fire C s).2 { s with state := Alarm.dequeue s.state, gp := (fire C s).2.gp }

theorem fire_spec (hC : LeavesTables C) (H : Holds s.state (i :: l)) :
    Holds (fire C s).1.state l ∧ (fire C s).1.state.D_8001C238 = s.state.D_8001C238 ∧
      (fire C s).1.gp = s.gp ∧ Fires s.state i (fire C s).2 := by
  have hkept := fire_untouched hC s
  refine ⟨H.dequeue.congr hkept, hkept.records, rfl, ?_⟩
  simp only [fire, userCall, H.ofChar_head]
  exact ⟨rfl, rfl, rfl, rfl, rfl⟩

theorem target_congr {s s' : State} (h : s'.D_8001C238 = s.D_8001C238) :
    Alarm.target s' = Alarm.target s := by
  funext k
  rw [Alarm.target, Alarm.target, h]

theorem Fires.congr {s s' : State} {call : UserCall} (hf : Fires s' i call)
    (h : s'.D_8001C238 = s.D_8001C238) : Fires s i call := by
  obtain ⟨aidx, handler, htarget, arg, gp⟩ := hf
  rw [target_congr h] at htarget
  rw [h] at handler arg gp
  exact ⟨aidx, handler, htarget, arg, gp⟩

theorem again_iff {s : State} {w : Word} (H : Holds s l) :
    again w s ↔ ∃ j l', l = j :: l' ∧ w = target s j := by
  rw [again, H.toInt_count]
  cases l with
  | nil => simp
  | cons j l' =>
    rw [H.ofChar_head]
    constructor
    · rintro ⟨-, h⟩
      exact ⟨j, l', rfl, h⟩
    · rintro ⟨_, _, ⟨⟩, h⟩
      exact ⟨by simp, h⟩

/-- What the loop leaves of a queue `i :: l`. -/
structure Expired (s : Machine ε) (i : Fin 64) (l : List (Fin 64)) (s' : Machine ε)
    (calls : List UserCall) : Prop where
  holds : Holds s'.state (left (target s.state) i l)
  fired : List.Forall₂ (Fires s.state) (batch (target s.state) i l) calls
  records : s'.state.D_8001C238 = s.state.D_8001C238
  gp : s'.gp = s.gp

theorem Expired.stop (hC : LeavesTables C) (H : Holds s.state (i :: l))
    (hb : batch (target s.state) i l = [i]) (hl : left (target s.state) i l = l) :
    Expired s i l (fire C s).1 [(fire C s).2] := by
  obtain ⟨H', hrecords, hgp, hfires⟩ := fire_spec hC H
  refine ⟨?_, ?_, hrecords, hgp⟩
  · rw [hl]
    exact H'
  · rw [hb]
    exact .cons hfires .nil

theorem Expired.next (hC : LeavesTables C) {j : Fin 64} (H : Holds s.state (i :: j :: l))
    {s' : Machine ε} {calls : List UserCall} (E : Expired (fire C s).1 j l s' calls)
    (hij : target s.state i &&& 0xffff = target s.state j) :
    Expired s i (j :: l) s' ((fire C s).2 :: calls) := by
  obtain ⟨-, hrecords, hgp, hfires⟩ := fire_spec hC H
  obtain ⟨holds, fired, records, gp⟩ := E
  rw [target_congr hrecords] at holds fired
  refine ⟨?_, ?_, records.trans hrecords, gp.trans hgp⟩
  · rw [left, if_pos hij]
    exact holds
  · rw [batch, if_pos hij]
    exact .cons hfires (fired.imp fun k call h => h.congr hrecords)

theorem fireAll_succ (C : UserCall → Machine ε → Machine ε) (fuel : Nat) (s : Machine ε) :
    fireAll C (fuel + 1) s =
      if again (fire C s).2.target (fire C s).1.state then
        (fireAll C fuel (fire C s).1).map fun w => (w.1, (fire C s).2 :: w.2)
      else some ((fire C s).1, [(fire C s).2]) := rfl

theorem fireAll_mono {fuel fuel' : Nat} {w : Machine ε × List UserCall}
    (h : fireAll C fuel s = some w) (hle : fuel ≤ fuel') : fireAll C fuel' s = some w := by
  induction fuel generalizing s w fuel' with
  | zero => cases h
  | succ fuel ih =>
    obtain ⟨k, rfl⟩ := Nat.exists_eq_add_of_lt (Nat.lt_of_succ_le hle)
    rw [fireAll_succ] at h ⊢
    split at h
    · rename_i hagain
      rw [Option.map_eq_some_iff] at h
      obtain ⟨w', hw', rfl⟩ := h
      rw [if_pos hagain, ih hw' (Nat.le_add_right fuel k)]
      rfl
    · rename_i hagain
      rw [if_neg hagain]
      exact h

/-- What no round changes of the tables or the timer, the loop does not. -/
theorem fireAll_keeps {α : Type} {f : State → α}
    (hfire : ∀ s : Machine ε, f (fire C s).1.state = f s.state) {fuel : Nat} {s' : Machine ε}
    {calls : List UserCall} (h : fireAll C fuel s = some (s', calls)) : f s'.state = f s.state := by
  induction fuel generalizing s calls with
  | zero => cases h
  | succ fuel ih =>
    rw [fireAll_succ] at h
    split at h
    · rw [Option.map_eq_some_iff] at h
      obtain ⟨⟨s₁, calls₁⟩, h₁, heq⟩ := h
      cases heq
      exact (ih h₁).trans (hfire s)
    · cases h
      exact hfire s

/-- The loop fires the batch, with a round for each alarm of the queue at most. -/
theorem fireAll_spec (hC : LeavesTables C) (H : Holds s.state (i :: l)) :
    ∃ s' calls, (∀ fuel, l.length < fuel → fireAll C fuel s = some (s', calls)) ∧
      Expired s i l s' calls := by
  induction l generalizing i s with
  | nil =>
    obtain ⟨H', -⟩ := fire_spec hC H
    have hstop : ¬ again (fire C s).2.target (fire C s).1.state := by
      rw [again_iff H']
      rintro ⟨_, _, ⟨⟩, _⟩
    refine ⟨_, _, fun fuel hfuel => ?_, .stop hC H rfl rfl⟩
    obtain ⟨fuel, rfl⟩ := Nat.exists_eq_add_of_lt hfuel
    exact if_neg hstop
  | cons j l ih =>
    obtain ⟨H', hrecords, -, hfires⟩ := fire_spec hC H
    have hagain : again (fire C s).2.target (fire C s).1.state ↔
        target s.state i &&& 0xffff = target s.state j := by
      rw [again_iff H', hfires.target, target_congr hrecords]
      constructor
      · rintro ⟨_, _, ⟨⟩, h⟩
        exact h
      · exact fun h => ⟨j, l, rfl, h⟩
    by_cases hij : target s.state i &&& 0xffff = target s.state j
    · obtain ⟨s', calls, hrun, E⟩ := ih H'
      refine ⟨s', _, fun fuel hfuel => ?_, E.next hC H hij⟩
      obtain ⟨fuel, rfl⟩ := Nat.exists_eq_add_of_lt hfuel
      have hlen : l.length < (j :: l).length + fuel := by
        rw [List.length_cons]
        omega
      rw [fireAll_succ, if_pos (hagain.mpr hij), hrun _ hlen]
      rfl
    · refine ⟨_, _, fun fuel hfuel => ?_, .stop hC H ?_ ?_⟩
      · obtain ⟨fuel, rfl⟩ := Nat.exists_eq_add_of_lt hfuel
        exact if_neg (hagain.not.mpr hij)
      · rw [batch, if_neg hij]
      · rw [left, if_neg hij]

end Fire

/-! ## The interrupt -/

section Interrupt

variable {s s' : State} {i : Fin 64} {l : List (Fin 64)}

/-- Only the timer is written. -/
theorem rearm_eq (s : State) :
    rearm s = { s with T3_MODE := (rearm s).T3_MODE, T3_COMP := (rearm s).T3_COMP } := by
  unfold rearm
  split <;> rfl

theorem rearm_untouched (s : State) : Untouched s (rearm s) := by
  rw [rearm_eq]
  exact ⟨rfl, rfl, rfl, rfl⟩

theorem target_rearm (s : State) : target (rearm s) = target s :=
  target_congr (rearm_untouched s).records

theorem Holds.rearm (H : Holds s l) : Holds (rearm s) l := H.congr (rearm_untouched s)

/-- Setting the timer changes nothing of what is fired. -/
theorem Expired.of_rearm {ε : Type} {m m' : Machine ε} {calls : List UserCall}
    (E : Expired { m with state := Alarm.rearm m.state } i l m' calls) : Expired m i l m' calls := by
  obtain ⟨holds, fired, records, gp⟩ := E
  have hrecords := (rearm_untouched m.state).records
  rw [target_rearm] at holds fired
  exact ⟨holds, fired.imp fun k call h => h.congr hrecords, records.trans hrecords, gp⟩

theorem func_80002690_spec {ε : Type} {C : UserCall → Machine ε → Machine ε} {m : Machine ε}
    (hC : LeavesTables C) (H : Holds m.state (i :: l)) :
    ∃ m' calls, (∀ fuel, 64 < fuel → func_80002690 C fuel m = some (m', calls)) ∧
      Expired m i l m' calls := by
  have H' : Holds { m with state := Alarm.rearm m.state }.state (i :: l) := H.rearm
  obtain ⟨m', calls, hrun, E⟩ := fireAll_spec hC H'
  have hlen := H.length_le
  rw [List.length_cons] at hlen
  exact ⟨m', calls, fun fuel hfuel => hrun fuel (by omega), E.of_rearm⟩

/-- The interrupt comes to the same with any fuel it returns on. -/
theorem expired_of_run {ε : Type} {C : UserCall → Machine ε → Machine ε} {m m' : Machine ε}
    {calls : List UserCall} {fuel : Nat} (hC : LeavesTables C) (H : Holds m.state (i :: l))
    (h : func_80002690 C fuel m = some (m', calls)) : Expired m i l m' calls := by
  obtain ⟨m₁, calls₁, hrun, E⟩ := func_80002690_spec hC H
  have hw := hrun (fuel + 65) (by omega)
  rw [func_80002690] at hw h
  rw [fireAll_mono h (Nat.le_add_right fuel 65)] at hw
  cases hw
  exact E

/-- What was last written to the timer is the same. -/
structure SameTimer (s s' : State) : Prop where
  mode : s'.T3_MODE = s.T3_MODE
  comp : s'.T3_COMP = s.T3_COMP

/-- The timer is written before the first round. -/
theorem func_80002690_timer {ε : Type} {C : UserCall → Machine ε → Machine ε} {m m' : Machine ε}
    {calls : List UserCall} {fuel : Nat} (hC : Quiet C)
    (h : func_80002690 C fuel m = some (m', calls)) : SameTimer (Alarm.rearm m.state) m'.state := by
  have hfire : ∀ m : Machine ε, (fire C m).1.state = dequeue m.state := fun _ => hC _ _
  constructor
  · refine fireAll_keeps (f := State.T3_MODE) (fun m => ?_) h
    rw [hfire]
    rfl
  · refine fireAll_keeps (f := State.T3_COMP) (fun m => ?_) h
    rw [hfire]
    rfl

end Interrupt

end EeKernel.Alarm
