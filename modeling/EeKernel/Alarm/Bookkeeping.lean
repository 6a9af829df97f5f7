import EeKernel.Alarm.Expire

/-!
# The alarm bookkeeping

`func_800025B0` clears the bit of the alarm it is given and shifts out the head
of the queue, whatever its id: what it leaves is consistent exactly when the two
are one.  Expiry takes off the head and its bit together and is always sound.
-/

namespace EeKernel.Alarm

open EeKernel.Lib

/-- The tables agree after the step, and the alarms still queued kept their order. -/
structure Kept (s s' : State) : Prop where
  consistent : Consistent s'
  order : (queued s').Sublist (queued s)

/-! ## Release -/

section Release

variable {s : State} {i j : Fin 64} {l : List (Fin 64)} {t : Word}

theorem shift_and_one {bits : BitVec 64} {k : Nat} :
    (bits >>> k) &&& 1 = 0 ↔ bits.getLsbD k = false := by
  have h := BitVec.and_one_eq_setWidth_ofBool_getLsbD (x := bits >>> k)
  rw [BitVec.getLsbD_ushiftRight, Nat.add_zero] at h
  rw [show (1 : BitVec 64) = 1#64 from rfl, h]
  cases bits.getLsbD k with
  | false => decide
  | true => decide

/-- The tables after the release of an active alarm. -/
structure Released (s : State) (i : Fin 64) (s' : State) : Prop extends Shifted s s' where
  bits : s'.D_8001C228 = s.D_8001C228 &&& ~~~oneShl (idWord i)
  records : s'.D_8001C238 = s.D_8001C238

theorem bit_of_active (hi : i ∈ active s) :
    ¬ (s.D_8001C228 >>> ((idWord i).toNat % 64)) &&& 1 = 0 := by
  rw [shift_and_one, toNat_idWord, Nat.mod_eq_of_lt i.isLt, mem_setBits.mp hi]
  decide

theorem func_800025B0_spec (hi : i ∈ active s) (t : Word) :
    Released s i (func_800025B0 t s (idWord i)).1 := by
  unfold func_800025B0
  rw [if_neg (bit_of_active hi)]
  exact ⟨⟨rfl, rfl⟩, rfl, rfl⟩

theorem Released.holds {s' : State} (R : Released s i s') (H : Holds s (i :: l)) : Holds s' l :=
  R.toShifted.holds H R.bits

/-- Releasing another alarm leaves the head active but off the queue. -/
theorem Released.inconsistent {s' : State} (R : Released s i s') (H : Holds s (j :: l))
    (hij : i ≠ j) : ¬ Consistent s' := by
  intro h
  obtain ⟨l', H'⟩ := consistent_iff.mp h
  have hl : l' = l := by
    refine List.map_injective_iff.mpr (fun a b => byte_inj.mp) ?_
    rw [← H'.queue, (R.toShifted.queued H).2]
  subst hl
  have hj : j ∈ active s' := by
    rw [active_clear R.bits]
    exact (List.mem_erase_of_ne hij.symm).mpr (H.active.mem_iff.mp List.mem_cons_self)
  exact (List.nodup_cons.mp H.nodup).1 (H'.active.mem_iff.mpr hj)

theorem Released.kept_iff {s' : State} (R : Released s i s') (h : Consistent s)
    (hi : i ∈ active s) : Kept s s' ↔ s.D_8001C738 0 = byte i := by
  obtain ⟨l, H⟩ := consistent_iff.mp h
  cases l with
  | nil => exact absurd (H.active.mem_iff.mpr hi) List.not_mem_nil
  | cons j l =>
    rw [H.head, byte_inj]
    constructor
    · intro K
      by_contra hij
      exact R.inconsistent H (fun h => hij h.symm) K.consistent
    · rintro rfl
      refine ⟨consistent_iff.mpr ⟨l, R.holds H⟩, ?_⟩
      rw [H.queue, (R.holds H).queue]
      exact (List.sublist_cons_self j l).map byte

end Release

/-! ## Expiry -/

theorem Expired.kept {ε : Type} {m m' : Machine ε} {i : Fin 64} {l : List (Fin 64)}
    {calls : List UserCall} (E : Expired m i l m' calls) (H : Holds m.state (i :: l)) :
    Kept m.state m'.state := by
  refine ⟨consistent_iff.mpr ⟨_, E.holds⟩, ?_⟩
  rw [H.queue, E.holds.queue]
  exact (left_sublist _ i l).map byte

theorem Consistent.exists_cons {s : State} (h : Consistent s) (hpos : 0 < s.D_8001C230.toInt) :
    ∃ i l, Holds s (i :: l) := by
  obtain ⟨l, H⟩ := consistent_iff.mp h
  cases l with
  | nil =>
    rw [H.toInt_count] at hpos
    exact absurd hpos (by simp)
  | cons i l => exact ⟨i, l, H⟩

theorem func_80002690_kept {ε : Type} {C : UserCall → Machine ε → Machine ε} {m : Machine ε}
    (hC : LeavesTables C) (h : Consistent m.state) (hpos : 0 < m.state.D_8001C230.toInt) :
    ∃ w, (∀ fuel, 64 < fuel → func_80002690 C fuel m = some w) ∧ Kept m.state w.1.state := by
  obtain ⟨i, l, H⟩ := h.exists_cons hpos
  obtain ⟨m', calls, hrun, E⟩ := func_80002690_spec hC H
  exact ⟨(m', calls), hrun, E.kept H⟩

/-! ## Every run -/

/-- What is assumed of `func_80002318`: an unused id goes into the queue, and its bit and the
count with it. -/
structure SetsAlarm (s s' : State) (i : Fin 64) : Prop where
  unused : i ∉ active s
  count : s'.D_8001C230 = s.D_8001C230 + 1
  bits : s'.D_8001C228 = s.D_8001C228 ||| BitVec.twoPow 64 i
  queue : ∃ l₁ l₂, queued s = l₁ ++ l₂ ∧ queued s' = l₁ ++ byte i :: l₂
  records : ∀ j, j ≠ i → s'.D_8001C238 (idWord j) = s.D_8001C238 (idWord j)

theorem SetsAlarm.kept {s s' : State} {i : Fin 64} (h : SetsAlarm s s' i) (hs : Consistent s) :
    Consistent s' := by
  obtain ⟨l, H⟩ := consistent_iff.mp hs
  obtain ⟨l₁, l₂, hq, hq'⟩ := h.queue
  rw [H.queue] at hq
  obtain ⟨a, b, rfl, rfl, rfl⟩ := List.map_eq_append_iff.mp hq
  have hi : s.D_8001C228.getLsbD i = false := by
    rw [← Bool.not_eq_true]
    exact fun hset => h.unused (mem_setBits.mpr hset)
  refine consistent_iff.mpr ⟨a ++ i :: b, ?_, ?_, ?_⟩
  · rw [h.count, H.count, ofNat_succ, List.length_append, List.length_append, List.length_cons]
    rfl
  · rw [hq', List.map_append, List.map_cons]
  · have hbits := setBits_or_twoPow hi
    rw [← h.bits] at hbits
    exact (List.perm_middle.trans (H.active.cons i)).trans hbits.symm

theorem clearQueue_eq (queue : Nat → BitVec 8) (n : Nat) :
    clearQueue queue n = if n < 64 then 0 else queue n :=
  foldl_update_range (v := fun _ _ => 0) (fun _ _ _ _ => rfl) queue 64 n

theorem func_80002838_consistent (s : State) : Consistent (func_80002838 s) := by
  refine consistent_iff.mpr ⟨[], rfl, rfl, ?_⟩
  rw [active, func_80002838, show setBits (0 : BitVec 64) = [] from setBits_zero]

/-- A run from `func_80002838` of alarms set, releases that name the head of the
queue and compare interrupts with an alarm on the queue. -/
inductive Run : State → Prop
  | init (s : State) : Run (func_80002838 s)
  | set {s s' : State} {i : Fin 64} (run : Run s) (h : SetsAlarm s s' i) : Run s'
  | release {s : State} {i : Fin 64} (run : Run s) (t : Word) (hi : i ∈ active s)
      (hhead : s.D_8001C738 0 = byte i) : Run (func_800025B0 t s (idWord i)).1
  | expire {ε : Type} {C : UserCall → Machine ε → Machine ε} {m m' : Machine ε}
      {calls : List UserCall} (run : Run m.state) (hC : LeavesTables C)
      (hpos : 0 < m.state.D_8001C230.toInt) {fuel : Nat}
      (h : func_80002690 C fuel m = some (m', calls)) : Run m'.state

theorem Run.consistent {s : State} (run : Run s) : Consistent s := by
  induction run with
  | init s => exact func_80002838_consistent s
  | set run h ih => exact h.kept ih
  | release run t hi hhead ih =>
    exact ((func_800025B0_spec hi t).kept_iff ih hi |>.mpr hhead).consistent
  | expire run hC hpos h ih =>
    obtain ⟨i, l, H⟩ := ih.exists_cons hpos
    exact ((expired_of_run hC H h).kept H).consistent

/-- **Alarm bookkeeping.**  A release keeps the tables consistent and the others
in order exactly when it names the head of the queue; an expiry always does; and
every state is consistent in a run whose releases all name the head. -/
theorem alarm_bookkeeping (s : State) :
    (Consistent s → ∀ (t : Word) (i : Fin 64), i ∈ active s →
      (Kept s (func_800025B0 t s (idWord i)).1 ↔ s.D_8001C738 0 = byte i)) ∧
    (Consistent s → 0 < s.D_8001C230.toInt →
      ∀ (ε : Type) (C : UserCall → Machine ε → Machine ε) (m : Machine ε), LeavesTables C →
        m.state = s →
          ∃ w, (∀ fuel, 64 < fuel → func_80002690 C fuel m = some w) ∧ Kept s w.1.state) ∧
    (Run s → Consistent s) := by
  refine ⟨fun h t i hi => ?_, ?_, fun run => run.consistent⟩
  · exact (func_800025B0_spec hi t).kept_iff h hi
  · rintro h hpos ε C m hC rfl
    exact func_80002690_kept hC h hpos

/-! ## Two alarms -/

/-- Two alarms, set one after the other, with targets `t₀` and `t₁`. -/
def twoAlarms (t₀ t₁ : Word) : State where
  D_8001C228 := 3
  D_8001C230 := 2
  D_8001C238 id :=
    { handler := 0x100, arg := id, gp := 0x10, time := 0, target := if id = 0 then t₀ else t₁ }
  D_8001C738 n := if n = 1 then 1 else 0
  T3_MODE := 0x583
  T3_COMP := t₀

theorem twoAlarms_run (t₀ t₁ : Word) : Run (twoAlarms t₀ t₁) := by
  -- the same tables before either alarm was set, and with the first one only
  let none : State :=
    { twoAlarms t₀ t₁ with D_8001C228 := 0, D_8001C230 := 0, D_8001C738 := fun _ => 0 }
  let one : State :=
    { twoAlarms t₀ t₁ with D_8001C228 := 1, D_8001C230 := 1, D_8001C738 := fun _ => 0 }
  have hnone : func_80002838 none = none := by
    have hclear : clearQueue none.D_8001C738 = none.D_8001C738 := by
      funext n
      exact (clearQueue_eq _ n).trans (ite_self _)
    rw [func_80002838, hclear]
  have run : Run none := hnone ▸ Run.init none
  have hfirst : SetsAlarm none one 0 :=
    { unused := show (0 : Fin 64) ∉ setBits (0 : BitVec 64) by decide
      count := rfl
      bits := show (1 : BitVec 64) = 0 ||| BitVec.twoPow 64 0 by decide
      queue := ⟨[], [], rfl, rfl⟩
      records := fun _ _ => rfl }
  have hsecond : SetsAlarm one (twoAlarms t₀ t₁) 1 :=
    { unused := show (1 : Fin 64) ∉ setBits (1 : BitVec 64) by decide
      count := rfl
      bits := show (3 : BitVec 64) = 1 ||| BitVec.twoPow 64 1 by decide
      queue := ⟨[0], [], rfl, rfl⟩
      records := fun _ _ => rfl }
  exact (run.set hfirst).set hsecond

/-- Releasing the second of two alarms takes the first one off the queue. -/
theorem alarm_bookkeeping_release_second :
    Run (twoAlarms 5 9) ∧ (1 : Fin 64) ∈ active (twoAlarms 5 9) ∧
      active (func_800025B0 0 (twoAlarms 5 9) (idWord 1)).1 = [0] ∧
      queued (func_800025B0 0 (twoAlarms 5 9) (idWord 1)).1 = [byte 1] ∧
      ¬ Consistent (func_800025B0 0 (twoAlarms 5 9) (idWord 1)).1 := by
  have hactive : active (func_800025B0 0 (twoAlarms 5 9) (idWord 1)).1 = [0] := by decide
  have hqueued : queued (func_800025B0 0 (twoAlarms 5 9) (idWord 1)).1 = [byte 1] := by decide
  refine ⟨twoAlarms_run 5 9, by decide, hactive, hqueued, fun h => ?_⟩
  have hperm := h.queue
  rw [hactive, hqueued] at hperm
  exact absurd hperm (by decide)

def idleCallback (_ : UserCall) (m : Machine Unit) : Machine Unit := m

theorem idleCallback_quiet : Quiet idleCallback := fun _ _ => rfl

/-- Releasing the first of two alarms, and expiry with both queued. -/
theorem alarm_bookkeeping_two_alarms :
    let s := twoAlarms 5 9
    let m : Machine Unit := { state := s, D_800174E4 := 0, gp := 0, env := () }
    Kept s (func_800025B0 0 s (idWord 0)).1 ∧
      (∃ w, (∀ fuel, 64 < fuel → func_80002690 idleCallback fuel m = some w) ∧
        Kept s w.1.state) ∧
      Consistent s := by
  intro s m
  obtain ⟨hrelease, hexpire, hrun⟩ := alarm_bookkeeping s
  have h : Consistent s := hrun (twoAlarms_run 5 9)
  exact ⟨(hrelease h 0 0 (by decide)).mpr rfl,
    hexpire h (by decide) Unit idleCallback m idleCallback_quiet.leavesTables rfl, h⟩

end EeKernel.Alarm
