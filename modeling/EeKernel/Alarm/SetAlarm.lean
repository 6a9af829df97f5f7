import EeKernel.Alarm.Timed

/-!
# `alarm.c`: the draft of SetAlarm

The source keeps a C draft of `func_80002318` beside the assembly.  It takes the
lowest free id, fills the record and works out the target; the count, the queue
and the timer it does not get to.  What it has is modelled here as written: the
id is free and the others are left alone, and the time it records is the one
`func_800025B0` counts from, so that a release answers with the ticks gone by.
-/

namespace EeKernel.Alarm

open EeKernel.Lib

/-- `for (i = 0; i < 64; i++) if (!((D_8001C228 >> i) & 1)) { ... return i; }` -/
def getAlarm (s : State) : State × Word :=
  match (List.range 64).find? fun i => decide ((s.D_8001C228 >>> i) &&& 1 = 0) with
  | some i =>
    ({ s with D_8001C228 := s.D_8001C228 ||| BitVec.twoPow 64 i }, BitVec.ofNat 32 i)
  | none => (s, -1)

/-- SetAlarm; `current_time` is what `T3_COUNT` reads. -/
def func_80002318 (gp current_time : Word) (s : State) (time : BitVec 16) (cbfunc arg : Word) :
    State × Word :=
  let (s, aidx) := getAlarm s
  if aidx.toInt < 0 then (s, -1)
  else
    let target_time := current_time + time.setWidth 32
    let target_time :=
      if target_time.toNat ≥ 0x10000 then target_time &&& 0xffff else target_time
    let record : Record := { handler := cbfunc, arg := arg, gp := gp, time := current_time,
                             target := target_time }
    ({ s with D_8001C238 := Function.update s.D_8001C238 aidx record }, aidx)

section Set

variable {s s' : State} {gp current_time cbfunc arg : Word} {time : BitVec 16} {i : Fin 64}

theorem bit_clear_iff {n : Nat} :
    decide ((s.D_8001C228 >>> n) &&& 1 = 0) = true ↔ s.D_8001C228.getLsbD n = false := by
  rw [decide_eq_true_iff, shift_and_one]

/-- The lowest id that is not active, if there is one. -/
theorem getAlarm_cases (s : State) :
    (∃ i : Fin 64, i ∉ active s ∧ (∀ j < i, j ∈ active s) ∧
      getAlarm s = ({ s with D_8001C228 := s.D_8001C228 ||| BitVec.twoPow 64 i }, idWord i)) ∨
      ((∀ i, i ∈ active s) ∧ getAlarm s = (s, -1)) := by
  unfold getAlarm
  cases h : (List.range 64).find? fun i => decide ((s.D_8001C228 >>> i) &&& 1 = 0) with
  | none =>
    refine .inr ⟨fun i => ?_, rfl⟩
    have hi := List.find?_eq_none.mp h i (List.mem_range.mpr i.isLt)
    rw [bit_clear_iff, Bool.not_eq_false] at hi
    exact mem_setBits.mpr hi
  | some n =>
    obtain ⟨hn, hmem, hlow⟩ := List.find?_range_eq_some.mp h
    have hlt := List.mem_range.mp hmem
    rw [bit_clear_iff] at hn
    refine .inl ⟨⟨n, hlt⟩, ?_, fun j hj => ?_, rfl⟩
    · rw [active, mem_setBits, Fin.val_mk, hn]
      exact Bool.false_ne_true
    · have hset := hlow j hj
      rw [Bool.not_eq_true', ← Bool.not_eq_true, bit_clear_iff, Bool.not_eq_false] at hset
      exact mem_setBits.mpr hset

/-- What the draft does when it hands out `i`. -/
structure Sets (s s' : State) (i : Fin 64) (record : Record) : Prop where
  unused : i ∉ active s
  lowest : ∀ j < i, j ∈ active s
  active : ∀ j, j ∈ active s' ↔ j = i ∨ j ∈ active s
  record : s'.D_8001C238 (idWord i) = record
  records : ∀ id, id ≠ idWord i → s'.D_8001C238 id = s.D_8001C238 id
  count : s'.D_8001C230 = s.D_8001C230
  queue : s'.D_8001C738 = s.D_8001C738

theorem mem_active_or (hbits : s'.D_8001C228 = s.D_8001C228 ||| BitVec.twoPow 64 i) (j : Fin 64) :
    j ∈ active s' ↔ j = i ∨ j ∈ active s := by
  rw [active, active, mem_setBits, mem_setBits, hbits, BitVec.getLsbD_or, BitVec.getLsbD_twoPow]
  by_cases h : j = i
  · subst h
    simp [j.isLt]
  · have hne : (i : Nat) ≠ (j : Nat) := fun heq => h (Fin.ext heq.symm)
    simp [h, hne]

theorem target_wraps (hcur : current_time.toNat < 0x10000) :
    (if (current_time + time.setWidth 32).toNat ≥ 0x10000 then
      (current_time + time.setWidth 32) &&& 0xffff else current_time + time.setWidth 32) =
      BitVec.ofNat 32 ((current_time.toNat + time.toNat) % 0x10000) := by
  have htime := time.isLt
  have hsum : (current_time + time.setWidth 32).toNat = current_time.toNat + time.toNat := by
    rw [BitVec.toNat_add, BitVec.toNat_setWidth, Nat.mod_eq_of_lt (a := time.toNat) (by omega),
      Nat.mod_eq_of_lt (by omega)]
  apply BitVec.eq_of_toNat_eq
  rw [BitVec.toNat_ofNat, Nat.mod_eq_of_lt (b := 2 ^ 32) (by omega)]
  by_cases h : (current_time + time.setWidth 32).toNat ≥ 0x10000
  · rw [if_pos h, BitVec.toNat_and, hsum]
    exact Nat.and_two_pow_sub_one_eq_mod _ 16
  · rw [if_neg h, hsum]
    omega

theorem func_80002318_sets (gp cbfunc arg : Word) (s : State) (time : BitVec 16)
    (hcur : current_time.toNat < 0x10000) :
    ((∀ i, i ∈ active s) ∧ func_80002318 gp current_time s time cbfunc arg = (s, -1)) ∨
      ∃ i, (func_80002318 gp current_time s time cbfunc arg).2 = idWord i ∧
        Sets s (func_80002318 gp current_time s time cbfunc arg).1 i
          { handler := cbfunc, arg := arg, gp := gp, time := current_time,
            target := BitVec.ofNat 32 ((current_time.toNat + time.toNat) % 0x10000) } := by
  unfold func_80002318
  rcases getAlarm_cases s with ⟨i, hunused, hlowest, heq⟩ | ⟨hall, heq⟩
  · have hpos : ¬ (idWord i).toInt < 0 := by
      rw [idWord, toInt_ofNat (by omega)]
      omega
    rw [heq]
    simp only [if_neg hpos, target_wraps hcur]
    refine .inr ⟨i, rfl, hunused, hlowest, mem_active_or rfl, Function.update_self .., ?_, rfl, rfl⟩
    intro id hid
    exact Function.update_of_ne hid ..
  · have hneg : (-1 : Word).toInt < 0 := by decide
    rw [heq]
    exact .inl ⟨hall, if_pos hneg⟩

end Set

/-! ## Time gone by -/

section Elapsed

variable {s s' : State} {c c' : BitVec 16} {xs : List (List (BitVec 16 × UserCall))}

theorem Tick.records {x : List (BitVec 16 × UserCall)} (step : Tick (s, c) x (s', c')) :
    s'.D_8001C238 = s.D_8001C238 ∧ c' = c + 1 := by
  cases step with
  | quiet h => exact ⟨rfl, rfl⟩
  | @served ε C m m' calls _ h hC fuel hrun =>
    have hfire : ∀ m : Machine ε, (fire C m).1.state.D_8001C238 = m.state.D_8001C238 :=
      fun m => (fire_untouched hC.leavesTables m).records
    have hrecords := fireAll_keeps (f := State.D_8001C238) hfire hrun
    exact ⟨hrecords.trans (rearm_untouched m.state).records, rfl⟩

theorem ticks_records (run : timer.Exec (s, c) xs (s', c')) :
    s'.D_8001C238 = s.D_8001C238 ∧ c' = c + BitVec.ofNat 16 xs.length := by
  induction xs generalizing s c with
  | nil =>
    cases run.of_nil
    exact ⟨rfl, (BitVec.add_zero _).symm⟩
  | cons x xs ih =>
    obtain ⟨⟨s₁, c₁⟩, hstep, hrest⟩ := run.head
    obtain ⟨hrecords, rfl⟩ := Tick.records hstep
    obtain ⟨hrecords', rfl⟩ := ih hrest
    refine ⟨hrecords'.trans hrecords, ?_⟩
    rw [List.length_cons, BitVec.add_assoc, Nat.add_comm, BitVec.ofNat_add]
    rfl

theorem elapsed_eq (n : Nat) :
    (if ((c + BitVec.ofNat 16 n).setWidth 32 : Word).toNat ≥ (c.setWidth 32 : Word).toNat then
      ((c + BitVec.ofNat 16 n).setWidth 32 - c.setWidth 32 : Word)
    else (c + BitVec.ofNat 16 n).setWidth 32 + (0x10000 - c.setWidth 32)) =
      BitVec.ofNat 32 (n % 2 ^ 16) := by
  have hc := c.isLt
  have hwide : ∀ d : BitVec 16, (d.setWidth 32 : Word).toNat = d.toNat := by
    intro d
    rw [BitVec.toNat_setWidth, Nat.mod_eq_of_lt (by omega)]
  have hsum : (c + BitVec.ofNat 16 n).toNat = (c.toNat + n % 2 ^ 16) % 2 ^ 16 := by
    rw [BitVec.toNat_add, BitVec.toNat_ofNat]
  apply BitVec.eq_of_toNat_eq
  rw [BitVec.toNat_ofNat, Nat.mod_eq_of_lt (b := 2 ^ 32) (by omega)]
  by_cases h : ((c + BitVec.ofNat 16 n).setWidth 32 : Word).toNat ≥ (c.setWidth 32 : Word).toNat
  · rw [if_pos h, BitVec.toNat_sub_of_le (BitVec.le_def.mpr h)]
    rw [hwide, hwide, hsum] at *
    omega
  · have hle : (c.setWidth 32 : Word) ≤ 0x10000 := by
      rw [BitVec.le_def, hwide]
      exact Nat.le_of_lt hc
    rw [if_neg h, BitVec.toNat_add, BitVec.toNat_sub_of_le hle]
    rw [hwide, hwide, hsum] at *
    have hbig : (0x10000 : Word).toNat = 0x10000 := rfl
    omega

/-- **Set and release.**  The draft hands out the lowest free id, with the target the
time asked for after the current count, and refuses only if all are taken.  However long
the clock then runs and whatever other alarms fire, a release of the alarm while it is
still active answers with the ticks since it was set. -/
theorem set_then_release (gp cbfunc arg : Word) (s : State) (c : BitVec 16) (time : BitVec 16) :
    ((∀ i, i ∈ active s) ∧ func_80002318 gp (c.setWidth 32) s time cbfunc arg = (s, -1)) ∨
      ∃ i, (func_80002318 gp (c.setWidth 32) s time cbfunc arg).2 = idWord i ∧
        Sets s (func_80002318 gp (c.setWidth 32) s time cbfunc arg).1 i
          { handler := cbfunc, arg := arg, gp := gp, time := c.setWidth 32,
            target := (c + time).setWidth 32 } ∧
        ∀ s' c' xs,
          timer.Exec ((func_80002318 gp (c.setWidth 32) s time cbfunc arg).1, c) xs (s', c') →
          i ∈ active s' →
          (func_800025B0 (c'.setWidth 32) s' (idWord i)).2 =
            BitVec.ofNat 32 (xs.length % 2 ^ 16) := by
  have hc : (c.setWidth 32 : Word).toNat = c.toNat := by
    rw [BitVec.toNat_setWidth, Nat.mod_eq_of_lt (by omega)]
  have hcur : (c.setWidth 32 : Word).toNat < 0x10000 := hc ▸ c.isLt
  have htarget : BitVec.ofNat 32 ((c.toNat + time.toNat) % 0x10000) = (c + time).setWidth 32 := by
    apply BitVec.eq_of_toNat_eq
    rw [BitVec.toNat_ofNat, BitVec.toNat_setWidth, BitVec.toNat_add]
  rcases func_80002318_sets gp cbfunc arg s time hcur with hfull | ⟨i, hret, hsets⟩
  · exact .inl hfull
  · rw [hc, htarget] at hsets
    refine .inr ⟨i, hret, hsets, fun s' c' xs run hi => ?_⟩
    obtain ⟨hrecords, rfl⟩ := ticks_records run
    have htime : (s'.D_8001C238 (idWord i)).time = c.setWidth 32 := by
      rw [hrecords, hsets.record]
    rw [func_800025B0, if_neg (bit_of_active hi)]
    simp only [htime]
    exact elapsed_eq xs.length

end Elapsed

end EeKernel.Alarm
