import EeKernel.Alarm.Armed

/-!
# The batch that is due

What expiry does, in terms of the queue: it fires the longest prefix of entries
with the target of the first one and leaves the rest.  This is `batch` and
`left` again, for targets that fit the compare register; with larger ones the
loop stops after the head.  The machine it ends with is what the callbacks made
of it, one after the other (`CallsInTurn`).

The queue has 65 entries, and `SameTables` relates two states whose tables differ
past the last of them only: nothing that expiry does tells them apart.
-/

namespace EeKernel.Alarm

open EeKernel.Lib

section TakeWhile

variable {t : Fin 64 → Word} {i : Fin 64} {l : List (Fin 64)}

theorem batch_eq_takeWhile (ht : ∀ k ∈ i :: l, (t k).toNat ≤ 0xffff) :
    batch t i l = (i :: l).takeWhile fun k => t k = t i := by
  induction l generalizing i with
  | nil => simp [batch]
  | cons j l ih =>
    rw [batch, and_ffff (ht i List.mem_cons_self), List.takeWhile_cons_of_pos (by simp)]
    by_cases hij : t i = t j
    · rw [if_pos hij, ih fun k hk => ht k (List.mem_cons_of_mem i hk), hij]
    · rw [if_neg hij, List.takeWhile_cons_of_neg (by simpa using Ne.symm hij)]

theorem left_eq_dropWhile (ht : ∀ k ∈ i :: l, (t k).toNat ≤ 0xffff) :
    left t i l = (i :: l).dropWhile fun k => t k = t i := by
  have happend := batch_append_left t i l
  rw [batch_eq_takeWhile ht] at happend
  have hsplit := List.takeWhile_append_dropWhile (p := fun k => t k = t i) (l := i :: l)
  exact List.append_cancel_left (happend.trans hsplit.symm)

end TakeWhile

/-! ## The queue before and after -/

/-- The record of an entry of the queue. -/
def queuedRecord (s : State) (c : BitVec 8) : Record := s.D_8001C238 (ofChar c)

def sharesTarget (s : State) (c : BitVec 8) : Bool :=
  (queuedRecord s c).target = (queuedRecord s (s.D_8001C738 0)).target

/-- The longest prefix of the queue that shares its head's target. -/
def due (s : State) : List (BitVec 8) := (queued s).takeWhile (sharesTarget s)

def notDue (s : State) : List (BitVec 8) := (queued s).dropWhile (sharesTarget s)

/-- The call owed to an entry of the queue. -/
structure Owed (s : State) (c : BitVec 8) (call : UserCall) : Prop where
  aidx : call.aidx = ofChar c
  handler : call.handler = (queuedRecord s c).handler
  target : call.target = (queuedRecord s c).target
  arg : call.arg = (queuedRecord s c).arg
  gp : call.gp = (queuedRecord s c).gp

/-- The tables once the head of the queue is off them. -/
def withoutHead (s : State) : State :=
  { s with
    D_8001C228 := s.D_8001C228 &&& ~~~oneShl (ofChar (s.D_8001C738 0))
    D_8001C230 := s.D_8001C230 - 1
    D_8001C738 := fun n =>
      if n < (s.D_8001C230 - 1).toInt.toNat then s.D_8001C738 (n + 1) else s.D_8001C738 n }

/-- The callbacks run one after the other: each when the head of the queue is off the tables,
with the base of that moment and the call's `$gp`, which is put back. -/
inductive CallsInTurn {ε : Type} (C : UserCall → Machine ε → Machine ε) :
    Machine ε → List UserCall → Machine ε → Prop
  | done (s : Machine ε) : CallsInTurn C s [] s
  | call {s s' : Machine ε} {call : UserCall} {calls : List UserCall}
      (base : call.base = s.D_800174E4)
      (later : CallsInTurn C
        { C call { s with state := withoutHead s.state, gp := call.gp } with gp := s.gp } calls s') :
      CallsInTurn C s (call :: calls) s'

/-- The calls are those that were due, and just these alarms are gone; the machine is what the
callbacks made of it, with the timer set first. -/
structure ServesDue {ε : Type} (C : UserCall → Machine ε → Machine ε) (s s' : Machine ε)
    (calls : List UserCall) : Prop where
  fired : List.Forall₂ (Owed s.state) (due s.state) calls
  inTurn : CallsInTurn C { s with state := rearm s.state } calls s'
  once : (due s.state).Nodup
  queue : queued s'.state = notDue s.state
  count : s'.state.D_8001C230.toInt = (notDue s.state).length
  bits : ∀ i : Fin 64, i ∈ active s'.state ↔ i ∈ active s.state ∧ byte i ∉ due s.state
  records : s'.state.D_8001C238 = s.state.D_8001C238
  gp : s'.gp = s.gp

section Due

variable {ε : Type} {s s' : State} {i : Fin 64} {l : List (Fin 64)}

theorem queuedRecord_byte (s : State) (k : Fin 64) :
    queuedRecord s (byte k) = s.D_8001C238 (idWord k) := by
  rw [queuedRecord, ofChar_byte]

theorem Holds.sharesTarget_byte (H : Holds s (i :: l)) :
    sharesTarget s ∘ byte = fun k => decide (target s k = target s i) := by
  funext k
  rw [Function.comp_apply, sharesTarget, H.head, queuedRecord_byte, queuedRecord_byte, ← target,
    ← target]

theorem Holds.due_eq (H : Holds s (i :: l))
    (ht : ∀ k ∈ i :: l, (target s k).toNat ≤ 0xffff) : due s = (batch (target s) i l).map byte := by
  rw [due, H.queue, List.takeWhile_map, H.sharesTarget_byte, batch_eq_takeWhile ht]

theorem Holds.notDue_eq (H : Holds s (i :: l))
    (ht : ∀ k ∈ i :: l, (target s k).toNat ≤ 0xffff) :
    notDue s = (left (target s) i l).map byte := by
  rw [notDue, H.queue, List.dropWhile_map, H.sharesTarget_byte, left_eq_dropWhile ht]

theorem Fires.owed {k : Fin 64} {call : UserCall} (h : Fires s k call)
    (hk : (Alarm.target s k).toNat ≤ 0xffff) : Owed s (byte k) call := by
  refine ⟨?_, ?_, ?_, ?_, ?_⟩
  · rw [h.aidx, ofChar_byte]
  · rw [h.handler, queuedRecord_byte]
  · rw [h.target, and_ffff hk, queuedRecord_byte, Alarm.target]
  · rw [h.arg, queuedRecord_byte]
  · rw [h.gp, queuedRecord_byte]

theorem dequeue_eq (s : State) : dequeue s = withoutHead s := by
  unfold dequeue withoutHead
  simp only [funext (shift_eq _ _)]

theorem fireAll_inTurn {C : UserCall → Machine ε → Machine ε} {fuel : Nat} {m m' : Machine ε}
    {calls : List UserCall} (h : fireAll C fuel m = some (m', calls)) :
    CallsInTurn C m calls m' := by
  induction fuel generalizing m calls with
  | zero => cases h
  | succ fuel ih =>
    have hfire : (fire C m).1 = { C (fire C m).2 { m with
        state := withoutHead m.state, gp := (fire C m).2.gp } with gp := m.gp } := by
      rw [← dequeue_eq]
      rfl
    rw [fireAll_succ] at h
    split at h
    · rw [Option.map_eq_some_iff] at h
      obtain ⟨⟨m₁, calls₁⟩, h₁, heq⟩ := h
      cases heq
      exact .call rfl (hfire ▸ ih h₁)
    · cases h
      exact .call rfl (hfire ▸ .done _)

theorem Expired.servesDue {C : UserCall → Machine ε → Machine ε} {m m' : Machine ε}
    {calls : List UserCall} (E : Expired m i l m' calls) (H : Holds m.state (i :: l))
    (ht : ∀ k ∈ i :: l, (target m.state k).toNat ≤ 0xffff)
    (hturn : CallsInTurn C { m with state := rearm m.state } calls m') :
    ServesDue C m m' calls := by
  have hsplit := batch_append_left (target m.state) i l
  have hnodup := H.nodup
  rw [← hsplit, List.nodup_append'] at hnodup
  obtain ⟨hbatch, -, hdisjoint⟩ := hnodup
  refine ⟨?_, hturn, ?_, ?_, ?_, fun k => ?_, E.records, E.gp⟩
  · rw [H.due_eq ht, List.forall₂_map_left_iff]
    have hmem : ∀ k ∈ batch (target m.state) i l, (target m.state k).toNat ≤ 0xffff :=
      fun k hk => ht k (hsplit ▸ List.mem_append_left _ hk)
    have hfired := (List.forall₂_and_left _ _).mpr ⟨hmem, E.fired⟩
    exact hfired.imp fun k call h => h.2.owed h.1
  · rw [H.due_eq ht]
    exact hbatch.map fun a b => byte_inj.mp
  · rw [E.holds.queue, H.notDue_eq ht]
  · rw [E.holds.toInt_count, H.notDue_eq ht, List.length_map]
  · have hk : byte k ∈ due m.state ↔ k ∈ batch (target m.state) i l := by
      rw [H.due_eq ht, List.mem_map_of_injective fun a b => byte_inj.mp]
    rw [hk, ← E.holds.active.mem_iff, ← H.active.mem_iff, ← hsplit, List.mem_append]
    constructor
    · intro hleft
      exact ⟨.inr hleft, fun hb => hdisjoint hb hleft⟩
    · intro h
      exact h.1.resolve_left h.2

theorem func_80002690_servesDue {C : UserCall → Machine ε → Machine ε} {m : Machine ε}
    (hC : LeavesTables C) (h : Consistent m.state) (hpos : 0 < m.state.D_8001C230.toInt)
    (htargets : ∀ k ∈ active m.state, (target m.state k).toNat ≤ 0xffff) :
    ∃ m' calls, (∀ fuel, 64 < fuel → func_80002690 C fuel m = some (m', calls)) ∧
      ServesDue C m m' calls := by
  obtain ⟨i, l, H⟩ := h.exists_cons hpos
  obtain ⟨m', calls, hrun, E⟩ := func_80002690_spec hC H
  have ht : ∀ k ∈ i :: l, (target m.state k).toNat ≤ 0xffff :=
    fun k hk => htargets k (H.active.mem_iff.mp hk)
  exact ⟨m', calls, hrun, E.servesDue H ht (fireAll_inTurn (hrun 65 (by omega)))⟩

end Due

/-! ## What expiry reads -/

/-- What the loop reads of two states is the same. -/
structure SameQueue (s s' : State) : Prop where
  count : s'.D_8001C230 = s.D_8001C230
  records : s'.D_8001C238 = s.D_8001C238
  queue : ∀ n < 65, s'.D_8001C738 n = s.D_8001C738 n

/-- The states differ past the end of the queue at most. -/
structure SameTables (s s' : State) : Prop extends SameQueue s s' where
  bits : s'.D_8001C228 = s.D_8001C228

/-- The calls differ at most in the base, which is not part of an alarm. -/
def SameCall (a b : UserCall) : Prop := b = { a with base := b.base }

section Same

variable {s₁ s₂ : State} {i : Fin 64} {l : List (Fin 64)}

theorem SameQueue.head (h : SameQueue s₁ s₂) : s₂.D_8001C738 0 = s₁.D_8001C738 0 :=
  h.queue 0 (by omega)

theorem SameQueue.again_iff (h : SameQueue s₁ s₂) (w : Word) : again w s₂ ↔ again w s₁ := by
  rw [again, again, h.count, h.records, h.head]

theorem SameQueue.dequeue (h : SameQueue s₁ s₂) (H : Holds s₁ (i :: l)) :
    SameQueue (dequeue s₁) (dequeue s₂) := by
  have hlen := H.length_le
  rw [List.length_cons] at hlen
  have hcount : s₁.D_8001C230 - 1 = BitVec.ofNat 32 l.length := by
    rw [H.count, List.length_cons, ofNat_pred (Nat.succ_pos _)]
    rfl
  refine ⟨congrArg (· - 1) h.count, h.records, fun n hn => ?_⟩
  unfold Alarm.dequeue
  simp only [h.count, hcount]
  -- the shift reads one entry past those it writes, and there are 63 of these at most
  simp only [shift_eq, toInt_ofNat (show l.length ≤ 64 by omega), Int.toNat_natCast]
  by_cases hlt : n < l.length
  · rw [if_pos hlt, if_pos hlt]
    exact h.queue (n + 1) (by omega)
  · rw [if_neg hlt, if_neg hlt]
    exact h.queue n hn

theorem SameTables.dequeue (h : SameTables s₁ s₂) (H : Holds s₁ (i :: l)) :
    SameTables (dequeue s₁) (dequeue s₂) := by
  refine ⟨h.toSameQueue.dequeue H, ?_⟩
  unfold Alarm.dequeue
  simp only [h.bits, h.head]

theorem SameQueue.untouched {s₁' s₂' : State} (h : SameQueue s₁ s₂) (h₁ : Untouched s₁ s₁')
    (h₂ : Untouched s₂ s₂') : SameQueue s₁' s₂' where
  count := by rw [h₁.count, h₂.count, h.count]
  records := by rw [h₁.records, h₂.records, h.records]
  queue n hn := by rw [h₁.queue, h₂.queue, h.queue n hn]

theorem SameTables.untouched {s₁' s₂' : State} (h : SameTables s₁ s₂) (h₁ : Untouched s₁ s₁')
    (h₂ : Untouched s₂ s₂') : SameTables s₁' s₂' where
  toSameQueue := h.toSameQueue.untouched h₁ h₂
  bits := by rw [h₁.bits, h₂.bits, h.bits]

theorem SameTimer.rearm (T : SameTimer s₁ s₂) (h : SameQueue s₁ s₂) :
    SameTimer (rearm s₁) (rearm s₂) := by
  have hnext := h.queue 1 (by omega)
  constructor
  all_goals
    unfold Alarm.rearm
    rw [h.count]
    split
  · rfl
  · rfl
  · simp only [h.records, hnext]
  · exact T.comp

variable {ε₁ ε₂ : Type} {C₁ : UserCall → Machine ε₁ → Machine ε₁}
  {C₂ : UserCall → Machine ε₂ → Machine ε₂} {m₁ : Machine ε₁} {m₂ : Machine ε₂}

theorem fire_sameCall (h : SameQueue m₁.state m₂.state) :
    SameCall (fire C₁ m₁).2 (fire C₂ m₂).2 := by
  have hrecord : ∀ c, (dequeue m₂.state).D_8001C238 c = (dequeue m₁.state).D_8001C238 c :=
    congrFun h.records
  unfold SameCall fire userCall
  simp only [h.head, hrecord]

/-- The loop cannot tell two states apart that a round does not. -/
theorem fireAll_same {R : State → State → Prop} (hR : ∀ s₁ s₂, R s₁ s₂ → SameQueue s₁ s₂)
    (hdequeue : ∀ s₁ s₂ i l, R s₁ s₂ → Holds s₁ (i :: l) → R (dequeue s₁) (dequeue s₂))
    (hkept : ∀ s₁ s₂ s₁' s₂', R s₁ s₂ → Untouched s₁ s₁' → Untouched s₂ s₂' → R s₁' s₂')
    (hC₁ : LeavesTables C₁) (hC₂ : LeavesTables C₂) {fuel : Nat} (h : R m₁.state m₂.state)
    (H : Holds m₁.state (i :: l)) {m₁' : Machine ε₁} {calls₁ : List UserCall}
    (hrun : fireAll C₁ fuel m₁ = some (m₁', calls₁)) :
    ∃ m₂' calls₂, fireAll C₂ fuel m₂ = some (m₂', calls₂) ∧ R m₁'.state m₂'.state ∧
      List.Forall₂ SameCall calls₁ calls₂ := by
  induction fuel generalizing i l m₁ m₂ calls₁ with
  | zero => cases hrun
  | succ fuel ih =>
    have hcall : SameCall (fire C₁ m₁).2 (fire C₂ m₂).2 := fire_sameCall (hR _ _ h)
    have hsame : R (fire C₁ m₁).1.state (fire C₂ m₂).1.state :=
      hkept _ _ _ _ (hdequeue _ _ i l h H) (fire_untouched hC₁ m₁) (fire_untouched hC₂ m₂)
    obtain ⟨H', -⟩ := fire_spec hC₁ H
    have hagain : again (fire C₂ m₂).2.target (fire C₂ m₂).1.state ↔
        again (fire C₁ m₁).2.target (fire C₁ m₁).1.state := by
      have htarget : (fire C₂ m₂).2.target = (fire C₁ m₁).2.target := by rw [hcall]
      rw [htarget, (hR _ _ hsame).again_iff]
    rw [fireAll_succ] at hrun
    rw [fireAll_succ]
    by_cases ha : again (fire C₁ m₁).2.target (fire C₁ m₁).1.state
    · obtain ⟨j, l', rfl, -⟩ := (again_iff H').mp ha
      rw [if_pos ha, Option.map_eq_some_iff] at hrun
      obtain ⟨⟨m', calls⟩, hrest, hw⟩ := hrun
      cases hw
      obtain ⟨m₂', calls₂, hrun₂, hsame₂, hcalls⟩ := ih hsame H' hrest
      refine ⟨m₂', (fire C₂ m₂).2 :: calls₂, ?_, hsame₂, .cons hcall hcalls⟩
      rw [if_pos (hagain.mpr ha), hrun₂]
      rfl
    · rw [if_neg ha] at hrun
      cases hrun
      refine ⟨_, _, ?_, hsame, .cons hcall .nil⟩
      rw [if_neg (hagain.not.mpr ha)]

end Same

/-- **Expiry.**  It fires the alarms due with the head of the queue, each once
and in order, and takes just these off; and nothing past the 65 entries of the
queue matters to it. -/
theorem expiry_fires_due {ε : Type} {C : UserCall → Machine ε → Machine ε} {m : Machine ε}
    (hC : LeavesTables C) (h : Consistent m.state) (hpos : 0 < m.state.D_8001C230.toInt)
    (htargets : ∀ i ∈ active m.state, (target m.state i).toNat ≤ 0xffff) :
    ∃ m' calls, (∀ fuel, 64 < fuel → func_80002690 C fuel m = some (m', calls)) ∧
      ServesDue C m m' calls ∧
      ∀ (ε₂ : Type) (C₂ : UserCall → Machine ε₂ → Machine ε₂) (m₂ : Machine ε₂),
        LeavesTables C₂ → SameTables m.state m₂.state → ∃ m₂' calls₂,
          (∀ fuel, 64 < fuel → func_80002690 C₂ fuel m₂ = some (m₂', calls₂)) ∧
          SameTables m'.state m₂'.state ∧ List.Forall₂ SameCall calls calls₂ ∧
          (Quiet C → Quiet C₂ → SameTimer m.state m₂.state → SameTimer m'.state m₂'.state) := by
  obtain ⟨m', calls, hrun, hdue⟩ := func_80002690_servesDue hC h hpos htargets
  refine ⟨m', calls, hrun, hdue, fun ε₂ C₂ m₂ hC₂ hsame => ?_⟩
  obtain ⟨i, l, H⟩ := h.exists_cons hpos
  have hsame' : SameTables { m with state := rearm m.state }.state
      { m₂ with state := rearm m₂.state }.state :=
    hsame.untouched (rearm_untouched m.state) (rearm_untouched m₂.state)
  obtain ⟨m₂', calls₂, hrun₂, htables, hcalls⟩ :=
    fireAll_same (fun _ _ h => h.toSameQueue) (fun _ _ _ _ h => h.dequeue)
      (fun _ _ _ _ h => h.untouched) hC hC₂ hsame' H.rearm (hrun 65 (by omega))
  refine ⟨m₂', calls₂, fun fuel hfuel => fireAll_mono hrun₂ hfuel, htables, hcalls, ?_⟩
  intro hq hq₂ T
  have T₁ := func_80002690_timer hq (hrun 65 (by omega))
  have T₂ := func_80002690_timer hq₂ hrun₂
  have Tr := T.rearm hsame.toSameQueue
  exact ⟨T₂.mode.trans (Tr.mode.trans T₁.mode.symm), T₂.comp.trans (Tr.comp.trans T₁.comp.symm)⟩

theorem expiry_fires_due_two_alarms :
    let m : Machine Unit := { state := twoAlarms 5 9, D_800174E4 := 0, gp := 0, env := () }
    ∃ m' calls, (∀ fuel, 64 < fuel → func_80002690 idleCallback fuel m = some (m', calls)) ∧
      ServesDue idleCallback m m' calls ∧
      ∀ (ε₂ : Type) (C₂ : UserCall → Machine ε₂ → Machine ε₂) (m₂ : Machine ε₂),
        LeavesTables C₂ → SameTables m.state m₂.state → ∃ m₂' calls₂,
          (∀ fuel, 64 < fuel → func_80002690 C₂ fuel m₂ = some (m₂', calls₂)) ∧
          SameTables m'.state m₂'.state ∧ List.Forall₂ SameCall calls calls₂ ∧
          (Quiet idleCallback → Quiet C₂ → SameTimer m.state m₂.state →
            SameTimer m'.state m₂'.state) := by
  intro m
  exact expiry_fires_due idleCallback_quiet.leavesTables (twoAlarms_run 5 9).consistent (by decide)
    fun i _ => target_twoAlarms_le i

end EeKernel.Alarm
