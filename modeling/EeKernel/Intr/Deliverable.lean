import EeKernel.Intr.InOrder
import EeKernel.Intr.Reset
import EeKernel.Sbus.Model

/-!
# Which registrations are served

`func_80000700` decides which function serves an INTC cause.  Initialisation and
soft reset install `func_80001670` for every cause but two: timer 3 is served by
`func_80002690`, which works off the alarms, and the SBUS by `func_80001D98`,
which has a table of its own.  Neither reads `intc_queue`, so what is registered
on these two queues is never called; on the other 13 every enabled handler is.
-/

namespace EeKernel.Intr

open EeKernel.Lib

variable {ε : Type}

/-! ## Service routines -/

/-- What the two routines that do not walk a queue leave: no descriptor is read. -/
def Served.nothing (s : Machine ε) : Served ε :=
  { machine := s, visits := [], early := false, count := 0, missing := false }

/-- INTC cause `c` delivered to a service routine.  `alarm` is `func_80002690`. -/
def Isr.serve (C : Callees ε) (S : Sbus.Callees ε) (alarm : Machine ε → Machine ε) (fuel : Nat)
    (c : Fin 15) (s : Machine ε) : Isr → Option (Served ε)
  | .func_80001670 => Intr.func_80001670 C fuel (idx c) s
  | .func_800017D8 => Intr.func_800017D8 C fuel (idx c) s
  | .func_80001D98 => (Sbus.func_80001D98 S fuel (idx c) s).map fun (s, _) => .nothing s
  | .func_80002690 => some (.nothing (alarm s))

def Served.Invoked (w : Served ε) (i : Hid) : Prop :=
  ∃ v ∈ w.visits, v.hnd = (Node.hnd i).word ∧ v.invoked.isSome

/-- The handler `i` returned a negative result. -/
def Served.Ended (w : Served ε) (i : Hid) : Prop :=
  ∃ v ∈ w.visits, v.hnd = (Node.hnd i).word ∧ ∃ u ∈ v.invoked, u.Negative

def Before (l : List Hid) (j i : Hid) : Prop := ∃ l₁ l₂, l = l₁ ++ i :: l₂ ∧ j ∈ l₁

/-! ## What a walk records -/

section Record

variable {C : Callees ε} {inum hnd : Word} {s : Machine ε} {m : Mem} {i : Hid}

theorem visit_same (hr : C.LeavesRegistry) : SameRegistry s.mem (visit C inum hnd s).1.mem := by
  by_cases h2 : (readDescriptor s.mem hnd).state = 2
  · rw [visit_user C inum rfl h2]
    exact hr.user _ _ _
  by_cases h0 : (readDescriptor s.mem hnd).state = 0
  · rw [visit_direct C inum rfl h2 h0]
    exact hr.direct _ _ _ _
  · rw [visit_skip C inum rfl h2 h0]
    exact SameRegistry.refl s.mem

theorem visit_stop (h : (visit C inum hnd s).2.2 = true) :
    ∃ u ∈ (visit C inum hnd s).2.1, u.Negative := by
  by_cases h2 : (readDescriptor s.mem hnd).state = 2
  · rw [visit_user C inum rfl h2] at h ⊢
    have hneg := of_decide_eq_true h
    exact ⟨_, rfl, hneg⟩
  by_cases h0 : (readDescriptor s.mem hnd).state = 0
  · rw [visit_direct C inum rfl h2 h0] at h
    cases h
  · rw [visit_skip C inum rfl h2 h0] at h
    cases h

theorem visit_enabled (h : enabled s.mem i = true) :
    (visit C inum (Node.hnd i).word s).2.1.isSome := by
  rw [enabled_eq rfl, Bool.or_eq_true, decide_eq_true_eq, decide_eq_true_eq] at h
  by_cases h2 : (readDescriptor s.mem (Node.hnd i).word).state = 2
  · rw [visit_user C inum rfl h2]
    rfl
  · rw [visit_direct C inum rfl h2 (h.resolve_left h2)]
    rfl

/-- The visits of a walk are rounds with the registry of `m`, and only a negative
result ends it early. -/
structure Recorded (C : Callees ε) (inum : Word) (m : Mem) (w : Served ε) : Prop where
  round : ∀ v ∈ w.visits, SameRegistry m v.before.mem ∧
    v.invoked = (visit C inum v.hnd v.before).2.1
  last : w.early = true → ∃ l v, w.visits = l ++ [v] ∧ ∃ u ∈ v.invoked, u.Negative

theorem walk_recorded (hr : C.LeavesRegistry) {queue : Word} {fuel : Nat} {w : Served ε} {a : Word}
    (hs : SameRegistry m s.mem) (h : walk C queue inum fuel a hnd s = some w) :
    Recorded C inum m w := by
  induction fuel generalizing a hnd s w with
  | zero => cases h
  | succ fuel ih =>
    have hthis : ∀ v : Visit ε,
        v = { before := s, hnd := hnd, invoked := (visit C inum hnd s).2.1 } →
        SameRegistry m v.before.mem ∧ v.invoked = (visit C inum v.hnd v.before).2.1 := by
      rintro v rfl
      exact ⟨hs, rfl⟩
    by_cases hlt : a.toInt < (s.mem.read (fEntries queue)).toInt
    · cases hstop : (visit C inum hnd s).2.2 with
      | true =>
        rw [walk_return hlt (by rw [← hstop])] at h
        cases h
        refine ⟨fun v hv => hthis v (List.mem_singleton.mp hv), fun _ => ⟨[], _, rfl, ?_⟩⟩
        exact visit_stop hstop
      | false =>
        rw [walk_next hlt (by rw [← hstop]), Option.map_eq_some_iff] at h
        obtain ⟨w', hw', rfl⟩ := h
        have R := ih (hs.trans (visit_same hr)) hw'
        refine ⟨fun v hv => ?_, fun he => ?_⟩
        · rcases List.mem_cons.mp hv with hv | hv
          · exact hthis v hv
          · exact R.round v hv
        · obtain ⟨l, v, hl, hu⟩ := R.last he
          exact ⟨_ :: l, v, congrArg (List.cons _) hl, hu⟩
    · rw [walk_done hlt] at h
      cases h
      exact ⟨fun v hv => (List.not_mem_nil hv).elim, fun he => (Bool.false_ne_true he).elim⟩

/-- Every enabled handler of the queue is called, unless one before it ends the walk. -/
theorem Walked.invoked {D : Delivery ε} {l : List Hid} {n : Nat} {w : Served ε}
    (W : Walked D l n w) (R : Recorded C inum m w) (hi : i ∈ l) (hen : enabled m i = true) :
    w.Invoked i ∨ ∃ j, Before l j i ∧ w.Ended j := by
  have hcalled : (Node.hnd i).word ∈ w.visits.map Visit.hnd → w.Invoked i := by
    intro hmem
    obtain ⟨v, hv, hhnd⟩ := List.mem_map.mp hmem
    obtain ⟨hs, hinv⟩ := R.round v hv
    refine ⟨v, hv, hhnd, ?_⟩
    rw [hinv, hhnd]
    exact visit_enabled (by rw [enabled_congr hs, hen])
  cases he : w.early with
  | false =>
    refine .inl (hcalled ?_)
    rw [W.complete he]
    exact List.mem_map_of_mem hi
  | true =>
    obtain ⟨rest, hrest⟩ := W.reads
    obtain ⟨l₁, l₂, rfl, h₁, -⟩ := List.map_eq_append_iff.mp hrest.symm
    rcases List.mem_append.mp hi with hi | hi
    · exact .inl (hcalled (h₁ ▸ List.mem_map_of_mem hi))
    · -- the handler that ended the walk is among those visited, `i` is not
      obtain ⟨done, v, hv, hneg⟩ := R.last he
      have hmem : v ∈ w.visits := hv ▸ List.mem_concat_self
      obtain ⟨j, hj, hhnd⟩ := List.mem_map.mp (h₁.symm ▸ List.mem_map_of_mem hmem)
      obtain ⟨a, b, rfl⟩ := List.append_of_mem hi
      refine .inr ⟨j, ⟨l₁ ++ a, b, (List.append_assoc ..).symm, List.mem_append_left a hj⟩, ?_⟩
      exact ⟨v, hmem, hhnd.symm, hneg⟩

end Record

/-! ## Every run -/

section Run

variable {L : ListHelpers} {k₀ k : Kernel} {A : Registry} {C : Callees ε} {S : Sbus.Callees ε}
  {alarm : Machine ε → Machine ε} {c : Fin 15} {s : Machine ε}

theorem Counted.served {r : Lists} (hC : Counted s.mem r) (hr : C.LeavesRegistry)
    (hv : VsyncOutside (.intc c) s.mem) :
    ∃ w, (∀ fuel, 128 < fuel → func_80001670 C fuel (idx c) s = some w) ∧
      ∀ i ∈ r (.queue (.intc c)), enabled s.mem i = true →
        w.Invoked i ∨ ∃ j, Before (r (.queue (.intc c))) j i ∧ w.Ended j := by
  have hsame := entered_same hv
  obtain ⟨w, ⟨_, _, _, hwalk⟩, hw, W⟩ := interrupt_delivers hr hC hv
  have R := walk_recorded hr hsame hwalk
  refine ⟨_, hw, fun i hi hen => ?_⟩
  simp only [Served.Invoked, Served.Ended, finish_visits]
  exact W.invoked R hi hen

/-- **Deliverable.**  In every state a run reaches whose resets find the SBUS
queue empty, an INTC interrupt other than those of timer 3 and the SBUS calls
every enabled handler registered for it, unless one before it returns a
negative result. -/
theorem accepted_deliverable (hL : L.Correct) (run : Reached L SbusIdle k₀ k A)
    (hr : C.LeavesRegistry) (hsbus : c ≠ INTC_SBUS) (htim3 : c ≠ INTC_TIM3) (hs : s.mem = k.mem)
    (hv : VsyncOutside (.intc c) s.mem) :
    ∃ w, (∀ fuel, 128 < fuel → (k.intcIsr c).serve C S alarm fuel c s = some w) ∧
      ∀ i ∈ A (.intc c), enabled s.mem i = true →
        w.Invoked i ∨ ∃ j, Before (A (.intc c)) j i ∧ w.Ended j := by
  obtain ⟨⟨r, W, rfl⟩, hisr, -⟩ := run.inv hL
  have hC : Counted s.mem r := hs ▸ W.toCounted
  have hc : k.intcIsr c = .func_80001670 := by
    rw [hisr, initIsr, if_neg hsbus, if_neg htim3]
  rw [hc]
  exact hC.served hr hv

/-- A user handler on INTC queue 0, and its interrupt. -/
theorem accepted_deliverable_one_handler :
    let k := (func_80002090 standard zeroKernel).1
    let call : Call := .func_800018F0 0x10 (idx (0 : Fin 15)) 0x100 (-1) 7 2
    let k' : Kernel := { k with mem := (exec standard k.mem call).1 }
    let A := Registry.after (fun _ => []) (.add (.intc 0) (-1) 2) (exec standard k.mem call).2
    let S : Sbus.Callees Unit :=
      { func_800112C0 := fun _ => 0, func_800029C0 := fun _ _ _ s => s, direct := fun _ _ s => s }
    ∃ w, (∀ fuel, 128 < fuel →
        (k'.intcIsr 0).serve idle S id fuel 0 (machineOf k'.mem ()) = some w) ∧
      ∀ i ∈ A (.intc 0), enabled k'.mem i = true →
        w.Invoked i ∨ ∃ j, Before (A (.intc 0)) j i ∧ w.Ended j := by
  intro k call k' A S
  have run : Reached standard SbusIdle zeroKernel k' A := by
    refine .call .init (.func_800018F0 0x10 0 0x100 (-1) 7 2) (.inl rfl) ?_
    rintro q next unk ⟨⟩
    exact .inr rfl
  clear_value k'
  exact accepted_deliverable (s := machineOf k'.mem ()) standard_correct run idle_leavesRegistry
    (by decide) (by decide) rfl (vsyncOutside_of_ne (by decide) _)

/-- A user handler accepted for timer 3 is not called, whatever the callees do. -/
theorem accepted_not_served :
    let k := (func_80002090 standard zeroKernel).1
    let k' : Kernel :=
      { k with mem := (func_80001A70 standard k.mem 0x10 (idx INTC_TIM3) 0x100 (-1) 7).1 }
    ∃ A i, Reached standard SbusIdle zeroKernel k' A ∧ A (.intc INTC_TIM3) = [i] ∧
      enabled k'.mem i = true ∧
      ∀ (C : Callees Unit) (S : Sbus.Callees Unit) (alarm : Machine Unit → Machine Unit)
        (fuel : Nat),
        ∃ w, (k'.intcIsr INTC_TIM3).serve C S alarm fuel INTC_TIM3 (machineOf k'.mem ()) = some w ∧
          ¬ w.Invoked i ∧ ∀ j, ¬ w.Ended j := by
  intro k k'
  obtain ⟨i, A, hadded, hA, -, run⟩ := reached_first_add standard_correct zeroKernel SbusIdle
    INTC_TIM3 0x10 0x100 7 (.inr rfl) (by decide)
  have hisr : k'.intcIsr INTC_TIM3 = .func_80002690 := by
    change (func_80002090 standard zeroKernel).1.intcIsr INTC_TIM3 = _
    rw [(func_80002090_isr zeroKernel).1]
    rfl
  refine ⟨_, i, run, hA, ?_, fun C S alarm fuel => ⟨_, by rw [hisr, Isr.serve], ?_, ?_⟩⟩
  · simp only [k', func_80001A70]
    rw [enabled_eq hadded.descriptor]
    rfl
  · rintro ⟨v, hv, -⟩
    cases hv
  · rintro j ⟨v, hv, -⟩
    cases hv

end Run

end EeKernel.Intr
