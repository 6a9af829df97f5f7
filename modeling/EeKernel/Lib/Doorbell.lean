import EeKernel.Lib.Lts

/-!
# Doorbells

A flag between a side that rings and a side that answers.  A ring sets the flag,
whatever it was; the other side acknowledges, which clears it, and answers
afterwards.  No ring is lost and none is answered twice, though several may be
answered at once.
-/

namespace EeKernel.Lib

inductive Bell
  | ring
  | ack
  | answer
  deriving DecidableEq

/-- The flag, and whether an acknowledged ring is still to be answered. -/
inductive BellStep : Bool × Bool → Bell → Bool × Bool → Prop
  | ring {flag acked : Bool} : BellStep (flag, acked) .ring (true, acked)
  | ack : BellStep (true, false) .ack (false, true)
  | answer {flag : Bool} : BellStep (flag, true) .answer (flag, false)

def bell : Lts (Bool × Bool) Bell where
  init s := s.2 = false
  step := BellStep

namespace Bell

theorem exec_ring {flag acked : Bool} : bell.Exec (flag, acked) [.ring] (true, acked) :=
  .single BellStep.ring

theorem exec_ack : bell.Exec (true, false) [.ack] (false, true) := .single BellStep.ack

theorem exec_answer {flag : Bool} : bell.Exec (flag, true) [.answer] (flag, false) :=
  .single BellStep.answer

variable {s s' : Bool × Bool} {l l₁ l₂ : List Bell}

/-- What rings or waits for an answer goes on to, until it is answered. -/
theorem outstanding_answered (run : bell.Exec s l s') (h : s.1 = true ∨ s.2 = true) :
    .answer ∈ l ∨ s'.1 = true ∨ s'.2 = true := by
  induction run with
  | refl => exact .inr h
  | snoc _ next ih =>
    rcases ih with ih | ih
    · exact .inl (List.mem_append_left _ ih)
    cases next with
    | ring => exact .inr (.inl rfl)
    | ack => exact .inr (.inr rfl)
    | answer => exact .inl (by simp)

/-- **No ring is lost.** -/
theorem ring_answered (run : bell.Exec s (l₁ ++ .ring :: l₂) s') :
    .answer ∈ l₂ ∨ s'.1 = true ∨ s'.2 = true := by
  rw [List.append_cons] at run
  obtain ⟨s₂, run₁, run₂⟩ := run.split
  obtain ⟨_, -, hring⟩ := run₁.split
  have hflag : s₂.1 = true := by
    cases hring.of_single
    rfl
  exact outstanding_answered run₂ (.inl hflag)

/-- **No ring is answered twice.** -/
theorem answers_le (run : bell.Exec s l s') :
    l.count .answer + s'.1.toNat + s'.2.toNat ≤ l.count .ring + s.1.toNat + s.2.toNat := by
  induction run with
  | refl => simp
  | snoc _ next ih =>
    rw [List.count_append, List.count_append]
    cases next with
    | @ring flag acked =>
      have hring : List.count Bell.ring [.ring] = 1 := rfl
      have hanswer : List.count Bell.answer [.ring] = 0 := rfl
      have hflag : flag.toNat ≤ 1 := Bool.toNat_le flag
      simp only [hring, hanswer, Bool.toNat_true] at ih ⊢
      omega
    | ack =>
      have hring : List.count Bell.ring [.ack] = 0 := rfl
      have hanswer : List.count Bell.answer [.ack] = 0 := rfl
      simp only [hring, hanswer, Bool.toNat_true, Bool.toNat_false] at ih ⊢
      omega
    | answer =>
      have hring : List.count Bell.ring [.answer] = 0 := rfl
      have hanswer : List.count Bell.answer [.answer] = 1 := rfl
      simp only [hring, hanswer, Bool.toNat_true, Bool.toNat_false] at ih ⊢
      omega

end Bell

end EeKernel.Lib
