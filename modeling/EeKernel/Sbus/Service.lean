import EeKernel.Sbus.Model

/-!
# The pending bits, one by one

`func_80001D98` takes the highest bit off the word until none is left.  `Serves`
is a run over a list of bits that says what becomes of each, by the handler its
slot holds when its turn comes: the callbacks before it may have put it there.
-/

namespace EeKernel.Sbus

open EeKernel.Intr EeKernel.Lib

variable {ε : Type}

/-- `sbus_int_handler[i]` as it is now. -/
def handlerOf (s : Machine ε) (i : Fin 32) : Word := s.mem.read (sbus_int_handler (idx i))

/-- The bits `bits` are served in order from `s` to `s'`. -/
inductive Serves (C : Callees ε) :
    List (Fin 32) → Machine ε → Machine ε → List Event → Prop
  | done (s : Machine ε) : Serves C [] s s []
  | null {i : Fin 32} {bits : List (Fin 32)} {s s' : Machine ε} {events : List Event}
      (hnull : handlerOf s i = 0) (rest : Serves C bits s s' events) :
      Serves C (i :: bits) s s' events
  | user {i : Fin 32} {bits : List (Fin 32)} {s s' : Machine ε} {events : List Event}
      (hnd : handlerOf s i ≠ 0) (hlow : (i : Nat) < 16)
      (rest : Serves C bits
        (C.func_800029C0 (s.mem.read D_800174E4) (handlerOf s i) (idx i) s) s' events) :
      Serves C (i :: bits) s s' (.smflag (BitVec.twoPow 32 i) ::
        .user (s.mem.read D_800174E4) (handlerOf s i) (idx i) :: events)
  | direct {i : Fin 32} {bits : List (Fin 32)} {s s' : Machine ε} {events : List Event}
      (hnd : handlerOf s i ≠ 0) (hhigh : 16 ≤ (i : Nat))
      (rest : Serves C bits (C.direct (handlerOf s i) (idx i) s) s' events) :
      Serves C (i :: bits) s s' (.direct (handlerOf s i) (idx i) :: events)

theorem idx_lt_sixteen (i : Fin 32) : (idx i).toInt < 16 ↔ (i : Nat) < 16 := by
  revert i
  decide

theorem serveAll_serves (C : Callees ε) (bits : List (Fin 32)) (s : Machine ε) :
    Serves C bits s (serveAll C bits s).1 (serveAll C bits s).2 := by
  induction bits generalizing s with
  | nil => exact .done s
  | cons i bits ih =>
    unfold serveAll serveBit
    by_cases hnull : handlerOf s i = 0
    · have h : ¬ s.mem.read (sbus_int_handler (idx i)) ≠ 0 := not_not.mpr hnull
      simp only [if_neg h]
      exact .null hnull (ih s)
    · have h : s.mem.read (sbus_int_handler (idx i)) ≠ 0 := hnull
      simp only [if_pos h]
      by_cases hlow : (i : Nat) < 16
      · simp only [if_pos ((idx_lt_sixteen i).mpr hlow), oneShl_idx]
        exact .user hnull hlow (ih _)
      · simp only [if_neg (mt (idx_lt_sixteen i).mp hlow)]
        exact .direct hnull (not_lt.mp hlow) (ih _)

/-- **Service.**  The loop takes as many rounds as the word has set bits, and one
more test of the word; it serves just these bits, from the highest down. -/
theorem interrupt_serves_pending (C : Callees ε) (cause : Word) (s : Machine ε) :
    ∃ bits s' events, Serves C bits s s' events ∧
      bits.Pairwise (fun i j => j < i) ∧
      (∀ i, i ∈ bits ↔ (C.func_800112C0 s).getLsbD i = true) ∧
      bits.length = (C.func_800112C0 s).cpop.toNat ∧
      ∀ fuel, func_80001D98 C fuel cause s =
        if (C.func_800112C0 s).cpop.toNat < fuel then some (s', events) else none := by
  let smflag := C.func_800112C0 s
  have hlength : (setBits smflag).length = smflag.cpop.toNat := length_setBits smflag
  refine ⟨setBits smflag, _, _, serveAll_serves C (setBits smflag) s, setBits_sorted smflag,
    fun i => mem_setBits, hlength, fun fuel => ?_⟩
  unfold func_80001D98
  rw [serveBits_eq, hlength]

end EeKernel.Sbus
