import EeKernel.Lib.Doorbell
import EeKernel.Sbus.Confined
import EeKernel.Sbus.Service

/-!
# The SBUS flag as 16 doorbells

The IOP sets bits of `SBUS_SMFLAG` at any time.  `func_80001D98` reads the word
once, and acknowledges a bit below 16 by storing it back before it runs the
handler.  A history lists the bits set and the stores and calls of the
interrupts, in the order they take effect: a bit may be set again between the
read and the acknowledgement, between that and the handler's run, or after it.

The other way, `func_80001F40` and its wrapper for user level set one bit of
`SBUS_MSFLAG` and strobe `SBUS_STAT`.
-/

namespace EeKernel.Sbus

open EeKernel.Intr EeKernel.Lib

/-- What happens to the flag, and the calls. -/
inductive Signal
  /-- the IOP sets a bit -/
  | raised (i : Fin 32)
  /-- `func_80001D98` stores or calls -/
  | event (e : Event)
  /-- a callback stores to `SBUS_SMFLAG` -/
  | cleared (v : Word)

namespace Signal

/-- `SBUS_SMFLAG` after a signal: a store clears the bits that are set in it. -/
def on (flag : Word) : Signal → Word
  | raised i => flag ||| BitVec.twoPow 32 i
  | event (.smflag v) | cleared v => flag &&& ~~~v
  | event (.user ..) | event (.direct ..) => flag

def onAll (flag : Word) (h : List Signal) : Word := h.foldl on flag

def event? : Signal → Option Event
  | event e => some e
  | raised _ | cleared _ => none

end Signal

/-- What an event of the interrupt is to bit `i`. -/
def Event.bell (i : Fin 32) : Event → Option Bell
  | .smflag v => if v.getLsbD i then some .ack else none
  | .user _ _ bit => if bit = idx i then some .answer else none
  | .direct .. => none

def Signal.bell (i : Fin 32) : Signal → Option Bell
  | .raised j => if j = i then some .ring else none
  | .event e => e.bell i
  | .cleared _ => none

/-- The rings, acknowledgements and answers of bit `i` in a history. -/
def bells (i : Fin 32) (h : List Signal) : List Bell := h.filterMap (Signal.bell i)

/-- The IOP sets a bit, or an SBUS interrupt is served on whatever machine there is;
the callbacks store no bit below 16. -/
inductive LineStep : Word → List Signal → Word → Prop
  | raised {flag : Word} (i : Fin 32) : LineStep flag [.raised i] (Signal.on flag (.raised i))
  | interrupt {ε : Type} {flag : Word} {C : Callees ε} {s s' : Machine ε} {events : List Event}
      {h : List Signal} (cause : Word) (fuel : Nat) (hread : C.func_800112C0 s = flag)
      (served : func_80001D98 C fuel cause s = some (s', events))
      (hevents : h.filterMap Signal.event? = events)
      (hclear : ∀ v, .cleared v ∈ h → ∀ i : Fin 32, (i : Nat) < 16 → v.getLsbD i = false) :
      LineStep flag h (Signal.onAll flag h)

def line : Lts Word (List Signal) where
  init _ := True
  step := LineStep

/-- The callbacks leave a handler in slot `i` if there is one. -/
structure Callees.KeepsSlot {ε : Type} (C : Callees ε) (i : Fin 32) : Prop where
  user : ∀ base hnd bit s, handlerOf s i ≠ 0 → handlerOf (C.func_800029C0 base hnd bit s) i ≠ 0
  direct : ∀ hnd bit s, handlerOf s i ≠ 0 → handlerOf (C.direct hnd bit s) i ≠ 0

/-! ## One interrupt -/

section Interrupt

variable {ε : Type} {C : Callees ε} {bits : List (Fin 32)} {s s' : Machine ε}
  {events : List Event} {i : Fin 32}

theorem Event.bell_ack (i j : Fin 32) :
    Event.bell i (.smflag (BitVec.twoPow 32 j)) = if j = i then some .ack else none := by
  simp only [Event.bell, BitVec.getLsbD_twoPow]
  by_cases h : j = i
  · subst h
    simp [j.isLt]
  · have hne : (j : Nat) ≠ (i : Nat) := fun heq => h (Fin.ext heq)
    simp [h, hne]

theorem Event.bell_answer (base hnd : Word) (i j : Fin 32) :
    Event.bell i (.user base hnd (idx j)) = if j = i then some .answer else none := by
  simp only [Event.bell, idx_inj (by omega : 32 ≤ 2 ^ 32)]

/-- Serving a list of bits does nothing to any other. -/
theorem Serves.bell_off (h : Serves C bits s s' events) (hi : i ∉ bits) :
    events.filterMap (Event.bell i) = [] := by
  induction h with
  | done => rfl
  | null _ _ ih => exact ih fun hmem => hi (List.mem_cons_of_mem _ hmem)
  | @user j bits s s' events _ _ _ ih =>
    have hj : j ≠ i := fun heq => hi (heq ▸ List.mem_cons_self)
    rw [List.filterMap_cons, Event.bell_ack, if_neg hj, List.filterMap_cons, Event.bell_answer,
      if_neg hj]
    exact ih fun hmem => hi (List.mem_cons_of_mem _ hmem)
  | @direct j bits s s' events _ _ _ ih =>
    rw [List.filterMap_cons]
    exact ih fun hmem => hi (List.mem_cons_of_mem _ hmem)

/-- A bit of the list is passed over, or acknowledged and then answered. -/
theorem Serves.bell (h : Serves C bits s s' events) (hn : bits.Nodup) :
    events.filterMap (Event.bell i) = [] ∨
      i ∈ bits ∧ events.filterMap (Event.bell i) = [.ack, .answer] := by
  induction h with
  | done => exact .inl rfl
  | null _ _ ih =>
    exact (ih (List.nodup_cons.mp hn).2).imp_right fun h => ⟨List.mem_cons_of_mem _ h.1, h.2⟩
  | @user j bits s s' events _ _ rest ih =>
    obtain ⟨hj, hn⟩ := List.nodup_cons.mp hn
    rw [List.filterMap_cons, Event.bell_ack, List.filterMap_cons, Event.bell_answer]
    by_cases hji : j = i
    · subst hji
      rw [if_pos rfl, if_pos rfl]
      simp only [rest.bell_off hj]
      exact .inr ⟨List.mem_cons_self, trivial⟩
    · rw [if_neg hji, if_neg hji]
      exact (ih hn).imp_right fun h => ⟨List.mem_cons_of_mem _ h.1, h.2⟩
  | @direct j bits s s' events _ _ _ ih =>
    rw [List.filterMap_cons]
    exact (ih (List.nodup_cons.mp hn).2).imp_right fun h => ⟨List.mem_cons_of_mem _ h.1, h.2⟩

/-- A low bit that is to be served and has a handler throughout gets its call. -/
theorem Serves.calls (h : Serves C bits s s' events) (hC : C.KeepsSlot i) (hi : i ∈ bits)
    (hlow : (i : Nat) < 16) (hnd : handlerOf s i ≠ 0) :
    ∃ base hnd, Event.user base hnd (idx i) ∈ events := by
  induction h with
  | done => cases hi
  | null hnull _ ih =>
    rcases List.mem_cons.mp hi with rfl | hi
    · exact absurd hnull hnd
    · exact ih hi hnd
  | user _ _ _ ih =>
    rcases List.mem_cons.mp hi with rfl | hi
    · exact ⟨_, _, List.mem_cons_of_mem _ List.mem_cons_self⟩
    · obtain ⟨base, hnd', hmem⟩ := ih hi (hC.user _ _ _ _ hnd)
      exact ⟨base, hnd', List.mem_cons_of_mem _ (List.mem_cons_of_mem _ hmem)⟩
  | direct _ hhigh _ ih =>
    rcases List.mem_cons.mp hi with rfl | hi
    · omega
    · obtain ⟨base, hnd', hmem⟩ := ih hi (hC.direct _ _ _ hnd)
      exact ⟨base, hnd', List.mem_cons_of_mem _ hmem⟩

end Interrupt

/-! ## A bit is a doorbell -/

section Bell

variable {flag flag' : Word} {i : Fin 32} {h : List Signal}

/-- What the rest of an interrupt still does to a bit, by the doorbell's state. -/
inductive Due : Bool → Bool → List Bell → Prop
  | none {flag : Bool} : Due flag false []
  | ack : Due true false [.ack, .answer]
  | answer {flag : Bool} : Due flag true [.answer]

theorem Due.raise {b acked : Bool} {rest : List Bell} (due : Due b acked rest) :
    Due true acked rest := by
  cases due with
  | none => exact .none
  | ack => exact .ack
  | answer => exact .answer

theorem getLsbD_or_twoPow (flag : Word) (i j : Fin 32) :
    (flag ||| BitVec.twoPow 32 j).getLsbD i = if j = i then true else flag.getLsbD i := by
  rw [BitVec.getLsbD_or, BitVec.getLsbD_twoPow]
  by_cases h : j = i
  · subst h
    simp [j.isLt]
  · have hne : (j : Nat) ≠ (i : Nat) := fun heq => h (Fin.ext heq)
    simp [h, hne]

theorem getLsbD_and_not (flag v : Word) (i : Fin 32) :
    (flag &&& ~~~v).getLsbD i = (flag.getLsbD i && !v.getLsbD i) := by
  rw [BitVec.getLsbD_and, BitVec.getLsbD_not, decide_eq_true i.isLt, Bool.true_and]

/-- What an event is to a bit is what it does to the flag. -/
theorem Event.on_bell (flag : Word) (e : Event) :
    (Signal.on flag (.event e)).getLsbD i =
      if e.bell i = some .ack then false else flag.getLsbD i := by
  cases e with
  | smflag v =>
    rw [Signal.on, getLsbD_and_not, Event.bell]
    cases v.getLsbD i with
    | false => simp
    | true => simp
  | user base hnd bit =>
    rw [Signal.on, Event.bell]
    split <;> simp
  | direct => simp [Signal.on, Event.bell]

/-- However the IOP's rings fall between the events of an interrupt, bit `i` goes
through the steps of a doorbell. -/
theorem onAll_exec {b acked : Bool} {rest : List Bell} (hb : flag.getLsbD i = b)
    (hrest : (h.filterMap Signal.event?).filterMap (Event.bell i) = rest) (due : Due b acked rest)
    (hclear : ∀ v, .cleared v ∈ h → v.getLsbD i = false) :
    bell.Exec (b, acked) (bells i h) ((Signal.onAll flag h).getLsbD i, false) := by
  induction h generalizing flag b acked rest with
  | nil =>
    obtain rfl : [] = rest := hrest
    change bell.Exec (b, acked) [] (flag.getLsbD i, false)
    rw [hb]
    cases due
    exact .refl _
  | cons x h ih =>
    have hclear' : ∀ v, .cleared v ∈ h → v.getLsbD i = false :=
      fun v hv => hclear v (List.mem_cons_of_mem _ hv)
    cases x with
    | raised j =>
      have hflag := getLsbD_or_twoPow flag i j
      by_cases hj : j = i
      · rw [if_pos hj] at hflag
        have hrun := ih hflag hrest due.raise hclear'
        have hbells : bells i (.raised j :: h) = [.ring] ++ bells i h := by
          simp [bells, Signal.bell, hj]
        rw [hbells]
        exact Bell.exec_ring.trans hrun
      · rw [if_neg hj, hb] at hflag
        have hbells : bells i (.raised j :: h) = bells i h := by
          simp [bells, Signal.bell, hj]
        rw [hbells]
        exact ih hflag hrest due hclear'
    | event e =>
      have hflag := Event.on_bell (i := i) flag e
      have hevents : ((.event e :: h).filterMap Signal.event?).filterMap (Event.bell i) =
          (e.bell i).toList ++ (h.filterMap Signal.event?).filterMap (Event.bell i) := by
        cases he : e.bell i <;> simp [Signal.event?, he]
      have hbells : bells i (.event e :: h) = (e.bell i).toList ++ bells i h := by
        cases he : e.bell i <;> simp [bells, Signal.bell, he]
      rw [hevents] at hrest
      rw [hbells]
      cases he : e.bell i with
      | none =>
        rw [he] at hrest hflag
        rw [if_neg (by simp), hb] at hflag
        exact ih hflag hrest due hclear'
      | some a =>
        rw [he] at hflag
        rw [he, Option.toList_some, List.singleton_append] at hrest
        -- the next bell is the one that is due
        cases due with
        | none => cases hrest
        | ack =>
          obtain ⟨rfl, hlater⟩ := List.cons.inj hrest
          rw [if_pos rfl] at hflag
          exact Bell.exec_ack.trans (ih hflag hlater .answer hclear')
        | answer =>
          obtain ⟨rfl, hlater⟩ := List.cons.inj hrest
          rw [if_neg (by simp), hb] at hflag
          exact Bell.exec_answer.trans (ih hflag hlater .none hclear')
    | cleared v =>
      have hv : v.getLsbD i = false := hclear v List.mem_cons_self
      have hflag : (Signal.on flag (.cleared v)).getLsbD i = b := by
        rw [Signal.on, getLsbD_and_not, hv, hb]
        simp
      exact ih hflag hrest due hclear'

theorem LineStep.bell (step : LineStep flag h flag') (hlow : (i : Nat) < 16) :
    bell.Exec (flag.getLsbD i, false) (bells i h) (flag'.getLsbD i, false) := by
  cases step with
  | raised j =>
    refine onAll_exec (h := [.raised j]) rfl rfl .none ?_
    intro v hv
    cases List.mem_singleton.mp hv
  | @interrupt ε _ C s s' events _ cause fuel hread served hevents hclear =>
    refine onAll_exec rfl rfl ?_ fun v hv => hclear v hv i hlow
    have hw := func_80001D98_some served
    have hserves := serveAll_serves C (setBits (C.func_800112C0 s)) s
    rw [← hw] at hserves
    rw [hevents]
    rcases hserves.bell (i := i) (setBits_nodup _) with hnil | ⟨hmem, hpair⟩
    · rw [hnil]
      exact .none
    · rw [hpair, ← hread, mem_setBits.mp hmem]
      exact .ack

theorem line_bell {hs : List (List Signal)} (run : line.Exec flag hs flag')
    (hlow : (i : Nat) < 16) :
    bell.Exec (flag.getLsbD i, false) (bells i hs.flatten) (flag'.getLsbD i, false) := by
  induction run with
  | refl => exact .refl _
  | snoc _ next ih =>
    have hflatten : ∀ (hs : List (List Signal)) h,
        bells i (hs ++ [h]).flatten = bells i hs.flatten ++ bells i h := by
      intro hs h
      simp [bells]
    rw [hflatten]
    exact ih.trans (LineStep.bell next hlow)

/-- A ring that is answered is answered by a call of the bit's handler. -/
theorem answer_call (hmem : Bell.answer ∈ bells i h) :
    ∃ base hnd, .event (.user base hnd (idx i)) ∈ h := by
  obtain ⟨x, hx, hbell⟩ := List.mem_filterMap.mp hmem
  cases x with
  | raised j =>
    simp only [Signal.bell] at hbell
    split at hbell <;> cases hbell
  | cleared v => cases hbell
  | event e =>
    cases e with
    | smflag v =>
      simp only [Signal.bell, Event.bell] at hbell
      split at hbell <;> cases hbell
    | user base hnd bit =>
      simp only [Signal.bell, Event.bell] at hbell
      split at hbell
      · rename_i hbit
        subst hbit
        exact ⟨base, hnd, hx⟩
      · cases hbell
    | direct => cases hbell

/-- **No signal is lost and none is served twice.**  Over any run of rings and SBUS
interrupts, rings falling anywhere inside them, each bit below 16 the IOP has set is
still set or has its handler called afterwards, the calls are no more than the rings,
and a bit that is set gets its call from the next interrupt if it has a handler. -/
theorem signals_served {hs : List (List Signal)} (run : line.Exec flag hs flag')
    (hlow : (i : Nat) < 16) :
    (∀ h₁ h₂, hs.flatten = h₁ ++ .raised i :: h₂ →
      (∃ base hnd, .event (.user base hnd (idx i)) ∈ h₂) ∨ flag'.getLsbD i = true) ∧
      (bells i hs.flatten).count .answer + (flag'.getLsbD i).toNat ≤
        (bells i hs.flatten).count .ring + (flag.getLsbD i).toNat ∧
      ∀ {ε : Type} (C : Callees ε) (s : Machine ε) (cause : Word) (fuel : Nat), 32 < fuel →
        C.func_800112C0 s = flag' → C.KeepsSlot i → flag'.getLsbD i = true → handlerOf s i ≠ 0 →
        ∃ s' events, func_80001D98 C fuel cause s = some (s', events) ∧
          ∃ base hnd, Event.user base hnd (idx i) ∈ events := by
  have hbell := line_bell run hlow
  refine ⟨?_, ?_, ?_⟩
  · intro h₁ h₂ heq
    have hsplit : bells i hs.flatten = bells i h₁ ++ .ring :: bells i h₂ := by
      rw [heq]
      simp [bells, Signal.bell]
    rw [hsplit] at hbell
    rcases Bell.ring_answered hbell with hanswer | hflag | hacked
    · exact .inl (answer_call hanswer)
    · exact .inr hflag
    · cases hacked
  · have hle := Bell.answers_le hbell
    simpa using hle
  · intro ε C s cause fuel hfuel hread hC hset hnd
    refine ⟨_, _, func_80001D98_eq C hfuel cause s, ?_⟩
    refine (serveAll_serves C _ s).calls hC ?_ hlow hnd
    rw [mem_setBits, hread]
    exact hset

/-- Bit 3 is set twice, the second time while its handler runs. -/
theorem signals_served_twice :
    let h : List Signal := [.event (.smflag 8), .event (.user 0 0x100 3), .raised 3]
    let flag := Signal.onAll 8 h
    flag = 8 ∧
      ((∀ h₁ h₂, [[.raised 3], h].flatten = h₁ ++ .raised 3 :: h₂ →
        (∃ base hnd, .event (.user base hnd (idx (3 : Fin 32))) ∈ h₂) ∨ flag.getLsbD 3 = true) ∧
        (bells 3 [[.raised 3], h].flatten).count .answer + (flag.getLsbD 3).toNat ≤
          (bells 3 [[.raised 3], h].flatten).count .ring + ((0 : Word).getLsbD 3).toNat ∧
        ∀ {ε : Type} (C : Callees ε) (s : Machine ε) (cause : Word) (fuel : Nat), 32 < fuel →
          C.func_800112C0 s = flag → C.KeepsSlot 3 → flag.getLsbD 3 = true → handlerOf s 3 ≠ 0 →
          ∃ s' events, func_80001D98 C fuel cause s = some (s', events) ∧
            ∃ base hnd, Event.user base hnd (idx (3 : Fin 32)) ∈ events) := by
  intro h flag
  let s : Machine Unit := machineOf (fun a => if a = sbus_int_handler 3 then 0x100 else 0) ()
  obtain ⟨C, hC⟩ : ∃ C : Callees Unit, C = { func_800112C0 := fun _ => 8
                                             func_800029C0 := fun _ _ _ s => s
                                             direct := fun _ _ s => s } := ⟨_, rfl⟩
  have hread : C.func_800112C0 s = 8 := by rw [hC]
  have hserved := func_80001D98_eq C (by omega : 32 < 33) 1 s
  have hbits : setBits (8 : Word) = [3] := by decide
  rw [hread, hbits] at hserved
  have hevents : h.filterMap Signal.event? = (serveAll C [3] s).2 := by
    rw [hC]
    rfl
  have run : line.Exec 0 [[.raised 3], h] flag := by
    refine .snoc (.snoc (.refl 0) (LineStep.raised 3)) ?_
    refine LineStep.interrupt 1 33 hread hserved hevents ?_
    intro v hv
    simp [h] at hv
  exact ⟨by decide, signals_served run (by decide)⟩

end Bell

/-! ## Ringing the IOP -/

inductive Store
  | msflag (v : Word)
  | stat (v : Word)
  deriving DecidableEq

/-- Ten stores to `SBUS_STAT`, the last of them another. -/
def strobe : List Store := List.replicate 9 (.stat 0x100) ++ [.stat 0x40100]

def func_80001F40 (cause : Word) : List Store × Word :=
  if cause.toNat ≥ 32 then ([], -1) else (.msflag (oneShl cause) :: strobe, cause)

def func_80001FB0 (cause : Word) : List Store × Word :=
  if cause.toInt ≥ 16 then ([], -1) else func_80001F40 cause

/-- One bit and a strobe, or nothing at all. -/
def sent : Option (Fin 32) → List Store × Word
  | some i => (.msflag (BitVec.twoPow 32 i) :: strobe, idx i)
  | none => ([], -1)

theorem func_80001F40_eq (cause : Word) : func_80001F40 cause = sent (slotOf 32 cause) := by
  have hlt := toNat_lt_iff cause
  unfold func_80001F40
  rcases slotOf_cases 32 cause with ⟨i, rfl, -, hs⟩ | ⟨hout, hs⟩
  · have hnat : (idx i).toNat = i := toNat_idx (by omega) i
    rw [hs, if_neg (by omega), oneShl_idx, sent]
  · change _ ∨ (32 : Int) ≤ _ at hout
    rw [hs, if_pos (by omega), sent]

/-- At user level only the bits below 16 are sent. -/
theorem func_80001FB0_eq (cause : Word) : func_80001FB0 cause = sent (slotOf 16 cause) := by
  unfold func_80001FB0
  rcases slotOf_cases 16 cause with ⟨i, rfl, hi, hs⟩ | ⟨hout, hs⟩
  · have hint := toInt_idx i
    change (i : Nat) < 16 at hi
    rw [if_neg (by omega), func_80001F40_eq, slotOf_idx i.isLt, hs]
  · change _ ∨ (16 : Int) ≤ _ at hout
    rw [hs]
    by_cases h : cause.toInt ≥ 16
    · rw [if_pos h, sent]
    · -- a negative cause passes the signed check and is refused by the unsigned one
      rcases slotOf_cases 32 cause with ⟨i, rfl, -, -⟩ | ⟨-, hs'⟩
      · have hint := toInt_idx i
        omega
      · rw [if_neg h, func_80001F40_eq, hs']

end EeKernel.Sbus
