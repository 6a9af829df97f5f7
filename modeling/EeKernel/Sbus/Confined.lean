import EeKernel.Sbus.Model

/-!
# The two levels of the SBUS table

`Slots` is what the table is for: a handler for each bit, 0 for none.  A
register fills an empty slot below the limit of its level, an unregister empties
one, and everything else is refused.  The four calls do this to
`sbus_int_handler`, at user level they touch nothing but the slots below 16, and
these are the slots `func_80001D98` never calls directly.
-/

namespace EeKernel.Sbus

open EeKernel.Intr EeKernel.Lib

/-! ## The reference map -/

abbrev Slots := Fin 32 → Word

/-- The slot a signed cause names below a limit. -/
def slotOf (limit : Fin 33) (cause : Word) : Option (Fin 32) :=
  if h : 0 ≤ cause.toInt ∧ cause.toInt < limit then some ⟨cause.toInt.toNat, by omega⟩ else none

namespace Slots

def register (limit : Fin 33) (T : Slots) (cause handler : Word) : Slots × Word :=
  match slotOf limit cause with
  | some i => if T i = 0 then (Function.update T i handler, idx i) else (T, -1)
  | none => (T, -1)

def unregister (limit : Fin 33) (T : Slots) (cause : Word) : Slots × Word :=
  match slotOf limit cause with
  | some i => (Function.update T i 0, idx i)
  | none => (T, -1)

end Slots

inductive Call
  | func_80001E78 (cause handler : Word)
  | func_80001EB8 (cause handler : Word)
  | func_80001EE8 (cause : Word)
  | func_80001F10 (cause handler : Word)

namespace Call

def exec (m : Mem) : Call → Mem × Word
  | .func_80001E78 cause handler => Sbus.func_80001E78 m cause handler
  | .func_80001EB8 cause handler => Sbus.func_80001EB8 m cause handler
  | .func_80001EE8 cause => Sbus.func_80001EE8 m cause
  | .func_80001F10 cause handler => Sbus.func_80001F10 m cause handler

/-- The slots the level of a call may name. -/
def limit : Call → Fin 33
  | .func_80001E78 .. | .func_80001EE8 .. => 32
  | .func_80001EB8 .. | .func_80001F10 .. => 16

def execAll (m : Mem) (cs : List Call) : Mem := cs.foldl (fun m c => (c.exec m).1) m

end Call

namespace Slots

/-- What a call is to do, and its reply. -/
def call (T : Slots) (c : Call) : Slots × Word :=
  match c with
  | .func_80001E78 cause handler => T.register c.limit cause handler
  | .func_80001EB8 cause handler => T.register c.limit cause handler
  | .func_80001EE8 cause => T.unregister c.limit cause
  | .func_80001F10 cause _ => T.unregister c.limit cause

def calls (T : Slots) (cs : List Call) : Slots := cs.foldl (fun T c => (T.call c).1) T

end Slots

/-- What `sbus_int_handler` holds. -/
def slots (m : Mem) : Slots := fun i => m.read (Cell.sbus i).word

/-! ## One call -/

section Call

variable {m m' : Mem} {limit : Fin 33} {cause handler : Word} {i : Fin 32} {T : Slots} {c : Call}

theorem toInt_idx (i : Fin 32) : (idx i).toInt = i := by
  revert i
  decide

theorem slotOf_idx (hi : (i : Nat) < limit) : slotOf limit (idx i) = some i := by
  have h := toInt_idx i
  rw [slotOf, dif_pos (by omega)]
  exact congrArg some (Fin.ext (by simp [h]))

theorem slotOf_cases (limit : Fin 33) (cause : Word) :
    (∃ i : Fin 32, cause = idx i ∧ (i : Nat) < limit ∧ slotOf limit cause = some i) ∨
      ((cause.toInt < 0 ∨ (limit : Int) ≤ cause.toInt) ∧ slotOf limit cause = none) := by
  by_cases h : 0 ≤ cause.toInt ∧ cause.toInt < limit
  · refine .inl ⟨⟨cause.toInt.toNat, by omega⟩, ?_, ?_, dif_pos h⟩
    · apply BitVec.eq_of_toInt_eq
      rw [toInt_idx]
      simp only
      omega
    · simp only
      omega
  · exact .inr ⟨by omega, dif_neg h⟩

theorem toNat_lt_iff (cause : Word) : cause.toNat < 32 ↔ 0 ≤ cause.toInt ∧ cause.toInt < 32 := by
  rw [BitVec.toInt_eq_toNat_cond]
  have := cause.isLt
  split <;> omega

theorem slots_write (m : Mem) (i : Fin 32) (v : Word) :
    slots (m.write (Cell.sbus i).word v) = Function.update (slots m) i v := by
  funext j
  simp only [slots, read_write_cell, Cell.sbus.injEq, Function.update_apply]

def fill (m : Mem) (handler : Word) : Option (Fin 32) → Mem × Word
  | some i => if slots m i = 0 then (m.write (Cell.sbus i).word handler, idx i) else (m, -1)
  | none => (m, -1)

def clear (m : Mem) : Option (Fin 32) → Mem × Word
  | some i => (m.write (Cell.sbus i).word 0, idx i)
  | none => (m, -1)

section Check

variable {f : Option (Fin 32) → Mem × Word} (hnone : f none = (m, -1))

include hnone

/-- The unsigned check of an inner function. -/
theorem unsigned_check {g : Word → Mem × Word} (hsome : ∀ i : Fin 32, g (idx i) = f (some i)) :
    (if cause.toNat ≥ 32 then (m, -1) else g cause) = f (slotOf 32 cause) := by
  have hlt := toNat_lt_iff cause
  rcases slotOf_cases 32 cause with ⟨i, rfl, -, hs⟩ | ⟨hout, hs⟩
  · have hnat : (idx i).toNat = i := toNat_idx (by omega) i
    rw [hs, if_neg (by omega), hsome]
  · change _ ∨ (32 : Int) ≤ _ at hout
    rw [hs, if_pos (by omega), hnone]

/-- The signed check of a wrapper: a negative cause passes it and is refused by the
unsigned one. -/
theorem signed_check :
    (if cause.toInt ≥ 16 then (m, -1) else f (slotOf 32 cause)) = f (slotOf 16 cause) := by
  rcases slotOf_cases 16 cause with ⟨i, rfl, hi, hs⟩ | ⟨hout, hs⟩
  · have hint := toInt_idx i
    change (i : Nat) < 16 at hi
    rw [if_neg (by omega), hs, slotOf_idx i.isLt]
  · change _ ∨ (16 : Int) ≤ _ at hout
    rw [hs, hnone]
    by_cases h : cause.toInt ≥ 16
    · rw [if_pos h]
    · rcases slotOf_cases 32 cause with ⟨i, rfl, -, -⟩ | ⟨-, hs'⟩
      · have hint := toInt_idx i
        omega
      · rw [if_neg h, hs', hnone]

end Check

theorem func_80001E78_eq (m : Mem) (cause handler : Word) :
    func_80001E78 m cause handler = fill m handler (slotOf 32 cause) := by
  unfold func_80001E78
  refine unsigned_check rfl (g := fun cause => if m.read (sbus_int_handler cause) ≠ 0 then (m, -1)
    else (m.write (sbus_int_handler cause) handler, cause)) fun i => ?_
  rw [sbus_int_handler_idx]
  exact ite_not ..

theorem func_80001EB8_eq (m : Mem) (cause handler : Word) :
    func_80001EB8 m cause handler = fill m handler (slotOf 16 cause) := by
  rw [func_80001EB8, func_80001E78_eq, signed_check rfl]

theorem func_80001EE8_eq (m : Mem) (cause : Word) :
    func_80001EE8 m cause = clear m (slotOf 32 cause) := by
  unfold func_80001EE8
  refine unsigned_check rfl (g := fun cause => (m.write (sbus_int_handler cause) 0, cause))
    fun i => ?_
  rw [sbus_int_handler_idx]
  rfl

theorem func_80001F10_eq (m : Mem) (cause handler : Word) :
    func_80001F10 m cause handler = clear m (slotOf 16 cause) := by
  rw [func_80001F10, func_80001EE8_eq, signed_check rfl]

/-- A call, once its cause is checked: a register or an unregister of a slot below its limit. -/
theorem exec_eq (c : Call) :
    (∃ cause handler, (∀ m, c.exec m = fill m handler (slotOf c.limit cause)) ∧
      ∀ T : Slots, T.call c = T.register c.limit cause handler) ∨
    ∃ cause, (∀ m, c.exec m = clear m (slotOf c.limit cause)) ∧
      ∀ T : Slots, T.call c = T.unregister c.limit cause := by
  cases c with
  | func_80001E78 cause handler =>
    exact .inl ⟨cause, handler, fun m => func_80001E78_eq m cause handler, fun _ => rfl⟩
  | func_80001EB8 cause handler =>
    exact .inl ⟨cause, handler, fun m => func_80001EB8_eq m cause handler, fun _ => rfl⟩
  | func_80001EE8 cause => exact .inr ⟨cause, fun m => func_80001EE8_eq m cause, fun _ => rfl⟩
  | func_80001F10 cause handler =>
    exact .inr ⟨cause, fun m => func_80001F10_eq m cause handler, fun _ => rfl⟩

/-- A call does to the table what it is to do, and answers so. -/
theorem exec_spec (m : Mem) (c : Call) :
    (slots (c.exec m).1, (c.exec m).2) = (slots m).call c := by
  rcases exec_eq c with ⟨cause, handler, he, hT⟩ | ⟨cause, he, hT⟩
  · rw [he, hT, Slots.register]
    cases slotOf c.limit cause with
    | none => rfl
    | some i =>
      by_cases h : slots m i = 0
      · simp only [fill, if_pos h, slots_write]
      · simp only [fill, if_neg h]
  · rw [he, hT, Slots.unregister]
    cases slotOf c.limit cause with
    | none => rfl
    | some i => simp only [clear, slots_write]

theorem exec_refused (h : (c.exec m).2 = -1) : (c.exec m).1 = m := by
  rcases exec_eq c with ⟨cause, handler, he, -⟩ | ⟨cause, he, -⟩
  · rw [he] at h ⊢
    cases hs : slotOf c.limit cause with
    | none => rfl
    | some i =>
      rw [hs, fill] at h
      rw [fill]
      by_cases hi : slots m i = 0
      · rw [if_pos hi] at h
        exact absurd h (idx_ne_neg_one_of_lt (by omega) i)
      · rw [if_neg hi]
  · rw [he] at h ⊢
    cases hs : slotOf c.limit cause with
    | none => rfl
    | some i =>
      rw [hs] at h
      exact absurd h (idx_ne_neg_one_of_lt (by omega) i)

def lowSlots (limit : Fin 33) : Set Cell := {c | ∃ i : Fin 32, (i : Nat) < limit ∧ c = .sbus i}

/-- A call writes no word but a slot below its limit. -/
theorem exec_frame (m : Mem) (c : Call) : ChangesOnly (lowSlots c.limit) m (c.exec m).1 := by
  have hrefl : ChangesOnly (lowSlots c.limit) m m := .refl m
  rcases exec_eq c with ⟨cause, handler, he, -⟩ | ⟨cause, he, -⟩
  · rw [he]
    rcases slotOf_cases c.limit cause with ⟨i, -, hi, hs⟩ | ⟨-, hs⟩
    · rw [hs, fill]
      by_cases h : slots m i = 0
      · rw [if_pos h]
        exact hrefl.write ⟨i, hi, rfl⟩
      · rw [if_neg h]
        exact hrefl
    · rw [hs]
      exact hrefl
  · rw [he]
    rcases slotOf_cases c.limit cause with ⟨i, -, hi, hs⟩ | ⟨-, hs⟩
    · rw [hs]
      exact hrefl.write ⟨i, hi, rfl⟩
    · rw [hs]
      exact hrefl

/-- The slots below a limit, and no others, hold the same. -/
def AgreeBelow (limit : Fin 33) (T T' : Slots) : Prop :=
  ∀ i : Fin 32, (i : Nat) < limit → T i = T' i

/-- A call reads no slot but those below its limit. -/
theorem call_congr {T T' : Slots} (h : AgreeBelow c.limit T T') :
    (T.call c).2 = (T'.call c).2 ∧ AgreeBelow c.limit (T.call c).1 (T'.call c).1 := by
  have hupdate : ∀ (i : Fin 32) v,
      AgreeBelow c.limit (Function.update T i v) (Function.update T' i v) := by
    intro i v j hj
    by_cases hji : j = i
    · subst hji
      simp
    · simp only [Function.update_of_ne hji]
      exact h j hj
  rcases exec_eq c with ⟨cause, handler, -, hT⟩ | ⟨cause, -, hT⟩
  · rw [hT, hT, Slots.register, Slots.register]
    rcases slotOf_cases c.limit cause with ⟨i, -, hi, hs⟩ | ⟨-, hs⟩
    · simp only [hs, h i hi]
      by_cases h0 : T' i = 0
      · simp only [if_pos h0]
        exact ⟨trivial, hupdate i handler⟩
      · simp only [if_neg h0]
        exact ⟨trivial, h⟩
    · simp only [hs]
      exact ⟨trivial, h⟩
  · rw [hT, hT, Slots.unregister, Slots.unregister]
    rcases slotOf_cases c.limit cause with ⟨i, -, hi, hs⟩ | ⟨-, hs⟩
    · simp only [hs]
      exact ⟨trivial, hupdate i 0⟩
    · simp only [hs]
      exact ⟨trivial, h⟩

end Call

/-! ## Interrupts -/

section Interrupt

variable {ε : Type} {log : ε → List Call} {s s' : Machine ε} {C : Callees ε}

/-- From `s` to `s'` the table changed by calls only, and `log` took them down. -/
def Logged (log : ε → List Call) (s s' : Machine ε) : Prop :=
  ∃ cs, slots s'.mem = slots (Call.execAll s.mem cs) ∧ log s'.env = log s.env ++ cs

/-- The callbacks may make any calls and take them down in the log. -/
structure Callees.Logging (C : Callees ε) (log : ε → List Call) : Prop where
  user : ∀ base hnd bit s, Logged log s (C.func_800029C0 base hnd bit s)
  direct : ∀ hnd bit s, Logged log s (C.direct hnd bit s)

theorem slots_execAll (m : Mem) (cs : List Call) :
    slots (Call.execAll m cs) = (slots m).calls cs := by
  induction cs generalizing m with
  | nil => rfl
  | cons c cs ih =>
    have hc := congrArg Prod.fst (exec_spec m c)
    change slots (Call.execAll (c.exec m).1 cs) = (((slots m).call c).1).calls cs
    rw [ih, ← hc]

/-- The table is what the logged calls make of `T`. -/
def Tracks (log : ε → List Call) (T : Slots) (s : Machine ε) : Prop :=
  slots s.mem = T.calls (log s.env)

theorem Tracks.logged {T : Slots} (h : Tracks log T s) (hs : Logged log s s') :
    Tracks log T s' := by
  obtain ⟨cs, hmem, hlog⟩ := hs
  rw [Tracks, hmem, slots_execAll, h, hlog, Slots.calls, Slots.calls, Slots.calls,
    List.foldl_append]

/-- Where an event's handler was found, and how it was called. -/
def Event.Confined : Event → Prop
  | .smflag _ => True
  | .user _ _ bit => bit.toNat < 16
  | .direct _ bit => 16 ≤ bit.toNat

theorem serveBit_logged {T : Slots} (hC : C.Logging log) (h : Tracks log T s) (i : Fin 32) :
    Tracks log T (serveBit C (idx i) s).1 ∧ ∀ e ∈ (serveBit C (idx i) s).2, e.Confined := by
  have hint := toInt_idx i
  have hnat : (idx i).toNat = i := toNat_idx (by omega) i
  unfold serveBit
  by_cases h0 : s.mem.read (sbus_int_handler (idx i)) ≠ 0
  · simp only [if_pos h0]
    by_cases hlow : (idx i).toInt < 16
    · simp only [if_pos hlow]
      refine ⟨h.logged (hC.user ..), List.forall_mem_cons.mpr ⟨trivial, ?_⟩⟩
      refine List.forall_mem_singleton.mpr ?_
      rw [Event.Confined]
      omega
    · simp only [if_neg hlow]
      refine ⟨h.logged (hC.direct ..), List.forall_mem_singleton.mpr ?_⟩
      rw [Event.Confined]
      omega
  · simp only [if_neg h0]
    exact ⟨h, fun e he => absurd he List.not_mem_nil⟩

theorem serveAll_logged {T : Slots} (hC : C.Logging log) (bits : List (Fin 32)) :
    ∀ {s}, Tracks log T s →
      Tracks log T (serveAll C bits s).1 ∧ ∀ e ∈ (serveAll C bits s).2, e.Confined := by
  induction bits with
  | nil => exact fun h => ⟨h, fun e he => absurd he List.not_mem_nil⟩
  | cons i bits ih =>
    intro s h
    obtain ⟨h₁, he₁⟩ := serveBit_logged hC h i
    obtain ⟨h₂, he₂⟩ := ih h₁
    refine ⟨h₂, fun e he => ?_⟩
    rcases List.mem_append.mp he with he | he
    · exact he₁ e he
    · exact he₂ e he

end Interrupt

/-! ## Every run -/

section Run

variable {ε : Type} {log : ε → List Call} {s₀ s : Machine ε} {events : List Event}

/-- A run of calls at both levels, interleaved with SBUS interrupts, and the
events of its interrupts.  Each interrupt has its own `SMFLAG` and callbacks. -/
inductive Run (log : ε → List Call) (s₀ : Machine ε) : Machine ε → List Event → Prop
  | start : Run log s₀ s₀ []
  | call {s : Machine ε} {events : List Event} (run : Run log s₀ s events) (c : Call) (env : ε)
      (henv : log env = log s.env ++ [c]) :
      Run log s₀ { s with mem := (c.exec s.mem).1, env := env } events
  | interrupt {s s' : Machine ε} {events done : List Event} (run : Run log s₀ s events)
      {C : Callees ε} (hC : C.Logging log) (fuel : Nat) (cause : Word)
      (h : func_80001D98 C fuel cause s = some (s', done)) : Run log s₀ s' (events ++ done)

theorem Run.tracks (h₀ : log s₀.env = []) (run : Run log s₀ s events) :
    Tracks log (slots s₀.mem) s ∧ ∀ e ∈ events, e.Confined := by
  induction run with
  | start =>
    refine ⟨?_, fun e he => absurd he List.not_mem_nil⟩
    rw [Tracks, h₀]
    rfl
  | call run c env henv ih =>
    exact ⟨ih.1.logged ⟨[c], rfl, henv⟩, ih.2⟩
  | @interrupt s s' events done run C hC fuel cause h ih =>
    obtain ⟨h₁, he₁⟩ := serveAll_logged hC (setBits (C.func_800112C0 s)) ih.1
    rw [← func_80001D98_some h] at h₁ he₁
    refine ⟨h₁, fun e he => ?_⟩
    rcases List.mem_append.mp he with he | he
    · exact ih.2 e he
    · exact he₁ e he

/-- What a call at a memory is allowed. -/
structure CallOk (c : Call) (m : Mem) : Prop where
  /-- it does and answers what the reference map does and answers -/
  acts : (slots (c.exec m).1, (c.exec m).2) = (slots m).call c
  refused : (c.exec m).2 = -1 → (c.exec m).1 = m
  writes : ChangesOnly (lowSlots c.limit) m (c.exec m).1
  reads : ∀ m', AgreeBelow c.limit (slots m) (slots m') →
    (c.exec m').2 = (c.exec m).2 ∧ AgreeBelow c.limit (slots (c.exec m).1) (slots (c.exec m').1)

/-- **The two levels.**  In every state a run reaches the table is the reference
map of the calls made so far, each call does what the map says within the slots
of its level, each interrupt ends, and no slot `func_80001EB8` can fill has been
called directly. -/
theorem sbus_confined (h₀ : log s₀.env = []) (run : Run log s₀ s events) :
    slots s.mem = (slots s₀.mem).calls (log s.env) ∧
      (∀ c : Call, CallOk c s.mem) ∧
      (∀ (C : Callees ε) (fuel : Nat) (cause : Word), 32 < fuel →
        (func_80001D98 C fuel cause s).isSome) ∧
      ∀ m cause handler, (func_80001EB8 m cause handler).2 ≠ -1 →
        ∀ hnd, .direct hnd cause ∉ events := by
  obtain ⟨htracks, hevents⟩ := run.tracks h₀
  refine ⟨htracks, fun c => ⟨exec_spec s.mem c, exec_refused, exec_frame s.mem c, ?_⟩, ?_, ?_⟩
  · intro m' h
    have hm := exec_spec s.mem c
    have hm' := exec_spec m' c
    obtain ⟨hret, hslots⟩ := call_congr h
    rw [← hm, ← hm'] at hret hslots
    exact ⟨hret.symm, hslots⟩
  · intro C fuel cause hfuel
    rw [func_80001D98_eq C hfuel]
    rfl
  · intro m cause handler hret hnd hmem
    have hhigh : 16 ≤ cause.toNat := hevents _ hmem
    rw [func_80001EB8_eq] at hret
    rcases slotOf_cases 16 cause with ⟨i, rfl, hi, -⟩ | ⟨-, hs⟩
    · change (i : Nat) < 16 at hi
      rw [toNat_idx (by omega)] at hhigh
      omega
    · rw [hs] at hret
      exact hret rfl

/-- A user handler on bit 3 that unregisters itself when it is called. -/
def onceOnly : Callees (List Call) where
  func_800112C0 _ := 0x80000008
  func_800029C0 _ _ bit s :=
    let c : Call := .func_80001F10 bit 0
    { s with mem := (c.exec s.mem).1, env := s.env ++ [c] }
  direct _ _ s := s

theorem onceOnly_logging : onceOnly.Logging id where
  user _ _ bit _ := ⟨[.func_80001F10 bit 0], rfl, rfl⟩
  direct _ _ _ := ⟨[], rfl, (List.append_nil _).symm⟩

/-- It is registered, and called by the next interrupt. -/
theorem sbus_confined_once :
    let s₀ : Machine (List Call) := machineOf (fun _ => 0) []
    let c : Call := .func_80001EB8 3 0x100
    let s₁ : Machine (List Call) := { s₀ with mem := (c.exec s₀.mem).1, env := [c] }
    ∃ s events, func_80001D98 onceOnly 33 1 s₁ = some (s, events) ∧
      slots s.mem = (slots s₀.mem).calls s.env ∧
      (∀ c : Call, CallOk c s.mem) ∧
      (∀ (C : Callees (List Call)) (fuel : Nat) (cause : Word), 32 < fuel →
        (func_80001D98 C fuel cause s).isSome) ∧
      ∀ m cause handler, (func_80001EB8 m cause handler).2 ≠ -1 →
        ∀ hnd, .direct hnd cause ∉ events := by
  intro s₀ c s₁
  have hserved := func_80001D98_eq onceOnly (by omega : 32 < 33) 1 s₁
  have run : Run id s₀ s₁ [] := .call .start c [c] rfl
  exact ⟨_, _, hserved, sbus_confined rfl (run.interrupt onceOnly_logging 33 1 hserved)⟩

end Run

end EeKernel.Sbus
