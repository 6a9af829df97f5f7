import EeKernel.Intr.Controller
import EeKernel.Intr.Init

/-!
# Adds that fail

An Add can fail for its cause, for an empty pool, or for its `next`; the last is
found out after a descriptor has been popped, counted and filled, and nothing
puts it back.  `LateExit` is that exit, as a condition on the state before.  The
results need the pool to be a proper ring and nothing of the queues, so they
hold of the states late exits leave behind, too.
-/

namespace EeKernel.Intr

open EeKernel.Lib

/-- The arguments of an Add. -/
structure AddCall where
  k : Controller
  gp : Word
  cause : Word
  handler : Word
  next : Word
  arg : Word
  unk : Word

def AddCall.exec (L : ListHelpers) (m : Mem) (c : AddCall) : Mem × Word :=
  c.k.add L m c.gp c.cause c.handler c.next c.arg c.unk

/-- The Add takes a descriptor and then turns `next` down: it is out of range or free, with the
state of the descriptor just taken already overwritten. -/
structure LateExit (L : ListHelpers) (m : Mem) (c : AddCall) : Prop where
  accepts : c.k.Accepts c.cause c.unk
  popped : (L.func_80006420 m D_8001B410).2 ≠ 0
  notLast : c.next ≠ -1
  notFirst : c.next ≠ 0
  refused : badHid c.next ∨
    if int_handler c.next = (L.func_80006420 m D_8001B410).2 then c.unk = 3
    else m.read (fState (int_handler c.next)) = 3

/-- The lists, the counts and the pool's descriptors are as they were. -/
structure Unchanged (m m' : Mem) : Prop where
  lists : ∀ h l, Ring m (.head h) l ↔ Ring m' (.head h) l
  entries : ∀ q, m'.read (Cell.entries q).word = m.read (Cell.entries q).word
  pool : ∀ l : List Hid, Ring m (.head .pool) (l.map .hnd) → ∀ i ∈ l,
    ∀ c ∈ [Cell.handler i, .gp i, .arg i, .state i], m'.read c.word = m.read c.word
  used : m'.read Cell.used.word = m.read Cell.used.word

theorem Unchanged.refl (m : Mem) : Unchanged m m :=
  ⟨fun _ _ => Iff.rfl, fun _ => rfl, fun _ _ _ _ _ _ => rfl, rfl⟩

/-- Adds that fail, one after the other, `n` of them by the late exit. -/
inductive Failing (L : ListHelpers) (m : Mem) : Nat → Mem → Prop
  | nil : Failing L m 0 m
  | early {n : Nat} {m' : Mem} {c : AddCall} (run : Failing L m n m')
      (hret : (c.exec L m').2 = -1) (h : ¬ LateExit L m' c) : Failing L m n (c.exec L m').1
  | late {n : Nat} {m' : Mem} {c : AddCall} (run : Failing L m n m')
      (hret : (c.exec L m').2 = -1) (h : LateExit L m' c) : Failing L m (n + 1) (c.exec L m').1

/-! ## The pool alone -/

variable {L : ListHelpers} {m m' : Mem} {p : List Hid} {i : Hid} {c : AddCall}
  {n : Nat}

/-- The pop, of a pool that is a ring. -/
theorem func_800015E0_pool (P : Ring m (.head .pool) (p.map .hnd)) (hL : L.Correct)
    (hp : p ≠ []) :
    ∃ p₁ i p₂, p = p₁ ++ i :: p₂ ∧
      (L.func_80006420 m D_8001B410).2 = (Node.hnd i).word ∧
      (func_800015E0 L m).2 = (Node.hnd i).word ∧
      Ring (func_800015E0 L m).1 (.head .pool) ((p₁ ++ p₂).map .hnd) ∧
      ∀ c : Cell, (∀ n, c ≠ .next n ∧ c ≠ .prev n) → c ≠ .used →
        (func_800015E0 L m).1.read c.word = m.read c.word := by
  obtain ⟨k₁, n, k₂, hk, hret, hnew, hm⟩ := hL.pop P (by simpa using hp)
  obtain ⟨p₁, p', rfl, rfl, hp'⟩ := List.map_eq_append_iff.mp hk
  obtain ⟨i, p₂, rfl, rfl, rfl⟩ := List.map_eq_cons_iff.mp hp'
  have hv := func_800015E0_popped hret
  refine ⟨p₁, i, p₂, rfl, hret, by rw [hv], ?_, ?_⟩
  · rw [hv, List.map_append]
    exact Ring.frame hnew ((ChangesOnly.refl _).write (Set.mem_singleton Cell.used)) (by simp)
  · intro c hc hu
    rw [hv]
    simp only [D_8001B400, read_write_cell, if_neg hu]
    apply hm.cell
    rintro ⟨n, -, h | h⟩
    · exact (hc n).1 h
    · exact (hc n).2 h

/-- The test of `next` after the pop, in terms of the state before it. -/
theorem late_test {m₁ : Mem} {next : Word} (handler gp arg unk : Word) (h : ¬ badHid next)
    (hm : ∀ j, m₁.read (Cell.state j).word = m.read (Cell.state j).word) :
    (fillDescriptor m₁ (Node.hnd i).word handler gp arg unk).read (fState (int_handler next)) = 3 ↔
      if int_handler next = (Node.hnd i).word then unk = 3
      else m.read (fState (int_handler next)) = 3 := by
  obtain ⟨j, -, rfl⟩ := not_badHid_iff.mp h
  simp only [int_handler_idx, fState_word, Node.word_inj, Node.hnd.injEq]
  by_cases hji : j = i
  · subst hji
    rw [if_pos rfl, (fillDescriptor_read m₁ j handler gp arg unk).2.2.2]
  · rw [if_neg hji, (fillDescriptor_frame m₁ i handler gp arg unk).cell (by simpa using hji), hm]

theorem pool_ne_nil (P : Ring m (.head .pool) (p.map .hnd)) (hL : L.Correct)
    (h : (L.func_80006420 m D_8001B410).2 ≠ 0) : p ≠ [] := by
  rintro rfl
  exact h (congrArg Prod.snd (hL.pop_nil P))

/-- An Add that is not accepted, or finds the pool empty, does nothing. -/
theorem not_popped (P : Ring m (.head .pool) (p.map .hnd)) (hL : L.Correct)
    (h : ¬ c.k.Accepts c.cause c.unk ∨ (L.func_80006420 m D_8001B410).2 = 0) :
    c.exec L m = (m, -1) := by
  unfold AddCall.exec
  by_cases hacc : c.k.Accepts c.cause c.unk
  · have hp : p = [] := by
      by_contra hp
      obtain ⟨-, i, -, -, hpop, -⟩ := func_800015E0_pool P hL hp
      exact Node.word_ne_zero _ (hpop.symm.trans (h.resolve_left (not_not.mpr hacc)))
    subst hp
    rw [Controller.add_accepted hacc]
    unfold addHandler func_800015E0
    simp [D_8001B410, hL.pop_nil P]
  · exact Controller.add_not_accepted hacc

/-- An Add whose `next` passes the test goes on to link the new descriptor before it. -/
theorem accepted_value (hacc : c.k.Accepts c.cause c.unk) (hlate : ¬ LateExit L m c)
    (hpop : (L.func_80006420 m D_8001B410).2 = (Node.hnd i).word)
    (hret : (func_800015E0 L m).2 = (Node.hnd i).word)
    (hkeep : ∀ j, (func_800015E0 L m).1.read (Cell.state j).word = m.read (Cell.state j).word)
    (h1 : c.next ≠ -1) (h0 : c.next ≠ 0) :
    ∃ j, j ≠ 0 ∧ c.next = idx j ∧ (j = i ∨ j ≠ i ∧ m.read (Cell.state j).word ≠ 3) ∧
      c.exec L m = countAdd (L.func_800064D0 (fillDescriptor (func_800015E0 L m).1 (Node.hnd i).word
        c.handler c.gp c.arg c.unk) (Node.hnd j).word (Node.hnd i).word) (c.k.queue c.cause)
        (Node.hnd i).word := by
  have hpop0 : (L.func_80006420 m D_8001B410).2 ≠ 0 := by
    rw [hpop]
    exact Node.word_ne_zero _
  have hgood : ¬ badHid c.next := fun hbad => hlate ⟨hacc, hpop0, h1, h0, .inl hbad⟩
  have htest : ¬ if int_handler c.next = (L.func_80006420 m D_8001B410).2 then c.unk = 3
      else m.read (fState (int_handler c.next)) = 3 :=
    fun htest => hlate ⟨hacc, hpop0, h1, h0, .inr htest⟩
  have hstate := late_test c.handler c.gp c.arg c.unk hgood hkeep (i := i)
  obtain ⟨j, hj0, hj⟩ := not_badHid_iff.mp hgood
  have hval : ¬ (badHid c.next ∨ (fillDescriptor (func_800015E0 L m).1 (Node.hnd i).word c.handler
      c.gp c.arg c.unk).read (fState (int_handler c.next)) = 3) := by
    rw [hpop] at htest
    exact not_or.mpr ⟨hgood, mt hstate.mp htest⟩
  refine ⟨j, hj0, hj, ?_, ?_⟩
  · by_cases hji : j = i
    · exact .inl hji
    · refine .inr ⟨hji, fun h3 => htest ?_⟩
      rw [hpop, hj, int_handler_idx, if_neg (fun h => hji (by simpa [Node.word_inj] using h)),
        fState_word]
      exact h3
  · unfold AddCall.exec
    rw [Controller.add_accepted hacc, addHandler_of_pop hret]
    simp only [if_neg h1, if_neg h0, if_neg hval]
    rw [hj, int_handler_idx]

/-- Past the pop there is the late exit and no other. -/
theorem popped_answers (P : Ring m (.head .pool) (p.map .hnd)) (hL : L.Correct)
    (hacc : c.k.Accepts c.cause c.unk) (hpop0 : (L.func_80006420 m D_8001B410).2 ≠ 0)
    (h : ¬ LateExit L m c) : (c.exec L m).2 ≠ -1 := by
  obtain ⟨p₁, i, p₂, -, hpop, hpop', -, hkeep⟩ :=
    func_800015E0_pool P hL (pool_ne_nil P hL hpop0)
  have hid : ∀ m' queue, (countAdd m' queue (Node.hnd i).word).2 ≠ -1 := by
    intro m' queue
    unfold countAdd
    rw [handlerIndex_word]
    exact idx_ne_neg_one i
  by_cases hlink : c.next = -1 ∨ c.next = 0
  · unfold AddCall.exec
    rw [Controller.add_accepted hacc, addHandler_of_pop hpop']
    by_cases h1 : c.next = -1
    · rw [if_pos h1]
      exact hid _ _
    · rw [if_neg h1, if_pos (hlink.resolve_left h1)]
      exact hid _ _
  · obtain ⟨h1, h0⟩ := not_or.mp hlink
    obtain ⟨j, -, -, -, hval⟩ := accepted_value hacc h hpop hpop'
      (fun j => hkeep (.state j) (by simp) (by simp)) h1 h0
    rw [hval]
    exact hid _ _

/-- The Adds that fail before the pop do nothing. -/
theorem early_exit (P : Ring m (.head .pool) (p.map .hnd)) (hL : L.Correct)
    (hret : (c.exec L m).2 = -1) (h : ¬ LateExit L m c) : c.exec L m = (m, -1) := by
  by_cases hearly : ¬ c.k.Accepts c.cause c.unk ∨ (L.func_80006420 m D_8001B410).2 = 0
  · exact not_popped P hL hearly
  · obtain ⟨hacc, hp0⟩ := not_or.mp hearly
    exact absurd hret (popped_answers P hL (not_not.mp hacc) hp0 h)

/-- The late exit leaves one descriptor less on the pool. -/
theorem late_exit (P : Ring m (.head .pool) (p.map .hnd)) (hL : L.Correct) (h : LateExit L m c) :
    (c.exec L m).2 = -1 ∧ ∃ p₁ i p₂, p = p₁ ++ i :: p₂ ∧
      Ring (c.exec L m).1 (.head .pool) ((p₁ ++ p₂).map .hnd) := by
  obtain ⟨p₁, i, p₂, hp, hpop, hpop', P', hkeep⟩ :=
    func_800015E0_pool P hL (pool_ne_nil P hL h.popped)
  have hrefused := h.refused
  rw [hpop] at hrefused
  have htest : badHid c.next ∨ (fillDescriptor (func_800015E0 L m).1 (Node.hnd i).word c.handler
      c.gp c.arg c.unk).read (fState (int_handler c.next)) = 3 := by
    by_cases hb : badHid c.next
    · exact .inl hb
    · right
      rw [late_test _ _ _ _ hb fun j => hkeep _ (by simp) (by simp)]
      exact hrefused.resolve_left hb
  have hval : c.exec L m = (fillDescriptor (func_800015E0 L m).1 (Node.hnd i).word c.handler
      c.gp c.arg c.unk, -1) := by
    unfold AddCall.exec
    rw [Controller.add_accepted h.accepts, addHandler_of_pop hpop']
    simp only [if_neg h.notLast, if_neg h.notFirst, if_pos htest]
  rw [hval]
  exact ⟨rfl, p₁, i, p₂, hp, P'.frame (fillDescriptor_frame _ _ _ _ _ _) fun n => by simp⟩

/-! ## One Add and runs of them -/

theorem Unchanged.pool_eq {p' : List Hid} (h : Unchanged m m')
    (P : Ring m (.head .pool) (p.map .hnd)) (P' : Ring m' (.head .pool) (p'.map .hnd)) :
    p = p' := ((h.lists .pool _).mp P).hids_unique P'

theorem failed_add_unchanged_iff (P : Ring m (.head .pool) (p.map .hnd)) (hL : L.Correct)
    (c : AddCall) :
    ((c.exec L m).2 = -1 → Unchanged m (c.exec L m).1) ↔ ¬ LateExit L m c := by
  constructor
  · intro h hlate
    obtain ⟨hret, p₁, i, p₂, hp, P'⟩ := late_exit P hL hlate
    have hlen := congrArg List.length ((h hret).pool_eq P P')
    rw [hp] at hlen
    simp at hlen
  · intro h hret
    rw [early_exit P hL hret h]
    exact Unchanged.refl m

theorem Failing.pool (run : Failing L m n m') (hL : L.Correct)
    (P : Ring m (.head .pool) (p.map .hnd)) :
    ∃ p' : List Hid, Ring m' (.head .pool) (p'.map .hnd) ∧ p'.length + n = p.length ∧
      (n = 0 → m' = m) := by
  induction run with
  | nil => exact ⟨p, P, rfl, fun _ => rfl⟩
  | early run hret h ih =>
    obtain ⟨p', P', hlen, hsame⟩ := ih
    rw [early_exit P' hL hret h]
    exact ⟨p', P', hlen, hsame⟩
  | late run hret h ih =>
    obtain ⟨p', P', hlen, -⟩ := ih
    obtain ⟨-, p₁, i, p₂, rfl, P''⟩ := late_exit P' hL h
    refine ⟨p₁ ++ p₂, P'', ?_, fun h => absurd h (Nat.succ_ne_zero _)⟩
    simp only [List.length_append, List.length_cons] at hlen ⊢
    omega

/-- A failing Add changes nothing exactly if it is not the late exit, and a run of failing
Adds costs the pool one descriptor for each late exit. -/
theorem failed_adds (hL : L.Correct) (P : Ring m (.head .pool) (p.map .hnd)) :
    (∀ c : AddCall, ((c.exec L m).2 = -1 → Unchanged m (c.exec L m).1) ↔ ¬ LateExit L m c) ∧
    ∀ n m', Failing L m n m' → (Unchanged m m' ↔ n = 0) ∧
      ∃ p' : List Hid, Ring m' (.head .pool) (p'.map .hnd) ∧ p'.length + n = p.length := by
  refine ⟨failed_add_unchanged_iff P hL, fun n m' run => ?_⟩
  obtain ⟨p', P', hlen, hsame⟩ := run.pool hL P
  refine ⟨⟨fun h => ?_, fun h => ?_⟩, p', P', hlen⟩
  · have hp := congrArg List.length (h.pool_eq P P')
    omega
  · rw [hsame h]
    exact Unchanged.refl m

/-- What initialisation leaves has its 128 descriptors on the pool. -/
theorem init_pool : Ring (func_80002090 standard zeroKernel).1.mem (.head .pool)
    (allHids.map .hnd) :=
  (func_80002090_wellFormed standard_correct zeroKernel).ring .pool

theorem failed_adds_init :
    let m := (func_80002090 standard zeroKernel).1.mem
    (∀ c : AddCall, ((c.exec standard m).2 = -1 → Unchanged m (c.exec standard m).1) ↔
      ¬ LateExit standard m c) ∧
    ∀ n m', Failing standard m n m' → (Unchanged m m' ↔ n = 0) ∧
      ∃ p' : List Hid, Ring m' (.head .pool) (p'.map .hnd) ∧ p'.length + n = allHids.length :=
  failed_adds standard_correct init_pool

/-- `next` = 0x1000 is found out too late: the Add answers -1, the pool is one descriptor
short, and `D_8001B400` counts it as used. -/
theorem failed_add_loses_descriptor :
    let m := (func_80002090 standard zeroKernel).1.mem
    let res := func_80001B50 standard m 0 (idx (3 : Fin 16)) 0x100 0x1000 0 2
    res.2 = -1 ∧
      (∃ p : List Hid, Ring res.1 (.head .pool) (p.map .hnd) ∧ p.length = 127) ∧
      m.read D_8001B400 = 0 ∧ res.1.read D_8001B400 = 1 ∧
      ¬ (res.2 = -1 → Unchanged m res.1) := by
  intro m res
  let c : AddCall := ⟨.dmac, 0, idx (3 : Fin 16), 0x100, 0x1000, 0, 2⟩
  have W : WellFormed m initLists := func_80002090_wellFormed standard_correct zeroKernel
  have hpool : initLists .pool ≠ [] := by decide
  obtain ⟨i, -, hpop, -⟩ := func_800015E0_cons W.toRings standard_correct hpool
  have hbad : badHid 0x1000 := by decide
  have hlate : LateExit standard m c := by
    refine ⟨?_, ?_, by simp [c], by simp [c], .inl hbad⟩
    · have hcause : (idx (3 : Fin 16)).toNat < DMAC_MAX := by decide
      exact hcause
    · rw [hpop]
      exact Node.word_ne_zero _
  obtain ⟨hans, p₁, i', p₂, hp, P⟩ := late_exit init_pool standard_correct hlate
  have hlen := congrArg List.length hp
  rw [length_allHids, List.length_append, List.length_cons] at hlen
  have hzero : m.read D_8001B400 = 0 := W.used.trans (by simp [initLists])
  obtain ⟨-, -, -, hcount, -⟩ := addHandler_refused 0 0x100 0 2 W.toRings standard_correct hpool
    (by decide) (by decide) (.inl hbad) (Node.head (.queue (.dmac 3))).word
  have hres : func_80001B50 standard m 0 (idx (3 : Fin 16)) 0x100 0x1000 0 2 = res := rfl
  rw [← func_80001B50_idx, hres, ← D_8001B400, hzero] at hcount
  refine ⟨hans, ⟨p₁ ++ p₂, P, ?_⟩, hzero, hcount, fun h => ?_⟩
  · rw [List.length_append]
    omega
  · exact (failed_add_unchanged_iff init_pool standard_correct c).mp h hlate

end EeKernel.Intr
