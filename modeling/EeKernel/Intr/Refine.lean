import EeKernel.Intr.Init

/-!
# The registry refines a map from causes to lists of ids

`Registry` is what the registry is for: the ordered list of handler ids of each
of the 15 INTC and 16 DMAC causes.  `Step` is the abstract behaviour of a
request, its reply included.  `Run` is a run of the code from `func_80002090`:
it starts from any prior memory and keeps, beside the memory, the registry its
calls and their replies add up to, since which calls are valid depends on it.
Every state of a run is well formed and represents that registry, and the next
valid call does what `Step` says.
-/

namespace EeKernel.Intr

open EeKernel.Lib

/-- The ordered list of handler ids of each cause. -/
abbrev Registry := Queue → List Hid

/-- A call of the registry's interface. -/
inductive Call
  | func_800018F0 (gp cause handler next arg unk : Word)
  | func_80001B50 (gp cause handler next arg unk : Word)
  | func_80001AB0 (cause hid : Word)
  | func_80001CF8 (cause hid : Word)
  | func_80001FE0 (hid : Word)
  | func_80002008 (hid : Word)
  | func_80002030 (hid : Word)
  | func_80002058 (hid : Word)

def exec (L : ListHelpers) (m : Mem) : Call → Mem × Word
  | .func_800018F0 gp cause handler next arg unk =>
      Intr.func_800018F0 L m gp cause handler next arg unk
  | .func_80001B50 gp cause handler next arg unk =>
      Intr.func_80001B50 L m gp cause handler next arg unk
  | .func_80001AB0 cause hid => Intr.func_80001AB0 L m cause hid
  | .func_80001CF8 cause hid => Intr.func_80001CF8 L m cause hid
  | .func_80001FE0 hid => Intr.func_80001FE0 m hid
  | .func_80002008 hid => Intr.func_80002008 m hid
  | .func_80002030 hid => Intr.func_80002030 m hid
  | .func_80002058 hid => Intr.func_80002058 m hid

/-- What a call asks of the registry. -/
inductive Request
  | add (q : Queue) (next unk : Word)
  | remove (q : Queue) (i : Hid)
  | set (i : Hid)

/-- The call names a cause in range and, except for an Add, a descriptor. -/
inductive Call.Names : Call → Request → Prop
  | func_800018F0 (gp : Word) (c : Fin 15) (handler next arg unk : Word) :
      Names (.func_800018F0 gp (idx c) handler next arg unk) (.add (.intc c) next unk)
  | func_80001B50 (gp : Word) (c : Fin 16) (handler next arg unk : Word) :
      Names (.func_80001B50 gp (idx c) handler next arg unk) (.add (.dmac c) next unk)
  | func_80001AB0 (c : Fin 15) (i : Hid) :
      Names (.func_80001AB0 (idx c) (idx i)) (.remove (.intc c) i)
  | func_80001CF8 (c : Fin 16) (i : Hid) :
      Names (.func_80001CF8 (idx c) (idx i)) (.remove (.dmac c) i)
  | func_80001FE0 (i : Hid) : Names (.func_80001FE0 (idx i)) (.set i)
  | func_80002008 (i : Hid) : Names (.func_80002008 (idx i)) (.set i)
  | func_80002030 (i : Hid) : Names (.func_80002030 (idx i)) (.set i)
  | func_80002058 (i : Hid) : Names (.func_80002058 (idx i)) (.set i)

/-- Add at -1, 0 or before a live id of the queue; Remove from the queue the id
is on; enable or disable a live id. -/
def Request.Valid (A : Registry) : Request → Prop
  | .add q next _ => Anchored next (A q)
  | .remove q i => i ∈ A q
  | .set i => ∃ q, i ∈ A q

/-- The one Add the code refuses at the door: at user level, for the SBUS. -/
def Refused (q : Queue) (unk : Word) : Prop := unk ≠ 0 ∧ q = .intc INTC_SBUS

instance (q : Queue) (unk : Word) : Decidable (Refused q unk) :=
  inferInstanceAs (Decidable (_ ∧ _))

/-- The abstract behaviour of a request, with its reply. -/
inductive Step : Registry → Request → Word → Registry → Prop
  | added {A : Registry} {q : Queue} {next unk : Word} {i : Hid} (hi : i ≠ 0)
      (hfree : ∀ q, i ∉ A q) (hok : ¬ Refused q unk) :
      Step A (.add q next unk) (idx i) (Function.update A q (place next i (A q)))
  | full {A : Registry} {q : Queue} {next unk : Word} (hfull : ∀ i, i ≠ 0 → ∃ q, i ∈ A q) :
      Step A (.add q next unk) (-1) A
  | refused {A : Registry} {q : Queue} {next unk : Word} (h : Refused q unk) :
      Step A (.add q next unk) (-1) A
  | removed {A : Registry} {q : Queue} {i : Hid} :
      Step A (.remove q i) (BitVec.ofNat 32 ((A q).erase i).length)
        (Function.update A q ((A q).erase i))
  | set {A : Registry} {i : Hid} : Step A (.set i) (idx i) A

def hidOf (ret : Word) : Hid := Fin.ofNat 129 ret.toNat

/-- The registry after a request that was answered `ret`. -/
def Registry.after (A : Registry) : Request → Word → Registry
  | .add q next _, ret =>
      if ret = -1 then A else Function.update A q (place next (hidOf ret) (A q))
  | .remove q i, _ => Function.update A q ((A q).erase i)
  | .set _, _ => A

/-- A run of valid calls from `func_80002090` on any prior state `k`.  `ok` says
which values of the argument `unk` the Adds may pass. -/
inductive Run (L : ListHelpers) (ok : Word → Prop) (k : Kernel) : Mem → Registry → Prop
  | init : Run L ok k (func_80002090 L k).1.mem fun _ => []
  | call {m : Mem} {A : Registry} {call : Call} {req : Request} (run : Run L ok k m A)
      (names : call.Names req) (valid : req.Valid A)
      (hok : ∀ q next unk, req = .add q next unk → ok unk) :
      Run L ok k (exec L m call).1 (A.after req (exec L m call).2)

/-! ## Calls as requests -/

def Lists.queues (r : Lists) : Registry := fun q => r (.queue q)

variable {L : ListHelpers} {m m' : Mem} {r : Lists} {A : Registry} {call : Call} {q : Queue}
  {i : Hid} {next unk : Word}

theorem exec_add (hn : call.Names (.add q next unk)) :
    ∃ gp handler arg, ∀ m, exec L m call =
      if Refused q unk then (m, -1)
      else addHandler L m gp (Node.head (.queue q)).word handler next arg unk := by
  cases hn with
  | func_800018F0 gp c handler _ arg _ =>
    refine ⟨gp, handler, arg, fun m => ?_⟩
    simp only [exec, func_800018F0_idx, Refused, Queue.intc.injEq]
  | func_80001B50 gp c handler _ arg _ =>
    refine ⟨gp, handler, arg, fun m => ?_⟩
    simp only [exec, func_80001B50_idx, Refused, reduceCtorEq, and_false, if_false]

theorem exec_remove (hn : call.Names (.remove q i)) :
    exec L m call = removeHandler L m (Node.head (.queue q)).word (idx i) := by
  cases hn <;> simp [exec, func_80001AB0, func_80001CF8]

theorem exec_set (hn : call.Names (.set i)) :
    ∃ v : Word, v ≠ 3 ∧ ∀ m, exec L m call = (m.write (Cell.state i).word v, idx i) := by
  cases hn with
  | func_80001FE0 => exact ⟨2, by simp, fun m => setState_idx m i 2⟩
  | func_80002008 => exact ⟨1, by simp, fun m => setState_idx m i 1⟩
  | func_80002030 => exact ⟨2, by simp, fun m => setState_idx m i 2⟩
  | func_80002058 => exact ⟨1, by simp, fun m => setState_idx m i 1⟩

@[simp] theorem hidOf_idx (i : Hid) : hidOf (idx i) = i := by
  rw [hidOf, toNat_idx (by omega)]
  exact Fin.ofNat_val_eq_self i

/-! ## One step -/

theorem queues_add (r : Lists) (q : Queue) (next : Word) (i : Hid) :
    (r.add q next i).queues = Function.update r.queues q (place next i (r.queues q)) := by
  funext q'
  by_cases h : q' = q
  · subst h
    simp [Lists.queues]
  · simp [Lists.queues, h, Lists.add_queue_of_ne]

theorem queues_remove (r : Lists) (q : Queue) (i : Hid) :
    (r.remove q i).queues = Function.update r.queues q ((r.queues q).erase i) := by
  funext q'
  by_cases h : q' = q
  · subst h
    simp [Lists.queues]
  · simp [Lists.queues, h, Lists.remove_queue_of_ne]

/-- A valid call keeps the registry well formed and does what `Step` says. -/
theorem WellFormed.exec_step (W : WellFormed m r) (hL : L.Correct) {req : Request}
    (hn : call.Names req) (hv : req.Valid r.queues)
    (hok : ∀ q next unk, req = .add q next unk → unk ≠ 3) :
    ∃ r', WellFormed (exec L m call).1 r' ∧ Step r.queues req (exec L m call).2 r'.queues := by
  cases req with
  | add q next unk =>
    obtain ⟨gp, handler, arg, he⟩ := exec_add (L := L) hn
    by_cases href : Refused q unk
    · rw [he, if_pos href]
      exact ⟨r, W, .refused href⟩
    rw [he, if_neg href]
    by_cases hp : r .pool = []
    · rw [addHandler_nil W.toRings hL hp]
      refine ⟨r, W, .full fun i hi => ?_⟩
      obtain ⟨h, hih⟩ := W.cover hi
      cases h with
      | pool => rw [hp] at hih; cases hih
      | queue q => exact ⟨q, hih⟩
    · obtain ⟨i, -, hA, hret⟩ := addHandler_cons gp handler arg unk W.toRings hL hp hv
        fun j hj => W.live hj
      refine ⟨r.add q next i, W.add hA (hok q next unk rfl), ?_⟩
      rw [hret, queues_add]
      exact .added (W.pos hA.free) (fun q' => W.notMem_of_ne hA.free (by simp)) href
  | remove q i =>
    rw [exec_remove hn]
    obtain ⟨hD, hret⟩ := removeHandler_spec (q := q) W.toRings hL hv (W.live hv)
    refine ⟨r.remove q i, W.remove hD hv, ?_⟩
    have hlen : BitVec.ofNat 32 (r.queues q).length - 1 =
        BitVec.ofNat 32 ((r.queues q).erase i).length := by
      rw [ofNat_pred (List.length_pos_of_mem hv), List.length_erase_of_mem hv]
    rw [hret, queues_remove, W.entries]
    exact hlen ▸ .removed
  | set i =>
    obtain ⟨v, hv3, he⟩ := exec_set (L := L) hn
    obtain ⟨q, hi⟩ := hv
    rw [he]
    exact ⟨r, W.setState hi hv3, .set⟩

theorem Step.after {req : Request} {ret : Word} {A' : Registry} (h : Step A req ret A') :
    A.after req ret = A' := by
  cases h with
  | added => rw [Registry.after, if_neg (idx_ne_neg_one _), hidOf_idx]
  | full => simp [Registry.after]
  | refused => simp [Registry.after]
  | removed => rfl
  | set => rfl

/-! ## Every run -/

/-- The memory represents the registry `A`: the descriptors are shared out
between the 32 rings, and the queues spell out `A`. -/
def Represents (m : Mem) (A : Registry) : Prop := ∃ r, WellFormed m r ∧ r.queues = A

/-- **Refinement.**  In every state a run of valid calls reaches, the memory
represents the registry of that run, and whatever valid call comes next answers
and acts as the abstract registry does. -/
theorem registry_refines {L : ListHelpers} (hL : L.Correct) (k : Kernel) {m : Mem} {A : Registry}
    (run : Run L (· ≠ 3) k m A) :
    Represents m A ∧
      ∀ (call : Call) (req : Request), call.Names req → req.Valid A →
        (∀ q next unk, req = .add q next unk → unk ≠ 3) →
        Step A req (exec L m call).2 (A.after req (exec L m call).2) ∧
          Represents (exec L m call).1 (A.after req (exec L m call).2) := by
  have hstep : ∀ {m A}, Represents m A → ∀ (call : Call) (req : Request), call.Names req →
      req.Valid A → (∀ q next unk, req = .add q next unk → unk ≠ 3) →
      Step A req (exec L m call).2 (A.after req (exec L m call).2) ∧
        Represents (exec L m call).1 (A.after req (exec L m call).2) := by
    rintro m _ ⟨r, W, rfl⟩ call req hn hv hok
    obtain ⟨r', W', hs⟩ := W.exec_step hL hn hv hok
    rw [hs.after]
    exact ⟨hs, r', W', rfl⟩
  have hrep : Represents m A := by
    induction run with
    | init => exact ⟨initLists, func_80002090_wellFormed hL k, rfl⟩
    | call _ hn hv hok ih => exact (hstep ih _ _ hn hv hok).2
  exact ⟨hrep, hstep hrep⟩

/-- An Add at the end of INTC queue 0, then one at the front of DMAC queue 3. -/
theorem registry_refines_two_adds :
    let k := zeroKernel
    let m₀ := (func_80002090 standard k).1.mem
    let add₁ : Call := .func_800018F0 0 (idx (0 : Fin 15)) 0x100 (-1) 0 2
    let m₁ := (exec standard m₀ add₁).1
    let A₁ := Registry.after (fun _ => []) (.add (.intc 0) (-1) 2) (exec standard m₀ add₁).2
    let add₂ : Call := .func_80001B50 0 (idx (3 : Fin 16)) 0x200 0 0 0
    let m₂ := (exec standard m₁ add₂).1
    let A₂ := A₁.after (.add (.dmac 3) 0 0) (exec standard m₁ add₂).2
    Represents m₂ A₂ ∧
      ∀ (call : Call) (req : Request), call.Names req → req.Valid A₂ →
        (∀ q next unk, req = .add q next unk → unk ≠ 3) →
        Step A₂ req (exec standard m₂ call).2 (A₂.after req (exec standard m₂ call).2) ∧
          Represents (exec standard m₂ call).1 (A₂.after req (exec standard m₂ call).2) := by
  apply registry_refines standard_correct zeroKernel
  refine Run.call (Run.call Run.init (.func_800018F0 0 0 0x100 (-1) 0 2) (.inl rfl) ?_)
    (.func_80001B50 0 3 0x200 0 0 0) (.inr (.inl rfl)) ?_
  · rintro q next unk ⟨⟩
    decide
  · rintro q next unk ⟨⟩
    decide

/-- With `unk` 3, the mark of a free descriptor, an accepted Add leaves a queued
descriptor that looks free: no registry is represented any more, and Remove
refuses the id. -/
theorem registry_refines_fails_unk_three :
    let m := (func_80002090 standard zeroKernel).1.mem
    let m' := (func_800018F0 standard m 0 (idx (0 : Fin 15)) 0x100 (-1) 0 3).1
    ∃ A i, Run standard (fun _ => True) zeroKernel m' A ∧ i ∈ A (.intc 0) ∧
      m'.read (Cell.state i).word = 3 ∧ ¬ Represents m' A ∧
      func_80001AB0 standard m' (idx (0 : Fin 15)) (idx i) = (m', -1) := by
  intro m m'
  have W : WellFormed m initLists := func_80002090_wellFormed standard_correct zeroKernel
  let call : Call := .func_800018F0 0 (idx (0 : Fin 15)) 0x100 (-1) 0 3
  have hn : call.Names (.add (.intc 0) (-1) 3) := .func_800018F0 0 0 0x100 (-1) 0 3
  have hp : initLists .pool ≠ [] := by decide
  have hexec : exec standard m call =
      func_800018F0 standard m 0 (idx (0 : Fin 15)) 0x100 (-1) 0 3 := by
    simp only [exec, call]
  have he : func_800018F0 standard m 0 (idx (0 : Fin 15)) 0x100 (-1) 0 3 =
      addHandler standard m 0 (Node.head (.queue (.intc 0))).word 0x100 (-1) 0 3 := by
    rw [func_800018F0_idx, if_neg (by decide)]
  obtain ⟨i, -, hA, hret⟩ := addHandler_cons (q := .intc 0) 0 0x100 0 3 W.toRings
    standard_correct hp (.inl rfl) fun j hj => W.live hj
  rw [← he] at hA hret
  have hrun : Run standard (fun _ => True) zeroKernel (exec standard m call).1
      (Registry.after (fun _ => []) (.add (.intc 0) (-1) 3) (exec standard m call).2) :=
    Run.call Run.init hn (.inl rfl) fun _ _ _ _ => trivial
  rw [hexec] at hrun
  have hafter : Registry.after (fun _ => []) (.add (.intc 0) (-1) 3)
      (func_800018F0 standard m 0 (idx (0 : Fin 15)) 0x100 (-1) 0 3).2 =
      Function.update (fun _ => []) (.intc 0) [i] := by
    rw [hret, Registry.after, if_neg (idx_ne_neg_one _), hidOf_idx]
    rfl
  rw [hafter] at hrun
  refine ⟨_, i, hrun, by simp, hA.state, ?_, ?_⟩
  · rintro ⟨r, W', hr⟩
    have hi : i ∈ r (.queue (.intc 0)) := by
      have := congrFun hr (.intc 0)
      simp only [Lists.queues, Function.update_self] at this
      simp [this]
    exact W'.live hi hA.state
  · rw [func_80001AB0]
    refine removeHandler_refused _ (.inr ?_)
    rw [int_handler_idx, fState_word]
    exact hA.state

end EeKernel.Intr
