import EeKernel.Intr.InOrder
import EeKernel.Intr.Removal

/-!
# Registration from user level

A user-level Add stores state 2 and the enable and disable calls store 2 or 1,
so a queued descriptor is never in state 0.  What can go wrong is the count: an
Add that names a position on another queue, or a Remove that names the wrong
cause, makes `entries` and the list drift apart, and a walk with rounds to spare
reads the list head, whose `state` is the `entries` of the next queue.

`UserRun` is every run of user-level calls and interrupts from
`func_80002090`; `Syscall.Proper` is the condition on a call under which
`UserSafe`, the invariant, survives it.
-/

namespace EeKernel.Intr

open EeKernel.Lib

/-- A user-level call.  The enable and disable calls take an id in 1..128. -/
inductive Syscall
  | func_80001A70 (gp cause handler next arg : Word)
  | func_80001CB8 (gp cause handler next arg : Word)
  | func_80001AB0 (cause : Fin 15) (hid : Word)
  | func_80001CF8 (cause : Fin 16) (hid : Word)
  | func_80001FE0 (hid : Fin 128)
  | func_80002008 (hid : Fin 128)
  | func_80002030 (hid : Fin 128)
  | func_80002058 (hid : Fin 128)

namespace Syscall

def exec (L : ListHelpers) (m : Mem) : Syscall → Mem × Word
  | func_80001A70 gp cause handler next arg => Intr.func_80001A70 L m gp cause handler next arg
  | func_80001CB8 gp cause handler next arg => Intr.func_80001CB8 L m gp cause handler next arg
  | func_80001AB0 cause hid => Intr.func_80001AB0 L m (idx cause) hid
  | func_80001CF8 cause hid => Intr.func_80001CF8 L m (idx cause) hid
  | func_80001FE0 hid => Intr.func_80001FE0 m (idx hid.succ)
  | func_80002008 hid => Intr.func_80002008 m (idx hid.succ)
  | func_80002030 hid => Intr.func_80002030 m (idx hid.succ)
  | func_80002058 hid => Intr.func_80002058 m (idx hid.succ)

def handler : Syscall → Option Word
  | func_80001A70 _ _ handler _ _ | func_80001CB8 _ _ handler _ _ => some handler
  | _ => none

end Syscall

/-- Interrupts' handlers and what the dispatcher calls besides leave the registry alone. -/
structure Callees.Quiet {ε : Type} (C : Callees ε) : Prop extends C.LeavesRegistry where
  kprintf : ∀ text inum s, SameRegistry s.mem (C.kprintf text inum s).mem
  func_80000DC0 : ∀ x s, SameRegistry s.mem (C.func_80000DC0 x s).mem

/-- A run of user-level calls that meet `ok`, with interrupts in between, from
`func_80002090` on any prior state; `given` are the handlers passed so far. -/
inductive UserRun (L : ListHelpers) (ok : Mem → Syscall → Prop) (k : Kernel) :
    Mem → (Word → Prop) → Prop
  | init : UserRun L ok k (func_80002090 L k).1.mem fun _ => False
  | call {m : Mem} {given : Word → Prop} {c : Syscall} (run : UserRun L ok k m given) (h : ok m c) :
      UserRun L ok k (c.exec L m).1 fun f => given f ∨ c.handler = some f
  | irq {m : Mem} {given : Word → Prop} {ε : Type} {C : Callees ε} {s : Machine ε} {q : Queue}
      {fuel : Nat} {w : Served ε} (run : UserRun L ok k m given) (hs : s.mem = m) (hC : C.Quiet)
      (hv : VsyncOutside q m) (hw : interrupt C fuel q s = some w) : UserRun L ok k w.machine.mem given

/-- An interrupt delivered on `m` ends, and all it does is call handlers of `given`
through `func_800029C0`. -/
def OnlyUserCalls (m : Mem) (given : Word → Prop) : Prop :=
  ∀ (ε : Type) (C : Callees ε) (s : Machine ε) (q : Queue), s.mem = m → C.LeavesRegistry →
    VsyncOutside q m →
    ∃ w, (∀ fuel, 128 < fuel → interrupt C fuel q s = some w) ∧
      ∀ v ∈ w.invocations, ∃ call gp res, v = .user call gp res ∧ given call.handler

/-! ## Proper calls -/

def OnQueue (m : Mem) (q : Queue) (i : Hid) : Prop :=
  ∃ l : List Hid, Ring m (.head (.queue q)) (l.map .hnd) ∧ i ∈ l

/-- The pool is empty, or `next` is -1, 0, a handler of the same queue, or an id the
Add refuses: out of range, or free and not the descriptor the Add itself takes. -/
def ProperNext (L : ListHelpers) (m : Mem) (q : Queue) (next : Word) : Prop :=
  (L.func_80006420 m D_8001B410).2 = 0 ∨
    next = -1 ∨ next = 0 ∨ badHid next ∨ ∃ i, next = idx i ∧
      (OnQueue m q i ∨ m.read (Cell.state i).word = 3 ∧
        (L.func_80006420 m D_8001B410).2 ≠ (Node.hnd i).word)

/-- `hid` is on queue `q`, or an id the Remove refuses. -/
def ProperHid (m : Mem) (q : Queue) (hid : Word) : Prop :=
  badHid hid ∨ m.read (fState (int_handler hid)) = 3 ∨ ∃ i, hid = idx i ∧ OnQueue m q i

def Syscall.Proper (L : ListHelpers) (m : Mem) : Syscall → Prop
  | func_80001A70 _ cause _ next _ =>
      ∀ c, cause = idx c → c ≠ INTC_SBUS → ProperNext L m (.intc c) next
  | func_80001CB8 _ cause _ next _ => ∀ c, cause = idx c → ProperNext L m (.dmac c) next
  | func_80001AB0 c hid => ProperHid m (.intc c) hid
  | func_80001CF8 c hid => ProperHid m (.dmac c) hid
  | _ => True

/-! ## The invariant -/

/-- The lists are counted, and a queued descriptor is in state 1 or 2 with a given handler. -/
structure UserSafe (m : Mem) (given : Word → Prop) (r : Lists) : Prop extends Counted m r where
  state : ∀ {q i}, i ∈ r (.queue q) →
    m.read (Cell.state i).word = 1 ∨ m.read (Cell.state i).word = 2
  handler : ∀ {q i}, i ∈ r (.queue q) → given (m.read (Cell.handler i).word)

section Invariant

variable {L : ListHelpers} {m m' : Mem} {given given' : Word → Prop} {r : Lists} {q : Queue}
  {i : Hid} {gp handler next arg : Word}

theorem UserSafe.live (U : UserSafe m given r) (hi : i ∈ r (.queue q)) :
    m.read (Cell.state i).word ≠ 3 := by
  rcases U.state hi with h | h <;> rw [h] <;> decide

theorem Rings.onQueue (R : Rings m r) : OnQueue m q i ↔ i ∈ r (.queue q) := by
  constructor
  · rintro ⟨l, hl, hi⟩
    have heq : l = r (.queue q) := hl.hids_unique (R.ring (.queue q))
    exact heq ▸ hi
  · intro hi
    exact ⟨_, R.ring (.queue q), hi⟩

theorem UserSafe.congr (U : UserSafe m given r) (hs : SameRegistry m m') : UserSafe m' given r where
  toCounted := U.toCounted.congr hs
  state hi := by
    rw [hs (.state _) trivial]
    exact U.state hi
  handler hi := by
    rw [hs (.handler _) trivial]
    exact U.handler hi

theorem UserSafe.weaken (U : UserSafe m given r) (h : ∀ f, given f → given' f) :
    UserSafe m given' r where
  toCounted := U.toCounted
  state := U.state
  handler hi := h _ (U.handler hi)

/-- The state and the handler of the queued descriptors are kept, the lists being
those of `r` or shorter. -/
theorem UserSafe.of_kept {r' : Lists} (U : UserSafe m given r) (C : Counted m' r')
    (hsub : ∀ {q i}, i ∈ r' (.queue q) → i ∈ r (.queue q) ∧
      m'.read (Cell.state i).word = m.read (Cell.state i).word ∧
      m'.read (Cell.handler i).word = m.read (Cell.handler i).word) : UserSafe m' given r' where
  toCounted := C
  state hi := by
    obtain ⟨hi', hs, -⟩ := hsub hi
    rw [hs]
    exact U.state hi'
  handler hi := by
    obtain ⟨hi', -, hh⟩ := hsub hi
    rw [hh]
    exact U.handler hi'

theorem UserSafe.add (U : UserSafe m given r) (A : Added m m' r q i gp handler next arg 2) :
    UserSafe m' (fun f => given f ∨ some handler = some f) (r.add q next i) := by
  refine ⟨U.toCounted.add A, ?_, ?_⟩
  · intro q' j hj
    rcases Lists.mem_add_queue hj with rfl | ⟨hji, hj⟩
    · exact .inr A.state
    · rw [A.frame.cell (by simp [addCells, links, hji])]
      exact U.state hj
  · intro q' j hj
    rcases Lists.mem_add_queue hj with rfl | ⟨hji, hj⟩
    · exact .inr (congrArg some A.handler.symm)
    · rw [A.frame.cell (by simp [addCells, links, hji])]
      exact .inl (U.handler hj)

theorem UserSafe.remove (U : UserSafe m given r) (D : Removed m m' r q q i)
    (hi : i ∈ r (.queue q)) : UserSafe m' given (r.remove q i) := by
  refine U.of_kept (U.toCounted.remove D hi) fun {q' j} hj => ?_
  have hj' := U.mem_remove_queue hi hj
  exact ⟨hj'.2, D.frame.cell (by simp [removeCells, links, hj'.1]),
    D.frame.cell (by simp [removeCells, links, hj'.1])⟩

theorem UserSafe.setState (U : UserSafe m given r) {v : Word} (hv : v = 1 ∨ v = 2) (i : Hid) :
    UserSafe (m.write (Cell.state i).word v) given r where
  toCounted := U.toCounted.setState i v
  state {q' j} hj := by
    rw [read_write_cell]
    split
    · exact hv
    · exact U.state hj
  handler {q' j} hj := by
    rw [read_write_cell, if_neg (by simp)]
    exact U.handler hj

theorem UserSafe.addHandler (U : UserSafe m given r) (hL : L.Correct)
    (hnext : ProperNext L m q next) (gp handler arg : Word) :
    ∃ r', UserSafe (addHandler L m gp (Node.head (.queue q)).word handler next arg 2).1
      (fun f => given f ∨ some handler = some f) r' := by
  have hmore : ∀ f, given f → given f ∨ some handler = some f := fun f h => .inl h
  by_cases hp : r .pool = []
  · rw [addHandler_nil U.toRings hL hp]
    exact ⟨r, U.weaken hmore⟩
  by_cases ha : Anchored next (r (.queue q))
  · obtain ⟨i, -, hA, -⟩ :=
      addHandler_cons gp handler arg 2 U.toRings hL hp ha fun j hj => U.live hj
    exact ⟨_, U.add hA⟩
  · have h1 : next ≠ -1 := fun h => ha (.inl h)
    have h0 : next ≠ 0 := fun h => ha (.inr (.inl h))
    have href : RefusedNext L m next := by
      rcases hnext with h | h | h | h | ⟨i, hi, hon | hfree⟩
      · obtain ⟨i, -, hpop, -⟩ := func_800015E0_cons U.toRings hL hp
        exact absurd (hpop.symm.trans h) (Node.word_ne_zero _)
      · exact absurd h h1
      · exact absurd h h0
      · exact .inl h
      · exact absurd (.inr (.inr ⟨i, U.onQueue.mp hon, hi⟩)) ha
      · exact .inr ⟨i, hi, hfree⟩
    obtain ⟨i, hi, R', -, hm⟩ := addHandler_refused gp handler arg 2 U.toRings hL hp h1 h0 href
      (Node.head (.queue q)).word
    have hqueue : ∀ q', (Function.update r .pool ((r .pool).erase i)) (.queue q') = r (.queue q') :=
      fun q' => Function.update_of_ne (by simp) _ _
    refine ⟨_, (U.of_kept ⟨R', fun q' => ?_⟩ fun {q' j} hj => ?_).weaken hmore⟩
    · rw [hqueue, hm.cell (by simp [links]), U.entries]
    · rw [hqueue] at hj
      have hji : j ≠ i := by
        rintro rfl
        exact U.notMem_of_ne hi (by simp) hj
      exact ⟨hj, hm.cell (by simp [links, hji]), hm.cell (by simp [links, hji])⟩

theorem UserSafe.removeHandler {hid : Word} (U : UserSafe m given r) (hL : L.Correct)
    (hhid : ProperHid m q hid) :
    ∃ r', UserSafe (removeHandler L m (Node.head (.queue q)).word hid).1 given r' := by
  by_cases href : badHid hid ∨ m.read (fState (int_handler hid)) = 3
  · rw [removeHandler_refused _ href]
    exact ⟨r, U⟩
  · obtain ⟨i, rfl, hon⟩ : ∃ i, hid = idx i ∧ OnQueue m q i := by
      rcases hhid with h | h | h
      · exact absurd (.inl h) href
      · exact absurd (.inr h) href
      · exact h
    have hi := U.onQueue.mp hon
    exact ⟨_, U.remove (removeHandler_spec U.toRings hL hi (U.live hi)).1 hi⟩

theorem UserSafe.exec (U : UserSafe m given r) (hL : L.Correct) {c : Syscall} (hc : c.Proper L m) :
    ∃ r', UserSafe (c.exec L m).1 (fun f => given f ∨ c.handler = some f) r' := by
  have hmore : ∀ {o : Option Word} f, given f → given f ∨ o = some f := fun f h => .inl h
  cases c with
  | func_80001A70 gp cause handler next arg =>
    by_cases hcause : cause.toNat < 15
    · obtain ⟨c, rfl⟩ := exists_idx hcause
      simp only [Syscall.exec, func_80001A70, func_800018F0_idx]
      split
      · exact ⟨r, U.weaken hmore⟩
      · rename_i hsbus
        exact U.addHandler hL (hc c rfl fun h => hsbus ⟨by decide, h⟩) gp handler arg
    · have href : func_80001A70 L m gp cause handler next arg = (m, -1) := by
        rw [func_80001A70, func_800018F0]
        split
        · rfl
        · exact if_pos (by rw [INTC_MAX]; omega)
      rw [Syscall.exec, href]
      exact ⟨r, U.weaken hmore⟩
  | func_80001CB8 gp cause handler next arg =>
    by_cases hcause : cause.toNat < 16
    · obtain ⟨c, rfl⟩ := exists_idx hcause
      simp only [Syscall.exec, func_80001CB8, func_80001B50_idx]
      exact U.addHandler hL (hc c rfl) gp handler arg
    · have href : func_80001CB8 L m gp cause handler next arg = (m, -1) := by
        rw [func_80001CB8, func_80001B50]
        exact if_pos (by rw [DMAC_MAX]; omega)
      rw [Syscall.exec, href]
      exact ⟨r, U.weaken hmore⟩
  | func_80001AB0 c hid =>
    obtain ⟨r', U'⟩ := U.removeHandler hL hc
    rw [Syscall.exec, func_80001AB0, intc_queue_idx]
    exact ⟨r', U'.weaken hmore⟩
  | func_80001CF8 c hid =>
    obtain ⟨r', U'⟩ := U.removeHandler hL hc
    rw [Syscall.exec, func_80001CF8, dmac_queue_idx]
    exact ⟨r', U'.weaken hmore⟩
  | func_80001FE0 hid =>
    rw [Syscall.exec, func_80001FE0, setState_idx]
    exact ⟨r, (U.setState (.inr rfl) hid.succ).weaken hmore⟩
  | func_80002008 hid =>
    rw [Syscall.exec, func_80002008, setState_idx]
    exact ⟨r, (U.setState (.inl rfl) hid.succ).weaken hmore⟩
  | func_80002030 hid =>
    rw [Syscall.exec, func_80002030, setState_idx]
    exact ⟨r, (U.setState (.inr rfl) hid.succ).weaken hmore⟩
  | func_80002058 hid =>
    rw [Syscall.exec, func_80002058, setState_idx]
    exact ⟨r, (U.setState (.inl rfl) hid.succ).weaken hmore⟩

end Invariant

/-! ## Every run -/

section Run

variable {L : ListHelpers} {m : Mem} {given : Word → Prop} {r : Lists}

/-- Queued descriptors in state 1 or 2 get no direct call. -/
theorem UserSafe.onlyUserCalls (U : UserSafe m given r) : OnlyUserCalls m given := by
  intro ε C s q hs hr hv
  subst hs
  obtain ⟨w, -, hw, W⟩ := interrupt_delivers hr U.toCounted hv
  refine ⟨_, hw, fun v hmem => ?_⟩
  rw [Served.invocations, finish_visits] at hmem
  have hmem' : v ∈ w.invocations := hmem
  rw [W.invocations] at hmem'
  obtain ⟨x, hx, hcases⟩ := deliver_invocation hmem'
  obtain ⟨i, hi, rfl⟩ := List.mem_map.mp hx
  have U' := U.congr (entered_same hv)
  have hstate := U'.state hi
  have hhandler := U'.handler hi
  simp only [descriptorAt, readDescriptor, fState_word, fHandler_word] at hcases
  rcases hcases with ⟨-, s', res, rfl⟩ | ⟨h0, -⟩
  · exact ⟨_, _, _, rfl, by simpa [userCall] using hhandler⟩
  · rw [h0] at hstate
    rcases hstate with h | h
    · exact absurd h (by decide)
    · exact absurd h (by decide)

/-- An interrupt whose callees leave the registry alone leaves the invariant. -/
theorem UserSafe.interrupt {ε : Type} {C : Callees ε} {s : Machine ε} {q : Queue} {fuel : Nat}
    {w : Served ε} (U : UserSafe s.mem given r) (hC : C.Quiet) (hv : VsyncOutside q s.mem)
    (hw : interrupt C fuel q s = some w) : UserSafe w.machine.mem given r := by
  obtain ⟨w', -, hw', W⟩ := interrupt_delivers hC.toLeavesRegistry U.toCounted hv
  have hw₁ := interrupt_mono hw (Nat.le_add_right fuel 129)
  rw [hw' _ (by omega)] at hw₁
  cases hw₁
  have hm : SameRegistry s.mem w'.machine.mem := by
    rw [W.machine]
    exact (entered_same hv).trans (deliver_same hC.toLeavesRegistry _ _)
  unfold finish
  split
  · exact ((U.congr hm).congr (hC.kprintf _ _ _)).congr (hC.func_80000DC0 _ _)
  · exact U.congr hm

/-- **User-level registration never leads to a direct call**, in every run of
proper calls and of interrupts whose handlers leave the registry alone. -/
theorem user_level_never_direct (hL : L.Correct) (k : Kernel)
    (run : UserRun L (fun m c => c.Proper L m) k m given) : OnlyUserCalls m given := by
  have hinv : ∃ r, UserSafe m given r := by
    induction run with
    | init =>
      have W := func_80002090_wellFormed hL k
      refine ⟨initLists, W.toCounted, ?_, ?_⟩
      · intro q i hi
        cases hi
      · intro q i hi
        cases hi
    | call run hok ih =>
      obtain ⟨r, U⟩ := ih
      exact U.exec hL hok
    | irq run hs hC hv hw ih =>
      obtain ⟨r, U⟩ := ih
      subst hs
      exact ⟨r, U.interrupt hC hv hw⟩
  obtain ⟨r, U⟩ := hinv
  exact U.onlyUserCalls

theorem user_level_never_direct_one_add :
    let m := (func_80002090 standard zeroKernel).1.mem
    let add : Syscall := .func_80001A70 0x10 (idx (0 : Fin 15)) 0x100 (-1) 7
    OnlyUserCalls (add.exec standard m).1 fun f => False ∨ add.handler = some f := by
  intro m add
  have hproper : add.Proper standard m := fun _ _ _ => .inr (.inl rfl)
  exact user_level_never_direct standard_correct zeroKernel (.call .init hproper)

end Run

/-! ## A Remove with the wrong cause -/

/-- The head of INTC queue 0, read as a descriptor. -/
theorem readDescriptor_queue_zero (m : Mem) :
    (readDescriptor m (Node.head (.queue (.intc 0))).word).state =
        m.read (Cell.entries (.intc 1)).word ∧
      (readDescriptor m (Node.head (.queue (.intc 0))).word).handler =
        m.read (Cell.entries (.intc 0)).word := by
  have hs : fState (Node.head (.queue (.intc 0))).word = (Cell.entries (.intc 1)).word := by decide
  have hh : fHandler (Node.head (.queue (.intc 0))).word = (Cell.entries (.intc 0)).word := by
    decide
  simp only [readDescriptor, hs, hh, and_self]

/-- The walk of an empty queue that counts 1, before one that counts 0, calls address 1
directly. -/
theorem dispatch_empty_counted {m : Mem} (he₀ : m.read (Cell.entries (.intc 0)).word = 1)
    (he₁ : m.read (Cell.entries (.intc 1)).word = 0)
    (hring : Ring m (.head (.queue (.intc 0))) []) :
    ∃ w, func_80001670 idle 129 (idx (0 : Fin 15)) (machineOf m ()) = some w ∧
      w.invocations = [.direct 1 (idx (0 : Fin 15))] := by
  have hnext : (machineOf m ()).mem.read (fNext (Node.head (.queue (.intc 0))).word) =
      (Node.head (.queue (.intc 0))).word := by
    rw [fNext_word]
    exact hring.rel_first.1
  obtain ⟨hstate, hhandler⟩ := readDescriptor_queue_zero m
  rw [he₁] at hstate
  rw [he₀] at hhandler
  have hv : visit idle (idx (0 : Fin 15)) (Node.head (.queue (.intc 0))).word (machineOf m ()) =
      (machineOf m (), some (.direct 1 (idx (0 : Fin 15))), false) := by
    rw [visit_direct idle (idx (0 : Fin 15)) rfl (by rw [machineOf, hstate]; decide) hstate]
    rw [machineOf, hhandler]
    rfl
  have hbound : (machineOf m ()).mem.read (fEntries (Node.head (.queue (.intc 0))).word) = 1 := by
    rw [fEntries_word]
    exact he₀
  have hwalk : walk idle (Node.head (.queue (.intc 0))).word (idx (0 : Fin 15)) 129 0
      (Node.head (.queue (.intc 0))).word (machineOf m ()) = _ :=
    (walk_next (by rw [hbound]; decide) hv).trans (congrArg _ (walk_done (by rw [hbound]; decide)))
  rw [func_80001670, vsync_of_ne (by decide), intc_queue_idx, dispatch,
    hnext, hwalk]
  exact ⟨_, rfl, rfl⟩

/-- After a Remove charged to cause 5, INTC queue 0 is empty and counts 1: its
interrupt calls address 1 directly. -/
theorem user_level_direct_call :
    ∃ m given, UserRun standard (fun _ _ => True) zeroKernel m given ∧ ¬ OnlyUserCalls m given ∧
      ∃ w, func_80001670 idle 129 (idx (0 : Fin 15)) (machineOf m ()) = some w ∧
        w.invocations = [.direct 1 (idx (0 : Fin 15))] := by
  obtain ⟨r, i, W, hr, hempty, -⟩ := oneHandler_spec
  have hmem : i ∈ r (.queue (.intc 0)) := by
    rw [hr]
    exact List.mem_singleton_self i
  let add : Syscall := .func_80001A70 0x10 (idx (0 : Fin 15)) 0x100 (-1) 7
  let remove : Syscall := .func_80001AB0 5 (idx i)
  have hadd : (add.exec standard (func_80002090 standard zeroKernel).1.mem).1 = oneHandler := by
    unfold oneHandler
    rfl
  have hrun : UserRun standard (fun _ _ => True) zeroKernel oneHandler
      (fun f => False ∨ add.handler = some f) := by
    rw [← hadd]
    exact .call .init trivial
  have hremove : (remove.exec standard oneHandler).1 =
      (removeHandler standard oneHandler (Node.head (.queue (.intc 5))).word (idx i)).1 := by
    simp only [remove, Syscall.exec, func_80001AB0, intc_queue_idx]
  obtain ⟨hD, -⟩ := removeHandler_spec (q := .intc 5) W.toRings standard_correct hmem (W.live hmem)
  obtain ⟨hring, he₀, -⟩ := removed_wrong_cause W hr (hempty _ (by simp)) hD
  have he₁ : (removeHandler standard oneHandler (Node.head (.queue (.intc 5))).word
      (idx i)).1.read (Cell.entries (.intc 1)).word = 0 := by
    rw [hD.frame.cell (by simp [removeCells, links]), W.entries, hempty _ (by simp)]
    rfl
  obtain ⟨w, hintr, hinv⟩ := dispatch_empty_counted he₀ he₁ hring
  rw [← hremove] at hintr
  refine ⟨_, _, .call (c := remove) hrun trivial, ?_, w, hintr, hinv⟩
  intro honly
  obtain ⟨w', hw', hall⟩ := honly Unit idle (machineOf _ ()) (.intc 0) rfl idle_leavesRegistry
    (vsyncOutside_of_ne (by decide) _)
  obtain rfl : w' = w := Option.some.inj ((hw' 129 (by omega)).symm.trans hintr)
  obtain ⟨call, gp, res, heq, -⟩ := hall (.direct 1 (idx (0 : Fin 15))) (by simp [hinv])
  cases heq

end EeKernel.Intr
