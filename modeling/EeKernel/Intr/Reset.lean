import EeKernel.Intr.InOrder
import EeKernel.Intr.Refine

/-!
# Soft reset

`func_800021F0` rebuilds the pool with all 128 descriptors and clears every
queue but the one of the SBUS.  If that one is empty, what it leaves is what
`func_80002090` leaves, with the SBUS table kept: two such memories are `Twins`,
and calls keep them so with equal replies.  If it is not, a descriptor that is
now free is still counted and linked on the SBUS queue.
-/

namespace EeKernel.Intr

open EeKernel.Lib

/-! ## Runs with resets -/

/-- The values of `unk` the callers in the source pass. -/
def Level (unk : Word) : Prop := unk = 0 ∨ unk = 2

theorem Level.ne_three {unk : Word} (h : Level unk) : unk ≠ 3 := by
  rcases h with rfl | rfl <;> decide

/-- A run of valid calls at both levels, of SBUS registrations and of soft resets
that meet `okReset`, from `func_80002090` on any prior state `k₀`. -/
inductive Reached (L : ListHelpers) (okReset : Registry → Prop) (k₀ : Kernel) :
    Kernel → Registry → Prop
  | init : Reached L okReset k₀ (func_80002090 L k₀).1 fun _ => []
  | call {k : Kernel} {A : Registry} {call : Call} {req : Request}
      (run : Reached L okReset k₀ k A) (names : call.Names req) (valid : req.Valid A)
      (hok : ∀ q next unk, req = .add q next unk → Level unk) :
      Reached L okReset k₀ { k with mem := (exec L k.mem call).1 }
        (A.after req (exec L k.mem call).2)
  | sbus {k : Kernel} {A : Registry} (run : Reached L okReset k₀ k A) (bit : Fin 32) (f : Word) :
      Reached L okReset k₀ { k with mem := k.mem.write (Cell.sbus bit).word f } A
  | reset {k : Kernel} {A : Registry} (run : Reached L okReset k₀ k A) (hok : okReset A) :
      Reached L okReset k₀ (func_800021F0 L k).1 fun _ => []

def SbusIdle (A : Registry) : Prop := A (.intc INTC_SBUS) = []

/-- The calls, the replies and what they add up to, from memory `m₀` with an empty registry. -/
inductive Trace (L : ListHelpers) (m₀ : Mem) : List Call → List Word → Mem → Registry → Prop
  | nil : Trace L m₀ [] [] m₀ fun _ => []
  | call {cs : List Call} {ws : List Word} {m : Mem} {A : Registry} {call : Call} {req : Request}
      (run : Trace L m₀ cs ws m A) (names : call.Names req) (valid : req.Valid A)
      (hok : ∀ q next unk, req = .add q next unk → Level unk) :
      Trace L m₀ (cs ++ [call]) (ws ++ [(exec L m call).2]) (exec L m call).1
        (A.after req (exec L m call).2)

/-! ## Twins -/

/-- Two memories that hold the same registry: the same lists, the same contents of
the queued descriptors and the same SBUS table. -/
structure Twins (m m' : Mem) (r : Lists) : Prop where
  left : WellFormed m r
  right : WellFormed m' r
  queued : ∀ {q i}, i ∈ r (.queue q) →
    readDescriptor m (Node.hnd i).word = readDescriptor m' (Node.hnd i).word
  sbus : ∀ bit, m.read (Cell.sbus bit).word = m'.read (Cell.sbus bit).word

section Twins

variable {L : ListHelpers} {m m' : Mem} {r : Lists} {call : Call} {q : Queue} {i : Hid}
  {next unk : Word}

theorem Twins.symm (T : Twins m m' r) : Twins m' m r where
  left := T.right
  right := T.left
  queued hi := (T.queued hi).symm
  sbus bit := (T.sbus bit).symm

theorem Twins.add {n n' : Mem} {gp handler arg : Word} (T : Twins m m' r) (hunk : unk ≠ 3)
    (A : Added m n r q i gp handler next arg unk) (A' : Added m' n' r q i gp handler next arg unk) :
    Twins n n' (r.add q next i) where
  left := T.left.add A hunk
  right := T.right.add A' hunk
  queued hj := by
    rcases Lists.mem_add_queue hj with rfl | ⟨hji, hj⟩
    · rw [A.descriptor, A'.descriptor]
    · rw [readDescriptor_frame A.frame (by simp [addCells, links, hji]),
        readDescriptor_frame A'.frame (by simp [addCells, links, hji])]
      exact T.queued hj
  sbus bit := by
    rw [A.frame.cell (by simp [addCells, links]), A'.frame.cell (by simp [addCells, links])]
    exact T.sbus bit

theorem Twins.remove {n n' : Mem} (T : Twins m m' r) (hi : i ∈ r (.queue q))
    (D : Removed m n r q q i) (D' : Removed m' n' r q q i) : Twins n n' (r.remove q i) where
  left := T.left.remove D hi
  right := T.right.remove D' hi
  queued hj := by
    obtain ⟨hji, hj⟩ := T.left.mem_remove_queue hi hj
    rw [readDescriptor_frame D.frame (by simp [removeCells, links, hji]),
      readDescriptor_frame D'.frame (by simp [removeCells, links, hji])]
    exact T.queued hj
  sbus bit := by
    rw [D.frame.cell (by simp [removeCells, links]), D'.frame.cell (by simp [removeCells, links])]
    exact T.sbus bit

theorem Twins.setState {v : Word} (T : Twins m m' r) (hi : i ∈ r (.queue q)) (hv : v ≠ 3) :
    Twins (m.write (Cell.state i).word v) (m'.write (Cell.state i).word v) r where
  left := T.left.setState hi hv
  right := T.right.setState hi hv
  queued hj := by
    have h := T.queued hj
    simp only [readDescriptor, fHandler_word, fGp_word, fArg_word, fState_word,
      Descriptor.mk.injEq] at h
    obtain ⟨hh, hg, ha, hs⟩ := h
    simp [readDescriptor, read_write_cell, hh, hg, ha, hs]
  sbus bit := by
    rw [read_write_cell, read_write_cell, if_neg (by simp), if_neg (by simp)]
    exact T.sbus bit

/-- A valid call answers the same on both and keeps them twins. -/
theorem Twins.exec (T : Twins m m' r) (hL : L.Correct) (hd : L.Determined) {req : Request}
    (hn : call.Names req) (hv : req.Valid r.queues)
    (hok : ∀ q next unk, req = .add q next unk → Level unk) :
    (exec L m call).2 = (exec L m' call).2 ∧
      ∃ r', Twins (exec L m call).1 (exec L m' call).1 r' ∧
        r'.queues = r.queues.after req (exec L m call).2 := by
  cases req with
  | add q next unk =>
    obtain ⟨gp, handler, arg, he⟩ := exec_add (L := L) hn
    rw [he, he]
    by_cases href : Refused q unk
    · rw [if_pos href, if_pos href]
      exact ⟨rfl, r, T, by simp [Registry.after]⟩
    rw [if_neg href, if_neg href]
    by_cases hp : r .pool = []
    · rw [addHandler_nil T.left.toRings hL hp, addHandler_nil T.right.toRings hL hp]
      exact ⟨rfl, r, T, by simp [Registry.after]⟩
    · obtain ⟨i, hpop, hA, hret⟩ := addHandler_cons gp handler arg unk T.left.toRings hL hp hv
        fun j hj => T.left.live hj
      obtain ⟨i', hpop', hA', hret'⟩ := addHandler_cons gp handler arg unk T.right.toRings hL hp hv
        fun j hj => T.right.live hj
      -- both take the same descriptor
      have hii : i' = i := by
        have h := hd (T.left.ring .pool) (T.right.ring .pool)
        rw [show (Node.head .pool).word = D_8001B410 from rfl, hpop, hpop', Node.word_inj] at h
        simpa using h.symm
      subst hii
      refine ⟨hret.trans hret'.symm, r.add q next i', T.add (hok q next unk rfl).ne_three hA hA', ?_⟩
      rw [hret, queues_add, Registry.after, if_neg (idx_ne_neg_one _), hidOf_idx]
  | remove q i =>
    rw [exec_remove hn, exec_remove hn]
    obtain ⟨hD, hret⟩ := removeHandler_spec (q := q) T.left.toRings hL hv (T.left.live hv)
    obtain ⟨hD', hret'⟩ := removeHandler_spec (q := q) T.right.toRings hL hv (T.right.live hv)
    refine ⟨?_, r.remove q i, T.remove hv hD hD', queues_remove r q i⟩
    rw [hret, hret', T.left.entries, T.right.entries]
  | set i =>
    obtain ⟨v, hv3, he⟩ := exec_set (L := L) hn
    obtain ⟨q, hi⟩ := hv
    rw [he, he]
    exact ⟨rfl, r, T.setState hi hv3, rfl⟩

theorem Twins.trace (T : Twins m m' initLists) (hL : L.Correct) (hd : L.Determined)
    {cs : List Call} {ws : List Word} {n : Mem} {A : Registry} (h : Trace L m cs ws n A) :
    ∃ n' r, Trace L m' cs ws n' A ∧ Twins n n' r ∧ r.queues = A := by
  induction h with
  | nil => exact ⟨m', initLists, .nil, T, rfl⟩
  | @call cs ws n A call req run hn hv hok ih =>
    obtain ⟨n', r, run', T', rfl⟩ := ih
    obtain ⟨hret, r', T'', hr'⟩ := T'.exec hL hd hn hv hok
    refine ⟨(Intr.exec L n' call).1, r', ?_, T'', hr'⟩
    rw [hret]
    exact .call run' hn hv hok

end Twins

/-! ## What a soft reset leaves -/

section Reset

variable {L : ListHelpers} {k : Kernel}

def resetCells : Set Cell :=
  {.used} ∪ {c | ∃ q, q ≠ .intc INTC_SBUS ∧ c ∈ queueCells q} ∪ poolCells

theorem func_800021F0_spec (hL : L.Correct) (k : Kernel) :
    PoolHolds allHids (func_800021F0 L k).1.mem ∧
      ChangesOnly resetCells k.mem (func_800021F0 L k).1.mem := by
  rw [func_800021F0_mem]
  obtain ⟨hpool, hm⟩ := rebuildPool_spec hL (clearQueues ((List.finRange 16).map .dmac)
    (clearQueues (resetIntc.map .intc) (k.mem.write D_8001B400 0)))
  refine ⟨hpool, ChangesOnly.trans ?_ (hm.mono Set.subset_union_right)⟩
  have hused : ChangesOnly resetCells k.mem (k.mem.write D_8001B400 0) :=
    (ChangesOnly.refl k.mem).write (c := .used) (by simp [resetCells])
  refine (hused.trans ((clearQueues_frame _ _).mono ?_)).trans ((clearQueues_frame _ _).mono ?_)
  · rintro c ⟨q, hq, hc⟩
    obtain ⟨i, hi, rfl⟩ := List.mem_map.mp hq
    refine .inl (.inr ⟨_, ?_, hc⟩)
    simpa [resetIntc] using hi
  · rintro c ⟨q, hq, hc⟩
    obtain ⟨i, -, rfl⟩ := List.mem_map.mp hq
    exact .inl (.inr ⟨_, by simp, hc⟩)

theorem func_800021F0_keeps (hL : L.Correct) (k : Kernel) :
    (∀ bit, (func_800021F0 L k).1.mem.read (Cell.sbus bit).word = k.mem.read (Cell.sbus bit).word) ∧
      (func_800021F0 L k).1.mem.read (Cell.entries (.intc INTC_SBUS)).word =
        k.mem.read (Cell.entries (.intc INTC_SBUS)).word := by
  have hm := (func_800021F0_spec hL k).2
  refine ⟨fun bit => hm.cell ?_, hm.cell ?_⟩
  · simp [resetCells, queueCells, poolCells]
  · simp [resetCells, queueCells, poolCells]

/-- A handler left on the SBUS queue makes the registry ill formed. -/
theorem sbusIdle_of_wellFormed (hL : L.Correct) {A : Registry} (hA : Represents k.mem A)
    (h : ∃ r, WellFormed (func_800021F0 L k).1.mem r) : SbusIdle A := by
  obtain ⟨r, W, rfl⟩ := hA
  obtain ⟨r', W'⟩ := h
  obtain ⟨hpool, -⟩ := func_800021F0_spec hL k
  -- every descriptor is free now, so no queue may have one
  have hnil : r' (.queue (.intc INTC_SBUS)) = [] := by
    apply List.eq_nil_iff_forall_not_mem.mpr
    intro i hi
    exact W'.live hi (hpool.state i (mem_allHids.mpr (W'.pos hi)))
  have hentries := (func_800021F0_keeps hL k).2
  rw [W'.entries, W.entries, hnil] at hentries
  have hlen := W.length_le (.queue (.intc INTC_SBUS))
  exact List.length_eq_zero_iff.mp (ofNat_inj (by decide) (by omega) hentries).symm

theorem func_800021F0_rebuilds (hL : L.Correct) {A : Registry} (hA : Represents k.mem A)
    (hs : SbusIdle A) : WellFormed (func_800021F0 L k).1.mem initLists := by
  obtain ⟨r, W, rfl⟩ := hA
  refine func_800021F0_wellFormed hL ⟨?_, ?_⟩
  · have hring := W.ring (.queue (.intc INTC_SBUS))
    rw [show r (.queue (.intc INTC_SBUS)) = [] from hs] at hring
    exact Circular.nil_iff.mp hring
  · rw [W.entries, show r (.queue (.intc INTC_SBUS)) = [] from hs]
    rfl

end Reset

/-! ## Every run -/

section Run

variable {L : ListHelpers} {k₀ k : Kernel} {A : Registry}

/-- In every state a run reaches whose resets find the SBUS queue empty, the
registry is well formed and the service routines are those of initialisation. -/
theorem Reached.inv (hL : L.Correct) (run : Reached L SbusIdle k₀ k A) :
    Represents k.mem A ∧ k.intcIsr = initIsr ∧ k.dmacIsr = fun _ => .func_800017D8 := by
  induction run with
  | init => exact ⟨⟨initLists, func_80002090_wellFormed hL k₀, rfl⟩, func_80002090_isr k₀⟩
  | call run hn hv hok ih =>
    obtain ⟨⟨r, W, rfl⟩, hisr⟩ := ih
    obtain ⟨r', W', hs⟩ := W.exec_step hL hn hv fun q next unk h => (hok q next unk h).ne_three
    exact ⟨⟨r', W', hs.after.symm⟩, hisr⟩
  | sbus run bit f ih =>
    obtain ⟨⟨r, W, rfl⟩, hisr⟩ := ih
    refine ⟨⟨r, W.congr ?_, rfl⟩, hisr⟩
    exact .of_changesOnly ((ChangesOnly.refl _).write (Set.mem_singleton _)) fun c hc => hc ▸ id
  | reset run hok ih =>
    obtain ⟨hA, hisr, -⟩ := ih
    exact ⟨⟨initLists, func_800021F0_rebuilds hL hA hok, rfl⟩, func_800021F0_isr hisr⟩

/-- What a soft reset from `k` to `k'` is to achieve. -/
structure Rebuilt (L : ListHelpers) (k k' : Kernel) : Prop where
  wellFormed : ∃ r, WellFormed k'.mem r
  sbus : ∀ bit, k'.mem.read (Cell.sbus bit).word = k.mem.read (Cell.sbus bit).word
  /-- later runs are those from a fresh state with the same SBUS registrations -/
  behaves : ∀ k₀ : Kernel,
    let fresh := (func_80002090 L k₀).1
    let m₀ := fillSbus (fun bit => k.mem.read (Cell.sbus bit).word) fresh.mem
    k'.intcIsr = fresh.intcIsr ∧ k'.dmacIsr = fresh.dmacIsr ∧
      (∀ cs ws m A, Trace L k'.mem cs ws m A →
        ∃ m' r, Trace L m₀ cs ws m' A ∧ Twins m m' r ∧ r.queues = A) ∧
      (∀ cs ws m A, Trace L m₀ cs ws m A →
        ∃ m' r, Trace L k'.mem cs ws m' A ∧ Twins m m' r ∧ r.queues = A)

/-- **Soft reset** rebuilds the registry exactly when it finds the SBUS queue empty. -/
theorem soft_reset_iff (hL : L.Correct) (hd : L.Determined) (run : Reached L SbusIdle k₀ k A) :
    Rebuilt L k (func_800021F0 L k).1 ↔ SbusIdle A := by
  obtain ⟨hA, hisr, -⟩ := run.inv hL
  constructor
  · intro h
    exact sbusIdle_of_wellFormed hL hA h.wellFormed
  · intro hs
    have W := func_800021F0_rebuilds hL hA hs
    have hkeeps := (func_800021F0_keeps hL k).1
    refine ⟨⟨initLists, W⟩, hkeeps, fun k₁ => ?_⟩
    have W₁ := func_80002090_wellFormed hL k₁
    have T : Twins (func_800021F0 L k).1.mem
        (fillSbus (fun bit => k.mem.read (Cell.sbus bit).word) (func_80002090 L k₁).1.mem)
        initLists := by
      refine ⟨W, W₁.congr (fillSbus_same _ _), ?_, ?_⟩
      · intro q i hi
        cases hi
      · intro bit
        rw [hkeeps, fillSbus_read]
    obtain ⟨hi, hdm⟩ := func_800021F0_isr (L := L) hisr
    obtain ⟨hi₁, hdm₁⟩ := func_80002090_isr (L := L) k₁
    refine ⟨hi.trans hi₁.symm, hdm.trans hdm₁.symm, fun cs ws m A h => T.trace hL hd h,
      fun cs ws m A h => T.symm.trace hL hd h⟩

/-- The first Add after initialisation, at the end of an INTC queue. -/
theorem reached_first_add (hL : L.Correct) (k₀ : Kernel) (okReset : Registry → Prop) (c : Fin 15)
    (gp handler arg : Word) {unk : Word} (hlevel : Level unk) (hok : ¬ (unk ≠ 0 ∧ c = INTC_SBUS)) :
    let k := (func_80002090 L k₀).1
    let m := (func_800018F0 L k.mem gp (idx c) handler (-1) arg unk).1
    ∃ (i : Hid) (A : Registry), Added k.mem m initLists (.intc c) i gp handler (-1) arg unk ∧
      A (.intc c) = [i] ∧ Represents m A ∧ Reached L okReset k₀ { k with mem := m } A := by
  intro k m
  have W : WellFormed k.mem initLists := func_80002090_wellFormed hL k₀
  let call : Call := .func_800018F0 gp (idx c) handler (-1) arg unk
  obtain ⟨i, hA, hret, W'⟩ := W.add_intc hL (by decide) c gp handler (-1) arg unk (.inl rfl) hok
    hlevel.ne_three
  have hexec : exec L k.mem call = func_800018F0 L k.mem gp (idx c) handler (-1) arg unk := by
    simp only [exec, call]
  have run : Reached L okReset k₀ { k with mem := (exec L k.mem call).1 }
      (Registry.after (fun _ => []) (.add (.intc c) (-1) unk) (exec L k.mem call).2) := by
    refine .call .init (.func_800018F0 gp c handler (-1) arg unk) (.inl rfl) ?_
    rintro q next unk ⟨⟩
    exact hlevel
  have hafter : Registry.after (fun _ => []) (.add (.intc c) (-1) unk)
      (func_800018F0 L k.mem gp (idx c) handler (-1) arg unk).2 =
      Function.update (fun _ => []) (.intc c) [i] := by
    rw [hret, Registry.after, if_neg (idx_ne_neg_one _), hidOf_idx]
    rfl
  rw [hexec, hafter] at run
  refine ⟨i, _, hA, Function.update_self .., ⟨_, W', ?_⟩, run⟩
  rw [queues_add]
  rfl

/-- A kernel-level Add on the SBUS queue, then a soft reset: no registry is left. -/
theorem soft_reset_breaks_sbus :
    let k := (func_80002090 standard zeroKernel).1
    let k' : Kernel :=
      { k with mem := (func_80001A90 standard k.mem 0 (idx INTC_SBUS) 0x100 (-1) 0).1 }
    ∃ A, Reached standard SbusIdle zeroKernel k' A ∧ A (.intc INTC_SBUS) ≠ [] ∧
      ¬ Rebuilt standard k' (func_800021F0 standard k').1 := by
  intro k k'
  obtain ⟨i, A, -, hA, hrep, run⟩ := reached_first_add standard_correct zeroKernel SbusIdle
    INTC_SBUS 0 0x100 0 (.inl rfl) (by decide)
  have hk : Represents k'.mem A := by
    simp only [k', func_80001A90]
    exact hrep
  have hne := hA.trans_ne (List.cons_ne_nil i [])
  exact ⟨_, run, hne, fun h => hne (sbusIdle_of_wellFormed standard_correct hk h.wellFormed)⟩

/-- One user handler is registered when the reset comes. -/
theorem soft_reset_iff_one_handler :
    let k := (func_80002090 standard zeroKernel).1
    let call : Call := .func_800018F0 0x10 (idx (0 : Fin 15)) 0x100 (-1) 7 2
    let k' : Kernel := { k with mem := (exec standard k.mem call).1 }
    let A := Registry.after (fun _ => []) (.add (.intc 0) (-1) 2) (exec standard k.mem call).2
    Rebuilt standard k' (func_800021F0 standard k').1 ↔ SbusIdle A := by
  intro k call k' A
  refine soft_reset_iff standard_correct standard_determined
    (?_ : Reached standard SbusIdle zeroKernel k' A)
  refine .call .init (.func_800018F0 0x10 0 0x100 (-1) 7 2) (.inl rfl) ?_
  rintro q next unk ⟨⟩
  exact .inr rfl

end Run

end EeKernel.Intr
