import EeKernel.Lib.Lts
import EeKernel.Intr.Reset

/-!
# The registry as a system

Calls, interrupts and soft resets in any order, and what is seen of them from
outside: the reply of a call and, of an interrupt, the handlers that were run
with their arguments.  `kernel` takes these steps in memory, `board` on a plain
list of ids for each cause and a descriptor for each id.  A board has no rings,
no counters and no pointers, and shows everything the kernel shows.
-/

namespace EeKernel.Intr

open EeKernel.Lib

/-! ## What a call does -/

/-- The descriptor a call leaves of the one it names: an Add fills all of it, an
enable or disable stores its `state`. -/
def Call.fills : Call → Descriptor → Descriptor
  | .func_800018F0 gp _ handler _ arg unk, _ | .func_80001B50 gp _ handler _ arg unk, _ =>
      { handler := handler, gp := gp, arg := arg, state := unk }
  | .func_80001FE0 _, d | .func_80002030 _, d => { d with state := 2 }
  | .func_80002008 _, d | .func_80002058 _, d => { d with state := 1 }
  | .func_80001AB0 _ _, d | .func_80001CF8 _ _, d => d

/-- What a valid call does to a registry that holds `r`: the memory, the reply and
the lists it leaves. -/
inductive CallDoes (call : Call) (m : Mem) (r : Lists) : Request → Mem → Word → Lists → Prop
  | refused {q : Queue} {next unk : Word} (h : Refused q unk ∨ r .pool = []) :
      CallDoes call m r (.add q next unk) m (-1) r
  | added {q : Queue} {next unk gp handler arg : Word} {i : Hid} {m' : Mem}
      (hok : ¬ Refused q unk) (A : Added m m' r q i gp handler next arg unk)
      (fills : ∀ d, call.fills d = { handler := handler, gp := gp, arg := arg, state := unk }) :
      CallDoes call m r (.add q next unk) m' (idx i) (r.add q next i)
  | removed {q : Queue} {i : Hid} {m' : Mem} (hi : i ∈ r (.queue q)) (D : Removed m m' r q q i) :
      CallDoes call m r (.remove q i) m' (BitVec.ofNat 32 ((r (.queue q)).erase i).length)
        (r.remove q i)
  | set {q : Queue} {i : Hid} {v : Word} (hi : i ∈ r (.queue q)) (hv : v ≠ 3)
      (fills : ∀ d, call.fills d = { d with state := v }) :
      CallDoes call m r (.set i) (m.write (Cell.state i).word v) (idx i) r

/-- The words a call may write: all of the registry but descriptor 0. -/
def Cell.Writable : Cell → Prop
  | .used | .entries _ => True
  | .prev n | .next n => n ≠ .hnd 0
  | .handler i | .gp i | .arg i | .state i => i ≠ 0
  | .vsyncFlag | .vsyncCsr | .sbus _ => False

section Call

variable {L : ListHelpers} {m m' : Mem} {r r' : Lists} {call : Call} {req : Request} {ret : Word}
  {q : Queue} {i : Hid} {next unk : Word}

theorem exec_fills (hn : call.Names (.add q next unk)) :
    ∃ gp handler arg,
      (∀ d, call.fills d = { handler := handler, gp := gp, arg := arg, state := unk }) ∧
      ∀ m, exec L m call = if Refused q unk then (m, -1)
        else addHandler L m gp (Node.head (.queue q)).word handler next arg unk := by
  cases hn with
  | func_800018F0 gp c handler _ arg _ =>
    refine ⟨gp, handler, arg, fun _ => rfl, fun m => ?_⟩
    simp only [exec, func_800018F0_idx, Refused, Queue.intc.injEq]
  | func_80001B50 gp c handler _ arg _ =>
    refine ⟨gp, handler, arg, fun _ => rfl, fun m => ?_⟩
    simp only [exec, func_80001B50_idx, Refused, reduceCtorEq, and_false, if_false]

theorem exec_sets (hn : call.Names (.set i)) :
    ∃ v : Word, v ≠ 3 ∧ (∀ d, call.fills d = { d with state := v }) ∧
      ∀ m, exec L m call = (m.write (Cell.state i).word v, idx i) := by
  cases hn with
  | func_80001FE0 => exact ⟨2, by simp, fun _ => rfl, fun m => setState_idx m i 2⟩
  | func_80002008 => exact ⟨1, by simp, fun _ => rfl, fun m => setState_idx m i 1⟩
  | func_80002030 => exact ⟨2, by simp, fun _ => rfl, fun m => setState_idx m i 2⟩
  | func_80002058 => exact ⟨1, by simp, fun _ => rfl, fun m => setState_idx m i 1⟩

theorem WellFormed.does (W : WellFormed m r) (hL : L.Correct) (hn : call.Names req)
    (hv : req.Valid r.queues) :
    ∃ r', CallDoes call m r req (exec L m call).1 (exec L m call).2 r' := by
  cases req with
  | add q next unk =>
    obtain ⟨gp, handler, arg, hfills, he⟩ := exec_fills (L := L) hn
    rw [he]
    by_cases href : Refused q unk
    · rw [if_pos href]
      exact ⟨r, .refused (.inl href)⟩
    rw [if_neg href]
    by_cases hp : r .pool = []
    · rw [addHandler_nil W.toRings hL hp]
      exact ⟨r, .refused (.inr hp)⟩
    · obtain ⟨i, -, hA, hret⟩ := addHandler_cons gp handler arg unk W.toRings hL hp hv
        fun j hj => W.live hj
      rw [hret]
      exact ⟨_, .added href hA hfills⟩
  | remove q i =>
    rw [exec_remove hn]
    have hi : i ∈ r (.queue q) := hv
    obtain ⟨hD, hret⟩ := removeHandler_spec (q := q) W.toRings hL hi (W.live hi)
    have hlen : m.read (Cell.entries q).word - 1 =
        BitVec.ofNat 32 ((r (.queue q)).erase i).length := by
      rw [W.entries, ofNat_pred (List.length_pos_of_mem hi), List.length_erase_of_mem hi]
    rw [hret, hlen]
    exact ⟨_, .removed hi hD⟩
  | set i =>
    obtain ⟨v, hv3, hfills, he⟩ := exec_sets (L := L) hn
    obtain ⟨q, hi⟩ := hv
    rw [he]
    exact ⟨_, .set hi hv3 hfills⟩

namespace CallDoes

theorem wellFormed (h : CallDoes call m r req m' ret r') (W : WellFormed m r)
    (hok : ∀ q next unk, req = .add q next unk → unk ≠ 3) : WellFormed m' r' := by
  cases h with
  | refused => exact W
  | added _ A _ => exact W.add A (hok _ _ _ rfl)
  | removed hi D => exact W.remove D hi
  | set hi hv _ => exact W.setState hi hv

/-- The lists change as the abstract registry does. -/
theorem queues (h : CallDoes call m r req m' ret r') :
    r'.queues = r.queues.after req ret := by
  cases h with
  | refused => simp [Registry.after]
  | added _ A _ => rw [queues_add, Registry.after, if_neg (idx_ne_neg_one _), hidOf_idx]
  | removed hi D => exact queues_remove r _ _
  | set hi hv _ => rfl

theorem step (h : CallDoes call m r req m' ret r') (W : WellFormed m r) :
    Step r.queues req ret (r.queues.after req ret) := by
  rw [← h.queues]
  cases h with
  | refused href =>
    rcases href with href | hp
    · exact .refused href
    · refine .full fun i hi => ?_
      obtain ⟨h, hih⟩ := W.cover hi
      cases h with
      | pool => rw [hp] at hih; cases hih
      | queue q => exact ⟨q, hih⟩
  | added hok A _ =>
    rw [queues_add]
    exact .added (W.pos A.free) (fun q' => W.notMem_of_ne A.free (by simp)) hok
  | removed hi D =>
    rw [queues_remove]
    exact .removed
  | set hi hv _ => exact .set

/-- No other word is written. -/
theorem frame (h : CallDoes call m r req m' ret r') (W : WellFormed m r) :
    ChangesOnly {c | c.Writable} m m' := by
  have hlinks : ∀ c ∈ links, c.Writable := by
    rintro _ ⟨n, hn, rfl | rfl⟩
    · exact hn
    · exact hn
  cases h with
  | refused => exact .refl m
  | @added q _ _ _ _ _ i _ _ A _ =>
    have hi : i ≠ 0 := W.pos A.free
    refine A.frame.mono ?_
    rintro c (hc | rfl | rfl | rfl | rfl | rfl | rfl)
    · exact hlinks c hc
    · exact trivial
    · exact hi
    · exact hi
    · exact hi
    · exact hi
    · exact trivial
  | @removed q i _ hmem D =>
    have hi : i ≠ 0 := W.pos hmem
    refine D.frame.mono ?_
    rintro c (hc | rfl | rfl | rfl | rfl)
    · exact hlinks c hc
    · exact trivial
    · exact hi
    · exact hi
    · exact trivial
  | @set q i _ hmem _ _ =>
    have hi : i ≠ 0 := W.pos hmem
    exact (ChangesOnly.refl m).write hi

end CallDoes

end Call

/-! ## What is seen -/

/-- A handler's run, as the handler sees it: its arguments, `$gp` and result. -/
inductive Seen
  | user (handler inum arg gp res : Word)
  | direct (handler inum : Word)
  deriving DecidableEq

def Invocation.seen : Invocation → Seen
  | .user call gp res => .user call.handler call.inum call.arg gp res
  | .direct handler inum => .direct handler inum

inductive Label
  | reply (call : Call) (ret : Word)
  | served (q : Queue) (seen : List Seen) (missing : Bool)
  | reset

/-- An interrupt at the descriptors `l`: those enabled run in order, until a
negative result. -/
inductive Delivers (inum : Word) : List Descriptor → List Seen → Prop
  | nil : Delivers inum [] []
  | stop {d : Descriptor} {l : List Descriptor} {res : Word} (h2 : d.state = 2)
      (hneg : res.toInt < 0) : Delivers inum (d :: l) [.user d.handler inum d.arg d.gp res]
  | user {d : Descriptor} {l : List Descriptor} {res : Word} {seen : List Seen} (h2 : d.state = 2)
      (hpos : ¬ res.toInt < 0) (rest : Delivers inum l seen) :
      Delivers inum (d :: l) (.user d.handler inum d.arg d.gp res :: seen)
  | direct {d : Descriptor} {l : List Descriptor} {seen : List Seen} (h0 : d.state = 0)
      (rest : Delivers inum l seen) : Delivers inum (d :: l) (.direct d.handler inum :: seen)
  | skip {d : Descriptor} {l : List Descriptor} {seen : List Seen} (h2 : d.state ≠ 2)
      (h0 : d.state ≠ 0) (rest : Delivers inum l seen) : Delivers inum (d :: l) seen

/-! ## The board -/

/-- The ids on each queue, and what was registered under each id. -/
structure Board where
  queue : Registry
  entry : Hid → Descriptor

/-- The board after a call that was answered `ret`. -/
def Board.after (B : Board) (call : Call) : Request → Word → Board
  | .add q next unk, ret =>
    if ret = -1 then B
    else
      { queue := B.queue.after (.add q next unk) ret
        entry := Function.update B.entry (hidOf ret) (call.fills (B.entry (hidOf ret))) }
  | .remove q i, ret => { B with queue := B.queue.after (.remove q i) ret }
  | .set i, _ => { B with entry := Function.update B.entry i (call.fills (B.entry i)) }

inductive BoardStep : Board → Label → Board → Prop
  | reply {B : Board} {call : Call} {req : Request} {ret : Word} (names : call.Names req)
      (valid : req.Valid B.queue) (h : Step B.queue req ret (B.queue.after req ret)) :
      BoardStep B (.reply call ret) (B.after call req ret)
  | served {B : Board} {q : Queue} {seen : List Seen}
      (h : Delivers q.inum ((B.queue q).map B.entry) seen) :
      BoardStep B (.served q seen (decide (B.queue q = []))) B
  | reset {B : Board} : BoardStep B .reset { B with queue := fun _ => [] }

def board : Lts Board Label where
  init B := B.queue = fun _ => []
  step := BoardStep

/-! ## The kernel -/

/-- Neither a handler nor the code that reports a missing one touches the registry. -/
structure Callees.KeepsRegistry {ε : Type} (C : Callees ε) : Prop extends C.LeavesRegistry where
  kprintf : ∀ text inum s, SameRegistry s.mem (C.kprintf text inum s).mem
  func_80000DC0 : ∀ x s, SameRegistry s.mem (C.func_80000DC0 x s).mem

/-- A step of the kernel, beside the registry that the replies so far add up to.  An
interrupt finds a machine that may differ in anything but the registry, with a VSYNC
registration, if there is one, that points outside the tables. -/
inductive KernelStep (L : ListHelpers) : Mem × Registry → Label → Mem × Registry → Prop
  | reply {m : Mem} {A : Registry} {call : Call} {req : Request} (names : call.Names req)
      (valid : req.Valid A) (hok : ∀ q next unk, req = .add q next unk → unk ≠ 3) :
      KernelStep L (m, A) (.reply call (exec L m call).2)
        ((exec L m call).1, A.after req (exec L m call).2)
  | served {ε : Type} {m : Mem} {A : Registry} {C : Callees ε} {s : Machine ε} {w : Served ε}
      (q : Queue) (hC : C.KeepsRegistry) (hs : SameRegistry m s.mem)
      (hv : VsyncOutside q s.mem) (fuel : Nat)
      (h : interrupt C fuel q s = some w) :
      KernelStep L (m, A) (.served q (w.invocations.map Invocation.seen) w.missing)
        (w.machine.mem, A)
  | reset {k : Kernel} {A : Registry} (hidle : SbusIdle A) :
      KernelStep L (k.mem, A) .reset ((func_800021F0 L k).1.mem, fun _ => [])

def kernel (L : ListHelpers) : Lts (Mem × Registry) Label where
  init s := ∃ k, s = ((func_80002090 L k).1.mem, fun _ => [])
  step := KernelStep L

/-! ## An interrupt, on the board -/

section Interrupt

variable {ε : Type} {C : Callees ε} {inum : Word} {r : Lists} {q : Queue} {s : Machine ε}
  {w : Served ε} {fuel : Nat}

theorem deliver_delivers (l : List (Word × Descriptor)) (s : Machine ε) :
    Delivers inum (l.map Prod.snd) ((deliver C inum l s).invocations.map Invocation.seen) := by
  induction l generalizing s with
  | nil => exact .nil
  | cons x l ih =>
    obtain ⟨hnd, d⟩ := x
    by_cases h2 : d.state = 2
    · by_cases hneg : (callUser C inum hnd d s).2.toInt < 0
      · rw [deliver_return C inum hnd l s h2 hneg]
        exact .stop h2 hneg
      · rw [deliver_user C inum hnd l s h2 hneg]
        exact .user h2 hneg (ih _)
    by_cases h0 : d.state = 0
    · rw [deliver_direct C inum hnd l s h2 h0]
      exact .direct h0 (ih _)
    · rw [deliver_skip C inum hnd l s h2 h0]
      exact .skip h2 h0 (ih s)

/-- What an interrupt shows, and that it leaves the registry. -/
theorem interrupt_shows (hC : C.KeepsRegistry) (hr : Counted s.mem r)
    (hv : VsyncOutside q s.mem) (h : interrupt C fuel q s = some w) :
    Delivers q.inum ((r (.queue q)).map fun i => readDescriptor s.mem (Node.hnd i).word)
        (w.invocations.map Invocation.seen) ∧
      w.missing = decide (r (.queue q) = []) ∧ SameRegistry s.mem w.machine.mem := by
  obtain ⟨w₀, -, hw₀, W⟩ := interrupt_delivers hC.toLeavesRegistry hr hv
  have hw : w = finish C q.message q.inum w₀ := by
    have hmore := interrupt_mono h (Nat.le_add_right fuel 129)
    rw [hw₀ _ (by omega)] at hmore
    exact (Option.some.inj hmore).symm
  have hsame : SameRegistry s.mem w₀.machine.mem := by
    rw [W.machine]
    exact (entered_same hv).trans (deliver_same hC.toLeavesRegistry _ _)
  have hdelivers : Delivers q.inum _ ((deliver C q.inum _ _).invocations.map Invocation.seen) :=
    deliver_delivers ((r (.queue q)).map (descriptorAt (entered q s).mem)) (entered q s)
  rw [← W.invocations, List.map_map] at hdelivers
  have hentries : (r (.queue q)).map (Prod.snd ∘ descriptorAt (entered q s).mem) =
      (r (.queue q)).map fun i => readDescriptor s.mem (Node.hnd i).word :=
    List.map_congr_left fun i _ => readDescriptor_congr (entered_same hv) i
  rw [hentries] at hdelivers
  have hlen := hr.length_le (.queue q)
  subst hw
  unfold finish
  split
  · rename_i hend
    have hnil : r (.queue q) = [] := by
      have hc := hend.2
      rw [W.count hend.1, Nat.zero_add] at hc
      exact List.length_eq_zero_iff.mp (ofNat_inj (by omega) (by omega) hc)
    refine ⟨hdelivers, (decide_eq_true hnil).symm, ?_⟩
    exact (hsame.trans (hC.kprintf _ _ _)).trans (hC.func_80000DC0 _ _)
  · rename_i hend
    have hne : r (.queue q) ≠ [] := by
      intro hnil
      have he : w₀.early = false := by
        rw [W.early, hnil]
        rfl
      refine hend ⟨he, ?_⟩
      rw [W.count he, hnil]
      rfl
    exact ⟨hdelivers, W.missing.trans (decide_eq_false hne).symm, hsame⟩

end Interrupt

/-! ## The simulation -/

/-- The memory holds what is on the board. -/
structure Displays (s : Mem × Registry) (B : Board) (r : Lists) : Prop where
  wellFormed : WellFormed s.1 r
  ledger : s.2 = r.queues
  queue : B.queue = r.queues
  entry : ∀ {q i}, i ∈ r (.queue q) → readDescriptor s.1 (Node.hnd i).word = B.entry i

section Simulation

variable {L : ListHelpers} {m m' : Mem} {A : Registry} {B : Board} {r r' : Lists} {call : Call}
  {req : Request} {ret : Word}

theorem Displays.does (D : Displays (m, A) B r) (h : CallDoes call m r req m' ret r')
    (hok : ∀ q next unk, req = .add q next unk → unk ≠ 3) :
    Displays (m', A.after req ret) (B.after call req ret) r' := by
  obtain ⟨W, rfl, hB, hentry⟩ := D
  refine ⟨h.wellFormed W hok, h.queues.symm, ?_, ?_⟩
  · rw [h.queues, ← hB]
    cases h with
    | refused => simp [Board.after, Registry.after]
    | added => rw [Board.after, if_neg (idx_ne_neg_one _)]
    | removed => rfl
    | set => rfl
  · intro q' j hj
    cases h with
    | refused =>
      rw [Board.after, if_pos rfl]
      exact hentry hj
    | @added q next unk gp handler arg i _ _ A fills =>
      rw [Board.after, if_neg (idx_ne_neg_one _), hidOf_idx]
      rcases Lists.mem_add_queue hj with rfl | ⟨hji, hj⟩
      · simp only [Function.update_self, A.descriptor, fills]
      · simp only [Function.update_of_ne hji]
        rw [readDescriptor_frame A.frame (by simp [addCells, links, hji])]
        exact hentry hj
    | removed hi D =>
      obtain ⟨hji, hj⟩ := W.mem_remove_queue hi hj
      rw [readDescriptor_frame D.frame (by simp [removeCells, links, hji])]
      exact hentry hj
    | @set q i v hi hv fills =>
      have hold := hentry hj
      by_cases hji : j = i
      · subst hji
        simp only [Board.after, Function.update_self, fills, ← hold]
        simp [readDescriptor, read_write_cell]
      · simp only [Board.after, Function.update_of_ne hji]
        rw [readDescriptor_frame ((ChangesOnly.refl m).write (Set.mem_singleton _)) (by simp [hji])]
        exact hold

/-- Every step of the kernel is one of the board, and shows the same. -/
theorem kernel_simulates (hL : L.Correct) :
    Lts.Simulation (kernel L) board fun s B => ∃ r, Displays s B r := by
  constructor
  · rintro s ⟨k, rfl⟩
    have W := func_80002090_wellFormed hL k
    refine ⟨{ queue := fun _ => [], entry := fun i =>
      readDescriptor (func_80002090 L k).1.mem (Node.hnd i).word }, rfl, initLists, W, rfl, rfl, ?_⟩
    intro q i hi
    rfl
  · rintro s l s' B ⟨r, D⟩ step
    cases step with
    | @reply m A call req names valid hok =>
      obtain rfl := D.ledger
      obtain ⟨r', h⟩ := D.wellFormed.does hL names valid
      refine ⟨_, .reply names ?_ ?_, r', D.does h hok⟩
      · rw [D.queue]
        exact valid
      · rw [D.queue]
        exact h.step D.wellFormed
    | @served ε m A C t w q hC hs hv fuel h =>
      obtain ⟨hseen, hmissing, hsame⟩ := interrupt_shows hC (D.wellFormed.congr hs).toCounted hv h
      have hentries : (r (.queue q)).map (fun i => readDescriptor t.mem (Node.hnd i).word) =
          (B.queue q).map B.entry := by
        rw [D.queue]
        exact List.map_congr_left fun i hi => (readDescriptor_congr hs i).trans (D.entry hi)
      have hq : r (.queue q) = B.queue q := by
        rw [D.queue]
        rfl
      rw [hentries] at hseen
      rw [hmissing, hq]
      have hkept := hs.trans hsame
      exact ⟨B, .served hseen, r, D.wellFormed.congr hkept, D.ledger, D.queue,
        fun hi => (readDescriptor_congr hkept _).trans (D.entry hi)⟩
    | @reset k A hidle =>
      have hrep : Represents k.mem A := ⟨r, D.wellFormed, D.ledger.symm⟩
      have W := func_800021F0_rebuilds hL hrep hidle
      refine ⟨{ B with queue := fun _ => [] }, .reset, initLists, W, rfl, rfl, ?_⟩
      intro q i hi
      exact absurd hi List.not_mem_nil

/-- **Trace refinement.**  Whatever a run of calls, interrupts and soft resets shows,
the board shows too. -/
theorem registry_traces {L : ListHelpers} (hL : L.Correct) {ls : List Label}
    (h : (kernel L).Shows ls) : board.Shows ls :=
  (kernel_simulates hL).shows h

theorem idle_keepsRegistry : idle.KeepsRegistry where
  toLeavesRegistry := idle_leavesRegistry
  kprintf _ _ s := SameRegistry.refl s.mem
  func_80000DC0 _ s := SameRegistry.refl s.mem

theorem kernel_init (L : ListHelpers) (k : Kernel) :
    (kernel L).Reaches [] ((func_80002090 L k).1.mem, fun _ => []) := ⟨_, ⟨k, rfl⟩, .refl _⟩

theorem kernel_call {ls : List Label} (h : (kernel L).Reaches ls (m, A)) (hn : call.Names req)
    (hv : req.Valid A) (hok : ∀ q next unk, req = .add q next unk → unk ≠ 3) :
    (kernel L).Reaches (ls ++ [.reply call (exec L m call).2])
      ((exec L m call).1, A.after req (exec L m call).2) :=
  h.exec (.snoc (.refl _) (KernelStep.reply hn hv hok))

/-- After a run and one more call, an interrupt other than a blank is served whatever the queue
holds. -/
theorem kernel_serves {ls : List Label} (hL : L.Correct) (h : (kernel L).Reaches ls (m, A))
    (hn : call.Names req) (hv : req.Valid A)
    (hok : ∀ q next unk, req = .add q next unk → unk ≠ 3) {q : Queue}
    (hq : q ≠ .intc INTC_VBLANK_S) :
    ∃ ret seen missing, (kernel L).Shows (ls ++ [.reply call ret] ++ [.served q seen missing]) := by
  have hcall := kernel_call h hn hv hok
  obtain ⟨B, -, r, D⟩ := (kernel_simulates hL).reaches hcall
  obtain ⟨m', hm'⟩ : ∃ m', m' = (exec L m call).1 := ⟨_, rfl⟩
  have hC : Counted (machineOf m' ()).mem r := by
    subst hm'
    exact D.wellFormed.toCounted
  obtain ⟨w, -, hw, -⟩ := interrupt_delivers idle_leavesRegistry hC (vsyncOutside_of_ne hq _)
  have hsame : SameRegistry (exec L m call).1 (machineOf m' ()).mem := hm' ▸ SameRegistry.refl _
  have hserved : KernelStep L ((exec L m call).1, A.after req (exec L m call).2) _ _ :=
    .served q idle_keepsRegistry hsame (vsyncOutside_of_ne hq _) 129 (hw 129 (by omega))
  exact ⟨_, _, _, _, hcall.exec (.snoc (.refl _) hserved)⟩

/-- A handler is added to INTC queue 0, and the interrupt finds it. -/
theorem registry_traces_one_handler :
    ∃ ret seen missing, board.Shows
      [.reply (.func_800018F0 0x10 (idx (0 : Fin 15)) 0x100 (-1) 7 2) ret,
        .served (.intc 0) seen missing] := by
  have hok : ∀ q next unk, Request.add (.intc 0) (-1) 2 = .add q next unk → unk ≠ 3 := by
    rintro q next unk ⟨⟩
    decide
  obtain ⟨ret, seen, missing, h⟩ := kernel_serves standard_correct (kernel_init _ zeroKernel)
    (.func_800018F0 0x10 0 0x100 (-1) 7 2) (.inl rfl) hok (q := .intc 0) (by decide)
  exact ⟨ret, seen, missing, registry_traces standard_correct h⟩

end Simulation

end EeKernel.Intr
