import EeKernel.Lib.Fold
import EeKernel.Intr.WellFormed

/-!
# Initialisation and soft reset

`func_80002090` and `func_800021F0` run the same three kinds of loop.
`clearQueues_spec` and `rebuildPool_spec` say what a loop establishes and which
cells it changes, from any prior memory.  From there, `func_80002090` builds a
well-formed registry with every descriptor on the pool, and the two functions
differ only in the SBUS table and in the queue `func_800021F0` skips.
-/

namespace EeKernel.Intr

open EeKernel.Lib

variable {L : ListHelpers} {m m' : Mem} {q : Queue}

/-- Every descriptor on the pool, every queue empty. -/
def initLists : Lists
  | .pool => allHids
  | .queue _ => []

theorem mem_allHids {i : Hid} : i ∈ allHids ↔ i ≠ 0 := by
  simp only [allHids, List.mem_map, List.mem_finRange, true_and]
  exact ⟨fun ⟨j, hj⟩ => hj ▸ Fin.succ_ne_zero j, fun h => Fin.exists_succ_eq.mpr h⟩

theorem nodup_allHids : allHids.Nodup :=
  (List.nodup_finRange 128).map (Fin.succ_injective 128)

@[simp] theorem length_allHids : allHids.length = 128 := by
  simp [allHids]

/-! ## The queue loops -/

/-- Queue `q` is an empty ring and counts 0. -/
structure QueueEmpty (q : Queue) (m : Mem) : Prop where
  ring : Linked m (.head (.queue q)) (.head (.queue q))
  entries : m.read (Cell.entries q).word = 0

def queueCells (q : Queue) : Set Cell :=
  {.next (.head (.queue q)), .prev (.head (.queue q)), .entries q}

theorem list_init_cells (m : Mem) (n : Node) :
    list_init m n.word = (m.write (Cell.next n).word n.word).write (Cell.prev n).word n.word := by
  rw [list_init, fNext_word]
  rfl

theorem list_init_linked (m : Mem) (n : Node) : Linked (list_init m n.word) n n := by
  rw [list_init_cells]
  simp [Linked, read_write_cell]

theorem clearQueue_empty (q : Queue) (m : Mem) :
    QueueEmpty q (clearQueue m (Node.head (.queue q)).word) := by
  refine ⟨list_init_linked _ _, ?_⟩
  simp only [clearQueue, list_init_cells, fEntries_word]
  simp [read_write_cell]

theorem clearQueue_frame (q : Queue) (m : Mem) :
    ChangesOnly (queueCells q) m (clearQueue m (Node.head (.queue q)).word) := by
  simp only [clearQueue, list_init_cells, fEntries_word]
  refine (((ChangesOnly.refl m).write ?_).write ?_).write ?_ <;> simp [queueCells]

/-- An empty queue is made of its own three words. -/
theorem QueueEmpty.frame {cs : Set Cell} (h : QueueEmpty q m) (hm : ChangesOnly cs m m')
    (hd : ∀ c ∈ queueCells q, c ∉ cs) : QueueEmpty q m' where
  ring := ⟨(hm.cell (hd _ (by simp [queueCells]))).trans h.ring.1,
    (hm.cell (hd _ (by simp [queueCells]))).trans h.ring.2⟩
  entries := (hm.cell (hd _ (by simp [queueCells]))).trans h.entries

theorem queueCells_disjoint {q q' : Queue} (hq : q ≠ q') {c : Cell} (hc : c ∈ queueCells q) :
    c ∉ queueCells q' := by
  simp only [queueCells, Set.mem_insert_iff, Set.mem_singleton_iff] at hc ⊢
  rcases hc with rfl | rfl | rfl <;> simp [hq]

def clearQueues (qs : List Queue) (m : Mem) : Mem :=
  qs.foldl (fun m q => clearQueue m (Node.head (.queue q)).word) m

theorem clearQueues_empty {qs : List Queue} (hq : q ∈ qs) (m : Mem) :
    QueueEmpty q (clearQueues qs m) := by
  refine foldl_each (fun m q _ => clearQueue_empty q m) ?_ hq m
  intro m q q' hne h
  exact h.frame (clearQueue_frame q' m) fun c hc => queueCells_disjoint hne hc

theorem clearQueues_frame (qs : List Queue) (m : Mem) :
    ChangesOnly {c | ∃ q ∈ qs, c ∈ queueCells q} m (clearQueues qs m) := by
  refine List.foldlRecOn qs _ (ChangesOnly.refl m) fun m' hm' q hq => hm'.trans ?_
  exact (clearQueue_frame q m').mono fun c hc => ⟨q, hq, hc⟩

/-! ## The SBUS loop -/

/-- An SBUS table with these entries. -/
def fillSbus (f : Fin 32 → Word) (m : Mem) : Mem :=
  (List.finRange 32).foldl (fun m k => m.write (sbus_int_handler (idx k)) (f k)) m

theorem fillSbus_frame (f : Fin 32 → Word) (m : Mem) :
    ChangesOnly {c | ∃ k, c = .sbus k} m (fillSbus f m) := by
  refine List.foldlRecOn _ _ (ChangesOnly.refl m) fun m' hm' k _ => ?_
  rw [sbus_int_handler_idx]
  exact hm'.write ⟨k, rfl⟩

theorem fillSbus_read (f : Fin 32 → Word) (k : Fin 32) (m : Mem) :
    (fillSbus f m).read (Cell.sbus k).word = f k := by
  refine foldl_each (Q := fun k m => m.read (Cell.sbus k).word = f k) ?_ ?_ (List.mem_finRange k) m
  · intro m k _
    simp
  · intro m k k' hne h
    rw [sbus_int_handler_idx, read_write_cell, if_neg (by simpa using hne), h]

theorem fillSbus_same (f : Fin 32 → Word) (m : Mem) : SameRegistry m (fillSbus f m) :=
  .of_changesOnly (fillSbus_frame f m) fun _ ⟨_, hk⟩ => hk ▸ id

theorem clearSbus_frame (m : Mem) : ChangesOnly {c | ∃ k, c = .sbus k} m (clearSbus m) :=
  fillSbus_frame (fun _ => 0) m

/-! ## The descriptor loop -/

/-- The cells of the pool and of `int_handler[1..128]` that the loop writes. -/
def poolCells : Set Cell :=
  {.next (.head .pool), .prev (.head .pool)} ∪
    {c | ∃ i : Hid, i ≠ 0 ∧
      (c = .next (.hnd i) ∨ c = .prev (.hnd i) ∨ c = .handler i ∨ c = .state i)}

/-- The pool holds `l` in order, each marked free. -/
structure PoolHolds (l : List Hid) (m : Mem) : Prop where
  ring : Ring m (.head .pool) (l.map .hnd)
  state : ∀ i ∈ l, m.read (Cell.state i).word = 3
  handler : ∀ i ∈ l, m.read (Cell.handler i).word = 0

theorem list_init_pool (m : Mem) :
    PoolHolds [] (list_init m D_8001B410) ∧ ChangesOnly poolCells m (list_init m D_8001B410) := by
  refine ⟨⟨Circular.nil_iff.mpr (list_init_linked m _), by simp, by simp⟩, ?_⟩
  rw [D_8001B410, list_init_cells]
  refine ((ChangesOnly.refl m).write ?_).write ?_ <;> simp [poolCells]

theorem freeDescriptor_spec (hL : L.Correct) {l : List Hid} {i : Hid} (h : PoolHolds l m)
    (h0 : ∀ j ∈ l, j ≠ 0) (hi : i ≠ 0) (hil : i ∉ l) :
    PoolHolds (l ++ [i]) (freeDescriptor L m (idx i)) ∧
      ChangesOnly poolCells m (freeDescriptor L m (idx i)) := by
  let m₁ := (m.write (Cell.handler i).word 0).write (Cell.state i).word 3
  have hm₁ : ChangesOnly {.handler i, .state i} m m₁ :=
    ((ChangesOnly.refl m).write (by simp)).write (by simp)
  have hring₁ : Ring m₁ (.head .pool) (l.map .hnd ++ []) := by
    rw [List.append_nil]
    exact h.ring.congr fun a b _ _ hab =>
      ⟨(hm₁.cell (by simp)).trans hab.1, (hm₁.cell (by simp)).trans hab.2⟩
  have hn : Node.hnd i ∉ Node.head .pool :: (l.map Node.hnd ++ []) := by simpa using hil
  obtain ⟨hring₂, hm₂⟩ := hL.insert hring₁ hn
  have hval : freeDescriptor L m (idx i) =
      L.func_800064D0 m₁ (Node.head .pool).word (Node.hnd i).word := by
    simp only [freeDescriptor, int_handler_idx, fHandler_word, fState_word, D_8001B410, m₁]
  simp only [first_nil, List.append_nil] at hring₂ hm₂
  have hdata : ∀ c, (∀ n, c ≠ .next n ∧ c ≠ .prev n) →
      (L.func_800064D0 m₁ (Node.head .pool).word (Node.hnd i).word).read (Cell.word c) =
        m₁.read c.word := by
    intro c hc
    apply hm₂.cell
    rintro ⟨n, _, he | he⟩
    · exact (hc n).1 he
    · exact (hc n).2 he
  rw [hval]
  refine ⟨⟨by simpa using hring₂, ?_, ?_⟩, ?_⟩
  · intro j hj
    rw [hdata _ (by simp)]
    rcases List.mem_append.mp hj with hj | hj
    · have hne : j ≠ i := fun e => hil (e ▸ hj)
      rw [hm₁.cell (by simpa using hne), h.state j hj]
    · rw [List.mem_singleton.mp hj]
      simp [m₁]
  · intro j hj
    rw [hdata _ (by simp)]
    rcases List.mem_append.mp hj with hj | hj
    · have hne : j ≠ i := fun e => hil (e ▸ hj)
      rw [hm₁.cell (by simpa using hne), h.handler j hj]
    · rw [List.mem_singleton.mp hj]
      simp [m₁, read_write_cell]
  · refine (hm₁.mono ?_).trans (hm₂.mono ?_)
    · rintro c (rfl | rfl) <;> exact .inr ⟨i, hi, by simp⟩
    · rintro c ⟨n, hn, hc⟩
      have hnode : n = .head .pool ∨ ∃ j, j ≠ 0 ∧ n = .hnd j := by
        simp only [List.mem_cons, List.mem_map] at hn
        rcases hn with rfl | rfl | ⟨j, hj, rfl⟩
        · exact .inr ⟨i, hi, rfl⟩
        · exact .inl rfl
        · exact .inr ⟨j, h0 j hj, rfl⟩
      rcases hnode with rfl | ⟨j, hj, rfl⟩
      · rcases hc with rfl | rfl <;> simp [poolCells]
      · exact .inr ⟨j, hj, by tauto⟩

theorem freeDescriptors_spec (hL : L.Correct) {done l : List Hid} (h : PoolHolds done m)
    (hn : (done ++ l).Nodup) (h0 : ∀ j ∈ done ++ l, j ≠ 0) :
    PoolHolds (done ++ l) (l.foldl (fun m i => freeDescriptor L m (idx i)) m) ∧
      ChangesOnly poolCells m (l.foldl (fun m i => freeDescriptor L m (idx i)) m) := by
  induction l generalizing done m with
  | nil => exact ⟨by simpa using h, ChangesOnly.refl m⟩
  | cons i l ih =>
    obtain ⟨h₁, hm₁⟩ := freeDescriptor_spec hL h (fun j hj => h0 j (by simp [hj]))
      (h0 i (by simp)) (notMem_of_nodup hn)
    have happ : done ++ i :: l = done ++ [i] ++ l := List.append_cons done i l
    rw [happ] at hn h0 ⊢
    obtain ⟨h₂, hm₂⟩ := ih h₁ hn h0
    exact ⟨h₂, hm₁.trans hm₂⟩

/-- `func_80002090` and `func_800021F0` rebuild the pool wholesale. -/
theorem rebuildPool_spec (hL : L.Correct) (m : Mem) :
    PoolHolds allHids (rebuildPool L m) ∧ ChangesOnly poolCells m (rebuildPool L m) := by
  obtain ⟨h₀, hm₀⟩ := list_init_pool m
  obtain ⟨h₁, hm₁⟩ := freeDescriptors_spec hL (l := allHids) h₀ nodup_allHids
    fun j hj => mem_allHids.mp hj
  exact ⟨h₁, hm₀.trans hm₁⟩

/-! ## The two functions -/

theorem initIntc_mem (qs : List (Fin 15)) (k : Kernel) :
    (qs.foldl initIntc k).mem = clearQueues (qs.map .intc) k.mem := by
  rw [clearQueues, List.foldl_map]
  refine (List.foldl_hom Kernel.mem fun k c => ?_).symm
  rw [initIntc, intc_queue_idx]
  rfl

theorem initDmac_mem (qs : List (Fin 16)) (k : Kernel) :
    (qs.foldl initDmac k).mem = clearQueues (qs.map .dmac) k.mem := by
  rw [clearQueues, List.foldl_map]
  refine (List.foldl_hom Kernel.mem fun k c => ?_).symm
  rw [initDmac, dmac_queue_idx]
  rfl

/-- The INTC queues `func_800021F0` clears. -/
def resetIntc : List (Fin 15) := (List.finRange 15).filter (· ≠ INTC_SBUS)

theorem func_80002090_mem (k : Kernel) :
    (func_80002090 L k).1.mem =
      rebuildPool L (clearQueues ((List.finRange 16).map .dmac)
        (clearSbus (clearQueues ((List.finRange 15).map .intc) (k.mem.write D_8001B400 0)))) := by
  simp only [func_80002090, initDmac_mem, Kernel.EnableIntc, Kernel.func_80000700, initIntc_mem]

/-- The INTC loop of `func_800021F0`, without the `continue`. -/
theorem foldl_skip (k : Kernel) :
    (List.finRange 15).foldl (fun k i => if i = INTC_SBUS then k else initIntc k i) k =
      resetIntc.foldl initIntc k := by
  rw [resetIntc, List.foldl_filter]
  congr
  funext k i
  by_cases hi : i = INTC_SBUS <;> simp [hi]

theorem func_800021F0_mem (k : Kernel) :
    (func_800021F0 L k).1.mem =
      rebuildPool L (clearQueues ((List.finRange 16).map .dmac)
        (clearQueues (resetIntc.map .intc) (k.mem.write D_8001B400 0))) := by
  simp only [func_800021F0, initDmac_mem, Kernel.func_80000700, foldl_skip, initIntc_mem]

/-- Once every queue is empty and the count is 0, the rebuilt pool makes the
registry well formed. -/
theorem rebuildPool_wellFormed (hL : L.Correct) (hq : ∀ q, QueueEmpty q m)
    (hu : m.read Cell.used.word = 0) : WellFormed (rebuildPool L m) initLists := by
  obtain ⟨h, hm⟩ := rebuildPool_spec hL m
  have hqueue : ∀ q, QueueEmpty q (rebuildPool L m) := fun q =>
    (hq q).frame hm fun c hc => by
      simp only [queueCells, Set.mem_insert_iff, Set.mem_singleton_iff] at hc
      rcases hc with rfl | rfl | rfl <;> simp [poolCells]
  refine { ring := ?_, disj := ?_, pos := ?_, entries := ?_, cover := ?_, state := ?_, used := ?_ }
  · rintro (_ | q)
    · exact h.ring
    · exact Circular.nil_iff.mpr (hqueue q).ring
  · rintro i (_ | q) (_ | q') hi hi'
    · rfl
    · cases hi'
    · cases hi
    · cases hi
  · rintro i (_ | q) hi
    · exact mem_allHids.mp hi
    · cases hi
  · intro q
    exact (hqueue q).entries
  · intro i hi
    exact ⟨.pool, mem_allHids.mpr hi⟩
  · intro i hi
    exact iff_of_true (h.state i (mem_allHids.mpr hi)) (mem_allHids.mpr hi)
  · rw [hm.cell (by simp [poolCells]), hu]
    simp [initLists]

theorem entries_notMem_sbus {q : Queue} {c : Cell} (hc : c ∈ queueCells q) :
    c ∉ {c | ∃ k, c = Cell.sbus k} := by
  simp only [queueCells, Set.mem_insert_iff, Set.mem_singleton_iff] at hc
  rcases hc with rfl | rfl | rfl <;> simp

theorem QueueEmpty.clearQueues {qs : List Queue} (h : QueueEmpty q m) (hq : q ∉ qs) :
    QueueEmpty q (clearQueues qs m) := by
  apply h.frame (clearQueues_frame qs m)
  rintro c hc ⟨q', hq', hc'⟩
  have hne : q ≠ q' := by
    rintro rfl
    exact hq hq'
  exact queueCells_disjoint hne hc hc'

theorem used_clearQueues (qs : List Queue) (m : Mem) :
    (clearQueues qs m).read Cell.used.word = m.read Cell.used.word :=
  (clearQueues_frame qs m).cell (by simp [queueCells])

/-- **Initialisation** builds a well-formed registry from any prior memory. -/
theorem func_80002090_wellFormed (hL : L.Correct) (k : Kernel) :
    WellFormed (func_80002090 L k).1.mem initLists := by
  rw [func_80002090_mem]
  apply rebuildPool_wellFormed hL
  · rintro (c | c)
    · refine QueueEmpty.clearQueues ?_ (by simp)
      exact (clearQueues_empty (by simp) _).frame (clearSbus_frame _) fun _ => entries_notMem_sbus
    · exact clearQueues_empty (by simp) _
  · rw [used_clearQueues, (clearSbus_frame _).cell (by simp), used_clearQueues]
    exact Mem.read_write_same _ _ _

/-- **Soft reset** does so where the queue it skips is empty. -/
theorem func_800021F0_wellFormed (hL : L.Correct) {k : Kernel}
    (hs : QueueEmpty (.intc INTC_SBUS) k.mem) :
    WellFormed (func_800021F0 L k).1.mem initLists := by
  rw [func_800021F0_mem]
  apply rebuildPool_wellFormed hL
  · rintro (c | c)
    · refine QueueEmpty.clearQueues ?_ (by simp)
      by_cases hc : c = INTC_SBUS
      · subst hc
        refine QueueEmpty.clearQueues ?_ (by simp [resetIntc])
        exact hs.frame ((ChangesOnly.refl _).write (Set.mem_singleton Cell.used)) fun c hc => by
          simp only [queueCells, Set.mem_insert_iff, Set.mem_singleton_iff] at hc
          rcases hc with rfl | rfl | rfl <;> simp
      · exact clearQueues_empty (by simp [resetIntc, hc]) _
    · exact clearQueues_empty (by simp) _
  · rw [used_clearQueues, used_clearQueues]
    exact Mem.read_write_same _ _ _

/-- The machine before initialisation, all words 0. -/
def zeroKernel : Kernel where
  mem := fun _ => 0
  intcIsr := fun _ => .func_80001670
  dmacIsr := fun _ => .func_800017D8
  intcEnabled := fun _ => false

/-! ## The service routines -/

def initIsr (c : Fin 15) : Isr :=
  if c = INTC_SBUS then .func_80001D98 else if c = INTC_TIM3 then .func_80002690 else .func_80001670

theorem foldl_initIntc_isr (cs : List (Fin 15)) (k : Kernel) (c : Fin 15) :
    (cs.foldl initIntc k).intcIsr c = if c ∈ cs then .func_80001670 else k.intcIsr c := by
  induction cs generalizing k with
  | nil => simp
  | cons d cs ih =>
    rw [List.foldl_cons, ih]
    by_cases hc : c ∈ cs
    · simp [hc]
    · by_cases hd : c = d <;> simp [hc, hd, initIntc, Kernel.func_80000700]

theorem foldl_initDmac_isr (cs : List (Fin 16)) (k : Kernel) :
    (cs.foldl initDmac k).intcIsr = k.intcIsr ∧
      ∀ c, (cs.foldl initDmac k).dmacIsr c = if c ∈ cs then .func_800017D8 else k.dmacIsr c := by
  induction cs generalizing k with
  | nil => simp
  | cons d cs ih =>
    obtain ⟨hi, hd⟩ := ih (initDmac k d)
    refine ⟨hi, fun c => ?_⟩
    rw [List.foldl_cons, hd]
    by_cases hc : c ∈ cs
    · simp [hc]
    · by_cases he : c = d <;> simp [hc, he, initDmac, Kernel.func_80000780]

theorem func_80002090_isr (k : Kernel) :
    (func_80002090 L k).1.intcIsr = initIsr ∧
      (func_80002090 L k).1.dmacIsr = fun _ => .func_800017D8 := by
  constructor
  · funext c
    simp only [func_80002090, (foldl_initDmac_isr _ _).1, Kernel.EnableIntc, Kernel.func_80000700,
      foldl_initIntc_isr, List.mem_finRange, if_true, initIsr]
  · funext c
    simp only [func_80002090, (foldl_initDmac_isr _ _).2, List.mem_finRange, if_true]

theorem func_800021F0_isr {k : Kernel} (hk : k.intcIsr = initIsr) :
    (func_800021F0 L k).1.intcIsr = initIsr ∧
      (func_800021F0 L k).1.dmacIsr = fun _ => .func_800017D8 := by
  constructor
  · funext c
    simp only [func_800021F0, (foldl_initDmac_isr _ _).1, Kernel.func_80000700, foldl_skip,
      foldl_initIntc_isr, hk]
    by_cases hs : c = INTC_SBUS
    · subst hs
      simp [initIsr, resetIntc, INTC_SBUS, INTC_TIM3]
    · simp [initIsr, resetIntc, hs]
  · funext c
    simp only [func_800021F0, (foldl_initDmac_isr _ _).2, List.mem_finRange, if_true]

/-! ## One and two handlers -/

/-- A user handler added at the end of INTC queue 0 after initialisation. -/
@[irreducible] def oneHandler : Mem :=
  (func_80001A70 standard (func_80002090 standard zeroKernel).1.mem 0x10 (idx (0 : Fin 15))
    0x100 (-1) 7).1

/-- A second one behind it. -/
@[irreducible] def twoHandlers : Mem :=
  (func_80001A70 standard oneHandler 0x10 (idx (0 : Fin 15)) 0x200 (-1) 8).1

theorem oneHandler_spec : ∃ r i, WellFormed oneHandler r ∧ r (.queue (.intc 0)) = [i] ∧
    (∀ q, q ≠ .intc 0 → r (.queue q) = []) ∧ (r .pool).length = 127 ∧
    oneHandler.read (Cell.state i).word = 2 := by
  have W := func_80002090_wellFormed standard_correct zeroKernel
  obtain ⟨i, hi, -, W₁⟩ := W.add_intc standard_correct (by decide) 0 0x10 0x100 (-1) 7 2 (.inl rfl)
    (by decide) (by decide)
  have heq : oneHandler = (func_800018F0 standard (func_80002090 standard zeroKernel).1.mem 0x10
      (idx (0 : Fin 15)) 0x100 (-1) 7 2).1 := by
    unfold oneHandler
    simp only [func_80001A70]
  rw [← heq] at hi W₁
  refine ⟨_, i, W₁, ?_, fun q hq => ?_, ?_, hi.state⟩
  · simp [place, initLists]
  · rw [Lists.add_queue_of_ne _ _ _ hq]
    rfl
  · rw [Lists.add_pool, List.length_erase_of_mem hi.free]
    simp [initLists]

theorem twoHandlers_spec : ∃ r i j, WellFormed twoHandlers r ∧ r (.queue (.intc 0)) = [i, j] ∧
    i ≠ j ∧ ∀ k ∈ [i, j], twoHandlers.read (Cell.state k).word = 2 := by
  obtain ⟨r, i, W, hr, -, hpool, hi⟩ := oneHandler_spec
  have hp : r .pool ≠ [] := by
    intro h
    rw [h] at hpool
    cases hpool
  obtain ⟨j, hj, -, W₂⟩ := W.add_intc standard_correct hp 0 0x10 0x200 (-1) 8 2 (.inl rfl)
    (by decide) (by decide)
  have heq : twoHandlers =
      (func_800018F0 standard oneHandler 0x10 (idx (0 : Fin 15)) 0x200 (-1) 8 2).1 := by
    unfold twoHandlers
    simp only [func_80001A70]
  rw [← heq] at hj W₂
  have hij : i ≠ j := by
    rintro rfl
    exact W.notMem_of_ne hj.free (by simp) (hr ▸ List.mem_singleton_self i)
  refine ⟨_, i, j, W₂, ?_, hij, ?_⟩
  · rw [Lists.add_queue, hr, place_neg_one]
    rfl
  · intro k hk
    rcases List.mem_pair.mp hk with rfl | rfl
    · exact (hj.frame.cell (by simp [addCells, links, hij])).trans hi
    · exact hj.state

end EeKernel.Intr
