import EeKernel.Intr.Place

/-!
# What Add, Remove, enable and disable do to the rings

One specification for each function of the registry, at the level of `Rings`:
which descriptor moves, which cells change and to what, and that no other word
does.  Every invariant of the registry is derived from these, without looking
at the functions again.
-/

namespace EeKernel.Intr

open EeKernel.Lib

variable {L : ListHelpers} {m m' : Mem} {r : Lists} {q : Queue} {i : Hid}
  {gp handler next arg unk : Word}

/-! ## Pop -/

theorem func_800015E0_nil (R : Rings m r) (hL : L.Correct) (hp : r .pool = []) :
    func_800015E0 L m = (m, 0) := by
  have hring := R.ring .pool
  rw [hp] at hring
  simp [func_800015E0, D_8001B410, hL.pop_nil hring]

/-- The descriptor that was popped is counted and returned. -/
theorem func_800015E0_popped (hret : (L.func_80006420 m D_8001B410).2 = (Node.hnd i).word) :
    func_800015E0 L m =
      ((L.func_80006420 m D_8001B410).1.write D_8001B400
        ((L.func_80006420 m D_8001B410).1.read D_8001B400 + 1), (Node.hnd i).word) := by
  unfold func_800015E0
  simp only [hret, if_neg (Node.word_ne_zero (.hnd i))]

theorem func_800015E0_cons (R : Rings m r) (hL : L.Correct) (hp : r .pool ≠ []) :
    ∃ i ∈ r .pool, (L.func_80006420 m D_8001B410).2 = (Node.hnd i).word ∧
      (func_800015E0 L m).2 = (Node.hnd i).word ∧
      Rings (func_800015E0 L m).1 (Function.update r .pool ((r .pool).erase i)) ∧
      (func_800015E0 L m).1.read Cell.used.word = m.read Cell.used.word + 1 ∧
      ChangesOnly (links ∪ {.used}) m (func_800015E0 L m).1 := by
  obtain ⟨l₁, i, l₂, hr, hret, R', hm⟩ := R.pop hL hp
  have hn := R.nodup .pool
  rw [hr] at hn
  have hv := func_800015E0_popped hret
  refine ⟨i, by rw [hr]; simp, hret, by rw [hv], ?_, ?_, ?_⟩
  · rw [hv, hr, erase_middle hn]
    exact R'.write fun n => by simp
  · have hu : Cell.used ∉ links := by simp [links]
    rw [hv]
    simp only [D_8001B400, Mem.read_write_same]
    rw [D_8001B410, hm.cell hu]
  · rw [hv]
    have hmem : Cell.used ∈ links ∪ {Cell.used} := by simp
    exact (hm.mono Set.subset_union_left).write hmem

/-! ## Add -/

/-- The cells an Add of `i` to `q` may change. -/
def addCells (q : Queue) (i : Hid) : Set Cell :=
  links ∪ {.used, .handler i, .gp i, .arg i, .state i, .entries q}

/-- What a successful Add of `i` to queue `q` does. -/
structure Added (m m' : Mem) (r : Lists) (q : Queue) (i : Hid)
    (gp handler next arg unk : Word) : Prop where
  free : i ∈ r .pool
  rings : Rings m' (r.add q next i)
  handler : m'.read (Cell.handler i).word = handler
  gp : m'.read (Cell.gp i).word = gp
  arg : m'.read (Cell.arg i).word = arg
  state : m'.read (Cell.state i).word = unk
  used : m'.read Cell.used.word = m.read Cell.used.word + 1
  entries : m'.read (Cell.entries q).word = m.read (Cell.entries q).word + 1
  frame : ChangesOnly (addCells q i) m m'

/-- The position `next` names, as the node `func_800064D0` is given. -/
theorem anchor_node {l : List Hid} (hn : l.Nodup) (h0 : ∀ j ∈ l, j ≠ 0) (ha : Anchored next l)
    (i : Hid) :
    ∃ k₁ k₂, l = k₁ ++ k₂ ∧ place next i l = k₁ ++ i :: k₂ ∧
      (next = -1 ∧ k₂ = [] ∨ next = 0 ∧ k₁ = [] ∨
        ∃ j k, next = idx j ∧ k₂ = j :: k ∧ next ≠ -1 ∧ next ≠ 0) := by
  rcases ha with rfl | rfl | ⟨j, hj, rfl⟩
  · exact ⟨l, [], by simp, place_neg_one i l, .inl ⟨rfl, rfl⟩⟩
  · exact ⟨[], l, rfl, place_zero i l, .inr (.inl ⟨rfl, rfl⟩)⟩
  · have hj0 := h0 j hj
    obtain ⟨k₁, k, rfl⟩ := List.append_of_mem hj
    exact ⟨k₁, j :: k, rfl, place_idx hj0 i (notMem_of_nodup hn) k,
      .inr (.inr ⟨j, k, rfl, rfl, idx_ne_neg_one j, fun h => hj0 (idx_eq_zero.mp h)⟩)⟩

theorem fillDescriptor_frame (m : Mem) (i : Hid) (handler gp arg unk : Word) :
    ChangesOnly {.handler i, .gp i, .arg i, .state i} m
      (fillDescriptor m (Node.hnd i).word handler gp arg unk) := by
  simp only [fillDescriptor, fHandler_word, fGp_word, fArg_word, fState_word]
  refine (((((ChangesOnly.refl m).write ?_).write ?_).write ?_).write ?_) <;> simp

theorem fillDescriptor_read (m : Mem) (i : Hid) (handler gp arg unk : Word) :
    let m' := fillDescriptor m (Node.hnd i).word handler gp arg unk
    m'.read (Cell.handler i).word = handler ∧ m'.read (Cell.gp i).word = gp ∧
      m'.read (Cell.arg i).word = arg ∧ m'.read (Cell.state i).word = unk := by
  simp [fillDescriptor, read_write_cell]

/-- `addHandler` after the pop: the store, the position, the link and the count. -/
theorem addHandler_of_pop (hret : (func_800015E0 L m).2 = (Node.hnd i).word) (queue : Word) :
    addHandler L m gp queue handler next arg unk =
      let m' := fillDescriptor (func_800015E0 L m).1 (Node.hnd i).word handler gp arg unk
      if next = -1 then
        countAdd (L.func_800064D0 m' queue (Node.hnd i).word) queue (Node.hnd i).word
      else if next = 0 then
        countAdd (L.func_800064D0 m' (m'.read (fNext queue)) (Node.hnd i).word) queue
          (Node.hnd i).word
      else if badHid next ∨ m'.read (fState (int_handler next)) = 3 then (m', -1)
      else countAdd (L.func_800064D0 m' (int_handler next) (Node.hnd i).word) queue
          (Node.hnd i).word := by
  unfold addHandler
  simp only [hret, if_neg (Node.word_ne_zero (.hnd i))]

/-- Linking a filled descriptor into queue `q` and counting it. -/
theorem countAdd_added {m₁ m₂ : Mem} {k₁ k₂ : List Hid} (gp handler arg unk : Word)
    (R : Rings m r) (hL : L.Correct) (hi : i ∈ r .pool)
    (R₁ : Rings m₁ (Function.update r .pool ((r .pool).erase i)))
    (hused : m₁.read Cell.used.word = m.read Cell.used.word + 1)
    (hm₁ : ChangesOnly (links ∪ {.used}) m m₁)
    (hm₂ : m₂ = fillDescriptor m₁ (Node.hnd i).word handler gp arg unk)
    (hk : r (.queue q) = k₁ ++ k₂) (hplace : place next i (r (.queue q)) = k₁ ++ i :: k₂) :
    let res := countAdd (L.func_800064D0 m₂
      (first (Node.head (.queue q)) (k₂.map .hnd)).word (Node.hnd i).word)
      (Node.head (.queue q)).word (Node.hnd i).word
    Added m res.1 r q i gp handler next arg unk ∧ res.2 = idx i := by
  have hi0 : i ≠ 0 := R.pos hi
  have hf := fillDescriptor_frame m₁ i handler gp arg unk
  have hd := fillDescriptor_read m₁ i handler gp arg unk
  rw [← hm₂] at hf hd
  have R₂ : Rings m₂ (Function.update r .pool ((r .pool).erase i)) := R₁.frame hf fun n => by simp
  have hq : Function.update r Head.pool ((r .pool).erase i) (.queue q) = k₁ ++ k₂ := by
    simpa using hk
  obtain ⟨R₃, hm₃⟩ := R₂.insert hL (R.notMem_erased hi) hi0 hq
  have hdata : ∀ c, c ∉ links → (countAdd (L.func_800064D0 m₂
      (first (Node.head (.queue q)) (k₂.map .hnd)).word (Node.hnd i).word)
      (Node.head (.queue q)).word (Node.hnd i).word).1.read (Cell.word c) =
      if c = .entries q then m₂.read (Cell.entries q).word + 1 else m₂.read c.word := by
    intro c hc
    have he : Cell.entries q ∉ links := by simp [links]
    simp only [countAdd, fEntries_word, read_write_cell]
    split
    · rw [hm₃.cell he]
    · exact hm₃.cell hc
  refine ⟨⟨hi, ?_, ?_, ?_, ?_, ?_, ?_, ?_, ?_⟩, by simp [countAdd]⟩
  · rw [Lists.add, hplace]
    simp only [countAdd, fEntries_word]
    exact R₃.write fun n => by simp
  · rw [hdata _ (by simp [links])]
    simpa using hd.1
  · rw [hdata _ (by simp [links])]
    simpa using hd.2.1
  · rw [hdata _ (by simp [links])]
    simpa using hd.2.2.1
  · rw [hdata _ (by simp [links])]
    simpa using hd.2.2.2
  · rw [hdata _ (by simp [links])]
    simpa using (hf.cell (by simp)).trans hused
  · rw [hdata _ (by simp [links]), if_pos rfl, hf.cell (by simp), hm₁.cell (by simp [links])]
  · have hsub₁ : links ∪ {.used} ⊆ addCells q i := by
      intro c hc
      rcases hc with hc | rfl <;> simp [addCells, *]
    have hsub₂ : ({.handler i, .gp i, .arg i, .state i} : Set Cell) ⊆ addCells q i := by
      intro c hc
      simp only [Set.mem_insert_iff, Set.mem_singleton_iff] at hc
      rcases hc with rfl | rfl | rfl | rfl <;> simp [addCells]
    have hsub₃ : links ⊆ addCells q i := Set.subset_union_left
    simp only [countAdd, fEntries_word]
    exact (((hm₁.mono hsub₁).trans (hf.mono hsub₂)).trans (hm₃.mono hsub₃)).write
      (by simp [addCells])

theorem addHandler_nil (R : Rings m r) (hL : L.Correct) (hp : r .pool = []) (queue : Word) :
    addHandler L m gp queue handler next arg unk = (m, -1) := by
  unfold addHandler
  simp [func_800015E0_nil R hL hp]

/-- Add on a pool with a descriptor, at a position of the same queue that is not marked free. -/
theorem addHandler_at (gp handler arg unk : Word) (R : Rings m r) (hL : L.Correct)
    (hp : r .pool ≠ []) (ha : Anchored next (r (.queue q)))
    (hlive : ∀ j ∈ r (.queue q), next = idx j → m.read (Cell.state j).word ≠ 3) :
    ∃ i, (L.func_80006420 m D_8001B410).2 = (Node.hnd i).word ∧
      Added m (addHandler L m gp (Node.head (.queue q)).word handler next arg unk).1 r q i
        gp handler next arg unk ∧
      (addHandler L m gp (Node.head (.queue q)).word handler next arg unk).2 = idx i := by
  obtain ⟨i, hi, hpop, hret, R₁, hused, hm₁⟩ := func_800015E0_cons R hL hp
  refine ⟨i, hpop, ?_⟩
  rw [addHandler_of_pop hret]
  obtain ⟨k₁, k₂, hk, hplace, hcases⟩ :=
    anchor_node (R.nodup (.queue q)) (fun _ hj => R.pos hj) ha i
  have hres := countAdd_added gp handler arg unk R hL hi R₁ hused hm₁ rfl hk hplace
  rcases hcases with ⟨rfl, rfl⟩ | ⟨rfl, rfl⟩ | ⟨j, k, rfl, rfl, h1, h0⟩
  · simpa using hres
  · -- the queue's own `next` link is the first member
    have hf := fillDescriptor_frame (func_800015E0 L m).1 i handler gp arg unk
    have R₂ := R₁.frame hf fun n => by simp
    have hfirst := (R₂.ring (.queue q)).rel_first.1
    rw [Function.update_of_ne (by simp), hk, List.nil_append] at hfirst
    simp only [fNext_word, hfirst]
    simpa using hres
  · have hj : j ∈ r (.queue q) := by rw [hk]; simp
    have hji : j ≠ i := by
      rintro rfl
      exact R.notMem_of_ne hi (by simp) hj
    have hf := fillDescriptor_frame (func_800015E0 L m).1 i handler gp arg unk
    have hstate : (fillDescriptor (func_800015E0 L m).1 (Node.hnd i).word handler gp arg unk).read
        (Cell.state j).word ≠ 3 := by
      rw [hf.cell (by simpa using hji), hm₁.cell (by simp [links])]
      exact hlive j hj rfl
    have hbad : ¬ badHid (idx j) := not_badHid_iff.mpr ⟨j, R.pos hj, rfl⟩
    simp only [if_neg h1, if_neg h0, int_handler_idx, fState_word, hbad, hstate, false_or,
      ↓reduceIte]
    simpa using hres

theorem addHandler_cons (gp handler arg unk : Word) (R : Rings m r) (hL : L.Correct)
    (hp : r .pool ≠ []) (ha : Anchored next (r (.queue q)))
    (hlive : ∀ j ∈ r (.queue q), m.read (Cell.state j).word ≠ 3) :
    ∃ i, (L.func_80006420 m D_8001B410).2 = (Node.hnd i).word ∧
      Added m (addHandler L m gp (Node.head (.queue q)).word handler next arg unk).1 r q i
        gp handler next arg unk ∧
      (addHandler L m gp (Node.head (.queue q)).word handler next arg unk).2 = idx i :=
  addHandler_at gp handler arg unk R hL hp ha fun j hj _ => hlive j hj

/-- `next` is out of range, or a free id other than the one about to be popped. -/
def RefusedNext (L : ListHelpers) (m : Mem) (next : Word) : Prop :=
  badHid next ∨ ∃ j, next = idx j ∧ m.read (Cell.state j).word = 3 ∧
    (L.func_80006420 m D_8001B410).2 ≠ (Node.hnd j).word

/-- Such an Add fails after the pop. -/
theorem addHandler_late (gp handler arg unk : Word) (R : Rings m r) (hL : L.Correct)
    (hp : r .pool ≠ []) (h1 : next ≠ -1) (h0 : next ≠ 0) (href : RefusedNext L m next)
    (queue : Word) :
    ∃ i ∈ r .pool, (func_800015E0 L m).2 = (Node.hnd i).word ∧
      addHandler L m gp queue handler next arg unk =
        (fillDescriptor (func_800015E0 L m).1 (Node.hnd i).word handler gp arg unk, -1) := by
  obtain ⟨i, hi, hpop, hret, -, -, hm₁⟩ := func_800015E0_cons R hL hp
  have hf := fillDescriptor_frame (func_800015E0 L m).1 i handler gp arg unk
  have htest : badHid next ∨ (fillDescriptor (func_800015E0 L m).1 (Node.hnd i).word handler gp arg
      unk).read (fState (int_handler next)) = 3 := by
    rcases href with hbad | ⟨j, rfl, hj, hne⟩
    · exact .inl hbad
    · have hji : j ≠ i := by
        rintro rfl
        exact hne hpop
      right
      rw [int_handler_idx, fState_word, hf.cell (by simpa using hji), hm₁.cell (by simp [links]),
        hj]
  refine ⟨i, hi, hret, ?_⟩
  rw [addHandler_of_pop hret]
  simp only [if_neg h1, if_neg h0, if_pos htest]

/-- The descriptor it took is then on no list any more, and still counted. -/
theorem addHandler_refused (gp handler arg unk : Word) (R : Rings m r) (hL : L.Correct)
    (hp : r .pool ≠ []) (h1 : next ≠ -1) (h0 : next ≠ 0) (href : RefusedNext L m next)
    (queue : Word) :
    ∃ i ∈ r .pool, Rings (addHandler L m gp queue handler next arg unk).1
        (Function.update r .pool ((r .pool).erase i)) ∧
      (addHandler L m gp queue handler next arg unk).1.read Cell.used.word =
        m.read Cell.used.word + 1 ∧
      ChangesOnly (links ∪ {.used, .handler i, .gp i, .arg i, .state i}) m
        (addHandler L m gp queue handler next arg unk).1 := by
  obtain ⟨i, hi, hret, hval⟩ := addHandler_late gp handler arg unk R hL hp h1 h0 href queue
  obtain ⟨i', -, -, hret', R₁, hused, hm₁⟩ := func_800015E0_cons R hL hp
  obtain rfl : i = i' := by simpa using Node.word_inj.mp (hret.symm.trans hret')
  have hf := fillDescriptor_frame (func_800015E0 L m).1 i handler gp arg unk
  rw [hval]
  refine ⟨i, hi, R₁.frame hf fun n => by simp, (hf.cell (by simp)).trans hused,
    (hm₁.mono ?_).trans (hf.mono ?_)⟩
  · intro c hc
    rcases hc with hc | rfl <;> simp [*]
  · intro c hc
    simp only [Set.mem_insert_iff, Set.mem_singleton_iff] at hc
    rcases hc with rfl | rfl | rfl | rfl <;> simp

theorem func_800018F0_idx (m : Mem) (c : Fin 15) :
    func_800018F0 L m gp (idx c) handler next arg unk =
      if unk ≠ 0 ∧ c = INTC_SBUS then (m, -1)
      else addHandler L m gp (Node.head (.queue (.intc c))).word handler next arg unk := by
  have hc : ¬ (idx c).toNat ≥ INTC_MAX := by
    rw [toNat_idx (by omega), INTC_MAX]
    omega
  rw [func_800018F0, if_neg hc, intc_queue_idx]
  simp only [idx_inj (show 15 ≤ 2 ^ 32 by omega)]

theorem func_80001B50_idx (m : Mem) (c : Fin 16) :
    func_80001B50 L m gp (idx c) handler next arg unk =
      addHandler L m gp (Node.head (.queue (.dmac c))).word handler next arg unk := by
  have hc : ¬ (idx c).toNat ≥ DMAC_MAX := by
    rw [toNat_idx (by omega), DMAC_MAX]
    omega
  rw [func_80001B50, if_neg hc, dmac_queue_idx]

/-! ## Remove -/

/-- The cells a Remove of `i` charged to `q` may change. -/
def removeCells (q : Queue) (i : Hid) : Set Cell :=
  links ∪ {.used, .handler i, .state i, .entries q}

/-- What a successful Remove of `i`, which was on queue `q₀`, charged to queue `q`, does. -/
structure Removed (m m' : Mem) (r : Lists) (q₀ q : Queue) (i : Hid) : Prop where
  rings : Rings m' (r.remove q₀ i)
  handler : m'.read (Cell.handler i).word = 0
  state : m'.read (Cell.state i).word = 3
  used : m'.read Cell.used.word = m.read Cell.used.word - 1
  entries : m'.read (Cell.entries q).word = m.read (Cell.entries q).word - 1
  frame : ChangesOnly (removeCells q i) m m'

theorem removeHandler_refused {hid : Word} (queue : Word)
    (h : badHid hid ∨ m.read (fState (int_handler hid)) = 3) :
    removeHandler L m queue hid = (m, -1) := by
  unfold removeHandler
  by_cases hb : badHid hid
  · rw [if_pos hb]
  · rw [if_neg hb, if_pos (h.resolve_left hb)]

theorem func_80001628_spec (R : Rings m r) (hL : L.Correct) (hoff : ∀ h, i ∉ r h) (hi : i ≠ 0) :
    Rings (func_80001628 L m (idx i)) (Function.update r .pool (r .pool ++ [i])) ∧
      (func_80001628 L m (idx i)).read Cell.used.word = m.read Cell.used.word - 1 ∧
      ChangesOnly (links ∪ {.used}) m (func_80001628 L m (idx i)) := by
  have hsplit : r .pool = r .pool ++ [] := by simp
  obtain ⟨R', hm⟩ := R.insert hL hoff hi hsplit
  have hu : Cell.used ∉ links := by simp [links]
  have hmem : Cell.used ∈ links ∪ {Cell.used} := by simp
  simp only [List.map_nil, first_nil] at R' hm
  simp only [func_80001628, D_8001B410, D_8001B400, int_handler_idx]
  refine ⟨R'.write fun n => by simp, ?_, (hm.mono Set.subset_union_left).write hmem⟩
  rw [Mem.read_write_same, hm.cell hu]

/-- A Remove, up to the count of the queue. -/
def takenOff (L : ListHelpers) (m : Mem) (hid : Word) : Mem :=
  func_80001628 L (L.func_800064B0 ((m.write (fState (int_handler hid)) 3).write
    (fHandler (int_handler hid)) 0) (int_handler hid)) hid

theorem removeHandler_live {hid : Word} (hbad : ¬ badHid hid)
    (hlive : m.read (fState (int_handler hid)) ≠ 3) (queue : Word) :
    removeHandler L m queue hid =
      ((takenOff L m hid).write (fEntries queue) ((takenOff L m hid).read (fEntries queue) - 1),
        (takenOff L m hid).read (fEntries queue) - 1) := by
  unfold removeHandler
  simp only [if_neg hbad, if_neg hlive, Mem.read_write_same]
  rfl

/-- Taking a descriptor off whichever list it is on, the pool too. -/
theorem takenOff_spec {h : Head} (R : Rings m r) (hL : L.Correct) (hi : i ∈ r h) :
    Rings (takenOff L m (idx i)) (Function.update (Function.update r h ((r h).erase i)) .pool
        (Function.update r h ((r h).erase i) .pool ++ [i])) ∧
      (takenOff L m (idx i)).read (Cell.handler i).word = 0 ∧
      (takenOff L m (idx i)).read (Cell.state i).word = 3 ∧
      (takenOff L m (idx i)).read Cell.used.word = m.read Cell.used.word - 1 ∧
      ChangesOnly (links ∪ {.used, .handler i, .state i}) m (takenOff L m (idx i)) := by
  -- the two stores that mark the descriptor free
  let m₁ := (m.write (Cell.state i).word 3).write (Cell.handler i).word 0
  have hm₁ : ChangesOnly {.state i, .handler i} m m₁ :=
    ((ChangesOnly.refl m).write (by simp)).write (by simp)
  have R₁ : Rings m₁ r := R.frame hm₁ fun n => by simp
  -- the unlink
  obtain ⟨l₁, l₂, hr⟩ := List.append_of_mem hi
  have hn := R.nodup h
  obtain ⟨R₂, hm₂⟩ := R₁.remove hL hr
  rw [← erase_middle (hr ▸ hn), ← hr] at R₂
  -- the link at the end of the pool
  obtain ⟨R₃, hused, hm₃⟩ := func_80001628_spec R₂ hL (R.notMem_erased hi) (R.pos hi)
  have hval : takenOff L m (idx i) =
      func_80001628 L (L.func_800064B0 m₁ (Node.hnd i).word) (idx i) := by
    unfold takenOff
    simp only [int_handler_idx, fState_word, fHandler_word, m₁]
  have hkeep : ∀ c, c ∉ links → c ≠ .used → (takenOff L m (idx i)).read c.word =
      m₁.read c.word := by
    intro c hc hcu
    rw [hval, hm₃.cell (by simp [hc, hcu]), hm₂.cell hc]
  refine ⟨hval ▸ R₃, ?_, ?_, ?_, ?_⟩
  · rw [hkeep _ (by simp [links]) (by simp)]
    simp [m₁]
  · rw [hkeep _ (by simp [links]) (by simp)]
    simp [m₁, read_write_cell]
  · rw [hval, hused, hm₂.cell (by simp [links]), hm₁.cell (by simp)]
  · have hsub₁ : ({.state i, .handler i} : Set Cell) ⊆ links ∪ {.used, .handler i, .state i} := by
      intro c hc
      simp only [Set.mem_insert_iff, Set.mem_singleton_iff] at hc
      rcases hc with rfl | rfl <;> simp
    have hsub₂ : links ⊆ links ∪ {.used, .handler i, .state i} := Set.subset_union_left
    have hsub₃ : links ∪ {.used} ⊆ links ∪ {.used, .handler i, .state i} := by
      intro c hc
      rcases hc with hc | rfl <;> simp [*]
    rw [hval]
    exact ((hm₁.mono hsub₁).trans (hm₂.mono hsub₂)).trans (hm₃.mono hsub₃)

/-- Remove of a descriptor on queue `q₀`, charged to queue `q`. -/
theorem removeHandler_spec {q₀ : Queue} (R : Rings m r) (hL : L.Correct)
    (hi : i ∈ r (.queue q₀)) (hlive : m.read (Cell.state i).word ≠ 3) :
    Removed m (removeHandler L m (Node.head (.queue q)).word (idx i)).1 r q₀ q i ∧
      (removeHandler L m (Node.head (.queue q)).word (idx i)).2 =
        m.read (Cell.entries q).word - 1 := by
  have hbad : ¬ badHid (idx i) := not_badHid_iff.mpr ⟨i, R.pos hi, rfl⟩
  have hlive' : m.read (fState (int_handler (idx i))) ≠ 3 := by
    rwa [int_handler_idx, fState_word]
  obtain ⟨R', hhandler, hstate, hused, hm⟩ := takenOff_spec R hL hi
  rw [Function.update_of_ne (by simp)] at R'
  have hentries : (takenOff L m (idx i)).read (Cell.entries q).word =
      m.read (Cell.entries q).word := hm.cell (by simp [links])
  rw [removeHandler_live hbad hlive', fEntries_word, hentries]
  refine ⟨⟨R'.write fun n => by simp, ?_, ?_, ?_, Mem.read_write_same _ _ _, ?_⟩, rfl⟩
  · rw [read_write_cell, if_neg (by simp), hhandler]
  · rw [read_write_cell, if_neg (by simp), hstate]
  · rw [read_write_cell, if_neg (by simp), hused]
  · have hsub : links ∪ {.used, .handler i, .state i} ⊆ removeCells q i := by
      intro c hc
      rcases hc with hc | hc
      · exact .inl hc
      · simp only [Set.mem_insert_iff, Set.mem_singleton_iff] at hc
        rcases hc with rfl | rfl | rfl <;> simp [removeCells]
    exact (hm.mono hsub).write (by simp [removeCells])

/-! ## Enable and disable -/

theorem setState_idx (m : Mem) (i : Hid) (state : Word) :
    setState m (idx i) state = (m.write (Cell.state i).word state, idx i) := by
  simp [setState]

end EeKernel.Intr
