import EeKernel.Intr.FailedAdd

/-!
# Adds at any `next`

The position is accepted for its range and state alone.  A descriptor of another
queue passes, and the new one is linked there while `entries` of the named queue
goes up; so does the descriptor the pop has just handed out, which is then
linked to itself.
-/

namespace EeKernel.Intr

open EeKernel.Lib

/-- `func_800064D0` links its second argument immediately before its first, also when they are
the same node. -/
def ListHelpers.SelfLinks (L : ListHelpers) : Prop :=
  ∀ (m : Mem) (n : Node), Linked (L.func_800064D0 m n.word n.word) n n

theorem standard_selfLinks : standard.SelfLinks := by
  intro m n
  unfold standard linkBefore
  simp only [fNext_word]
  simp only [Node.word_eq_prev n]
  constructor
  · rw [read_write_cell, if_neg (by simp), Mem.read_write, read_write_cell, if_pos rfl, ite_self]
    rfl
  · rw [read_write_cell, if_pos rfl]
    rfl

/-- An Add that answers an id leaves it once on the queue of the cause, every ring proper, the
128 descriptors shared out, and `entries` the length of each queue. -/
def KeepsCounts (L : ListHelpers) (m : Mem) (c : AddCall) : Prop :=
  (c.exec L m).2 ≠ -1 → ∃ q i r', c.k.Names c.cause q ∧ (c.exec L m).2 = idx i ∧
    (r' (.queue q)).count i = 1 ∧ Counted (c.exec L m).1 r' ∧ ∀ j, j ≠ 0 → ∃ h, j ∈ r' h

/-- The Add answers -1: cause not accepted, empty pool or late exit. -/
def Fails (L : ListHelpers) (m : Mem) (c : AddCall) : Prop :=
  ¬ c.k.Accepts c.cause c.unk ∨ (L.func_80006420 m D_8001B410).2 = 0 ∨ LateExit L m c

/-- `next` is -1, 0 or on the queue of the cause. -/
def NextOwn (r : Lists) (c : AddCall) : Prop :=
  c.next = -1 ∨ c.next = 0 ∨ ∃ q j, c.k.Names c.cause q ∧ c.next = idx j ∧ j ∈ r (.queue q)

variable {L : ListHelpers} {m m' : Mem} {r : Lists} {c : AddCall} {q : Queue} {i j : Hid}

theorem fails_answer (W : WellFormed m r) (hL : L.Correct) (h : Fails L m c) :
    (c.exec L m).2 = -1 := by
  by_cases hearly : ¬ c.k.Accepts c.cause c.unk ∨ (L.func_80006420 m D_8001B410).2 = 0
  · rw [not_popped (W.ring .pool) hL hearly]
  · rcases h with h | h | h
    · exact absurd (.inl h) hearly
    · exact absurd (.inr h) hearly
    · exact (late_exit (W.ring .pool) hL h).1

/-- At a position of its own queue an Add that is accepted and finds the pool stocked goes
through. -/
theorem own_added (W : WellFormed m r) (hL : L.Correct) (hacc : c.k.Accepts c.cause c.unk)
    (hp : r .pool ≠ []) (hown : NextOwn r c) :
    ∃ q i, c.k.Names c.cause q ∧ (c.exec L m).2 = idx i ∧
      Added m (c.exec L m).1 r q i c.gp c.handler c.next c.arg c.unk := by
  obtain ⟨q, hq⟩ := Controller.names_of_accepts hacc
  have ha : Anchored c.next (r (.queue q)) := by
    rcases hown with h | h | ⟨q', j, hq', hj, hmem⟩
    · exact .inl h
    · exact .inr (.inl h)
    · obtain rfl := hq.unique hq'
      exact .inr (.inr ⟨j, hmem, hj⟩)
  obtain ⟨i, -, hA, hret⟩ :=
    addHandler_cons c.gp c.handler c.arg c.unk W.toRings hL hp ha fun j hj => W.live hj
  rw [← hq.queue_eq, ← Controller.add_accepted hacc] at hA hret
  exact ⟨q, i, hq, hret, hA⟩

theorem own_keeps (W : WellFormed m r) (hL : L.Correct) (hacc : c.k.Accepts c.cause c.unk)
    (hp : r .pool ≠ []) (hown : NextOwn r c) : KeepsCounts L m c := by
  intro _
  obtain ⟨q, i, hq, hret, hA⟩ := own_added W hL hacc hp hown
  refine ⟨q, i, r.add q c.next i, hq, hret, ?_, W.toCounted.add hA,
    fun j hj => W.cover_add q c.next i hj⟩
  have hoff : i ∉ r (.queue q) := W.notMem_of_ne hA.free (by simp)
  rw [Lists.add_queue, (place_perm c.next i _).count_eq, List.count_cons_self,
    List.count_eq_zero_of_not_mem hoff]

/-- A descriptor linked to itself is on no ring. -/
theorem Ring.not_selfLinked {h : Head} {l : List Hid} (R : Ring m (.head h) (l.map .hnd))
    (hself : Linked m (.hnd i) (.hnd i)) : i ∉ l := by
  intro hi
  obtain ⟨l₁, l₂, rfl⟩ := List.append_of_mem hi
  have hn : (l₁ ++ i :: l₂).Nodup := R.nodup_tail.of_map
  rw [List.map_append, List.map_cons] at R
  have hnext := Linked.functional _ _ _ hself R.rel_next
  cases l₂ with
  | nil => cases hnext
  | cons j l₂ =>
    rw [List.map_cons, first_cons, Node.hnd.injEq] at hnext
    subst hnext
    have htail := (List.nodup_append.mp hn).2.1
    exact (List.nodup_cons.mp htail).1 List.mem_cons_self

/-- Linked before a descriptor of queue `q₀`, the new one is on `q₀` and counted on `queue`. -/
theorem elsewhere_lists {m₁ : Mem} {q₀ : Queue} {k₁ k₂ : List Hid} (queue : Queue)
    (handler gp arg unk : Word) (R : Rings m r) (hL : L.Correct) (hi : i ∈ r .pool)
    (hj : r (.queue q₀) = k₁ ++ j :: k₂)
    (R₁ : Rings m₁ (Function.update r .pool ((r .pool).erase i)))
    (hm₁ : ChangesOnly (links ∪ {.used}) m m₁) :
    let m' := (countAdd (L.func_800064D0 (fillDescriptor m₁ (Node.hnd i).word handler gp arg unk)
      (Node.hnd j).word (Node.hnd i).word) (Node.head (.queue queue)).word (Node.hnd i).word).1
    Rings m' (Function.update (Function.update r .pool ((r .pool).erase i)) (.queue q₀)
        (k₁ ++ i :: j :: k₂)) ∧
      ∀ q, m'.read (Cell.entries q).word =
        if q = queue then m.read (Cell.entries q).word + 1 else m.read (Cell.entries q).word := by
  have hf := fillDescriptor_frame m₁ i handler gp arg unk
  have R₂ := R₁.frame hf fun n => by simp
  have hq : Function.update r Head.pool ((r .pool).erase i) (.queue q₀) = k₁ ++ j :: k₂ := by
    simpa using hj
  obtain ⟨R₃, hm₃⟩ := R₂.insert hL (R.notMem_erased hi) (R.pos hi) hq
  have hkeep : ∀ q, (L.func_800064D0 (fillDescriptor m₁ (Node.hnd i).word handler gp arg unk)
      (Node.hnd j).word (Node.hnd i).word).read (Cell.entries q).word =
        m.read (Cell.entries q).word := by
    intro q
    exact (hm₃.cell (by simp [links])).trans
      ((hf.cell (by simp)).trans (hm₁.cell (by simp [links])))
  simp only [countAdd, fEntries_word, read_write_cell, Cell.entries.injEq, hkeep]
  refine ⟨R₃.write fun n => by simp, fun q => ?_⟩
  split
  · next h => rw [h]
  · rfl

/-- An Add that goes through and keeps the counts was given a position of its own queue. -/
theorem own_of_keeps (hL : L.Correct) (hself : L.SelfLinks) (W : WellFormed m r)
    (h : KeepsCounts L m c) (hfail : ¬ Fails L m c) : NextOwn r c := by
  by_contra hown
  obtain ⟨hacc, hp0, hlate⟩ : c.k.Accepts c.cause c.unk ∧
      (L.func_80006420 m D_8001B410).2 ≠ 0 ∧ ¬ LateExit L m c := by
    simpa only [Fails, not_or, not_not] using hfail
  obtain ⟨i, hi, hpop, hret, R₁, -, hm₁⟩ :=
    func_800015E0_cons W.toRings hL (pool_ne_nil (W.ring .pool) hL hp0)
  obtain ⟨j, hj0, hj, hcase, hval⟩ := accepted_value hacc hlate hpop hret
    (fun j => hm₁.cell (by simp [links])) (fun h => hown (.inl h)) (fun h => hown (.inr (.inl h)))
  have hans : (c.exec L m).2 = idx i := by
    rw [hval]
    exact handlerIndex_word i
  obtain ⟨q, i', r', hq, hret', hcount, C, -⟩ := h (hans ▸ idx_ne_neg_one i)
  obtain rfl : i = i' := idx_hid_inj.mp (hans.symm.trans hret')
  have hmem : i ∈ r' (.queue q) := List.count_pos_iff.mp (by omega)
  rw [hval, hq.queue_eq] at C
  rcases hcase with rfl | ⟨hji, hlive⟩
  · -- the descriptor just popped, linked before itself
    have hlinked := hself (fillDescriptor (func_800015E0 L m).1 (Node.hnd j).word c.handler c.gp
      c.arg c.unk) (.hnd j)
    refine Ring.not_selfLinked (C.ring (.queue q)) ?_ hmem
    unfold countAdd
    simp only [fEntries_word, Linked, read_write_cell] at hlinked ⊢
    simpa using hlinked
  · -- a descriptor of another queue
    obtain ⟨q₀, hq₀⟩ := W.on_queue hj0 hlive
    have hne : q ≠ q₀ := by
      rintro rfl
      exact hown (.inr (.inr ⟨q, j, hq, hj, hq₀⟩))
    obtain ⟨k₁, k₂, hk⟩ := List.append_of_mem hq₀
    obtain ⟨R', -⟩ := elsewhere_lists q c.handler c.gp c.arg c.unk W.toRings hL hi hk R₁ hm₁
    rw [C.toRings.unique R', Function.update_of_ne (by simpa using hne),
      Function.update_of_ne (by simp)] at hmem
    exact W.notMem_of_ne hi (by simp) hmem

/-- An Add keeps the counts exactly if it fails or its `next` is a position of its own queue. -/
theorem any_next_iff (hL : L.Correct) (hself : L.SelfLinks) (W : WellFormed m r) (c : AddCall) :
    KeepsCounts L m c ↔ Fails L m c ∨ NextOwn r c := by
  by_cases hfail : Fails L m c
  · have hret := fails_answer W hL hfail
    exact ⟨fun _ => .inl hfail, fun _ hne => absurd hret hne⟩
  · obtain ⟨hacc, hp0, -⟩ : c.k.Accepts c.cause c.unk ∧
        (L.func_80006420 m D_8001B410).2 ≠ 0 ∧ ¬ LateExit L m c := by
      simpa only [Fails, not_or, not_not] using hfail
    constructor
    · exact fun h => .inr (own_of_keeps hL hself W h hfail)
    · exact fun h => own_keeps W hL hacc (pool_ne_nil (W.ring .pool) hL hp0) (h.resolve_left hfail)

theorem any_next_iff_one_handler : ∃ r, WellFormed oneHandler r ∧
    ∀ next, KeepsCounts standard oneHandler ⟨.intc, 0, 0, 0x100, next, 0, 2⟩ ↔
      Fails standard oneHandler ⟨.intc, 0, 0, 0x100, next, 0, 2⟩ ∨
        NextOwn r ⟨.intc, 0, 0, 0x100, next, 0, 2⟩ := by
  obtain ⟨r, i, W, -⟩ := oneHandler_spec
  exact ⟨r, W, fun next => any_next_iff standard_correct standard_selfLinks W _⟩

/-- A DMAC handler, added before the one handler of INTC cause 0: it is linked there, and
counted on its own queue, which stays empty. -/
theorem any_next_miscounts :
    ∃ r i p, WellFormed oneHandler r ∧ r (.queue (.intc 0)) = [i] ∧
      let res := func_80001B50 standard oneHandler 0 (idx (3 : Fin 16)) 0x100 (idx i) 0 2
      res.2 = idx p ∧
      Ring res.1 (.head (.queue (.intc 0))) [.hnd p, .hnd i] ∧
      res.1.read (Cell.entries (.intc 0)).word = 1 ∧
      Ring res.1 (.head (.queue (.dmac 3))) [] ∧
      res.1.read (Cell.entries (.dmac 3)).word = 1 ∧
      ¬ KeepsCounts standard oneHandler ⟨.dmac, 0, idx (3 : Fin 16), 0x100, idx i, 0, 2⟩ := by
  obtain ⟨r, i, W, hr, hempty, hpool, hi⟩ := oneHandler_spec
  let c : AddCall := ⟨.dmac, 0, idx (3 : Fin 16), 0x100, idx i, 0, 2⟩
  have hmem : i ∈ r (.queue (.intc 0)) := by
    rw [hr]
    exact List.mem_singleton_self i
  have hp : r .pool ≠ [] := by
    intro hp
    rw [hp] at hpool
    cases hpool
  obtain ⟨p, hfree, hpop, hret, R₁, -, hm₁⟩ := func_800015E0_cons W.toRings standard_correct hp
  have hpi : p ≠ i := by
    rintro rfl
    exact W.notMem_of_ne hfree (by simp) hmem
  have hacc : c.k.Accepts c.cause c.unk := by
    have hcause : (idx (3 : Fin 16)).toNat < DMAC_MAX := by decide
    exact hcause
  have hlate : ¬ LateExit standard oneHandler c := by
    intro hlate
    rcases hlate.refused with hbad | htest
    · exact not_badHid_iff.mpr ⟨i, W.pos hmem, rfl⟩ hbad
    · rw [hpop] at htest
      simp only [c, int_handler_idx, Node.word_inj, Node.hnd.injEq, if_neg hpi.symm, fState_word,
        hi] at htest
      exact absurd htest (by decide)
  have hfail : ¬ Fails standard oneHandler c := by
    rintro (hnot | hpop0 | h)
    · exact hnot hacc
    · rw [hpop] at hpop0
      exact Node.word_ne_zero _ hpop0
    · exact hlate h
  -- the call links `p` before `i`
  obtain ⟨j, -, hj, -, hval⟩ := accepted_value hacc hlate hpop hret
    (fun j => hm₁.cell (by simp [links])) (idx_ne_neg_one i)
    (fun h => W.pos hmem (idx_eq_zero.mp h))
  obtain rfl : i = j := idx_hid_inj.mp hj
  have hqueue : c.k.queue c.cause = (Node.head (.queue (.dmac 3))).word := dmac_queue_idx 3
  rw [hqueue] at hval
  have hi₀ : r (.queue (.intc 0)) = [] ++ i :: [] := hr
  obtain ⟨R', hcount⟩ := elsewhere_lists (.dmac 3) c.handler c.gp c.arg c.unk W.toRings
    standard_correct hfree hi₀ R₁ hm₁
  rw [← hval] at R' hcount
  have hans : (c.exec standard oneHandler).2 = idx p := by
    rw [hval]
    exact handlerIndex_word p
  have hintc := R'.ring (.queue (.intc 0))
  have hdmac := R'.ring (.queue (.dmac 3))
  rw [Function.update_self] at hintc
  rw [Function.update_of_ne (by simp), Function.update_of_ne (by simp), hempty _ (by simp)] at hdmac
  have he₀ : (c.exec standard oneHandler).1.read (Cell.entries (.intc 0)).word = 1 := by
    rw [hcount, if_neg (by simp), W.entries, hr]
    rfl
  have he₃ : (c.exec standard oneHandler).1.read (Cell.entries (.dmac 3)).word = 1 := by
    rw [hcount, if_pos rfl, W.entries, hempty _ (by simp)]
    rfl
  refine ⟨r, i, p, W, hr, hans, hintc, he₀, hdmac, he₃, fun h => ?_⟩
  rcases own_of_keeps standard_correct standard_selfLinks W h hfail with
    h1 | h0 | ⟨q, j, hq, hj, hjq⟩
  · exact idx_ne_neg_one i h1
  · exact W.pos hmem (idx_eq_zero.mp h0)
  · obtain rfl := hq.unique ⟨3, rfl, rfl⟩
    rw [hempty _ (by simp)] at hjq
    cases hjq

end EeKernel.Intr
