import EeKernel.Intr.Dispatch

/-!
# Dispatch in the registered order

`deliver` is what a dispatcher owes the descriptors of a queue: a fold over
the list, with no counter and no pointer.  As long as the callees leave the
registry alone, the counted walk over the ring is that fold; the invariant ties
the counter to the number of descriptors already walked and `hnd` to the first
of those that are left.
-/

namespace EeKernel.Intr

open EeKernel.Lib

variable {ε : Type}

/-! ## Callees -/

/-- No handler touches the registry. -/
structure Callees.LeavesRegistry (C : Callees ε) : Prop where
  user : ∀ hnd call s, SameRegistry s.mem (C.func_800029C0 hnd call s).1.mem
  direct : ∀ hnd handler inum s, SameRegistry s.mem (C.direct hnd handler inum s).mem

/-- Kernel code returns with the `$gp` it was entered with. -/
structure Callees.KeepsGp (C : Callees ε) : Prop where
  direct : ∀ hnd handler inum s, (C.direct hnd handler inum s).gp = s.gp
  kprintf : ∀ text inum s, (C.kprintf text inum s).gp = s.gp
  func_80000DC0 : ∀ x s, (C.func_80000DC0 x s).gp = s.gp

/-- A handler cannot tell through which descriptor it was called. -/
structure Callees.Blind (C : Callees ε) : Prop where
  user : ∀ hnd hnd' call s, C.func_800029C0 hnd call s = C.func_800029C0 hnd' call s
  direct : ∀ hnd hnd' handler inum s, C.direct hnd handler inum s = C.direct hnd' handler inum s

/-! ## The abstract behaviour -/

/-- What delivering an interrupt to a list of descriptors comes to. -/
structure Delivery (ε : Type) where
  machine : Machine ε
  invocations : List Invocation
  early : Bool

def Delivery.cons (v : Invocation) (D : Delivery ε) : Delivery ε :=
  { D with invocations := v :: D.invocations }

/-- Invoke the descriptors in order: in state 2 through `func_800029C0`, with its five
arguments, the descriptor's `$gp`, and the dispatcher's own `$gp` again afterwards; directly in
state 0; not at all otherwise.  Stop after a negative result. -/
def deliver (C : Callees ε) (inum : Word) : List (Word × Descriptor) → Machine ε → Delivery ε
  | [], s => { machine := s, invocations := [], early := false }
  | (hnd, d) :: l, s =>
    if d.state = 2 then
      let call : UserCall :=
        { base := s.mem.read D_800174E4, handler := d.handler, inum := inum, arg := d.arg,
          epc := s.epc }
      let (s', res) := C.func_800029C0 hnd call { s with gp := d.gp }
      let s' := { s' with gp := s.gp }
      if res.toInt < 0 then
        { machine := s', invocations := [.user call d.gp res], early := true }
      else (deliver C inum l s').cons (.user call d.gp res)
    else if d.state = 0 then
      (deliver C inum l (C.direct hnd d.handler inum s)).cons (.direct d.handler inum)
    else deliver C inum l s

/-- The invocation that ends a delivery. -/
def Invocation.Negative : Invocation → Prop
  | .user _ _ res => res.toInt < 0
  | .direct _ _ => False

section Deliver

variable {C : Callees ε} {inum : Word}

section Round

variable (C inum) {d : Descriptor} (hnd : Word) (l : List (Word × Descriptor)) (s : Machine ε)

theorem deliver_return (h2 : d.state = 2) (hneg : (callUser C inum hnd d s).2.toInt < 0) :
    deliver C inum ((hnd, d) :: l) s =
      { machine := (callUser C inum hnd d s).1,
        invocations := [.user (userCall inum d s) d.gp (callUser C inum hnd d s).2],
        early := true } :=
  (if_pos h2).trans (if_pos hneg)

theorem deliver_user (h2 : d.state = 2) (hneg : ¬ (callUser C inum hnd d s).2.toInt < 0) :
    deliver C inum ((hnd, d) :: l) s = (deliver C inum l (callUser C inum hnd d s).1).cons
      (.user (userCall inum d s) d.gp (callUser C inum hnd d s).2) :=
  (if_pos h2).trans (if_neg hneg)

theorem deliver_direct (h2 : d.state ≠ 2) (h0 : d.state = 0) :
    deliver C inum ((hnd, d) :: l) s =
      (deliver C inum l (C.direct hnd d.handler inum s)).cons (.direct d.handler inum) :=
  (if_neg h2).trans (if_pos h0)

theorem deliver_skip (h2 : d.state ≠ 2) (h0 : d.state ≠ 0) :
    deliver C inum ((hnd, d) :: l) s = deliver C inum l s :=
  (if_neg h2).trans (if_neg h0)

end Round

/-- A delivery is cut short exactly by a negative result, which is its last. -/
theorem deliver_early (C : Callees ε) (inum : Word) (l : List (Word × Descriptor)) (s : Machine ε) :
    ((deliver C inum l s).early = true ↔ ∃ v ∈ (deliver C inum l s).invocations, v.Negative) ∧
      ∀ l₁ v l₂, (deliver C inum l s).invocations = l₁ ++ v :: l₂ → v.Negative → l₂ = [] := by
  -- a round that goes on prepends an invocation that is not negative
  have hcons : ∀ (D : Delivery ε) (u : Invocation), ¬ u.Negative →
      ((D.early = true ↔ ∃ v ∈ D.invocations, v.Negative) ∧
        ∀ l₁ v l₂, D.invocations = l₁ ++ v :: l₂ → v.Negative → l₂ = []) →
      (((D.cons u).early = true ↔ ∃ v ∈ (D.cons u).invocations, v.Negative) ∧
        ∀ l₁ v l₂, (D.cons u).invocations = l₁ ++ v :: l₂ → v.Negative → l₂ = []) := by
    intro D u hu ⟨he, hl⟩
    refine ⟨?_, ?_⟩
    · rw [Delivery.cons, List.exists_mem_cons_iff]
      exact he.trans ⟨.inr, fun h => h.resolve_left hu⟩
    · intro l₁ v l₂ heq hv
      cases l₁ with
      | nil =>
        obtain ⟨rfl, rfl⟩ := List.cons.inj heq
        exact absurd hv hu
      | cons u' l₁ => exact hl l₁ v l₂ (List.cons.inj heq).2 hv
  induction l generalizing s with
  | nil => simp [deliver]
  | cons x l ih =>
    obtain ⟨hnd, d⟩ := x
    unfold deliver
    split
    · simp only
      split
      · rename_i hneg
        refine ⟨⟨fun _ => ⟨_, List.mem_singleton_self _, hneg⟩, fun _ => rfl⟩, ?_⟩
        intro l₁ v l₂ heq _
        have hlen := congrArg List.length heq
        simp only [List.length_cons, List.length_nil, List.length_append] at hlen
        exact List.length_eq_zero_iff.mp (by omega)
      · rename_i hneg
        exact hcons _ _ hneg (ih _)
    · split
      · exact hcons _ _ (fun h => h) (ih _)
      · exact ih s

theorem deliver_gp (hg : C.KeepsGp) (l : List (Word × Descriptor)) (s : Machine ε) :
    (deliver C inum l s).machine.gp = s.gp := by
  induction l generalizing s with
  | nil => rfl
  | cons x l ih =>
    obtain ⟨hnd, d⟩ := x
    unfold deliver
    split
    · simp only
      split
      · rfl
      · exact (ih _).trans rfl
    · split
      · exact (ih _).trans (hg.direct ..)
      · exact ih s

theorem deliver_same (hr : C.LeavesRegistry) (l : List (Word × Descriptor)) (s : Machine ε) :
    SameRegistry s.mem (deliver C inum l s).machine.mem := by
  induction l generalizing s with
  | nil => exact SameRegistry.refl s.mem
  | cons x l ih =>
    obtain ⟨hnd, d⟩ := x
    have huser : SameRegistry s.mem (callUser C inum hnd d s).1.mem := hr.user _ _ _
    unfold deliver
    split
    · simp only
      split
      · exact huser
      · exact huser.trans (ih _)
    · split
      · exact (hr.direct _ _ _ _).trans (ih _)
      · exact ih s

/-- Every invocation is that of a descriptor of the list, in the way of its state. -/
theorem deliver_invocation {l : List (Word × Descriptor)} {s : Machine ε} {v : Invocation}
    (hv : v ∈ (deliver C inum l s).invocations) :
    ∃ x ∈ l, (x.2.state = 2 ∧ ∃ (s' : Machine ε) (res : Word),
      v = .user (userCall inum x.2 s') x.2.gp res) ∨
        (x.2.state = 0 ∧ v = .direct x.2.handler inum) := by
  induction l generalizing s with
  | nil => cases hv
  | cons x l ih =>
    -- an invocation of the rest
    have hrest : ∀ {s}, v ∈ (deliver C inum l s).invocations →
        ∃ y ∈ x :: l, (y.2.state = 2 ∧ ∃ (s' : Machine ε) (res : Word),
          v = .user (userCall inum y.2 s') y.2.gp res) ∨
            (y.2.state = 0 ∧ v = .direct y.2.handler inum) := by
      intro s h
      obtain ⟨y, hy, hcases⟩ := ih h
      exact ⟨y, List.mem_cons_of_mem x hy, hcases⟩
    obtain ⟨hnd, d⟩ := x
    unfold deliver at hv
    split at hv
    · rename_i h2
      simp only at hv
      split at hv
      · rw [List.mem_singleton.mp hv]
        exact ⟨_, List.mem_cons_self, .inl ⟨h2, _, _, rfl⟩⟩
      · rcases List.mem_cons.mp hv with rfl | hv
        · exact ⟨_, List.mem_cons_self, .inl ⟨h2, _, _, rfl⟩⟩
        · exact hrest hv
    · split at hv
      · rename_i h0
        rcases List.mem_cons.mp hv with rfl | hv
        · exact ⟨_, List.mem_cons_self, .inr ⟨h0, rfl⟩⟩
        · exact hrest hv
      · exact hrest hv

theorem deliver_blind (hb : C.Blind) {l l' : List (Word × Descriptor)}
    (h : l.map Prod.snd = l'.map Prod.snd) (s : Machine ε) :
    deliver C inum l s = deliver C inum l' s := by
  induction l generalizing l' s with
  | nil => rw [List.map_eq_nil_iff.mp h.symm]
  | cons x l ih =>
    obtain ⟨⟨hnd', d'⟩, l', rfl, hd, hl⟩ := List.map_eq_cons_iff.mp h.symm
    obtain ⟨hnd, d⟩ := x
    cases hd
    unfold deliver
    simp only [hb.user hnd hnd', hb.direct hnd hnd', ih hl.symm]

end Deliver

/-! ## The walk is the delivery -/

def descriptorAt (m : Mem) (i : Hid) : Word × Descriptor :=
  ((Node.hnd i).word, readDescriptor m (Node.hnd i).word)

theorem readDescriptor_congr {m m' : Mem} (h : SameRegistry m m') (i : Hid) :
    readDescriptor m' (Node.hnd i).word = readDescriptor m (Node.hnd i).word := by
  simp only [readDescriptor, fHandler_word, fGp_word, fArg_word, fState_word,
    h (.handler i) trivial, h (.gp i) trivial, h (.arg i) trivial, h (.state i) trivial]

theorem enabled_congr {m m' : Mem} (h : SameRegistry m m') : enabled m' = enabled m := by
  funext i
  simp only [enabled, readDescriptor_congr h]

/-- What a walk over `rest`, entered with `n` descriptors behind it, comes to. -/
structure Walked (D : Delivery ε) (rest : List Hid) (n : Nat) (w : Served ε) : Prop where
  machine : w.machine = D.machine
  invocations : w.invocations = D.invocations
  early : w.early = D.early
  reads : w.visits.map Visit.hnd <+: rest.map fun i => (Node.hnd i).word
  complete : w.early = false → w.visits.map Visit.hnd = rest.map fun i => (Node.hnd i).word
  count : w.early = false → w.count = BitVec.ofNat 32 (n + rest.length)
  missing : w.missing = false

theorem Walked.push {D D' : Delivery ε} {rest : List Hid} {n : Nat} {w : Served ε} {i : Hid}
    {s : Machine ε} {invoked : Option Invocation} (h : Walked D rest (n + 1) w)
    (hm : D'.machine = D.machine) (hi : D'.invocations = invoked.toList ++ D.invocations)
    (he : D'.early = D.early) :
    Walked D' (i :: rest) n
      (w.push { before := s, hnd := (Node.hnd i).word, invoked := invoked }) where
  machine := h.machine.trans hm.symm
  invocations := by
    rw [hi, ← h.invocations]
    cases invoked <;> rfl
  early := h.early.trans he.symm
  reads := List.cons_prefix_cons.mpr ⟨rfl, h.reads⟩
  complete hw := congrArg ((Node.hnd i).word :: ·) (h.complete hw)
  count hw := by
    rw [List.length_cons, ← Nat.add_assoc, Nat.add_right_comm]
    exact h.count hw
  missing := h.missing

section Walk

variable {C : Callees ε} {inum : Word} {m : Mem} {r : Lists} {q : Queue}

theorem walk_delivers (inum : Word) (hr : C.LeavesRegistry) (hC : Counted m r)
    {done rest : List Hid} (hk : r (.queue q) = done ++ rest) {s : Machine ε}
    (hs : SameRegistry m s.mem) :
    ∃ w, walk C (Node.head (.queue q)).word inum (rest.length + 1) (BitVec.ofNat 32 done.length)
        (first (Node.head (.queue q)) (rest.map .hnd)).word s = some w ∧
      Walked (deliver C inum (rest.map (descriptorAt m)) s) rest done.length w := by
  induction rest generalizing done s with
  | nil =>
    have hend := ((hC.congr hs).more_iff hk).not.mpr (by simp)
    exact ⟨_, walk_done hend, rfl, rfl, rfl, by simp, fun _ => rfl, fun _ => rfl, rfl⟩
  | cons i rest ih =>
    have hk' : r (.queue q) = (done ++ [i]) ++ rest := hk.trans (List.append_cons ..)
    obtain ⟨d, hdesc⟩ : ∃ d, descriptorAt m i = ((Node.hnd i).word, d) := ⟨_, rfl⟩
    have hd : readDescriptor s.mem (Node.hnd i).word = d :=
      (readDescriptor_congr hs i).trans (congrArg Prod.snd hdesc)
    have hlt := ((hC.congr hs).more_iff hk).mpr (by simp)
    -- the rest of the walk, from whatever machine this round leaves
    have hrest : ∀ s' : Machine ε, SameRegistry m s'.mem →
        ∃ w, walk C (Node.head (.queue q)).word inum (rest.length + 1)
            (BitVec.ofNat 32 done.length + 1) (s'.mem.read (fNext (Node.hnd i).word)) s' = some w ∧
          Walked (deliver C inum (rest.map (descriptorAt m)) s') rest (done.length + 1) w := by
      intro s' hs'
      have h := ih hk' hs'
      rwa [List.length_append, List.length_singleton, ← ofNat_succ,
        ← (hC.congr hs').next_word hk] at h
    rw [List.map_cons, first_cons, List.map_cons, List.length_cons, hdesc]
    by_cases h2 : d.state = 2
    · have hvisit := visit_user C inum hd h2
      by_cases hneg : (callUser C inum (Node.hnd i).word d s).2.toInt < 0
      · rw [decide_eq_true hneg] at hvisit
        rw [deliver_return C inum _ _ s h2 hneg]
        exact ⟨_, walk_return hlt hvisit, rfl, rfl, rfl, by simp, by simp, by simp, rfl⟩
      · rw [decide_eq_false hneg] at hvisit
        rw [deliver_user C inum _ _ s h2 hneg]
        obtain ⟨w, hw, W⟩ := hrest (callUser C inum (Node.hnd i).word d s).1
          (hs.trans (hr.user _ _ _))
        exact ⟨_, by rw [walk_next hlt hvisit, hw]; rfl, W.push rfl rfl rfl⟩
    by_cases h0 : d.state = 0
    · rw [deliver_direct C inum _ _ s h2 h0]
      obtain ⟨w, hw, W⟩ := hrest _ (hs.trans (hr.direct (Node.hnd i).word d.handler inum s))
      exact ⟨_, by rw [walk_next hlt (visit_direct C inum hd h2 h0), hw]; rfl, W.push rfl rfl rfl⟩
    · rw [deliver_skip C inum _ _ s h2 h0]
      obtain ⟨w, hw, W⟩ := hrest s hs
      exact ⟨_, by rw [walk_next hlt (visit_skip C inum hd h2 h0), hw]; rfl, W.push rfl rfl rfl⟩

/-! ## The two dispatchers -/

/-- The interrupt `inum`, on the queue that holds `l`, is served in order. -/
structure InOrder (C : Callees ε) (message : String) (inum : Word) (l : List Hid) (s : Machine ε)
    (w : Served ε) : Prop where
  /-- only descriptors of the queue are read, in `next` order -/
  reads : w.visits.map Visit.hnd <+: l.map fun i => (Node.hnd i).word
  once : (w.visits.map Visit.hnd).Nodup
  complete : w.early = false → w.visits.map Visit.hnd = l.map fun i => (Node.hnd i).word
  invocations : w.invocations = (deliver C inum (l.map (descriptorAt s.mem)) s).invocations
  early : w.early = true ↔ ∃ v ∈ w.invocations, v.Negative
  last : ∀ l₁ v l₂, w.invocations = l₁ ++ v :: l₂ → v.Negative → l₂ = []
  gp : w.machine.gp = s.gp
  missing : w.missing = true ↔ l = []
  machine : w.machine = if l = [] then C.func_80000DC0 1 (C.kprintf message inum s)
    else (deliver C inum (l.map (descriptorAt s.mem)) s).machine

theorem interrupt_delivers (hr : C.LeavesRegistry) {s : Machine ε} (hC : Counted s.mem r)
    {q : Queue} (hv : VsyncOutside q s.mem) :
    ∃ w, (∃ fuel i hnd,
        walk C (Node.head (.queue q)).word q.inum fuel i hnd (entered q s) = some w) ∧
      (∀ fuel, 128 < fuel → interrupt C fuel q s = some (finish C q.message q.inum w)) ∧
      Walked (deliver C q.inum ((r (.queue q)).map (descriptorAt (entered q s).mem)) (entered q s))
        (r (.queue q)) 0 w := by
  obtain ⟨w, hw, W⟩ := walk_delivers q.inum hr (hC.congr (entered_same hv))
    (List.nil_append _).symm (SameRegistry.refl _)
  refine ⟨w, ⟨_, _, _, hw⟩, fun fuel hfuel => ?_, W⟩
  rw [interrupt_walk hC hv]
  exact congrArg (Option.map _) (walk_mono hw (Nat.lt_of_le_of_lt (hC.length_le _) hfuel))

theorem interrupt_inOrder (hr : C.LeavesRegistry) (hg : C.KeepsGp) {s : Machine ε}
    (hC : Counted s.mem r) {q : Queue} (hv : VsyncOutside q s.mem) :
    ∃ w, (∀ fuel, 128 < fuel → interrupt C fuel q s = some w) ∧
      InOrder C q.message q.inum (r (.queue q)) (entered q s) w := by
  obtain ⟨w, -, hw, W⟩ := interrupt_delivers hr hC hv
  have hearly := deliver_early C q.inum
    ((r (.queue q)).map (descriptorAt (entered q s).mem)) (entered q s)
  rw [← W.early, ← W.invocations] at hearly
  have hnodup : ((r (.queue q)).map fun i => (Node.hnd i).word).Nodup := by
    apply (hC.nodup (.queue q)).map
    intro i j hij
    simpa using Node.word_inj.mp hij
  have hzero : w.early = false ∧ w.count = 0 ↔ r (.queue q) = [] := by
    constructor
    · rintro ⟨he, hc⟩
      have hlen := hC.length_le (.queue q)
      rw [W.count he, Nat.zero_add] at hc
      exact List.length_eq_zero_iff.mp (ofNat_inj (by omega) (by omega) hc)
    · intro hnil
      have he : w.early = false := by
        rw [W.early, hnil]
        rfl
      refine ⟨he, ?_⟩
      rw [W.count he, hnil]
      rfl
  refine ⟨_, hw, ?_⟩
  unfold finish
  split
  · rename_i hend
    have hnil := hzero.mp hend
    have hm : w.machine = entered q s := by
      rw [W.machine, hnil]
      rfl
    exact ⟨W.reads, hnodup.sublist W.reads.sublist, W.complete, W.invocations, hearly.1, hearly.2,
      by rw [hg.func_80000DC0, hg.kprintf, hm], iff_of_true rfl hnil, by rw [if_pos hnil, hm]⟩
  · rename_i hend
    have hne := hzero.not.mp hend
    exact ⟨W.reads, hnodup.sublist W.reads.sublist, W.complete, W.invocations, hearly.1, hearly.2,
      by rw [W.machine, deliver_gp hg], iff_of_false (by simp [W.missing]) hne,
      by rw [if_neg hne, W.machine]⟩

end Walk

/-- Both dispatchers serve cause `c`, respectively `d`, in the registered order,
and they agree where their queues hold the same: `func_80001670` is then
`func_800017D8` after the VSYNC cells, up to the text it prints on an empty queue. -/
structure ServedInOrder (C : Callees ε) (r : Lists) (s : Machine ε) (c : Fin 15) (d : Fin 16) :
    Prop where
  intc : ∃ w, (∀ fuel, 128 < fuel → func_80001670 C fuel (idx c) s = some w) ∧
    InOrder C "# INTC(%d) Handler does not exist.\n" (idx c) (r (.queue (.intc c)))
      (vsync (idx c) s) w ∧ w.machine.gp = s.gp
  dmac : ∃ w, (∀ fuel, 128 < fuel → func_800017D8 C fuel (idx d) s = some w) ∧
    InOrder C "# DMAC(%d) Handler does not exist.\n" (idx d) (r (.queue (.dmac d))) s w
  vsync : c ≠ INTC_VBLANK_S → vsync (idx c) s = s
  agree : C.Blind → idx c = idx d →
    (r (.queue (.intc c))).map (fun i => readDescriptor s.mem (Node.hnd i).word) =
      (r (.queue (.dmac d))).map (fun i => readDescriptor s.mem (Node.hnd i).word) →
    ∃ w w', (∀ fuel, 128 < fuel → func_80001670 C fuel (idx c) s = some w) ∧
      (∀ fuel, 128 < fuel → func_800017D8 C fuel (idx d) (Intr.vsync (idx c) s) = some w') ∧
      w.invocations = w'.invocations ∧ w.early = w'.early ∧ w.missing = w'.missing ∧
      (w.missing = false → w.machine = w'.machine)

/-- **Dispatch is exactly the registered order.** -/
theorem dispatch_in_order {C : Callees ε} (hr : C.LeavesRegistry) (hg : C.KeepsGp) {s : Machine ε}
    {r : Lists} (hC : Counted s.mem r) (c : Fin 15) (d : Fin 16)
    (hv : VsyncOutside (.intc c) s.mem) : ServedInOrder C r s c d := by
  have hsame := vsync_same hv
  have hCv := hC.congr hsame
  -- either dispatcher, from any machine that holds the registry
  have hintc : ∃ w, (∀ fuel, 128 < fuel → func_80001670 C fuel (idx c) s = some w) ∧
      InOrder C "# INTC(%d) Handler does not exist.\n" (idx c) (r (.queue (.intc c)))
        (vsync (idx c) s) w ∧ w.machine.gp = s.gp := by
    obtain ⟨w, hw, W⟩ := interrupt_inOrder hr hg hC hv
    exact ⟨w, hw, W, W.gp.trans (vsync_gp (idx c) s)⟩
  have hdmac : ∀ {t : Machine ε}, Counted t.mem r →
      ∃ w, (∀ fuel, 128 < fuel → func_800017D8 C fuel (idx d) t = some w) ∧
        InOrder C "# DMAC(%d) Handler does not exist.\n" (idx d) (r (.queue (.dmac d))) t w :=
    fun ht => interrupt_inOrder hr hg ht (vsyncOutside_of_ne (q := .dmac d) (by simp) _)
  refine ⟨hintc, hdmac hC, fun hne => vsync_of_ne hne s, fun hb hcd hcontents => ?_⟩
  obtain ⟨w, hw, W, -⟩ := hintc
  obtain ⟨w', hw', W'⟩ := hdmac hCv
  have hdel : deliver C (idx c) ((r (.queue (.intc c))).map (descriptorAt (vsync (idx c) s).mem))
      (vsync (idx c) s) =
      deliver C (idx d) ((r (.queue (.dmac d))).map (descriptorAt (vsync (idx c) s).mem))
        (vsync (idx c) s) := by
    rw [hcd]
    refine deliver_blind hb ?_ _
    rw [hcd] at hsame
    simpa [descriptorAt, Function.comp_def, readDescriptor_congr hsame] using hcontents
  have hnil : r (.queue (.intc c)) = [] ↔ r (.queue (.dmac d)) = [] := by
    have hlen := congrArg List.length hcontents
    rw [List.length_map, List.length_map] at hlen
    rw [← List.length_eq_zero_iff, ← List.length_eq_zero_iff, hlen]
  have hinv : w.invocations = w'.invocations := by rw [W.invocations, W'.invocations, hdel]
  refine ⟨w, w', hw, hw', hinv, ?_, ?_, fun hmiss => ?_⟩
  · rw [Bool.eq_iff_iff, W.early, W'.early, hinv]
  · rw [Bool.eq_iff_iff, W.missing, W'.missing, hnil]
  · have hne : r (.queue (.intc c)) ≠ [] := fun h => by
      rw [W.missing.mpr h] at hmiss
      cases hmiss
    rw [W.machine, W'.machine, if_neg hne, if_neg (hnil.not.mp hne), hdel]

/-- Handlers that do nothing and return 0. -/
def idle : Callees Unit where
  func_800029C0 _ _ s := (s, 0)
  direct _ _ _ s := s
  kprintf _ _ s := s
  func_80000DC0 _ s := s

theorem idle_leavesRegistry : idle.LeavesRegistry where
  user _ _ s := SameRegistry.refl s.mem
  direct _ _ _ s := SameRegistry.refl s.mem

/-! ## A queue of five handlers -/

/-- Registered at the end of INTC queue 0, one after the other. -/
def register (m : Mem) (ds : List Descriptor) : Mem :=
  ds.foldl (fun m d =>
    (func_800018F0 standard m d.gp (idx (0 : Fin 15)) d.handler (-1) d.arg d.state).1) m

theorem register_spec {m : Mem} {r : Lists} {ds : List Descriptor} (W : WellFormed m r)
    (hds : ∀ d ∈ ds, d.state ≠ 3) (hlen : ds.length ≤ (r .pool).length) :
    ∃ r', WellFormed (register m ds) r' ∧ (∀ q, q ≠ .intc 0 → r' (.queue q) = r (.queue q)) ∧
      (r' (.queue (.intc 0))).map (fun i => readDescriptor (register m ds) (Node.hnd i).word) =
        (r (.queue (.intc 0))).map (fun i => readDescriptor m (Node.hnd i).word) ++ ds := by
  induction ds generalizing m r with
  | nil => exact ⟨r, W, fun _ _ => rfl, (List.append_nil _).symm⟩
  | cons d ds ih =>
    rw [List.length_cons] at hlen
    have hp : r .pool ≠ [] := by
      intro hnil
      rw [hnil] at hlen
      cases hlen
    obtain ⟨i, hA, -, W₁⟩ := W.add_intc standard_correct hp 0 d.gp d.handler (-1) d.arg d.state
      (.inl rfl) (by simp [INTC_SBUS]) (hds d List.mem_cons_self)
    have hlen₁ : ds.length ≤ ((r.add (.intc 0) (-1) i) .pool).length := by
      rw [Lists.add_pool, List.length_erase_of_mem hA.free]
      omega
    obtain ⟨r', W', hothers, hr'⟩ :=
      ih W₁ (fun d hd => hds d (List.mem_cons_of_mem _ hd)) hlen₁
    refine ⟨r', W', fun q hq => ?_, hr'.trans ?_⟩
    · rw [hothers q hq, Lists.add_queue_of_ne _ _ _ hq]
    · rw [Lists.add_queue, place_neg_one, List.map_append, List.map_singleton, hA.descriptor,
        List.append_assoc, List.singleton_append]
      refine congrArg (· ++ d :: ds) (List.map_congr_left fun j hj => ?_)
      have hji : j ≠ i := by
        rintro rfl
        exact W.notMem_of_ne hA.free (by simp) hj
      apply readDescriptor_frame hA.frame
      simp [addCells, links, hji]

/-- A handler called directly, one that is off, and three at user level. -/
def fiveHandlers : List Descriptor :=
  [⟨0x100, 0x10, 7, 0⟩, ⟨0x200, 0x20, 8, 1⟩, ⟨0x300, 0x30, 9, 2⟩, ⟨0x400, 0x40, 10, 2⟩,
    ⟨0x500, 0x50, 11, 2⟩]

@[irreducible] def fiveRegistered : Mem :=
  register (func_80002090 standard zeroKernel).1.mem fiveHandlers

theorem fiveRegistered_spec : ∃ r, WellFormed fiveRegistered r ∧ r (.queue (.dmac 0)) = [] ∧
    (r (.queue (.intc 0))).map (fun i => readDescriptor fiveRegistered (Node.hnd i).word) =
      fiveHandlers := by
  have hlive : ∀ d ∈ fiveHandlers, d.state ≠ 3 := by decide
  obtain ⟨r, W, hothers, hr⟩ := register_spec
    (func_80002090_wellFormed standard_correct zeroKernel) hlive
    (by simp [initLists, fiveHandlers])
  unfold fiveRegistered
  exact ⟨r, W, hothers _ (by decide), hr⟩

/-- The handler at 0x400 returns -1, the others 0. -/
def stopper : Callees Unit where
  func_800029C0 _ call s := (s, if call.handler = 0x400 then -1 else 0)
  direct _ _ _ s := s
  kprintf _ _ s := s
  func_80000DC0 _ s := s

theorem stopper_leavesRegistry : stopper.LeavesRegistry where
  user _ _ s := SameRegistry.refl s.mem
  direct _ _ _ s := SameRegistry.refl s.mem

theorem stopper_keepsGp : stopper.KeepsGp :=
  ⟨fun _ _ _ _ => rfl, fun _ _ _ => rfl, fun _ _ => rfl⟩

/-- A direct call first; the handler that is off is passed over, and the one behind the
negative result is not reached. -/
theorem deliver_fiveHandlers {l : List (Word × Descriptor)} (hl : l.map Prod.snd = fiveHandlers)
    (inum : Word) (s : Machine Unit) :
    (deliver stopper inum l s).invocations =
      [.direct 0x100 inum, .user ⟨s.mem.read D_800174E4, 0x300, inum, 9, s.epc⟩ 0x30 0,
        .user ⟨s.mem.read D_800174E4, 0x400, inum, 10, s.epc⟩ 0x40 (-1)] := by
  -- the words the descriptors were found through
  obtain ⟨⟨h₀, _⟩, l₁, rfl, rfl, hl₁⟩ := List.map_eq_cons_iff.mp hl
  obtain ⟨⟨h₁, _⟩, l₂, rfl, rfl, hl₂⟩ := List.map_eq_cons_iff.mp hl₁
  obtain ⟨⟨h₂, _⟩, l₃, rfl, rfl, hl₃⟩ := List.map_eq_cons_iff.mp hl₂
  obtain ⟨⟨h₃, _⟩, l₄, rfl, rfl, -⟩ := List.map_eq_cons_iff.mp hl₃
  rfl

/-- Five handlers on INTC queue 0, of states 0, 1 and 2, the fourth with a negative result, and
none on DMAC queue 0. -/
theorem dispatch_in_order_five_handlers :
    ∃ r, (r (.queue (.intc 0))).map (fun i => readDescriptor fiveRegistered (Node.hnd i).word) =
        fiveHandlers ∧ r (.queue (.dmac 0)) = [] ∧
      ServedInOrder stopper r (machineOf fiveRegistered ()) 0 0 ∧
      ∃ w, func_80001670 stopper 129 (idx (0 : Fin 15)) (machineOf fiveRegistered ()) = some w ∧
        w.invocations =
          [.direct 0x100 0, .user ⟨fiveRegistered.read D_800174E4, 0x300, 0, 9, 0⟩ 0x30 0,
            .user ⟨fiveRegistered.read D_800174E4, 0x400, 0, 10, 0⟩ 0x40 (-1)] := by
  obtain ⟨r, W, hdmac, hr⟩ := fiveRegistered_spec
  have hC : Counted (machineOf fiveRegistered ()).mem r := W.toCounted
  have hserved := dispatch_in_order stopper_leavesRegistry stopper_keepsGp hC 0 0
    (vsyncOutside_of_ne (by decide) _)
  obtain ⟨w, hw, hinv, -⟩ := hserved.intc
  refine ⟨r, hr, hdmac, hserved, w, hw 129 (by omega), hinv.invocations.trans ?_⟩
  rw [vsync_of_ne (by decide)]
  apply deliver_fiveHandlers
  rw [List.map_map]
  exact hr

end EeKernel.Intr
