import EeKernel.Intr.InOrder

/-!
# Handlers that remove themselves

The walk takes `hnd->l.next` after the callback.  A handler that has removed
itself is then the last descriptor of the pool, so the next node is the pool
head: read as a descriptor, its `state` is `intc_queue[1].l.prev`, a pointer,
and the free descriptors behind it are in state 3.  The walk spends the rounds
it has left there and invokes nobody.  What the others lose is what stands
behind the first handler that removes itself.
-/

namespace EeKernel.Intr

open EeKernel.Lib

variable {ε : Type}

/-! ## What the callbacks do -/

def removeFrom (L : ListHelpers) (m : Mem) (i : Hid) : Queue → Mem
  | .intc c => (func_80001AB0 L m (idx c) (idx i)).1
  | .dmac c => (func_80001CF8 L m (idx c) (idx i)).1

/-- The callback of `i` takes `i` off the queue, or leaves the registry alone. -/
def Effect (L : ListHelpers) (q : Queue) (quits : Hid → Bool) (i : Hid) (m m' : Mem) : Prop :=
  if quits i then ∃ m₁, SameRegistry m m₁ ∧ SameRegistry (removeFrom L m₁ i q) m'
  else SameRegistry m m'

/-- The handlers in `quits` remove themselves when they run and do not return a
negative value; the others leave the registry alone. -/
structure Callees.SelfRemoving (C : Callees ε) (L : ListHelpers) (q : Queue)
    (quits : Hid → Bool) : Prop where
  user : ∀ i call s, Effect L q quits i s.mem (C.func_800029C0 (Node.hnd i).word call s).1.mem
  result : ∀ i call s, quits i = true → 0 ≤ (C.func_800029C0 (Node.hnd i).word call s).2.toInt
  direct : ∀ i handler inum s,
    Effect L q quits i s.mem (C.direct (Node.hnd i).word handler inum s).mem
  kprintf : ∀ text inum s, SameRegistry s.mem (C.kprintf text inum s).mem
  func_80000DC0 : ∀ x s, SameRegistry s.mem (C.func_80000DC0 x s).mem

/-- What stands behind the first handler that removes itself or whose result is
negative, when the handlers run in queue order. -/
def behind (C : Callees ε) (quits : Hid → Bool) (inum : Word) : List Hid → Machine ε → List Hid
  | [], _ => []
  | i :: l, s =>
    let d := readDescriptor s.mem (Node.hnd i).word
    if d.state = 2 then
      let (s', res) := callUser C inum (Node.hnd i).word d s
      if quits i = true ∨ res.toInt < 0 then l else behind C quits inum l s'
    else if d.state = 0 then
      if quits i = true then l
      else behind C quits inum l (C.direct (Node.hnd i).word d.handler inum s)
    else behind C quits inum l s

/-! ## Rounds on the pool -/

theorem Node.word_ne_two (n : Node) : n.word ≠ 2 :=
  ((Cell.prev n).low_ne_word (n := 2) (by omega)).symm

/-- The pool head, read as a descriptor, has `intc_queue[1].l.prev` for its state. -/
theorem fState_pool :
    fState (Node.head .pool).word = (Cell.prev (.head (.queue (.intc 1)))).word := by
  decide

section Pool

variable {C : Callees ε} {inum : Word} {s : Machine ε} {r : Lists} {q : Queue} {n : Node}

/-- A node of the pool is neither in state 2 nor in state 0. -/
theorem visit_pool (W : WellFormed s.mem r) (hn : n ∈ Node.head .pool :: (r .pool).map .hnd) :
    visit C inum n.word s = (s, none, false) := by
  have hstate : (readDescriptor s.mem n.word).state ≠ 2 ∧
      (readDescriptor s.mem n.word).state ≠ 0 := by
    rcases List.mem_cons.mp hn with rfl | hn
    · have hprev := (W.ring (.queue (.intc 1))).rel_last.2
      simp only [readDescriptor, fState_pool]
      rw [hprev]
      exact ⟨Node.word_ne_two _, Node.word_ne_zero _⟩
    · obtain ⟨i, hi, rfl⟩ := List.mem_map.mp hn
      have h3 := (W.state (W.pos hi)).mpr hi
      simp only [readDescriptor, fState_word, h3]
      decide
  unfold visit
  simp only [if_neg hstate.1, if_neg hstate.2]

theorem Rings.step_word {m : Mem} (R : Rings m r) {h : Head}
    (hn : n ∈ Node.head h :: (r h).map .hnd) :
    ∃ n' ∈ Node.head h :: (r h).map .hnd, m.read (fNext n.word) = n'.word := by
  rcases List.mem_cons.mp hn with rfl | hn
  · exact ⟨_, first_mem, R.first_word h⟩
  · obtain ⟨i, hi, rfl⟩ := List.mem_map.mp hn
    obtain ⟨l₁, l₂, hl⟩ := List.append_of_mem hi
    refine ⟨first (Node.head h) (l₂.map .hnd), ?_, R.next_word hl⟩
    have hm : first (Node.head h) (l₂.map .hnd) ∈ Node.head h :: l₂.map .hnd := first_mem
    rw [hl]
    simp only [List.map_append, List.map_cons, List.mem_cons, List.mem_append] at hm ⊢
    tauto

/-- The rounds left to a walk that has strayed onto the pool. -/
theorem walk_pool (C : Callees ε) (inum : Word) (q : Queue) (W : WellFormed s.mem r)
    (hn : n ∈ Node.head .pool :: (r .pool).map .hnd) {a : Nat} (ha : a ≤ 129) :
    ∃ w, walk C (Node.head (.queue q)).word inum ((r (.queue q)).length - a + 1)
        (BitVec.ofNat 32 a) n.word s = some w ∧
      w.machine = s ∧ w.Called [] := by
  have hlen := W.length_le (.queue q)
  have hentries : s.mem.read (fEntries (Node.head (.queue q)).word) =
      BitVec.ofNat 32 (r (.queue q)).length := by
    rw [fEntries_word, W.entries]
  generalize hk : (r (.queue q)).length - a = k
  induction k generalizing a n with
  | zero =>
    refine ⟨_, walk_done ?_, rfl, rfl⟩
    rw [hentries, counter_lt (by omega) (by omega)]
    omega
  | succ k ih =>
    have hlt : (BitVec.ofNat 32 a).toInt <
        (s.mem.read (fEntries (Node.head (.queue q)).word)).toInt := by
      rw [hentries, counter_lt (by omega) (by omega)]
      omega
    obtain ⟨n', hn', hnext⟩ := W.step_word hn
    have hstep : k = (r (.queue q)).length - (a + 1) := by omega
    obtain ⟨w, hw, hm, hcalled⟩ := ih hn' (by omega) hstep.symm
    refine ⟨w.push { before := s, hnd := n.word, invoked := none }, ?_, hm, hcalled⟩
    rw [walk_next hlt (visit_pool W hn), hnext, ofNat_succ, hw]
    rfl

end Pool

/-! ## The walk with self-removing handlers -/

section Walk

variable {L : ListHelpers} {C : Callees ε} {inum : Word} {q : Queue} {quits : Hid → Bool}

theorem removeFrom_eq (m : Mem) (i : Hid) (q : Queue) :
    removeFrom L m i q = (removeHandler L m (Node.head (.queue q)).word (idx i)).1 := by
  cases q <;> simp [removeFrom, func_80001AB0, func_80001CF8]

/-- A callback keeps the registry well formed; one that quits ends up last on the pool. -/
theorem WellFormed.effect {m m' : Mem} {r : Lists} {i : Hid} (W : WellFormed m r) (hL : L.Correct)
    (hi : i ∈ r (.queue q)) (h : Effect L q quits i m m') :
    if quits i then WellFormed m' (r.remove q i) else SameRegistry m m' := by
  unfold Effect at h
  split
  · rename_i hq
    rw [if_pos hq] at h
    obtain ⟨m₁, h₁, h₂⟩ := h
    have W₁ := W.congr h₁
    rw [removeFrom_eq] at h₂
    exact (W₁.remove (removeHandler_spec W₁.toRings hL hi (W₁.live hi)).1 hi).congr h₂
  · rename_i hq
    rwa [if_neg hq] at h

/-- What a walk over `rest` comes to: the handlers called, then what it lost. -/
structure Cut (C : Callees ε) (quits : Hid → Bool) (inum : Word) (rest : List Hid) (s : Machine ε)
    (l : List Hid) (w : Served ε) : Prop where
  called : w.Called l
  lost : l ++ (behind C quits inum rest s).filter (enabled s.mem) = rest.filter (enabled s.mem)
  wellFormed : ∃ r, WellFormed w.machine.mem r

variable {s s' : Machine ε} {r : Lists} {i : Hid} {rest l : List Hid} {w : Served ε}
  {invoked : Option Invocation}

theorem Cut.stay (K : Cut C quits inum rest s' l w) (hs : SameRegistry s.mem s'.mem)
    (hb : behind C quits inum (i :: rest) s = behind C quits inum rest s')
    (hen : enabled s.mem i = invoked.isSome) :
    Cut C quits inum (i :: rest) s (if enabled s.mem i then i :: l else l)
      (w.push { before := s, hnd := (Node.hnd i).word, invoked := invoked }) where
  called := by
    cases invoked with
    | none => rw [hen]; exact K.called.push_none
    | some v => rw [hen]; exact K.called.push_some
  lost := by
    have hl := K.lost
    rw [enabled_congr hs] at hl
    rw [hb]
    cases hen' : enabled s.mem i with
    | false => simpa [hen'] using hl
    | true => simpa [hen'] using hl
  wellFormed := K.wellFormed

theorem Cut.quit {v : Invocation} (hw : w.Called []) (W : WellFormed w.machine.mem r)
    (hb : behind C quits inum (i :: rest) s = rest) (hen : enabled s.mem i = true) :
    Cut C quits inum (i :: rest) s [i]
      (w.push { before := s, hnd := (Node.hnd i).word, invoked := some v }) where
  called := hw.push_some
  lost := by simp [hb, hen]
  wellFormed := ⟨r, W⟩

section Behind

variable (C quits inum rest) {d : Descriptor} (hd : readDescriptor s.mem (Node.hnd i).word = d)

include hd

theorem behind_user (h2 : d.state = 2) :
    behind C quits inum (i :: rest) s =
      if quits i = true ∨ (callUser C inum (Node.hnd i).word d s).2.toInt < 0 then rest
      else behind C quits inum rest (callUser C inum (Node.hnd i).word d s).1 := by
  subst hd
  exact if_pos h2

theorem behind_direct (h2 : d.state ≠ 2) (h0 : d.state = 0) :
    behind C quits inum (i :: rest) s = if quits i = true then rest
      else behind C quits inum rest (C.direct (Node.hnd i).word d.handler inum s) := by
  subst hd
  exact (if_neg h2).trans (if_pos h0)

theorem behind_skip (h2 : d.state ≠ 2) (h0 : d.state ≠ 0) :
    behind C quits inum (i :: rest) s = behind C quits inum rest s := by
  subst hd
  exact (if_neg h2).trans (if_neg h0)

end Behind

theorem walk_after_quit (C : Callees ε) (inum : Word) (W : WellFormed s'.mem (r.remove q i))
    {a : Nat} (ha : a ≤ 129) {fuel : Nat} (hfuel : ((r (.queue q)).erase i).length - a < fuel) :
    ∃ w, walk C (Node.head (.queue q)).word inum fuel (BitVec.ofNat 32 a)
        (s'.mem.read (fNext (Node.hnd i).word)) s' = some w ∧
      w.machine = s' ∧ w.Called [] := by
  have hlast : (r.remove q i) .pool = r .pool ++ i :: [] := Lists.remove_pool r q i
  obtain ⟨w, hw, h⟩ := walk_pool C inum q W List.mem_cons_self ha
  rw [Lists.remove_queue] at hw
  rw [W.next_word hlast]
  exact ⟨w, walk_mono hw hfuel, h⟩

/-- How the round of `i` ends, with `rest` behind it: the walk goes on, it strays onto
the pool after `i`, or it returns. -/
inductive Round (C : Callees ε) (quits : Hid → Bool) (inum : Word) (q : Queue) (r : Lists) (i : Hid)
    (rest : List Hid) (s : Machine ε) : Prop
  | stays {s' : Machine ε} {invoked : Option Invocation}
      (hv : visit C inum (Node.hnd i).word s = (s', invoked, false))
      (hs : SameRegistry s.mem s'.mem)
      (hb : behind C quits inum (i :: rest) s = behind C quits inum rest s')
      (hen : enabled s.mem i = invoked.isSome)
  | quits {s' : Machine ε} {v : Invocation}
      (hv : visit C inum (Node.hnd i).word s = (s', some v, false))
      (W : WellFormed s'.mem (r.remove q i)) (hb : behind C quits inum (i :: rest) s = rest)
      (hen : enabled s.mem i = true)
  | returns {s' : Machine ε} {v : Invocation}
      (hv : visit C inum (Node.hnd i).word s = (s', some v, true))
      (hs : SameRegistry s.mem s'.mem) (hb : behind C quits inum (i :: rest) s = rest)
      (hen : enabled s.mem i = true)

theorem round_selfRemoving (inum : Word) (hL : L.Correct) (hC : C.SelfRemoving L q quits)
    (W : WellFormed s.mem r) (hi : i ∈ r (.queue q)) (rest : List Hid) :
    Round C quits inum q r i rest s := by
  obtain ⟨d, hd⟩ : ∃ d, readDescriptor s.mem (Node.hnd i).word = d := ⟨_, rfl⟩
  by_cases h2 : d.state = 2
  · have hvisit := visit_user C inum hd h2
    have hb := behind_user C inum quits rest hd h2
    have hen : enabled s.mem i = true := by simp [enabled_eq hd, h2]
    have heffect : Effect L q quits i s.mem (callUser C inum (Node.hnd i).word d s).1.mem :=
      hC.user i (userCall inum d s) { s with gp := d.gp }
    have hkeeps := W.effect hL hi heffect
    have hresult : quits i = true → 0 ≤ (callUser C inum (Node.hnd i).word d s).2.toInt :=
      hC.result i (userCall inum d s) { s with gp := d.gp }
    by_cases hq : quits i = true
    · have hpos := hresult hq
      rw [if_pos hq] at hkeeps
      rw [if_pos (.inl hq)] at hb
      rw [decide_eq_false (by omega)] at hvisit
      exact .quits hvisit hkeeps hb hen
    · rw [if_neg hq] at hkeeps
      by_cases hneg : (callUser C inum (Node.hnd i).word d s).2.toInt < 0
      · rw [if_pos (.inr hneg)] at hb
        rw [decide_eq_true hneg] at hvisit
        exact .returns hvisit hkeeps hb hen
      · rw [if_neg (by tauto)] at hb
        rw [decide_eq_false hneg] at hvisit
        exact .stays hvisit hkeeps hb hen
  by_cases h0 : d.state = 0
  · have hvisit := visit_direct C inum hd h2 h0
    have hb := behind_direct C inum quits rest hd h2 h0
    have hen : enabled s.mem i = true := by simp [enabled_eq hd, h0]
    have hkeeps := W.effect hL hi (hC.direct i d.handler inum s)
    by_cases hq : quits i = true
    · rw [if_pos hq] at hkeeps hb
      exact .quits hvisit hkeeps hb hen
    · rw [if_neg hq] at hkeeps hb
      exact .stays hvisit hkeeps hb hen
  · have hen : enabled s.mem i = false := by
      rw [enabled_eq hd, decide_eq_false h2, decide_eq_false h0]
      rfl
    exact .stays (visit_skip C inum hd h2 h0) (SameRegistry.refl s.mem)
      (behind_skip C inum quits rest hd h2 h0) hen

theorem walk_selfRemoving (inum : Word) (hL : L.Correct) (hC : C.SelfRemoving L q quits)
    (W : WellFormed s.mem r) {done : List Hid} (hk : r (.queue q) = done ++ rest) :
    ∃ w l, walk C (Node.head (.queue q)).word inum (rest.length + 1) (BitVec.ofNat 32 done.length)
        (first (Node.head (.queue q)) (rest.map .hnd)).word s = some w ∧
      Cut C quits inum rest s l w := by
  induction rest generalizing done s with
  | nil =>
    exact ⟨_, [], walk_done ((W.more_iff hk).not.mpr (by simp)), ⟨rfl, rfl, ⟨r, W⟩⟩⟩
  | cons i rest ih =>
    have hk' : r (.queue q) = (done ++ [i]) ++ rest := hk.trans (List.append_cons ..)
    have hi : i ∈ r (.queue q) := by
      rw [hk]
      simp
    have hlt := (W.more_iff hk).mpr (by simp)
    rw [List.map_cons, first_cons, List.length_cons]
    cases round_selfRemoving inum hL hC W hi rest with
    | @stays s' invoked hv hs hb hen =>
      obtain ⟨w, l, hw, K⟩ := ih (W.congr hs) hk'
      refine ⟨w.push { before := s, hnd := (Node.hnd i).word, invoked := invoked }, _, ?_,
        K.stay hs hb hen⟩
      rw [List.length_append, List.length_singleton, ← ofNat_succ,
        ← (W.congr hs).next_word hk] at hw
      rw [walk_next hlt hv, hw]
      rfl
    | @quits s' v hv W' hb hen =>
      have hlen := W.length_le (.queue q)
      rw [hk, List.length_append, List.length_cons] at hlen
      have hfuel : ((r (.queue q)).erase i).length - (done.length + 1) < rest.length + 1 := by
        rw [List.length_erase_of_mem hi, hk, List.length_append, List.length_cons]
        omega
      obtain ⟨w, hw, hm, hcalled⟩ := walk_after_quit C inum W'
        (show done.length + 1 ≤ 129 by omega) hfuel
      refine ⟨w.push { before := s, hnd := (Node.hnd i).word, invoked := some v }, [i], ?_,
        Cut.quit hcalled (hm ▸ W') hb hen⟩
      rw [walk_next hlt hv, ofNat_succ, hw]
      rfl
    | returns hv hs hb hen =>
      exact ⟨_, [i], walk_return hlt hv, rfl, by simp [hb, hen], r, W.congr hs⟩

end Walk

/-! ## Who is served -/

/-- Every enabled handler of `l` outside `quits` is invoked exactly once, in order. -/
def OthersServed (quits : Hid → Bool) (m : Mem) (l : List Hid) (w : Served ε) : Prop :=
  ∃ ran, w.Called ran ∧
    ran.filter (fun i => !quits i) = l.filter fun i => enabled m i && !quits i

/-- The interrupt ends, and calls a list of handlers that what stands `behind` completes. -/
theorem interrupt_selfRemoving {L : ListHelpers} (hL : L.Correct) {C : Callees ε} {q : Queue}
    {quits : Hid → Bool} (hC : C.SelfRemoving L q quits) {s : Machine ε} {r : Lists}
    (W : WellFormed s.mem r) (hv : VsyncOutside q s.mem) :
    ∃ w l, (∀ fuel, 128 < fuel → interrupt C fuel q s = some w) ∧ w.Called l ∧
      l ++ (behind C quits q.inum (r (.queue q)) (entered q s)).filter (enabled s.mem) =
        (r (.queue q)).filter (enabled s.mem) ∧
      ∃ r', WellFormed w.machine.mem r' := by
  have hs := entered_same hv
  obtain ⟨w, l, hw, K⟩ := walk_selfRemoving q.inum hL hC (W.congr hs) (List.nil_append _).symm
  refine ⟨finish C q.message q.inum w, l, ?_, ?_, ?_, ?_⟩
  · intro fuel hfuel
    rw [interrupt_walk W.toCounted hv]
    exact congrArg (Option.map _) (walk_mono hw (Nat.lt_of_le_of_lt (W.length_le _) hfuel))
  · exact (finish_called C q.message q.inum w l).mpr K.called
  · rw [← enabled_congr hs]
    exact K.lost
  · obtain ⟨r', W'⟩ := K.wellFormed
    unfold finish
    split
    · exact ⟨r', (W'.congr (hC.kprintf _ _ _)).congr (hC.func_80000DC0 _ _)⟩
    · exact ⟨r', W'⟩

theorem othersServed_iff {quits : Hid → Bool} {m : Mem} {l lost ran : List Hid} {w : Served ε}
    (hcalled : w.Called ran) (hlost : ran ++ lost.filter (enabled m) = l.filter (enabled m)) :
    OthersServed quits m l w ↔ ∀ i ∈ lost, quits i = false → enabled m i = false := by
  have hothers : l.filter (fun i => enabled m i && !quits i) =
      ran.filter (fun i => !quits i) ++ lost.filter (fun i => enabled m i && !quits i) := by
    have h := congrArg (List.filter fun i => !quits i) hlost
    rw [List.filter_append, List.filter_filter, List.filter_filter] at h
    simpa only [Bool.and_comm] using h.symm
  constructor
  · rintro ⟨ran', hran, h⟩
    rw [hran.unique hcalled, hothers, List.self_eq_append_right, List.filter_eq_nil_iff] at h
    intro i hi hq
    simpa [hq] using h i hi
  · intro h
    refine ⟨ran, hcalled, ?_⟩
    rw [hothers, List.self_eq_append_right, List.filter_eq_nil_iff]
    intro i hi
    cases hq : quits i with
    | false => simp [h i hi hq]
    | true => simp

/-- **Self-removal.**  Whatever the handlers in `quits` are, the interrupt ends
and leaves a well-formed registry.  The handlers that do not remove themselves
are all served exactly when none of the enabled ones stands behind the first
handler that removes itself or ends the interrupt, and all enabled handlers are
exactly when nobody enabled stands there. -/
theorem self_removal_served_iff {L : ListHelpers} (hL : L.Correct) {C : Callees ε} {q : Queue}
    {quits : Hid → Bool} (hC : C.SelfRemoving L q quits) {s : Machine ε} {r : Lists}
    (W : WellFormed s.mem r) (hv : VsyncOutside q s.mem) :
    ∃ w, (∀ fuel, 128 < fuel → interrupt C fuel q s = some w) ∧
      (∃ r', WellFormed w.machine.mem r') ∧
      (OthersServed quits s.mem (r (.queue q)) w ↔
        ∀ i ∈ behind C quits q.inum (r (.queue q)) (entered q s),
          quits i = false → enabled s.mem i = false) ∧
      (w.Called ((r (.queue q)).filter (enabled s.mem)) ↔
        ∀ i ∈ behind C quits q.inum (r (.queue q)) (entered q s), enabled s.mem i = false) := by
  obtain ⟨w, l, hw, hcalled, hlost, hwf⟩ := interrupt_selfRemoving hL hC W hv
  refine ⟨w, hw, hwf, othersServed_iff hcalled hlost, ?_⟩
  constructor
  · intro h
    have hl := h.unique hcalled
    rw [← hl, List.append_right_eq_self] at hlost
    simpa using hlost
  · intro h
    have hnil :
        (behind C quits q.inum (r (.queue q)) (entered q s)).filter (enabled s.mem) = [] := by
      simpa using h
    rw [hnil, List.append_nil] at hlost
    exact hlost ▸ hcalled

/-! ## One handler that removes itself -/

/-- `i` removes itself when it runs; every handler returns 0. -/
def quitter (L : ListHelpers) (q : Queue) (i : Hid) : Callees Unit where
  func_800029C0 hnd _ s :=
    ({ s with mem := if hnd = (Node.hnd i).word then removeFrom L s.mem i q else s.mem }, 0)
  direct hnd _ _ s :=
    { s with mem := if hnd = (Node.hnd i).word then removeFrom L s.mem i q else s.mem }
  kprintf _ _ s := s
  func_80000DC0 _ s := s

theorem quitter_selfRemoving (L : ListHelpers) (q : Queue) (i : Hid) :
    (quitter L q i).SelfRemoving L q (· == i) := by
  have heffect : ∀ j m, Effect L q (· == i) j m
      (if (Node.hnd j).word = (Node.hnd i).word then removeFrom L m i q else m) := by
    intro j m
    by_cases hj : j = i
    · subst hj
      simp only [Effect, beq_self_eq_true, if_true]
      exact ⟨m, SameRegistry.refl m, SameRegistry.refl _⟩
    · have hw : (Node.hnd j).word ≠ (Node.hnd i).word := by
        rw [Ne, Node.word_inj]
        simpa using hj
      have hb : (j == i) = false := by simpa using hj
      rw [if_neg hw, Effect, hb, if_neg (by decide)]
      exact SameRegistry.refl m
  exact ⟨fun j _ s => heffect j s.mem, fun _ _ _ _ => Int.le_refl 0, fun j _ _ s => heffect j s.mem,
    fun _ _ s => SameRegistry.refl s.mem, fun _ s => SameRegistry.refl s.mem⟩

/-- The first of two handlers removes itself: the second loses this interrupt. -/
theorem self_removal_starves :
    ∃ r i j, WellFormed twoHandlers r ∧ r (.queue (.intc 0)) = [i, j] ∧
      enabled twoHandlers j = true ∧
      (quitter standard (.intc 0) i).SelfRemoving standard (.intc 0) (· == i) ∧
      ∃ w, func_80001670 (quitter standard (.intc 0) i) 129 (idx (0 : Fin 15))
          (machineOf twoHandlers ()) = some w ∧ w.Called [i] ∧
        ¬ OthersServed (· == i) twoHandlers (r (.queue (.intc 0))) w := by
  obtain ⟨r, i, j, W, hr, hij, hstate⟩ := twoHandlers_spec
  have hC := quitter_selfRemoving standard (.intc 0) i
  obtain ⟨w, l, hw, hcalled, hlost, -⟩ := interrupt_selfRemoving standard_correct hC
    (s := machineOf twoHandlers ()) W (vsyncOutside_of_ne (by decide) _)
  have hen : ∀ k ∈ [i, j], enabled twoHandlers k = true := fun k hk => by
    simp [enabled, readDescriptor, hstate k hk]
  have hentered : entered (.intc 0) (machineOf twoHandlers ()) = machineOf twoHandlers () :=
    vsync_of_ne (by decide) _
  have hbehind : behind (quitter standard (.intc 0) i) (· == i) (Queue.intc 0).inum
      (r (.queue (.intc 0))) (machineOf twoHandlers ()) = [j] := by
    have h2 : (readDescriptor twoHandlers (Node.hnd i).word).state = 2 := by
      simp only [readDescriptor, fState_word]
      exact hstate i (by simp)
    rw [hr, behind_user _ _ _ _ rfl h2, if_pos (.inl (beq_self_eq_true i))]
  rw [hentered, hbehind] at hlost
  have hserved := (othersServed_iff hcalled hlost : OthersServed (· == i) _ _ _ ↔ _)
  have hl : l = [i] := by
    rw [hr] at hlost
    refine List.append_cancel_right (?_ : l ++ [j] = [i] ++ [j])
    simpa [machineOf, hen] using hlost
  refine ⟨r, i, j, W, hr, hen j (by simp), hC, w, hw 129 (by omega), hl ▸ hcalled, ?_⟩
  intro h
  have hoff := hserved.mp h j (by simp) (beq_eq_false_iff_ne.mpr hij.symm)
  rw [show enabled (machineOf twoHandlers ()).mem j = true from hen j (by simp)] at hoff
  cases hoff

/-- The second of two handlers removes itself: nobody loses anything. -/
theorem self_removal_served_iff_last :
    ∃ (r : Lists) (i j : Hid), r (.queue (.intc 0)) = [i, j] ∧
      ∃ w, (∀ fuel, 128 < fuel → interrupt (quitter standard (.intc 0) j) fuel (.intc 0)
          (machineOf twoHandlers ()) = some w) ∧
        (∃ r', WellFormed w.machine.mem r') ∧
        (OthersServed (· == j) twoHandlers (r (.queue (.intc 0))) w ↔
          ∀ i ∈ behind (quitter standard (.intc 0) j) (· == j) (Queue.intc 0).inum
            (r (.queue (.intc 0))) (entered (.intc 0) (machineOf twoHandlers ())),
            (i == j) = false → enabled twoHandlers i = false) ∧
        (w.Called ((r (.queue (.intc 0))).filter (enabled twoHandlers)) ↔
          ∀ i ∈ behind (quitter standard (.intc 0) j) (· == j) (Queue.intc 0).inum
            (r (.queue (.intc 0))) (entered (.intc 0) (machineOf twoHandlers ())),
            enabled twoHandlers i = false) := by
  obtain ⟨r, i, j, W, hr, -⟩ := twoHandlers_spec
  exact ⟨r, i, j, hr, self_removal_served_iff standard_correct
    (quitter_selfRemoving standard (.intc 0) j) (s := machineOf twoHandlers ()) W
    (vsyncOutside_of_ne (by decide) _)⟩

end EeKernel.Intr
