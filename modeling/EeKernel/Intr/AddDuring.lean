import EeKernel.Intr.InOrder

/-!
# Handlers that register others

A callback may add descriptors to the queue that is being walked.  One added
ahead of the running handler raises the bound and the number of nodes ahead
alike.  One added at the front, or in place of a handler at or before the
running one, raises the bound only: the counter then lags behind the cursor,
and a walk nobody ends reaches the list head with rounds to spare and reads it
as a descriptor.
-/

namespace EeKernel.Intr

open EeKernel.Lib

variable {ε : Type}

/-! ## What the callbacks do -/

structure AddArgs where
  gp : Word
  handler : Word
  next : Word
  arg : Word
  unk : Word

def addTo (L : ListHelpers) (m : Mem) (a : AddArgs) : Queue → Mem × Word
  | .intc c => func_800018F0 L m a.gp (idx c) a.handler a.next a.arg a.unk
  | .dmac c => func_80001B50 L m a.gp (idx c) a.handler a.next a.arg a.unk

/-- `next` names a place ahead of the handler that has `l` behind it in the queue. -/
def Ahead (next : Word) (l : List Hid) : Prop := next = -1 ∨ ∃ j ∈ l, next = idx j

/-- `next` names the front, or a handler of `l`. -/
def Late (next : Word) (l : List Hid) : Prop := next = 0 ∨ ∃ j ∈ l, next = idx j

/-- While `i` runs, memory goes from `m` to `m'` by successful Adds to `q`, `n` of
them at or before `i`; besides, the registry is left alone. -/
inductive Adds (L : ListHelpers) (q : Queue) (i : Hid) : Nat → Mem → Mem → Prop
  | same {m m' : Mem} (h : SameRegistry m m') : Adds L q i 0 m m'
  | ahead {n : Nat} {m m₁ m' : Mem} {r : Lists} {l₁ l₂ : List Hid} {a : AddArgs}
      (h : SameRegistry m m₁) (R : Rings m₁ r) (hk : r (.queue q) = l₁ ++ i :: l₂)
      (ha : Ahead a.next l₂) (ok : (addTo L m₁ a q).2 ≠ -1)
      (rest : Adds L q i n (addTo L m₁ a q).1 m') : Adds L q i n m m'
  | late {n : Nat} {m m₁ m' : Mem} {r : Lists} {l₁ l₂ : List Hid} {a : AddArgs}
      (h : SameRegistry m m₁) (R : Rings m₁ r) (hk : r (.queue q) = l₁ ++ i :: l₂)
      (ha : Late a.next (l₁ ++ [i])) (ok : (addTo L m₁ a q).2 ≠ -1)
      (rest : Adds L q i n (addTo L m₁ a q).1 m') : Adds L q i (n + 1) m m'

/-- The handlers of queue `q` do nothing to the registry but add to `q`. -/
structure Callees.Adding (C : Callees ε) (L : ListHelpers) (q : Queue) : Prop where
  user : ∀ {i r call s}, Counted s.mem r → i ∈ r (.queue q) →
    ∃ n, Adds L q i n s.mem (C.func_800029C0 (Node.hnd i).word call s).1.mem
  direct : ∀ {i r handler inum s}, Counted s.mem r → i ∈ r (.queue q) →
    ∃ n, Adds L q i n s.mem (C.direct (Node.hnd i).word handler inum s).mem

/-- The handlers of `l`, and those added ahead meanwhile, run one after the other
until one returns a negative result (`early`) or none is left; `late` counts the
Adds that went in at or before the handler that made them. -/
inductive Rounds (C : Callees ε) (L : ListHelpers) (q : Queue) :
    Machine ε → List Hid → Bool → Nat → Prop
  | done {s : Machine ε} : Rounds C L q s [] false 0
  | early {s s' : Machine ε} {i : Hid} {l : List Hid} {invoked : Option Invocation}
      (hv : visit C q.inum (Node.hnd i).word s = (s', invoked, true)) :
      Rounds C L q s (i :: l) true 0
  | next {s s' : Machine ε} {i : Hid} {l l₁ l₂ : List Hid} {invoked : Option Invocation}
      {r : Lists} {n late : Nat} {early : Bool}
      (hv : visit C q.inum (Node.hnd i).word s = (s', invoked, false))
      (adds : Adds L q i n s.mem s'.mem) (R : Rings s'.mem r) (hk : r (.queue q) = l₁ ++ i :: l₂)
      (rest : Rounds C L q s' l₂ early late) : Rounds C L q s (i :: l) early (n + late)

/-- The interrupt ends, reads descriptors linked on the queue at that moment only,
and invokes none of them twice. -/
def Safe (C : Callees ε) (q : Queue) (s : Machine ε) : Prop :=
  ∃ w, (∀ fuel, 128 < fuel → interrupt C fuel q s = some w) ∧
    (∀ v ∈ w.visits, ∃ r i, Rings v.before.mem r ∧ i ∈ r (.queue q) ∧ v.hnd = (Node.hnd i).word) ∧
    (w.visits.filterMap Visit.called).Nodup

/-! ## What the Adds do to the queue -/

section Adds

variable {L : ListHelpers} {q : Queue} {m m' : Mem} {r : Lists} {i : Hid} {l₁ l₂ : List Hid}
  {n : Nat}

/-- A position on the queue that is marked free is refused like any other free one. -/
theorem Counted.live_next (C : Counted m r) (hL : L.Correct) {gp handler next arg unk : Word}
    (ok : (addHandler L m gp (Node.head (.queue q)).word handler next arg unk).2 ≠ -1) :
    ∀ j ∈ r (.queue q), next = idx j → m.read (Cell.state j).word ≠ 3 := by
  rintro j hj rfl h3
  apply ok
  by_cases hp : r .pool = []
  · rw [addHandler_nil C.toRings hL hp]
  · have hpop : (L.func_80006420 m D_8001B410).2 ≠ (Node.hnd j).word := by
      obtain ⟨i, hi, hpop, -⟩ := func_800015E0_cons C.toRings hL hp
      rw [hpop, Ne, Node.word_inj, Node.hnd.injEq]
      rintro rfl
      exact C.notMem_of_ne hi (by simp) hj
    have h0 : idx j ≠ 0 := fun h => C.pos hj (idx_eq_zero.mp h)
    obtain ⟨i, -, -, hval⟩ := addHandler_late gp handler arg unk C.toRings hL hp
      (idx_ne_neg_one j) h0 (.inr ⟨j, rfl, h3, hpop⟩) (Node.head (.queue q)).word
    rw [hval]

theorem Counted.addTo (C : Counted m r) (hL : L.Correct) {a : AddArgs}
    (ha : Anchored a.next (r (.queue q))) (ok : (addTo L m a q).2 ≠ -1) :
    ∃ j, Counted (addTo L m a q).1 (r.add q a.next j) := by
  have haddHandler : ∀ {p : Mem × Word}, p.2 ≠ -1 →
      p = addHandler L m a.gp (Node.head (.queue q)).word a.handler a.next a.arg a.unk →
      ∃ j, Counted p.1 (r.add q a.next j) := by
    rintro _ hok rfl
    by_cases hp : r .pool = []
    · rw [addHandler_nil C.toRings hL hp] at hok
      exact absurd rfl hok
    · obtain ⟨j, -, hA, -⟩ := addHandler_at a.gp a.handler a.arg a.unk C.toRings hL hp ha
        (C.live_next hL hok)
      exact ⟨j, C.add hA⟩
  cases q with
  | intc c =>
    apply haddHandler ok
    have href : ¬ (a.unk ≠ 0 ∧ c = INTC_SBUS) := by
      intro h
      apply ok
      simp only [Intr.addTo, func_800018F0_idx, if_pos h]
    simp only [Intr.addTo, func_800018F0_idx, if_neg href]
  | dmac c =>
    apply haddHandler ok
    simp only [Intr.addTo, func_80001B50_idx]

theorem Ahead.anchored {next : Word} (ha : Ahead next l₂) : Anchored next (l₁ ++ i :: l₂) := by
  rcases ha with ha | ⟨j, hj, hnext⟩
  · exact .inl ha
  · exact .inr (.inr ⟨j, by simp [hj], hnext⟩)

theorem Late.anchored {next : Word} (ha : Late next (l₁ ++ [i])) :
    Anchored next (l₁ ++ i :: l₂) := by
  rcases ha with ha | ⟨j, hj, hnext⟩
  · exact .inr (.inl ha)
  · refine .inr (.inr ⟨j, ?_, hnext⟩)
    simp only [List.mem_append, List.mem_cons, List.not_mem_nil, or_false] at hj ⊢
    tauto

/-- Ahead of `i`, nothing moves at or before it. -/
theorem place_ahead {next : Word} (hn : (l₁ ++ i :: l₂).Nodup) (h0 : ∀ j ∈ l₁ ++ i :: l₂, j ≠ 0)
    (ha : Ahead next l₂) (k : Hid) :
    ∃ l₂', place next k (l₁ ++ i :: l₂) = l₁ ++ i :: l₂' := by
  rcases ha with rfl | ⟨j, hj, rfl⟩
  · exact ⟨l₂ ++ [k], by rw [place_neg_one]; simp⟩
  · have hj0 : j ≠ 0 := h0 j (by simp [hj])
    obtain ⟨a, b, rfl⟩ := List.append_of_mem hj
    have happ : l₁ ++ i :: (a ++ j :: b) = (l₁ ++ i :: a) ++ j :: b := by simp
    rw [happ] at hn ⊢
    have hj₁ := notMem_of_nodup hn
    exact ⟨a ++ k :: j :: b, by rw [place_idx hj0 k hj₁]; simp⟩

/-- At or before `i`, one more stands before it. -/
theorem place_late {next : Word} (hn : (l₁ ++ i :: l₂).Nodup) (h0 : ∀ j ∈ l₁ ++ i :: l₂, j ≠ 0)
    (ha : Late next (l₁ ++ [i])) (k : Hid) :
    ∃ l₁', place next k (l₁ ++ i :: l₂) = l₁' ++ i :: l₂ ∧ l₁.Sublist l₁' ∧
      l₁'.length = l₁.length + 1 := by
  rcases ha with rfl | ⟨j, hj, rfl⟩
  · exact ⟨k :: l₁, rfl, List.sublist_cons_self k l₁, rfl⟩
  · have hj0 : j ≠ 0 := h0 j (by
      simp only [List.mem_append, List.mem_cons, List.not_mem_nil, or_false] at hj ⊢
      tauto)
    rcases List.mem_append.mp hj with hj | hj
    · obtain ⟨a, b, rfl⟩ := List.append_of_mem hj
      have happ : a ++ j :: b ++ i :: l₂ = a ++ j :: (b ++ i :: l₂) := by simp
      rw [happ] at hn ⊢
      have hj₁ := notMem_of_nodup hn
      refine ⟨a ++ k :: j :: b, by rw [place_idx hj0 k hj₁]; simp, ?_, by simp; omega⟩
      exact (List.sublist_cons_self k (j :: b)).append_left a
    · rw [List.mem_singleton.mp hj] at hj0 ⊢
      have hi₁ := notMem_of_nodup hn
      exact ⟨l₁ ++ [k], by rw [place_idx hj0 k hi₁]; simp, by simp, by simp⟩

theorem split_unique {l k₁ k₂ : List Hid} (hn : l.Nodup) (h : l = l₁ ++ i :: l₂)
    (h' : l = k₁ ++ i :: k₂) : l₁ = k₁ ∧ l₂ = k₂ := by
  subst h
  have hi₁ := notMem_of_nodup hn
  have hi₂ : i ∉ l₂ := (List.nodup_cons.mp (List.nodup_append.mp hn).2.1).1
  have hinj := (List.append_cons_inj_of_notMem hi₁ hi₂).mp h'
  exact ⟨hinj.1, hinj.2.2⟩

/-- The registry after the Adds a callback makes, seen from the handler that runs. -/
theorem Adds.spec (h : Adds L q i n m m') (hL : L.Correct) (W : Counted m r)
    (hk : r (.queue q) = l₁ ++ i :: l₂) :
    ∃ r' l₁' l₂', Counted m' r' ∧ r' (.queue q) = l₁' ++ i :: l₂' ∧ l₁.Sublist l₁' ∧
      l₁'.length = l₁.length + n := by
  induction h generalizing r l₁ l₂ with
  | same h => exact ⟨r, l₁, l₂, W.congr h, hk, List.Sublist.refl l₁, rfl⟩
  | @ahead n _ _ _ _ _ _ a h R hk' ha ok rest ih =>
    have W₁ := W.congr h
    rw [← W₁.unique R] at hk'
    obtain ⟨-, rfl⟩ := split_unique (W.nodup _) hk hk'
    obtain ⟨j, W₂⟩ := W₁.addTo hL (hk ▸ ha.anchored) ok
    obtain ⟨l₂', hplace⟩ := place_ahead (hk ▸ W.nodup (.queue q)) (fun j hj => W.pos (hk ▸ hj)) ha j
    have hk₂ := Lists.add_queue r q a.next j
    rw [hk, hplace] at hk₂
    exact ih W₂ hk₂
  | @late n _ _ _ _ _ _ a h R hk' ha ok rest ih =>
    have W₁ := W.congr h
    rw [← W₁.unique R] at hk'
    obtain ⟨rfl, -⟩ := split_unique (W.nodup _) hk hk'
    obtain ⟨j, W₂⟩ := W₁.addTo hL (hk ▸ ha.anchored) ok
    obtain ⟨l₁', hplace, hsub, hlen⟩ := place_late (hk ▸ W.nodup (.queue q))
      (fun j hj => W.pos (hk ▸ hj)) ha j
    have hk₂ := Lists.add_queue r q a.next j
    rw [hk, hplace] at hk₂
    obtain ⟨r', l₁'', l₂', W', hk'', hsub', hlen'⟩ := ih W₂ hk₂
    exact ⟨r', l₁'', l₂', W', hk'', hsub.trans hsub', by omega⟩

/-- The same, where the queue after the Adds is known. -/
theorem Adds.kept (h : Adds L q i n m m') (hL : L.Correct) (W : Counted m r)
    (hk : r (.queue q) = l₁ ++ i :: l₂) {r' : Lists} {l₁' l₂' : List Hid} (R : Rings m' r')
    (hk' : r' (.queue q) = l₁' ++ i :: l₂') :
    Counted m' r' ∧ l₁.Sublist l₁' ∧ l₁'.length = l₁.length + n := by
  obtain ⟨r'', k₁, k₂, W', hk'', hsub, hlen⟩ := h.spec hL W hk
  rw [R.unique W'.toRings] at hk' ⊢
  obtain ⟨rfl, -⟩ := split_unique (W'.nodup _) hk'' hk'
  exact ⟨W', hsub, hlen⟩

end Adds

/-! ## The walk and the rounds -/

section Walk

variable {C : Callees ε} {L : ListHelpers} {q : Queue} {s s' : Machine ε} {r : Lists} {i : Hid}
  {l l₁ : List Hid} {early : Bool} {late : Nat}

theorem visit_adds (hC : C.Adding L q) (W : Counted s.mem r) (hi : i ∈ r (.queue q))
    {inum : Word} {invoked : Option Invocation} {stop : Bool}
    (hv : visit C inum (Node.hnd i).word s = (s', invoked, stop)) :
    ∃ n, Adds L q i n s.mem s'.mem := by
  obtain ⟨d, hd⟩ : ∃ d, readDescriptor s.mem (Node.hnd i).word = d := ⟨_, rfl⟩
  by_cases h2 : d.state = 2
  · rw [visit_user C inum hd h2] at hv
    cases hv
    exact hC.user (s := { s with gp := d.gp }) W hi
  by_cases h0 : d.state = 0
  · rw [visit_direct C inum hd h2 h0] at hv
    cases hv
    exact hC.direct W hi
  · rw [visit_skip C inum hd h2 h0] at hv
    cases hv
    exact ⟨0, .same (SameRegistry.refl _)⟩

/-- The rounds come to an end: each one moves on in a queue of at most 128. -/
theorem rounds_exist (hL : L.Correct) (hC : C.Adding L q) (W : Counted s.mem r)
    (hk : r (.queue q) = l₁ ++ l) : ∃ early late, Rounds C L q s l early late := by
  obtain ⟨left, hleft⟩ : ∃ left, 128 - l₁.length ≤ left := ⟨_, Nat.le_refl _⟩
  induction left generalizing s r l l₁ with
  | zero =>
    have hlen := W.length_le (.queue q)
    rw [hk, List.length_append] at hlen
    have hnil : l = [] := List.length_eq_zero_iff.mp (by omega)
    rw [hnil]
    exact ⟨false, 0, .done⟩
  | succ left ih =>
    cases l with
    | nil => exact ⟨false, 0, .done⟩
    | cons i l =>
      have hi : i ∈ r (.queue q) := by
        rw [hk]
        simp
      rcases hv : visit C q.inum (Node.hnd i).word s with ⟨s', invoked, _ | _⟩
      · obtain ⟨n, hadds⟩ := visit_adds hC W hi hv
        obtain ⟨r', l₁', l₂', W', hk', -, hlen⟩ := hadds.spec hL W hk
        obtain ⟨early, late, h⟩ := ih W' (hk'.trans (List.append_cons ..))
          (by rw [List.length_append, List.length_singleton]; omega)
        exact ⟨early, n + late, .next hv hadds W'.toRings hk' h⟩
      · exact ⟨true, 0, .early hv⟩

theorem Counted.counter_behind {m : Mem} (W : Counted m r)
    (hk : r (.queue q) = l₁ ++ i :: l) {a lag : Nat} (hlag : a + lag = l₁.length) :
    (BitVec.ofNat 32 a).toInt < (m.read (fEntries (Node.head (.queue q)).word)).toInt := by
  have hlen := W.length_le (.queue q)
  rw [hk, List.length_append, List.length_cons] at hlen
  rw [fEntries_word, W.entries, hk, List.length_append, List.length_cons,
    counter_lt (by omega) (by omega)]
  omega

theorem Counted.fuel_left {m : Mem} (W : Counted m r) (hk : r (.queue q) = l₁ ++ i :: l) :
    ∃ fuel, 129 - l₁.length = fuel + 1 := by
  have hlen := W.length_le (.queue q)
  rw [hk, List.length_append, List.length_cons] at hlen
  exact ⟨128 - l₁.length, by omega⟩

/-- With the counter in step with the cursor, or a negative result to end it, the
walk visits the rest of the queue and nothing else. -/
theorem Rounds.walk_safe (h : Rounds C L q s l early late) (hL : L.Correct) (W : Counted s.mem r)
    (hk : r (.queue q) = l₁ ++ l) {a lag : Nat} (hlag : a + lag = l₁.length)
    (hsafe : early = true ∨ lag + late = 0) :
    ∃ (w : Served ε) (ids : List Hid),
      walk C (Node.head (.queue q)).word q.inum (129 - l₁.length) (BitVec.ofNat 32 a)
        (first (Node.head (.queue q)) (l.map .hnd)).word s = some w ∧
      w.visits.map Visit.hnd = ids.map (fun j => (Node.hnd j).word) ∧ ids.Nodup ∧
      (∀ j ∈ ids, j ∉ l₁) ∧
      ∀ v ∈ w.visits, ∃ r i, Rings v.before.mem r ∧ i ∈ r (.queue q) ∧
        v.hnd = (Node.hnd i).word := by
  induction h generalizing r l₁ a lag with
  | @done s =>
    have hlen := W.length_le (.queue q)
    rw [hk, List.append_nil] at hlen
    have ha : a = l₁.length := by
      rcases hsafe with h | h
      · cases h
      · omega
    obtain ⟨fuel, hfuel⟩ : ∃ fuel, 129 - l₁.length = fuel + 1 := ⟨128 - l₁.length, by omega⟩
    rw [hfuel, ha]
    exact ⟨_, [], walk_done ((W.more_iff hk).not.mpr (by simp)), rfl, List.nodup_nil, by simp,
      by simp⟩
  | @early s s' i l invoked hv =>
    have hi : i ∈ r (.queue q) := by
      rw [hk]
      simp
    have hn := W.nodup (.queue q)
    rw [hk] at hn
    have hi₁ := notMem_of_nodup hn
    obtain ⟨fuel, hfuel⟩ := W.fuel_left hk
    rw [hfuel]
    refine ⟨_, [i], walk_return (W.counter_behind hk hlag) hv, rfl, List.nodup_singleton i, ?_, ?_⟩
    · simpa using hi₁
    · intro v hv
      rw [List.mem_singleton.mp hv]
      exact ⟨r, i, W.toRings, hi, rfl⟩
  | @next s s' i l k₁ k₂ invoked r' n late early hv adds R hk' rest ih =>
    have hi : i ∈ r (.queue q) := by
      rw [hk]
      simp
    have hn := W.nodup (.queue q)
    rw [hk] at hn
    have hi₁ := notMem_of_nodup hn
    obtain ⟨W', hsub, hlen⟩ := adds.kept hL W hk R hk'
    have hlag' : (a + 1) + (lag + n) = (k₁ ++ [i]).length := by
      rw [List.length_append, List.length_singleton]
      omega
    obtain ⟨w, ids, hw, hvisits, hids, hfresh, hreads⟩ := ih W' (hk'.trans (List.append_cons ..))
      hlag' (hsafe.imp_right fun h => by omega)
    obtain ⟨fuel, hfuel⟩ := W.fuel_left hk
    have hle : 129 - (k₁ ++ [i]).length ≤ fuel := by omega
    have hw' := walk_mono hw hle
    rw [← W'.next_word hk'] at hw'
    refine ⟨w.push { before := s, hnd := (Node.hnd i).word, invoked := invoked }, i :: ids, ?_, ?_,
      ?_, ?_, ?_⟩
    · rw [hfuel, List.map_cons, first_cons, walk_next (W.counter_behind hk hlag) hv, ofNat_succ,
        hw']
      rfl
    · exact congrArg ((Node.hnd i).word :: ·) hvisits
    · exact List.nodup_cons.mpr ⟨fun h => hfresh i h (by simp), hids⟩
    · intro j hj
      rcases List.mem_cons.mp hj with rfl | hj
      · exact hi₁
      · exact fun h => hfresh j hj (List.mem_append_left _ (hsub.subset h))
    · intro v hv
      rcases List.mem_cons.mp hv with rfl | hv
      · exact ⟨r, i, W.toRings, hi, rfl⟩
      · exact hreads v hv

/-- With the counter behind the cursor and nobody to end the walk, it reads the list head. -/
theorem Rounds.walk_head (h : Rounds C L q s l early late) (hL : L.Correct) (W : Counted s.mem r)
    (hk : r (.queue q) = l₁ ++ l) {a lag : Nat} (hlag : a + lag = l₁.length)
    (hearly : early = false) (hlate : 0 < lag + late) {fuel : Nat} {w : Served ε}
    (hw : walk C (Node.head (.queue q)).word q.inum fuel (BitVec.ofNat 32 a)
      (first (Node.head (.queue q)) (l.map .hnd)).word s = some w) :
    ∃ v ∈ w.visits, v.hnd = (Node.head (.queue q)).word := by
  induction h generalizing r l₁ a lag fuel w with
  | @done s =>
    cases fuel with
    | zero => cases hw
    | succ fuel =>
      have hlen := W.length_le (.queue q)
      rw [hk, List.append_nil] at hlen
      have hlt : (BitVec.ofNat 32 a).toInt <
          (s.mem.read (fEntries (Node.head (.queue q)).word)).toInt := by
        rw [fEntries_word, W.entries, hk, List.append_nil, counter_lt (by omega) (by omega)]
        omega
      rw [List.map_nil, first_nil] at hw
      rcases hv : visit C q.inum (Node.head (.queue q)).word s with ⟨s', invoked, _ | _⟩
      · rw [walk_next hlt hv, Option.map_eq_some_iff] at hw
        obtain ⟨w', -, rfl⟩ := hw
        exact ⟨_, List.mem_cons_self, rfl⟩
      · rw [walk_return hlt hv] at hw
        cases hw
        exact ⟨_, List.mem_cons_self, rfl⟩
  | early hv => cases hearly
  | @next s s' i l k₁ k₂ invoked r' n late early hv adds R hk' rest ih =>
    cases fuel with
    | zero => cases hw
    | succ fuel =>
      obtain ⟨W', -, hlen⟩ := adds.kept hL W hk R hk'
      rw [List.map_cons, first_cons, walk_next (W.counter_behind hk hlag) hv,
        Option.map_eq_some_iff] at hw
      obtain ⟨w', hw', rfl⟩ := hw
      rw [W'.next_word hk', ofNat_succ] at hw'
      have hlag' : (a + 1) + (lag + n) = (k₁ ++ [i]).length := by
        rw [List.length_append, List.length_singleton]
        omega
      obtain ⟨v, hmem, hv'⟩ := ih W' (hk'.trans (List.append_cons ..)) hlag' hearly (by omega) hw'
      exact ⟨v, List.mem_cons_of_mem _ hmem, hv'⟩

end Walk

/-! ## When adding is safe -/

theorem called_sublist (w : Served ε) :
    (w.visits.filterMap Visit.called).Sublist (w.visits.map Visit.hnd) := by
  generalize w.visits = l
  induction l with
  | nil => exact List.Sublist.refl _
  | cons v l ih =>
    rw [List.map_cons, List.filterMap_cons]
    cases hv : v.invoked with
    | none =>
      rw [show v.called = none by simp [Visit.called, hv]]
      exact ih.cons v.hnd
    | some inv =>
      rw [show v.called = some v.hnd by simp [Visit.called, hv]]
      exact ih.cons_cons v.hnd

theorem Rounds.not_safe {L : ListHelpers} {C : Callees ε} {q : Queue} {s : Machine ε} {r : Lists}
    {late : Nat} (h : Rounds C L q (entered q s) (r (.queue q)) false late) (hL : L.Correct)
    (W : Counted s.mem r) (hv : VsyncOutside q s.mem) (hlate : 0 < late) : ¬ Safe C q s := by
  rintro ⟨w, hw, hreads, -⟩
  have hw' := hw 129 (by omega)
  rw [interrupt_walk W hv, Option.map_eq_some_iff] at hw'
  obtain ⟨w', hw', rfl⟩ := hw'
  obtain ⟨v, hmem, hhead⟩ := h.walk_head hL (W.congr (entered_same hv)) (List.nil_append _).symm
    (Nat.zero_add 0) rfl (by omega) hw'
  obtain ⟨r', i, -, -, hi⟩ := hreads v (by rwa [finish_visits])
  rw [hhead, Node.word_inj] at hi
  cases hi

/-- **Adding during dispatch.**  The rounds of an interrupt whose callbacks add to
its queue come to an end, and the walk is safe exactly when a handler ends it or
none of the Adds goes in at or before the handler that makes it. -/
theorem add_during_safe_iff {L : ListHelpers} (hL : L.Correct) {C : Callees ε} {q : Queue}
    (hC : C.Adding L q) {s : Machine ε} {r : Lists} (W : Counted s.mem r)
    (hv : VsyncOutside q s.mem) :
    (∃ early late, Rounds C L q (entered q s) (r (.queue q)) early late) ∧
      ∀ early late, Rounds C L q (entered q s) (r (.queue q)) early late →
        (Safe C q s ↔ early = true ∨ late = 0) := by
  have W' := W.congr (entered_same hv)
  refine ⟨rounds_exist hL hC W' (List.nil_append _).symm,
    fun early late h => ⟨fun hsafe => ?_, fun hok => ?_⟩⟩
  · by_contra hno
    have hearly : early = false := by
      cases early with
      | false => rfl
      | true => exact absurd (.inl rfl) hno
    subst hearly
    have hlate : late ≠ 0 := fun h0 => hno (.inr h0)
    exact h.not_safe hL W hv (by omega) hsafe
  · obtain ⟨w, ids, hw, hvisits, hids, -, hreads⟩ := h.walk_safe hL W' (List.nil_append _).symm
      (Nat.zero_add 0) (hok.imp_right fun h0 => by omega)
    refine ⟨finish C q.message q.inum w, fun fuel hfuel => ?_, ?_, ?_⟩
    · rw [interrupt_walk W hv, walk_mono hw (by simp only [List.length_nil]; omega)]
      rfl
    · rw [finish_visits]
      exact hreads
    · rw [finish_visits]
      have hnodup : (w.visits.map Visit.hnd).Nodup := by
        rw [hvisits]
        apply hids.map
        intro i j hij
        simpa using Node.word_inj.mp hij
      exact hnodup.sublist (called_sublist w)

/-! ## One handler that adds another at the front -/

/-- An Add at the front of INTC queue 0, the first time. -/
def addOnce (s : Machine Bool) : Machine Bool :=
  if s.env = true then s
  else
    { s with mem := (func_80001A70 standard s.mem 0x10 (idx (0 : Fin 15)) 0x300 0 9).1
             env := true }

/-- Whatever handler runs first adds another one. -/
def adder : Callees Bool where
  func_800029C0 _ _ s := (addOnce s, 0)
  direct _ _ _ s := addOnce s
  kprintf _ _ s := s
  func_80000DC0 _ s := s

def frontArgs : AddArgs where
  gp := 0x10
  handler := 0x300
  next := 0
  arg := 9
  unk := 2

theorem addOnce_mem {s : Machine Bool} (hs : s.env = false) :
    (addOnce s).mem = (addTo standard s.mem frontArgs (.intc 0)).1 := by
  rw [addOnce, if_neg (by simp [hs])]
  rfl

/-- While the pool lasts, `addOnce` goes in before the handler that runs. -/
theorem addOnce_late {s : Machine Bool} {r : Lists} {i : Hid} (W : Counted s.mem r)
    (hi : i ∈ r (.queue (.intc 0))) (hp : r .pool ≠ []) (hs : s.env = false) :
    Adds standard (.intc 0) i 1 s.mem (addOnce s).mem ∧
      ∃ j, Counted (addOnce s).mem (r.add (.intc 0) 0 j) := by
  obtain ⟨l₁, l₂, hk⟩ := List.append_of_mem hi
  have hzero : ∀ j ∈ r (.queue (.intc 0)), (0 : Word) = idx j →
      s.mem.read (Cell.state j).word ≠ 3 :=
    fun j hj h => absurd (idx_eq_zero.mp h.symm) (W.pos hj)
  obtain ⟨j, -, hA, hret⟩ := addHandler_at 0x10 0x300 9 2 W.toRings standard_correct hp
    (.inr (.inl rfl)) hzero
  have heq : addTo standard s.mem frontArgs (.intc 0) =
      addHandler standard s.mem 0x10 (Node.head (.queue (.intc 0))).word 0x300 0 9 2 := by
    rw [addTo, func_800018F0_idx]
    exact if_neg (by decide)
  have hok : (addTo standard s.mem frontArgs (.intc 0)).2 ≠ -1 := by
    rw [heq, hret]
    exact idx_ne_neg_one j
  rw [addOnce_mem hs]
  refine ⟨.late (SameRegistry.refl _) W.toRings hk (.inl rfl) hok (.same (SameRegistry.refl _)),
    j, ?_⟩
  rw [heq]
  exact W.add hA

theorem adder_adding : adder.Adding standard (.intc 0) := by
  have honce : ∀ {i r} {s : Machine Bool}, Counted s.mem r → i ∈ r (.queue (.intc 0)) →
      ∃ n, Adds standard (.intc 0) i n s.mem (addOnce s).mem := by
    intro i r s W hi
    cases hs : s.env with
    | true =>
      rw [addOnce, if_pos hs]
      exact ⟨0, .same (SameRegistry.refl _)⟩
    | false =>
      by_cases hp : r .pool = []
      · refine ⟨0, ?_⟩
        rw [addOnce_mem hs, addTo, func_800018F0_idx, if_neg (by decide),
          addHandler_nil W.toRings standard_correct hp]
        exact .same (SameRegistry.refl _)
      · exact ⟨1, (addOnce_late W hi hp hs).1⟩
  exact ⟨fun W hi => honce W hi, fun W hi => honce W hi⟩

/-- The only handler of a queue adds one at the front: the walk goes on to the list head. -/
theorem add_during_reads_head :
    ∃ r, WellFormed oneHandler r ∧ adder.Adding standard (.intc 0) ∧
      ¬ Safe adder (.intc 0) (machineOf oneHandler false) := by
  obtain ⟨r, i, W, hr, -, hpool, hi⟩ := oneHandler_spec
  refine ⟨r, W, adder_adding, ?_⟩
  have hp : r .pool ≠ [] := by
    intro h
    rw [h] at hpool
    cases hpool
  have hmem : i ∈ r (.queue (.intc 0)) := by
    rw [hr]
    exact List.mem_singleton_self i
  -- the one round there is: its handler is in state 2 and returns 0
  obtain ⟨d, hd⟩ : ∃ d, readDescriptor oneHandler (Node.hnd i).word = d := ⟨_, rfl⟩
  have h2 : d.state = 2 := by
    rw [← hd, readDescriptor, fState_word]
    exact hi
  have hv : visit adder (Queue.intc 0).inum (Node.hnd i).word (machineOf oneHandler false) =
      ((callUser adder (Queue.intc 0).inum (Node.hnd i).word d (machineOf oneHandler false)).1,
        some (.user (userCall (Queue.intc 0).inum d (machineOf oneHandler false)) d.gp 0), false) :=
    visit_user adder (Queue.intc 0).inum hd h2
  obtain ⟨hadds, j, W'⟩ := addOnce_late
    (s := { machineOf oneHandler false with gp := d.gp }) W.toCounted hmem hp rfl
  have hk : (r.add (.intc 0) 0 j) (.queue (.intc 0)) = [j] ++ i :: [] := by
    rw [Lists.add_queue, hr, place_zero]
    rfl
  have hrounds : Rounds adder standard (.intc 0) (machineOf oneHandler false) [i] false (1 + 0) :=
    .next hv hadds W'.toRings hk .done
  have hentered : entered (.intc 0) (machineOf oneHandler false) = machineOf oneHandler false :=
    vsync_of_ne (by decide) _
  rw [← hentered, ← hr] at hrounds
  exact hrounds.not_safe standard_correct W.toCounted (vsyncOutside_of_ne (by decide) _)
    (by decide)

/-- The same interrupt, through the theorem. -/
theorem add_during_safe_iff_one_handler :
    ∃ r, WellFormed oneHandler r ∧
      (∃ early late, Rounds adder standard (.intc 0)
        (entered (.intc 0) (machineOf oneHandler false))
        (r (.queue (.intc 0))) early late) ∧
      ∀ early late, Rounds adder standard (.intc 0) (entered (.intc 0) (machineOf oneHandler false))
        (r (.queue (.intc 0))) early late →
        (Safe adder (.intc 0) (machineOf oneHandler false) ↔ early = true ∨ late = 0) := by
  obtain ⟨r, -, W, -⟩ := oneHandler_spec
  exact ⟨r, W,
    add_during_safe_iff standard_correct adder_adding (s := machineOf oneHandler false)
      W.toCounted (vsyncOutside_of_ne (by decide) _)⟩

end EeKernel.Intr
