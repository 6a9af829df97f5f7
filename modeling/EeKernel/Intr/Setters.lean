import EeKernel.Intr.AnyNext
import EeKernel.Intr.Refine
import EeKernel.Intr.Removal
import EeKernel.Intr.UserLevel

/-!
# Enable and disable

The four setters store into `int_handler[hid].state` for any `hid`.  State 3 is
all that marks a descriptor as free, so a setter that is given a free id makes
it look live, and one that is given an index out of range writes some other word
(-1 is `entries` of the last DMAC queue).  `SetterRun` are the runs in which
every setter is given a queued id, or stores what is there already, and the
other calls keep to their own conditions; the history records what was
registered and what was taken off.
-/

namespace EeKernel.Intr

open EeKernel.Lib

inductive Setter
  | func_80001FE0
  | func_80002008
  | func_80002030
  | func_80002058
  deriving DecidableEq, Repr

namespace Setter

def exec : Setter → Mem → Word → Mem × Word
  | func_80001FE0 => Intr.func_80001FE0
  | func_80002008 => Intr.func_80002008
  | func_80002030 => Intr.func_80002030
  | func_80002058 => Intr.func_80002058

def value : Setter → Word
  | func_80001FE0 | func_80002030 => 2
  | func_80002008 | func_80002058 => 1

theorem exec_eq (s : Setter) (m : Mem) (hid : Word) : s.exec m hid = setState m hid s.value := by
  cases s <;> rfl

theorem value_ne_three (s : Setter) : s.value ≠ 3 := by
  cases s <;> decide

end Setter

/-- `hid` is on some queue. -/
def Queued (r : Lists) (hid : Word) : Prop := ∃ q i, hid = idx i ∧ i ∈ r (.queue q)

/-- At most the `state` of a queued descriptor has changed. -/
structure TouchesQueued (r : Lists) (hid : Word) (m m' : Mem) : Prop where
  queued : ∀ q i, hid = idx i → i ∈ r (.queue q) → ChangesOnly {Cell.state i} m m'
  other : ¬ Queued r hid → m' = m

/-! ## Runs -/

/-- What happened to a registration. -/
inductive Change
  | registered (i : Hid)
  | removed (i : Hid)
  deriving DecidableEq, Repr

/-- The Add fails before the pop, or goes through at a position of its own queue and does not
itself store state 3. -/
def AddCall.Proper (L : ListHelpers) (m : Mem) (c : AddCall) : Prop :=
  ¬ c.k.Accepts c.cause c.unk ∨ (L.func_80006420 m D_8001B410).2 = 0 ∨ c.unk ≠ 3 ∧
    (c.next = -1 ∨ c.next = 0 ∨ ∃ q j, c.k.Names c.cause q ∧ c.next = idx j ∧ OnQueue m q j)

/-- The Remove names the queue the id is on, or refuses the id. -/
def ProperRemove (m : Mem) (k : Controller) (cause hid : Word) : Prop :=
  badHid hid ∨ m.read (fState (int_handler hid)) = 3 ∨
    ∃ q i, k.Names cause q ∧ hid = idx i ∧ OnQueue m q i

/-- The setter is given a queued id, or stores what is there already. -/
def ProperSet (m : Mem) (s : Setter) (hid : Word) : Prop :=
  (∃ q i, hid = idx i ∧ OnQueue m q i) ∨ m.read (fState (int_handler hid)) = s.value

/-- A run from `func_80002090`.  An Add that answers an id is a registration, a Remove that
counts `D_8001B400` down takes one off. -/
inductive SetterRun (L : ListHelpers) (k₀ : Kernel) : Mem → List Change → Prop
  | init : SetterRun L k₀ (func_80002090 L k₀).1.mem []
  | add {m : Mem} {hist : List Change} {c : AddCall} (run : SetterRun L k₀ m hist)
      (hc : c.Proper L m) :
      SetterRun L k₀ (c.exec L m).1
        (if (c.exec L m).2 = -1 then hist else .registered (hidOf (c.exec L m).2) :: hist)
  | remove {m : Mem} {hist : List Change} {k : Controller} {cause hid : Word}
      (run : SetterRun L k₀ m hist) (hr : ProperRemove m k cause hid) :
      SetterRun L k₀ (k.remove L m cause hid).1
        (if (k.remove L m cause hid).1.read D_8001B400 = m.read D_8001B400 then hist
        else .removed (hidOf hid) :: hist)
  | set {m : Mem} {hist : List Change} {s : Setter} {hid : Word} (run : SetterRun L k₀ m hist)
      (hs : ProperSet m s hid) : SetterRun L k₀ (s.exec m hid).1 hist

/-- What holds after every such run. -/
structure FreeStaysFree (L : ListHelpers) (m : Mem) (hist : List Change) : Prop where
  /-- A descriptor on the pool has state 3. -/
  pool : ∀ l : List Hid, Ring m (.head .pool) (l.map .hnd) → ∀ i ∈ l,
    m.read (Cell.state i).word = 3
  /-- Another Remove of an id that has not been registered again is refused. -/
  again : ∀ (i : Hid) (k : Controller) (cause : Word),
    hist.count (.registered i) = hist.count (.removed i) → k.remove L m cause (idx i) = (m, -1)
  /-- `D_8001B400` goes down at most once for each registration. -/
  once : ∀ i : Hid, hist.count (.removed i) ≤ hist.count (.registered i)

/-! ## One setter -/

variable {L : ListHelpers} {m m' : Mem} {r : Lists} {hid : Word} {i : Hid} {q : Queue}

theorem write_eq_self {a v : Word} : m.write a v = m ↔ m.read a = v := by
  constructor
  · intro h
    rw [← h, Mem.read_write_same]
  · intro h
    funext b
    unfold Mem.write
    split
    · next hb => exact hb ▸ h.symm
    · rfl

theorem setter_iff (r : Lists) (m : Mem) (s : Setter) (hid : Word) :
    TouchesQueued r hid m (s.exec m hid).1 ↔
      Queued r hid ∨ m.read (fState (int_handler hid)) = s.value := by
  rw [Setter.exec_eq]
  constructor
  · intro h
    by_cases hq : Queued r hid
    · exact .inl hq
    · exact .inr (write_eq_self.mp (h.other hq))
  · intro h
    constructor
    · intro q i hi _
      rw [hi, setState_idx]
      exact (ChangesOnly.refl m).write (Set.mem_singleton (Cell.state i))
    · intro hq
      exact write_eq_self.mpr (h.resolve_left hq)

theorem WellFormed.set (W : WellFormed m r) (hi : i ∈ r (.queue q)) (s : Setter) :
    WellFormed (s.exec m (idx i)).1 r := by
  rw [Setter.exec_eq, setState_idx]
  exact W.setState hi s.value_ne_three

/-- A setter on a free id makes it look live, and a Remove of it counts `D_8001B400` down. -/
theorem WellFormed.set_free (W : WellFormed m r) (hL : L.Correct) (hi : i ∈ r .pool) (s : Setter)
    {k : Controller} {cause : Word} (hq : k.Names cause q) :
    (s.exec m (idx i)).1.read (Cell.state i).word = s.value ∧
      (k.remove L (s.exec m (idx i)).1 cause (idx i)).1.read Cell.used.word =
        m.read Cell.used.word - 1 := by
  rw [Setter.exec_eq, setState_idx]
  dsimp only
  have hstate : (m.write (Cell.state i).word s.value).read (Cell.state i).word = s.value :=
    Mem.read_write_same _ _ _
  refine ⟨hstate, ?_⟩
  have hbad : ¬ badHid (idx i) := not_badHid_iff.mpr ⟨i, W.pos hi, rfl⟩
  have hlive : (m.write (Cell.state i).word s.value).read (fState (int_handler (idx i))) ≠ 3 := by
    rw [int_handler_idx, fState_word, hstate]
    exact s.value_ne_three
  obtain ⟨-, -, -, hused, -⟩ := takenOff_spec (W.toCounted.setState i s.value).toRings hL hi
  rw [Controller.remove_eq, hq.queue_eq, removeHandler_live hbad hlive, fEntries_word,
    read_write_cell, if_neg (by simp), hused, read_write_cell, if_neg (by simp)]

/-! ## Every run -/

/-- A queued id was registered once more than it was taken off, any other just as often. -/
structure Ledger (m : Mem) (r : Lists) (hist : List Change) : Prop extends WellFormed m r where
  queued : ∀ {q i}, i ∈ r (.queue q) →
    hist.count (.registered i) = hist.count (.removed i) + 1
  idle : ∀ {i}, (∀ q, i ∉ r (.queue q)) →
    hist.count (.registered i) = hist.count (.removed i)

variable {hist : List Change}

theorem Ledger.registered (G : Ledger m r hist) {gp handler next arg unk : Word}
    (A : Added m m' r q i gp handler next arg unk) (hunk : unk ≠ 3) :
    Ledger m' (r.add q next i) (.registered i :: hist) where
  toWellFormed := G.toWellFormed.add A hunk
  queued {q' j} hj := by
    rcases Lists.mem_add_queue hj with rfl | ⟨hji, hj⟩
    · have hidle := G.idle fun q => G.notMem_of_ne A.free (by simp)
      simp [hidle]
    · simpa [hji.symm] using G.queued hj
  idle {j} hj := by
    have hji : i ≠ j := by
      rintro rfl
      exact hj q (by simp)
    have hoff : ∀ q', j ∉ r (.queue q') := by
      intro q' hmem
      by_cases hq : q' = q
      · subst hq
        exact hj q' (by simp [hmem])
      · exact hj q' (by rwa [Lists.add_queue_of_ne _ _ _ hq])
    simpa [hji] using G.idle hoff

theorem Ledger.removed (G : Ledger m r hist) (D : Removed m m' r q q i)
    (hi : i ∈ r (.queue q)) : Ledger m' (r.remove q i) (.removed i :: hist) where
  toWellFormed := G.toWellFormed.remove D hi
  queued {q' j} hj := by
    obtain ⟨hji, hj⟩ := G.mem_remove_queue hi hj
    simpa [hji.symm] using G.queued hj
  idle {j} hj := by
    by_cases hji : j = i
    · subst hji
      simpa using G.queued hi
    · have hoff : ∀ q', j ∉ r (.queue q') := by
        intro q' hmem
        by_cases hq : q' = q
        · subst hq
          exact hj q' (by rw [Lists.remove_queue]; exact (List.mem_erase_of_ne hji).mpr hmem)
        · exact hj q' (by rwa [Lists.remove_queue_of_ne _ _ hq])
      simpa [Ne.symm hji] using G.idle hoff

theorem Ledger.add (G : Ledger m r hist) (hL : L.Correct) {c : AddCall} (hc : c.Proper L m) :
    ∃ r', Ledger (c.exec L m).1 r'
      (if (c.exec L m).2 = -1 then hist else .registered (hidOf (c.exec L m).2) :: hist) := by
  by_cases hearly : ¬ c.k.Accepts c.cause c.unk ∨ (L.func_80006420 m D_8001B410).2 = 0
  · rw [not_popped (G.ring .pool) hL hearly]
    exact ⟨r, G⟩
  · obtain ⟨hacc, hp0⟩ : c.k.Accepts c.cause c.unk ∧ (L.func_80006420 m D_8001B410).2 ≠ 0 := by
      simpa only [not_or, not_not] using hearly
    obtain ⟨hunk, hnext⟩ : c.unk ≠ 3 ∧ (c.next = -1 ∨ c.next = 0 ∨
        ∃ q j, c.k.Names c.cause q ∧ c.next = idx j ∧ OnQueue m q j) := by
      rcases hc with h | h | h
      · exact absurd hacc h
      · exact absurd h hp0
      · exact h
    have hown : NextOwn r c := by
      rcases hnext with h | h | ⟨q, j, hq, hj, hon⟩
      · exact .inl h
      · exact .inr (.inl h)
      · exact .inr (.inr ⟨q, j, hq, hj, G.toRings.onQueue.mp hon⟩)
    obtain ⟨q, i, -, hret, hA⟩ :=
      own_added G.toWellFormed hL hacc (pool_ne_nil (G.ring .pool) hL hp0) hown
    rw [hret, if_neg (idx_ne_neg_one i), hidOf_idx]
    exact ⟨_, G.registered hA hunk⟩

theorem Ledger.remove (G : Ledger m r hist) (hL : L.Correct) {k : Controller} {cause : Word}
    (hr : ProperRemove m k cause hid) :
    ∃ r', Ledger (k.remove L m cause hid).1 r'
      (if (k.remove L m cause hid).1.read D_8001B400 = m.read D_8001B400 then hist
      else .removed (hidOf hid) :: hist) := by
  by_cases href : badHid hid ∨ m.read (fState (int_handler hid)) = 3
  · rw [Controller.remove_eq, removeHandler_refused _ href, if_pos rfl]
    exact ⟨r, G⟩
  · obtain ⟨q, i, hq, rfl, hon⟩ : ∃ q i, k.Names cause q ∧ hid = idx i ∧ OnQueue m q i := by
      rcases hr with h | h | h
      · exact absurd (.inl h) href
      · exact absurd (.inr h) href
      · exact h
    have hi := G.toRings.onQueue.mp hon
    obtain ⟨D, -⟩ := removeHandler_spec (q := q) G.toRings hL hi (G.live hi)
    have hused := removeHandler_used G.toRings hL hi (G.live hi) (Node.head (.queue q)).word
    rw [Controller.remove_eq, hq.queue_eq, D_8001B400, if_neg hused, hidOf_idx]
    exact ⟨_, G.removed D hi⟩

theorem Ledger.set (G : Ledger m r hist) {s : Setter} (hs : ProperSet m s hid) :
    Ledger (s.exec m hid).1 r hist := by
  rcases hs with ⟨q, i, rfl, hon⟩ | hsame
  · exact ⟨G.toWellFormed.set (G.toRings.onQueue.mp hon) s, G.queued, G.idle⟩
  · have hm : (setState m hid s.value).1 = m := write_eq_self.mpr hsame
    rw [Setter.exec_eq, hm]
    exact G

theorem SetterRun.ledger (hL : L.Correct) {k₀ : Kernel} (run : SetterRun L k₀ m hist) :
    ∃ r, Ledger m r hist := by
  induction run with
  | init =>
    refine ⟨initLists, func_80002090_wellFormed hL k₀, ?_, ?_⟩
    · intro q i hi
      cases hi
    · intro i _
      rfl
  | add run hc ih =>
    obtain ⟨r, G⟩ := ih
    exact G.add hL hc
  | remove run hr ih =>
    obtain ⟨r, G⟩ := ih
    exact G.remove hL hr
  | set run hs ih =>
    obtain ⟨r, G⟩ := ih
    exact ⟨r, G.set hs⟩

theorem Ledger.freeStaysFree (G : Ledger m r hist) (L : ListHelpers) : FreeStaysFree L m hist where
  pool l hl i hi := by
    have heq : l = r .pool := hl.hids_unique (G.ring .pool)
    rw [heq] at hi
    exact (G.state (G.pos hi)).mpr hi
  again i k cause heq := by
    rw [Controller.remove_eq]
    apply removeHandler_refused
    by_cases hi0 : i = 0
    · subst hi0
      exact .inl (by decide)
    · right
      rw [int_handler_idx, fState_word]
      by_contra hlive
      obtain ⟨q, hq⟩ := G.on_queue hi0 hlive
      have hqueued := G.queued hq
      omega
  once i := by
    by_cases h : ∃ q, i ∈ r (.queue q)
    · obtain ⟨q, hq⟩ := h
      have hqueued := G.queued hq
      omega
    · exact (G.idle fun q hq => h ⟨q, hq⟩).ge

/-- A setter keeps to queued descriptors exactly if it is given one or stores what is there;
in runs of such setters a free descriptor stays free. -/
theorem setters (hL : L.Correct) :
    (∀ m r, WellFormed m r → ∀ (s : Setter) hid, TouchesQueued r hid m (s.exec m hid).1 ↔
      Queued r hid ∨ m.read (fState (int_handler hid)) = s.value) ∧
    ∀ k₀ m hist, SetterRun L k₀ m hist → FreeStaysFree L m hist := by
  refine ⟨fun m r _ s hid => setter_iff r m s hid, fun k₀ m hist run => ?_⟩
  obtain ⟨r, G⟩ := run.ledger hL
  exact G.freeStaysFree L

theorem SetterRun.registered {k₀ : Kernel} {c : AddCall} (run : SetterRun L k₀ m hist)
    (hc : c.Proper L m) (hret : (c.exec L m).2 = idx i) :
    SetterRun L k₀ (c.exec L m).1 (.registered i :: hist) := by
  have h := run.add hc
  rwa [hret, if_neg (idx_ne_neg_one i), hidOf_idx] at h

theorem SetterRun.removed {k₀ : Kernel} {k : Controller} {cause : Word} (hL : L.Correct)
    (W : WellFormed m r) (run : SetterRun L k₀ m hist) (hq : k.Names cause q)
    (hi : i ∈ r (.queue q)) :
    SetterRun L k₀ (k.remove L m cause (idx i)).1 (.removed i :: hist) := by
  have hproper : ProperRemove m k cause (idx i) :=
    .inr (.inr ⟨q, i, hq, rfl, W.toRings.onQueue.mpr hi⟩)
  have h := run.remove hproper
  have hused := removeHandler_used W.toRings hL hi (W.live hi) (k.queue cause)
  rwa [Controller.remove_eq, D_8001B400, if_neg hused, hidOf_idx, ← Controller.remove_eq] at h

/-- A handler is added, switched off and removed. -/
theorem setters_one_handler :
    ∃ i : Hid,
      let init := (func_80002090 standard zeroKernel).1.mem
      let added := func_80001A70 standard init 0x10 (idx (0 : Fin 15)) 0x100 (-1) 7
      let off := func_80002008 added.1 (idx i)
      let removed := func_80001AB0 standard off.1 (idx (0 : Fin 15)) (idx i)
      added.2 = idx i ∧
      (∃ r, WellFormed off.1 r ∧ ∀ (s : Setter) hid, TouchesQueued r hid off.1 (s.exec off.1 hid).1 ↔
        Queued r hid ∨ off.1.read (fState (int_handler hid)) = s.value) ∧
      SetterRun standard zeroKernel removed.1 [.removed i, .registered i] ∧
      FreeStaysFree standard removed.1 [.removed i, .registered i] := by
  have W₀ := func_80002090_wellFormed standard_correct zeroKernel
  obtain ⟨i, -, hret, W₁⟩ := W₀.add_intc standard_correct (by decide) 0 0x10 0x100 (-1) 7 2
    (.inl rfl) (by decide) (by decide)
  have hi : i ∈ (initLists.add (.intc 0) (-1) i) (.queue (.intc 0)) := by simp
  have hadd : AddCall.Proper standard (func_80002090 standard zeroKernel).1.mem
      ⟨.intc, 0x10, idx (0 : Fin 15), 0x100, -1, 7, 2⟩ :=
    .inr (.inr ⟨(by decide : (2 : Word) ≠ 3), .inl rfl⟩)
  have run₁ := SetterRun.registered .init hadd hret
  have run₂ := run₁.set (s := .func_80002008)
    (.inl ⟨.intc 0, i, rfl, W₁.toRings.onQueue.mpr hi⟩)
  have W₂ := W₁.set hi .func_80002008
  have run₃ := run₂.removed standard_correct W₂ (k := .intc) ⟨0, rfl, rfl⟩ hi
  obtain ⟨hone, hrun⟩ := setters standard_correct
  exact ⟨i, hret, ⟨_, W₂, hone _ _ W₂⟩, run₃, hrun _ _ _ run₃⟩

/-- Disabling id 1 right after initialisation takes its state 3 away on the pool; a Remove of it
then counts `D_8001B400` down to -1. -/
theorem setter_resurrects :
    let init := (func_80002090 standard zeroKernel).1.mem
    let off := func_80002008 init (idx (1 : Hid))
    let removed := func_80001AB0 standard off.1 (idx (0 : Fin 15)) (idx (1 : Hid))
    Ring init (.head .pool) (allHids.map .hnd) ∧ (1 : Hid) ∈ allHids ∧
      init.read (Cell.state 1).word = 3 ∧ off.1.read (Cell.state 1).word = 1 ∧
      init.read D_8001B400 = 0 ∧ removed.1.read D_8001B400 = -1 ∧
      ¬ TouchesQueued initLists (idx (1 : Hid)) init off.1 := by
  intro init off removed
  have W : WellFormed init initLists := func_80002090_wellFormed standard_correct zeroKernel
  have hpool : (1 : Hid) ∈ initLists .pool := mem_allHids.mpr (by decide)
  have hfree : init.read (Cell.state 1).word = 3 := (W.state (by decide)).mpr hpool
  have hzero : init.read D_8001B400 = 0 := W.used.trans (by simp [initLists])
  have hnames : Controller.intc.Names (idx (0 : Fin 15)) (.intc 0) := ⟨0, rfl, rfl⟩
  obtain ⟨hoff, hremoved⟩ := W.set_free standard_correct hpool .func_80002008 hnames
  rw [show init.read Cell.used.word = 0 from hzero] at hremoved
  refine ⟨W.ring .pool, hpool, hfree, hoff, hzero, hremoved, fun h => ?_⟩
  rcases (setter_iff initLists init .func_80002008 (idx (1 : Hid))).mp h with
    ⟨q, i, -, hi⟩ | hsame
  · cases hi
  · rw [int_handler_idx, fState_word, hfree] at hsame
    exact absurd hsame (by decide)

end EeKernel.Intr
