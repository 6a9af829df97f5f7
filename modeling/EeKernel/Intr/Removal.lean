import EeKernel.Intr.Controller
import EeKernel.Intr.Init

/-!
# What a Remove charges

`func_80001AB0` and `func_80001CF8` test the id and take the cause as it is: a
live id on another queue is unlinked from where it is, and the word at `entries`
of the named queue, in its table or not, goes down instead.
-/

namespace EeKernel.Intr

variable {L : ListHelpers} {m m' : Mem} {r : Lists} {k : Controller} {cause hid : Word} {i : Hid}

/-- `hid` is on the queue `cause` names in the table of `k`. -/
def OnNamed (r : Lists) (k : Controller) (cause hid : Word) : Prop :=
  ∃ q i, k.Names cause q ∧ hid = idx i ∧ i ∈ r (.queue q)

/-- A Remove that answers takes `hid` off the queue the cause names and counts it there; any
other changes nothing. -/
structure ChargesOwner (L : ListHelpers) (m : Mem) (r : Lists) (k : Controller)
    (cause hid : Word) : Prop where
  answered : (k.remove L m cause hid).2 ≠ -1 →
    ∃ q i, k.Names cause q ∧ hid = idx i ∧ i ∈ r (.queue q) ∧
      (k.remove L m cause hid).1.read (Cell.entries q).word =
        m.read (Cell.entries q).word - 1 ∧
      Counted (k.remove L m cause hid).1 (r.remove q i)
  refused : ¬ OnNamed r k cause hid → k.remove L m cause hid = (m, -1)

/-- The word at `entries` is written last, when `D_8001B400` has gone down already. -/
theorem removeHandler_used (R : Rings m r) (hL : L.Correct) {h : Head} (hi : i ∈ r h)
    (hlive : m.read (Cell.state i).word ≠ 3) (queue : Word) :
    (removeHandler L m queue (idx i)).1.read Cell.used.word ≠ m.read Cell.used.word := by
  have hbad : ¬ badHid (idx i) := not_badHid_iff.mpr ⟨i, R.pos hi, rfl⟩
  have hlive' : m.read (fState (int_handler (idx i))) ≠ 3 := by
    rwa [int_handler_idx, fState_word]
  obtain ⟨-, -, -, hused, -⟩ := takenOff_spec R hL hi
  have hne : ∀ u : Word, u - 1 ≠ u ∧ u - 1 - 1 ≠ u := by
    intro u
    constructor
    · bv_omega
    · bv_omega
  rw [removeHandler_live hbad hlive', Mem.read_write]
  split
  · next h =>
    rw [← h, hused]
    exact (hne _).2
  · rw [hused]
    exact (hne _).1

/-- A Remove charges the right queue exactly if it names it or refuses the id. -/
theorem removal_iff (hL : L.Correct) (W : WellFormed m r) (k : Controller) (cause hid : Word) :
    ChargesOwner L m r k cause hid ↔
      badHid hid ∨ m.read (fState (int_handler hid)) = 3 ∨ OnNamed r k cause hid := by
  constructor
  · intro h
    by_contra hcond
    obtain ⟨hbad, hfree, hoff⟩ : ¬ badHid hid ∧ m.read (fState (int_handler hid)) ≠ 3 ∧
        ¬ OnNamed r k cause hid := by
      simpa only [not_or] using hcond
    obtain ⟨i, hi0, rfl⟩ := not_badHid_iff.mp hbad
    rw [int_handler_idx, fState_word] at hfree
    obtain ⟨q, hi⟩ := W.on_queue hi0 hfree
    have hsame := h.refused hoff
    rw [Controller.remove_eq] at hsame
    exact removeHandler_used W.toRings hL hi hfree (k.queue cause) (by rw [hsame])
  · intro hcond
    by_cases href : badHid hid ∨ m.read (fState (int_handler hid)) = 3
    · have hret : k.remove L m cause hid = (m, -1) :=
        Controller.remove_eq.trans (removeHandler_refused _ href)
      exact ⟨fun hne => absurd (by rw [hret]) hne, fun _ => hret⟩
    · have hon : OnNamed r k cause hid := by
        rcases hcond with h | h | h
        · exact absurd (.inl h) href
        · exact absurd (.inr h) href
        · exact h
      refine ⟨fun _ => ?_, fun hoff => absurd hon hoff⟩
      obtain ⟨q, i, hq, rfl, hi⟩ := hon
      obtain ⟨D, -⟩ := removeHandler_spec (q := q) W.toRings hL hi (W.live hi)
      rw [← hq.queue_eq, ← Controller.remove_eq] at D
      exact ⟨q, i, hq, rfl, hi, D.entries, W.toCounted.remove D hi⟩

theorem removal_iff_one_handler : ∃ r, WellFormed oneHandler r ∧
    (ChargesOwner standard oneHandler r .intc 5 1 ↔
      badHid 1 ∨ oneHandler.read (fState (int_handler 1)) = 3 ∨ OnNamed r .intc 5 1) := by
  obtain ⟨r, i, W, -⟩ := oneHandler_spec
  exact ⟨r, W, removal_iff standard_correct W .intc 5 1⟩

/-- The one handler of INTC cause 0, removed as one of cause 5: queue 0 loses it and still
counts it, queue 5 counts -1. -/
theorem removed_wrong_cause (W : WellFormed m r) (hr : r (.queue (.intc 0)) = [i])
    (hr₅ : r (.queue (.intc 5)) = []) (D : Removed m m' r (.intc 0) (.intc 5) i) :
    Ring m' (.head (.queue (.intc 0))) [] ∧ m'.read (Cell.entries (.intc 0)).word = 1 ∧
      m'.read (Cell.entries (.intc 5)).word = -1 := by
  refine ⟨?_, ?_, ?_⟩
  · have hring := D.rings.ring (.queue (.intc 0))
    rwa [Lists.remove_queue, hr, List.erase_cons_head, List.map_nil] at hring
  · rw [D.frame.cell (by simp [removeCells, links]), W.entries, hr]
    rfl
  · rw [D.entries, W.entries, hr₅]
    rfl

/-- A Remove that names cause 5 for the handler of cause 0 answers -1, as if it had refused, and
takes it off its queue. -/
theorem removal_charges_other :
    ∃ r i, WellFormed oneHandler r ∧ r (.queue (.intc 0)) = [i] ∧
      let res := func_80001AB0 standard oneHandler (idx (5 : Fin 15)) (idx i)
      res.2 = -1 ∧ Ring res.1 (.head (.queue (.intc 0))) [] ∧
      res.1.read (Cell.entries (.intc 0)).word = 1 ∧
      res.1.read (Cell.entries (.intc 5)).word = -1 ∧
      ¬ ChargesOwner standard oneHandler r .intc (idx (5 : Fin 15)) (idx i) := by
  obtain ⟨r, i, W, hr, hempty, -⟩ := oneHandler_spec
  have hi : i ∈ r (.queue (.intc 0)) := by
    rw [hr]
    exact List.mem_singleton_self i
  have hr₅ : r (.queue (.intc 5)) = [] := hempty _ (by simp)
  obtain ⟨D, hret⟩ := removeHandler_spec (q := .intc 5) W.toRings standard_correct hi (W.live hi)
  have hcall : func_80001AB0 standard oneHandler (idx (5 : Fin 15)) (idx i) =
      removeHandler standard oneHandler (Node.head (.queue (.intc 5))).word (idx i) := by
    rw [func_80001AB0, intc_queue_idx]
  rw [W.entries, hr₅] at hret
  rw [← hcall] at D hret
  obtain ⟨hring, he₀, he₅⟩ := removed_wrong_cause W hr hr₅ D
  refine ⟨r, i, W, hr, hret, hring, he₀, he₅, fun h => ?_⟩
  have hoff : ¬ OnNamed r .intc (idx (5 : Fin 15)) (idx i) := by
    intro ⟨q, j, hq, hij, hj⟩
    obtain rfl := hq.unique ⟨5, rfl, rfl⟩
    rw [hr₅] at hj
    cases hj
  have hsame := h.refused hoff
  have hused := removeHandler_used W.toRings standard_correct hi (W.live hi)
    (Node.head (.queue (.intc 5))).word
  rw [← hcall] at hused
  exact hused (congrArg (fun res => res.1.read Cell.used.word) hsame)

end EeKernel.Intr
