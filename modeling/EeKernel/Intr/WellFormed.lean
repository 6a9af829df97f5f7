import Mathlib.Data.Fintype.Card
import EeKernel.Intr.Ops

/-!
# The registry invariant

`Counted` adds to the rings that `entries` is the length of each queue.
`WellFormed` is the full invariant: the 128 descriptors are shared out between
the pool and the queues, state 3 marks exactly the pool, and `D_8001B400`
counts the descriptors off it.  Each operation of `Ops` keeps both.
-/

namespace EeKernel.Intr

variable {L : ListHelpers} {m m' : Mem} {r : Lists} {q : Queue} {i : Hid}
  {gp handler next arg unk : Word}

structure Counted (m : Mem) (r : Lists) : Prop extends Rings m r where
  entries : ∀ q, m.read (Cell.entries q).word = BitVec.ofNat 32 (r (.queue q)).length

structure WellFormed (m : Mem) (r : Lists) : Prop extends Counted m r where
  cover : ∀ {i}, i ≠ 0 → ∃ h, i ∈ r h
  state : ∀ {i}, i ≠ 0 → (m.read (Cell.state i).word = 3 ↔ i ∈ r .pool)
  used : m.read Cell.used.word = BitVec.ofNat 32 (128 - (r .pool).length)

theorem length_le {l : List Hid} (hn : l.Nodup) (h0 : ∀ i ∈ l, i ≠ 0) : l.length ≤ 128 := by
  have hc : (0 :: l).Nodup := List.nodup_cons.mpr ⟨fun h => h0 0 h rfl, hn⟩
  have hle := List.Nodup.length_le_card hc
  rw [List.length_cons, Fintype.card_fin] at hle
  omega

theorem Rings.length_le (R : Rings m r) (h : Head) : (r h).length ≤ 128 :=
  Intr.length_le (R.nodup h) fun _ hi => R.pos hi

/-! ## What the registry is made of -/

/-- The words of the registry: all but the VSYNC pointers and the SBUS table. -/
def Cell.Registry : Cell → Prop
  | .vsyncFlag | .vsyncCsr | .sbus _ => False
  | _ => True

/-- `m'` holds the registry of `m`. -/
def SameRegistry (m m' : Mem) : Prop := ∀ c : Cell, c.Registry → m'.read c.word = m.read c.word

namespace SameRegistry

theorem refl (m : Mem) : SameRegistry m m := fun _ _ => rfl

theorem trans {m'' : Mem} (h : SameRegistry m m') (h' : SameRegistry m' m'') :
    SameRegistry m m'' := fun c hc => (h' c hc).trans (h c hc)

theorem of_changesOnly {cs : Set Cell} (h : ChangesOnly cs m m') (hcs : ∀ c ∈ cs, ¬ c.Registry) :
    SameRegistry m m' := fun c hc => h.cell fun hmem => hcs c hmem hc

end SameRegistry

theorem Rings.congr (R : Rings m r) (hs : SameRegistry m m') : Rings m' r where
  ring h := (R.ring h).congr fun a b _ _ hab =>
    ⟨(hs (.next a) trivial).trans hab.1, (hs (.prev b) trivial).trans hab.2⟩
  disj := R.disj
  pos := R.pos

namespace Counted

theorem congr (C : Counted m r) (hs : SameRegistry m m') : Counted m' r where
  toRings := C.toRings.congr hs
  entries q := (hs (.entries q) trivial).trans (C.entries q)

theorem setState (C : Counted m r) (i : Hid) (v : Word) :
    Counted (m.write (Cell.state i).word v) r where
  toRings := C.toRings.write fun n => by simp
  entries q := by rw [read_write_cell, if_neg (by simp), C.entries q]

theorem add (C : Counted m r) (A : Added m m' r q i gp handler next arg unk) :
    Counted m' (r.add q next i) where
  toRings := A.rings
  entries q' := by
    by_cases hq : q' = q
    · subst hq
      rw [A.entries, C.entries, ofNat_succ, Lists.add_queue, length_place]
    · rw [A.frame.cell (by simp [addCells, links, hq]), C.entries, Lists.add_queue_of_ne _ _ _ hq]

theorem remove (C : Counted m r) (D : Removed m m' r q q i) (hi : i ∈ r (.queue q)) :
    Counted m' (r.remove q i) where
  toRings := D.rings
  entries q' := by
    by_cases hq : q' = q
    · subst hq
      rw [D.entries, C.entries, ofNat_pred (List.length_pos_of_mem hi), Lists.remove_queue,
        List.length_erase_of_mem hi]
    · rw [D.frame.cell (by simp [removeCells, links, hq]), C.entries,
        Lists.remove_queue_of_ne _ _ hq]

end Counted

namespace WellFormed

theorem live (W : WellFormed m r) {q : Queue} {j : Hid} (hj : j ∈ r (.queue q)) :
    m.read (Cell.state j).word ≠ 3 := by
  intro h
  have := W.disj hj ((W.state (W.pos hj)).mp h)
  simp at this

/-- An id that is not free is on a queue. -/
theorem on_queue (W : WellFormed m r) {j : Hid} (hj0 : j ≠ 0)
    (hj : m.read (Cell.state j).word ≠ 3) : ∃ q, j ∈ r (.queue q) := by
  obtain ⟨h, hjh⟩ := W.cover hj0
  cases h with
  | pool => exact absurd ((W.state hj0).mpr hjh) hj
  | queue q => exact ⟨q, hjh⟩

theorem cover_add (W : WellFormed m r) (q : Queue) (next : Word) (i : Hid) {j : Hid}
    (hj : j ≠ 0) : ∃ h, j ∈ r.add q next i h := by
  obtain ⟨h, hjh⟩ := W.cover hj
  by_cases hji : j = i
  · exact ⟨.queue q, by simp [hji]⟩
  cases h with
  | pool => exact ⟨.pool, by rw [Lists.add_pool]; exact (List.mem_erase_of_ne hji).mpr hjh⟩
  | queue q' =>
    by_cases hq : q' = q
    · subst hq
      exact ⟨.queue q', by simp [hjh]⟩
    · exact ⟨.queue q', by rw [Lists.add_queue_of_ne _ _ _ hq]; exact hjh⟩

/-- `func_800018F0` or `func_80001B50` handed out `i`. -/
theorem add (W : WellFormed m r) (A : Added m m' r q i gp handler next arg unk) (hunk : unk ≠ 3) :
    WellFormed m' (r.add q next i) where
  toCounted := W.toCounted.add A
  cover hj := W.cover_add q next i hj
  state {j} hj := by
    rw [Lists.add_pool]
    by_cases hji : j = i
    · subst hji
      rw [A.state]
      exact ⟨fun h => absurd h hunk, fun h => absurd h (W.nodup .pool).not_mem_erase⟩
    · rw [A.frame.cell (by simp [addCells, links, hji]), W.state hj, List.mem_erase_of_ne hji]
  used := by
    have hle := W.length_le .pool
    have hpos := List.length_pos_of_mem A.free
    rw [A.used, W.used, ofNat_succ, Lists.add_pool, List.length_erase_of_mem A.free]
    congr 1
    omega

theorem add_intc (W : WellFormed m r) (hL : L.Correct) (hp : r .pool ≠ []) (c : Fin 15)
    (gp handler next arg unk : Word) (ha : Anchored next (r (.queue (.intc c))))
    (hok : ¬ (unk ≠ 0 ∧ c = INTC_SBUS)) (hunk : unk ≠ 3) :
    ∃ i, Added m (func_800018F0 L m gp (idx c) handler next arg unk).1 r (.intc c) i
        gp handler next arg unk ∧
      (func_800018F0 L m gp (idx c) handler next arg unk).2 = idx i ∧
      WellFormed (func_800018F0 L m gp (idx c) handler next arg unk).1
        (r.add (.intc c) next i) := by
  rw [func_800018F0_idx, if_neg hok]
  obtain ⟨i, -, hA, hret⟩ := addHandler_cons gp handler arg unk W.toRings hL hp ha
    fun j hj => W.live hj
  exact ⟨i, hA, hret, W.add hA hunk⟩

/-- `func_80001AB0` or `func_80001CF8` took `i` off its queue. -/
theorem remove (W : WellFormed m r) (D : Removed m m' r q q i) (hi : i ∈ r (.queue q)) :
    WellFormed m' (r.remove q i) where
  toCounted := W.toCounted.remove D hi
  cover {j} hj := by
    obtain ⟨h, hjh⟩ := W.cover hj
    by_cases hji : j = i
    · exact ⟨.pool, by simp [hji]⟩
    cases h with
    | pool => exact ⟨.pool, by simp [hjh]⟩
    | queue q' =>
      by_cases hq : q' = q
      · subst hq
        exact ⟨.queue q', by rw [Lists.remove_queue]; exact (List.mem_erase_of_ne hji).mpr hjh⟩
      · exact ⟨.queue q', by rw [Lists.remove_queue_of_ne _ _ hq]; exact hjh⟩
  state {j} hj := by
    rw [Lists.remove_pool, List.mem_append, List.mem_singleton]
    by_cases hji : j = i
    · subst hji
      simp [D.state]
    · rw [D.frame.cell (by simp [removeCells, links, hji]), W.state hj]
      simp [hji]
  used := by
    have hoff : i ∉ r .pool := W.notMem_of_ne hi (by simp)
    have hle : (i :: r .pool).length ≤ 128 := by
      refine Intr.length_le (List.nodup_cons.mpr ⟨hoff, W.nodup .pool⟩) fun j hj => ?_
      rcases List.mem_cons.mp hj with rfl | hj
      · exact W.pos hi
      · exact W.pos hj
    rw [List.length_cons] at hle
    rw [D.used, W.used, ofNat_pred (by omega), Lists.remove_pool, List.length_append,
      List.length_singleton]
    congr 1

theorem setState (W : WellFormed m r) (hi : i ∈ r (.queue q)) {v : Word} (hv : v ≠ 3) :
    WellFormed (m.write (Cell.state i).word v) r where
  toCounted := W.toCounted.setState i v
  cover := W.cover
  state {j} hj := by
    rw [read_write_cell]
    by_cases hji : j = i
    · subst hji
      have hoff : j ∉ r .pool := W.notMem_of_ne hi (by simp)
      rw [if_pos rfl]
      exact ⟨fun h => absurd h hv, fun h => absurd h hoff⟩
    · rw [if_neg (by simpa using hji), W.state hj]
  used := by rw [read_write_cell, if_neg (by simp), W.used]

/-- The registry is determined by its own words. -/
theorem congr (W : WellFormed m r) (hs : SameRegistry m m') : WellFormed m' r where
  toCounted := W.toCounted.congr hs
  cover := W.cover
  state hj := by rw [hs (.state _) trivial, W.state hj]
  used := (hs .used trivial).trans W.used

end WellFormed

end EeKernel.Intr
