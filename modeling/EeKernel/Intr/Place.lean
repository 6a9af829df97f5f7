import Mathlib.Data.List.Perm.Basic
import EeKernel.Intr.Rings

/-!
# Where an Add puts a descriptor

The list side of the registry: `place` is the position the argument `next`
names, `Lists.add` and `Lists.remove` move one descriptor between the pool and
a queue.  The last section relates C indices to descriptors and queues.
-/

namespace EeKernel.Intr

/-- `i` immediately before the descriptor `next` names, in `next` order. -/
def insertBefore (next : Word) (i : Hid) : List Hid → List Hid
  | [] => [i]
  | j :: l => if idx j = next then i :: j :: l else j :: insertBefore next i l

/-- The position `next` names: -1 the end, 0 the front, otherwise before a live id. -/
def place (next : Word) (i : Hid) (l : List Hid) : List Hid :=
  if next = -1 then l ++ [i] else if next = 0 then i :: l else insertBefore next i l

/-- `next` is one of the positions a caller may name in the queue `l`. -/
def Anchored (next : Word) (l : List Hid) : Prop := next = -1 ∨ next = 0 ∨ ∃ j ∈ l, next = idx j

instance (next : Word) (l : List Hid) : Decidable (Anchored next l) :=
  inferInstanceAs (Decidable (_ ∨ _ ∨ _))

theorem insertBefore_perm (next : Word) (i : Hid) (l : List Hid) :
    (insertBefore next i l).Perm (i :: l) := by
  induction l with
  | nil => exact List.Perm.refl _
  | cons j l ih =>
    unfold insertBefore
    split
    · exact List.Perm.refl _
    · exact (ih.cons j).trans (List.Perm.swap i j l)

theorem place_perm (next : Word) (i : Hid) (l : List Hid) : (place next i l).Perm (i :: l) := by
  unfold place
  split
  · exact List.perm_append_singleton i l
  · split
    · exact List.Perm.refl _
    · exact insertBefore_perm next i l

@[simp] theorem mem_place {next : Word} {i j : Hid} {l : List Hid} :
    j ∈ place next i l ↔ j = i ∨ j ∈ l := by
  rw [(place_perm next i l).mem_iff, List.mem_cons]

@[simp] theorem length_place (next : Word) (i : Hid) (l : List Hid) :
    (place next i l).length = l.length + 1 := (place_perm next i l).length_eq

theorem place_neg_one (i : Hid) (l : List Hid) : place (-1) i l = l ++ [i] := rfl

theorem place_zero (i : Hid) (l : List Hid) : place 0 i l = i :: l := rfl

theorem notMem_of_nodup {i : Hid} {l₁ l₂ : List Hid} (hn : (l₁ ++ i :: l₂).Nodup) : i ∉ l₁ := by
  intro hi
  exact (List.nodup_append.mp hn).2.2 i hi i List.mem_cons_self rfl

/-- A member that occurs once splits the list where it is erased. -/
theorem erase_middle {i : Hid} {l₁ l₂ : List Hid} (hn : (l₁ ++ i :: l₂).Nodup) :
    (l₁ ++ i :: l₂).erase i = l₁ ++ l₂ := by
  rw [List.erase_append_right _ (notMem_of_nodup hn), List.erase_cons_head]

namespace Lists

/-- Move `i` from the pool to where `next` says on queue `q`. -/
def add (r : Lists) (q : Queue) (next : Word) (i : Hid) : Lists :=
  Function.update (Function.update r .pool ((r .pool).erase i)) (.queue q)
    (place next i (r (.queue q)))

/-- Move `i` from queue `q` to the end of the pool. -/
def remove (r : Lists) (q : Queue) (i : Hid) : Lists :=
  Function.update (Function.update r (.queue q) ((r (.queue q)).erase i)) .pool (r .pool ++ [i])

@[simp] theorem add_pool (r : Lists) (q : Queue) (next : Word) (i : Hid) :
    r.add q next i .pool = (r .pool).erase i := by
  simp [add]

@[simp] theorem add_queue (r : Lists) (q : Queue) (next : Word) (i : Hid) :
    r.add q next i (.queue q) = place next i (r (.queue q)) := by
  simp [add]

theorem add_queue_of_ne (r : Lists) {q q' : Queue} (next : Word) (i : Hid) (h : q' ≠ q) :
    r.add q next i (.queue q') = r (.queue q') := by
  simp [add, h]

@[simp] theorem remove_pool (r : Lists) (q : Queue) (i : Hid) :
    r.remove q i .pool = r .pool ++ [i] := by
  simp [remove]

@[simp] theorem remove_queue (r : Lists) (q : Queue) (i : Hid) :
    r.remove q i (.queue q) = (r (.queue q)).erase i := by
  simp [remove]

theorem mem_add_queue {r : Lists} {q q' : Queue} {next : Word} {i j : Hid}
    (hj : j ∈ r.add q next i (.queue q')) : j = i ∨ j ≠ i ∧ j ∈ r (.queue q') := by
  by_cases hji : j = i
  · exact .inl hji
  refine .inr ⟨hji, ?_⟩
  by_cases hq : q' = q
  · subst hq
    rw [add_queue, mem_place] at hj
    exact hj.resolve_left hji
  · rwa [add_queue_of_ne _ _ _ hq] at hj

theorem remove_queue_of_ne (r : Lists) {q q' : Queue} (i : Hid) (h : q' ≠ q) :
    r.remove q i (.queue q') = r (.queue q') := by
  simp [remove, h]

end Lists

theorem Rings.mem_remove_queue {m : Mem} {r : Lists} (R : Rings m r) {q q' : Queue} {i j : Hid}
    (hi : i ∈ r (.queue q)) (hj : j ∈ r.remove q i (.queue q')) : j ≠ i ∧ j ∈ r (.queue q') := by
  by_cases hq : q' = q
  · subst hq
    rw [Lists.remove_queue, (R.nodup _).mem_erase_iff] at hj
    exact hj
  · rw [Lists.remove_queue_of_ne _ _ hq] at hj
    refine ⟨?_, hj⟩
    rintro rfl
    exact hq (by simpa using R.disj hj hi)

/-! ## C indices -/

theorem idx_inj {n : Nat} (hn : n ≤ 2 ^ 32) {i j : Fin n} : idx i = idx j ↔ i = j := by
  constructor
  · intro h
    exact Fin.ext (ofNat_inj (by omega) (by omega) h)
  · rintro rfl
    rfl

@[simp] theorem idx_hid_inj {i j : Hid} : idx i = idx j ↔ i = j := idx_inj (by omega)

theorem toNat_idx {n : Nat} (hn : n ≤ 2 ^ 32) (i : Fin n) : (idx i).toNat = i := by
  rw [idx, BitVec.toNat_ofNat, Nat.mod_eq_of_lt (by omega)]

theorem exists_idx {n : Nat} {w : Word} (h : w.toNat < n) : ∃ i : Fin n, w = idx i := by
  refine ⟨⟨w.toNat, h⟩, ?_⟩
  simp [idx]

@[simp] theorem int_handler_idx (i : Hid) : int_handler (idx i) = (Node.hnd i).word := by
  simp only [int_handler, idx, Node.word, Node.addr, BitVec.ofNat_add, BitVec.ofNat_mul]
  rfl

@[simp] theorem intc_queue_idx (c : Fin 15) :
    intc_queue (idx c) = (Node.head (.queue (.intc c))).word := by
  simp only [intc_queue, idx, Node.word, Node.addr, Head.addr, Queue.addr, BitVec.ofNat_add,
    BitVec.ofNat_mul]
  rfl

@[simp] theorem dmac_queue_idx (c : Fin 16) :
    dmac_queue (idx c) = (Node.head (.queue (.dmac c))).word := by
  simp only [dmac_queue, idx, Node.word, Node.addr, Head.addr, Queue.addr, BitVec.ofNat_add,
    BitVec.ofNat_mul]
  rfl

@[simp] theorem sbus_int_handler_idx (k : Fin 32) :
    sbus_int_handler (idx k) = (Cell.sbus k).word := by
  simp only [sbus_int_handler, idx, Cell.word, Cell.addr, BitVec.ofNat_add, BitVec.ofNat_mul]
  rfl

theorem idx_ne_neg_one_of_lt {n : Nat} (hn : n < 2 ^ 32) (i : Fin n) : idx i ≠ (-1 : Word) := by
  intro h
  have h' := congrArg BitVec.toNat h
  rw [toNat_idx (by omega)] at h'
  have : ((-1 : Word)).toNat = 4294967295 := by decide
  omega

theorem idx_ne_neg_one (i : Hid) : idx i ≠ (-1 : Word) := idx_ne_neg_one_of_lt (by omega) i

theorem idx_eq_zero {i : Hid} : idx i = (0 : Word) ↔ i = 0 :=
  idx_hid_inj (j := 0)

theorem place_idx {j : Hid} (hj0 : j ≠ 0) (i : Hid) {k₁ : List Hid} (hj : j ∉ k₁)
    (k₂ : List Hid) : place (idx j) i (k₁ ++ j :: k₂) = k₁ ++ i :: j :: k₂ := by
  rw [place, if_neg (idx_ne_neg_one j), if_neg (fun h => hj0 (idx_eq_zero.mp h))]
  induction k₁ with
  | nil => simp [insertBefore]
  | cons x k₁ ih =>
    have hx : j ≠ x := fun h => hj (h ▸ List.mem_cons_self)
    have hj' : j ∉ k₁ := fun h => hj (List.mem_cons_of_mem x h)
    simp [insertBefore, Ne.symm hx, ih hj']

/-- The ids `badHid` lets through are 1..128. -/
theorem not_badHid_iff {w : Word} : ¬ badHid w ↔ ∃ i : Hid, i ≠ 0 ∧ w = idx i := by
  constructor
  · intro h
    have h2 : (w - 1).toNat ≤ 0x7f := by
      by_contra hc
      exact h (.inr (by omega))
    have hw : w.toNat ≠ 0 := by
      intro h0
      have : w = 0 := by
        apply BitVec.eq_of_toNat_eq
        simpa using h0
      subst this
      revert h2
      decide
    have hlt : w.toNat < 129 := by
      rw [BitVec.toNat_sub] at h2
      have : (1 : Word).toNat = 1 := by decide
      have := w.isLt
      omega
    obtain ⟨i, rfl⟩ := exists_idx hlt
    refine ⟨i, ?_, rfl⟩
    rintro rfl
    exact hw (toNat_idx (by omega) 0)
  · rintro ⟨i, hi, rfl⟩ h
    have hpos : (i : Nat) ≠ 0 := fun e => hi (Fin.ext e)
    rcases h with h | h
    · rw [BitVec.toInt_eq_toNat_of_lt] at h
      · omega
      · rw [toNat_idx (by omega)]
        omega
    · rw [BitVec.toNat_sub, toNat_idx (by omega)] at h
      have : (1 : Word).toNat = 1 := by decide
      omega

@[simp] theorem handlerIndex_word (i : Hid) : handlerIndex (Node.hnd i).word = idx i := by
  have h : (Node.hnd i).word - int_handler 0 = BitVec.ofNat 32 (24 * i) := by
    simp only [Node.word, Node.addr, BitVec.ofNat_add]
    have : int_handler 0 = BitVec.ofNat 32 0x8001B590 := by decide
    rw [this, BitVec.add_comm, BitVec.add_sub_cancel]
  have hi : (BitVec.ofNat 32 (24 * i)).toNat = 24 * i := by
    rw [BitVec.toNat_ofNat, Nat.mod_eq_of_lt (by omega)]
  rw [handlerIndex, h, BitVec.toInt_eq_toNat_of_lt (by rw [hi]; omega), hi]
  have hd : ((24 * (i : Nat) : Nat) : Int).tdiv 24 = ((i : Nat) : Int) := by
    push_cast
    rw [Int.mul_tdiv_cancel_left _ (by decide)]
  rw [hd]
  rfl

end EeKernel.Intr
