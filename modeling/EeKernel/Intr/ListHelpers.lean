import EeKernel.Lib.Circular
import EeKernel.Intr.Layout

/-!
# The list helpers

`func_80006420` (pop), `func_800064B0` (remove) and `func_800064D0` (insert)
live in the segment `asm/list`, which is not part of the source tree.  They are
a parameter of the model, `ListHelpers`, and `ListHelpers.Correct` is what
`intr.c` relies on: on a proper ring, insert links a node immediately before
another in `next` order, remove takes a node out, pop takes some member out and
returns it or returns 0 on the empty ring, and none of them writes a word that
is not a link of that ring or of the node at hand.

`standard` is the usual implementation over `prev` and `next`.
-/

namespace EeKernel.Intr

open EeKernel.Lib

/-- `a->next == b && b->prev == a`. -/
def Linked (m : Mem) (a b : Node) : Prop :=
  m.read (Cell.next a).word = b.word ∧ m.read (Cell.prev b).word = a.word

/-- A proper circular doubly linked list with head `h` and members `l`, in
`next` order. -/
abbrev Ring (m : Mem) (h : Node) (l : List Node) : Prop := Circular (Linked m) h l

def linksOf (ns : List Node) : Set Cell := {c | ∃ n ∈ ns, c = .next n ∨ c = .prev n}

theorem Linked.functional {m : Mem} (a b c : Node) (hb : Linked m a b) (hc : Linked m a c) :
    b = c := Node.word_inj.mp (hb.1.symm.trans hc.1)

/-- The helpers of segment `asm/list`. -/
structure ListHelpers where
  /-- list pop -/
  func_80006420 : Mem → Word → Mem × Word
  /-- list remove -/
  func_800064B0 : Mem → Word → Mem
  /-- list insert -/
  func_800064D0 : Mem → Word → Word → Mem

/-- What the kernel relies on. -/
structure ListHelpers.Correct (L : ListHelpers) : Prop where
  pop_nil : ∀ {m : Mem} {h : Node}, Ring m h [] → L.func_80006420 m h.word = (m, 0)
  pop : ∀ {m : Mem} {h : Node} {l : List Node}, Ring m h l → l ≠ [] →
    ∃ l₁ n l₂, l = l₁ ++ n :: l₂ ∧ (L.func_80006420 m h.word).2 = n.word ∧
      Ring (L.func_80006420 m h.word).1 h (l₁ ++ l₂) ∧
      ChangesOnly (linksOf (h :: l)) m (L.func_80006420 m h.word).1
  remove : ∀ {m : Mem} {h n : Node} {l₁ l₂ : List Node}, Ring m h (l₁ ++ n :: l₂) →
    Ring (L.func_800064B0 m n.word) h (l₁ ++ l₂) ∧
      ChangesOnly (linksOf (h :: (l₁ ++ n :: l₂))) m (L.func_800064B0 m n.word)
  insert : ∀ {m : Mem} {h n : Node} {l₁ l₂ : List Node}, Ring m h (l₁ ++ l₂) →
    n ∉ h :: (l₁ ++ l₂) →
    Ring (L.func_800064D0 m (first h l₂).word n.word) h (l₁ ++ n :: l₂) ∧
      ChangesOnly (linksOf (n :: h :: (l₁ ++ l₂))) m (L.func_800064D0 m (first h l₂).word n.word)

/-- Which member is popped depends on the list only. -/
def ListHelpers.Determined (L : ListHelpers) : Prop :=
  ∀ {m m' : Mem} {h : Node} {l : List Node}, Ring m h l → Ring m' h l →
    (L.func_80006420 m h.word).2 = (L.func_80006420 m' h.word).2

/-! ## The standard implementation -/

/-- `p = n->prev; x = n->next; p->next = x; x->prev = p;` -/
def unlink (m : Mem) (n : Word) : Mem :=
  let p := m.read n
  let x := m.read (fNext n)
  (m.write (fNext p) x).write x p

/-- `n->prev = p->prev; n->next = p; p->prev->next = n; p->prev = n;` -/
def linkBefore (m : Mem) (p n : Word) : Mem :=
  let q := m.read p
  (((m.write n q).write (fNext n) p).write (fNext q) n).write p n

def standard : ListHelpers where
  func_80006420 m l :=
    let n := m.read (fNext l)
    if n = l then (m, 0) else (unlink m n, n)
  func_800064B0 := unlink
  func_800064D0 := linkBefore

theorem unlink_ring {m : Mem} {h n : Node} {l₁ l₂ : List Node} (c : Ring m h (l₁ ++ n :: l₂)) :
    Ring (unlink m n.word) h (l₁ ++ l₂) ∧
      ChangesOnly (linksOf (h :: (l₁ ++ n :: l₂))) m (unlink m n.word) := by
  have hp : m.read n.word = (last h l₁).word := c.rel_prev.2
  have hx : m.read (fNext n.word) = (first h l₂).word := by
    rw [fNext_word]; exact c.rel_next.1
  unfold unlink
  rw [hp, hx]
  simp only [fNext_word, Node.word_eq_prev (first h l₂)]
  constructor
  · apply c.remove
    · simp [Linked, read_write_cell, Node.word_eq_prev]
    · intro a b _ _ ha hb hab
      simpa [Linked, read_write_cell, ha, hb] using hab
  · have hlast : last h l₁ ∈ h :: (l₁ ++ n :: l₂) :=
      List.cons_subset_cons h (List.subset_append_left _ _) last_mem
    have hfirst : first h l₂ ∈ h :: (l₁ ++ n :: l₂) := by
      have hm : first h l₂ ∈ h :: l₂ := first_mem
      simp only [List.mem_cons, List.mem_append] at hm ⊢
      tauto
    refine ((ChangesOnly.refl m).write ?_).write ?_
    · exact ⟨_, hlast, .inl rfl⟩
    · exact ⟨_, hfirst, .inr rfl⟩

theorem linkBefore_ring {m : Mem} {h n : Node} {l₁ l₂ : List Node} (c : Ring m h (l₁ ++ l₂))
    (hn : n ∉ h :: (l₁ ++ l₂)) :
    Ring (linkBefore m (first h l₂).word n.word) h (l₁ ++ n :: l₂) ∧
      ChangesOnly (linksOf (n :: h :: (l₁ ++ l₂))) m (linkBefore m (first h l₂).word n.word) := by
  have hq : m.read (first h l₂).word = (last h l₁).word := c.seam.2
  have hlast : last h l₁ ∈ h :: (l₁ ++ l₂) :=
    List.cons_subset_cons h (List.subset_append_left _ _) last_mem
  have hfirst : first h l₂ ∈ h :: (l₁ ++ l₂) :=
    List.cons_subset_cons h (List.subset_append_right _ _) first_mem
  have hnl : n ≠ last h l₁ := fun e => hn (e ▸ hlast)
  have hnf : n ≠ first h l₂ := fun e => hn (e ▸ hfirst)
  unfold linkBefore
  rw [hq]
  simp only [fNext_word]
  rw [Node.word_eq_prev (first h l₂), Node.word_eq_prev n]
  constructor
  · apply c.insert hn
    · simp [Linked, read_write_cell, hnf, Node.word_eq_prev]
    · simp [Linked, read_write_cell, hnl, Node.word_eq_prev]
    · intro a b ha hb hal hbf hab
      have hna : a ≠ n := fun e => hn (e ▸ ha)
      have hnb : b ≠ n := fun e => hn (e ▸ hb)
      simpa [Linked, read_write_cell, hna, hnb, hal, hbf] using hab
  · have hl := List.mem_cons_of_mem n hlast
    have hf := List.mem_cons_of_mem n hfirst
    have hn : n ∈ n :: h :: (l₁ ++ l₂) := List.mem_cons_self
    refine ((((ChangesOnly.refl m).write ?_).write ?_).write ?_).write ?_
    · exact ⟨_, hn, .inr rfl⟩
    · exact ⟨_, hn, .inl rfl⟩
    · exact ⟨_, hl, .inl rfl⟩
    · exact ⟨_, hf, .inr rfl⟩

theorem standard_correct : standard.Correct where
  pop_nil {m h} c := by
    have hh : m.read (Cell.next h).word = h.word := c.rel_first.1
    simp [standard, hh]
  pop {m h l} c hl := by
    obtain ⟨n, l₂, rfl⟩ := List.exists_cons_of_ne_nil hl
    have hn : m.read (Cell.next h).word = n.word := c.rel_first.1
    have hne : n.word ≠ h.word := by
      rw [Ne, Node.word_inj]
      rintro rfl
      exact c.head_notMem (by simp)
    have c' : Ring m h ([] ++ n :: l₂) := c
    have hu := unlink_ring c'
    refine ⟨[], n, l₂, rfl, ?_⟩
    simp only [standard, fNext_word, hn, if_neg hne]
    exact ⟨trivial, hu⟩
  remove := unlink_ring
  insert := linkBefore_ring

theorem standard_determined : standard.Determined := by
  intro m m' h l c c'
  have hn : m.read (Cell.next h).word = (first h l).word := c.rel_first.1
  have hn' : m'.read (Cell.next h).word = (first h l).word := c'.rel_first.1
  simp only [standard, fNext_word, hn, hn']
  split <;> rfl

end EeKernel.Intr
