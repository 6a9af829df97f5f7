import EeKernel.Intr.Model

/-!
# Thirty-two rings over 128 descriptors

`Rings m r` is the pointer-level part of every invariant of the registry: the
pool and each queue is a proper ring whose members are exactly `r` of its head,
and no descriptor is on two of them.  The list helpers move one descriptor at a
time, so each of `insert`, `remove` and `pop` replaces the members of one head
and leaves every other ring alone.  Descriptors may be on no ring at all.
-/

namespace EeKernel.Intr

open EeKernel.Lib

/-- The members of each list, in `next` order. -/
abbrev Lists := Head → List Hid

/-- The links of the list heads and of `int_handler[1..128]`. -/
def links : Set Cell := {c | ∃ n, n ≠ Node.hnd 0 ∧ (c = .next n ∨ c = .prev n)}

structure Rings (m : Mem) (r : Lists) : Prop where
  ring : ∀ h, Ring m (.head h) ((r h).map .hnd)
  disj : ∀ {i h h'}, i ∈ r h → i ∈ r h' → h = h'
  pos : ∀ {i h}, i ∈ r h → i ≠ 0

@[simp] theorem mem_map_hnd {i : Hid} {l : List Hid} : Node.hnd i ∈ l.map Node.hnd ↔ i ∈ l := by
  simp

theorem linksOf_subset_links {ns : List Node} (h : ∀ n ∈ ns, n ≠ Node.hnd 0) :
    linksOf ns ⊆ links := fun _ ⟨n, hn, hc⟩ => ⟨n, h n hn, hc⟩

section Ring

variable {m m' : Mem} {h : Node} {l : List Node}

/-- A ring is made of links only. -/
theorem Ring.frame {cs : Set Cell} (R : Ring m h l) (hm : ChangesOnly cs m m')
    (hd : ∀ n, Cell.next n ∉ cs ∧ Cell.prev n ∉ cs) : Ring m' h l :=
  R.congr fun a b _ _ hab =>
    ⟨(hm.cell (hd a).1).trans hab.1, (hm.cell (hd b).2).trans hab.2⟩

theorem Ring.hids_unique {l l' : List Hid} (R : Ring m h (l.map .hnd))
    (R' : Ring m h (l'.map .hnd)) : l = l' := by
  have hmap := R.unique Linked.functional R'
  exact List.map_injective_iff.mpr (fun a b hab => by simpa using hab) hmap

end Ring

namespace Rings

variable {L : ListHelpers} {m m' : Mem} {r : Lists} {h : Head} {i : Hid} {l l₁ l₂ : List Hid}

theorem nodup (R : Rings m r) (h : Head) : (r h).Nodup := (R.ring h).nodup_tail.of_map

theorem frame {cs : Set Cell} (R : Rings m r) (hm : ChangesOnly cs m m')
    (hd : ∀ n, Cell.next n ∉ cs ∧ Cell.prev n ∉ cs) : Rings m' r where
  ring h := (R.ring h).frame hm hd
  disj := R.disj
  pos := R.pos

theorem write (R : Rings m r) {c : Cell} {v : Word} (hd : ∀ n, c ≠ .next n ∧ c ≠ .prev n) :
    Rings (m.write c.word v) r :=
  R.frame ((ChangesOnly.refl m).write (Set.mem_singleton c)) fun n =>
    ⟨fun hn => (hd n).1 hn.symm, fun hn => (hd n).2 hn.symm⟩

/-- Replacing the members of one head, by an edit that touches no other ring. -/
theorem edit (R : Rings m r) {ns : List Node} (hring : Ring m' (.head h) (l.map .hnd))
    (hm : ChangesOnly (linksOf ns) m m')
    (hns : ∀ n ∈ ns, n = .head h ∨ ∃ i, n = .hnd i ∧ ∀ h', h' ≠ h → i ∉ r h')
    (hl : ∀ i ∈ l, i ≠ 0 ∧ ∀ h', h' ≠ h → i ∉ r h') : Rings m' (Function.update r h l) where
  ring h' := by
    by_cases hh : h' = h
    · subst hh
      simpa using hring
    · rw [Function.update_of_ne hh]
      have hoff : ∀ n ∈ Node.head h' :: (r h').map .hnd, n ∉ ns := by
        intro n hn hmem
        rcases hns n hmem with rfl | ⟨i, rfl, hi⟩
        · simp only [List.mem_cons, Node.head.injEq, List.mem_map, reduceCtorEq, and_false,
            exists_false, or_false] at hn
          exact hh hn.symm
        · exact hi h' hh (by simpa using hn)
      refine (R.ring h').congr fun a b ha hb hab => ⟨?_, ?_⟩
      · refine (hm.cell ?_).trans hab.1
        rintro ⟨n, hn, he | he⟩ <;> cases he
        exact hoff a ha hn
      · refine (hm.cell ?_).trans hab.2
        rintro ⟨n, hn, he | he⟩ <;> cases he
        exact hoff b hb hn
  disj {i h₁ h₂} h₁m h₂m := by
    by_cases e₁ : h₁ = h <;> by_cases e₂ : h₂ = h
    · rw [e₁, e₂]
    · subst e₁
      rw [Function.update_self] at h₁m
      rw [Function.update_of_ne e₂] at h₂m
      exact absurd h₂m ((hl i h₁m).2 h₂ e₂)
    · subst e₂
      rw [Function.update_self] at h₂m
      rw [Function.update_of_ne e₁] at h₁m
      exact absurd h₁m ((hl i h₂m).2 h₁ e₁)
    · rw [Function.update_of_ne e₁] at h₁m
      rw [Function.update_of_ne e₂] at h₂m
      exact R.disj h₁m h₂m
  pos {i h'} hi := by
    by_cases e : h' = h
    · subst e
      rw [Function.update_self] at hi
      exact (hl i hi).1
    · rw [Function.update_of_ne e] at hi
      exact R.pos hi

theorem notMem_of_ne (R : Rings m r) {h' : Head} (hi : i ∈ r h) (hh : h' ≠ h) : i ∉ r h' :=
  fun hi' => hh (R.disj hi' hi)

/-- Off its list, a descriptor is on none. -/
theorem notMem_erased (R : Rings m r) (hi : i ∈ r h) (h' : Head) :
    i ∉ Function.update r h ((r h).erase i) h' := by
  by_cases hh : h' = h
  · subst hh
    rw [Function.update_self]
    exact (R.nodup h').not_mem_erase
  · rw [Function.update_of_ne hh]
    exact R.notMem_of_ne hi hh

/-- Taking nodes of one list, the edit touches no other ring. -/
theorem own_nodes (R : Rings m r) (n : Node) (hn : n ∈ Node.head h :: (r h).map .hnd) :
    n = .head h ∨ ∃ i, n = .hnd i ∧ ∀ h', h' ≠ h → i ∉ r h' := by
  rcases List.mem_cons.mp hn with rfl | hn
  · exact .inl rfl
  · obtain ⟨i, hi, rfl⟩ := List.mem_map.mp hn
    exact .inr ⟨i, rfl, fun h' hh => R.notMem_of_ne hi hh⟩

theorem own_ne_zero (R : Rings m r) (n : Node) (hn : n ∈ Node.head h :: (r h).map .hnd) :
    n ≠ .hnd 0 := by
  rintro rfl
  simp only [List.mem_cons, reduceCtorEq, false_or, mem_map_hnd] at hn
  exact R.pos hn rfl

theorem insert (R : Rings m r) (hL : L.Correct) (hoff : ∀ h, i ∉ r h) (hi : i ≠ 0)
    (hr : r h = l₁ ++ l₂) :
    let m' := L.func_800064D0 m (first (Node.head h) (l₂.map .hnd)).word (Node.hnd i).word
    Rings m' (Function.update r h (l₁ ++ i :: l₂)) ∧ ChangesOnly links m m' := by
  have hring := R.ring h
  rw [hr, List.map_append] at hring
  have hn : Node.hnd i ∉ Node.head h :: (l₁.map Node.hnd ++ l₂.map .hnd) := by
    rw [← List.map_append, ← hr]
    simpa using hoff h
  obtain ⟨hnew, hm⟩ := hL.insert hring hn
  rw [← List.map_append, ← hr] at hm
  constructor
  · apply R.edit (by simpa using hnew) hm
    · intro n hn
      rcases List.mem_cons.mp hn with rfl | hn
      · exact .inr ⟨i, rfl, fun h' _ => hoff h'⟩
      · exact R.own_nodes n hn
    · intro j hj
      rcases List.mem_append.mp hj with hj | hj
      · have hjr : j ∈ r h := by rw [hr]; exact List.mem_append_left _ hj
        exact ⟨R.pos hjr, fun h' hh => R.notMem_of_ne hjr hh⟩
      · rcases List.mem_cons.mp hj with rfl | hj
        · exact ⟨hi, fun h' _ => hoff h'⟩
        · have hjr : j ∈ r h := by rw [hr]; exact List.mem_append_right _ hj
          exact ⟨R.pos hjr, fun h' hh => R.notMem_of_ne hjr hh⟩
  · refine hm.mono (linksOf_subset_links fun n hn => ?_)
    rcases List.mem_cons.mp hn with rfl | hn
    · simpa using hi
    · exact R.own_ne_zero n hn

theorem rest_mem (R : Rings m r) (hr : r h = l₁ ++ i :: l₂) (j : Hid) (hj : j ∈ l₁ ++ l₂) :
    j ≠ 0 ∧ ∀ h', h' ≠ h → j ∉ r h' := by
  have hjr : j ∈ r h := by
    rw [hr]
    simp only [List.mem_append, List.mem_cons] at hj ⊢
    tauto
  exact ⟨R.pos hjr, fun h' hh => R.notMem_of_ne hjr hh⟩

theorem remove (R : Rings m r) (hL : L.Correct) (hr : r h = l₁ ++ i :: l₂) :
    let m' := L.func_800064B0 m (Node.hnd i).word
    Rings m' (Function.update r h (l₁ ++ l₂)) ∧ ChangesOnly links m m' := by
  have hring := R.ring h
  rw [hr, List.map_append, List.map_cons] at hring
  obtain ⟨hnew, hm⟩ := hL.remove hring
  rw [← List.map_cons, ← List.map_append, ← hr] at hm
  exact ⟨R.edit (by simpa using hnew) hm R.own_nodes (R.rest_mem hr),
    hm.mono (linksOf_subset_links R.own_ne_zero)⟩

/-- Popping some descriptor from a list that has one. -/
theorem pop (R : Rings m r) (hL : L.Correct) (hne : r h ≠ []) :
    ∃ l₁ i l₂, r h = l₁ ++ i :: l₂ ∧
      (L.func_80006420 m (Node.head h).word).2 = (Node.hnd i).word ∧
      Rings (L.func_80006420 m (Node.head h).word).1 (Function.update r h (l₁ ++ l₂)) ∧
      ChangesOnly links m (L.func_80006420 m (Node.head h).word).1 := by
  obtain ⟨k₁, n, k₂, hk, hret, hnew, hm⟩ := hL.pop (R.ring h) (by simpa using hne)
  obtain ⟨l₁, l', hr, rfl, hl'⟩ := List.map_eq_append_iff.mp hk
  obtain ⟨i, l₂, rfl, rfl, rfl⟩ := List.map_eq_cons_iff.mp hl'
  exact ⟨l₁, i, l₂, hr, hret,
    R.edit (by simpa using hnew) hm R.own_nodes (R.rest_mem hr),
    hm.mono (linksOf_subset_links R.own_ne_zero)⟩

/-- The members are determined by memory. -/
theorem unique {r' : Lists} (R : Rings m r) (R' : Rings m r') : r = r' := by
  funext h
  exact (R.ring h).hids_unique (R'.ring h)

end Rings

end EeKernel.Intr
