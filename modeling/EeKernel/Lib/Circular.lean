import Mathlib.Data.List.Chain
import Mathlib.Data.List.Nodup

/-!
# Circular lists over a link relation

`Circular R h l` says that the walk `h → l → h` follows `R` at every step and
meets no node twice: `h` is the head of a circular list whose members, in the
order of the walk, are `l`.  Nothing here depends on how a link is stored; a
doubly linked ring is the instance where `R a b` asks for both the forward link
of `a` and the backward link of `b`.

An edit of a ring is local: it changes the links at one seam, and every link
whose source is not the node before the seam is kept.  `Circular.insert` and
`Circular.remove` are the two edits, `Circular.congr` is the frame rule.
-/

namespace EeKernel.Lib

variable {α : Type} {R S : α → α → Prop} {h a b n : α} {l l₁ l₂ : List α}

/-- The node a walk reaches when it enters `l` with `h` behind it. -/
def first (h : α) : List α → α
  | [] => h
  | a :: _ => a

/-- The node a walk leaves `l` from when it entered from `h`. -/
def last (h : α) : List α → α
  | [] => h
  | a :: l => last a l

@[simp] theorem first_nil : first h [] = h := rfl

@[simp] theorem first_cons : first h (a :: l) = a := rfl

@[simp] theorem last_nil : last h [] = h := rfl

@[simp] theorem last_cons : last h (a :: l) = last a l := rfl

@[simp] theorem last_concat : last h (l ++ [a]) = a := by
  induction l generalizing h with
  | nil => rfl
  | cons b l ih => exact ih

theorem first_mem : first h l ∈ h :: l := by
  cases l <;> simp

theorem last_mem : last h l ∈ h :: l := by
  induction l generalizing h with
  | nil => simp
  | cons a l ih => exact List.mem_cons_of_mem _ ih

/-- The nodes of `h :: l` are the nodes before the last one, then the last. -/
theorem exists_eq_concat_last (h : α) (l : List α) : ∃ k, h :: l = k ++ [last h l] := by
  induction l generalizing h with
  | nil => exact ⟨[], rfl⟩
  | cons a l ih =>
    obtain ⟨k, hk⟩ := ih a
    exact ⟨h :: k, congrArg (h :: ·) hk⟩

/-- The way back to `h` starts at the first node. -/
theorem exists_eq_first_cons (h : α) (l : List α) : ∃ k, l ++ [h] = first h l :: k := by
  cases l with
  | nil => exact ⟨[], rfl⟩
  | cons a l => exact ⟨l ++ [h], rfl⟩

/-- `h` heads a circular list with members `l`, linked by `R`. -/
structure Circular (R : α → α → Prop) (h : α) (l : List α) : Prop where
  nodup : (h :: l).Nodup
  chain : List.IsChain R (h :: (l ++ [h]))

/-- A chain splits at a seam into two chains and the link between them. -/
theorem isChain_seam :
    List.IsChain R (h :: (l₁ ++ l₂ ++ [h])) ↔
      List.IsChain R (h :: l₁) ∧ R (last h l₁) (first h l₂) ∧ List.IsChain R (l₂ ++ [h]) := by
  obtain ⟨k, hk⟩ := exists_eq_concat_last h l₁
  obtain ⟨k', hk'⟩ := exists_eq_first_cons h l₂
  rw [List.append_assoc, ← List.cons_append, hk, hk', List.append_assoc, List.singleton_append,
    List.isChain_append_cons_cons]

/-- The links of a chain read only the links of its own nodes. -/
theorem isChain_congr (hc : List.IsChain R l)
    (hag : ∀ x y, x ∈ l → y ∈ l → R x y → S x y) : List.IsChain S l :=
  hc.imp_of_mem_imp fun x y hx hy => hag x y hx hy

namespace Circular

theorem head_notMem (c : Circular R h l) : h ∉ l := (List.nodup_cons.mp c.nodup).1

theorem nodup_tail (c : Circular R h l) : l.Nodup := (List.nodup_cons.mp c.nodup).2

theorem nil_iff : Circular R h [] ↔ R h h := by
  constructor
  · intro c
    simpa using c.chain
  · intro hr
    exact ⟨by simp, by simpa using hr⟩

theorem seam (c : Circular R h (l₁ ++ l₂)) : R (last h l₁) (first h l₂) :=
  (isChain_seam.mp c.chain).2.1

theorem rel_first (c : Circular R h l) : R h (first h l) := by
  have c' : Circular R h ([] ++ l) := c
  exact c'.seam

theorem rel_last (c : Circular R h l) : R (last h l) h := by
  have c' : Circular R h (l ++ []) := by rwa [List.append_nil]
  exact c'.seam

theorem rel_next (c : Circular R h (l₁ ++ n :: l₂)) : R n (first h l₂) := by
  have c' : Circular R h ((l₁ ++ [n]) ++ l₂) := by
    simpa [List.append_assoc] using c
  simpa using c'.seam

theorem rel_prev (c : Circular R h (l₁ ++ n :: l₂)) : R (last h l₁) n :=
  c.seam

/-- Frame rule: a ring whose own links are kept is kept. -/
theorem congr (c : Circular R h l)
    (hag : ∀ x y, x ∈ h :: l → y ∈ h :: l → R x y → S x y) : Circular S h l := by
  refine ⟨c.nodup, isChain_congr c.chain fun x y hx hy => hag x y ?_ ?_⟩
  · simpa [or_comm, or_assoc] using hx
  · simpa [or_comm, or_assoc] using hy

/-- The node before a seam occurs on one side of it only. -/
theorem ne_last_of_mem (c : Circular R h (l₁ ++ l₂)) {x : α} (hx : x ∈ l₂) : x ≠ last h l₁ := by
  rintro rfl
  have hn : (h :: l₁ ++ l₂).Nodup := c.nodup
  exact (List.disjoint_of_nodup_append hn) last_mem hx

/-- The node after a seam occurs on one side of it only. -/
theorem ne_first_of_mem (c : Circular R h (l₁ ++ l₂)) {x : α} (hx : x ∈ l₁) : x ≠ first h l₂ := by
  rintro rfl
  cases l₂ with
  | nil => exact c.head_notMem (by simpa using hx)
  | cons b l₂ => exact (List.disjoint_of_nodup_append c.nodup_tail) hx (by simp)

/-- The walk up to a seam is kept when every link that leaves a node other
than the one before the seam is kept. -/
theorem before_seam (c : Circular R h (l₁ ++ l₂))
    (hag : ∀ x y, x ∈ h :: l₁ → x ≠ last h l₁ → y ∈ l₁ → R x y → S x y) :
    List.IsChain S (h :: l₁) := by
  have hn : (h :: l₁).Nodup := c.nodup.sublist (by simp)
  have hc := (isChain_seam.mp c.chain).1
  clear c
  induction l₁ generalizing h with
  | nil => exact List.isChain_singleton h
  | cons b l₁ ih =>
    obtain ⟨hb, hn'⟩ := List.nodup_cons.mp hn
    obtain ⟨hr, hc'⟩ := List.isChain_cons_cons.mp hc
    have hne : h ≠ last b l₁ := fun he => hb (he ▸ last_mem)
    refine List.isChain_cons_cons.mpr ⟨hag h b (by simp) hne (by simp) hr, ih ?_ hn' hc'⟩
    intro x y hx hxl hy
    exact hag x y (List.mem_cons_of_mem _ hx) hxl (List.mem_cons_of_mem _ hy)

/-- The walk from a seam on is kept when every link that enters a node other
than the one after the seam is kept. -/
theorem after_seam (c : Circular R h (l₁ ++ l₂))
    (hag : ∀ x y, x ∈ l₂ → y ∈ h :: l₂ → y ≠ first h l₂ → R x y → S x y) :
    List.IsChain S (l₂ ++ [h]) := by
  have hn : (l₂ ++ [h]).Nodup := by
    have hn' : (h :: l₂).Nodup := c.nodup.sublist (by simp)
    exact List.perm_append_singleton h l₂ |>.nodup_iff.mpr hn'
  have hc := (isChain_seam.mp c.chain).2.2
  clear c
  induction l₂ with
  | nil => exact List.isChain_singleton h
  | cons b l₂ ih =>
    rw [List.cons_append] at hn hc ⊢
    obtain ⟨hb, hn'⟩ := List.nodup_cons.mp hn
    have hb' : ∀ y ∈ h :: l₂, y ≠ b := by
      rintro y hy rfl
      exact hb (by simpa [or_comm] using hy)
    have hrest : List.IsChain S (l₂ ++ [h]) := by
      refine ih (fun x y hx hy _ hr => ?_) hn' (List.IsChain.of_cons hc)
      refine hag x y (List.mem_cons_of_mem _ hx) ?_ (hb' y hy) hr
      simp only [List.mem_cons] at hy ⊢
      tauto
    obtain ⟨k, hk⟩ := exists_eq_first_cons h l₂
    rw [hk] at hc hrest ⊢
    have hfirst : first h l₂ ∈ h :: l₂ := first_mem
    refine List.isChain_cons_cons.mpr ⟨?_, hrest⟩
    refine hag b _ (by simp) ?_ (hb' _ hfirst) (List.isChain_cons_cons.mp hc).1
    simp only [List.mem_cons] at hfirst ⊢
    tauto

/-- Linking `n` in at a seam: two new links, every link that neither leaves the
node before the seam nor enters the node after it is kept. -/
theorem insert (c : Circular R h (l₁ ++ l₂)) (hn : n ∉ h :: (l₁ ++ l₂))
    (hprev : S (last h l₁) n) (hnext : S n (first h l₂))
    (hag : ∀ x y, x ∈ h :: (l₁ ++ l₂) → y ∈ h :: (l₁ ++ l₂) → x ≠ last h l₁ → y ≠ first h l₂ →
      R x y → S x y) :
    Circular S h (l₁ ++ n :: l₂) := by
  have hleft : List.IsChain S (h :: l₁) := by
    refine c.before_seam fun x y hx hxl hy hr => hag x y ?_ ?_ hxl (c.ne_first_of_mem hy) hr
    · exact List.cons_subset_cons h (List.subset_append_left l₁ l₂) hx
    · simp [hy]
  have hright : List.IsChain S (l₂ ++ [h]) := by
    refine c.after_seam fun x y hx hy hyf hr => hag x y ?_ ?_ (c.ne_last_of_mem hx) hyf hr
    · simp [hx]
    · exact List.cons_subset_cons h (List.subset_append_right l₁ l₂) hy
  refine ⟨?_, ?_⟩
  · have hp : (h :: (l₁ ++ n :: l₂)).Perm (n :: h :: (l₁ ++ l₂)) :=
      (List.Perm.cons h List.perm_middle).trans (List.Perm.swap n h _)
    exact hp.nodup_iff.mpr (List.nodup_cons.mpr ⟨hn, c.nodup⟩)
  · refine isChain_seam.mpr ⟨hleft, hprev, ?_⟩
    obtain ⟨k, hk⟩ := exists_eq_first_cons h l₂
    rw [List.cons_append, hk]
    rw [hk] at hright
    exact List.isChain_cons_cons.mpr ⟨hnext, hright⟩

/-- Unlinking `n`: one new link closes the gap, every link that touches neither
`n` nor the seam it leaves is kept. -/
theorem remove (c : Circular R h (l₁ ++ n :: l₂)) (hseam : S (last h l₁) (first h l₂))
    (hag : ∀ x y, x ∈ h :: (l₁ ++ l₂) → y ∈ h :: (l₁ ++ l₂) → x ≠ last h l₁ → y ≠ first h l₂ →
      R x y → S x y) :
    Circular S h (l₁ ++ l₂) := by
  have c' : Circular R h ((l₁ ++ [n]) ++ l₂) := by
    simpa [List.append_assoc] using c
  have hleft : List.IsChain S (h :: l₁) := by
    refine c.before_seam fun x y hx hxl hy hr => hag x y ?_ ?_ hxl ?_ hr
    · exact List.cons_subset_cons h (List.subset_append_left l₁ l₂) hx
    · simp [hy]
    · exact c'.ne_first_of_mem (by simp [hy])
  have hright : List.IsChain S (l₂ ++ [h]) := by
    refine c'.after_seam fun x y hx hy hyf hr => hag x y ?_ ?_ ?_ hyf hr
    · simp [hx]
    · exact List.cons_subset_cons h (List.subset_append_right l₁ l₂) hy
    · exact c.ne_last_of_mem (by simp [hx])
  refine ⟨c.nodup.sublist ?_, isChain_seam.mpr ⟨hleft, hseam, hright⟩⟩
  exact ((List.sublist_cons_self n l₂).append_left l₁).cons_cons h

/-- Forward links that are functional determine the members. -/
theorem unique (hf : ∀ x y z, R x y → R x z → y = z) (c : Circular R h l₁)
    (c' : Circular R h l₂) : l₁ = l₂ := by
  have key : ∀ (g : α) (k₁ k₂ : List α), List.IsChain R (g :: (k₁ ++ [h])) →
      List.IsChain R (g :: (k₂ ++ [h])) → h ∉ k₁ → h ∉ k₂ → k₁ = k₂ := by
    intro g k₁
    induction k₁ generalizing g with
    | nil =>
      intro k₂ hc hc' _ hn
      cases k₂ with
      | nil => rfl
      | cons b k₂ =>
        have hb : h = b :=
          hf g h b (List.isChain_cons_cons.mp hc).1 (List.isChain_cons_cons.mp hc').1
        exact absurd (by simp [hb]) hn
    | cons a k₁ ih =>
      intro k₂ hc hc' hn hn'
      cases k₂ with
      | nil =>
        have ha : a = h :=
          hf g a h (List.isChain_cons_cons.mp hc).1 (List.isChain_cons_cons.mp hc').1
        exact absurd (by simp [ha]) hn
      | cons b k₂ =>
        have hab : a = b :=
          hf g a b (List.isChain_cons_cons.mp hc).1 (List.isChain_cons_cons.mp hc').1
        subst hab
        rw [ih a k₂ (List.isChain_cons_cons.mp hc).2 (List.isChain_cons_cons.mp hc').2
          (fun hm => hn (List.mem_cons_of_mem _ hm)) (fun hm => hn' (List.mem_cons_of_mem _ hm))]
  exact key h l₁ l₂ c.chain c'.chain c.head_notMem c'.head_notMem

end Circular

end EeKernel.Lib
