import EeKernel.Intr.InOrder

/-!
# The VSYNC registration

The first vertical blank after a registration sets its flag, stores the GS status
if that was asked for too, and forgets the registration.  Neither the blanks after
it nor any other interrupt store to the caller's cells again, and a status asked
for without a flag is not stored at all.
-/

namespace EeKernel.Intr

open EeKernel.Lib

variable {ε : Type}

/-! ## What an interrupt leaves alone -/

/-- No code a dispatcher calls changes what `f` sees of the machine, and `$gp` is not part of
it. -/
structure Callees.Leaves (C : Callees ε) {α : Type} (f : Machine ε → α) : Prop where
  user : ∀ hnd call s, f (C.func_800029C0 hnd call s).1 = f s
  direct : ∀ hnd handler inum s, f (C.direct hnd handler inum s) = f s
  kprintf : ∀ text inum s, f (C.kprintf text inum s) = f s
  func_80000DC0 : ∀ x s, f (C.func_80000DC0 x s) = f s
  gp : ∀ s gp, f { s with gp := gp } = f s

section Leaves

variable {C : Callees ε} {α : Type} {f : Machine ε → α} {queue inum hnd i : Word}
  {s : Machine ε} {fuel : Nat} {w : Served ε} {message : String}

theorem visit_leaves (hC : C.Leaves f) : f (visit C inum hnd s).1 = f s := by
  by_cases h2 : (readDescriptor s.mem hnd).state = 2
  · rw [visit_user C inum rfl h2]
    exact (hC.gp _ _).trans ((hC.user _ _ _).trans (hC.gp _ _))
  by_cases h0 : (readDescriptor s.mem hnd).state = 0
  · rw [visit_direct C inum rfl h2 h0]
    exact hC.direct _ _ _ _
  · rw [visit_skip C inum rfl h2 h0]

theorem walk_leaves (hC : C.Leaves f) (h : walk C queue inum fuel i hnd s = some w) :
    f w.machine = f s := by
  induction fuel generalizing i hnd s w with
  | zero => cases h
  | succ fuel ih =>
    by_cases hc : i.toInt < (s.mem.read (fEntries queue)).toInt
    · have hvisit : f (visit C inum hnd s).1 = f s := visit_leaves hC
      obtain ⟨⟨s', invoked, stop⟩, hv⟩ : ∃ v, visit C inum hnd s = v := ⟨_, rfl⟩
      rw [hv] at hvisit
      cases stop with
      | true =>
        rw [walk_return hc hv] at h
        obtain rfl := Option.some_inj.mp h
        exact hvisit
      | false =>
        rw [walk_next hc hv] at h
        obtain ⟨w', hw', rfl⟩ := Option.map_eq_some_iff.mp h
        exact (ih hw').trans hvisit
    · rw [walk_done hc] at h
      obtain rfl := Option.some_inj.mp h
      rfl

theorem finish_leaves (hC : C.Leaves f) : f (finish C message inum w).machine = f w.machine := by
  unfold finish
  split
  · exact (hC.func_80000DC0 _ _).trans (hC.kprintf _ _ _)
  · rfl

/-- An interrupt changes what `f` sees no more than its entry does. -/
theorem interrupt_leaves {q : Queue} (hC : C.Leaves f) (h : interrupt C fuel q s = some w) :
    f w.machine = f (entered q s) := by
  rw [interrupt_eq, dispatch] at h
  obtain ⟨w', hw', rfl⟩ := Option.map_eq_some_iff.mp h
  exact (finish_leaves hC).trans (walk_leaves hC hw')

end Leaves

/-! ## The registration -/

/-- A registration, and what the words `own` of its caller hold. -/
@[ext]
structure Registration (own : Set Word) where
  flag : Word
  csr : Word
  held : own → Word

section Registration

variable {own : Set Word} {R : Registration own} {m : Mem}

/-- What memory has of it. -/
def registration (own : Set Word) (m : Mem) : Registration own where
  flag := m.read D_8001B404
  csr := m.read D_8001B408
  held a := m.read a

/-- `v` at `p`, which the caller sees if the word is its own. -/
def store (held : own → Word) (p v : Word) : own → Word := fun a => if a.1 = p then v else held a

/-- A blank with this GS status, for the caller: the flag is 1, the status is in two words, the
low one first, if it was asked for, and the registration is gone. -/
def Registration.blank (csr : BitVec 64) (R : Registration own) : Registration own :=
  if R.flag = 0 then R
  else if R.csr = 0 then { flag := 0, csr := 0, held := store R.held R.flag 1 }
  else
    { flag := 0, csr := 0
      held := store (store (store R.held R.flag 1) R.csr (csr.setWidth 32)) (R.csr + 4)
        ((csr >>> 32).setWidth 32) }

/-- The pointers are outside the tables. -/
def Registration.Outside (R : Registration own) : Prop := PointsOutside R.flag R.csr

theorem Registration.Outside.blank (h : R.Outside) (csr : BitVec 64) : (R.blank csr).Outside := by
  unfold Registration.blank
  split
  · exact h
  · split
    · exact pointsOutside_null
    · exact pointsOutside_null

/-- The next blank finds nothing to do. -/
theorem Registration.blank_blank (csr csr' : BitVec 64) (R : Registration own) :
    (R.blank csr).blank csr' = R.blank csr := by
  have hflag : (R.blank csr).flag = 0 := by
    unfold blank
    split
    · next h => exact h
    · split <;> rfl
  rw [blank, if_pos hflag]

/-- A store that is not to the two pointers, as the caller sees it. -/
theorem registration_write {p : Word} (hp : ∀ c : Cell, p ≠ c.word) (v : Word) :
    registration own (m.write p v) =
      { registration own m with held := store (registration own m).held p v } := by
  have hflag : D_8001B404 ≠ p := (hp .vsyncFlag).symm
  have hcsr : D_8001B408 ≠ p := (hp .vsyncCsr).symm
  exact Registration.ext (Mem.read_write_of_ne m v hflag) (Mem.read_write_of_ne m v hcsr) rfl

section Own

variable (hown : ∀ c : Cell, c.word ∉ own)

include hown

/-- The two pointers themselves are no words of the caller's. -/
theorem held_write (c : Cell) (v : Word) :
    (registration own (m.write c.word v)).held = (registration own m).held := by
  funext a
  have hne : a.1 ≠ c.word := fun h => hown c (h ▸ a.2)
  exact Mem.read_write_of_ne m v hne

theorem registration_forget_flag :
    registration own (m.write D_8001B404 0) = { registration own m with flag := 0 } := by
  have hne : D_8001B408 ≠ D_8001B404 := by decide
  exact Registration.ext (Mem.read_write_same m D_8001B404 0) (Mem.read_write_of_ne m 0 hne)
    (held_write hown .vsyncFlag 0)

theorem registration_forget_csr :
    registration own (m.write D_8001B408 0) = { registration own m with csr := 0 } := by
  have hne : D_8001B404 ≠ D_8001B408 := by decide
  exact Registration.ext (Mem.read_write_of_ne m 0 hne) (Mem.read_write_same m D_8001B408 0)
    (held_write hown .vsyncCsr 0)

theorem vsync_registration {s : Machine ε} (hout : (registration own s.mem).Outside) :
    registration own (vsync (idx INTC_VBLANK_S) s).mem =
      (registration own s.mem).blank s.gsCsr := by
  obtain ⟨hf, hp, hp'⟩ := hout
  rw [Registration.blank]
  by_cases hflag : s.mem.read D_8001B404 = 0
  · rw [vsync, if_neg fun h => h.2 hflag]
    exact (if_pos hflag).symm
  have hflag' : (registration own s.mem).flag ≠ 0 := hflag
  rw [vsync, if_pos ⟨rfl, hflag⟩, if_neg hflag']
  dsimp only
  -- the memory once the flag is set and forgotten
  obtain ⟨m, hm⟩ : ∃ m, (s.mem.write (s.mem.read D_8001B404) 1).write D_8001B404 0 = m := ⟨_, rfl⟩
  have hreg : registration own m = { registration own s.mem with
      flag := 0, held := store (registration own s.mem).held (s.mem.read D_8001B404) 1 } := by
    have hset : registration own (s.mem.write (s.mem.read D_8001B404) 1) = _ :=
      registration_write hf 1
    rw [← hm, registration_forget_flag hown]
    exact congrArg (fun R : Registration own => { R with flag := 0 }) hset
  have hcsr : m.read D_8001B408 = (registration own s.mem).csr := congrArg Registration.csr hreg
  rw [hm, hcsr]
  by_cases hzero : (registration own s.mem).csr = 0
  · rw [if_neg (not_not.mpr hzero), if_pos hzero, hreg]
    exact Registration.ext rfl hzero rfl
  · rw [if_pos hzero, if_neg hzero]
    dsimp only
    rw [registration_forget_csr hown, storeCsr, registration_write hp', registration_write hp, hreg]
    rfl

end Own

end Registration

/-! ## Interrupt after interrupt -/

/-- Interrupts one after the other.  Between them anything may happen, but to the registration
and its caller's words. -/
inductive Frames (own : Set Word) (C : Callees ε) : List Queue → Machine ε → Machine ε → Prop
  | rest {s s' : Machine ε} (same : registration own s'.mem = registration own s.mem) :
      Frames own C [] s s'
  | next {q : Queue} {qs : List Queue} {s s₁ s' : Machine ε} {fuel : Nat} {w : Served ε}
      (same : registration own s₁.mem = registration own s.mem)
      (served : interrupt C fuel q s₁ = some w) (later : Frames own C qs w.machine s') :
      Frames own C (q :: qs) s s'

/-- No code a dispatcher calls touches the registration or the words `own`. -/
def Callees.LeavesRegistration (C : Callees ε) (own : Set Word) : Prop :=
  C.Leaves fun s => registration own s.mem

section Frames

variable {own : Set Word} {C : Callees ε} {q : Queue} {qs : List Queue} {s s₁ s' : Machine ε}
  {fuel : Nat} {w : Served ε}

theorem other_registration (hC : C.LeavesRegistration own) (hq : q ≠ .intc INTC_VBLANK_S)
    (h : interrupt C fuel q s = some w) :
    registration own w.machine.mem = registration own s.mem := by
  refine (interrupt_leaves hC h).trans ?_
  cases q with
  | intc c =>
    have hc : c ≠ INTC_VBLANK_S := fun hc => hq (congrArg Queue.intc hc)
    rw [entered, vsync_of_ne hc]
  | dmac c => rfl

variable (hown : ∀ c : Cell, c.word ∉ own)

include hown

theorem blank_registration (hC : C.LeavesRegistration own)
    (hout : (registration own s.mem).Outside)
    (h : interrupt C fuel (.intc INTC_VBLANK_S) s = some w) :
    registration own w.machine.mem = (registration own s.mem).blank s.gsCsr :=
  (interrupt_leaves hC h).trans (vsync_registration hown hout)

/-- A registration that has been served stays so. -/
theorem Frames.served (hC : C.LeavesRegistration own) {R : Registration own} {csr : BitVec 64}
    (hR : R.Outside) (run : Frames own C qs s s') (hs : registration own s.mem = R.blank csr) :
    registration own s'.mem = R.blank csr := by
  induction run with
  | rest same => exact same.trans hs
  | @next q qs s s₁ s' fuel w same served later ih =>
    apply ih
    by_cases hq : q = .intc INTC_VBLANK_S
    · subst hq
      have hout : (registration own s₁.mem).Outside := by
        rw [same, hs]
        exact hR.blank csr
      rw [blank_registration hown hC hout served, same, hs, Registration.blank_blank]
    · rw [other_registration hC hq served, same, hs]

end Frames

end EeKernel.Intr
