import EeKernel.Intr.WellFormed

/-!
# The two controllers

INTC and DMAC have a table each and one pair of functions each, Add and Remove,
over the same descriptors.  `Controller` names the pair, for statements about
any cause, in its table or not.
-/

namespace EeKernel.Intr

inductive Controller
  | intc
  | dmac
  deriving DecidableEq, Repr

namespace Controller

/-- `&intc_queue[cause]` or `&dmac_queue[cause]`. -/
def queue : Controller → Word → Word
  | intc, cause => intc_queue cause
  | dmac, cause => dmac_queue cause

/-- The cause is in the table, at queue `q`. -/
def Names : Controller → Word → Queue → Prop
  | intc, cause, q => ∃ c : Fin 15, cause = idx c ∧ q = .intc c
  | dmac, cause, q => ∃ c : Fin 16, cause = idx c ∧ q = .dmac c

/-- An Add for this cause goes on to the pool. -/
def Accepts : Controller → Word → Word → Prop
  | intc, cause, unk => ¬ (unk ≠ 0 ∧ cause = idx INTC_SBUS) ∧ cause.toNat < INTC_MAX
  | dmac, cause, _ => cause.toNat < DMAC_MAX

variable (L : ListHelpers)

def add : Controller → Mem → (gp cause handler next arg unk : Word) → Mem × Word
  | intc => func_800018F0 L
  | dmac => func_80001B50 L

def remove : Controller → Mem → (cause hid : Word) → Mem × Word
  | intc => func_80001AB0 L
  | dmac => func_80001CF8 L

variable {L} {k : Controller} {m : Mem} {gp cause handler next arg unk hid : Word} {q : Queue}

theorem add_accepted (h : k.Accepts cause unk) : k.add L m gp cause handler next arg unk =
    addHandler L m gp (k.queue cause) handler next arg unk := by
  cases k with
  | intc => exact (if_neg h.1).trans (if_neg (Nat.not_le_of_lt h.2))
  | dmac => exact if_neg (Nat.not_le_of_lt h)

theorem add_not_accepted (h : ¬ k.Accepts cause unk) :
    k.add L m gp cause handler next arg unk = (m, -1) := by
  cases k with
  | intc =>
    by_cases hsbus : unk ≠ 0 ∧ cause = idx INTC_SBUS
    · exact if_pos hsbus
    · exact (if_neg hsbus).trans (if_pos (Nat.le_of_not_lt fun hc => h ⟨hsbus, hc⟩))
  | dmac => exact if_pos (Nat.le_of_not_lt h)

theorem remove_eq : k.remove L m cause hid = removeHandler L m (k.queue cause) hid := by
  cases k <;> rfl

theorem Names.queue_eq (h : k.Names cause q) : k.queue cause = (Node.head (.queue q)).word := by
  cases k with
  | intc =>
    obtain ⟨c, rfl, rfl⟩ := h
    exact intc_queue_idx c
  | dmac =>
    obtain ⟨c, rfl, rfl⟩ := h
    exact dmac_queue_idx c

theorem Names.unique {q' : Queue} (h : k.Names cause q) (h' : k.Names cause q') : q = q' := by
  have hword := h.queue_eq.symm.trans h'.queue_eq
  rwa [Node.word_inj, Node.head.injEq, Head.queue.injEq] at hword

theorem names_of_accepts (h : k.Accepts cause unk) : ∃ q, k.Names cause q := by
  cases k with
  | intc =>
    obtain ⟨c, hc⟩ := exists_idx h.2
    exact ⟨.intc c, c, hc, rfl⟩
  | dmac =>
    obtain ⟨c, hc⟩ := exists_idx h
    exact ⟨.dmac c, c, hc, rfl⟩

end Controller

end EeKernel.Intr
