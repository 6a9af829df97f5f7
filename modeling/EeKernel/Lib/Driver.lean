import EeKernel.Lib.Lts

/-!
# Code that talks to devices

A `Driver` is a piece of code seen from its devices: it loads and stores
registers, calls code outside, and waits for a register to change.  A load may
answer anything, so a run of `accesses` is one for some device, and what holds
of every run holds for all of them.  `attached` is a driver at one device, which
answers in its own way and moves on between the accesses.
-/

namespace EeKernel.Lib

inductive Driver (ρ ν ε α : Type)
  | done (a : α)
  | load (r : ρ) (k : ν → Driver ρ ν ε α)
  | store (r : ρ) (v : ν) (k : Driver ρ ν ε α)
  | call (e : ε) (k : Driver ρ ν ε α)
  /-- while `r` reads as `p` says, the registers of `body` are loaded -/
  | poll (r : ρ) (p : ν → Bool) (body : List ρ) (k : Driver ρ ν ε α)
  /-- `while (1);` -/
  | hang

/-- What a device sees. -/
inductive Access (ρ ν ε : Type)
  | load (r : ρ) (v : ν)
  | store (r : ρ) (v : ν)
  | call (e : ε)

namespace Driver

variable {ρ ν ε α β : Type}

def bind : Driver ρ ν ε α → (α → Driver ρ ν ε β) → Driver ρ ν ε β
  | .done a, f => f a
  | .load r k, f => .load r fun v => (k v).bind f
  | .store r v k, f => .store r v (k.bind f)
  | .call e k, f => .call e (k.bind f)
  | .poll r p body k, f => .poll r p body (k.bind f)
  | .hang, _ => .hang

/-- The registers of a list are loaded and what they answer is dropped. -/
def discard (body : List ρ) (k : Driver ρ ν ε α) : Driver ρ ν ε α :=
  body.foldr (fun r k => .load r fun _ => k) k

inductive Step : Driver ρ ν ε α → Access ρ ν ε → Driver ρ ν ε α → Prop
  | load {r : ρ} {k : ν → Driver ρ ν ε α} (v : ν) : Step (.load r k) (.load r v) (k v)
  | store {r : ρ} {v : ν} {k : Driver ρ ν ε α} : Step (.store r v k) (.store r v) k
  | call {e : ε} {k : Driver ρ ν ε α} : Step (.call e k) (.call e) k
  | again {r : ρ} {p : ν → Bool} {body : List ρ} {k : Driver ρ ν ε α} {v : ν}
      (h : p v = true) : Step (.poll r p body k) (.load r v) (discard body (.poll r p body k))
  | exit {r : ρ} {p : ν → Bool} {body : List ρ} {k : Driver ρ ν ε α} {v : ν}
      (h : p v = false) : Step (.poll r p body k) (.load r v) k

end Driver

/-- The accesses of a driver, whatever the devices answer. -/
def accesses (ρ ν ε α : Type) : Lts (Driver ρ ν ε α) (Access ρ ν ε) where
  init _ := True
  step := Driver.Step

namespace Driver

variable {ρ ν ε α β : Type} {t : List (Access ρ ν ε)} {p q : Driver ρ ν ε α}

/-- A run of a driver. -/
abbrev Goes (p : Driver ρ ν ε α) (t : List (Access ρ ν ε)) (q : Driver ρ ν ε α) : Prop :=
  (accesses ρ ν ε α).Exec p t q

namespace Goes

theorem done {a : α} (h : Goes (.done a) t q) : t = [] ∧ q = .done a := by
  rcases h.cases_head with ⟨rfl, rfl⟩ | ⟨_, _, _, -, hstep, -⟩
  · exact ⟨rfl, rfl⟩
  · cases hstep

theorem hang (h : Goes .hang t q) : t = [] ∧ q = .hang := by
  rcases h.cases_head with ⟨rfl, rfl⟩ | ⟨_, _, _, -, hstep, -⟩
  · exact ⟨rfl, rfl⟩
  · cases hstep

theorem store {r : ρ} {v : ν} {k : Driver ρ ν ε α} (h : Goes (.store r v k) t q) :
    (t = [] ∧ q = .store r v k) ∨ ∃ t', t = .store r v :: t' ∧ Goes k t' q := by
  rcases h.cases_head with ⟨rfl, rfl⟩ | ⟨_, t', _, rfl, hstep, hrest⟩
  · exact .inl ⟨rfl, rfl⟩
  · cases hstep
    exact .inr ⟨t', rfl, hrest⟩

/-- A wait with nothing to do meanwhile: loads that ask for more, and the one that ends it. -/
theorem wait {r : ρ} {w : ν → Bool} {k : Driver ρ ν ε α} (h : Goes (.poll r w [] k) t q) :
    ∃ vs : List ν, (∀ v ∈ vs, w v = true) ∧
      ((t = vs.map (.load r) ∧ q = .poll r w [] k) ∨
        ∃ v t', w v = false ∧ t = vs.map (.load r) ++ .load r v :: t' ∧ Goes k t' q) := by
  induction t with
  | nil =>
    obtain rfl := h.of_nil
    exact ⟨[], by simp, .inl ⟨rfl, rfl⟩⟩
  | cons x t ih =>
    obtain ⟨p, hstep, hrest⟩ := h.head
    cases hstep with
    | @again _ _ _ _ v hv =>
      obtain ⟨vs, hvs, hcases⟩ := ih hrest
      refine ⟨v :: vs, List.forall_mem_cons.mpr ⟨hv, hvs⟩, ?_⟩
      rcases hcases with ⟨rfl, rfl⟩ | ⟨v', t', hv', rfl, hk⟩
      · exact .inl ⟨rfl, rfl⟩
      · exact .inr ⟨v', t', hv', rfl, hk⟩
    | @exit _ _ _ _ v hv => exact ⟨[], by simp, .inr ⟨v, t, hv, rfl, hrest⟩⟩

theorem discard_bind (body : List ρ) (k : Driver ρ ν ε α) (f : α → Driver ρ ν ε β) :
    (discard body k).bind f = discard body (k.bind f) := by
  induction body with
  | nil => rfl
  | cons r body ih =>
    change Driver.load r (fun _ => (discard body k).bind f) = _
    rw [ih]
    rfl

/-- A step of a sequence is one of its first part, as long as that is not done. -/
theorem step_bind {p : Driver ρ ν ε α} {f : α → Driver ρ ν ε β} {x : Access ρ ν ε}
    {q : Driver ρ ν ε β} (h : Step (p.bind f) x q) :
    (∃ a, p = .done a) ∨ ∃ p', Step p x p' ∧ q = p'.bind f := by
  cases p with
  | done a => exact .inl ⟨a, rfl⟩
  | load r k =>
    cases h with
    | load v => exact .inr ⟨k v, .load v, rfl⟩
  | store r v k =>
    cases h
    exact .inr ⟨k, .store, rfl⟩
  | call e k =>
    cases h
    exact .inr ⟨k, .call, rfl⟩
  | poll r w body k =>
    cases h with
    | again hv => exact .inr ⟨_, .again hv, (discard_bind body (.poll r w body k) f).symm⟩
    | exit hv => exact .inr ⟨k, .exit hv, rfl⟩
  | hang => cases h

/-- A sequence: the run is still in the first part, or has gone through it. -/
theorem bind {f : α → Driver ρ ν ε β} {q : Driver ρ ν ε β} (h : Goes (p.bind f) t q) :
    (∃ p', Goes p t p' ∧ q = p'.bind f) ∨
      ∃ a t₁ t₂, t = t₁ ++ t₂ ∧ Goes p t₁ (.done a) ∧ Goes (f a) t₂ q := by
  induction t generalizing p with
  | nil => exact .inl ⟨p, .refl p, h.of_nil.symm⟩
  | cons x t ih =>
    obtain ⟨q', hstep, hrest⟩ := h.head
    rcases step_bind hstep with ⟨a, rfl⟩ | ⟨p', hp, rfl⟩
    · exact .inr ⟨a, [], x :: t, rfl, .refl _, h⟩
    · have hfirst : Goes p [x] p' := .single hp
      rcases ih hrest with ⟨p'', hrun, rfl⟩ | ⟨a, t₁, t₂, rfl, hrun, hf⟩
      · exact .inl ⟨p'', hfirst.trans hrun, rfl⟩
      · exact .inr ⟨a, x :: t₁, t₂, rfl, hfirst.trans hrun, hf⟩

/-- A run of the first part is one of the sequence. -/
theorem of_bind (f : α → Driver ρ ν ε β) (h : Goes p t q) : Goes (p.bind f) t (q.bind f) := by
  induction h with
  | refl => exact .refl _
  | snoc _ hstep ih =>
    refine ih.snoc ?_
    cases hstep with
    | load v => exact .load v
    | store => exact .store
    | call => exact .call
    | @again r w body k v hv =>
      change Step _ _ ((discard body (Driver.poll r w body k)).bind f)
      rw [discard_bind]
      exact .again hv
    | exit hv => exact .exit hv

end Goes

/-- A wait that is ended by `v`. -/
theorem goes_wait {r : ρ} {w : ν → Bool} {k : Driver ρ ν ε α} {vs : List ν} {v : ν}
    (hvs : ∀ v ∈ vs, w v = true) (hv : w v = false) :
    Goes (.poll r w [] k) (vs.map (.load r) ++ [.load r v]) k := by
  induction vs with
  | nil => exact .single (.exit hv)
  | cons v' vs ih =>
    obtain ⟨hv', hvs⟩ := List.forall_mem_cons.mp hvs
    have hagain : Goes (.poll r w [] k) [.load r v'] (.poll r w [] k) := .single (.again hv')
    exact hagain.trans (ih hvs)

/-! ## Drivers that can come to an end -/

/-- There is no `while (1);`, and a device can end every wait. -/
def Answerable : Driver ρ ν ε α → Prop
  | .done _ => True
  | .load _ k => ∀ v, (k v).Answerable
  | .store _ _ k | .call _ k => k.Answerable
  | .poll _ w _ k => (∃ v, w v = false) ∧ k.Answerable
  | .hang => False

namespace Answerable

theorem discard {body : List ρ} {k : Driver ρ ν ε α} (h : k.Answerable) :
    (Driver.discard body k).Answerable := by
  induction body with
  | nil => exact h
  | cons r body ih => exact fun _ => ih

theorem step {x : Access ρ ν ε} (h : p.Answerable) (next : Step p x q) : q.Answerable := by
  cases next with
  | load v => exact h v
  | store => exact h
  | call => exact h
  | again hv => exact discard h
  | exit hv => exact h.2

theorem goes (h : p.Answerable) (run : Goes p t q) : q.Answerable := by
  induction run with
  | refl => exact h
  | snoc _ next ih => exact ih.step next

theorem bind {f : α → Driver ρ ν ε β} (h : p.Answerable) (hf : ∀ a, (f a).Answerable) :
    (p.bind f).Answerable := by
  induction p with
  | done a => exact hf a
  | load r k ih => exact fun v => ih v (h v)
  | store r v k ih => exact ih h
  | call e k ih => exact ih h
  | poll r w body k ih => exact ⟨h.1, ih h.2⟩
  | hang => exact h.elim

theorem bind_ne_hang {f : α → Driver ρ ν ε β} (h : p.Answerable) (hp : ∀ a, p ≠ .done a) :
    p.bind f ≠ .hang := by
  cases p with
  | done a => exact absurd rfl (hp a)
  | hang => exact h.elim
  | _ => nofun

theorem finishes [Inhabited ν] (h : p.Answerable) : ∃ t a, Goes p t (.done a) := by
  induction p with
  | done a => exact ⟨[], a, .refl _⟩
  | load r k ih =>
    obtain ⟨t, a, run⟩ := ih default (h default)
    have hfirst : Goes (.load r k) [.load r default] (k default) := .single (.load default)
    exact ⟨.load r default :: t, a, hfirst.trans run⟩
  | store r v k ih =>
    obtain ⟨t, a, run⟩ := ih h
    have hfirst : Goes (.store r v k) [.store r v] k := .single .store
    exact ⟨.store r v :: t, a, hfirst.trans run⟩
  | call e k ih =>
    obtain ⟨t, a, run⟩ := ih h
    have hfirst : Goes (.call e k) [.call e] k := .single .call
    exact ⟨.call e :: t, a, hfirst.trans run⟩
  | poll r w body k ih =>
    obtain ⟨⟨v, hv⟩, hk⟩ := h
    obtain ⟨t, a, run⟩ := ih hk
    have hfirst : Goes (.poll r w body k) [.load r v] k := .single (.exit hv)
    exact ⟨.load r v :: t, a, hfirst.trans run⟩
  | hang => exact h.elim

end Answerable

end Driver

/-! ## A driver and its device -/

/-- How a device takes an access, and what it does of itself. -/
structure Device (ρ ν ε δ : Type) where
  takes : δ → Access ρ ν ε → δ → Prop
  moves : δ → δ → Prop

variable {ρ ν ε α δ : Type}

/-- A driver at work: what it accesses is shown, what the device does meanwhile is not. -/
inductive Attached (D : Device ρ ν ε δ) :
    Driver ρ ν ε α × δ → Option (Access ρ ν ε) → Driver ρ ν ε α × δ → Prop
  | access {p q : Driver ρ ν ε α} {x : Access ρ ν ε} {d d' : δ} (next : Driver.Step p x q)
      (took : D.takes d x d') : Attached D (p, d) (some x) (q, d')
  | move {p : Driver ρ ν ε α} {d d' : δ} (moved : D.moves d d') : Attached D (p, d) none (p, d')

def attached (D : Device ρ ν ε δ) (α : Type) :
    Lts (Driver ρ ν ε α × δ) (Option (Access ρ ν ε)) where
  init _ := True
  step := Attached D

end EeKernel.Lib
