import Mathlib.Data.List.ReduceOption

/-!
# Labelled transition systems

A system starts in one of its initial states and takes steps that each show a
label.  What holds initially and is kept by every step holds wherever a run
leads, and a forward simulation takes every run of one system to a run of
another that shows the same labels.
-/

namespace EeKernel.Lib

structure Lts (σ ℓ : Type) where
  init : σ → Prop
  step : σ → ℓ → σ → Prop

namespace Lts

variable {σ τ ℓ : Type} {T : Lts σ ℓ} {U : Lts τ ℓ}

/-- A run, with the labels it shows. -/
inductive Exec (T : Lts σ ℓ) : σ → List ℓ → σ → Prop
  | refl (s : σ) : Exec T s [] s
  | snoc {s s' s'' : σ} {ls : List ℓ} {l : ℓ} (run : Exec T s ls s') (next : T.step s' l s'') :
      Exec T s (ls ++ [l]) s''

/-- A run from the start. -/
def Reaches (T : Lts σ ℓ) (ls : List ℓ) (s' : σ) : Prop := ∃ s, T.init s ∧ T.Exec s ls s'

/-- What a run from the start can show. -/
def Shows (T : Lts σ ℓ) (ls : List ℓ) : Prop := ∃ s', T.Reaches ls s'

/-- What holds at the start and is kept by every step, of the state and of what has been
shown, holds after every run. -/
theorem Reaches.ind {P : List ℓ → σ → Prop} (hinit : ∀ {s}, T.init s → P [] s)
    (hstep : ∀ {ls s l s'}, P ls s → T.step s l s' → P (ls ++ [l]) s') {s' : σ} {ls : List ℓ}
    (h : T.Reaches ls s') : P ls s' := by
  obtain ⟨s, hs, run⟩ := h
  induction run with
  | refl => exact hinit hs
  | snoc _ next ih => exact hstep ih next

theorem Reaches.exec {s s' : σ} {ls ls' : List ℓ} (h : T.Reaches ls s) (run : T.Exec s ls' s') :
    T.Reaches (ls ++ ls') s' := by
  induction run with
  | refl =>
    rw [List.append_nil]
    exact h
  | snoc _ next ih =>
    obtain ⟨s₀, hs₀, run⟩ := ih
    rw [← List.append_assoc]
    exact ⟨s₀, hs₀, .snoc run next⟩

namespace Exec

variable {s s' s'' : σ} {l : ℓ} {ls ls' : List ℓ}

theorem single (h : T.step s l s') : T.Exec s [l] s' := .snoc (.refl s) h

theorem of_nil (run : T.Exec s [] s') : s = s' := by
  obtain ⟨ls, hls⟩ : ∃ ls : List ℓ, ls = [] := ⟨_, rfl⟩
  rw [← hls] at run
  cases run with
  | refl => rfl
  | snoc => simp at hls

theorem of_single (run : T.Exec s [l] s') : T.step s l s' := by
  obtain ⟨ls, hls⟩ : ∃ ls, ls = [l] := ⟨_, rfl⟩
  rw [← hls] at run
  cases run with
  | refl => cases hls
  | snoc run next =>
    rw [← List.nil_append [l]] at hls
    obtain ⟨rfl, hlast⟩ := List.append_inj' hls rfl
    obtain rfl := List.singleton_inj.mp hlast
    rw [run.of_nil]
    exact next

theorem trans (run : T.Exec s ls s') (run' : T.Exec s' ls' s'') : T.Exec s (ls ++ ls') s'' := by
  induction run' with
  | refl =>
    rw [List.append_nil]
    exact run
  | snoc _ next ih =>
    rw [← List.append_assoc]
    exact .snoc ih next

/-- A run is cut anywhere in what it shows. -/
theorem split (run : T.Exec s (ls ++ ls') s'') : ∃ s', T.Exec s ls s' ∧ T.Exec s' ls' s'' := by
  obtain ⟨all, hall⟩ : ∃ all, all = ls ++ ls' := ⟨_, rfl⟩
  rw [← hall] at run
  induction run generalizing ls' with
  | refl =>
    obtain ⟨rfl, rfl⟩ := List.append_eq_nil_iff.mp hall.symm
    exact ⟨s, .refl s, .refl s⟩
  | @snoc s₁ s₂ ls₁ l run next ih =>
    rcases List.eq_nil_or_concat ls' with rfl | ⟨ls₂, l', rfl⟩
    · rw [List.append_nil] at hall
      subst hall
      exact ⟨s₂, .snoc run next, .refl s₂⟩
    · rw [List.concat_eq_append, ← List.append_assoc] at hall
      obtain ⟨hinit, hlast⟩ := List.append_inj' hall rfl
      obtain ⟨s', run₁, run₂⟩ := ih hinit
      obtain rfl := List.singleton_inj.mp hlast
      rw [List.concat_eq_append]
      exact ⟨s', run₁, .snoc run₂ next⟩

theorem head {s s'' : σ} {l : ℓ} {ls : List ℓ} (run : T.Exec s (l :: ls) s'') :
    ∃ s', T.step s l s' ∧ T.Exec s' ls s'' := by
  rw [← List.singleton_append] at run
  obtain ⟨s', first, rest⟩ := run.split
  exact ⟨s', first.of_single, rest⟩

/-- A run is over, or takes a step. -/
theorem cases_head {s s'' : σ} {ls : List ℓ} (run : T.Exec s ls s'') :
    (ls = [] ∧ s = s'') ∨ ∃ l ls' s', ls = l :: ls' ∧ T.step s l s' ∧ T.Exec s' ls' s'' := by
  cases ls with
  | nil => exact .inl ⟨rfl, run.of_nil⟩
  | cons l ls =>
    obtain ⟨s', next, rest⟩ := run.head
    exact .inr ⟨l, ls, s', rfl, next, rest⟩

end Exec

/-- Every step of `T` is matched by a step of `U` that shows the same. -/
structure Simulation (T : Lts σ ℓ) (U : Lts τ ℓ) (R : σ → τ → Prop) : Prop where
  init : ∀ {s}, T.init s → ∃ t, U.init t ∧ R s t
  step : ∀ {s l s' t}, R s t → T.step s l s' → ∃ t', U.step t l t' ∧ R s' t'

namespace Simulation

variable {R : σ → τ → Prop} {s s' : σ} {t : τ} {ls : List ℓ}

theorem exec (S : Simulation T U R) (run : T.Exec s ls s') (h : R s t) :
    ∃ t', U.Exec t ls t' ∧ R s' t' := by
  induction run with
  | refl => exact ⟨t, .refl t, h⟩
  | snoc _ next ih =>
    obtain ⟨t₁, run₁, h₁⟩ := ih
    obtain ⟨t₂, next₂, h₂⟩ := S.step h₁ next
    exact ⟨t₂, .snoc run₁ next₂, h₂⟩

theorem reaches (S : Simulation T U R) (h : T.Reaches ls s') : ∃ t', U.Reaches ls t' ∧ R s' t' := by
  obtain ⟨s, hs, run⟩ := h
  obtain ⟨t, ht, hst⟩ := S.init hs
  obtain ⟨t', run', h'⟩ := S.exec run hst
  exact ⟨t', ⟨t, ht, run'⟩, h'⟩

/-- **Trace inclusion.** -/
theorem shows (S : Simulation T U R) (h : T.Shows ls) : U.Shows ls := by
  obtain ⟨s', hs'⟩ := h
  obtain ⟨t', ht', -⟩ := S.reaches hs'
  exact ⟨t', ht'⟩

end Simulation

/-- Every step of `T` that shows something is matched by a step of `U` that shows it, and the
others change nothing for `U`. -/
structure WeakSimulation (T : Lts σ (Option ℓ)) (U : Lts τ ℓ) (R : σ → τ → Prop) : Prop where
  shown : ∀ {s l s' t}, R s t → T.step s (some l) s' → ∃ t', U.step t l t' ∧ R s' t'
  silent : ∀ {s s' t}, R s t → T.step s none s' → R s' t

theorem WeakSimulation.exec {T : Lts σ (Option ℓ)} {R : σ → τ → Prop} {s s' : σ} {t : τ}
    {ls : List (Option ℓ)} (S : WeakSimulation T U R) (run : T.Exec s ls s') (h : R s t) :
    ∃ t', U.Exec t ls.reduceOption t' ∧ R s' t' := by
  induction run with
  | refl => exact ⟨t, .refl t, h⟩
  | @snoc _ _ _ l _ next ih =>
    obtain ⟨t₁, run₁, h₁⟩ := ih
    cases l with
    | none =>
      rw [List.reduceOption_append, List.reduceOption_cons_of_none, List.reduceOption_nil,
        List.append_nil]
      exact ⟨t₁, run₁, S.silent h₁ next⟩
    | some l =>
      obtain ⟨t₂, next₂, h₂⟩ := S.shown h₁ next
      rw [List.reduceOption_append, List.reduceOption_singleton]
      exact ⟨t₂, .snoc run₁ next₂, h₂⟩

end Lts

end EeKernel.Lib
