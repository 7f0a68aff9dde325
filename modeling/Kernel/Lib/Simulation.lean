import Kernel.Lib.Transition

/-!
# Simulations

One system follows another when each guarded step of the first is a step of the
second with the same label. Then so does each guarded run.
-/

namespace Kernel.Lib

variable {σ τ α : Type} {C : System σ α} {A : System τ α} {G : σ → α → Prop} {R : σ → τ → Prop}

/-- `A` can do what `C` does in guarded steps, and `R` relates their states. -/
structure Simulation (C : System σ α) (G : σ → α → Prop) (A : System τ α) (R : σ → τ → Prop) : Prop where
  init : ∀ s, C.init s → ∃ t, A.init t ∧ R s t
  step : ∀ s t a s', R s t → G s a → C.step s a s' → ∃ t', A.step t a t' ∧ R s' t'

namespace Simulation

theorem run (h : Simulation C G A R) {s s' : σ} {t : τ} {l : List α} (hrun : C.GuardedRun G s l s') (hR : R s t) :
    ∃ t', A.Run t l t' ∧ R s' t' := by
  induction hrun with
  | nil => exact ⟨t, .nil t, hR⟩
  | snoc _ hg hstep ih =>
    obtain ⟨u, hu, hRu⟩ := ih
    obtain ⟨t', ht', hR'⟩ := h.step _ _ _ _ hRu hg hstep
    exact ⟨t', hu.snoc ht', hR'⟩

theorem traces (h : Simulation C G A R) {s s' : σ} {l : List α} (hs : C.init s) (hrun : C.GuardedRun G s l s') :
    ∃ t t', A.init t ∧ R s t ∧ A.Run t l t' ∧ R s' t' := by
  obtain ⟨t, ht, hR⟩ := h.init s hs
  obtain ⟨t', hrun', hR'⟩ := h.run hrun hR
  exact ⟨t, t', ht, hR, hrun', hR'⟩

end Simulation

/-! ## What a run leaves alone -/

variable {S : System σ α} {I : σ → Prop} {P : α → Prop}

theorem System.Run.kept (hI : ∀ s a t, I s → P a → S.step s a t → I t) {s t : σ} {l : List α} (h : S.Run s l t)
    (hs : I s) (hl : ∀ a ∈ l, P a) : I t := by
  induction h with
  | nil => exact hs
  | snoc _ hstep ih =>
    have ht := ih fun a ha => hl a (List.mem_append_left _ ha)
    exact hI _ _ _ ht (hl _ (List.mem_append_right _ (List.mem_singleton_self _))) hstep

end Kernel.Lib
