import Mathlib.Logic.Relation

/-!
# Transition systems

States, labelled steps and runs. A run may be guarded: a guard is a condition
on the state before each step, and an invariant may need it.
-/

namespace Kernel.Lib

structure System (σ α : Type) where
  init : σ → Prop
  step : σ → α → σ → Prop

variable {σ α : Type} {S : System σ α}

namespace System

/-- A run from `s` to `t`, with the labels of its steps in order. -/
inductive Run (S : System σ α) : σ → List α → σ → Prop where
  | nil (s : σ) : Run S s [] s
  | snoc {s t u : σ} {l : List α} {a : α} : Run S s l t → S.step t a u → Run S s (l ++ [a]) u

/-- A run whose every step meets the guard `G` in the state it starts from. -/
inductive GuardedRun (S : System σ α) (G : σ → α → Prop) : σ → List α → σ → Prop where
  | nil (s : σ) : GuardedRun S G s [] s
  | snoc {s t u : σ} {l : List α} {a : α} :
      GuardedRun S G s l t → G t a → S.step t a u → GuardedRun S G s (l ++ [a]) u

def Reachable (S : System σ α) (t : σ) : Prop := ∃ s l, S.init s ∧ Run S s l t

def GuardedReachable (S : System σ α) (G : σ → α → Prop) (t : σ) : Prop :=
  ∃ s l, S.init s ∧ GuardedRun S G s l t

/-- `I` holds at the start and every step keeps it. -/
structure Inductive (S : System σ α) (I : σ → Prop) : Prop where
  init : ∀ s, S.init s → I s
  step : ∀ s a t, I s → S.step s a t → I t

theorem Run.preserves {I : σ → Prop} (hI : ∀ s a t, I s → S.step s a t → I t)
    {s t : σ} {l : List α} (h : Run S s l t) (hs : I s) : I t := by
  induction h with
  | nil => exact hs
  | snoc _ hstep ih => exact hI _ _ _ ih hstep

theorem GuardedRun.preserves {G : σ → α → Prop} {I : σ → Prop}
    (hI : ∀ s a t, I s → G s a → S.step s a t → I t)
    {s t : σ} {l : List α} (h : GuardedRun S G s l t) (hs : I s) : I t := by
  induction h with
  | nil => exact hs
  | snoc _ hg hstep ih => exact hI _ _ _ ih hg hstep

theorem Inductive.reachable {I : σ → Prop} (hI : Inductive S I) {t : σ} (h : Reachable S t) : I t := by
  obtain ⟨s, l, hs, hrun⟩ := h
  exact hrun.preserves hI.step (hI.init s hs)

theorem Reachable.step {s t : σ} {a : α} (h : Reachable S s) (hs : S.step s a t) : Reachable S t := by
  obtain ⟨s₀, l, h₀, hrun⟩ := h
  exact ⟨s₀, l ++ [a], h₀, hrun.snoc hs⟩

theorem Reachable.run {s t : σ} {l : List α} (h : Reachable S s) (hrun : Run S s l t) : Reachable S t := by
  induction hrun with
  | nil => exact h
  | snoc _ hs ih => exact ih.step hs

theorem GuardedReachable.step {G : σ → α → Prop} {s t : σ} {a : α} (h : GuardedReachable S G s) (hg : G s a)
    (hs : S.step s a t) : GuardedReachable S G t := by
  obtain ⟨s₀, l, h₀, hrun⟩ := h
  exact ⟨s₀, l ++ [a], h₀, hrun.snoc hg hs⟩

theorem GuardedReachable.run {G : σ → α → Prop} {s t : σ} {l : List α} (h : GuardedReachable S G s)
    (hrun : GuardedRun S G s l t) : GuardedReachable S G t := by
  induction hrun with
  | nil => exact h
  | snoc _ hg hs ih => exact ih.step hg hs

theorem GuardedRun.run {G : σ → α → Prop} {s t : σ} {l : List α} (h : GuardedRun S G s l t) : Run S s l t := by
  induction h with
  | nil => exact Run.nil _
  | snoc _ _ hs ih => exact ih.snoc hs

theorem GuardedReachable.reachable {G : σ → α → Prop} {t : σ} (h : GuardedReachable S G t) : Reachable S t := by
  obtain ⟨s, l, hs, hrun⟩ := h
  exact ⟨s, l, hs, hrun.run⟩

theorem Run.trans {s t u : σ} {l k : List α} (h : Run S s l t) (h' : Run S t k u) : Run S s (l ++ k) u := by
  induction h' with
  | nil => simpa using h
  | snoc _ hs ih => rw [← List.append_assoc]; exact ih.snoc hs

theorem Run.single {s t : σ} {a : α} (h : S.step s a t) : Run S s [a] t :=
  (Run.nil s).snoc h

theorem Run.split {s u : σ} {l k : List α} (h : Run S s (l ++ k) u) : ∃ t, Run S s l t ∧ Run S t k u := by
  generalize hm : l ++ k = m at h
  induction h generalizing k with
  | nil =>
    obtain ⟨rfl, rfl⟩ := List.append_eq_nil_iff.mp hm
    exact ⟨s, .nil s, .nil s⟩
  | @snoc t u m a hrun hstep ih =>
    rcases List.eq_nil_or_concat k with rfl | ⟨k, b, rfl⟩
    · rw [List.append_nil] at hm
      rw [hm]
      exact ⟨u, hrun.snoc hstep, .nil u⟩
    · rw [List.concat_eq_append, ← List.append_assoc] at hm
      obtain ⟨hlk, hb⟩ := List.append_inj' hm rfl
      obtain rfl := List.singleton_inj.mp hb
      obtain ⟨v, hv, hv'⟩ := ih hlk
      rw [List.concat_eq_append]
      exact ⟨v, hv, hv'.snoc hstep⟩

theorem Run.head {s u : σ} {a : α} {l : List α} (h : Run S s (a :: l) u) : ∃ t, S.step s a t ∧ Run S t l u := by
  obtain ⟨t, hfirst, hrest⟩ := Run.split (l := [a]) h
  generalize hm : [a] = m at hfirst
  cases hfirst with
  | nil => cases hm
  | @snoc t' u' m' b hnil hstep =>
    obtain ⟨hm', hb⟩ := List.append_inj' (show [] ++ [a] = m' ++ [b] from hm) rfl
    obtain rfl := List.singleton_inj.mp hb
    rw [← hm'] at hnil
    generalize hk : ([] : List α) = k at hnil
    cases hnil with
    | nil => exact ⟨t, hstep, hrest⟩
    | snoc _ _ => simp at hk

/-- A run whose first step meets the guard, and whose others are never held up by it. -/
theorem Run.guarded {G : σ → α → Prop} {s t : σ} {l : List α} (h : Run S s l t) (hhead : ∀ a ∈ l.head?, G s a)
    (htail : ∀ a ∈ l.tail, ∀ u, G u a) : GuardedRun S G s l t := by
  have hall : (l = [] → t = s) ∧ GuardedRun S G s l t := by
    induction h with
    | nil => exact ⟨fun _ => rfl, .nil _⟩
    | @snoc t u l a hrun hstep ih =>
      refine ⟨fun h => absurd h (by simp), ?_⟩
      cases l with
      | nil =>
        obtain ⟨hst, hg⟩ := ih (by simp) (by simp)
        refine hg.snoc ?_ hstep
        rw [hst rfl]
        exact hhead a rfl
      | cons b l =>
        have hg := (ih hhead fun c hc => htail c (by simpa using Or.inl hc)).2
        exact hg.snoc (htail a (by simp) _) hstep
  exact hall.2

end System

end Kernel.Lib
