import Kernel.Lib.Simulation
import Mathlib.Logic.Function.Basic

/-!
# Locks that are taken in one step

The locks are of type `L`, and those who take them of type `C`.
-/

namespace Kernel.Lib

inductive LockOp (L : Type) where
  | acquire (l : L)
  | release (l : L)
  | internal

/-- Who has which lock. -/
inductive MutexStep {L C : Type} [DecidableEq L] : (L → Option C) → C × LockOp L → (L → Option C) → Prop where
  | acquire {h : L → Option C} {c : C} {l : L} : h l = none → MutexStep h (c, .acquire l) (Function.update h l (some c))
  | release {h : L → Option C} {c : C} {l : L} : h l = some c → MutexStep h (c, .release l) (Function.update h l none)
  | internal {h : L → Option C} {c : C} : MutexStep h (c, .internal) h

def mutexSystem (L C : Type) [DecidableEq L] : System (L → Option C) (C × LockOp L) where
  init h := ∀ l, h l = none
  step := MutexStep

section

variable {L C : Type} [DecidableEq L] {h h' : L → Option C} {l : List (C × LockOp L)} {c d : C} {k : L}

theorem mutex_keeps (hrun : (mutexSystem L C).Run h l h') (hc : h k = some c) (hl : (c, LockOp.release k) ∉ l) :
    h' k = some c := by
  refine hrun.kept (I := fun h => h k = some c) (P := fun a => a ≠ (c, LockOp.release k)) ?_ hc fun a ha he =>
    hl (he ▸ ha)
  intro h a h' hc ha hs
  cases hs with
  | acquire hm =>
    rw [Function.update_of_ne (by rintro rfl; rw [hm] at hc; cases hc)]
    exact hc
  | release hm =>
    rw [Function.update_of_ne (by rintro rfl; rw [hm] at hc; cases hc; exact ha rfl)]
    exact hc
  | internal => exact hc

theorem mutex_excludes {l₁ l₂ l₃ : List (C × LockOp L)}
    (hrun : (mutexSystem L C).Run h (l₁ ++ (c, LockOp.acquire k) :: l₂ ++ (d, LockOp.acquire k) :: l₃) h') :
    (c, LockOp.release k) ∈ l₂ := by
  obtain ⟨h₃, hleft, hright⟩ := hrun.split
  obtain ⟨h₁, _, hmid⟩ := hleft.split
  obtain ⟨h₂, htake, hmid⟩ := hmid.head
  obtain ⟨_, hagain, _⟩ := hright.head
  by_contra hnot
  cases htake with
  | acquire =>
    have hkept := mutex_keeps hmid (Function.update_self _ _ _) hnot
    cases hagain with
    | acquire hnone =>
      rw [hkept] at hnone
      cases hnone

end

end Kernel.Lib
