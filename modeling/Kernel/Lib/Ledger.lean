import Mathlib.Algebra.BigOperators.Group.Finset.Basic
import Mathlib.Algebra.Group.Basic
import Mathlib.Tactic.Abel

/-!
# Ledgers

A total that many add to, each a while after it is due. What is due is in the
total or still pending.
-/

namespace Kernel.Lib

/-- `total` and all that is pending make up `due`, and only finitely many have something pending. -/
def Ledger {ι M : Type} [AddCommGroup M] (total : M) (pending : ι → M) (due : M) : Prop :=
  ∃ p : Finset ι, (∀ i ∉ p, pending i = 0) ∧ total + ∑ i ∈ p, pending i = due

namespace Ledger

variable {ι M : Type} [AddCommGroup M] {total total' due due' x : M} {pending : ι → M}

theorem settled (h : Ledger total pending due) (hp : ∀ i, pending i = 0) : total = due := by
  obtain ⟨p, -, hsum⟩ := h
  rw [Finset.sum_eq_zero fun i _ => hp i, add_zero] at hsum
  exact hsum

theorem none (hp : ∀ i, pending i = 0) : Ledger total pending total := by
  refine ⟨∅, fun i _ => hp i, ?_⟩
  rw [Finset.sum_empty, add_zero]

theorem update [DecidableEq ι] (h : Ledger total pending due) (i : ι)
    (hx : total' + x + due = total + pending i + due') : Ledger total' (Function.update pending i x) due' := by
  obtain ⟨p, hzero, hsum⟩ := h
  have hold : ∑ j ∈ insert i p, pending j = ∑ j ∈ p, pending j :=
    Finset.sum_subset (Finset.subset_insert i p) (fun j _ hj => hzero j hj) |>.symm
  have hsplit : ∑ j ∈ insert i p, pending j = pending i + ∑ j ∈ (insert i p).erase i, pending j :=
    (Finset.add_sum_erase _ _ (Finset.mem_insert_self i p)).symm
  have hnew : ∑ j ∈ insert i p, Function.update pending i x j = x + ∑ j ∈ (insert i p).erase i, pending j := by
    rw [← Finset.add_sum_erase _ _ (Finset.mem_insert_self i p), Function.update_self]
    congr 1
    exact Finset.sum_congr rfl fun j hj => Function.update_of_ne (Finset.ne_of_mem_erase hj) _ _
  refine ⟨insert i p, fun j hj => ?_, ?_⟩
  · rw [Finset.mem_insert, not_or] at hj
    rw [Function.update_of_ne hj.1]
    exact hzero j hj.2
  · rw [← hold, hsplit] at hsum
    rw [hnew]
    have hrest : ∑ j ∈ (insert i p).erase i, pending j = due - total - pending i := by
      rw [← hsum]
      abel
    have hdue : due' = total' + x + due - total - pending i := by
      rw [hx]
      abel
    rw [hrest, hdue]
    abel

end Ledger

end Kernel.Lib
