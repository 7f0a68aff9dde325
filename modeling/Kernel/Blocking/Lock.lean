import Kernel.Blocking.Missed

/-!
# Locks that block (`blocking_lock.h`)

At most one thread has a lock, and a free lock is never left with only parked
waiters.
-/

namespace Kernel.Blocking

open Lib Kernel.Thread

variable {k : Nat} {m : Monitor Bool}

theorem blocking_lock (h : (monitorSystem BlockingLock k false).Reachable m) :
    (∀ t w, m.holds t = true → m.holds w = true → t = w) ∧
    ((monitorSystem BlockingLock k false).GuardedReachable FewGives m → FewMissed m.threads → m.value = false →
      (m.threads.cond k).waiting ≠ [] → ∃ t, Coming m k t) := by
  refine ⟨(monitorOk_inductive.reachable h).one rfl, fun hg hfew hfree hparked => ?_⟩
  obtain ⟨hok, hw⟩ := waitersOk_of_guarded hg
  obtain ⟨F, hF, hcard⟩ := hw.coming hok hfew hparked
  rw [hfree] at hcard
  obtain ⟨t, ht⟩ := Finset.card_pos.1 (Nat.lt_of_lt_of_le Nat.one_pos hcard)
  exact ⟨t, hF t ht⟩

theorem blocking_lock_notified : ∃ t, Coming (oneParked BlockingLock false) 0 t := by
  have h := oneParked_reachable (K := BlockingLock) (v := false) rfl rfl
  exact (blocking_lock h.reachable).2 h oneParked_fewMissed rfl (by decide)

theorem blocking_lock_missed :
    ∃ m, (monitorSystem BlockingLock 0 false).Reachable m ∧ m.value = false ∧ (m.threads.cond 0).waiting ≠ [] ∧
      ∀ t, ¬ m.Eager 0 t :=
  missed_parks rfl rfl rfl

end Kernel.Blocking
