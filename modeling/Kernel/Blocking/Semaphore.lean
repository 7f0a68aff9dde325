import Kernel.Blocking.Missed

/-!
# Semaphores (`semaphore.h`)

The count is what there was and was given, less what was taken. While a thread
is parked there are as many threads on their way as the count.
-/

namespace Kernel.Blocking

open Lib Kernel.Thread

variable {k : Nat} {v : BitVec 64} {m m' : Monitor (BitVec 64)}

/-- What there was in the beginning, and what was given and taken since. -/
structure CountOk (v : BitVec 64) (m : Monitor (BitVec 64)) : Prop where
  takes : m.takes ≤ v.toNat + m.gives
  count : m.value.toNat = (v.toNat + m.gives - m.takes) % 2 ^ 64

theorem CountOk.step {a : Nat × MonitorOp} (h : CountOk v m) (hs : MonitorStep Semaphore k m a m') : CountOk v m' := by
  obtain ⟨htakes, hcount⟩ := h
  cases hs with
  | take hp hb hs =>
    have hne : m.value.toNat ≠ 0 := by
      intro hz
      rw [(Semaphore.blocked_iff _).2 hz] at hb
      cases hb
    have hsub : (m.value - 1).toNat = m.value.toNat - 1 := by bv_omega
    constructor
    · change m.takes + 1 ≤ v.toNat + m.gives
      by_contra hlt
      rw [hcount] at hne
      exact hne (by omega)
    · change (m.value - 1).toNat = (v.toNat + m.gives - (m.takes + 1)) % 2 ^ 64
      rw [hsub]
      omega
  | give hp hs =>
    constructor
    · change m.takes ≤ v.toNat + (m.gives + 1)
      omega
    · change (m.value + 1).toNat = (v.toNat + (m.gives + 1) - m.takes) % 2 ^ 64
      rw [BitVec.toNat_add, hcount]
      change (_ + 1) % 2 ^ 64 = _
      omega
  | _ => exact ⟨htakes, hcount⟩

theorem countOk_inductive : System.Inductive (monitorSystem Semaphore k v) (CountOk v) where
  init _ h := by
    refine ⟨?_, ?_⟩
    · rw [h.takes]
      exact Nat.zero_le _
    · rw [h.takes, h.gives, h.value]
      exact (Nat.mod_eq_of_lt v.isLt).symm
  step _ _ _ h hs := CountOk.step h hs

theorem semaphore_count (n : BitVec 32) (h : (monitorSystem Semaphore k (n.setWidth 64)).Reachable m) :
    m.takes ≤ n.toNat + m.gives ∧ m.value.toNat = (n.toNat + m.gives - m.takes) % 2 ^ 64 ∧
    ((monitorSystem Semaphore k (n.setWidth 64)).GuardedReachable FewGives m → FewMissed m.threads →
      (m.threads.cond k).waiting ≠ [] → ∃ F : Finset Tid, (∀ t ∈ F, Coming m k t) ∧ m.value.toNat ≤ F.card) := by
  have hn : (n.setWidth 64).toNat = n.toNat := BitVec.toNat_setWidth_of_le (by decide)
  obtain ⟨htakes, hcount⟩ := countOk_inductive.reachable h
  rw [hn] at htakes hcount
  refine ⟨htakes, hcount, fun hg hfew hparked => ?_⟩
  obtain ⟨hok, hw⟩ := waitersOk_of_guarded hg
  exact hw.coming hok hfew hparked

theorem semaphore_count_one :
    ∃ F : Finset Tid, (∀ t ∈ F, Coming (oneParked Semaphore 1) 0 t) ∧ 1 ≤ F.card := by
  have h := oneParked_reachable (K := Semaphore) (v := 1) rfl rfl
  exact (semaphore_count 1 h.reachable).2.2 h oneParked_fewMissed (by decide)

/-- A thread is parked though the count is 1, and `2 ^ 64` calls of `up` leave it 0. -/
theorem semaphore_count_wraps :
    (∃ m, (monitorSystem Semaphore 0 (BitVec.setWidth 64 (1 : BitVec 32))).Reachable m ∧ m.value = 1 ∧
      (m.threads.cond 0).waiting ≠ [] ∧ ∀ t, ¬ m.Eager 0 t) ∧
    ∃ m, (monitorSystem Semaphore 0 (BitVec.setWidth 64 (0 : BitVec 32))).Reachable m ∧ m.takes = 0 ∧
      m.gives = 2 ^ 64 ∧ m.value = 0 := by
  refine ⟨missed_parks rfl rfl rfl, ?_⟩
  obtain ⟨m, h, htakes, hgives, -⟩ := gives_reachable (K := Semaphore) (k := 0) (v := 0) rfl (2 ^ 64)
  refine ⟨m, h.reachable, htakes, hgives, ?_⟩
  have hcount := (countOk_inductive.reachable h.reachable).count
  rw [htakes, hgives] at hcount
  exact BitVec.eq_of_toNat_eq hcount

end Kernel.Blocking
