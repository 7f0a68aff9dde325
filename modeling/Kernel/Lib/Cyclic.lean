import Mathlib.Logic.Function.Iterate
import Mathlib.Tactic.Common

/-!
# A counter that wraps

It goes through the numbers from `lo` up to `hi`, and from the last one back to `lo`.
-/

namespace Kernel.Lib.Cyclic

def next (lo hi n : Int) : Int := if n + 1 ≥ hi then lo else n + 1

/-- How many turns it takes from `n` to `m`. -/
def turns (lo hi n m : Int) : Nat := if n ≤ m then (m - n).toNat else (m - n + (hi - lo)).toNat

/-- `c` is the first number with `p` that the counter comes to from `n`. -/
structure IsFirst (lo hi : Int) (p : Int → Prop) (n c : Int) : Prop where
  mem : lo ≤ c ∧ c < hi
  holds : p c
  least : ∀ m, lo ≤ m → m < hi → p m → turns lo hi n c ≤ turns lo hi n m

section

variable {lo hi n m c : Int} {p : Int → Prop} {k : Nat}

theorem next_mem (hn : lo ≤ n ∧ n < hi) : lo ≤ next lo hi n ∧ next lo hi n < hi := by
  unfold next
  split_ifs <;> omega

theorem iterate_mem (hn : lo ≤ n ∧ n < hi) (k : Nat) : lo ≤ (next lo hi)^[k] n ∧ (next lo hi)^[k] n < hi := by
  induction k with
  | zero => exact hn
  | succ k ih =>
    rw [Function.iterate_succ_apply']
    exact next_mem ih

theorem next_iterate (hn : lo ≤ n ∧ n < hi) (hk : (k : Int) < hi - lo) :
    (next lo hi)^[k] n = if n + k < hi then n + k else n + k - (hi - lo) := by
  induction k with
  | zero =>
    rw [Function.iterate_zero_apply]
    split_ifs <;> omega
  | succ k ih =>
    rw [Function.iterate_succ_apply', ih (by omega), next]
    split_ifs <;> omega

theorem turns_lt (hn : lo ≤ n ∧ n < hi) (hm : lo ≤ m ∧ m < hi) : (turns lo hi n m : Int) < hi - lo := by
  unfold turns
  split_ifs <;> omega

theorem iterate_turns (hn : lo ≤ n ∧ n < hi) (hm : lo ≤ m ∧ m < hi) : (next lo hi)^[turns lo hi n m] n = m := by
  rw [next_iterate hn (turns_lt hn hm)]
  unfold turns
  split_ifs <;> omega

theorem turns_iterate (hn : lo ≤ n ∧ n < hi) (hk : (k : Int) < hi - lo) :
    turns lo hi n ((next lo hi)^[k] n) = k := by
  rw [next_iterate hn hk]
  unfold turns
  split_ifs <;> omega

theorem forall_of_round (hn : lo ≤ n ∧ n < hi) (h : ∀ k : Nat, (k : Int) < hi - lo → p ((next lo hi)^[k] n))
    (hm : lo ≤ m ∧ m < hi) : p m := by
  have hp := h _ (turns_lt hn hm)
  rwa [iterate_turns hn hm] at hp

theorem isFirst_of_iterate (hn : lo ≤ n ∧ n < hi) (hp : p ((next lo hi)^[k] n))
    (hbefore : ∀ j < k, ¬ p ((next lo hi)^[j] n)) : IsFirst lo hi p n ((next lo hi)^[k] n) := by
  have hle : ∀ m, lo ≤ m ∧ m < hi → p m → k ≤ turns lo hi n m := by
    intro m hm hpm
    by_contra hlt
    refine hbefore _ (Nat.lt_of_not_le hlt) ?_
    rwa [iterate_turns hn hm]
  have hmem := iterate_mem hn k
  have hround : (k : Int) < hi - lo := by
    have hlt := turns_lt hn hmem
    have := hle _ hmem hp
    omega
  refine ⟨hmem, hp, fun m hlo hhi hpm => ?_⟩
  rw [turns_iterate hn hround]
  exact hle m ⟨hlo, hhi⟩ hpm

theorem IsFirst.eq_self (h : IsFirst lo hi p n c) (hn : lo ≤ n ∧ n < hi) (hp : p n) : c = n := by
  have hzero : turns lo hi n n = 0 := by
    unfold turns
    rw [if_pos (Int.le_refl n)]
    omega
  have hle := h.least n hn.1 hn.2 hp
  have hc := iterate_turns hn h.mem
  rw [show turns lo hi n c = 0 by omega] at hc
  exact hc.symm

end

end Kernel.Lib.Cyclic
