import Mathlib.Order.Preorder.Finite
import Mathlib.Tactic.Common

/-!
# Where a loop goes

A loop body takes a state to the next one, or to `none`, where the loop is
left. Over finitely many states a loop is left if and only if no state comes twice.
-/

namespace Kernel.Lib

variable {α : Type} {f : α → Option α} {a b : α}

def orbit (f : α → Option α) (a : α) : Nat → Option α
  | 0 => some a
  | k + 1 => (f a).bind fun b => orbit f b k

theorem orbit_turn (k : Nat) : orbit f a (k + 1) = (f a).bind fun b => orbit f b k := rfl

theorem orbit_add (i j : Nat) : orbit f a (i + j) = (orbit f a i).bind fun b => orbit f b j := by
  induction i generalizing a with
  | zero => rw [Nat.zero_add]; rfl
  | succ i ih =>
    rw [Nat.succ_add, orbit_turn, orbit_turn]
    cases f a with
    | none => rfl
    | some b => exact ih

theorem orbit_succ (k : Nat) : orbit f a (k + 1) = (orbit f a k).bind f := by
  rw [orbit_add]
  refine congrArg (orbit f a k).bind (funext fun b => ?_)
  rw [orbit_turn]
  cases f b <;> rfl

theorem orbit_none {i j : Nat} (h : orbit f a i = none) (hij : i ≤ j) : orbit f a j = none := by
  obtain ⟨k, rfl⟩ := Nat.exists_eq_add_of_le hij
  rw [orbit_add, h]
  rfl

theorem orbit_cycle {p : Nat} (h : orbit f b p = some b) (k : Nat) : orbit f b (k * p) = some b := by
  induction k with
  | zero => rw [Nat.zero_mul]; rfl
  | succ k ih =>
    rw [Nat.succ_mul, orbit_add, ih]
    exact h

theorem orbit_ends_iff {S : Set α} (hS : S.Finite) (h : ∀ k b, orbit f a k = some b → b ∈ S) :
    (∃ k, orbit f a k = none) ↔ ∀ i j b, i < j → orbit f a i = some b → orbit f a j ≠ some b := by
  constructor
  · rintro ⟨k, hk⟩ i j b hij hi hj
    obtain ⟨p, rfl⟩ := Nat.exists_eq_add_of_lt hij
    rw [Nat.add_assoc, orbit_add, hi] at hj
    have hcycle : orbit f a (i + k * (p + 1)) = some b := by
      rw [orbit_add, hi]
      exact orbit_cycle hj k
    have hle : k ≤ i + k * (p + 1) := by
      rw [Nat.mul_succ]
      omega
    rw [orbit_none hk hle] at hcycle
    cases hcycle
  · intro hnew
    by_contra hgo
    have hsome : ∀ k, ∃ b, orbit f a k = some b := fun k =>
      Option.ne_none_iff_exists'.mp fun hk => hgo ⟨k, hk⟩
    choose g hg using hsome
    obtain ⟨i, j, hij, heq⟩ := hS.exists_lt_map_eq_of_forall_mem fun k => h k (g k) (hg k)
    exact hnew i j (g i) hij (hg i) (by rw [hg j, heq])

end Kernel.Lib
