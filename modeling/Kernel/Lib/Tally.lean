import Mathlib.Data.Set.Card

/-!
# Counters

A counter that says how many things have a property, and what becomes of it
when one thing gets the property or loses it.
-/

namespace Kernel.Lib

/-- `n` things have the property `P`. -/
structure Tally {ι : Type} (n : Nat) (P : ι → Prop) : Prop where
  finite : {i | P i}.Finite
  card : {i | P i}.ncard = n

namespace Tally

variable {ι : Type} {n : Nat} {P Q : ι → Prop} {a : ι}

theorem congr (h : Tally n P) (heq : ∀ i, Q i ↔ P i) : Tally n Q := by
  have hset : {i | Q i} = {i | P i} := Set.ext heq
  exact ⟨hset ▸ h.finite, hset ▸ h.card⟩

theorem empty (h : ∀ i, ¬ P i) : Tally 0 P := by
  have hset : {i | P i} = ∅ := Set.eq_empty_of_forall_notMem h
  exact ⟨hset ▸ Set.finite_empty, by rw [hset, Set.ncard_empty]⟩

theorem add (h : Tally n P) (ha : ¬ P a) (heq : ∀ i, Q i ↔ i = a ∨ P i) : Tally (n + 1) Q := by
  have hset : {i | Q i} = insert a {i | P i} := Set.ext heq
  refine ⟨hset ▸ h.finite.insert a, ?_⟩
  have hmem : a ∉ {i | P i} := ha
  rw [hset, Set.ncard_insert_of_notMem hmem h.finite, h.card]

theorem sub (h : Tally n P) (ha : P a) (heq : ∀ i, Q i ↔ i ≠ a ∧ P i) : Tally (n - 1) Q := by
  have hset : {i | Q i} = {i | P i} \ {a} := Set.ext fun i => (heq i).trans and_comm
  refine ⟨hset ▸ h.finite.sdiff, ?_⟩
  have hmem : a ∈ {i | P i} := ha
  have hone := Set.ncard_sdiff_singleton_add_one hmem h.finite
  rw [h.card] at hone
  rw [hset]
  omega

theorem pos_iff (h : Tally n P) : 0 < n ↔ ∃ i, P i := by
  rw [← h.card, Set.ncard_pos h.finite]
  rfl

theorem swap {b : ι} (h : Tally n P) (ha : P a) (hb : ¬ P b) (heq : ∀ i, Q i ↔ i = b ∨ i ≠ a ∧ P i) : Tally n Q := by
  have hpos := h.pos_iff.mpr ⟨a, ha⟩
  have hsub := h.sub (a := a) (Q := fun i => i ≠ a ∧ P i) ha fun i => Iff.rfl
  have hadd := hsub.add (a := b) (fun hc => hb hc.2) heq
  rw [Nat.sub_add_cancel hpos] at hadd
  exact hadd

end Tally

end Kernel.Lib
