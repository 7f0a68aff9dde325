import Mathlib.Data.List.Nodup
import Mathlib.Data.List.Pairwise
import Mathlib.Data.List.Perm.Basic

/-!
# Places

Things that are handed from place to place, and are in one place at a time.
-/

namespace Kernel.Lib

variable {ι α : Type} {live live' : α → Prop} {cell cell' : ι → List α}

/-- What lives is in a place, no place holds a thing twice, and no two places hold one thing. -/
structure Placed (live : α → Prop) (cell : ι → List α) : Prop where
  held : ∀ x, live x ↔ ∃ i, x ∈ cell i
  nodup : ∀ i, (cell i).Nodup
  apart : ∀ i j x, x ∈ cell i → x ∈ cell j → i = j

namespace Placed

theorem existsUnique (h : Placed live cell) {x : α} (hx : live x) : ∃! i, x ∈ cell i := by
  obtain ⟨i, hi⟩ := (h.held x).mp hx
  exact ⟨i, hi, fun j hj => h.apart j i x hj hi⟩

/-- The places of `S` may exchange what they hold. -/
theorem shuffle (h : Placed live cell) (S : List ι) (hS : S.Nodup) (hperm : (S.flatMap cell').Perm (S.flatMap cell))
    (hframe : ∀ i, i ∉ S → cell' i = cell i) : Placed live cell' := by
  have hmem : ∀ x, (∃ i, i ∈ S ∧ x ∈ cell' i) ↔ ∃ i, i ∈ S ∧ x ∈ cell i := by
    intro x
    rw [← List.mem_flatMap, ← List.mem_flatMap, hperm.mem_iff]
  have hnodup : (S.flatMap cell').Nodup := by
    refine hperm.nodup_iff.mpr (List.nodup_flatMap.mpr ⟨fun i _ => h.nodup i, ?_⟩)
    refine hS.imp fun {i j} hij => ?_
    exact fun x hi hj => hij (h.apart i j x hi hj)
  obtain ⟨hin, hdisj⟩ := List.nodup_flatMap.mp hnodup
  -- What a place outside of `S` holds was in no place of `S`, and so is in none.
  have hout : ∀ i j x, i ∈ S → j ∉ S → x ∈ cell' i → x ∉ cell' j := by
    intro i j x hi hj hxi hxj
    obtain ⟨i', hi', hxi'⟩ := (hmem x).mp ⟨i, hi, hxi⟩
    rw [hframe j hj] at hxj
    exact hj (h.apart i' j x hxi' hxj ▸ hi')
  constructor
  · intro x
    rw [h.held x]
    constructor
    · rintro ⟨i, hi⟩
      by_cases hiS : i ∈ S
      · obtain ⟨j, -, hj⟩ := (hmem x).mpr ⟨i, hiS, hi⟩
        exact ⟨j, hj⟩
      · exact ⟨i, by rwa [hframe i hiS]⟩
    · rintro ⟨i, hi⟩
      by_cases hiS : i ∈ S
      · obtain ⟨j, -, hj⟩ := (hmem x).mp ⟨i, hiS, hi⟩
        exact ⟨j, hj⟩
      · exact ⟨i, by rwa [← hframe i hiS]⟩
  · intro i
    by_cases hi : i ∈ S
    · exact hin i hi
    · rw [hframe i hi]
      exact h.nodup i
  · intro i j x hxi hxj
    by_cases hi : i ∈ S
    · by_cases hj : j ∈ S
      · by_contra hne
        have : Std.Symm (Function.onFun List.Disjoint cell') := ⟨fun a b hab x hb ha => hab ha hb⟩
        exact hdisj.forall hi hj hne hxi hxj
      · exact absurd hxj (hout i j x hi hj hxi)
    · by_cases hj : j ∈ S
      · exact absurd hxi (hout j i x hj hi hxj)
      · rw [hframe i hi] at hxi
        rw [hframe j hj] at hxj
        exact h.apart i j x hxi hxj

theorem add (h : Placed live cell) {i : ι} {a : α} (hnew : ¬ live a) (hlive : ∀ x, live' x ↔ x = a ∨ live x)
    (hi : cell' i = a :: cell i) (hframe : ∀ j, j ≠ i → cell' j = cell j) : Placed live' cell' := by
  have hnot : ∀ j, a ∉ cell j := fun j hj => hnew ((h.held a).mpr ⟨j, hj⟩)
  have hcell : ∀ j x, x ∈ cell' j ↔ (x = a ∧ j = i) ∨ x ∈ cell j := by
    intro j x
    by_cases hj : j = i
    · subst hj
      rw [hi, List.mem_cons]
      simp
    · rw [hframe j hj]
      simp [hj]
  constructor
  · intro x
    rw [hlive, h.held]
    constructor
    · rintro (hx | ⟨j, hj⟩)
      · exact ⟨i, (hcell i x).mpr (Or.inl ⟨hx, rfl⟩)⟩
      · exact ⟨j, (hcell j x).mpr (Or.inr hj)⟩
    · rintro ⟨j, hj⟩
      exact ((hcell j x).mp hj).imp And.left fun hx => ⟨j, hx⟩
  · intro j
    by_cases hj : j = i
    · subst hj
      rw [hi]
      exact List.nodup_cons.mpr ⟨hnot j, h.nodup j⟩
    · rw [hframe j hj]
      exact h.nodup j
  · intro j k x hj hk
    rcases (hcell j x).mp hj with ⟨rfl, rfl⟩ | hj
    · rcases (hcell k x).mp hk with ⟨-, rfl⟩ | hk
      · rfl
      · exact absurd hk (hnot k)
    · rcases (hcell k x).mp hk with ⟨rfl, rfl⟩ | hk
      · exact absurd hj (hnot j)
      · exact h.apart j k x hj hk

theorem drop (h : Placed live cell) {i : ι} {a : α} (hi : cell i = a :: cell' i)
    (hlive : ∀ x, live' x ↔ x ≠ a ∧ live x) (hframe : ∀ j, j ≠ i → cell' j = cell j) : Placed live' cell' := by
  have hsub : ∀ j, (cell' j).Sublist (cell j) := by
    intro j
    by_cases hj : j = i
    · subst hj
      rw [hi]
      exact List.sublist_cons_self ..
    · rw [hframe j hj]
  have hia : a ∈ cell i := by rw [hi]; exact List.mem_cons_self
  constructor
  · intro x
    rw [hlive, h.held]
    constructor
    · rintro ⟨hx, j, hj⟩
      by_cases hji : j = i
      · subst hji
        rw [hi] at hj
        exact ⟨j, (List.mem_cons.mp hj).resolve_left hx⟩
      · exact ⟨j, by rwa [hframe j hji]⟩
    · rintro ⟨j, hj⟩
      refine ⟨?_, j, (hsub j).subset hj⟩
      rintro rfl
      obtain rfl := h.apart j i x ((hsub j).subset hj) hia
      have hnodup := h.nodup j
      rw [hi] at hnodup
      exact (List.nodup_cons.mp hnodup).1 hj
  · exact fun j => (h.nodup j).sublist (hsub j)
  · exact fun j k x hj hk => h.apart j k x ((hsub j).subset hj) ((hsub k).subset hk)

end Placed

end Kernel.Lib
