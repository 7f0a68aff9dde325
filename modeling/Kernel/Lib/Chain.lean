import Mathlib.Data.List.Basic
import Mathlib.Data.List.Nodup
import Mathlib.Logic.Function.Basic
import Mathlib.Logic.Function.Iterate

/-!
# Singly linked lists

A function links a node to the one after it, if there is one.
-/

namespace Kernel.Lib

section

variable {α : Type*} {next next' : α → Option α} {p : Option α} {x y a : α} {l k : List α}

/-- The nodes of `l` follow each other from `p` on, and the last one links to none. -/
def ChainFrom (next : α → Option α) : Option α → List α → Prop
  | p, [] => p = none
  | p, x :: l => p = some x ∧ ChainFrom next (next x) l

/-- Links lead from `p` to `x`. -/
def Links (next : α → Option α) (p : Option α) (x : α) : Prop := ∃ n, (fun o => o.bind next)^[n] p = some x

theorem ChainFrom.congr (h : ChainFrom next p l) (hn : ∀ x ∈ l, next' x = next x) : ChainFrom next' p l := by
  induction l generalizing p with
  | nil => exact h
  | cons x l ih =>
    obtain ⟨rfl, hrest⟩ := h
    refine ⟨rfl, ?_⟩
    rw [hn x List.mem_cons_self]
    exact ih hrest fun y hy => hn y (List.mem_cons_of_mem _ hy)

theorem ChainFrom.head (h : ChainFrom next p l) : p = l.head? := by
  cases l with
  | nil => exact h
  | cons x l => exact h.1

theorem ChainFrom.none_iff (h : ChainFrom next p l) : p = none ↔ l = [] := by
  rw [h.head, List.head?_eq_none_iff]

theorem ChainFrom.snoc [DecidableEq α] (h : ChainFrom next p l) (hl : l.Nodup) (hlast : l.getLast? = some y)
    (ha : a ∉ l) : ChainFrom (Function.update (Function.update next a none) y (some a)) p (l ++ [a]) := by
  induction l generalizing p with
  | nil => cases hlast
  | cons x l ih =>
    obtain ⟨rfl, hrest⟩ := h
    obtain ⟨hxl, hl⟩ := List.nodup_cons.mp hl
    have hax : a ≠ x := fun e => ha (e ▸ List.mem_cons_self)
    refine ⟨rfl, ?_⟩
    cases l with
    | nil =>
      obtain rfl : x = y := Option.some.inj hlast
      rw [Function.update_self]
      refine ⟨rfl, ?_⟩
      rw [Function.update_of_ne hax, Function.update_self]
      rfl
    | cons z l =>
      rw [List.getLast?_cons_cons] at hlast
      have hxy : x ≠ y := fun e => hxl (e ▸ List.mem_of_getLast? hlast)
      rw [Function.update_of_ne hxy, Function.update_of_ne hax.symm]
      exact ih hrest hl hlast fun hmem => ha (List.mem_cons_of_mem _ hmem)

theorem Links.next_iff : Links next p x ↔ p = some x ∨ ∃ y, p = some y ∧ Links next (next y) x := by
  constructor
  · rintro ⟨n, hn⟩
    cases n with
    | zero => exact Or.inl hn
    | succ n =>
      cases p with
      | none =>
        have hnone : ∀ n, (fun o : Option α => o.bind next)^[n] none = none := fun n => by
          induction n with
          | zero => rfl
          | succ n ih => rw [Function.iterate_succ_apply']; rw [ih]; rfl
        rw [hnone] at hn
        cases hn
      | some y => exact Or.inr ⟨y, rfl, n, hn⟩
  · rintro (rfl | ⟨y, rfl, n, hn⟩)
    · exact ⟨0, rfl⟩
    · exact ⟨n + 1, hn⟩

theorem ChainFrom.links_iff (h : ChainFrom next p l) : Links next p x ↔ x ∈ l := by
  induction l generalizing p with
  | nil =>
    rw [Links.next_iff, show p = none from h]
    simp
  | cons y l ih =>
    obtain ⟨rfl, hrest⟩ := h
    rw [Links.next_iff, List.mem_cons]
    constructor
    · rintro (hx | ⟨z, hz, hlinks⟩)
      · exact Or.inl (Option.some.inj hx).symm
      · obtain rfl := Option.some.inj hz
        exact Or.inr ((ih hrest).mp hlinks)
    · rintro (rfl | hx)
      · exact Or.inl rfl
      · exact Or.inr ⟨y, rfl, (ih hrest).mpr hx⟩

end

end Kernel.Lib
