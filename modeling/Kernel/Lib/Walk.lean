import Mathlib.Data.Set.Insert
import Mathlib.Data.Set.Lattice
import Mathlib.Order.CompletePartialOrder

/-!
# Walks in a labelled graph

From a node, a label leads to at most one node. A path is a list of labels. The
nodes within `d` steps of `n` are a tree when no two paths meet.
-/

namespace Kernel.Lib

abbrev Edges (ν ι : Type) := ν → ι → Option ν

variable {ν ι : Type} {e e' : Edges ν ι}

def walk (e : Edges ν ι) (n : ν) : List ι → Option ν
  | [] => some n
  | i :: π => (e n i).bind fun m => walk e m π

@[simp] theorem walk_nil (n : ν) : walk e n [] = some n := rfl

theorem walk_cons (n : ν) (i : ι) (π : List ι) : walk e n (i :: π) = (e n i).bind fun m => walk e m π := rfl

theorem walk_cons_some {n m c : ν} {i : ι} {π : List ι} (h : e n i = some c) :
    walk e n (i :: π) = some m ↔ walk e c π = some m := by
  rw [walk_cons, h]; rfl

theorem walk_cons_none {n : ν} {i : ι} {π : List ι} (h : e n i = none) : walk e n (i :: π) = none := by
  rw [walk_cons, h]; rfl

theorem walk_cons_eq_some {n m : ν} {i : ι} {π : List ι} :
    walk e n (i :: π) = some m ↔ ∃ c, e n i = some c ∧ walk e c π = some m := by
  rw [walk_cons, Option.bind_eq_some_iff]

theorem walk_of_blank {n m : ν} {π : List ι} (h : ∀ i, e n i = none) (hw : walk e n π = some m) : π = [] ∧ n = m := by
  cases π with
  | nil => exact ⟨rfl, Option.some.inj hw⟩
  | cons i π =>
    rw [walk_cons_none (h i)] at hw
    cases hw

theorem walk_append (n : ν) (π ρ : List ι) :
    walk e n (π ++ ρ) = (walk e n π).bind fun m => walk e m ρ := by
  induction π generalizing n with
  | nil => rfl
  | cons i π ih =>
    rw [List.cons_append, walk_cons, walk_cons, Option.bind_assoc]
    cases e n i with
    | none => rfl
    | some m => exact ih m

theorem walk_keep {n m : ν} {π : List ι}
    (h : ∀ ρ i g c, ρ ++ [i] <+: π → walk e n ρ = some g → e g i = some c → e' g i = some c)
    (hw : walk e n π = some m) : walk e' n π = some m := by
  induction π generalizing n with
  | nil => exact hw
  | cons i π ih =>
    obtain ⟨c, hc, hw⟩ := walk_cons_eq_some.mp hw
    rw [walk_cons_some (h [] i n c (List.prefix_cons_inj i |>.mpr List.nil_prefix) rfl hc)]
    refine ih (fun ρ j g d hρ hg hd => ?_) hw
    refine h (i :: ρ) j g d ?_ ((walk_cons_some hc).mpr hg) hd
    exact (List.prefix_cons_inj i).mpr hρ

/-! ## The nodes within reach -/

def within (e : Edges ν ι) (d : Nat) (n : ν) : Set ν := {m | ∃ π, π.length ≤ d ∧ walk e n π = some m}

theorem mem_within {d : Nat} {n m : ν} : m ∈ within e d n ↔ ∃ π, π.length ≤ d ∧ walk e n π = some m := Iff.rfl

theorem self_mem_within (d : Nat) (n : ν) : n ∈ within e d n := ⟨[], by simp, rfl⟩

theorem within_zero (n : ν) : within e 0 n = {n} := by
  ext m
  constructor
  · rintro ⟨π, hπ, h⟩
    obtain rfl := List.length_eq_zero_iff.mp (Nat.le_zero.mp hπ)
    rw [walk_nil, Option.some.injEq] at h
    exact h.symm
  · rintro rfl
    exact self_mem_within 0 m

theorem mem_within_succ {d : Nat} {n m : ν} :
    m ∈ within e (d + 1) n ↔ m = n ∨ ∃ i c, e n i = some c ∧ m ∈ within e d c := by
  constructor
  · rintro ⟨π, hπ, h⟩
    cases π with
    | nil => exact Or.inl (Option.some.inj h).symm
    | cons i π =>
      right
      obtain ⟨c, hc, h⟩ := walk_cons_eq_some.mp h
      exact ⟨i, c, hc, π, by simpa using hπ, h⟩
  · rintro (rfl | ⟨i, c, hc, π, hπ, h⟩)
    · exact self_mem_within _ m
    · exact ⟨i :: π, by simpa using hπ, (walk_cons_some hc).mpr h⟩

theorem within_child {d : Nat} {n c : ν} {i : ι} (h : e n i = some c) : within e d c ⊆ within e (d + 1) n :=
  fun _ hm => mem_within_succ.mpr (Or.inr ⟨i, c, h, hm⟩)

theorem within_mono {d d' : Nat} (h : d ≤ d') (n : ν) : within e d n ⊆ within e d' n := by
  rintro m ⟨π, hπ, hw⟩
  exact ⟨π, by omega, hw⟩

theorem walk_congr_path {n : ν} {π : List ι}
    (h : ∀ ρ m, ρ <+: π → ρ.length < π.length → walk e n ρ = some m → e' m = e m) :
    walk e' n π = walk e n π := by
  induction π generalizing n with
  | nil => rfl
  | cons i π ih =>
    rw [walk_cons, walk_cons, h [] n List.nil_prefix (by simp) rfl]
    cases hc : e n i with
    | none => rfl
    | some c =>
      refine ih fun ρ m hρ hlen hw => h (i :: ρ) m ?_ (by simpa using hlen) ((walk_cons_some hc).mpr hw)
      exact (List.prefix_cons_inj i).mpr hρ

theorem walk_congr {d : Nat} {n : ν} {π : List ι} (hπ : π.length ≤ d + 1)
    (h : ∀ m ∈ within e d n, e' m = e m) : walk e' n π = walk e n π :=
  walk_congr_path fun ρ m _ hlen hw => h m ⟨ρ, by omega, hw⟩

theorem within_congr {d : Nat} {n : ν} (h : ∀ m ∈ within e d n, e' m = e m) :
    within e' (d + 1) n = within e (d + 1) n := by
  ext m
  rw [mem_within, mem_within]
  constructor
  · rintro ⟨π, hπ, hw⟩
    exact ⟨π, hπ, by rwa [walk_congr hπ h] at hw⟩
  · rintro ⟨π, hπ, hw⟩
    exact ⟨π, hπ, by rwa [walk_congr hπ h]⟩

theorem within_congr' {d : Nat} {n : ν} (h : ∀ m ∈ within e d n, e' m = e m) :
    within e' d n = within e d n := by
  cases d with
  | zero => rw [within_zero, within_zero]
  | succ d => exact within_congr fun m hm => h m (within_mono (by omega) n hm)

/-! ## Trees -/

/-- No node is at the end of two paths of at most `d` steps from `n`. -/
def TreeWithin (e : Edges ν ι) (d : Nat) (n : ν) : Prop :=
  ∀ π ρ m, π.length ≤ d → ρ.length ≤ d → walk e n π = some m → walk e n ρ = some m → π = ρ

theorem treeWithin_zero (n : ν) : TreeWithin e 0 n := by
  intro π ρ m hπ hρ _ _
  rw [List.length_eq_zero_iff.mp (Nat.le_zero.mp hπ), List.length_eq_zero_iff.mp (Nat.le_zero.mp hρ)]

theorem treeWithin_succ {d : Nat} {n : ν} :
    TreeWithin e (d + 1) n ↔
      (∀ i c, e n i = some c → n ∉ within e d c ∧ TreeWithin e d c) ∧
      ∀ i j c c', i ≠ j → e n i = some c → e n j = some c' → Disjoint (within e d c) (within e d c') := by
  constructor
  · intro h
    refine ⟨fun i c hc => ⟨?_, ?_⟩, ?_⟩
    · rintro ⟨π, hπ, hw⟩
      have := h [] (i :: π) n (by simp) (by simpa using hπ) rfl ((walk_cons_some hc).mpr hw)
      cases this
    · intro π ρ m hπ hρ hw hw'
      have := h (i :: π) (i :: ρ) m (by simpa using hπ) (by simpa using hρ)
        ((walk_cons_some hc).mpr hw) ((walk_cons_some hc).mpr hw')
      exact (List.cons.inj this).2
    · intro i j c c' hij hc hc'
      rw [Set.disjoint_left]
      rintro m ⟨π, hπ, hw⟩ ⟨ρ, hρ, hw'⟩
      have := h (i :: π) (j :: ρ) m (by simpa using hπ) (by simpa using hρ)
        ((walk_cons_some hc).mpr hw) ((walk_cons_some hc').mpr hw')
      exact hij (List.cons.inj this).1
  · rintro ⟨hchild, hdis⟩ π ρ m hπ hρ hw hw'
    cases π with
    | nil =>
      obtain rfl : n = m := Option.some.inj hw
      cases ρ with
      | nil => rfl
      | cons j ρ =>
        obtain ⟨c, hc, hw'⟩ := walk_cons_eq_some.mp hw'
        exact absurd ⟨ρ, by simpa using hρ, hw'⟩ (hchild j c hc).1
    | cons i π =>
      obtain ⟨c, hc, hw⟩ := walk_cons_eq_some.mp hw
      cases ρ with
      | nil =>
        obtain rfl : n = m := Option.some.inj hw'
        exact absurd ⟨π, by simpa using hπ, hw⟩ (hchild i c hc).1
      | cons j ρ =>
        obtain ⟨c', hc', hw'⟩ := walk_cons_eq_some.mp hw'
        by_cases hij : i = j
        · subst hij
          obtain rfl : c = c' := Option.some.inj (hc.symm.trans hc')
          rw [(hchild i c hc).2 π ρ m (by simpa using hπ) (by simpa using hρ) hw hw']
        · have := Set.disjoint_left.mp (hdis i j c c' hij hc hc')
          exact absurd ⟨ρ, by simpa using hρ, hw'⟩ (this ⟨π, by simpa using hπ, hw⟩)

end Kernel.Lib
