import Kernel.Vmm.Exit

/-!
# The exit of a thread without the ghost owners

Taking an address space down neither reads the owners of pages nor touches the
ranges that were never used.
-/

namespace Kernel

open Lib

/-- The states differ in the owners of pages, and `s'` has the ranges `r`. -/
def Unowned (r : List Range) (s s' : Machine) : Prop := ∃ o, s' = { s with owner := o, free_ranges := r }

theorem Unowned.run {α : Type} {c : K α} {s u : Machine} {x : α} {o : Nat → Option Nat}
    (hc : Prog.Respects (Unowned s.free_ranges) c) (hrun : c.run { s with owner := o } = some (x, u)) :
    u.free_ranges = s.free_ranges ∧ ∃ o', c.run s = some (x, { u with owner := o' }) := by
  obtain ⟨v, hv, o₁, hvu⟩ := hc { s with owner := o } { s with owner := o } x u ⟨o, rfl⟩ hrun
  rw [hrun, Option.some.injEq, Prod.mk.injEq] at hv
  have hranges : u.free_ranges = s.free_ranges := by rw [hv.2, hvu]
  obtain ⟨t, ht, o', rfl⟩ := hc { s with owner := o } s x u ⟨s.owner, rfl⟩ hrun
  exact ⟨hranges, o', by rw [ht, ← hranges]⟩

section

variable {r : List Range}

theorem load_unowned (ptr i : Nat) : Prog.Respects (Unowned r) (load ptr i) := by
  apply Prog.respects_get
  · rintro s _ ⟨o, rfl⟩
    rfl
  · exact fun _ => Prog.respects_pure _

theorem store_unowned (ptr i : Nat) (w : Word) : Prog.Respects (Unowned r) (store ptr i w) := by
  apply Prog.respects_modify
  rintro s _ ⟨o, rfl⟩
  exact ⟨o, rfl⟩

theorem VA_unowned (va : Nat) : Prog.Respects (Unowned r) (VA va) :=
  Prog.respects_bind Prog.respects_assert fun _ => Prog.respects_pure _

theorem VA.ofPPN_unowned (ppn : Nat) : Prog.Respects (Unowned r) (VA.ofPPN ppn) := by
  apply Prog.respects_get
  · rintro s _ ⟨o, rfl⟩
    rfl
  · exact fun _ => VA_unowned _

theorem free_unowned (ppn : Nat) : Prog.Respects (Unowned r) (PhysMem.free ppn) := by
  unfold PhysMem.free
  apply Prog.respects_bind (VA.ofPPN_unowned ppn)
  intro frame
  apply Prog.respects_get
  · rintro s _ ⟨o, rfl⟩
    rfl
  · intro s
    apply Prog.respects_bind (store_unowned _ _ _)
    intro _
    apply Prog.respects_modify
    rintro u _ ⟨o, rfl⟩
    exact ⟨fun f => if f = ppn then none else o f, rfl⟩

theorem leafPteFrom_unowned (vpn level table : Nat) : Prog.Respects (Unowned r) (leafPteFrom vpn level table) := by
  induction level generalizing table with
  | zero => exact Prog.respects_pure _
  | succ level ih =>
    apply Prog.respects_bind (load_unowned _ _)
    intro entry
    apply Prog.respects_ite
    · exact Prog.respects_bind (VA.ofPPN_unowned _) fun child => ih child
    · exact Prog.respects_pure _

theorem unmapPage_unowned (va : Nat) : Prog.Respects (Unowned r) (unmapPage va) := by
  apply Prog.respects_bind
  · apply Prog.respects_bind (VA_unowned va)
    intro va
    apply Prog.respects_get
    · rintro s _ ⟨o, rfl⟩
      rfl
    · exact fun s => Prog.respects_bind (VA.ofPPN_unowned _) fun table => leafPteFrom_unowned _ _ table
  · rintro (_ | ⟨table, index⟩)
    · exact Prog.respects_pure _
    · apply Prog.respects_bind (load_unowned table index)
      intro entry
      apply Prog.respects_ite
      · exact Prog.respects_bind (store_unowned table index 0) fun _ => free_unowned _
      · exact Prog.respects_pure _

theorem unmapRange_unowned (start stop : Nat) : Prog.Respects (Unowned r) (unmapRange start stop) :=
  Prog.respects_forRange fun _ => unmapPage_unowned _

theorem freePrivateVmes_unowned (l : List VME) : Prog.Respects (Unowned r) (freePrivateVmes l) := by
  induction l with
  | nil => exact Prog.respects_pure _
  | cons vme next ih =>
    apply Prog.respects_bind (unmapRange_unowned _ _)
    intro _
    refine Prog.respects_bind (Prog.respects_modify ?_) fun _ => ih
    rintro s _ ⟨o, rfl⟩
    exact ⟨o, rfl⟩

theorem freeEntry_unowned {A : Nat → K Unit} (hA : ∀ c, Prog.Respects (Unowned r) (A c)) (table i : Nat) :
    Prog.Respects (Unowned r) (freeEntry A table i) := by
  apply Prog.respects_bind (load_unowned table i)
  intro entry
  apply Prog.respects_ite
  · exact Prog.respects_bind (hA _) fun _ => store_unowned table i 0
  · exact Prog.respects_pure _

theorem freeChild_unowned (d c : Nat) : Prog.Respects (Unowned r) (freeChild d c) := by
  induction d generalizing c with
  | zero => exact free_unowned c
  | succ d ih =>
    refine Prog.respects_bind ?_ fun _ => free_unowned c
    rw [freeTableSubtree_eq]
    exact Prog.respects_bind (VA.ofPPN_unowned c) fun table => Prog.respects_forRange fun i =>
      freeEntry_unowned ih table i

theorem freeRoot_unowned (root : Nat) : Prog.Respects (Unowned r) (freeRoot root) := by
  apply Prog.respects_bind (VA.ofPPN_unowned root)
  intro pml4
  apply Prog.respects_bind (Prog.respects_forRange fun i => freeEntry_unowned (freeChild_unowned 3) pml4 i)
  intro _
  refine Prog.respects_bind (Prog.respects_modify ?_) fun _ => free_unowned root
  rintro s _ ⟨o, rfl⟩
  exact ⟨o, rfl⟩

theorem finiTail_unowned (root common : Nat) : Prog.Respects (Unowned r) (finiTail root common) :=
  Prog.respects_ite (Prog.respects_pure ()) (freeRoot_unowned root)

/-- **Ghosts.** The exit of a thread runs the same whatever the owners of pages are said to be. -/
theorem fini_thread_unowned : Prog.Respects (Unowned r) fini_thread := by
  intro s s' x t h hrun
  rw [fini_thread_eq] at hrun
  rw [fini_thread_eq]
  obtain ⟨o, rfl⟩ := h
  refine (Prog.respects_bind (freePrivateVmes_unowned s.privateVmes) fun _ => ?_) _ _ x t ⟨o, rfl⟩ hrun
  apply Prog.respects_ite
  · refine Prog.respects_bind (Prog.respects_modify ?_) fun _ => finiTail_unowned _ _
    rintro s _ ⟨o, rfl⟩
    exact ⟨o, rfl⟩
  · exact finiTail_unowned _ _

end

end Kernel
