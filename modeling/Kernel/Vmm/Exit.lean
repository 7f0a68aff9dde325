import Kernel.Vmm.Brk

/-!
# `fini_thread` gives an address space back

The private mappings are taken away page by page, then the lower-half tree and
its root.
-/

namespace Kernel

open Lib

def Machine.fixed (s : Machine) : Nat × Nat × (List Nat → Nat) := (s.hhdm_offset, s.common_cr3, s.newVme)

/-- From `s` to `t` frames moved inside `F` and `D`, and no other frame changed. -/
structure Confined (s : Machine) (F D : Set Nat) (t : Machine) (F' : Set Nat) : Prop where
  wf : PhysWf t F'
  sub : F' ⊆ F ∪ D
  other : ∀ g, g ∉ F ∪ D → t.mem g = s.mem g ∧ t.owner g = s.owner g
  fixed : t.fixed = s.fixed

theorem Machine.regs_fixed {s t : Machine} (h : t.regs = s.regs) : t.fixed = s.fixed := by
  have := congrArg Machine.fixed h
  exact this

theorem Machine.fixed_hhdm {s t : Machine} (h : t.fixed = s.fixed) : t.hhdm_offset = s.hhdm_offset :=
  congrArg Prod.fst h

theorem Machine.fixed_common {s t : Machine} (h : t.fixed = s.fixed) : t.common_cr3 = s.common_cr3 :=
  congrArg (fun x => x.2.1) h

theorem Machine.fixed_newVme {s t : Machine} (h : t.fixed = s.fixed) : t.newVme = s.newVme :=
  congrArg (fun x => x.2.2) h

theorem Space.congr {s t : Machine} {F D : Set Nat} {p root : Nat} (h : Space s F D p root)
    (hmem : t.mem = s.mem) (hown : t.owner = s.owner) (ha : t.avail = s.avail) (hr : t.free_ranges = s.free_ranges)
    (hh : t.hhdm_offset = s.hhdm_offset) : Space t F D p root where
  wf := h.wf.congr hh ha hr fun g _ => congrFun hmem g
  owned g hg := ⟨(h.owned g hg).1, (Machine.maps_congr hh g).mpr (h.owned g hg).2⟩
  root_mem := h.root_mem
  forest := h.forest.congr (fun _ _ => by rw [hmem]) (fun _ _ _ => by rw [hmem]) fun _ _ _ => by rw [hown]

def VmesOk (l : List VME) : Prop := ∀ v ∈ l, v.end ≤ 2 ^ 47

/-- What `freePrivateVmes` keeps. -/
structure VmesFreed (s : Machine) (F D : Set Nat) (root : Nat) (t : Machine) (F' D' : Set Nat) : Prop where
  space : Space t F' D' s.acting root
  sub : F' ∪ D' ⊆ F ∪ D
  other : ∀ g, g ∉ F ∪ D → t.mem g = s.mem g ∧ t.owner g = s.owner g
  fixed : t.fixed = s.fixed
  cr3 : t.cr3 = s.cr3
  acting : t.acting = s.acting

theorem freePrivateVmes_spec {root : Nat} {l : List VME} {t : Machine} {x : Unit} :
    ∀ {s : Machine} {F D : Set Nat}, Space s F D s.acting root → OnRoot s root → VmesOk l →
      (freePrivateVmes l).run s = some (x, t) → ∃ F' D', VmesFreed s F D root t F' D' := by
  induction l with
  | nil =>
    intro s F D h hr _ hrun
    rw [freePrivateVmes, Prog.run_pure] at hrun
    obtain ⟨-, rfl⟩ := hrun
    exact ⟨F, D, h, subset_rfl, fun _ _ => ⟨rfl, rfl⟩, rfl, rfl, rfl⟩
  | cons v l ih =>
    intro s F D h hr hok hrun
    rw [freePrivateVmes, Prog.run_bind] at hrun
    obtain ⟨_, u, hunmap, hrun⟩ := hrun
    obtain ⟨F₁, D₁, hu, he⟩ := unmapRange_spec h hr (hok v List.mem_cons_self) hunmap
    rw [deleteVME, Prog.modify_bind_run] at hrun
    have hact := Machine.regs_acting he.regs
    have hfu := Machine.regs_fixed he.regs
    have hru := Machine.regs_cr3 he.regs
    have hur : OnRoot u root := hr.congr he.regs
    have hu' : Space { u with vmeLive := u.vmeLive.erase v.addr } F₁ D₁ u.acting root := by
      rw [hact]
      exact hu.congr rfl rfl rfl rfl rfl
    obtain ⟨F₂, D₂, h₂⟩ := ih hu' hur (fun w hw => hok w (List.mem_cons_of_mem _ hw)) hrun
    refine ⟨F₂, D₂, ?_, h₂.sub.trans he.sub, fun g hg => ?_, h₂.fixed.trans hfu,
      h₂.cr3.trans hru, h₂.acting.trans hact⟩
    · rw [← hact]
      exact h₂.space
    · obtain ⟨hm, ho⟩ := he.other g hg
      obtain ⟨hm', ho'⟩ := h₂.other g fun hg' => hg (he.sub hg')
      exact ⟨hm'.trans hm, ho'.trans ho⟩

/-- The loop of `fini_thread` over the lower half, and the free of the root. -/
def freeRoot (root : Nat) : K Unit := do
  let pml4 ← VA.ofPPN root
  Prog.forRange 256 fun i => freeEntry (freeChild 3) pml4 i
  modify fun s => { s with cr3 := s.common_cr3 }
  PhysMem.free root

theorem freeRoot_run {s : Machine} {F D : Set Nat} {p root : Nat} (h : Space s F D p root) :
    ∃ u : Machine, (freeRoot root).run s = some ((), { u with cr3 := u.common_cr3 }.freed root) ∧
      FreeLoop s F 3 root 256 u ∧ Freed s F (insert root (under s 3 root 256)) (u.freed root) := by
  obtain ⟨-, hm⟩ := h.owned root h.root_mem
  obtain ⟨u, hrun, hu⟩ := FreeLoop.run (freeChild_frees 3) h.wf h.forest h.root_mem (by omega) h.owned
  have hout : root ∉ under s 3 root 256 := by
    rintro ⟨j, m, hj, hc, hg⟩
    exact ((h.forest.trees j m hj hc).inside hg).2 rfl
  have hhu := Machine.regs_hhdm hu.regs
  have hfree : (PhysMem.free root).run { u with cr3 := u.common_cr3 } =
      some ((), { u with cr3 := u.common_cr3 }.freed root) :=
    free_run (hu.wf.hhdm.congr rfl) ((Machine.maps_congr hhu root).mpr hm)
  refine ⟨u, ?_, hu, (hu.free_table h.owned h.root_mem hout).2⟩
  rw [freeRoot, Prog.bind_run (VA.ofPPN_run h.wf.hhdm hm), Prog.bind_run hrun, Prog.modify_bind_run, hfree]

theorem freeRoot_spec {s : Machine} {F D : Set Nat} {p root : Nat} (h : Space s F D p root) :
    ∃ t, (freeRoot root).run s = some ((), t) ∧ Confined s F D t (F ∪ insert root (under s 3 root 256)) := by
  obtain ⟨u, hrun, hu, hspec⟩ := freeRoot_run h
  have hsub : insert root (under s 3 root 256) ⊆ D := by
    rintro g (rfl | ⟨j, m, hj, hc, hg⟩)
    · exact h.root_mem
    · exact ((h.forest.trees j m hj hc).inside hg).1
  have hfixed := Machine.regs_fixed hu.regs
  refine ⟨_, hrun, hspec.wf.congr rfl rfl rfl fun _ _ => rfl, ?_, fun g hg => ?_, hfixed⟩
  · exact Set.union_subset_union_right F hsub
  · exact hspec.other g fun hg' => hg (Or.inr (hsub hg'))

/-- What `fini_thread` does after the private mappings. -/
def finiTail (root common : Nat) : K Unit := if root = common / FRAME_SIZE then pure () else freeRoot root

theorem fini_thread_eq (s : Machine) : fini_thread.run s = (do
    freePrivateVmes s.privateVmes
    if s.n_active = 1 then
      modify fun s =>
        { s with vmeLive := s.sharedVmes.foldl (fun live vme => live.erase vme.addr) s.vmeLive, sharedVmes := [] }
      finiTail s.root s.common_cr3
    else finiTail s.root s.common_cr3 : K Unit).run { s with privateVmes := [] } := by
  rw [fini_thread, Prog.get_bind_run, Prog.modify_bind_run]
  simp only [finiTail, freeRoot, freeEntry, freeChild, bind_assoc, Machine.root]

/-- **Exit.** `fini_thread` frees only frames of the process and changes no frame of another. -/
theorem fini_thread_spec {s t : Machine} {F D : Set Nat} {root : Nat} {x : Unit} (h : Space s F D s.acting root)
    (hr : OnRoot s root) (hvmes : VmesOk s.privateVmes) (hroot : root ≠ s.common_cr3 / FRAME_SIZE)
    (hrun : fini_thread.run s = some (x, t)) : ∃ F', Confined s F D t F' := by
  rw [fini_thread_eq, hr.root h.root_lt, Prog.run_bind] at hrun
  obtain ⟨_, u, hfree, hrun⟩ := hrun
  have hs : Space { s with privateVmes := [] } F D s.acting root := h.congr rfl rfl rfl rfl rfl
  obtain ⟨F₁, D₁, hu⟩ := freePrivateVmes_spec hs hr hvmes hfree
  have htail : ∀ {w : Machine}, (finiTail root s.common_cr3).run w = some (x, t) → Space w F₁ D₁ s.acting root →
      w.mem = u.mem → w.owner = u.owner → w.fixed = u.fixed → ∃ F', Confined s F D t F' := by
    intro w htail hw hmem hown hfw
    obtain ⟨v, hv, hspec⟩ := freeRoot_spec hw
    rw [finiTail, if_neg hroot, hv, Option.some.injEq, Prod.mk.injEq] at htail
    obtain ⟨-, rfl⟩ := htail
    have hsub : F₁ ∪ D₁ ⊆ F ∪ D := hu.sub
    refine ⟨_, hspec.wf, hspec.sub.trans hsub, fun g hg => ?_, hspec.fixed.trans (hfw.trans hu.fixed)⟩
    obtain ⟨hm, ho⟩ := hspec.other g fun hg' => hg (hsub hg')
    obtain ⟨hm', ho'⟩ := hu.other g hg
    rw [hm, ho, hmem, hown]
    exact ⟨hm', ho'⟩
  rw [Prog.run_ite] at hrun
  rcases hrun with ⟨-, hrun⟩ | ⟨-, hrun⟩
  · rw [Prog.modify_bind_run] at hrun
    exact htail hrun (hu.space.congr rfl rfl rfl rfl rfl) rfl rfl rfl
  · exact htail hrun hu.space rfl rfl rfl

end Kernel
