import Kernel.Vmm.Entries
import Kernel.Vmm.Fork
import Kernel.Vmm.Ghost

/-!
# The exit of a thread gives every frame back

The private mappings go first, page by page, and the sweep of the tree takes
what they leave.
-/

namespace Kernel

open Lib

/-! ## The frames of the lower half -/

/-- No frame of the lower half is reached by two paths. -/
def LowerOnce (s : Machine) (root : Nat) : Prop :=
  ∀ π ρ g, LowerPath π → LowerPath ρ → π.length ≤ 4 → ρ.length ≤ 4 →
    walk s.edge root π = some g → walk s.edge root ρ = some g → π = ρ

section

variable {s t : Machine} {F F' D : Set Nat} {p root g : Nat}

theorem length_cons_four {i : Nat} {π : List Nat} : (i :: π).length ≤ 4 ↔ π.length ≤ 3 := by
  rw [List.length_cons]
  omega

theorem lowerPath_nil : LowerPath [] := by simp [LowerPath, StartsBelow]

theorem lowerPath_left {π ρ : List Nat} (h : LowerPath (π ++ ρ)) : LowerPath π := by
  cases π with
  | nil => exact lowerPath_nil
  | cons i π => exact h

theorem root_lowerFrames (s : Machine) (root : Nat) : root ∈ s.lowerFrames root :=
  Machine.mem_lowerFrames.mpr ⟨[], lowerPath_nil, by simp, rfl⟩

theorem Space.lower (h : Space s F D p root) : s.lowerFrames root ⊆ D := by
  intro g hg
  obtain ⟨π, hπ, hlen, hw⟩ := Machine.mem_lowerFrames.mp hg
  exact h.forest.paths_mem h.root_mem hπ hlen hw

theorem lowerFrames_under (s : Machine) (root : Nat) : s.lowerFrames root = insert root (under s 3 root 256) := by
  ext g
  rw [Machine.mem_lowerFrames, Set.mem_insert_iff]
  constructor
  · rintro ⟨π, hπ, hlen, hw⟩
    cases π with
    | nil => exact Or.inl (Option.some.inj hw).symm
    | cons i π =>
      obtain ⟨c, hc, hw⟩ := walk_cons_eq_some.mp hw
      exact Or.inr ⟨i, c, startsBelow_cons.mp hπ, hc, π, length_cons_four.mp hlen, hw⟩
  · rintro (rfl | ⟨i, c, hi, hc, π, hlen, hw⟩)
    · exact ⟨[], lowerPath_nil, by simp, rfl⟩
    · exact ⟨i :: π, startsBelow_cons.mpr hi, length_cons_four.mpr hlen, (walk_cons_some hc).mpr hw⟩

theorem Space.of_once (hwf : PhysWf s F) (hlower : LowerSource s F root) (honce : LowerOnce s root)
    (hown : ∀ g ∈ s.lowerPages root, s.owner g = some p) : Space s F (s.lowerFrames root) p root := by
  refine ⟨hwf, hlower, root_lowerFrames s root, fun i c hi hc => ⟨?_, ?_, ?_⟩, fun i j c c' hi hj hij hc hc' => ?_⟩
  · rintro g ⟨π, hlen, hw⟩
    have hw' := (walk_cons_some hc).mpr hw
    refine ⟨Machine.mem_lowerFrames.mpr ⟨i :: π, startsBelow_cons.mpr hi, length_cons_four.mpr hlen, hw'⟩, ?_⟩
    rintro rfl
    have := honce [] (i :: π) g lowerPath_nil (startsBelow_cons.mpr hi) (by simp) (length_cons_four.mpr hlen) rfl hw'
    cases this
  · intro π ρ g hπ hρ hw hw'
    have := honce (i :: π) (i :: ρ) g (startsBelow_cons.mpr hi) (startsBelow_cons.mpr hi) (length_cons_four.mpr hπ)
      (length_cons_four.mpr hρ) ((walk_cons_some hc).mpr hw) ((walk_cons_some hc).mpr hw')
    exact (List.cons.inj this).2
  · intro π f hπ hw
    exact hown f ⟨i :: π, startsBelow_cons.mpr hi, by simp [hπ], (walk_cons_some hc).mpr hw⟩
  · rw [Set.disjoint_left]
    rintro g ⟨π, hπ, hw⟩ ⟨ρ, hρ, hw'⟩
    have := honce (i :: π) (j :: ρ) g (startsBelow_cons.mpr hi) (startsBelow_cons.mpr hj) (length_cons_four.mpr hπ)
      (length_cons_four.mpr hρ) ((walk_cons_some hc).mpr hw) ((walk_cons_some hc').mpr hw')
    exact hij (List.cons.inj this).1

theorem Space.once (h : Space s F D p root) : LowerOnce s root :=
  fun _ _ _ hπ hρ hlπ hlρ hw hw' => h.forest.paths_inj hπ hρ hlπ hlρ hw hw'

theorem Space.shrink (h : Space s F D p root) : Space s F (s.lowerFrames root) p root := by
  refine Space.of_once h.wf (fun g hg => h.owned g (h.lower hg)) h.once fun g hg => ?_
  obtain ⟨π, hπ, hlen, hw⟩ := hg
  cases π with
  | nil => cases hlen
  | cons i π => exact h.forest.walk_leaf (startsBelow_cons.mp hπ) (by simpa using hlen) hw

/-! ## A page less -/

/-- Frames of the lower half are free in `t`, the others are still there, and nothing else changed. -/
structure TornDown (s : Machine) (F : Set Nat) (p root : Nat) (t : Machine) (F' : Set Nat) : Prop where
  space : Space t F' (t.lowerFrames root) p root
  all : F' ∪ t.lowerFrames root = F ∪ s.lowerFrames root
  sub : t.lowerFrames root ⊆ s.lowerFrames root
  other : ∀ g, g ∉ s.lowerFrames root → t.mem g = s.mem g
  upper : t.mem root = s.mem root
  fixed : t.fixed = s.fixed
  cr3 : t.cr3 = s.cr3

theorem TornDown.refl (h : Space s F (s.lowerFrames root) p root) : TornDown s F p root s F :=
  ⟨h, rfl, subset_rfl, fun _ _ => rfl, rfl, rfl, rfl⟩

theorem TornDown.trans {u : Machine} {F'' : Set Nat} (h : TornDown s F p root t F') (h' : TornDown t F' p root u F'') :
    TornDown s F p root u F'' :=
  ⟨h'.space, h'.all.trans h.all, h'.sub.trans h.sub,
    fun g hg => (h'.other g fun hg' => hg (h.sub hg')).trans (h.other g hg), h'.upper.trans h.upper,
    h'.fixed.trans h.fixed, h'.cr3.trans h.cr3⟩

theorem lowerFrames_cut {vpn tbl f : Nat} (h : Space s F D p root) (hv : vpn < 2 ^ 35)
    (hw : walk s.edge root (tablePath vpn 3) = some tbl) (hedge : s.edge tbl (vpnIndex vpn 0) = some f)
    (hg : g ∈ s.lowerFrames root) (hgf : g ≠ f) :
    g ∈ ((s.poke tbl (vpnIndex vpn 0) 0).freed f).lowerFrames root := by
  have hinitial := lowerPath_initial hv (List.prefix_refl _)
  have hlen := tablePath_length vpn 3
  have hpage : walk s.edge root (pagePath vpn 3) = some f := walk_pagePath hw hedge
  obtain ⟨π, hπ, hlenπ, hwπ⟩ := Machine.mem_lowerFrames.mp hg
  refine Machine.mem_lowerFrames.mpr ⟨π, hπ, hlenπ, walk_keep (fun ρ i m c hρ hm hc => ?_) hwπ⟩
  have hlenρ := hρ.length_le
  rw [List.length_append, List.length_singleton] at hlenρ
  have hρlow : LowerPath ρ := by
    obtain ⟨τ, rfl⟩ := hρ
    rw [List.append_assoc] at hπ
    exact lowerPath_left hπ
  -- `f` is the end of a path of four entries, and `m` is not.
  have hmf : m ≠ f := by
    rintro rfl
    have := congrArg List.length (h.once ρ _ m hρlow (lowerPath_pagePath hv) (by omega)
      (by simp [pagePath_length]) hm hpage)
    rw [pagePath_length] at this
    omega
  rw [Machine.edge_some] at hc ⊢
  have hword : ((s.poke tbl (vpnIndex vpn 0) 0).freed f).mem m i = s.mem m i := by
    refine (congrFun (Machine.poke_mem_of_ne hmf) i).trans ?_
    by_cases hmt : m = tbl
    · subst hmt
      have hpath := h.once ρ _ m hρlow hinitial (by omega) (by omega) hm hw
      have hi : i ≠ vpnIndex vpn 0 := by
        rintro rfl
        rw [hpath] at hρ
        have := hρ.eq_of_length (by
          have := hρ.length_le
          rw [List.length_append, hlen, List.length_singleton] at this ⊢
          omega)
        rw [← this] at hwπ
        exact hgf (Option.some.inj (hwπ.symm.trans hpage))
      simp [Machine.poke, hi]
    · exact congrFun (Machine.poke_mem_of_ne hmt) i
  rw [hword]
  exact hc

theorem unmapPage_tears {va : Nat} (h : Space s F (s.lowerFrames root) p root) (hr : OnRoot s root)
    (hva : va < 2 ^ 47) : ∃ t F', (unmapPage va).run s = some ((), t) ∧ TornDown s F p root t F' := by
  have hv : va / FRAME_SIZE < 2 ^ 35 := by
    simp only [FRAME_SIZE]; omega
  rcases unmapPage_cases h hr hva with hsame | ⟨tbl, f, hw, hedge, hfD, hcut⟩
  · exact ⟨s, F, hsame, TornDown.refl h⟩
  · obtain ⟨htf, hrf, hrt, htD, hspace⟩ := h.cut hv hw hedge
    have hlower := hspace.lower
    refine ⟨_, _, hcut, hspace.shrink, ?_, fun g hg => (hlower hg).1, fun g hg => ?_, ?_, rfl, rfl⟩
    · ext g
      have hkeep := lowerFrames_cut (g := g) h hv hw hedge
      have hback := @hlower g
      simp only [Set.mem_union, Set.mem_insert_iff, Set.mem_sdiff, Set.mem_singleton_iff] at *
      grind
    · have hgf : g ≠ f := fun e => hg (e ▸ hfD)
      have hgt : g ≠ tbl := fun e => hg (e ▸ htD)
      exact (Machine.poke_mem_of_ne hgf).trans (Machine.poke_mem_of_ne hgt)
    · exact (Machine.poke_mem_of_ne hrf).trans (Machine.poke_mem_of_ne hrt)

theorem TornDown.onRoot (h : TornDown s F p root t F') (hr : OnRoot s root) : OnRoot t root := h.cr3.trans hr

theorem unmapRange_tears (start : Nat) {stop : Nat} (h : Space s F (s.lowerFrames root) p root) (hr : OnRoot s root)
    (hstop : stop ≤ 2 ^ 47) : ∃ t F', (unmapRange start stop).run s = some ((), t) ∧ TornDown s F p root t F' := by
  have hstep : ∀ k, k < pageCount start stop → ∀ u, (∃ F', TornDown s F p root u F') →
      ∃ t, (unmapPage (start + k * FRAME_SIZE)).run u = some ((), t) ∧ ∃ F', TornDown s F p root t F' := by
    rintro k hk u ⟨F', hu⟩
    have hlt := pageCount_lt hk
    obtain ⟨v, F'', hrun, hv⟩ := unmapPage_tears hu.space (hu.onRoot hr) (show start + k * FRAME_SIZE < 2 ^ 47 by omega)
    exact ⟨v, hrun, F'', hu.trans hv⟩
  obtain ⟨t, hrun, F', ht⟩ := Prog.forRange_total _ hstep ⟨F, TornDown.refl h⟩
  exact ⟨t, F', hrun, ht⟩

theorem TornDown.congr {u : Machine} (h : TornDown s F p root t F') (hmem : u.mem = t.mem) (hown : u.owner = t.owner)
    (ha : u.avail = t.avail) (hr : u.free_ranges = t.free_ranges) (hfixed : u.fixed = t.fixed) (hcr3 : u.cr3 = t.cr3) :
    TornDown s F p root u F' := by
  have hlower : u.lowerFrames root = t.lowerFrames root := by
    ext g
    rw [Machine.mem_lowerFrames, Machine.mem_lowerFrames]
    have hedge : u.edge = t.edge := by
      funext m
      exact Machine.edge_congr (by rw [hmem])
    rw [hedge]
  refine ⟨?_, by rw [hlower]; exact h.all, by rw [hlower]; exact h.sub, fun g hg => by rw [hmem]; exact h.other g hg,
    by rw [hmem]; exact h.upper, hfixed.trans h.fixed, hcr3.trans h.cr3⟩
  rw [hlower]
  exact h.space.congr hmem hown ha hr (Machine.fixed_hhdm hfixed)

theorem freePrivateVmes_tears {l : List VME} (h : Space s F (s.lowerFrames root) p root) (hr : OnRoot s root)
    (hl : VmesOk l) : ∃ t F', (freePrivateVmes l).run s = some ((), t) ∧ TornDown s F p root t F' := by
  induction l generalizing s F with
  | nil => exact ⟨s, F, rfl, TornDown.refl h⟩
  | cons vme next ih =>
    obtain ⟨u, F₁, hunmap, hu⟩ := unmapRange_tears vme.start h hr (hl vme List.mem_cons_self)
    have hv := hu.congr (u := { u with vmeLive := u.vmeLive.erase vme.addr }) rfl rfl rfl rfl rfl rfl
    obtain ⟨t, F₂, hrest, ht⟩ := ih hv.space (hv.onRoot hr) fun v hv' => hl v (List.mem_cons_of_mem _ hv')
    refine ⟨t, F₂, ?_, hv.trans ht⟩
    rw [freePrivateVmes, Prog.bind_run hunmap, deleteVME, Prog.modify_bind_run]
    exact hrest

/-! ## The rest of the tree -/

/-- The lower half is free, nothing else changed, and the thread is on the kernel's own tables. -/
structure RootFreed (s : Machine) (F : Set Nat) (root : Nat) (t : Machine) : Prop where
  wf : PhysWf t (F ∪ s.lowerFrames root)
  other : ∀ g, g ∉ s.lowerFrames root → t.mem g = s.mem g
  upper : ∀ i, 256 ≤ i → t.mem root i = s.mem root i
  cr3 : t.cr3 = s.common_cr3

theorem freeRoot_frees (h : Space s F (s.lowerFrames root) p root) :
    ∃ t, (freeRoot root).run s = some ((), t) ∧ RootFreed s F root t := by
  obtain ⟨u, hrun, hu, hspec⟩ := freeRoot_run h
  rw [← lowerFrames_under] at hspec
  refine ⟨_, hrun, hspec.wf.congr rfl rfl rfl fun _ _ => rfl, fun g hg => (hspec.other g hg).1, fun i hi => ?_,
    Machine.fixed_common (Machine.regs_fixed hu.regs)⟩
  rw [← hu.row i hi]
  have hi0 : i ≠ 0 := by omega
  simp [Machine.freed, Machine.poke, hi0]

theorem fini_thread_frees (h : Space s F (s.lowerFrames root) p root) (hr : OnRoot s root)
    (hvmes : VmesOk s.privateVmes) (hroot : root ≠ s.common_cr3 / FRAME_SIZE) :
    ∃ t, fini_thread.run s = some ((), t) ∧ RootFreed s F root t := by
  have hs := (TornDown.refl h).congr (u := { s with privateVmes := [] }) rfl rfl rfl rfl rfl rfl
  obtain ⟨u, F₁, hvrun, hu⟩ := freePrivateVmes_tears hs.space (hs.onRoot hr) hvmes
  have htorn := hs.trans hu
  -- The shared list is not about frames.
  have htail : ∀ {w : Machine}, TornDown s F p root w F₁ →
      ∃ t, (finiTail root s.common_cr3).run w = some ((), t) ∧ RootFreed s F root t := by
    intro w hw
    obtain ⟨t, hrun, ht⟩ := freeRoot_frees hw.space
    refine ⟨t, by rw [finiTail, if_neg hroot]; exact hrun, ?_, fun g hg => ?_, fun i hi => ?_, ?_⟩
    · rw [← hw.all]
      exact ht.wf
    · exact (ht.other g fun hg' => hg (hw.sub hg')).trans (hw.other g hg)
    · rw [ht.upper i hi, hw.upper]
    · exact ht.cr3.trans (Machine.fixed_common hw.fixed)
  rw [fini_thread_eq, hr.root h.root_lt, Prog.bind_run hvrun]
  split_ifs
  · rw [Prog.modify_bind_run]
    exact htail (htorn.congr rfl rfl rfl rfl rfl rfl)
  · exact htail htorn

end

theorem onePage_lowerOnce : LowerOnce onePage 100 := by
  intro π ρ g _ _ _ _ hw hw'
  obtain ⟨hπ, hg⟩ := onePage_walk hw
  obtain ⟨hρ, hg'⟩ := onePage_walk hw'
  rw [hπ, hρ, show π.length = ρ.length by omega]

end Kernel
