import Kernel.Vmm.Cleared
import Kernel.Vmm.Flags

/-!
# Pages that `map_range` adds

The pages of the range are there afterwards. Every page that was there keeps its
entry and its words, in the range and out of it.
-/

namespace Kernel

open Lib

/-- If the page is not there, there are frames for it and for its tables. -/
def pageFrames (va : Nat) (s : Machine) : Prop :=
  s.pageEntry s.root (va / FRAME_SIZE) = none → ∀ F, PhysWf s F →
    1 + tablesMissing s (va / FRAME_SIZE) 3 s.root ≤ F.ncard

def mapRangeFrames (user write : Bool) (start size : Nat) (s : Machine) : Prop :=
  ∀ k, k < pageCount (start / FRAME_SIZE * FRAME_SIZE) (mapEnd start size) → ∀ u,
    (Prog.forRange k fun k => mapPage user write (start / FRAME_SIZE * FRAME_SIZE + k * FRAME_SIZE)).run s =
        some ((), u) →
    pageFrames (start / FRAME_SIZE * FRAME_SIZE + k * FRAME_SIZE) u

/-- The pages of `P` are there, and those that were there before are as they were. -/
structure PagesGrown (s : Machine) (F : Set Nat) (root : Nat) (P : Set Nat) (t : Machine) (F' : Set Nat) : Prop where
  space : Space t F' (t.lowerFrames root) s.acting root
  regs : t.regs = s.regs
  sub : F' ⊆ F
  there : ∀ v ∈ P, v < 2 ^ 35 → ∃ entry, t.pageEntry root v = some entry
  kept : ∀ v entry, v < 2 ^ 35 → s.pageEntry root v = some entry →
    t.pageEntry root v = some entry ∧ t.mem (entryPpn entry) = s.mem (entryPpn entry)
  others : ∀ v, v < 2 ^ 35 → v ∉ P → t.pageEntry root v = s.pageEntry root v
  userOpen : UserOpen s root → UserOpen t root

section

variable {s t u : Machine} {F F' F'' D P Q : Set Nat} {root va f start size : Nat}

theorem PagesGrown.refl (h : Space s F (s.lowerFrames root) s.acting root) : PagesGrown s F root ∅ s F where
  space := h
  regs := rfl
  sub := subset_rfl
  there v hv := absurd hv (Set.notMem_empty v)
  kept _ _ _ he := ⟨he, rfl⟩
  others _ _ _ := rfl
  userOpen ho := ho

theorem PagesGrown.acting (h : PagesGrown s F root P t F') : t.acting = s.acting := Machine.regs_acting h.regs

theorem PagesGrown.next (h : PagesGrown s F root P t F') : Space t F' (t.lowerFrames root) t.acting root := by
  rw [h.acting]
  exact h.space

theorem PagesGrown.trans (h : PagesGrown s F root P t F') (h' : PagesGrown t F' root Q u F'') :
    PagesGrown s F root (P ∪ Q) u F'' where
  space := by
    rw [← h.acting]
    exact h'.space
  regs := h'.regs.trans h.regs
  sub := h'.sub.trans h.sub
  there v hv hlt := by
    rcases hv with hP | hQ
    · obtain ⟨entry, he⟩ := h.there v hP hlt
      exact ⟨entry, (h'.kept v entry hlt he).1⟩
    · exact h'.there v hQ hlt
  kept v entry hlt he := by
    obtain ⟨he', hmem⟩ := h.kept v entry hlt he
    obtain ⟨he'', hmem'⟩ := h'.kept v entry hlt he'
    exact ⟨he'', hmem'.trans hmem⟩
  others v hlt hv := by
    rw [h'.others v hlt fun hQ => hv (Or.inr hQ), h.others v hlt fun hP => hv (Or.inl hP)]
  userOpen ho := h'.userOpen (h.userOpen ho)

/-! ## One page -/

theorem PageFrame.grows (hf : PageFrame s F (s.lowerFrames root) root f u)
    (h : Space s F (s.lowerFrames root) s.acting root) (hva : va < 2 ^ 47)
    (hnone : s.pageEntry root (va / FRAME_SIZE) = none) (hclean : mapClean (va / FRAME_SIZE) 3 root u)
    (hframes : 1 + tablesMissing s (va / FRAME_SIZE) 3 root ≤ F.ncard) :
    ∃ t F', (mapAt (va / FRAME_SIZE) f true true 3 root).run u = some ((), t) ∧
      PagesGrown s F root {va / FRAME_SIZE} t F' := by
  have hv : va / FRAME_SIZE < 2 ^ 35 := by
    simp only [FRAME_SIZE]; omega
  have hcard := Set.ncard_sdiff_singleton_add_one hf.free h.wf.finite
  have hmissing : tablesMissing u (va / FRAME_SIZE) 3 root = tablesMissing s (va / FRAME_SIZE) 3 root :=
    tablesMissing_congr fun π g hπ hw => hf.tables h g ⟨π, lowerPath_initial hv hπ, initial_length hπ, hw⟩
  obtain ⟨t, hrun⟩ := mapAt_returns f true true hf.space.wf hf.space.forest hf.space.root_mem (vpnIndex_lower hv)
    hf.space.owned hclean (by omega)
  obtain ⟨F', hadded⟩ := hf.adds h hva hnone hclean hrun
  refine ⟨t, F', hrun, hadded.space.shrink, hadded.evolves.regs, fun g hg => ?_, ?_, ?_, ?_, fun ho => ?_⟩
  · rcases hadded.evolves.sub (Or.inl hg) with hF | hD
    · exact hF
    · exact absurd hg (hadded.space.owned g (Or.inl hD)).1
  · rintro v rfl -
    exact ⟨_, hadded.entry⟩
  · intro v entry hlt he
    have hne : v ≠ va / FRAME_SIZE := by
      rintro rfl
      rw [hnone] at he
      cases he
    exact ⟨by rw [hadded.others v hlt hne]; exact he, hadded.pages _ (Machine.page_mem hlt he)⟩
  · exact fun v hlt hne => hadded.others v hlt hne
  · exact hf.lowerEntries h hva hnone hclean hrun (userWritable_mkEntry userWritable_tableFlags)
      (userWritable_mkEntry userWritable_leafFlags) ho

theorem mapPage_grows (h : Space s F (s.lowerFrames root) s.acting root) (hr : OnRoot s root) (hva : va < 2 ^ 47)
    (hclean : pageClean va s) (hframes : pageFrames va s) :
    ∃ t F', (mapPage true true va).run s = some ((), t) ∧ PagesGrown s F root {va / FRAME_SIZE} t F' := by
  rw [pageClean, hr.root h.root_lt] at hclean
  rw [pageFrames, hr.root h.root_lt] at hframes
  cases he : s.pageEntry root (va / FRAME_SIZE) with
  | some entry =>
    refine ⟨s, F, mapPage_some h hr hva he, { PagesGrown.refl h with
      there := ?_
      others := fun _ _ _ => rfl }⟩
    rintro v rfl -
    exact ⟨entry, he⟩
  | none =>
    have hsize := hframes he F h.wf
    obtain ⟨f, u, halloc⟩ := alloc_returns h.wf (Set.nonempty_of_ncard_ne_zero (by omega))
    obtain ⟨t, F', hrun, hgrown⟩ := (h.pageFrame halloc).grows h hva he (hclean he f u halloc) hsize
    refine ⟨t, F', ?_, hgrown⟩
    rw [mapPage_none h hr hva he, halloc]
    exact hrun

/-! ## A range -/

theorem map_range_grows (h : Space s F (s.lowerFrames root) s.acting root) (hr : OnRoot s root)
    (hstart : start % FRAME_SIZE = 0) (hsize : size ≠ 0) (hend : start + size ≤ 2 ^ 47)
    (hclean : mapRangeClean true true start size s) (hframes : mapRangeFrames true true start size s) :
    ∃ t F', (map_range start size true true).run s = some ((), t) ∧
      PagesGrown s F root (pagesFrom start (start + size)) t F' := by
  have hfirst : start / FRAME_SIZE * FRAME_SIZE = start := Nat.div_mul_cancel (Nat.dvd_of_mod_eq_zero hstart)
  have hcount : pageCount (start / FRAME_SIZE * FRAME_SIZE) (mapEnd start size) = pagesOf start size := by
    rw [pageCount_mapEnd hsize hend, pagesOf, if_neg hsize]
  rw [map_range_eq true true hsize hend]
  have hnone : pagesFrom start (start + 0 * FRAME_SIZE) = ∅ := by
    rw [Nat.zero_mul]
    exact pagesFrom_empty (Nat.le_refl start)
  have hturn : ∀ k, k < pagesOf start size → ∀ u,
      (∃ F', PagesGrown s F root (pagesFrom start (start + k * FRAME_SIZE)) u F') →
      (Prog.forRange k fun k => mapPage true true (start / FRAME_SIZE * FRAME_SIZE + k * FRAME_SIZE)).run s =
        some ((), u) →
      ∃ t, (mapPage true true (start / FRAME_SIZE * FRAME_SIZE + k * FRAME_SIZE)).run u = some ((), t) ∧
        ∃ F', PagesGrown s F root (pagesFrom start (start + (k + 1) * FRAME_SIZE)) t F' := by
    rintro k hk u ⟨F', hu⟩ hturns
    have hlt := page_lt hend hk
    rw [← hcount] at hk
    obtain ⟨t, F'', hrun, ht⟩ :=
      mapPage_grows hu.next (hr.congr hu.regs) hlt (hclean k hk u hturns) (hframes k hk u hturns)
    refine ⟨t, hrun, F'', ?_⟩
    rw [hfirst] at ht
    rw [pagesFrom_next hstart]
    exact hu.trans ht
  obtain ⟨t, hrun, F', ht⟩ := Prog.forRange_total_turns _ hturn ⟨F, by rw [hnone]; exact PagesGrown.refl h⟩
  refine ⟨t, F', hrun, ?_⟩
  have hall : pagesFrom start (start + pagesOf start size * FRAME_SIZE) = pagesFrom start (start + size) := by
    ext v
    unfold pagesOf
    rw [if_neg hsize]
    simp only [pagesFrom, FRAME_SIZE, Set.mem_ofPred_eq] at *
    omega
  rw [← hall]
  exact ht

end

end Kernel
