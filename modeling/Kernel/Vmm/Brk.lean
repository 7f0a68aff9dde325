import Kernel.Vmm.Map
import Kernel.Vmm.Unmap

/-!
# `set_heap_break` keeps an address space in order

The frames of a process are its root, its lower-half tables and its pages. What
the process asks for moves frames between it and the free ones.
-/

namespace Kernel

open Lib

/-! ## One page more -/

/-- The ghost step of `markData`. -/
def Machine.marked (s : Machine) (f : Nat) : Machine :=
  { s with owner := fun g => if g = f then some s.acting else s.owner g }

/-- If the page is not there, the frames that `map` takes for its tables have no present word. -/
def pageClean (va : Nat) (s : Machine) : Prop :=
  s.pageEntry s.root (va / FRAME_SIZE) = none → ∀ f u, PhysMem.alloc.run s = some (f, u) →
    mapClean (va / FRAME_SIZE) 3 s.root (u.marked f)

theorem mapPage_some {s : Machine} {F D : Set Nat} {p root va : Nat} {user write : Bool} {entry : Word}
    (h : Space s F D p root) (hr : OnRoot s root) (hva : va < 2 ^ 47)
    (he : s.pageEntry root (va / FRAME_SIZE) = some entry) : (mapPage user write va).run s = some ((), s) := by
  rw [mapPage, Prog.bind_run (h.isMapped_run hr hva), he]
  rfl

theorem mapPage_none {s : Machine} {F D : Set Nat} {p root va : Nat} {user write : Bool}
    (h : Space s F D p root) (hr : OnRoot s root) (hva : va < 2 ^ 47)
    (he : s.pageEntry root (va / FRAME_SIZE) = none) :
    (mapPage user write va).run s = (PhysMem.alloc.run s).bind fun r =>
      (mapAt (va / FRAME_SIZE) r.1 user write 3 root).run (r.2.marked r.1) := by
  rw [mapPage, Prog.bind_run (h.isMapped_run hr hva), he, Option.isSome_none, if_neg (by simp)]
  rw [StateT.run_bind]
  cases halloc : PhysMem.alloc.run s with
  | none => rfl
  | some r =>
    have hspec := alloc_spec h.wf halloc
    have hcr3 : PPN.ofPA r.2.cr3 = root := by
      rw [Machine.regs_cr3 hspec.regs]
      exact hr.ofPA
    rw [← hcr3]
    rw [Option.bind_eq_bind, Option.bind_some, Option.bind_some, markData, Prog.modify_bind_run, VA,
      Prog.bind_run (Prog.assert_bind_run (Or.inl hva))]
    rfl

/-- On `w`, after an `alloc` in `s`, frame `f` is the process's and off its address space. -/
structure PageFrame (s : Machine) (F D : Set Nat) (root f : Nat) (w : Machine) : Prop where
  space : Space w (F \ {f}) D s.acting root
  free : f ∈ F
  maps : w.maps f
  off : f ∉ D
  small : f < 2 ^ 40
  owner : w.owner f = some s.acting
  other : ∀ g, g ≠ f → w.mem g = s.mem g ∧ w.owner g = s.owner g
  regs : w.regs = s.regs

theorem Space.pageFrame {s u : Machine} {F D : Set Nat} {root f : Nat} (h : Space s F D s.acting root)
    (halloc : PhysMem.alloc.run s = some (f, u)) : PageFrame s F D root f (u.marked f) := by
  have ha := alloc_spec h.wf halloc
  have hout : ∀ g ∈ D, g ≠ f := by
    rintro g hg rfl
    exact (h.owned g hg).1 ha.mem_free
  have hown : ∀ g, g ≠ f → (u.marked f).owner g = s.owner g := by
    intro g hg
    rw [← ha.owner]
    exact if_neg hg
  have hf40 : f < 2 ^ 40 := by
    have := Machine.maps_lt h.wf.hhdm (h.wf.maps ha.mem_free)
    omega
  refine ⟨⟨ha.wf.congr rfl rfl rfl fun _ _ => rfl, fun g hg => ?_, h.root_mem, ?_⟩, ha.mem_free,
    (Machine.maps_congr (Machine.regs_hhdm ha.regs) f).mpr (h.wf.maps ha.mem_free), fun hf => hout f hf rfl, hf40, ?_,
    fun g hg => ⟨ha.other g hg, hown g hg⟩, ha.regs⟩
  · exact ⟨fun hg' => (h.owned g hg).1 hg'.1, (Machine.maps_congr (Machine.regs_hhdm ha.regs) g).mpr (h.owned g hg).2⟩
  · exact h.forest.congr (fun i _ => congrFun (ha.other root (hout root h.root_mem)) i)
      (fun g hg _ => ha.other g (hout g hg)) fun g hg _ => hown g (hout g hg)
  · rw [← Machine.regs_acting ha.regs]
    exact if_pos rfl

section

variable {s w t : Machine} {F F' D : Set Nat} {root va f : Nat} {user write : Bool}

theorem PageFrame.mapped (hf : PageFrame s F D root f w)
    (hm : Mapped w (F \ {f}) D s.acting 3 256 root f t F') :
    Space t F' (D ∪ F \ F') s.acting root ∧ Evolves s F D t F' (D ∪ F \ F') := by
  have hgrow : D ∪ (F \ {f}) \ F' ∪ {f} = D ∪ F \ F' := by
    have htaken : {f} ⊆ F \ F' := Set.singleton_subset_iff.mpr ⟨hf.free, fun hg => (hm.sub hg).2 rfl⟩
    rw [Set.union_assoc, Set.sdiff_sdiff_comm, Set.sdiff_union_of_subset htaken]
  have hforest := hm.forest
  rw [hgrow] at hforest
  have hmaps : ∀ g, w.maps g → t.maps g := fun g => (Machine.maps_congr (Machine.regs_hhdm hm.regs) g).mpr
  have hmapsF : ∀ g ∈ F, w.maps g := by
    intro g hg
    by_cases hgf : g = f
    · rw [hgf]
      exact hf.maps
    · exact hf.space.wf.maps ⟨hg, hgf⟩
  refine ⟨⟨hm.wf, ?_, Or.inl hf.space.root_mem, hforest⟩, ?_, fun g hg => ?_, hm.regs.trans hf.regs⟩
  · rintro g (hg | hg)
    · exact ⟨fun hg' => (hf.space.owned g hg).1 (hm.sub hg'), hmaps g (hf.space.owned g hg).2⟩
    · exact ⟨hg.2, hmaps g (hmapsF g hg.1)⟩
  · rintro g (hg | hg | hg)
    · exact Or.inl (hm.sub hg).1
    · exact Or.inr hg
    · exact Or.inl hg.1
  · have hgf : g ≠ f := fun h => hg (Or.inl (h ▸ hf.free))
    obtain ⟨hmem, hown⟩ := hf.other g hgf
    exact ⟨(hm.other g fun hg' => hg (hg'.elim Or.inr fun h => Or.inl h.1.1)).trans hmem, by rw [hm.owner, hown]⟩

theorem PageFrame.mapAt_spec (hf : PageFrame s F D root f w) (hva : va < 2 ^ 47)
    (hclean : mapClean (va / FRAME_SIZE) 3 root w)
    (hrun : (mapAt (va / FRAME_SIZE) f user write 3 root).run w = some ((), t)) :
    ∃ F', Mapped w (F \ {f}) D s.acting 3 256 root f t F' := by
  have hidx := vpnIndex_lower (show va / FRAME_SIZE < 2 ^ 35 by simp only [FRAME_SIZE]; omega)
  exact Kernel.mapAt_spec hf.space.wf hf.space.forest hf.space.root_mem hidx hf.space.owned (fun hg => hg.2 rfl) hf.off
    hf.small hf.owner hclean hrun

end

theorem mapPage_spec {s t : Machine} {F D : Set Nat} {root va : Nat} {user write : Bool} {x : Unit}
    (h : Space s F D s.acting root) (hr : OnRoot s root) (hva : va < 2 ^ 47) (hclean : pageClean va s)
    (hrun : (mapPage user write va).run s = some (x, t)) :
    ∃ F' D', Space t F' D' s.acting root ∧ Evolves s F D t F' D' := by
  rw [pageClean, hr.root h.root_lt] at hclean
  cases he : s.pageEntry root (va / FRAME_SIZE) with
  | some entry =>
    rw [mapPage_some h hr hva he, Option.some.injEq, Prod.mk.injEq] at hrun
    obtain ⟨-, rfl⟩ := hrun
    exact ⟨F, D, h, Evolves.refl _ F D⟩
  | none =>
    rw [mapPage_none h hr hva he, Option.bind_eq_some_iff] at hrun
    obtain ⟨⟨f, u⟩, halloc, hrun⟩ := hrun
    have hf := h.pageFrame halloc
    obtain ⟨F', hm⟩ := hf.mapAt_spec hva (hclean he f u halloc) hrun
    exact ⟨F', D ∪ F \ F', hf.mapped hm⟩

/-! ## A range of pages -/

def pageCount (start stop : Nat) : Nat := (stop - start + (FRAME_SIZE - 1)) / FRAME_SIZE

/-- Every page of the range is clean when its turn comes. -/
def rangeClean (user write : Bool) (start stop : Nat) (s : Machine) : Prop :=
  ∀ k, k < pageCount start stop → ∀ u,
    (Prog.forRange k fun k => mapPage user write (start + k * FRAME_SIZE)).run s = some ((), u) →
    pageClean (start + k * FRAME_SIZE) u

theorem forPages_space {s t : Machine} {F D : Set Nat} {root start stop : Nat} {body : Nat → K Unit} {x : Unit}
    (h : Space s F D s.acting root) (hr : OnRoot s root)
    (hbody : ∀ k, k < pageCount start stop → ∀ u v F D, Space u F D u.acting root → OnRoot u root →
      (Prog.forRange k fun k => body (start + k * FRAME_SIZE)).run s = some ((), u) →
      (body (start + k * FRAME_SIZE)).run u = some ((), v) →
      ∃ F' D', Space v F' D' u.acting root ∧ Evolves u F D v F' D')
    (hrun : (forPages start stop body).run s = some (x, t)) :
    ∃ F' D', Space t F' D' s.acting root ∧ Evolves s F D t F' D' := by
  refine Prog.forRange_inv_turns (fun _ u => ∃ F' D', Space u F' D' s.acting root ∧ Evolves s F D u F' D') ?_
    ⟨F, D, h, Evolves.refl s F D⟩ hrun
  rintro k hk u v ⟨F', D', hu, he⟩ hturns hstep
  have hact := Machine.regs_acting he.regs
  obtain ⟨F'', D'', hv, he'⟩ := hbody k hk u v F' D' (by rw [hact]; exact hu) (hr.congr he.regs) hturns hstep
  rw [hact] at hv
  exact ⟨F'', D'', hv, he.trans he'⟩

theorem pageCount_lt {start stop k : Nat} (h : k < pageCount start stop) : start + k * FRAME_SIZE < stop := by
  simp only [pageCount, FRAME_SIZE] at *
  omega

theorem unmapRange_spec {s t : Machine} {F D : Set Nat} {root start stop : Nat} {x : Unit}
    (h : Space s F D s.acting root) (hr : OnRoot s root) (hstop : stop ≤ 2 ^ 47)
    (hrun : (unmapRange start stop).run s = some (x, t)) :
    ∃ F' D', Space t F' D' s.acting root ∧ Evolves s F D t F' D' := by
  refine forPages_space h hr (fun k hk u v F D hu hur _ hstep => ?_) hrun
  have := pageCount_lt hk
  exact unmapPage_spec hu hur (by omega) hstep

/-- Where the loop of `map_range` stops. -/
def mapEnd (start size : Nat) : Nat :=
  add64 (sub64 (add64 start size) 1 / FRAME_SIZE * FRAME_SIZE + (FRAME_SIZE - 1)) 1

theorem mapEnd_le {start size : Nat} (h : start + size ≤ 2 ^ 47) : mapEnd start size ≤ 2 ^ 47 := by
  simp only [mapEnd, add64, sub64, FRAME_SIZE]
  omega

/-- Every page that `map_range` adds is clean. -/
def mapRangeClean (user write : Bool) (start size : Nat) (s : Machine) : Prop :=
  rangeClean user write (start / FRAME_SIZE * FRAME_SIZE) (mapEnd start size) s

theorem map_range_loop {s t : Machine} {start size : Nat} {user write : Bool} {x : Unit}
    (hrun : (map_range start size user write).run s = some (x, t)) :
    (size = 0 ∧ t = s) ∨ (size ≠ 0 ∧
      (forPages (start / FRAME_SIZE * FRAME_SIZE) (mapEnd start size) (mapPage user write)).run s = some (x, t)) := by
  rw [map_range, Prog.run_ite] at hrun
  rcases hrun with ⟨h0, hrun⟩ | ⟨h0, hrun⟩
  · rw [Prog.run_pure] at hrun
    exact Or.inl ⟨h0, hrun.2⟩
  · simp only [Prog.run_bind, Prog.run_assert] at hrun
    obtain ⟨_, _, ⟨_, rfl⟩, _, _, ⟨_, rfl⟩, hrun⟩ := hrun
    exact Or.inr ⟨h0, hrun⟩

theorem map_range_spec {s t : Machine} {F D : Set Nat} {root start size : Nat} {user write : Bool} {x : Unit}
    (h : Space s F D s.acting root) (hr : OnRoot s root) (hend : start + size ≤ 2 ^ 47)
    (hclean : mapRangeClean user write start size s) (hrun : (map_range start size user write).run s = some (x, t)) :
    ∃ F' D', Space t F' D' s.acting root ∧ Evolves s F D t F' D' := by
  rcases map_range_loop hrun with ⟨-, rfl⟩ | ⟨-, hrun⟩
  · exact ⟨F, D, h, Evolves.refl _ F D⟩
  · refine forPages_space h hr (fun k hk u v F D hu hur hturns hstep => ?_) hrun
    have hlt := pageCount_lt hk
    have hle := mapEnd_le hend
    exact mapPage_spec hu hur (by omega) (hclean k hk u hturns) hstep

/-! ## The heap break -/

/-- Every page that `set_heap_break` adds is clean. -/
def brkClean (new_break : Nat) (s : Machine) : Prop :=
  s.heapStart ≠ 0 → s.heapBreak ≠ 0 → s.heapStart ≤ new_break → new_break < 0x0000800000000000 →
    roundUpPage s.heapBreak < roundUpPage new_break →
    mapRangeClean true true (roundUpPage s.heapBreak) (roundUpPage new_break - roundUpPage s.heapBreak) s

/-- The break is where the heap starts, or in the lower half. -/
def HeapOk (s : Machine) : Prop := s.heapBreak = s.heapStart ∨ s.heapBreak < 2 ^ 47

theorem roundUpPage_le {n : Nat} (h : n < 2 ^ 47) : roundUpPage n ≤ 2 ^ 47 := by
  simp only [roundUpPage, add64, FRAME_SIZE]
  omega

/-- What `set_heap_break` leaves: the same address space in order, and perhaps another break. -/
theorem set_heap_break_spec {s t : Machine} {F D : Set Nat} {root new_break : Nat} {r : Int}
    (h : Space s F D s.acting root) (hr : OnRoot s root) (hheap : HeapOk s) (hclean : brkClean new_break s)
    (hrun : (set_heap_break new_break).run s = some (r, t)) :
    ∃ F' D' u, Space u F' D' s.acting root ∧ Evolves s F D u F' D' ∧ HeapOk t ∧
      (t = u ∨ t = { u with heapBreak := new_break }) := by
  rw [set_heap_break, Prog.get_bind_run, Prog.run_ite] at hrun
  rcases hrun with ⟨-, hrun⟩ | ⟨hset, hrun⟩
  · rw [Prog.run_pure] at hrun
    obtain ⟨-, rfl⟩ := hrun
    exact ⟨F, D, t, h, Evolves.refl _ F D, hheap, Or.inl rfl⟩
  rw [Prog.run_ite] at hrun
  rcases hrun with ⟨-, hrun⟩ | ⟨hin, hrun⟩
  · rw [Prog.run_pure] at hrun
    obtain ⟨-, rfl⟩ := hrun
    exact ⟨F, D, t, h, Evolves.refl _ F D, hheap, Or.inl rfl⟩
  have hnew : new_break < 2 ^ 47 := by omega
  have hold : s.heapBreak < 2 ^ 47 := by
    rcases hheap with hheap | hheap <;> omega
  have hle := roundUpPage_le hnew
  have hle' := roundUpPage_le hold
  -- The three branches end in the store of the new break.
  have hstore : ∀ {u : Machine} {F' D' : Set Nat}, Space u F' D' s.acting root → Evolves s F D u F' D' →
      (do modify fun s => { s with heapBreak := new_break }; pure 0 : K Int).run u = some (r, t) →
      ∃ F' D' u, Space u F' D' s.acting root ∧ Evolves s F D u F' D' ∧ HeapOk t ∧
        (t = u ∨ t = { u with heapBreak := new_break }) := by
    intro u F' D' hu he hend
    rw [Prog.modify_bind_run, Prog.run_pure] at hend
    obtain ⟨-, rfl⟩ := hend
    exact ⟨F', D', u, hu, he, Or.inr hnew, Or.inr rfl⟩
  dsimp only at hrun
  rw [Prog.run_ite] at hrun
  rcases hrun with ⟨hgrow, hrun⟩ | ⟨-, hrun⟩
  · obtain ⟨start, _, hva, hrun⟩ := Prog.run_bind.mp hrun
    simp only [VA, Prog.run_bind, Prog.run_assert, Prog.run_pure] at hva
    obtain ⟨_, _, ⟨_, rfl⟩, rfl, rfl⟩ := hva
    obtain ⟨_, v, hmap, hrest⟩ := Prog.run_bind.mp hrun
    have hclean' := hclean (by omega) (by omega) (by omega) (by omega) hgrow
    obtain ⟨F', D', hv, he⟩ := map_range_spec h hr (by omega) hclean' hmap
    exact hstore hv he hrest
  · rw [Prog.run_ite] at hrun
    rcases hrun with ⟨-, hrun⟩ | ⟨-, hrun⟩
    · obtain ⟨_, v, hunmap, hrest⟩ := Prog.run_bind.mp hrun
      obtain ⟨F', D', hv, he⟩ := unmapRange_spec h hr hle' hunmap
      exact hstore hv he hrest
    · exact hstore h (Evolves.refl s F D) hrun

end Kernel
