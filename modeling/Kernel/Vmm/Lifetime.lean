import Kernel.Vmm.Teardown
import Kernel.Vmm.World

/-!
# The frames of a process, from its fork to its exit

The copy takes as many frames as it has tables and pages, so all of them are
reached from the new root, and the exit gives all of them back.
-/

namespace Kernel

open Lib

/-! ## The size of a tree -/

section

variable {s t : Machine} {F G D : Set Nat} {p d n c root child table src dst : Nat}

theorem under_zero (s : Machine) (d table : Nat) : under s d table 0 = ∅ := by
  ext g
  simp [under]

theorem Forest.under_size (h : Forest t D p d n table) (hn : n ≤ 512)
    (htree : ∀ c D, OwnTree t D p d c → (within t.edge d c).Finite ∧ (within t.edge d c).ncard = treeSize t d c)
    {i : Nat} (hi : i ≤ n) : (under t d table i).Finite ∧ (under t d table i).ncard = entriesSize t d table i := by
  induction i with
  | zero =>
    rw [under_zero, entriesSize_zero]
    exact ⟨Set.finite_empty, Set.ncard_empty Nat⟩
  | succ i ih =>
    obtain ⟨hfin, hcard⟩ := ih (by omega)
    rw [entriesSize_succ]
    by_cases hp : present (t.mem table i)
    · have hc := edge_of_present (by omega) hp
      obtain ⟨hfin', hcard'⟩ := htree _ _ (h.child (by omega) hc)
      have hdis : Disjoint (under t d table i) (within t.edge d (entryPpn (t.mem table i))) := by
        rw [Set.disjoint_left]
        rintro g ⟨j, m, hj, hm, hg⟩ hg'
        exact Set.disjoint_left.mp (h.apart j i m _ (by omega) (by omega) (by omega) hm hc) hg hg'
      rw [under_succ hc, if_pos hp, Set.ncard_union_eq hdis hfin hfin', hcard, hcard']
      exact ⟨hfin.union hfin', rfl⟩
    · rw [under_skip (Machine.edge_none.mpr fun _ => hp), if_neg hp]
      exact ⟨hfin, hcard⟩

theorem OwnTree.size : ∀ {d c : Nat} {D : Set Nat}, OwnTree t D p d c →
    (within t.edge d c).Finite ∧ (within t.edge d c).ncard = treeSize t d c := by
  intro d
  induction d with
  | zero =>
    intro c D _
    rw [within_zero]
    exact ⟨Set.finite_singleton c, Set.ncard_singleton c⟩
  | succ d ih =>
    intro c D h
    obtain ⟨hc, hforest⟩ := ownTree_succ.mp h
    obtain ⟨hfin, hcard⟩ := hforest.under_size le_rfl (fun c D => ih) le_rfl
    have hout : c ∉ under t d c 512 := by
      rintro ⟨j, m, hj, hm, hg⟩
      exact ((hforest.trees j m hj hm).inside hg).2 rfl
    rw [within_succ_eq, Set.ncard_insert_of_notMem hout hfin, hcard, treeSize_succ, Nat.add_comm]
    exact ⟨hfin.insert c, rfl⟩

theorem Space.size (h : Space t F D p root) : (t.lowerFrames root).Finite ∧
    (t.lowerFrames root).ncard = 1 + entriesSize t 3 root 256 := by
  obtain ⟨hfin, hcard⟩ := h.forest.under_size (by omega) (fun c D => OwnTree.size) le_rfl
  have hout : root ∉ under t 3 root 256 := by
    rintro ⟨j, m, hj, hm, hg⟩
    exact ((h.forest.trees j m hj hm).inside hg).2 rfl
  rw [lowerFrames_under, Set.ncard_insert_of_notMem hout hfin, hcard, Nat.add_comm]
  exact ⟨hfin.insert root, rfl⟩

theorem CopyOf.size (h : CopyOf s t d src dst) : treeSize t d dst = treeSize s d src := by
  induction d generalizing src dst with
  | zero => rfl
  | succ d ih =>
    rw [treeSize, treeSize]
    refine congrArg (1 + ·) (Finset.sum_congr rfl fun i hi => ?_)
    obtain ⟨hsome, hnone⟩ := h i (Finset.mem_range.mp hi)
    by_cases hp : present (s.mem src i)
    · obtain ⟨c, hc, hentry, hcopy⟩ := hsome hp
      rw [hentry, if_pos hp, if_pos ((present_mkEntry c _).mpr ((present_flags _).mpr hp)),
        entryPpn_mkEntry hc (flags_masked _)]
      exact ih hcopy
    · rw [hnone hp, if_neg hp, if_neg not_present_zero]

theorem RootCopy.size (h : RootCopy s F root child t G) : entriesSize t 3 child 256 = entriesSize s 3 root 256 := by
  refine Finset.sum_congr rfl fun i hi => ?_
  have hi' := Finset.mem_range.mp hi
  by_cases hp : present (s.mem root i)
  · obtain ⟨c, hc, hentry, hcopy⟩ := h.copied i hi' hp
    rw [hentry, if_pos hp, if_pos ((present_mkEntry c _).mpr ((present_flags _).mpr hp)),
      entryPpn_mkEntry hc (flags_masked _)]
    exact hcopy.size
  · rw [h.blank i hi' hp, if_neg hp, if_neg not_present_zero]

theorem RootCopy.all (h : RootCopy s F root child t G) (hwf : PhysWf s F) (hmaps : ∀ g ∈ F \ G, t.maps g)
    (hcost : G.ncard + 1 + entriesSize s 3 root 256 = F.ncard) :
    Space t G (t.lowerFrames child) s.acting child ∧ G ∪ t.lowerFrames child = F := by
  have hchild : child ∈ F \ G := ⟨h.child_free, fun hg => (h.sub hg).2 rfl⟩
  have hspace : Space t G (F \ G) s.acting child := ⟨h.wf, fun g hg => ⟨hg.2, hmaps g hg⟩, hchild, h.forest⟩
  obtain ⟨hfin, hcard⟩ := hspace.size
  have hGF : G ⊆ F := fun g hg => (h.sub hg).1
  have hdiff := Set.ncard_sdiff_add_ncard_of_subset hGF hwf.finite
  have hall : t.lowerFrames child = F \ G := by
    refine Set.eq_of_subset_of_ncard_le hspace.lower ?_ (hwf.finite.sdiff)
    rw [hcard, h.size]
    omega
  refine ⟨hspace.shrink, ?_⟩
  rw [hall]
  exact Set.union_sdiff_cancel hGF

end

/-! ## The exit of any address space -/

/-- The address space of a thread on `root`, with `F` the free frames. -/
structure AddressSpace (s : Machine) (F : Set Nat) (root : Nat) : Prop where
  wf : PhysWf s F
  onRoot : OnRoot s root
  lower : LowerSource s F root
  once : LowerOnce s root
  vmes : VmesOk s.privateVmes
  own : root ≠ s.common_cr3 / FRAME_SIZE

/-- The frames of the lower half are on the `avail` list, each once, with the frames that were there before. -/
structure GivenBack (s : Machine) (root : Nat) (t : Machine) : Prop where
  freed : ∃ l l', AvailList s s.avail l ∧ AvailList t t.avail l' ∧ l'.Nodup ∧
    (∀ f, f ∈ l' ↔ f ∈ l ∨ f ∈ s.lowerFrames root) ∧ ∀ f ∈ l, f ∉ s.lowerFrames root
  ranges : t.free_ranges = s.free_ranges
  /-- No other frame changes, the tables under entries 256 to 511 among them. -/
  other : ∀ g, g ∉ s.lowerFrames root → t.mem g = s.mem g
  upper : ∀ i, 256 ≤ i → t.mem root i = s.mem root i
  cr3 : t.cr3 = s.common_cr3

section

variable {s t : Machine} {F : Set Nat} {root : Nat}

theorem RootFreed.freed (h : RootFreed s F root t) (hwf : PhysWf s F) (hranges : t.free_ranges = s.free_ranges)
    (hlower : LowerSource s F root) : ∃ l l', AvailList s s.avail l ∧ AvailList t t.avail l' ∧ l'.Nodup ∧
      (∀ f, f ∈ l' ↔ f ∈ l ∨ f ∈ s.lowerFrames root) ∧ ∀ f ∈ l, f ∉ s.lowerFrames root := by
  obtain ⟨l, hl, hF⟩ := hwf
  obtain ⟨l', hl', hF'⟩ := h.wf
  have hin : ∀ f, t.inRanges f ↔ s.inRanges f := fun f => by rw [Machine.inRanges, Machine.inRanges, hranges]
  have hapart := hl.apart
  have hapart' := hl'.apart
  refine ⟨l, l', hl.chain, hl'.chain, hl'.nodup, fun f => ?_, fun f hf hg => (hlower f hg).1 ((hF f).mpr (Or.inl hf))⟩
  have hf' := hF' f
  rw [Set.mem_union, hF, hin] at hf'
  constructor
  · intro hf
    rcases hf'.mpr (Or.inl hf) with (hf | hr) | hg
    · exact Or.inl hf
    · exact absurd ((hin f).mpr hr) (hapart' f hf)
    · exact Or.inr hg
  · rintro (hf | hg)
    · rcases hf'.mp (Or.inl (Or.inl hf)) with hf | hr
      · exact hf
      · exact absurd hr (hapart f hf)
    · rcases hf'.mp (Or.inr hg) with hf | hr
      · exact hf
      · exact absurd ((hF f).mpr (Or.inr hr)) (hlower f hg).1

theorem AddressSpace.exit (h : AddressSpace s F root) :
    ∃ t, fini_thread.run s = some ((), t) ∧ GivenBack s root t ∧ PhysWf t (F ∪ s.lowerFrames root) := by
  -- The owners are ghosts: the run is that of a machine on which every page is the thread's.
  let m : Machine := { s with owner := fun _ => some s.acting }
  have hspace : Space m F (m.lowerFrames root) s.acting root :=
    Space.of_once (h.wf.congr rfl rfl rfl fun _ _ => rfl) h.lower h.once fun _ _ => rfl
  obtain ⟨u, hrun, hu⟩ := fini_thread_frees hspace h.onRoot h.vmes h.own
  obtain ⟨hranges, o', ht⟩ := Unowned.run fini_thread_unowned hrun
  obtain ⟨l, l', hl, hl', hmem⟩ := hu.freed hspace.wf hranges h.lower
  refine ⟨_, ht, ⟨⟨l, l', ?_, ?_, hmem⟩, hranges, hu.other, hu.upper, hu.cr3⟩, ?_⟩
  · exact AvailList.congr (s := m) hl rfl fun _ _ => rfl
  · exact AvailList.congr (s := u) hl' rfl fun _ _ => rfl
  · exact hu.wf.congr rfl rfl rfl fun _ _ => rfl

end

/-! ## What a process does to its pages -/

inductive PageAction where
  | map (start size : Nat) (user write : Bool)
  | unmap (start stop : Nat)

/-- Calls of `map_range` and `unmapRange` on the user half. -/
inductive PageStep : Machine → PageAction → Machine → Prop where
  | map {s t : Machine} {start size : Nat} {user write : Bool} : start + size ≤ 2 ^ 47 →
      (map_range start size user write).run s = some ((), t) → PageStep s (.map start size user write) t
  | unmap {s t : Machine} {start stop : Nat} : stop ≤ 2 ^ 47 →
      (unmapRange start stop).run s = some ((), t) → PageStep s (.unmap start stop) t

def pageSystem : System Machine PageAction where
  init _ := True
  step := PageStep

/-- The frames that `map_range` takes for tables have no present word. -/
def CleanPages (s : Machine) : PageAction → Prop
  | .map start size user write => mapRangeClean user write start size s
  | .unmap _ _ => True

/-- The frames of `T` are free or in the lower half of `root`. -/
def Accounted (T : Set Nat) (root : Nat) (s : Machine) : Prop :=
  ∃ F, Space s F (s.lowerFrames root) s.acting root ∧ F ∪ s.lowerFrames root = T

section

variable {s t u : Machine} {T F : Set Nat} {root start size stop : Nat} {user write : Bool}

theorem mapPage_accounted {va : Nat} (h : Accounted T root s) (hr : OnRoot s root) (hva : va < 2 ^ 47)
    (hclean : pageClean va s) (hrun : (mapPage user write va).run s = some ((), t)) :
    Accounted T root t ∧ t.regs = s.regs := by
  obtain ⟨F, hs, hT⟩ := h
  cases he : s.pageEntry root (va / FRAME_SIZE) with
  | some entry =>
    rw [mapPage_some hs hr hva he, Option.some.injEq, Prod.mk.injEq] at hrun
    obtain ⟨-, rfl⟩ := hrun
    exact ⟨⟨F, hs, hT⟩, rfl⟩
  | none =>
    obtain ⟨f, v, F', -, hadded⟩ := mapPage_adds hs hr hva hclean he hrun
    have hregs := hadded.evolves.regs
    have hspace := hadded.space
    rw [← Machine.regs_acting hregs] at hspace
    refine ⟨⟨F', hspace.shrink, ?_⟩, hregs⟩
    rw [← hT]
    apply Set.Subset.antisymm
    · exact (Set.union_subset_union_right F' hspace.lower).trans hadded.evolves.sub
    · rintro g (hg | hg)
      · by_cases hg' : g ∈ F'
        · exact Or.inl hg'
        · exact Or.inr (hadded.frames (Or.inr ⟨hg, hg'⟩))
      · exact Or.inr (hadded.frames (Or.inl hg))

theorem map_range_accounted (h : Accounted T root s) (hr : OnRoot s root) (hend : start + size ≤ 2 ^ 47)
    (hclean : mapRangeClean user write start size s) (hrun : (map_range start size user write).run s = some ((), t)) :
    Accounted T root t ∧ t.regs = s.regs := by
  rcases map_range_loop hrun with ⟨-, rfl⟩ | ⟨-, hrun⟩
  · exact ⟨h, rfl⟩
  · refine Prog.forRange_inv_turns (fun _ u => Accounted T root u ∧ u.regs = s.regs) ?_ ⟨h, rfl⟩ hrun
    rintro k hk u v ⟨hu, hregs⟩ hturns hstep
    have hlt := pageCount_lt hk
    have hle := mapEnd_le hend
    obtain ⟨hv, hregs'⟩ := mapPage_accounted hu (hr.congr hregs) (by omega) (hclean k hk u hturns) hstep
    exact ⟨hv, hregs'.trans hregs⟩

theorem unmapRange_accounted (h : Accounted T root s) (hr : OnRoot s root) (hstop : stop ≤ 2 ^ 47)
    (hrun : (unmapRange start stop).run s = some ((), t)) : Accounted T root t ∧ t.regs = s.regs := by
  obtain ⟨F, hs, hT⟩ := h
  obtain ⟨F₁, D₁, -, he⟩ := unmapRange_spec hs hr hstop hrun
  obtain ⟨t', F', hrun', ht⟩ := unmapRange_tears start hs hr hstop
  rw [hrun, Option.some.injEq, Prod.mk.injEq] at hrun'
  obtain ⟨-, rfl⟩ := hrun'
  refine ⟨⟨F', ?_, ht.all.trans hT⟩, he.regs⟩
  rw [Machine.regs_acting he.regs]
  exact ht.space

theorem pageRun_accounted {ops : List PageAction} (h : Accounted T root s) (hr : OnRoot s root)
    (hrun : System.GuardedRun pageSystem CleanPages s ops t) : Accounted T root t ∧ t.regs = s.regs := by
  refine hrun.preserves (I := fun u => Accounted T root u ∧ u.regs = s.regs) ?_ ⟨h, rfl⟩
  rintro u a v ⟨hu, hregs⟩ hclean hstep
  cases hstep with
  | map hend hmap =>
    obtain ⟨hv, hregs'⟩ := map_range_accounted hu (hr.congr hregs) hend hclean hmap
    exact ⟨hv, hregs'.trans hregs⟩
  | unmap hstop hunmap =>
    obtain ⟨hv, hregs'⟩ := unmapRange_accounted hu (hr.congr hregs) hstop hunmap
    exact ⟨hv, hregs'.trans hregs⟩

/-! ## From fork to exit -/

theorem fork_accounted {st : ForkState} (hwf : PhysWf s F) (hsrc : LowerSource s F s.root)
    (hnew : ∀ live, s.newVme live ∉ live) (hfork : snapshot_for_fork.run s = some (st, t))
    (hinstall : (install_fork_state st).run { t with cr3 := st.cr3 } = some ((), u)) :
    ∃ child ∈ F, Accounted F child u ∧ OnRoot u child ∧ u.privateVmes.map VME.area = s.privateVmes.map VME.area ∧
      u.common_cr3 = s.common_cr3 := by
  obtain ⟨child, G, v, l, hroot, hregs, hvmes, hcost, rfl⟩ := snapshot_parts hwf hsrc hnew hfork
  rw [install_fork_state, Prog.run_modify] at hinstall
  subst hinstall
  have hfixed := Machine.regs_fixed hregs
  have hacting := Machine.regs_acting hregs
  have hstate : t.fixed = s.fixed ∧ t.acting = s.acting := by
    rw [hvmes.state]
    exact ⟨hfixed, hacting⟩
  have hlt := Machine.maps_lt hwf.hhdm (hwf.maps hroot.child_free)
  obtain ⟨hspace, hall⟩ := hroot.all hwf
    (fun g hg => (Machine.maps_congr (Machine.fixed_hhdm hstate.1) g).mpr (hwf.maps hg.1)) hcost
  rw [← hstate.2] at hspace
  refine ⟨child, hroot.child_free, ⟨G, hspace.congr rfl rfl rfl rfl rfl, hall⟩, ?_, hvmes.areas,
    Machine.fixed_common hstate.1⟩
  simp only [OnRoot, PA.ofPPN, FRAME_SIZE]
  omega

theorem fork_exit {st : ForkState} {ops : List PageAction} {d : Machine} (hwf : PhysWf s F)
    (hsrc : LowerSource s F s.root) (hvmes : VmesOk s.privateVmes) (hnew : ∀ live, s.newVme live ∉ live)
    (hcommon : s.common_cr3 / FRAME_SIZE ∉ F) (hfork : snapshot_for_fork.run s = some (st, t))
    (hinstall : (install_fork_state st).run { t with cr3 := st.cr3 } = some ((), u))
    (hrun : System.GuardedRun pageSystem CleanPages u ops d) (n : Nat) :
    ∃ e, fini_thread.run { d with n_active := n } = some ((), e) ∧ PhysWf e F := by
  obtain ⟨child, hchild, hu, hr, hareas, hcommon'⟩ := fork_accounted hwf hsrc hnew hfork hinstall
  obtain ⟨⟨G, hspace, hall⟩, hregs⟩ := pageRun_accounted hu hr hrun
  have hspace' : Space { d with n_active := n } G (d.lowerFrames child) d.acting child :=
    hspace.congr rfl rfl rfl rfl rfl
  have hdvmes : d.privateVmes = u.privateVmes := by
    have := congrArg Machine.privateVmes hregs
    exact this
  have hdcommon : d.common_cr3 = u.common_cr3 := Machine.fixed_common (Machine.regs_fixed hregs)
  have hdr : OnRoot d child := hr.congr hregs
  have hspaceOk : AddressSpace { d with n_active := n } G child := by
    refine ⟨hspace'.wf, hdr, hspace'.owned, hspace'.once, ?_, ?_⟩
    · show VmesOk d.privateVmes
      rw [hdvmes]
      exact hvmes.of_areas hareas
    · show child ≠ d.common_cr3 / FRAME_SIZE
      rw [hdcommon, hcommon']
      rintro rfl
      exact hcommon hchild
  obtain ⟨e, hexit, -, hwfe⟩ := hspaceOk.exit
  refine ⟨e, hexit, ?_⟩
  rw [← hall]
  exact hwfe

/-- **Exit.** `fini_thread` frees each frame of the lower half once and no other frame, so a child that is forked, maps
and unmaps pages and exits leaves the free frames as they were. -/
theorem exit_gives_back :
    (∀ (s : Machine) (F : Set Nat) (root : Nat), AddressSpace s F root →
      ∃ t, fini_thread.run s = some ((), t) ∧ GivenBack s root t) ∧
    ∀ (s t u d : Machine) (F : Set Nat) (st : ForkState) (ops : List PageAction) (n : Nat), PhysWf s F →
      LowerSource s F s.root → VmesOk s.privateVmes → (∀ live, s.newVme live ∉ live) → s.common_cr3 / FRAME_SIZE ∉ F →
      snapshot_for_fork.run s = some (st, t) → (install_fork_state st).run { t with cr3 := st.cr3 } = some ((), u) →
      System.GuardedRun pageSystem CleanPages u ops d →
      ∃ e, fini_thread.run { d with n_active := n } = some ((), e) ∧ PhysWf e F := by
  constructor
  · intro s F root h
    obtain ⟨t, hrun, ht, -⟩ := h.exit
    exact ⟨t, hrun, ht⟩
  · intro s t u d F st ops n hwf hsrc hvmes hnew hcommon hfork hinstall hrun
    exact fork_exit hwf hsrc hvmes hnew hcommon hfork hinstall hrun n

theorem mapPage_there {D : Set Nat} {va last : Nat} (h : Space s F D s.acting root) (hr : OnRoot s root)
    (hva : va < 2 ^ 47) (hF : F.Nonempty) (hw : walk s.edge root (tablePath (va / FRAME_SIZE) 3) = some last) :
    pageClean va s ∧ ∃ t, (mapPage user write va).run s = some ((), t) := by
  have hv : va / FRAME_SIZE < 2 ^ 35 := by
    simp only [FRAME_SIZE]
    omega
  have hwalk : ∀ f u, PhysMem.alloc.run s = some (f, u) →
      walk (u.marked f).edge root (tablePath (va / FRAME_SIZE) 3) = some last := by
    intro f u halloc
    have hpage := h.pageFrame halloc
    have hpath := lowerPath_tablePath hv []
    rw [List.append_nil] at hpath
    rw [← hw]
    refine lower_walk_congr hpath (by rw [tablePath_length]; omega) fun g hg => (hpage.other g ?_).1
    rintro rfl
    exact hpage.off (h.tables hg)
  constructor
  · intro _ f u halloc
    rw [hr.root h.root_lt]
    exact (tables_of_walk (hwalk f u halloc)).1
  · cases he : s.pageEntry root (va / FRAME_SIZE) with
    | some entry => exact ⟨s, mapPage_some h hr hva he⟩
    | none =>
      obtain ⟨f, u, halloc⟩ := alloc_returns h.wf hF
      have hpage := h.pageFrame halloc
      obtain ⟨hclean, hmissing⟩ := tables_of_walk (hwalk f u halloc)
      rw [mapPage_none h hr hva he, halloc]
      exact mapAt_returns f user write hpage.space.wf hpage.space.forest hpage.space.root_mem (vpnIndex_lower hv)
        hpage.space.owned hclean (hmissing.le.trans (Nat.zero_le _))

theorem second_page (hclean : pageClean 4096 s) (hrun : (mapPage user write 4096).run s = some ((), t)) :
    mapRangeClean user write 4096 4096 s ∧ (map_range 4096 4096 user write).run s = some ((), t) := by
  have hfirst : 4096 / FRAME_SIZE * FRAME_SIZE = 4096 := by simp only [FRAME_SIZE]
  have hend : mapEnd 4096 4096 = 2 * 4096 := by
    simp only [mapEnd, add64, sub64, FRAME_SIZE]
    rfl
  have hcount : pageCount 4096 (2 * 4096) = 1 := by simp only [pageCount, FRAME_SIZE]
  have hturn : 4096 + 0 * FRAME_SIZE = 4096 := by rw [Nat.zero_mul]
  constructor
  · intro k hk u hturns
    rw [hfirst, hend, hcount] at hk
    obtain rfl : k = 0 := by omega
    obtain rfl := (Prog.run_pure.mp hturns).2
    rw [hfirst, hturn]
    exact hclean
  · have hloop : (forPages 4096 (2 * 4096) (mapPage user write)).run s = some ((), t) := by
      show (Prog.forRange (pageCount 4096 (2 * 4096)) _).run s = _
      rw [hcount, Prog.forRange_succ, Prog.bind_run (u := s) (a := ()) rfl, hturn]
      exact hrun
    unfold map_range
    rw [if_neg (by decide), Prog.assert_bind_run (by decide), hfirst]
    refine (Prog.assert_bind_run (by rw [show add64 _ _ = mapEnd 4096 4096 from rfl, hend]; decide)).trans ?_
    rw [show add64 _ _ = mapEnd 4096 4096 from rfl, hend]
    exact hloop

/-- The child of `onePage` has the tables of page 1, and there are frames for more pages. -/
theorem onePage_child : ∃ st t u child G last, snapshot_for_fork.run onePage = some (st, t) ∧
    (install_fork_state st).run { t with cr3 := st.cr3 } = some ((), u) ∧
    Space u G (u.lowerFrames child) u.acting child ∧ OnRoot u child ∧ G.Nonempty ∧
    walk u.edge child (tablePath 1 3) = some last := by
  obtain ⟨st, t, child, G₁, hfork, hforked⟩ := onePage_forks
  have hinstall : (install_fork_state st).run { t with cr3 := st.cr3 } = some ((), _) := rfl
  obtain ⟨child', -, ⟨G, hspace, -⟩, hr, -⟩ := fork_accounted onePage_wf onePage_source onePage_new hfork hinstall
  obtain rfl : child' = child := by
    have hroot : child' * FRAME_SIZE = child * FRAME_SIZE := Eq.trans hr.symm hforked.cr3
    simp only [FRAME_SIZE] at hroot
    omega
  obtain ⟨_, G₂, _, _, hcopy, -, -, hcost, -⟩ := snapshot_parts onePage_wf onePage_source onePage_new hfork
  have hG : PhysWf t G := hspace.wf.congr rfl rfl rfl fun _ _ => rfl
  obtain rfl := hG.unique hcopy.wf
  rw [onePage_entriesSize, onePageFree_ncard] at hcost
  have hwalk : walk onePage.edge onePage.root (tablePath 0 3) = some 103 := by
    rw [onePage_root]
    simp [tablePath, vpnIndex, walk_cons, onePage_edge]
  have hentry := Machine.pageEntry_some.mpr ⟨103, hwalk, by decide, rfl⟩
  obtain ⟨entry, hentry, -⟩ := hforked.page 0 (by omega) _ hentry
  obtain ⟨last, hw, -⟩ := Machine.pageEntry_some.mp hentry
  exact ⟨st, t, _, child', G, last, hfork, hinstall, hspace, hr, Set.nonempty_of_ncard_ne_zero (by omega), hw⟩

theorem onePage_exits :
    (∃ t, fini_thread.run onePage = some ((), t) ∧ GivenBack onePage 100 t) ∧
    ∃ st t u d e, snapshot_for_fork.run onePage = some (st, t) ∧
      (install_fork_state st).run { t with cr3 := st.cr3 } = some ((), u) ∧
      System.GuardedRun pageSystem CleanPages u [.map 4096 4096 true true, .unmap 0 4096] d ∧
      fini_thread.run d = some ((), e) ∧ PhysWf e onePageFree := by
  have hcommon : onePage.common_cr3 / FRAME_SIZE = 0 := by
    show 0 / FRAME_SIZE = 0
    simp only [Nat.zero_div]
  have hvmes : VmesOk onePage.privateVmes := by
    intro v hv
    obtain rfl := List.mem_singleton.mp hv
    decide
  have hspace : AddressSpace onePage onePageFree 100 :=
    ⟨onePage_wf, onePage_onRoot, onePage_root ▸ onePage_source, onePage_lowerOnce, hvmes, by rw [hcommon]; decide⟩
  have hfree : onePage.common_cr3 / FRAME_SIZE ∉ onePageFree := by
    rw [hcommon]
    simp [onePageFree]
  obtain ⟨st, t, u, child, G, last, hfork, hinstall, hu, hr, hG, hw⟩ := onePage_child
  have hfirst : 4096 / FRAME_SIZE = 1 := by rw [FRAME_SIZE]
  obtain ⟨hclean, v, hmap⟩ := mapPage_there hu hr (show 4096 < 2 ^ 47 by omega) hG (hfirst ▸ hw)
  obtain ⟨hclean, hmap⟩ := second_page hclean hmap
  obtain ⟨⟨G', hv, -⟩, hregs⟩ := map_range_accounted ⟨G, hu, rfl⟩ hr (show 4096 + 4096 ≤ 2 ^ 47 by omega) hclean hmap
  obtain ⟨d, F', hunmap, -⟩ := unmapRange_tears 0 hv (hr.congr hregs) (show 4096 ≤ 2 ^ 47 by omega)
  have hrun : System.GuardedRun pageSystem CleanPages u [.map 4096 4096 true true, .unmap 0 4096] d :=
    .snoc (.snoc (.nil u) hclean (PageStep.map (by omega) hmap)) trivial (PageStep.unmap (by omega) hunmap)
  obtain ⟨e, hexit, hwf⟩ := exit_gives_back.2 onePage t u d onePageFree st _ d.n_active onePage_wf onePage_source hvmes
    onePage_new hfree hfork hinstall hrun
  exact ⟨exit_gives_back.1 onePage onePageFree 100 hspace, st, t, u, d, e, hfork, hinstall, hrun, hexit, hwf⟩

end

end Kernel
