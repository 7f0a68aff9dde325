import Kernel.Vmm.Space

/-!
# `unmapPage` and `freeTableSubtree` take pages away

One entry is cut out of a tree, or a whole tree goes back to the free frames.
-/

namespace Kernel

open Lib

/-! ## One page less -/

theorem Forest.cut {s t : Machine} {p vpn tbl f level : Nat}
    (hp : present (s.mem tbl (vpnIndex vpn 0))) (hf : entryPpn (s.mem tbl (vpnIndex vpn 0)) = f)
    (hmem : ∀ g, g ≠ tbl → g ≠ f → t.mem g = s.mem g)
    (hrow : ∀ i, i ≠ vpnIndex vpn 0 → t.mem tbl i = s.mem tbl i) (hzero : t.mem tbl (vpnIndex vpn 0) = 0)
    (hown : ∀ g, g ≠ f → t.owner g = s.owner g) :
    ∀ {D : Set Nat} {n table : Nat}, Forest s D p level n table → vpnIndex vpn level < n →
      walk s.edge table (tablePath vpn level) = some tbl → Forest t (D \ {f}) p level n table := by
  have hleaf : walk s.edge tbl [vpnIndex vpn 0] = some f := by
    rw [walk_cons_some (edge_of_present (vpnIndex_lt vpn 0) hp), hf]
    rfl
  induction level with
  | zero =>
    intro D n table h hi hw
    obtain rfl : table = tbl := Option.some.inj hw
    have hedge := edge_of_present (vpnIndex_lt vpn 0) hp
    rw [hf] at hedge
    refine h.update (k := vpnIndex vpn 0) (E := ∅) (fun i _ hik => ?_) (fun i c hi' hik hc g hg => ?_) (fun c hc => ?_)
      (Set.notMem_empty _) (Set.empty_subset _)
    · rw [Machine.edge, Machine.edge, hrow i hik]
    · obtain ⟨hgD, hgt⟩ := (h.trees i c hi' hc).inside hg
      have hgf : g ≠ f := by
        rintro rfl
        exact Set.disjoint_left.mp (h.apart i _ c g hi' hi hik hc hedge) hg (self_mem_within _ g)
      exact ⟨hmem g hgt hgf, hown g hgf, ⟨hgD, hgf⟩, Set.notMem_empty g⟩
    · rw [edge_zero hzero] at hc
      cases hc
  | succ level ih =>
    intro D n table h hi hw
    have hpage : walk s.edge table (tablePath vpn (level + 1) ++ [vpnIndex vpn 0]) = some f := by
      rw [walk_append, hw, Option.bind_some, hleaf]
    have hlen := tablePath_length vpn level
    rw [tablePath] at hw hpage
    have hfD := h.walk_mem hi (by simp [hlen]) hpage
    have htbl := h.walk_mem hi (by omega) hw
    obtain ⟨c, hc, hw⟩ := walk_cons_eq_some.mp hw
    rw [List.cons_append, walk_cons_some hc] at hpage
    have hsub := (h.trees _ c hi hc).inside
    have htree := h.child hi hc
    have hforest := (ownTree_succ.mp htree).2
    have hfc : f ∈ within s.edge (level + 1) c := ⟨_, by simp [hlen], hpage⟩
    have htc : tbl ∈ within s.edge (level + 1) c := ⟨_, by omega, hw⟩
    have hcf : c ≠ f := by
      rintro rfl
      have := htree.tree [] _ c (by simp) (by simp [hlen]) rfl hpage
      simp at this
    have hnew := ih hforest (vpnIndex_lt vpn level) hw
    have hrowT : t.mem table = s.mem table :=
      hmem table (fun e => (hsub (e ▸ htc)).2 rfl) fun e => (hsub (e ▸ hfc)).2 rfl
    refine h.update (k := vpnIndex vpn (level + 1)) (E := within s.edge (level + 1) c \ {f}) (fun i _ _ => ?_)
      (fun i m hi' hik hm g hg => ?_) (fun m hm => ?_) (fun hg => (hsub hg.1).2 rfl)
      fun g hg => ⟨(hsub hg.1).1, hg.2⟩
    · rw [Machine.edge_congr hrowT]
    · have haway := Set.disjoint_left.mp (h.apart i _ m c hi' hi hik hm hc) hg
      have hgf : g ≠ f := fun e => haway (e ▸ hfc)
      have hgt : g ≠ tbl := fun e => haway (e ▸ htc)
      exact ⟨hmem g hgt hgf, hown g hgf, ⟨((h.trees i m hi' hm).inside hg).1, hgf⟩, fun hg' => haway hg'.1⟩
    · rw [Machine.edge_congr hrowT, hc, Option.some.injEq] at hm
      subst hm
      exact ownTree_succ.mpr ⟨⟨self_mem_within _ c, hcf⟩, hnew⟩

section

variable {s : Machine} {va i tbl : Nat} {last : Option Nat}

theorem unmapPage_found (hh : HhdmOk s) (hi : i < 512) (hleaf : (leafPte va).run s = some (some (s.vaOf tbl, i), s))
    (hp : present (s.mem tbl i)) (hm : s.maps (entryPpn (s.mem tbl i))) :
    (unmapPage va).run s = some ((), (s.poke tbl i 0).freed (entryPpn (s.mem tbl i))) := by
  rw [unmapPage, Prog.bind_run hleaf]
  simp only []
  rw [Prog.bind_run (load_vaOf hi), if_pos hp, Prog.bind_run (store_vaOf hi)]
  exact free_run (s := s.poke tbl i 0) (hh.congr rfl) hm

theorem unmapPage_absent (hi : i < 512)
    (hleaf : (leafPte va).run s = some (last.map fun t => (s.vaOf t, i), s))
    (habsent : ∀ t, last = some t → ¬ present (s.mem t i)) : (unmapPage va).run s = some ((), s) := by
  rw [unmapPage, Prog.bind_run hleaf]
  cases last with
  | none => rfl
  | some t =>
    rw [Option.map_some]
    simp only []
    rw [Prog.bind_run (load_vaOf hi), if_neg (habsent t rfl)]
    rfl

end

theorem unmapPage_run {s : Machine} {F D : Set Nat} {p root va tbl : Nat} (h : Space s F D p root) (hr : OnRoot s root)
    (hva : va < 2 ^ 47) (hw : walk s.edge root (tablePath (va / FRAME_SIZE) 3) = some tbl)
    (hp : present (s.mem tbl (vpnIndex (va / FRAME_SIZE) 0)))
    (hm : s.maps (entryPpn (s.mem tbl (vpnIndex (va / FRAME_SIZE) 0)))) :
    (unmapPage va).run s = some ((), (s.poke tbl (vpnIndex (va / FRAME_SIZE) 0) 0).freed
      (entryPpn (s.mem tbl (vpnIndex (va / FRAME_SIZE) 0)))) := by
  refine unmapPage_found h.wf.hhdm (vpnIndex_lt _ 0) ?_ hp hm
  rw [h.leafPte_run hr hva, hw]
  rfl

/-- `unmapPage` leaves everything as it is, or takes away the page that is there and frees its frame. -/
theorem unmapPage_cases {s : Machine} {F D : Set Nat} {p root va : Nat} (h : Space s F D p root) (hr : OnRoot s root)
    (hva : va < 2 ^ 47) :
    (unmapPage va).run s = some ((), s) ∨ ∃ tbl f, walk s.edge root (tablePath (va / FRAME_SIZE) 3) = some tbl ∧
      s.edge tbl (vpnIndex (va / FRAME_SIZE) 0) = some f ∧ f ∈ D ∧
      (unmapPage va).run s = some ((), (s.poke tbl (vpnIndex (va / FRAME_SIZE) 0) 0).freed f) := by
  have hv : va / FRAME_SIZE < 2 ^ 35 := by
    simp only [FRAME_SIZE]; omega
  have hi := vpnIndex_lt (va / FRAME_SIZE) 0
  have habsent := unmapPage_absent hi (h.leafPte_run hr hva)
  cases hw : walk s.edge root (tablePath (va / FRAME_SIZE) 3) with
  | none => exact Or.inl (habsent fun t ht => by simp [hw] at ht)
  | some tbl =>
    by_cases hp : present (s.mem tbl (vpnIndex (va / FRAME_SIZE) 0))
    · right
      have hedge := edge_of_present hi hp
      have hpage : walk s.edge root (tablePath (va / FRAME_SIZE) 3 ++ [vpnIndex (va / FRAME_SIZE) 0]) =
          some (entryPpn (s.mem tbl (vpnIndex (va / FRAME_SIZE) 0))) := by
        rw [walk_append, hw, Option.bind_some, walk_cons_some hedge]
        rfl
      have hfD := h.forest.paths_mem h.root_mem (lowerPath_tablePath hv _) (by simp [tablePath_length]) hpage
      exact ⟨tbl, _, rfl, hedge, hfD, unmapPage_run h hr hva hw hp (h.owned _ hfD).2⟩
    · refine Or.inl (habsent fun t ht => ?_)
      obtain rfl := Option.some.inj (hw.symm.trans ht)
      exact hp

theorem Space.cut {s : Machine} {F D : Set Nat} {p root vpn tbl f : Nat} (h : Space s F D p root) (hv : vpn < 2 ^ 35)
    (hw : walk s.edge root (tablePath vpn 3) = some tbl) (hedge : s.edge tbl (vpnIndex vpn 0) = some f) :
    tbl ≠ f ∧ root ≠ f ∧ root ≠ tbl ∧ tbl ∈ D ∧
      Space ((s.poke tbl (vpnIndex vpn 0) 0).freed f) (insert f F) (D \ {f}) p root := by
  have hi := vpnIndex_lower hv
  have hlen := tablePath_length vpn 3
  have hlower := lowerPath_tablePath hv [vpnIndex vpn 0]
  have hinitial := lowerPath_initial hv (List.prefix_refl _)
  obtain ⟨-, hp, hf⟩ := Machine.edge_some.mp hedge
  have hpage : walk s.edge root (tablePath vpn 3 ++ [vpnIndex vpn 0]) = some f := by
    rw [walk_append, hw, Option.bind_some, walk_cons_some hedge]
    rfl
  have hfD := h.forest.paths_mem h.root_mem hlower (by simp [hlen]) hpage
  have htD := h.tables ⟨_, hinitial, by omega, hw⟩
  have hroot : root ≠ f := by
    rintro rfl
    have := h.forest.paths_inj (n := 256) (π := []) (by simp [StartsBelow]) hlower (by simp) (by simp [hlen]) rfl hpage
    simp at this
  have hroot' : root ≠ tbl := by
    rintro rfl
    have := h.forest.paths_inj (n := 256) (π := []) (by simp [StartsBelow]) hinitial (by simp) (by omega) rfl hw
    rw [← this] at hlen
    simp at hlen
  have htf : tbl ≠ f := by
    rintro rfl
    have := h.forest.paths_inj hinitial hlower (by omega) (by simp [hlen]) hw hpage
    simpa using congrArg List.length this
  let u := s.poke tbl (vpnIndex vpn 0) 0
  have hu : PhysWf u F := h.wf.congr rfl rfl rfl fun g hg =>
    Machine.poke_mem_of_ne fun e => (h.owned tbl htD).1 (e ▸ hg)
  have htbl : (u.freed f).mem tbl = u.mem tbl := Machine.poke_mem_of_ne htf
  refine ⟨htf, hroot, hroot', htD, hu.freed (h.owned f hfD).1 (h.owned f hfD).2, ?_, ⟨h.root_mem, hroot⟩, ?_⟩
  · rintro g ⟨hgD, hgf⟩
    refine ⟨?_, (h.owned g hgD).2⟩
    rintro (rfl | hg)
    · exact hgf rfl
    · exact (h.owned g hgD).1 hg
  · refine h.forest.cut hp hf (fun g ht hg => ?_) (fun i hi => ?_) ?_ (fun g hg => if_neg hg) hi hw
    · exact (Machine.poke_mem_of_ne hg).trans (Machine.poke_mem_of_ne ht)
    · rw [htbl]; simp [u, Machine.poke, hi]
    · rw [htbl]; simp [u, Machine.poke]

theorem unmapPage_spec {s t : Machine} {F D : Set Nat} {p root va : Nat} {x : Unit} (h : Space s F D p root)
    (hr : OnRoot s root) (hva : va < 2 ^ 47) (hrun : (unmapPage va).run s = some (x, t)) :
    ∃ F' D', Space t F' D' p root ∧ Evolves s F D t F' D' := by
  have hv : va / FRAME_SIZE < 2 ^ 35 := by
    simp only [FRAME_SIZE]; omega
  rcases unmapPage_cases h hr hva with hsame | ⟨tbl, f, hw, hedge, hfD, hcut⟩
  · rw [hsame, Option.some.injEq, Prod.mk.injEq] at hrun
    obtain ⟨-, rfl⟩ := hrun
    exact ⟨F, D, h, Evolves.refl _ F D⟩
  · rw [hcut, Option.some.injEq, Prod.mk.injEq] at hrun
    obtain ⟨-, rfl⟩ := hrun
    obtain ⟨-, -, -, htD, hspace⟩ := h.cut hv hw hedge
    refine ⟨_, _, hspace, ?_, fun g hg => ?_, rfl⟩
    · rintro g ((rfl | hg) | hg)
      · exact Or.inr hfD
      · exact Or.inl hg
      · exact Or.inr hg.1
    · have hgf : g ≠ f := fun e => hg (Or.inr (e ▸ hfD))
      have hgt : g ≠ tbl := fun e => hg (Or.inr (e ▸ htD))
      exact ⟨(Machine.poke_mem_of_ne hgf).trans (Machine.poke_mem_of_ne hgt), if_neg hgf⟩

/-! ## A whole tree -/

/-- The body of the loops of `freeTableSubtree` and `fini_thread`. -/
def freeEntry (A : Nat → K Unit) (table i : Nat) : K Unit := do
  let entry ← load table i
  if present entry then
    A (entryPpn entry)
    store table i 0
  else pure ()

/-- What the loops do with the frame of an entry that leads to a tree of depth `d`. -/
def freeChild : Nat → Nat → K Unit
  | 0 => PhysMem.free
  | level + 1 => fun child => do
    freeTableSubtree level child
    PhysMem.free child

theorem freeTableSubtree_eq (level tablePpn : Nat) : freeTableSubtree level tablePpn = (do
    let table ← VA.ofPPN tablePpn
    Prog.forRange 512 fun i => freeEntry (freeChild level) table i) := by
  cases level with
  | zero => rfl
  | succ level => simp only [freeTableSubtree, freeEntry, freeChild, bind_assoc]

/-- The frames of `W` are free now, and the others are as they were. -/
structure Freed (s : Machine) (F W : Set Nat) (t : Machine) : Prop where
  wf : PhysWf t (F ∪ W)
  other : ∀ g, g ∉ W → t.mem g = s.mem g ∧ t.owner g = s.owner g
  regs : t.regs = s.regs

/-- `A` returns from a tree of depth `d`, whose frames are free then. -/
def FreesAt (d : Nat) (A : Nat → K Unit) : Prop :=
  ∀ s F D p c, PhysWf s F → OwnTree s D p d c → (∀ g ∈ D, g ∉ F ∧ s.maps g) →
    ∃ t, (A c).run s = some ((), t) ∧ Freed s F (within s.edge d c) t

theorem free_frees : FreesAt 0 PhysMem.free := by
  intro s F D p c hwf htree hD
  have hc := htree.inside (self_mem_within 0 c)
  refine ⟨s.freed c, free_run hwf.hhdm (hD c hc).2, ?_, fun g hg => ?_, rfl⟩
  · rw [within_zero, Set.union_singleton]
    exact hwf.freed (hD c hc).1 (hD c hc).2
  · rw [within_zero, Set.mem_singleton_iff] at hg
    exact ⟨Machine.poke_mem_of_ne hg, if_neg hg⟩

/-- The frames under the first `i` entries of a table. -/
def under (s : Machine) (d table i : Nat) : Set Nat :=
  {g | ∃ j c, j < i ∧ s.edge table j = some c ∧ g ∈ within s.edge d c}

theorem under_succ {s : Machine} {d table i c : Nat} (hc : s.edge table i = some c) :
    under s d table (i + 1) = under s d table i ∪ within s.edge d c := by
  ext g
  constructor
  · rintro ⟨j, m, hj, hm, hg⟩
    rcases Nat.lt_succ_iff_lt_or_eq.mp hj with hj | rfl
    · exact Or.inl ⟨j, m, hj, hm, hg⟩
    · rw [hc, Option.some.injEq] at hm
      exact Or.inr (hm ▸ hg)
  · rintro (⟨j, m, hj, hm, hg⟩ | hg)
    · exact ⟨j, m, by omega, hm, hg⟩
    · exact ⟨i, c, by omega, hc, hg⟩

theorem under_skip {s : Machine} {d table i : Nat} (hc : s.edge table i = none) :
    under s d table (i + 1) = under s d table i := by
  ext g
  constructor
  · rintro ⟨j, m, hj, hm, hg⟩
    rcases Nat.lt_succ_iff_lt_or_eq.mp hj with hj | rfl
    · exact ⟨j, m, hj, hm, hg⟩
    · rw [hc] at hm; cases hm
  · rintro ⟨j, m, hj, hm, hg⟩
    exact ⟨j, m, by omega, hm, hg⟩

/-- The loop has freed what is under the first `i` entries of `table`. -/
structure FreeLoop (s : Machine) (F : Set Nat) (d table i : Nat) (t : Machine) : Prop where
  wf : PhysWf t (F ∪ under s d table i)
  other : ∀ g, g ∉ under s d table i → g ≠ table → t.mem g = s.mem g
  row : ∀ j, i ≤ j → t.mem table j = s.mem table j
  owner : ∀ g, g ∉ under s d table i → t.owner g = s.owner g
  regs : t.regs = s.regs

theorem FreeLoop.start {s : Machine} {F : Set Nat} (hwf : PhysWf s F) (d table : Nat) : FreeLoop s F d table 0 s := by
  have h0 : under s d table 0 = ∅ := by
    ext g
    simp [under]
  exact ⟨by rw [h0, Set.union_empty]; exact hwf, fun _ _ _ => rfl, fun _ _ => rfl, fun _ _ => rfl, rfl⟩

theorem FreeLoop.step {A : Nat → K Unit} {s u : Machine} {F D : Set Nat} {p d n table i : Nat} (hA : FreesAt d A)
    (h : FreeLoop s F d table i u) (hforest : Forest s D p d n table) (htable : table ∈ D) (hi : i < n) (hn : n ≤ 512)
    (hD : ∀ g ∈ D, g ∉ F ∧ s.maps g) :
    ∃ t, (freeEntry A (s.vaOf table) i).run u = some ((), t) ∧ FreeLoop s F d table (i + 1) t := by
  have hhu := Machine.regs_hhdm h.regs
  have hout : table ∉ under s d table i := by
    rintro ⟨j, m, hj, hm, hg⟩
    exact ((hforest.trees j m (by omega) hm).inside hg).2 rfl
  rw [← Machine.vaOf_congr hhu, freeEntry, Prog.bind_run (load_vaOf (by omega)), h.row i le_rfl]
  by_cases hp : present (s.mem table i)
  · rw [if_pos hp]
    have hc := edge_of_present (by omega) hp
    generalize entryPpn (s.mem table i) = c at hc
    have htree := hforest.child hi hc
    have hsub := (hforest.trees i c hi hc).inside
    have haway : ∀ g ∈ within s.edge d c, g ∉ under s d table i := by
      rintro g hg ⟨j, m, hj, hm, hg'⟩
      exact Set.disjoint_left.mp (hforest.apart i j c m hi (by omega) (by omega) hc hm) hg hg'
    have hsame : ∀ g ∈ within s.edge d c, u.mem g = s.mem g := fun g hg => h.other g (haway g hg) (hsub hg).2
    have htree' := htree.congr hsame fun g hg => h.owner g (haway g hg)
    obtain ⟨v, hrun, hv⟩ := hA u _ _ p c h.wf htree' fun g hg =>
      ⟨fun hg' => hg'.elim (hD g (hsub hg).1).1 (haway g hg), (Machine.maps_congr hhu g).mpr (hD g (hsub hg).1).2⟩
    rw [within_agree subset_rfl hsame] at hv
    have htc : table ∉ within s.edge d c := fun hg => (hsub hg).2 rfl
    have hstore : (store (u.vaOf table) i 0).run v = some ((), v.poke table i 0) := by
      rw [← Machine.vaOf_congr (Machine.regs_hhdm hv.regs), store_vaOf (by omega)]
    refine ⟨v.poke table i 0, by rw [Prog.bind_run hrun, hstore], ?_, fun g hg hgt => ?_, fun j hj => ?_,
      fun g hg => ?_, hv.regs.trans h.regs⟩
    · rw [under_succ hc, ← Set.union_assoc]
      refine hv.wf.congr rfl rfl rfl fun g hg => Machine.poke_mem_of_ne ?_
      rintro rfl
      rcases hg with (hg | hg) | hg
      · exact (hD g htable).1 hg
      · exact hout hg
      · exact htc hg
    · rw [under_succ hc] at hg
      rw [Machine.poke_mem_of_ne hgt, (hv.other g fun hg' => hg (Or.inr hg')).1]
      exact h.other g (fun hg' => hg (Or.inl hg')) hgt
    · have hji : j ≠ i := by omega
      rw [← h.row j (by omega), ← (hv.other table htc).1]
      simp [Machine.poke, hji]
    · rw [under_succ hc] at hg
      exact (hv.other g fun hg' => hg (Or.inr hg')).2.trans (h.owner g fun hg' => hg (Or.inl hg'))
  · rw [if_neg hp]
    have hunder : under s d table (i + 1) = under s d table i := under_skip (Machine.edge_none.mpr fun _ => hp)
    exact ⟨u, rfl, by rw [hunder]; exact h.wf, by rw [hunder]; exact h.other, fun j hj => h.row j (by omega),
      by rw [hunder]; exact h.owner, h.regs⟩

theorem FreeLoop.run {A : Nat → K Unit} {s : Machine} {F D : Set Nat} {p d n table : Nat} (hA : FreesAt d A)
    (hwf : PhysWf s F) (hforest : Forest s D p d n table) (htable : table ∈ D) (hn : n ≤ 512)
    (hD : ∀ g ∈ D, g ∉ F ∧ s.maps g) :
    ∃ t, (Prog.forRange n fun i => freeEntry A (s.vaOf table) i).run s = some ((), t) ∧ FreeLoop s F d table n t :=
  Prog.forRange_total (FreeLoop s F d table) (fun _ hi _ h => h.step hA hforest htable hi hn hD)
    (FreeLoop.start hwf d table)

theorem within_succ_eq {s : Machine} {d table : Nat} :
    within s.edge (d + 1) table = insert table (under s d table 512) := by
  ext g
  rw [mem_within_succ, Set.mem_insert_iff]
  refine or_congr_right ⟨?_, ?_⟩
  · rintro ⟨i, c, hc, hg⟩
    exact ⟨i, c, (Machine.edge_some.mp hc).1, hc, hg⟩
  · rintro ⟨i, c, -, hc, hg⟩
    exact ⟨i, c, hc, hg⟩

theorem FreeLoop.free_table {s u : Machine} {F D : Set Nat} {d n table : Nat} (h : FreeLoop s F d table n u)
    (hD : ∀ g ∈ D, g ∉ F ∧ s.maps g) (htable : table ∈ D) (hout : table ∉ under s d table n) :
    (PhysMem.free table).run u = some ((), u.freed table) ∧
      Freed s F (insert table (under s d table n)) (u.freed table) := by
  have hhu := Machine.regs_hhdm h.regs
  have hm : u.maps table := (Machine.maps_congr hhu table).mpr (hD table htable).2
  refine ⟨free_run h.wf.hhdm hm, ?_, fun g hg => ?_, h.regs⟩
  · rw [Set.union_insert]
    exact h.wf.freed (fun hg => hg.elim (hD table htable).1 hout) hm
  · rw [Set.mem_insert_iff, not_or] at hg
    exact ⟨(Machine.poke_mem_of_ne hg.1).trans (h.other g hg.2 hg.1), (if_neg hg.1).trans (h.owner g hg.2)⟩

theorem freeChild_frees (d : Nat) : FreesAt d (freeChild d) := by
  induction d with
  | zero => exact free_frees
  | succ d ih =>
    intro s F D p c hwf htree hD
    obtain ⟨hc, hforest⟩ := ownTree_succ.mp htree
    obtain ⟨u, hrun, h⟩ := FreeLoop.run ih hwf hforest hc le_rfl hD
    have hout : c ∉ under s d c 512 := by
      rintro ⟨j, m, hj, hm, hg⟩
      exact ((hforest.trees j m (by omega) hm).inside hg).2 rfl
    obtain ⟨hfree, hspec⟩ := h.free_table hD hc hout
    refine ⟨u.freed c, ?_, by rw [within_succ_eq]; exact hspec⟩
    show (freeTableSubtree d c >>= fun _ => PhysMem.free c).run s = _
    rw [freeTableSubtree_eq, bind_assoc, Prog.bind_run (VA.ofPPN_run hwf.hhdm (hD c hc).2), Prog.bind_run hrun,
      hfree]

end Kernel
