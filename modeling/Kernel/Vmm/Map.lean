import Kernel.Vmm.Clone
import Kernel.Vmm.Space

/-!
# `map` adds a page to a tree

On its way down `map` takes a frame for every table that is not there, and does
not clear it. The tree grows by that frame alone when the frame has no present
word.
-/

namespace Kernel

open Lib

/-- The flags of `map` for a table. -/
def tableFlags : Word := presentBit ||| writableBit ||| userBit

theorem present_tableFlags : present tableFlags := by decide

theorem tableFlags_masked : tableFlags &&& addressMask = 0 := by decide

/-- Each frame that `map` takes for a table, from the table of `level` down, has no present word. -/
def mapClean (vpn : Nat) : Nat → Nat → Machine → Prop
  | 0, _, _ => True
  | level + 1, table, s =>
    let i := vpnIndex vpn (level + 1)
    if present (s.mem table i) then mapClean vpn level (entryPpn (s.mem table i)) s
    else ∀ child u, PhysMem.alloc.run s = some (child, u) →
      (∀ j, j < 512 → ¬ present (u.mem child j)) ∧
        mapClean vpn level child (u.poke table i (mkEntry child tableFlags))

/-! ## One step down -/

section

variable {s : Machine} {vpn f level table : Nat} {user write : Bool}

theorem mapAt_zero (hh : HhdmOk s) (hm : s.maps table) :
    (mapAt vpn f user write 0 table).run s =
      some ((), s.poke table (vpnIndex vpn 0) (mkEntry f (leafFlags user write))) := by
  rw [mapAt, Prog.bind_run (VA.ofPPN_run hh hm), store_vaOf (vpnIndex_lt vpn 0)]

theorem mapAt_present (hh : HhdmOk s) (hm : s.maps table) (hp : present (s.mem table (vpnIndex vpn (level + 1)))) :
    (mapAt vpn f user write (level + 1) table).run s =
      (mapAt vpn f user write level (entryPpn (s.mem table (vpnIndex vpn (level + 1))))).run s := by
  rw [mapAt, Prog.bind_run (VA.ofPPN_run hh hm), Prog.bind_run (load_vaOf (vpnIndex_lt vpn _)), if_pos hp]

theorem mapAt_absent {u : Machine} {child : Nat} (hh : HhdmOk s) (hm : s.maps table)
    (hp : ¬ present (s.mem table (vpnIndex vpn (level + 1)))) (halloc : PhysMem.alloc.run s = some (child, u))
    (hu : u.hhdm_offset = s.hhdm_offset) (hc : child < 2 ^ 40) :
    (mapAt vpn f user write (level + 1) table).run s =
      (mapAt vpn f user write level child).run (u.poke table (vpnIndex vpn (level + 1))
        (mkEntry child tableFlags)) := by
  have hi := vpnIndex_lt vpn (level + 1)
  have hva : s.vaOf table = u.vaOf table := (Machine.vaOf_congr hu table).symm
  let v := u.poke table (vpnIndex vpn (level + 1)) (mkEntry child tableFlags)
  have hload : (load (u.vaOf table) (vpnIndex vpn (level + 1))).run v = some (mkEntry child tableFlags, v) := by
    have h : v.mem table (vpnIndex vpn (level + 1)) = mkEntry child tableFlags := by simp [v, Machine.poke]
    rw [← h]
    exact load_vaOf (s := v) hi
  rw [mapAt, Prog.bind_run (VA.ofPPN_run hh hm), Prog.bind_run (load_vaOf hi), if_neg hp, Prog.bind_run halloc, hva]
  refine (Prog.bind_run (store_vaOf hi)).trans ((Prog.bind_run hload).trans ?_)
  rw [entryPpn_mkEntry hc tableFlags_masked]

/-- Frame `child` is the table below entry `i` now, and it has no present word. -/
structure TableAdded (s : Machine) (F : Set Nat) (table i child : Nat) (v : Machine) : Prop where
  mem_free : child ∈ F
  small : child < 2 ^ 40
  wf : PhysWf v (F \ {child})
  entry : v.mem table i = mkEntry child tableFlags
  row : ∀ j, j ≠ i → v.mem table j = s.mem table j
  blank : ∀ j, j < 512 → ¬ present (v.mem child j)
  other : ∀ g, g ≠ table → g ≠ child → v.mem g = s.mem g
  regs : v.regs = s.regs
  owner : v.owner = s.owner

theorem TableAdded.owned {F : Set Nat} {i child : Nat} {v : Machine} (ha : TableAdded s F table i child v)
    (hwf : PhysWf s F) : ∀ g ∈ ({child} : Set Nat), g ∉ F \ {child} ∧ v.maps g := by
  rintro g rfl
  exact ⟨fun hg => hg.2 rfl, (Machine.maps_congr (Machine.regs_hhdm ha.regs) g).mpr (hwf.maps ha.mem_free)⟩

theorem mapAt_below (f : Nat) (user write : Bool) {u : Machine} {F : Set Nat} {child : Nat} (hwf : PhysWf s F)
    (ht : table ∉ F) (hm : s.maps table)
    (hp : ¬ present (s.mem table (vpnIndex vpn (level + 1)))) (hclean : mapClean vpn (level + 1) table s)
    (halloc : PhysMem.alloc.run s = some (child, u)) :
    ∃ v, TableAdded s F table (vpnIndex vpn (level + 1)) child v ∧ mapClean vpn level child v ∧
      (mapAt vpn f user write (level + 1) table).run s = (mapAt vpn f user write level child).run v := by
  have ha := alloc_spec hwf halloc
  rw [mapClean, if_neg hp] at hclean
  obtain ⟨hblank, hclean⟩ := hclean child u halloc
  have hc40 : child < 2 ^ 40 := by
    have := Machine.maps_lt hwf.hhdm (hwf.maps ha.mem_free)
    omega
  have hne : child ≠ table := fun h => ht (h ▸ ha.mem_free)
  refine ⟨u.poke table (vpnIndex vpn (level + 1)) (mkEntry child tableFlags), ⟨ha.mem_free, hc40, ?_, ?_,
    fun j hj => ?_, fun j hj => ?_, fun g hgt hgc => ?_, ha.regs, ha.owner⟩, hclean,
    mapAt_absent hwf.hhdm hm hp halloc (Machine.regs_hhdm ha.regs) hc40⟩
  · refine ha.wf.congr rfl rfl rfl fun g hg => Machine.poke_mem_of_ne ?_
    rintro rfl
    exact ht hg.1
  · simp [Machine.poke]
  · rw [← ha.other table hne.symm]
    simp [Machine.poke, hj]
  · rw [Machine.poke_mem_of_ne hne]
    exact hblank j hj
  · rw [Machine.poke_mem_of_ne hgt, ha.other g hgc]

theorem mapAt_adds {t : Machine} {F : Set Nat} {x : Unit} (hwf : PhysWf s F) (ht : table ∉ F) (hm : s.maps table)
    (hp : ¬ present (s.mem table (vpnIndex vpn (level + 1)))) (hclean : mapClean vpn (level + 1) table s)
    (hrun : (mapAt vpn f user write (level + 1) table).run s = some (x, t)) :
    ∃ child v, TableAdded s F table (vpnIndex vpn (level + 1)) child v ∧ mapClean vpn level child v ∧
      (mapAt vpn f user write level child).run v = some (x, t) := by
  have hrun' := hrun
  rw [mapAt, Prog.bind_run (VA.ofPPN_run hwf.hhdm hm), Prog.bind_run (load_vaOf (vpnIndex_lt vpn (level + 1))),
    if_neg hp, Prog.run_bind] at hrun'
  obtain ⟨child, u, halloc, -⟩ := hrun'
  obtain ⟨v, ha, hclean, heq⟩ := mapAt_below f user write hwf ht hm hp hclean halloc
  exact ⟨child, v, ha, hclean, heq ▸ hrun⟩

end

/-! ## The tree after `map` -/

/-- The page is in the tree, in frames of `D` and some that were free; `F'` is still free. -/
structure Mapped (s : Machine) (F D : Set Nat) (p level n table f : Nat) (t : Machine) (F' : Set Nat) : Prop where
  sub : F' ⊆ F
  wf : PhysWf t F'
  forest : Forest t (D ∪ F \ F' ∪ {f}) p level n table
  other : ∀ g, g ∉ D ∪ F \ F' → t.mem g = s.mem g
  regs : t.regs = s.regs
  owner : t.owner = s.owner

theorem Forest.blank {t : Machine} {D : Set Nat} {p d n table : Nat}
    (h : ∀ i, i < n → ¬ present (t.mem table i)) : Forest t D p d n table := by
  have hnone : ∀ i c, i < n → t.edge table i ≠ some c := by
    intro i c hi hc
    exact h i hi (Machine.edge_some.mp hc).2.1
  exact ⟨fun i c hi hc => absurd hc (hnone i c hi), fun i _ c _ hi _ _ hc => absurd hc (hnone i c hi)⟩

theorem Forest.grow {s t : Machine} {F F' D E : Set Nat} {p level n table k f : Nat}
    (h : Forest s D p level n table) (hE : E ⊆ D ∪ F \ F' ∪ {f}) (htE : table ∉ E)
    (hrow : ∀ i, i ≠ k → t.mem table i = s.mem table i)
    (haway : ∀ i c, i < n → i ≠ k → s.edge table i = some c → ∀ g ∈ within s.edge level c, g ∉ E)
    (hmem : ∀ g ∈ D, g ∉ E → g ≠ table → t.mem g = s.mem g) (hown : t.owner = s.owner)
    (hnew : ∀ c, t.edge table k = some c → OwnTree t E p level c) :
    Forest t (D ∪ F \ F' ∪ {f}) p level n table := by
  refine h.update (k := k) (fun i _ hik => ?_) (fun i c hi hik hc g hg => ?_) hnew htE hE
  · rw [Machine.edge, Machine.edge, hrow i hik]
  · obtain ⟨hgD, hgt⟩ := (h.trees i c hi hc).inside hg
    have hgE := haway i c hi hik hc g hg
    exact ⟨hmem g hgD hgE hgt, congrFun hown g, Or.inl (Or.inl hgD), hgE⟩

section

variable {s t v : Machine} {F F' D : Set Nat} {p level n table f i c child : Nat}

theorem Mapped.page (hwf : PhysWf s F) (hforest : Forest s D p 0 n table) (htable : table ∈ D) (hDF : ∀ g ∈ D, g ∉ F)
    (hfD : f ∉ D) (hf40 : f < 2 ^ 40) (hown : s.owner f = some p) (hi : i < 512) (user write : Bool) :
    Mapped s F D p 0 n table f (s.poke table i (mkEntry f (leafFlags user write))) F := by
  have hkeep : ∀ g, g ≠ table → (s.poke table i (mkEntry f (leafFlags user write))).mem g = s.mem g :=
    fun g hg => Machine.poke_mem_of_ne hg
  have htf : table ≠ f := fun h => hfD (h ▸ htable)
  refine ⟨subset_rfl, hwf.congr rfl rfl rfl fun g hg => hkeep g ?_, ?_, fun g hg => hkeep g ?_, rfl, rfl⟩
  · rintro rfl
    exact hDF g htable hg
  · refine hforest.grow (k := i) (E := {f}) (fun g hg => Or.inr hg) htf
      (fun j hj => by simp [Machine.poke, hj]) ?_ (fun g _ _ hg => hkeep g hg) rfl fun c hc => ?_
    · rintro j c hj hji hc g hg rfl
      exact hfD ((hforest.trees j c hj hc).inside hg).1
    · have hedge : (s.poke table i (mkEntry f (leafFlags user write))).edge table i = some f :=
        edge_mkEntry hi hf40 (present_leafFlags user write) (leafFlags_masked user write) (by simp [Machine.poke])
      obtain rfl : f = c := Option.some.inj (hedge.symm.trans hc)
      exact ownTree_zero.mpr ⟨rfl, hown⟩
  · rintro rfl
    exact hg (Or.inl htable)

theorem Mapped.below (hforest : Forest s D p (level + 1) n table) (htable : table ∈ D) (hDF : ∀ g ∈ D, g ∉ F)
    (hfD : f ∉ D) (hi : i < n) (hedge : s.edge table i = some c)
    (h : Mapped s F (within s.edge (level + 1) c) p level 512 c f t F') : Mapped s F D p (level + 1) n table
        f t F' := by
  have hsub := (hforest.trees _ _ hi hedge).inside
  have htE : table ∉ within s.edge (level + 1) c ∪ F \ F' ∪ {f} := by
    rintro ((hg | hg) | hg)
    · exact (hsub hg).2 rfl
    · exact hDF table htable hg.1
    · exact hfD (hg ▸ htable)
  have hrow : t.mem table = s.mem table := h.other table fun hg => htE (Or.inl hg)
  refine ⟨h.sub, h.wf, ?_, fun g hg => h.other g fun hg' => hg (hg'.imp (fun h => (hsub h).1) id), h.regs, h.owner⟩
  refine hforest.grow (k := i) (E := within s.edge (level + 1) c ∪ F \ F' ∪ {f}) ?_ htE
    (fun j _ => congrFun hrow j) ?_ (fun g _ hg _ => h.other g fun hg' => hg (Or.inl hg')) h.owner fun m hm => ?_
  · exact Set.union_subset_union_left _ (Set.union_subset_union_left _ fun g hg => (hsub hg).1)
  · rintro j m hj hji hm g hg ((hg' | hg') | hg')
    · exact Set.disjoint_left.mp (hforest.apart j i m c hj hi hji hm hedge) hg hg'
    · exact hDF g ((hforest.trees j m hj hm).inside hg).1 hg'.1
    · exact hfD (hg' ▸ ((hforest.trees j m hj hm).inside hg).1)
  · rw [Machine.edge_congr hrow, hedge, Option.some.injEq] at hm
    subst hm
    exact ownTree_succ.mpr ⟨Or.inl (Or.inl (self_mem_within _ c)), h.forest⟩

theorem taken_eq (hchild : child ∈ F) (hsub : F' ⊆ F \ {child}) : {child} ∪ (F \ {child}) \ F' = F \ F' := by
  rw [← Set.sdiff_union_sdiff_cancel Set.sdiff_subset hsub,
    Set.sdiff_sdiff_cancel_left (Set.singleton_subset_iff.mpr hchild)]

theorem Mapped.added (hforest : Forest s D p (level + 1) n table) (htable : table ∈ D) (hDF : ∀ g ∈ D, g ∉ F)
    (hfD : f ∉ D) (hi : i < 512) (ha : TableAdded s F table i child v)
    (h : Mapped v (F \ {child}) {child} p level 512 child f t F') : Mapped s F D p (level + 1) n table f t F' := by
  have hother := h.other
  have hnew := h.forest
  rw [taken_eq ha.mem_free h.sub] at hother hnew
  have hchild : child ∈ F \ F' := ⟨ha.mem_free, fun hg => (h.sub hg).2 rfl⟩
  have hout : table ∉ F \ F' := fun hg => hDF table htable hg.1
  have htE : table ∉ F \ F' ∪ {f} := by
    rintro (hg | hg)
    · exact hout hg
    · exact hfD (hg ▸ htable)
  refine ⟨fun g hg => (h.sub hg).1, h.wf, ?_, fun g hg => ?_, h.regs.trans ha.regs, h.owner.trans ha.owner⟩
  · refine hforest.grow (k := i) (E := F \ F' ∪ {f}) ?_ htE
      (fun j hj => by rw [hother table hout]; exact ha.row j hj) ?_ (fun g hgD hgE hgt => ?_)
      (h.owner.trans ha.owner) fun c hc => ?_
    · rw [Set.union_assoc]
      exact Set.subset_union_right
    · rintro j m hj hji hm g hg (hg' | hg')
      · exact hDF g ((hforest.trees j m hj hm).inside hg).1 hg'.1
      · exact hfD (hg' ▸ ((hforest.trees j m hj hm).inside hg).1)
    · rw [hother g fun hg' => hgE (Or.inl hg'), ha.other g hgt]
      rintro rfl
      exact hDF g hgD ha.mem_free
    · have hentry : t.mem table i = mkEntry child tableFlags := by
        rw [hother table hout]
        exact ha.entry
      have hedge := edge_mkEntry hi ha.small present_tableFlags tableFlags_masked hentry
      obtain rfl : child = c := Option.some.inj (hedge.symm.trans hc)
      exact ownTree_succ.mpr ⟨Or.inl hchild, hnew⟩
  · have hgt : g ≠ table := fun h => hg (Or.inl (h ▸ htable))
    have hgn : g ∉ F \ F' := fun h => hg (Or.inr h)
    rw [hother g hgn, ha.other g hgt]
    rintro rfl
    exact hgn hchild

end

theorem mapAt_spec {vpn f p level : Nat} {user write : Bool} :
    ∀ {s t : Machine} {F D : Set Nat} {n table : Nat}, PhysWf s F → Forest s D p level n table → table ∈ D →
      vpnIndex vpn level < n → (∀ g ∈ D, g ∉ F ∧ s.maps g) → f ∉ F → f ∉ D → f < 2 ^ 40 → s.owner f = some p →
      mapClean vpn level table s → (mapAt vpn f user write level table).run s = some ((), t) →
      ∃ F', Mapped s F D p level n table f t F' := by
  induction level with
  | zero =>
    intro s t F D n table hwf hforest htable hi hD hfF hfD hf40 hown _ hrun
    rw [mapAt_zero hwf.hhdm (hD table htable).2, Option.some.injEq, Prod.mk.injEq] at hrun
    obtain ⟨-, rfl⟩ := hrun
    exact ⟨F, Mapped.page hwf hforest htable (fun g hg => (hD g hg).1) hfD hf40 hown (vpnIndex_lt vpn 0) user write⟩
  | succ level ih =>
    intro s t F D n table hwf hforest htable hi hD hfF hfD hf40 hown hclean hrun
    have hm := (hD table htable).2
    have hDF : ∀ g ∈ D, g ∉ F := fun g hg => (hD g hg).1
    by_cases hp : present (s.mem table (vpnIndex vpn (level + 1)))
    · -- The table below is there: everything happens in its tree.
      have hedge := edge_of_present (vpnIndex_lt vpn _) hp
      rw [mapAt_present hwf.hhdm hm hp] at hrun
      rw [mapClean, if_pos hp] at hclean
      have hsub := (hforest.trees _ _ hi hedge).inside
      have htree := hforest.child hi hedge
      obtain ⟨F', h⟩ := ih hwf (ownTree_succ.mp htree).2 (self_mem_within _ _) (vpnIndex_lt vpn level)
        (fun g hg => hD g (hsub hg).1) hfF (fun hg => hfD (hsub hg).1) hf40 hown hclean hrun
      exact ⟨F', h.below hforest htable hDF hfD hi hedge⟩
    · -- A free frame becomes the table below, and it is blank.
      obtain ⟨child, v, ha, hclean, hrun⟩ := mapAt_adds hwf (hDF table htable) hm hp hclean hrun
      have hfc : f ≠ child := fun h => hfF (h ▸ ha.mem_free)
      obtain ⟨F', h⟩ := ih (D := {child}) ha.wf (Forest.blank ha.blank) rfl (vpnIndex_lt vpn level) (ha.owned hwf)
        (fun hg => hfF hg.1) hfc hf40 (by rw [ha.owner]; exact hown) hclean hrun
      exact ⟨F', h.added hforest htable hDF hfD (vpnIndex_lt vpn (level + 1)) ha⟩

/-! ## With enough free frames `map` does not panic -/

/-- The number of tables that `map` has to add, from the table of `level` down. -/
def tablesMissing (s : Machine) (vpn : Nat) : Nat → Nat → Nat
  | 0, _ => 0
  | level + 1, table =>
    let entry := s.mem table (vpnIndex vpn (level + 1))
    if present entry then tablesMissing s vpn level (entryPpn entry) else level + 1

theorem tablesMissing_le (s : Machine) (vpn level table : Nat) : tablesMissing s vpn level table ≤ level := by
  induction level generalizing table with
  | zero => exact le_rfl
  | succ level ih =>
    unfold tablesMissing
    dsimp only
    split_ifs
    · have := ih (entryPpn (s.mem table (vpnIndex vpn (level + 1))))
      omega
    · exact le_rfl

theorem tables_of_walk {s : Machine} {vpn level table last : Nat}
    (hw : walk s.edge table (tablePath vpn level) = some last) :
    mapClean vpn level table s ∧ tablesMissing s vpn level table = 0 := by
  induction level generalizing table with
  | zero => exact ⟨trivial, rfl⟩
  | succ level ih =>
    obtain ⟨c, hedge, hw⟩ := walk_cons_eq_some.mp hw
    obtain ⟨-, hp, rfl⟩ := Machine.edge_some.mp hedge
    rw [mapClean, tablesMissing, if_pos hp, if_pos hp]
    exact ih hw

theorem mapAt_returns (f : Nat) (user write : Bool) {vpn p level : Nat} :
    ∀ {s : Machine} {F D : Set Nat} {n table : Nat}, PhysWf s F → Forest s D p level n table → table ∈ D →
      vpnIndex vpn level < n → (∀ g ∈ D, g ∉ F ∧ s.maps g) → mapClean vpn level table s →
      tablesMissing s vpn level table ≤ F.ncard → ∃ t, (mapAt vpn f user write level table).run s = some ((), t) := by
  induction level with
  | zero =>
    intro s F D n table hwf _ htable _ hD _ _
    exact ⟨_, mapAt_zero hwf.hhdm (hD table htable).2⟩
  | succ level ih =>
    intro s F D n table hwf hforest htable hi hD hclean hsize
    have hm := (hD table htable).2
    unfold tablesMissing at hsize
    dsimp only at hsize
    by_cases hp : present (s.mem table (vpnIndex vpn (level + 1)))
    · have hedge := edge_of_present (vpnIndex_lt vpn _) hp
      have hsub := (hforest.trees _ _ hi hedge).inside
      rw [if_pos hp] at hsize
      rw [mapClean, if_pos hp] at hclean
      rw [mapAt_present hwf.hhdm hm hp]
      exact ih hwf (ownTree_succ.mp (hforest.child hi hedge)).2 (self_mem_within _ _) (vpnIndex_lt vpn level)
        (fun g hg => hD g (hsub hg).1) hclean hsize
    · rw [if_neg hp] at hsize
      obtain ⟨child, u, halloc⟩ := alloc_returns hwf (Set.nonempty_of_ncard_ne_zero (by omega))
      obtain ⟨v, ha, hclean, heq⟩ := mapAt_below f user write hwf (hD table htable).1 hm hp
        hclean halloc
      have hcard := Set.ncard_sdiff_singleton_add_one ha.mem_free (hwf.finite)
      have hle := tablesMissing_le v vpn level child
      rw [heq]
      exact ih (n := 512) ha.wf (Forest.blank (D := {child}) (p := p) ha.blank) rfl (vpnIndex_lt vpn level)
        (ha.owned hwf) hclean (by omega)

end Kernel
