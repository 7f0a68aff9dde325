import Mathlib.Order.Interval.Finset.Nat
import Kernel.Vmm.Clone
import Kernel.Vmm.Space

/-!
# `snapshot_for_fork` copies an address space and separates it

The loop over the lower half of the root is the loop of `cloneTableSubtree`, cut
after 256 entries. The upper half is shared.
-/

namespace Kernel

open Lib

/-! ## Walking a copy -/

theorem CopyOf.walk {s t : Machine} {d src dst : Nat} {π : List Nat} (h : CopyOf s t (d + π.length) src dst) :
    (∀ m, walk s.edge src π = some m → ∃ m', walk t.edge dst π = some m' ∧ CopyOf s t d m m') ∧
      (walk s.edge src π = none → walk t.edge dst π = none) := by
  induction π generalizing src dst with
  | nil =>
    refine ⟨fun m hm => ⟨dst, rfl, ?_⟩, fun hn => absurd hn (by simp)⟩
    rw [← Option.some.inj hm]
    exact h
  | cons i π ih =>
    by_cases hi : i < 512
    · by_cases hp : present (s.mem src i)
      · obtain ⟨c, hc, hentry, hcopy⟩ := (h i hi).1 hp
        have hedge := edge_mkEntry hi hc ((present_flags _).mpr hp) (flags_masked _) hentry
        rw [walk_cons, walk_cons, edge_of_present hi hp, hedge]
        exact ih hcopy
      · rw [walk_cons_none (Machine.edge_none.mpr fun _ => hp), walk_cons_none (edge_zero ((h i hi).2 hp))]
        exact ⟨fun m hm => absurd hm (by simp), fun _ => rfl⟩
    · rw [walk_cons_none (Machine.edge_none.mpr fun h => absurd h hi),
        walk_cons_none (Machine.edge_none.mpr fun h => absurd h hi)]
      exact ⟨fun m hm => absurd hm (by simp), fun _ => rfl⟩

/-! ## The upper half -/

/-- Words 256 to 511 of `dst` become those of `src`. -/
def Machine.copyUpper (s : Machine) (dst src : Nat) : Machine :=
  { s with mem := fun g j => if g = dst ∧ 256 ≤ j ∧ j < 512 then s.mem src j else s.mem g j }

theorem copyUpper_run {s : Machine} {dst src p q : Nat} (hp : p = s.vaOf dst) (hq : q = s.vaOf src) :
    (Prog.forRange 256 fun k => do
      let entry ← load q (256 + k)
      store p (256 + k) entry : K Unit).run s = some ((), s.copyUpper dst src) := by
  let st (i : Nat) : Machine :=
    { s with mem := fun g j => if g = dst ∧ 256 ≤ j ∧ j < 256 + i then s.mem src j else s.mem g j }
  have h0 : st 0 = s := by
    have hmem : (st 0).mem = s.mem := by
      funext g j
      exact if_neg (by omega)
    exact congrArg (fun m => { s with mem := m }) hmem
  have hstep : ∀ i, i < 256 → (do
      let entry ← load q (256 + i)
      store p (256 + i) entry : K Unit).run (st i) = some ((), st (i + 1)) := by
    intro i hi
    have hload : (load q (256 + i)).run (st i) = some ((st i).mem src (256 + i), st i) := by
      rw [hq]; exact load_vaOf (s := st i) (by omega)
    have hstore : ∀ w, (store p (256 + i) w).run (st i) = some ((), (st i).poke dst (256 + i) w) := by
      intro w; rw [hp]; exact store_vaOf (s := st i) (by omega)
    rw [Prog.bind_run hload, hstore]
    simp only [Machine.poke, st, Option.some.injEq, Prod.mk.injEq, true_and, Machine.mk.injEq, and_true]
    funext g j
    split_ifs <;> grind
  have := Prog.forRange_trace st hstep
  rwa [h0] at this

theorem copyUpper_other {s : Machine} {dst src g : Nat} (h : g ≠ dst) :
    (s.copyUpper dst src).mem g = s.mem g := by
  funext j
  simp [Machine.copyUpper, h]

theorem copyUpper_lower {s : Machine} {dst src g j : Nat} (h : j < 256) :
    (s.copyUpper dst src).mem g j = s.mem g j := by
  simp only [Machine.copyUpper]
  rw [if_neg (by omega)]

theorem copyUpper_upper {s : Machine} {dst src j : Nat} (h : 256 ≤ j) (hj : j < 512) :
    (s.copyUpper dst src).mem dst j = s.mem src j := by
  simp [Machine.copyUpper, h, hj]

/-! ## The private VME list -/

/-- What a VME says, without the node it lives in. -/
def VME.area (v : VME) : Nat × Nat × Bool × Nat × Nat := (v.start, v.end, v.shared, v.node, v.offset)

/-- `l'` has the areas of `l` in new nodes. -/
structure VmesCloned (s : Machine) (l l' : List VME) (t : Machine) : Prop where
  areas : l'.map VME.area = l.map VME.area
  nodup : (l'.map VME.addr).Nodup
  fresh : ∀ v ∈ l', v.addr ∉ s.vmeLive
  state : t = { s with vmeLive := (l'.map VME.addr).reverse ++ s.vmeLive }

theorem cloneVmes_run {s : Machine} (l : List VME) (hnew : ∀ live, s.newVme live ∉ live) :
    ∃ l' t, (cloneVmes l).run s = some (l', t) ∧ VmesCloned s l l' t := by
  induction l generalizing s with
  | nil => exact ⟨[], s, rfl, rfl, List.nodup_nil, by simp, rfl⟩
  | cons cur l ih =>
    let u : Machine := { s with vmeLive := s.newVme s.vmeLive :: s.vmeLive }
    have haddr : newVME.run s = some (s.newVme s.vmeLive, u) := rfl
    obtain ⟨rest, t, hrest, hc⟩ := ih (s := u) hnew
    refine ⟨⟨s.newVme s.vmeLive, cur.start, cur.end, cur.shared, cur.node, cur.offset⟩ :: rest, t, ?_, ?_, ?_, ?_, ?_⟩
    · rw [cloneVmes, Prog.bind_run haddr, Prog.bind_run hrest]
      rfl
    · rw [List.map_cons, List.map_cons, hc.areas]
      rfl
    · rw [List.map_cons, List.nodup_cons]
      refine ⟨fun hin => ?_, hc.nodup⟩
      obtain ⟨v, hv, hva⟩ := List.mem_map.mp hin
      exact hc.fresh v hv (by rw [hva]; exact List.mem_cons_self)
    · intro v hv
      rcases List.mem_cons.mp hv with rfl | hv
      · exact hnew s.vmeLive
      · exact fun hin => hc.fresh v hv (List.mem_cons_of_mem _ hin)
    · rw [hc.state]
      simp [u]

/-! ## The root -/

/-- The lower half of `child` is a copy of that of `parent`, made in frames of `F`; `G` is still free. -/
structure RootCopy (s : Machine) (F : Set Nat) (parent child : Nat) (t : Machine) (G : Set Nat) : Prop where
  child_free : child ∈ F
  sub : G ⊆ F \ {child}
  wf : PhysWf t G
  other : ∀ g, g ∉ F \ G → t.mem g = s.mem g
  owner : ∀ g, g ∉ F \ G → t.owner g = s.owner g
  blank : ∀ i, i < 256 → ¬ present (s.mem parent i) → t.mem child i = 0
  copied : ∀ i, i < 256 → present (s.mem parent i) → ∃ c, c < 2 ^ 40 ∧
    t.mem child i = mkEntry c (s.mem parent i &&& ~~~addressMask) ∧ CopyOf s t 3 (entryPpn (s.mem parent i)) c
  upper : ∀ i, 256 ≤ i → i < 512 → t.mem child i = s.mem parent i
  forest : Forest t (F \ G) s.acting 3 256 child

/-- The frames under the lower half of the root are in use and direct-mapped. -/
def LowerSource (s : Machine) (F : Set Nat) (root : Nat) : Prop :=
  ∀ g ∈ s.lowerTables root ∪ s.lowerPages root, g ∉ F ∧ s.maps g

theorem LowerSource.root {s : Machine} {F : Set Nat} {root : Nat} (h : LowerSource s F root) :
    root ∉ F ∧ s.maps root :=
  h root (Or.inl ⟨[], by simp [LowerPath, StartsBelow], by simp, rfl⟩)

theorem LowerSource.child {s : Machine} {F : Set Nat} {root i c : Nat} (h : LowerSource s F root) (hi : i < 256)
    (hc : s.edge root i = some c) : Source s F 3 c := by
  rintro g ⟨π, hπ, hw⟩
  have hw' := (walk_cons_some hc).mpr hw
  rcases Nat.lt_or_eq_of_le hπ with hlt | heq
  · exact h g (Or.inl ⟨i :: π, startsBelow_cons.mpr hi, by simpa using hlt, hw'⟩)
  · exact h g (Or.inr ⟨i :: π, startsBelow_cons.mpr hi, by simp [heq], hw'⟩)

theorem CloneLoop.rootCopy {s v w : Machine} {F G : Set Nat} {parent child : Nat} {live : List Nat}
    (h : CloneLoop s F 3 parent child 256 v G) (hchild : child ∈ F) (hparent : parent ∉ F)
    (hw : w = { v.copyUpper child parent with vmeLive := live }) : RootCopy s F parent child w G := by
  have hne : ∀ g, g ≠ child → w.mem g = v.mem g := by
    intro g hg
    rw [hw]
    exact copyUpper_other hg
  have hlower : ∀ i, i < 256 → w.mem child i = v.mem child i := by
    intro i hi
    rw [hw]
    exact copyUpper_lower hi
  have hchildG : child ∉ G := fun hg => (h.sub hg).2 rfl
  have hout : ∀ g, g ∉ F \ G → g ≠ child := by
    rintro g hg rfl
    exact hg ⟨hchild, hchildG⟩
  have hvparent : v.mem parent = s.mem parent := h.other parent fun hg => hparent hg.1
  exact {
    child_free := hchild
    sub := h.sub
    wf := h.wf.congr (by rw [hw]; rfl) (by rw [hw]; rfl) (by rw [hw]; rfl) fun g hg => hne g fun e => hchildG (e ▸ hg)
    other := fun g hg => by rw [hne g (hout g hg), h.other g hg]
    owner := fun g hg => by rw [hw]; exact h.owner g hg
    blank := fun i hi hp => by rw [hlower i hi]; exact h.blank i (by omega) (Or.inr hp)
    copied := fun i hi hp => by
      obtain ⟨c, hc, hentry, hcopy⟩ := h.copied i hi hp
      have hedge := edge_mkEntry (by omega) hc ((present_flags _).mpr hp) (flags_masked _) hentry
      have hin := (h.forest.trees i c (by omega) hedge).inside
      exact ⟨c, hc, by rw [hlower i hi]; exact hentry, hcopy.congr (fun _ _ => rfl) fun g hg => hne g (hin hg).2⟩
    upper := fun i hi hi' => by
      rw [hw, ← hvparent]
      exact copyUpper_upper hi hi'
    forest := (h.forest.mono subset_rfl (by omega)).congr hlower (fun g _ hg => hne g hg) fun g _ _ => by rw [hw]; rfl }

theorem RootCopy.page {s t : Machine} {F G : Set Nat} {parent child vpn : Nat} (h : RootCopy s F parent child t G)
    (hv : vpn < 2 ^ 35) :
    (s.pageEntry parent vpn = none → t.pageEntry child vpn = none) ∧
      ∀ entry, s.pageEntry parent vpn = some entry → ∃ c, c < 2 ^ 40 ∧
        t.pageEntry child vpn = some (mkEntry c (entry &&& ~~~addressMask)) ∧
        ∀ j, j < 512 → t.mem c j = s.mem (entryPpn entry) j := by
  have hi := vpnIndex_lower hv
  by_cases hp : present (s.mem parent (vpnIndex vpn 3))
  · obtain ⟨c, hc, hentry, hcopy⟩ := h.copied _ hi hp
    have hedge := edge_mkEntry (by omega) hc ((present_flags _).mpr hp) (flags_masked _) hentry
    obtain ⟨hsome, hnone⟩ := CopyOf.walk (d := 1) (π := tablePath vpn 2) hcopy
    have hs : ∀ o, walk s.edge (entryPpn (s.mem parent (vpnIndex vpn 3))) (tablePath vpn 2) = o →
        walk s.edge parent (tablePath vpn 3) = o := by
      rintro o rfl
      rw [tablePath, walk_cons, edge_of_present (by omega) hp, Option.bind_some]
    have ht : ∀ o, walk t.edge c (tablePath vpn 2) = o → walk t.edge child (tablePath vpn 3) = o := by
      rintro o rfl
      rw [tablePath, walk_cons, hedge, Option.bind_some]
    cases hw : walk s.edge (entryPpn (s.mem parent (vpnIndex vpn 3))) (tablePath vpn 2) with
    | none =>
      rw [Machine.pageEntry, Machine.pageEntry, hs none hw, ht none (hnone hw)]
      exact ⟨fun _ => rfl, fun entry he => absurd he (by simp)⟩
    | some m =>
      obtain ⟨m', hw', htable⟩ := hsome m hw
      rw [Machine.pageEntry, Machine.pageEntry, hs _ hw, ht _ hw', Option.bind_some, Option.bind_some]
      by_cases hleaf : present (s.mem m (vpnIndex vpn 0))
      · obtain ⟨f, hf, hfe, hcontent⟩ := (htable _ (vpnIndex_lt vpn 0)).1 hleaf
        have hcopied := (present_mkEntry f _).mpr ((present_flags _).mpr hleaf)
        rw [if_pos hleaf, hfe, if_pos hcopied]
        refine ⟨fun hn => absurd hn (by simp), fun entry he => ?_⟩
        rw [← Option.some.inj he]
        exact ⟨f, hf, rfl, hcontent⟩
      · rw [if_neg hleaf, (htable _ (vpnIndex_lt vpn 0)).2 hleaf, if_neg not_present_zero]
        exact ⟨fun _ => rfl, fun entry he => absurd he (by simp)⟩
  · rw [Machine.pageEntry, Machine.pageEntry, tablePath, walk_cons_none (Machine.edge_none.mpr fun _ => hp),
      walk_cons_none (edge_zero (h.blank _ hi hp))]
    exact ⟨fun _ => rfl, fun entry he => absurd he (by simp)⟩

theorem RootCopy.fresh {s t : Machine} {F G : Set Nat} {parent child : Nat} (h : RootCopy s F parent child t G) :
    t.lowerTables child ∪ t.lowerPages child ⊆ F \ G := by
  have hchild : child ∈ F \ G := ⟨h.child_free, fun hg => (h.sub hg).2 rfl⟩
  rintro g (⟨π, hπ, hlen, hw⟩ | ⟨π, hπ, hlen, hw⟩)
  · exact h.forest.paths_mem hchild hπ (by omega) hw
  · exact h.forest.paths_mem hchild hπ (by omega) hw

theorem RootCopy.parent_tables {s t : Machine} {F G : Set Nat} {parent child : Nat}
    (h : RootCopy s F parent child t G) (hsrc : LowerSource s F parent) :
    ∀ g ∈ s.lowerTables parent, t.mem g = s.mem g :=
  fun g hg => h.other g fun hg' => (hsrc g (Or.inl hg)).1 hg'.1

/-- Each table of the lower half is reached by one path only. -/
def TablesOnce (s : Machine) (root : Nat) : Prop :=
  ∀ π ρ g, LowerPath π → LowerPath ρ → π.length ≤ 3 → ρ.length ≤ 4 →
    walk s.edge root π = some g → walk s.edge root ρ = some g → π = ρ

theorem TablesOnce.disjoint {s : Machine} {root : Nat} (h : TablesOnce s root) :
    Disjoint (s.lowerPages root) (s.lowerTables root) := by
  rw [Set.disjoint_left]
  rintro g ⟨ρ, hρ, hlρ, hwρ⟩ ⟨π, hπ, hlπ, hwπ⟩
  have := congrArg List.length (h π ρ g hπ hρ hlπ (by omega) hwπ hwρ)
  omega

theorem RootCopy.separate {s t : Machine} {F G : Set Nat} {parent child : Nat} (h : RootCopy s F parent child t G)
    (hsrc : LowerSource s F parent) (honce : TablesOnce s parent) : t.Separate parent child := by
  have htables := h.parent_tables hsrc
  have hfresh := h.fresh
  have hdisj : ∀ g, g ∈ s.lowerTables parent ∪ s.lowerPages parent → g ∉ F := fun g hg => (hsrc g hg).1
  have honce' : TablesOnce t child := fun π ρ g hπ hρ hlπ hlρ hw hw' =>
    h.forest.paths_inj hπ hρ (by omega) hlρ hw hw'
  refine ⟨?_, ?_, ?_⟩
  · rw [lowerPages_congr htables, lowerTables_congr htables, Set.disjoint_union_right]
    refine ⟨honce.disjoint, Set.disjoint_left.mpr fun g hg hg' => ?_⟩
    exact hdisj g (Or.inr hg) (hfresh (Or.inl hg')).1
  · rw [lowerTables_congr htables, Set.disjoint_union_right]
    refine ⟨Set.disjoint_left.mpr fun g hg hg' => ?_, honce'.disjoint⟩
    exact hdisj g (Or.inl hg') (hfresh (Or.inr hg)).1
  · rw [lowerPages_congr htables]
    exact Set.disjoint_left.mpr fun g hg hg' => hdisj g (Or.inr hg) (hfresh (Or.inr hg')).1

/-! ## The whole of `snapshot_for_fork` -/

theorem snapshot_parts {s t : Machine} {F : Set Nat} {st : ForkState} (hwf : PhysWf s F)
    (hsrc : LowerSource s F s.root) (hnew : ∀ live, s.newVme live ∉ live)
    (hrun : snapshot_for_fork.run s = some (st, t)) :
    ∃ child G v l, RootCopy s F s.root child t G ∧ v.regs = s.regs ∧ VmesCloned v s.privateVmes l t ∧
      G.ncard + 1 + entriesSize s 3 s.root 256 = F.ncard ∧ st = ⟨PA.ofPPN child, l, s.heapStart, s.heapBreak⟩ := by
  obtain ⟨hnot, hmaps⟩ := hsrc.root
  rw [snapshot_for_fork, Prog.get_bind_run] at hrun
  have hroot : PPN (s.cr3 / FRAME_SIZE) = s.root := rfl
  simp only [hroot] at hrun
  rw [Prog.bind_run (VA.ofPPN_run hwf.hhdm hmaps), Prog.run_bind] at hrun
  obtain ⟨child, u, halloc, hrun⟩ := hrun
  have ha := alloc_spec hwf halloc
  have hhu := Machine.regs_hhdm ha.regs
  have hcm : u.maps child := (Machine.maps_congr hhu child).mpr (hwf.maps ha.mem_free)
  rw [Prog.bind_run (VA.ofPPN_run (hwf.hhdm.congr hhu) hcm), clearTable, Prog.bind_run (zero_loop rfl),
    Prog.run_bind] at hrun
  obtain ⟨x, v, hloop, hrun⟩ := hrun
  rw [Machine.vaOf_congr hhu] at hloop
  obtain ⟨G, h⟩ := (CloneLoop.start hwf ha).run (n := 256) (cloneTableSubtree_clones 2) hwf ha.mem_free (by omega)
    hnot (fun i c hi hc => hsrc.child hi hc) hloop
  have hhv := Machine.regs_hhdm h.regs
  have hupper := copyUpper_run (s := v) (p := u.vaOf child) (q := s.vaOf s.root)
    ((Machine.vaOf_congr hhu child).trans (Machine.vaOf_congr hhv child).symm) (Machine.vaOf_congr hhv s.root).symm
  rw [Prog.bind_run hupper, Prog.run_bind] at hrun
  obtain ⟨l, t', hclone, hrun⟩ := hrun
  have hregs : (v.copyUpper child s.root).regs = s.regs := h.regs
  have hvmes : (v.copyUpper child s.root).privateVmes = s.privateVmes := by
    have := congrArg Machine.privateVmes hregs
    exact this
  obtain ⟨l', w, hl', hc⟩ := cloneVmes_run (s := v.copyUpper child s.root) s.privateVmes (by
    have := congrArg Machine.newVme hregs
    intro live
    rw [show (v.copyUpper child s.root).newVme = s.newVme from this]
    exact hnew live)
  rw [clonePrivateVmes, Prog.get_bind_run, hvmes, hl', Option.some.injEq, Prod.mk.injEq] at hclone
  obtain ⟨rfl, rfl⟩ := hclone
  rw [Prog.get_bind_run, Prog.run_pure] at hrun
  obtain ⟨rfl, rfl⟩ := hrun
  refine ⟨child, G, _, l', h.rootCopy ha.mem_free hnot hc.state, hregs, hc, h.cost, ?_⟩
  have hstart := congrArg Machine.heapStart hregs
  have hbreak := congrArg Machine.heapBreak hregs
  rw [hc.state]
  exact congrArg₂ (ForkState.mk (PA.ofPPN child) l') hstart hbreak

theorem snapshot_returns {s : Machine} {F : Set Nat} (hwf : PhysWf s F) (hsrc : LowerSource s F s.root)
    (hnew : ∀ live, s.newVme live ∉ live) (hsize : 1 + entriesSize s 3 s.root 256 ≤ F.ncard) :
    ∃ st t, snapshot_for_fork.run s = some (st, t) := by
  obtain ⟨hnot, hmaps⟩ := hsrc.root
  have hroot : PPN (s.cr3 / FRAME_SIZE) = s.root := rfl
  obtain ⟨child, u, halloc⟩ := alloc_returns hwf (Set.nonempty_of_ncard_ne_zero (by omega))
  have ha := alloc_spec hwf halloc
  have hhu := Machine.regs_hhdm ha.regs
  have hcm : u.maps child := (Machine.maps_congr hhu child).mpr (hwf.maps ha.mem_free)
  obtain ⟨v, hloop, G, h⟩ := (CloneLoop.start hwf ha).returns (n := 256) (cloneTableSubtree_returns 2)
    (cloneTableSubtree_clones 2) (by omega) hwf ha.mem_free hnot (fun i c hi hc => hsrc.child hi hc) hsize
  rw [← Machine.vaOf_congr hhu child] at hloop
  have hhv := Machine.regs_hhdm h.regs
  have hupper := copyUpper_run (s := v) (p := u.vaOf child) (q := s.vaOf s.root)
    ((Machine.vaOf_congr hhu child).trans (Machine.vaOf_congr hhv child).symm) (Machine.vaOf_congr hhv s.root).symm
  obtain ⟨l, w, hl, _⟩ := cloneVmes_run (s := v.copyUpper child s.root) (v.copyUpper child s.root).privateVmes (by
    have := congrArg Machine.newVme h.regs
    intro live
    rw [show (v.copyUpper child s.root).newVme = s.newVme from this]
    exact hnew live)
  have hclone : clonePrivateVmes.run (v.copyUpper child s.root) = some (l, w) := by
    rw [clonePrivateVmes, Prog.get_bind_run, hl]
  refine ⟨⟨PA.ofPPN child, l, w.heapStart, w.heapBreak⟩, w, ?_⟩
  rw [snapshot_for_fork, Prog.get_bind_run]
  simp only [hroot]
  rw [Prog.bind_run (VA.ofPPN_run hwf.hhdm hmaps), Prog.bind_run halloc,
    Prog.bind_run (VA.ofPPN_run (hwf.hhdm.congr hhu) hcm), clearTable, Prog.bind_run (zero_loop rfl)]
  refine (Prog.bind_run hloop).trans ?_
  rw [Prog.bind_run hupper, Prog.bind_run hclone]
  rfl

/-- What `snapshot_for_fork` leaves, with the child on root `child` and `G` free. -/
structure Forked (s : Machine) (F : Set Nat) (st : ForkState) (t : Machine) (G : Set Nat) (child : Nat) : Prop where
  cr3 : st.cr3 = child * FRAME_SIZE
  wf : PhysWf t G
  sub : G ⊆ F
  /-- Every page of the parent is a page of the child, with the same flags and the same words, and no other is. -/
  page : ∀ vpn < 2 ^ 35, ∀ entry, s.pageEntry s.root vpn = some entry → ∃ entry',
    t.pageEntry child vpn = some entry' ∧ entry' &&& ~~~addressMask = entry &&& ~~~addressMask ∧
      ∀ j < 512, t.mem (entryPpn entry') j = s.mem (entryPpn entry) j
  no_page : ∀ vpn < 2 ^ 35, s.pageEntry s.root vpn = none → t.pageEntry child vpn = none
  /-- The frames of the child are new, all different, and none is a frame of the parent. -/
  fresh : t.lowerTables child ∪ t.lowerPages child ⊆ F \ G
  distinct : ∀ π ρ g, LowerPath π → LowerPath ρ → π.length ≤ 4 → ρ.length ≤ 4 →
    walk t.edge child π = some g → walk t.edge child ρ = some g → π = ρ
  apart : Disjoint (t.lowerTables child ∪ t.lowerPages child) (s.lowerTables s.root ∪ s.lowerPages s.root)
  /-- After any stores by the two, a store by one changes nothing that the other reads. -/
  separate : ∀ u, Relation.ReflTransGen (UserStep {s.root, child}) t u →
    ∀ vpn < 2 ^ 35, ∀ vpn' < 2 ^ 35, ∀ j j' w,
      (u.userStore s.root vpn j w).userLoad child vpn' j' = u.userLoad child vpn' j' ∧
      (u.userStore child vpn j w).userLoad s.root vpn' j' = u.userLoad s.root vpn' j'
  upper : ∀ i, 256 ≤ i → i < 512 → t.mem child i = s.mem s.root i
  /-- A frame that was in use keeps its words, and the parent its root and its lists. -/
  unchanged : ∀ g, g ∉ F → t.mem g = s.mem g
  parent : t.cr3 = s.cr3 ∧ t.privateVmes = s.privateVmes ∧ t.heapStart = s.heapStart ∧ t.heapBreak = s.heapBreak
  vmes : st.private_vmes.map VME.area = s.privateVmes.map VME.area
  vmes_fresh : (st.private_vmes.map VME.addr).Nodup ∧ ∀ v ∈ st.private_vmes, v.addr ∉ s.vmeLive
  heap : st.heap_start = s.heapStart ∧ st.heap_break = s.heapBreak

/-- **Fork.** `snapshot_for_fork` copies the parent's lower half and VMEs and separates the child from the parent. -/
theorem snapshot_for_fork_forks {s t : Machine} {F : Set Nat} {st : ForkState} (hwf : PhysWf s F)
    (hsrc : LowerSource s F s.root) (honce : TablesOnce s s.root) (hnew : ∀ live, s.newVme live ∉ live)
    (hrun : snapshot_for_fork.run s = some (st, t)) : ∃ child G, Forked s F st t G child := by
  obtain ⟨child, G, v, l, h, hregs, hc, -, rfl⟩ := snapshot_parts hwf hsrc hnew hrun
  have hfresh := h.fresh
  have hsep := h.separate hsrc honce
  have hmaps := Machine.maps_lt hwf.hhdm (hwf.maps h.child_free)
  have hkeep : ∀ {α : Type} (φ : Machine → α), (∀ m live, φ { m with vmeLive := live } = φ m) →
      (∀ m, φ m.regs = φ m) → φ t = φ s := by
    intro α φ hφ hregsφ
    rw [hc.state, hφ, ← hregsφ v, hregs, hregsφ]
  refine ⟨child, G, ?_, h.wf, fun g hg => (h.sub hg).1, ?_, fun vpn hv => (h.page hv).1, hfresh, ?_, ?_, ?_,
    h.upper, ?_, ?_, hc.areas, ⟨hc.nodup, ?_⟩, rfl, rfl⟩
  · simp only [PA.ofPPN, FRAME_SIZE]
    omega
  · intro vpn hv entry he
    obtain ⟨c, hc, hentry, hcontent⟩ := (h.page hv).2 entry he
    refine ⟨_, hentry, flags_mkEntry hc entry, ?_⟩
    rwa [entryPpn_mkEntry hc (flags_masked entry)]
  · exact fun π ρ g hπ hρ hlπ hlρ hw hw' => h.forest.paths_inj hπ hρ hlπ hlρ hw hw'
  · exact Set.disjoint_left.mpr fun g hg hg' => (hsrc g hg').1 (hfresh hg).1
  · intro u hu vpn hv vpn' hv' j j' w
    refine ⟨hsep.load_store hu hv hv', hsep.symm.load_store ?_ hv hv'⟩
    rwa [Set.pair_comm]
  · exact fun g hg => h.other g fun hg' => hg hg'.1
  · exact ⟨hkeep Machine.cr3 (fun _ _ => rfl) fun _ => rfl, hkeep Machine.privateVmes (fun _ _ => rfl) fun _ => rfl,
      hkeep Machine.heapStart (fun _ _ => rfl) fun _ => rfl, hkeep Machine.heapBreak (fun _ _ => rfl) fun _ => rfl⟩
  · intro w hw
    have hlive : v.vmeLive = s.vmeLive := by
      have := congrArg Machine.vmeLive hregs
      exact this
    rw [← hlive]
    exact hc.fresh w hw

/-! ## A parent with one page -/

/-- Frames 100 to 103 are the tables of the page at address 0, in frame 104; frames 512 to 575 are free. -/
def onePage : Machine where
  hhdm_offset := 0xFFFF800000000000
  common_cr3 := 0
  mem := fun f i => if i = 0 ∧ 100 ≤ f ∧ f < 104 then mkEntry (f + 1) (leafFlags true true) else 0
  avail := 0
  free_ranges := [⟨512 * 4096, 64 * 4096⟩]
  cr3 := 100 * 4096
  n_active := 2
  privateVmes := [⟨0x8000, 0x400000, 0x402000, false, 0, 0⟩]
  sharedVmes := []
  heapStart := 0x400000
  heapBreak := 0x400000
  vmeLive := [0x8000]
  newVme := fun live => live.sum + 1
  acting := 1
  owner := fun f => if f = 104 then some 1 else none

theorem onePage_edge (f i : Nat) : onePage.edge f i = if i = 0 ∧ 100 ≤ f ∧ f < 104 then some (f + 1) else none := by
  by_cases h : i = 0 ∧ 100 ≤ f ∧ f < 104
  · rw [if_pos h]
    refine edge_mkEntry (by omega) (by omega) (present_leafFlags true true) (leafFlags_masked true true) ?_
    exact if_pos h
  · rw [if_neg h]
    exact edge_zero (if_neg h)

theorem onePage_walk {f g : Nat} {π : List Nat} (h : walk onePage.edge f π = some g) :
    π = List.replicate π.length 0 ∧ g = f + π.length := by
  induction π generalizing f with
  | nil => exact ⟨rfl, (Option.some.inj h).symm⟩
  | cons i π ih =>
    rw [walk_cons, onePage_edge] at h
    by_cases hi : i = 0 ∧ 100 ≤ f ∧ f < 104
    · rw [if_pos hi] at h
      obtain ⟨hπ, hg⟩ := ih h
      refine ⟨?_, by rw [List.length_cons]; omega⟩
      rw [List.length_cons, List.replicate_succ, ← hπ, hi.1]
    · rw [if_neg hi] at h
      cases h

def onePageFree : Set Nat := Set.Ico 512 576

theorem onePage_wf : PhysWf onePage onePageFree := by
  refine ⟨[], ⟨⟨by decide, ?_⟩, rfl, List.nodup_nil, by simp, ?_, List.pairwise_singleton _ _, by simp⟩, ?_⟩
  · simp only [onePage, FRAME_SIZE]
  · intro r hr
    obtain rfl := List.mem_singleton.mp hr
    constructor <;> simp [onePage, FRAME_SIZE]
  · intro f
    simp only [onePageFree, Set.mem_Ico, List.not_mem_nil, false_or, Machine.inRanges, onePage, List.mem_singleton,
      exists_eq_left, Range.has, FRAME_SIZE]
    omega

theorem onePage_root : onePage.root = 100 := by
  show PPN (100 * 4096 / FRAME_SIZE) = 100
  unfold PPN FRAME_SIZE
  omega

theorem onePage_onRoot : OnRoot onePage 100 := by
  show 100 * 4096 = 100 * FRAME_SIZE
  rw [FRAME_SIZE]

theorem onePage_source : LowerSource onePage onePageFree onePage.root := by
  have hlow : ∀ g, g < 105 → g ∉ onePageFree ∧ onePage.maps g := by
    intro g hg
    simp only [onePageFree, Set.mem_Ico, Machine.maps, onePage, FRAME_SIZE]
    omega
  rw [onePage_root]
  rintro g (⟨π, _, hlen, hw⟩ | ⟨π, _, hlen, hw⟩)
  · exact hlow g (by have := (onePage_walk hw).2; omega)
  · exact hlow g (by have := (onePage_walk hw).2; omega)

theorem onePage_once : TablesOnce onePage onePage.root := by
  intro π ρ g _ _ _ _ hw hw'
  obtain ⟨hπ, hg⟩ := onePage_walk hw
  obtain ⟨hρ, hg'⟩ := onePage_walk hw'
  rw [hπ, hρ, show π.length = ρ.length by omega]

theorem onePage_new (live : List Nat) : onePage.newVme live ∉ live := by
  intro h
  have : live.sum + 1 ≤ live.sum := List.single_le_sum (by simp) _ h
  omega

theorem onePageFree_ncard : onePageFree.ncard = 64 := by
  have hcoe : onePageFree = Finset.Ico 512 576 := by
    ext f
    simp [onePageFree]
  rw [hcoe, Set.ncard_coe_finset, Nat.card_Ico]

theorem onePage_entries {d f n : Nat} (hn : 0 < n) (hf : 100 ≤ f) (hf' : f < 104) :
    entriesSize onePage d f n = treeSize onePage d (f + 1) := by
  have hterm : ∀ i, (if present (onePage.mem f i) then treeSize onePage d (entryPpn (onePage.mem f i)) else 0) =
      if i = 0 then treeSize onePage d (f + 1) else 0 := by
    intro i
    by_cases hi : i = 0
    · have hentry := Machine.edge_some.mp ((onePage_edge f i).trans (if_pos ⟨hi, hf, hf'⟩))
      rw [if_pos hentry.2.1, if_pos hi, hentry.2.2]
    · have hzero : onePage.mem f i = 0 := if_neg fun h => hi h.1
      rw [hzero, if_neg not_present_zero, if_neg hi]
  rw [entriesSize, Finset.sum_congr rfl fun i _ => hterm i, Finset.sum_ite_eq', if_pos (Finset.mem_range.mpr hn)]

theorem onePage_tree {d f : Nat} (hf : 100 ≤ f) (hd : f + d = 104) : treeSize onePage d f = d + 1 := by
  induction d generalizing f with
  | zero => rw [treeSize]
  | succ d ih =>
    rw [treeSize_succ, onePage_entries (by omega) hf (by omega), ih (by omega) (by omega)]
    omega

theorem onePage_entriesSize : entriesSize onePage 3 onePage.root 256 = 4 := by
  rw [onePage_root]
  exact (onePage_entries (by omega) (by omega) (by omega)).trans (onePage_tree (by omega) (by omega))

theorem onePage_size : 1 + entriesSize onePage 3 onePage.root 256 ≤ onePageFree.ncard := by
  rw [onePage_entriesSize, onePageFree_ncard]
  omega

theorem onePage_forks : ∃ st t child G, snapshot_for_fork.run onePage = some (st, t) ∧
    Forked onePage onePageFree st t G child := by
  obtain ⟨st, t, hrun⟩ := snapshot_returns onePage_wf onePage_source onePage_new onePage_size
  obtain ⟨child, G, h⟩ := snapshot_for_fork_forks onePage_wf onePage_source onePage_once onePage_new hrun
  exact ⟨st, t, child, G, hrun, h⟩

end Kernel
