import Mathlib.Algebra.BigOperators.Group.Finset.Basic
import Mathlib.Algebra.Order.BigOperators.Group.Finset
import Mathlib.Data.Set.Card
import Kernel.Vmm.Tree

/-!
# `cloneTableSubtree` copies a tree into free frames

One loop copies a table, whatever copies the things below it. The spec of the
loop is proved once and used at every level.
-/

namespace Kernel

open Lib

/-! ## Copies -/

/-- The tree of depth `d` under `dst` in `t` is a copy of the one under `src` in `s`. -/
def CopyOf (s t : Machine) : Nat → Nat → Nat → Prop
  | 0, src, dst => ∀ j, j < 512 → t.mem dst j = s.mem src j
  | d + 1, src, dst => ∀ i, i < 512 →
    (present (s.mem src i) → ∃ c, c < 2 ^ 40 ∧
      t.mem dst i = mkEntry c (s.mem src i &&& ~~~addressMask) ∧
      CopyOf s t d (entryPpn (s.mem src i)) c) ∧
    (¬ present (s.mem src i) → t.mem dst i = 0)

theorem CopyOf.congr {s t s' t' : Machine} {d src dst : Nat} (h : CopyOf s t d src dst)
    (hs : ∀ g ∈ within s.edge d src, s'.mem g = s.mem g)
    (ht : ∀ g ∈ within t.edge d dst, t'.mem g = t.mem g) : CopyOf s' t' d src dst := by
  induction d generalizing src dst with
  | zero =>
    intro j hj
    rw [ht dst (self_mem_within 0 dst), hs src (self_mem_within 0 src)]
    exact h j hj
  | succ d ih =>
    intro i hi
    rw [ht dst (self_mem_within _ dst), hs src (self_mem_within _ src)]
    refine ⟨fun hp => ?_, (h i hi).2⟩
    obtain ⟨c, hc, hentry, hcopy⟩ := (h i hi).1 hp
    refine ⟨c, hc, hentry, ih hcopy (fun g hg => hs g ?_) (fun g hg => ht g ?_)⟩
    · exact within_child (edge_of_present hi hp) hg
    · exact within_child (edge_mkEntry hi hc ((present_flags _).mpr hp) (flags_masked _) hentry) hg

/-! ## What a copy costs -/

/-- The number of tables and pages under a table, as many times as they are reached. -/
def treeSize (s : Machine) : Nat → Nat → Nat
  | 0, _ => 1
  | d + 1, t => 1 + ∑ i ∈ Finset.range 512, if present (s.mem t i) then treeSize s d (entryPpn (s.mem t i)) else 0

/-- The part of `treeSize` that the first `n` entries bring. -/
def entriesSize (s : Machine) (d t n : Nat) : Nat :=
  ∑ i ∈ Finset.range n, if present (s.mem t i) then treeSize s d (entryPpn (s.mem t i)) else 0

theorem treeSize_succ (s : Machine) (d t : Nat) : treeSize s (d + 1) t = 1 + entriesSize s d t 512 := rfl

@[simp] theorem entriesSize_zero (s : Machine) (d t : Nat) : entriesSize s d t 0 = 0 := rfl

theorem entriesSize_succ (s : Machine) (d t n : Nat) : entriesSize s d t (n + 1) =
    entriesSize s d t n + if present (s.mem t n) then treeSize s d (entryPpn (s.mem t n)) else 0 :=
  Finset.sum_range_succ _ n

theorem entriesSize_mono (s : Machine) (d t : Nat) {n m : Nat} (h : n ≤ m) :
    entriesSize s d t n ≤ entriesSize s d t m :=
  Finset.sum_le_sum_of_subset (Finset.range_subset_range.mpr h)

theorem treeSize_congr {s u : Machine} {d t : Nat} (h : ∀ g ∈ within s.edge d t, u.mem g = s.mem g) :
    treeSize u d t = treeSize s d t := by
  induction d generalizing t with
  | zero => rfl
  | succ d ih =>
    rw [treeSize, treeSize, h t (self_mem_within _ t)]
    refine congrArg (1 + ·) (Finset.sum_congr rfl fun i hi => ?_)
    by_cases hp : present (s.mem t i)
    · rw [if_pos hp, if_pos hp]
      exact ih fun g hg => h g (within_child (edge_of_present (Finset.mem_range.mp hi) hp) hg)
    · rw [if_neg hp, if_neg hp]

theorem PhysWf.finite {s : Machine} {F : Set Nat} (h : PhysWf s F) : F.Finite :=
  (Set.finite_lt_nat (2 ^ 35)).subset fun _ hf => Machine.maps_lt h.hhdm (h.maps hf)

/-- `c` was copied from `src` into frames of `F`, of which `G` are still free. -/
structure Cloned (s : Machine) (F : Set Nat) (d src c : Nat) (t : Machine) (G : Set Nat) : Prop where
  sub : G ⊆ F
  wf : PhysWf t G
  other : ∀ g, g ∉ F \ G → t.mem g = s.mem g
  regs : t.regs = s.regs
  owner : ∀ g, g ∉ F \ G → t.owner g = s.owner g
  copy : CopyOf s t d src c
  own : OwnTree t (F \ G) s.acting d c
  cost : G.ncard + treeSize s d src = F.ncard

/-- The frames of the source tree are in use and direct-mapped. -/
def Source (s : Machine) (F : Set Nat) (d src : Nat) : Prop :=
  ∀ g ∈ within s.edge d src, g ∉ F ∧ s.maps g

theorem Source.child {s : Machine} {F : Set Nat} {d src i c : Nat} (h : Source s F (d + 1) src)
    (hc : s.edge src i = some c) : Source s F d c :=
  fun g hg => h g (within_child hc hg)

/-- Every finished run of `A` copies a tree of depth `d`. -/
def ClonesAt (d : Nat) (A : Nat → K Nat) : Prop :=
  ∀ s F src c t, PhysWf s F → Source s F d src → (A src).run s = some (c, t) → ∃ G, Cloned s F d src c t G

/-! ## One frame -/

theorem copyFrame_run {s : Machine} {dst src : Nat} :
    (copyFrame (s.vaOf dst) (s.vaOf src)).run s =
      some ((), { s with mem := fun g j => if g = dst ∧ j < 512 then s.mem src j else s.mem g j }) := by
  let st (i : Nat) : Machine :=
    { s with mem := fun g j => if g = dst ∧ j < i then s.mem src j else s.mem g j }
  have h0 : st 0 = s := by simp [st]
  have hstep : ∀ i, i < 512 → (do
      let w ← load (s.vaOf src) i
      store (s.vaOf dst) i w : K Unit).run (st i) = some ((), st (i + 1)) := by
    intro i hi
    have hload : (load (s.vaOf src) i).run (st i) = _ := load_vaOf hi
    have hstore : ∀ w, (store (s.vaOf dst) i w).run (st i) = _ := fun w => store_vaOf hi
    rw [Prog.bind_run hload, hstore]
    simp only [Machine.poke, st, Option.some.injEq, Prod.mk.injEq, true_and, Machine.mk.injEq, and_true]
    funext g j
    split_ifs <;> grind
  have := Prog.forRange_trace st hstep
  rwa [h0] at this

/-- What level 0 of `cloneTableSubtree` does for one entry. -/
def cloneFrame (srcFrame : Nat) : K Nat := do
  let dstFrame ← PhysMem.alloc
  markData dstFrame
  let srcBytes ← VA.ofPPN srcFrame
  let dstBytes ← VA.ofPPN dstFrame
  copyFrame dstBytes srcBytes
  pure dstFrame

theorem cloneFrame_clones : ClonesAt 0 cloneFrame := by
  intro s F src c t hwf hsrc hrun
  obtain ⟨hnot, hmaps⟩ := hsrc src (self_mem_within 0 src)
  rw [cloneFrame, Prog.run_bind] at hrun
  obtain ⟨f, u, halloc, hrun⟩ := hrun
  have ha := alloc_spec hwf halloc
  have hne : f ≠ src := fun h => hnot (h ▸ ha.mem_free)
  have hhdm := Machine.regs_hhdm ha.regs
  let v : Machine := { u with owner := fun g => if g = f then some u.acting else u.owner g }
  have hv : v.hhdm_offset = s.hhdm_offset := hhdm
  have hh : HhdmOk v := hwf.hhdm.congr hv
  have hfmaps : v.maps f := (Machine.maps_congr hv f).mpr (hwf.maps ha.mem_free)
  rw [markData, Prog.modify_bind_run, Prog.bind_run (VA.ofPPN_run hh ((Machine.maps_congr hv src).mpr hmaps)),
    Prog.bind_run (VA.ofPPN_run hh hfmaps), Prog.bind_run copyFrame_run, Prog.run_pure] at hrun
  obtain ⟨rfl, rfl⟩ := hrun
  have hacting : u.acting = s.acting := Machine.regs_acting ha.regs
  have hin : c ∈ F \ (F \ {c}) := ⟨ha.mem_free, fun h => h.2 rfl⟩
  have hout : ∀ g, g ∉ F \ (F \ {c}) → g ≠ c := fun g hg h => hg (h ▸ hin)
  refine ⟨F \ {c}, fun g hg => hg.1, ha.wf.congr rfl rfl rfl ?_, ?_, ha.regs, ?_, ?_, ?_, ?_⟩
  · intro g hg
    funext j
    simp [v, show g ≠ c from hg.2]
  · intro g hg
    funext j
    simp [v, hout g hg, ha.other g (hout g hg)]
  · intro g hg
    simp [v, hout g hg, ha.owner]
  · intro j hj
    simp [v, hj, ha.other src hne.symm]
  · exact ownTree_zero.mpr ⟨hin, by simp [v, hacting]⟩
  · exact Set.ncard_sdiff_singleton_add_one ha.mem_free hwf.finite

/-! ## One table -/

/-- The body of the loop over the entries of a table. -/
def cloneEntry (A : Nat → K Nat) (src dst i : Nat) : K Unit := do
  let entry ← load src i
  if present entry then
    let child ← A (entryPpn entry)
    store dst i (mkEntry child (entry &&& ~~~addressMask))
  else pure ()

/-- What every level of `cloneTableSubtree` does with a table. -/
def cloneTable (A : Nat → K Nat) (srcTablePpn : Nat) : K Nat := do
  let dstTablePpn ← PhysMem.alloc
  let src ← VA.ofPPN srcTablePpn
  let dst ← VA.ofPPN dstTablePpn
  clearTable dst
  Prog.forRange 512 fun i => cloneEntry A src dst i
  pure dstTablePpn

theorem cloneTableSubtree_succ (level : Nat) :
    cloneTableSubtree (level + 1) = cloneTable (cloneTableSubtree level) := rfl

theorem cloneTableSubtree_zero : cloneTableSubtree 0 = cloneTable cloneFrame := by
  funext srcTablePpn
  simp only [cloneTableSubtree, cloneTable, cloneEntry, cloneFrame, bind_assoc, pure_bind]

/-- The loop has copied the first `i` entries of `src` to `dst`, and `G` is free. -/
structure CloneLoop (s : Machine) (F : Set Nat) (d src dst i : Nat) (u : Machine) (G : Set Nat) : Prop where
  sub : G ⊆ F \ {dst}
  wf : PhysWf u G
  other : ∀ g, g ∉ F \ G → u.mem g = s.mem g
  regs : u.regs = s.regs
  owner : ∀ g, g ∉ F \ G → u.owner g = s.owner g
  blank : ∀ j, j < 512 → (i ≤ j ∨ ¬ present (s.mem src j)) → u.mem dst j = 0
  copied : ∀ j, j < i → present (s.mem src j) → ∃ c, c < 2 ^ 40 ∧
    u.mem dst j = mkEntry c (s.mem src j &&& ~~~addressMask) ∧ CopyOf s u d (entryPpn (s.mem src j)) c
  forest : Forest u (F \ G) s.acting d 512 dst
  cost : G.ncard + 1 + entriesSize s d src i = F.ncard

theorem CloneLoop.start {s u : Machine} {F : Set Nat} {d src dst : Nat} (hwf : PhysWf s F)
    (ha : AllocSpec s F dst u) :
    CloneLoop s F d src dst 0 (u.zeroFrame dst) (F \ {dst}) := by
  have hzero : ∀ g, g ≠ dst → (u.zeroFrame dst).mem g = u.mem g := by
    intro g hg
    funext j
    simp [Machine.zeroFrame, hg]
  have hblank : ∀ j, j < 512 → (u.zeroFrame dst).mem dst j = 0 := by
    intro j hj
    simp [Machine.zeroFrame, hj]
  have hout : ∀ g, g ∉ F \ (F \ {dst}) → g ≠ dst := by
    rintro g hg rfl
    exact hg ⟨ha.mem_free, fun h => h.2 rfl⟩
  have hnone : ∀ i c, i < 512 → (u.zeroFrame dst).edge dst i ≠ some c := by
    intro i c hi hc
    rw [edge_zero (hblank i hi)] at hc
    cases hc
  exact {
    sub := subset_rfl
    wf := ha.wf.congr rfl rfl rfl fun g hg => hzero g hg.2
    other := fun g hg => by rw [hzero g (hout g hg), ha.other g (hout g hg)]
    regs := ha.regs
    owner := fun g _ => congrFun ha.owner g
    blank := fun j hj _ => hblank j hj
    copied := fun j hj => absurd hj (by omega)
    forest := ⟨fun i c hi hc => absurd hc (hnone i c hi), fun i _ c _ hi _ _ hc => absurd hc (hnone i c hi)⟩
    cost := Set.ncard_sdiff_singleton_add_one ha.mem_free hwf.finite }

theorem CloneLoop.same {s u : Machine} {F G : Set Nat} {d src dst i c : Nat}
    (h : CloneLoop s F d src dst i u G) (hsrc : Source s F d c) :
    ∀ g ∈ within s.edge d c, u.mem g = s.mem g :=
  fun g hg => h.other g fun hg' => (hsrc g hg).1 hg'.1

theorem CloneLoop.source {s u : Machine} {F G : Set Nat} {d src dst i c : Nat}
    (h : CloneLoop s F d src dst i u G) (hsrc : Source s F d c) : Source u G d c := by
  intro g hg
  rw [within_agree subset_rfl (h.same hsrc)] at hg
  have hhu := Machine.regs_hhdm h.regs
  exact ⟨fun hG => (hsrc g hg).1 (h.sub hG).1, (Machine.maps_congr hhu g).mpr (hsrc g hg).2⟩

theorem CloneLoop.skip {s u : Machine} {F G : Set Nat} {d src dst i : Nat}
    (h : CloneLoop s F d src dst i u G) (hp : ¬ present (s.mem src i)) : CloneLoop s F d src dst (i + 1) u G :=
  { h with
    blank := fun j hj hor => h.blank j hj (by
      rcases Nat.lt_or_ge i j with hij | hij
      · exact Or.inl (by omega)
      · rcases hor with hor | hor
        · omega
        · exact Or.inr hor)
    copied := fun j hj hpj => by
      rcases Nat.lt_succ_iff_lt_or_eq.mp hj with hj | rfl
      · exact h.copied j hj hpj
      · exact absurd hpj hp
    cost := by rw [entriesSize_succ, if_neg hp]; exact h.cost }

theorem CloneLoop.add {s u v : Machine} {F G H : Set Nat} {d src dst i c : Nat}
    (h : CloneLoop s F d src dst i u G) (hdst : dst ∈ F) (hi : i < 512) (hp : present (s.mem src i))
    (hsrc : Source s F d (entryPpn (s.mem src i))) (hhdm : HhdmOk s)
    (hc : Cloned u G d (entryPpn (s.mem src i)) c v H) :
    CloneLoop s F d src dst (i + 1) (v.poke dst i (mkEntry c (s.mem src i &&& ~~~addressMask))) H := by
  have hHG : H ⊆ G := hc.sub
  have hdstG : dst ∉ G := fun hg => (h.sub hg).2 rfl
  have hcG : c ∈ G := (hc.own.inside (self_mem_within d c)).1
  have hgrow : ∀ g, g ∉ F \ H → g ∉ F \ G ∧ g ∉ G \ H ∧ g ≠ dst := by
    intro g hg
    refine ⟨fun hg' => hg ⟨hg'.1, fun hH => hg'.2 (hHG hH)⟩, fun hg' => hg ⟨(h.sub hg'.1).1, hg'.2⟩, ?_⟩
    rintro rfl
    exact hg ⟨hdst, fun hH => hdstG (hHG hH)⟩
  -- The trees that are there already stay out of `G`, where the new one is.
  have hkeep : ∀ g ∈ F \ G, g ≠ dst →
      (v.poke dst i (mkEntry c (s.mem src i &&& ~~~addressMask))).mem g = u.mem g := by
    intro g hg hne
    rw [Machine.poke_mem_of_ne hne, hc.other g fun hg' => hg.2 hg'.1]
  have hnew : ∀ g ∈ G, (v.poke dst i (mkEntry c (s.mem src i &&& ~~~addressMask))).mem g = v.mem g :=
    fun g hg => Machine.poke_mem_of_ne fun h => hdstG (h ▸ hg)
  have htable : ∀ j, j ≠ i →
      (v.poke dst i (mkEntry c (s.mem src i &&& ~~~addressMask))).mem dst j = u.mem dst j := by
    intro j hj
    rw [← hc.other dst fun hg' => hdstG hg'.1]
    simp [Machine.poke, hj]
  have hentry : (v.poke dst i (mkEntry c (s.mem src i &&& ~~~addressMask))).mem dst i =
      mkEntry c (s.mem src i &&& ~~~addressMask) := by
    simp [Machine.poke]
  have hc40 : c < 2 ^ 40 := by
    have hhu := hhdm.congr (Machine.regs_hhdm h.regs)
    have := Machine.maps_lt hhu (h.wf.maps hcG)
    omega
  have hmask := flags_masked (s.mem src i)
  have hsame := h.same hsrc
  refine ⟨hHG.trans h.sub, hc.wf.congr rfl rfl rfl fun g hg => hnew g (hHG hg), fun g hg => ?_,
    hc.regs.trans h.regs, fun g hg => ?_, fun j hj hor => ?_, fun j hj hpj => ?_, ?_, ?_⟩
  · obtain ⟨h1, h2, h3⟩ := hgrow g hg
    rw [Machine.poke_mem_of_ne h3, hc.other g h2, h.other g h1]
  · obtain ⟨h1, h2, _⟩ := hgrow g hg
    exact (hc.owner g h2).trans (h.owner g h1)
  · have hne : j ≠ i := by
      rintro rfl
      rcases hor with hor | hor
      · omega
      · exact hor hp
    rw [htable j hne]
    exact h.blank j hj (hor.imp (by omega) id)
  · rcases Nat.lt_succ_iff_lt_or_eq.mp hj with hj | rfl
    · obtain ⟨m, hm, hme, hcopy⟩ := h.copied j hj hpj
      refine ⟨m, hm, by rw [htable j (by omega)]; exact hme, hcopy.congr (fun _ _ => rfl) fun g hg => ?_⟩
      have hedge := edge_mkEntry (by omega) hm ((present_flags _).mpr hpj) (flags_masked _) hme
      have hin := (h.forest.trees j m (by omega) hedge).inside hg
      exact hkeep g hin.1 hin.2
    · refine ⟨c, hc40, hentry, hc.copy.congr (fun g hg => ?_) fun g hg => hnew g (hc.own.inside hg).1⟩
      rw [within_agree subset_rfl hsame] at hg
      exact (hsame g hg).symm
  · rw [← Set.sdiff_union_sdiff_cancel (fun g hg => (h.sub hg).1) hHG]
    refine h.forest.update (k := i) (E := G \ H) (fun j _ hj => ?_) (fun j m hj hji hm g hg => ?_) (fun m hm => ?_)
      (fun hg => hdstG hg.1) fun g hg => Or.inr hg
    · rw [Machine.edge, Machine.edge, htable j hj]
    · obtain ⟨hin, hne⟩ := (h.forest.trees j m hj hm).inside hg
      exact ⟨hkeep g hin hne, hc.owner g fun hg' => hin.2 hg'.1, Or.inl hin, fun hg' => hin.2 hg'.1⟩
    · obtain rfl : c = m := by
        have := edge_mkEntry hi hc40 ((present_flags _).mpr hp) hmask hentry
        exact Option.some.inj (this.symm.trans hm)
      rw [← Machine.regs_acting h.regs]
      exact hc.own.congr (fun g hg => hnew g hg.1) fun _ _ => rfl
  · have hsize := treeSize_congr hsame
    have hcost := hc.cost
    have hbefore := h.cost
    rw [entriesSize_succ, if_pos hp]
    omega

theorem CloneLoop.step {A : Nat → K Nat} {s u t : Machine} {F G : Set Nat} {d src dst i : Nat} {x : Unit}
    (hA : ClonesAt d A) (h : CloneLoop s F d src dst i u G) (hwf : PhysWf s F) (hdst : dst ∈ F) (hi : i < 512)
    (hsrc : src ∉ F) (hchild : ∀ c, s.edge src i = some c → Source s F d c)
    (hrun : (cloneEntry A (s.vaOf src) (s.vaOf dst) i).run u = some (x, t)) :
    ∃ H, CloneLoop s F d src dst (i + 1) t H := by
  have hhu := Machine.regs_hhdm h.regs
  have hload : (load (s.vaOf src) i).run u = some (s.mem src i, u) := by
    rw [← Machine.vaOf_congr hhu, load_vaOf hi, h.other src fun hg => hsrc hg.1]
  rw [cloneEntry, Prog.bind_run hload, Prog.run_ite] at hrun
  rcases hrun with ⟨hp, hrun⟩ | ⟨hp, hrun⟩
  · have hsource := hchild _ (edge_of_present hi hp)
    obtain ⟨c, v, hcall, hstore⟩ := Prog.run_bind.mp hrun
    obtain ⟨H, hc⟩ := hA u G _ c v h.wf (h.source hsource) hcall
    rw [← Machine.vaOf_congr hhu, ← Machine.vaOf_congr (Machine.regs_hhdm hc.regs), store_vaOf hi,
      Option.some.injEq, Prod.mk.injEq] at hstore
    rw [← hstore.2]
    exact ⟨H, h.add hdst hi hp hsource hwf.hhdm hc⟩
  · rw [Prog.run_pure] at hrun
    rw [hrun.2]
    exact ⟨G, h.skip hp⟩

theorem CloneLoop.run {A : Nat → K Nat} {s u t : Machine} {F G : Set Nat} {d src dst n : Nat} {x : Unit}
    (hA : ClonesAt d A) (h : CloneLoop s F d src dst 0 u G) (hwf : PhysWf s F) (hdst : dst ∈ F) (hn : n ≤ 512)
    (hsrc : src ∉ F) (hchild : ∀ i c, i < n → s.edge src i = some c → Source s F d c)
    (hrun : (Prog.forRange n fun i => cloneEntry A (s.vaOf src) (s.vaOf dst) i).run u = some (x, t)) :
    ∃ H, CloneLoop s F d src dst n t H := by
  refine Prog.forRange_inv (fun i u => ∃ G, CloneLoop s F d src dst i u G) ?_ ⟨G, h⟩ hrun
  rintro i hi u t ⟨G, h⟩ hstep
  exact h.step hA hwf hdst (by omega) hsrc (fun c => hchild i c hi) hstep

theorem cloneTable_clones {A : Nat → K Nat} {d : Nat} (hA : ClonesAt d A) : ClonesAt (d + 1) (cloneTable A) := by
  intro s F src c t hwf hsrc hrun
  obtain ⟨hnot, hmaps⟩ := hsrc src (self_mem_within _ src)
  rw [cloneTable, Prog.run_bind] at hrun
  obtain ⟨dst, u, halloc, hrun⟩ := hrun
  have ha := alloc_spec hwf halloc
  have hhu := Machine.regs_hhdm ha.regs
  have hh : HhdmOk u := hwf.hhdm.congr hhu
  have hdm : u.maps dst := (Machine.maps_congr hhu dst).mpr (hwf.maps ha.mem_free)
  rw [Prog.bind_run (VA.ofPPN_run hh ((Machine.maps_congr hhu src).mpr hmaps)),
    Prog.bind_run (VA.ofPPN_run hh hdm), clearTable, Prog.bind_run (zero_loop rfl)] at hrun
  obtain ⟨x, v, hloop, hret⟩ := Prog.run_bind.mp hrun
  rw [Machine.vaOf_congr hhu, Machine.vaOf_congr hhu] at hloop
  obtain ⟨G, h⟩ := (CloneLoop.start hwf ha).run hA hwf ha.mem_free le_rfl hnot
    (fun i c _ hc => hsrc.child hc) hloop
  rw [Prog.run_pure] at hret
  obtain ⟨rfl, rfl⟩ := hret
  have hdst : c ∈ F \ G := ⟨ha.mem_free, fun hg => (h.sub hg).2 rfl⟩
  refine ⟨G, fun g hg => (h.sub hg).1, h.wf, h.other, h.regs, h.owner, fun i hi => ⟨?_, ?_⟩, ?_, ?_⟩
  · exact h.copied i hi
  · exact fun hp => h.blank i hi (Or.inr hp)
  · exact ownTree_succ.mpr ⟨hdst, h.forest⟩
  · rw [treeSize_succ, ← Nat.add_assoc]
    exact h.cost

/-- **Copies.** `cloneTableSubtree` copies the tables of its level and below, and their pages. -/
theorem cloneTableSubtree_clones (level : Nat) : ClonesAt (level + 1) (cloneTableSubtree level) := by
  induction level with
  | zero => rw [cloneTableSubtree_zero]; exact cloneTable_clones cloneFrame_clones
  | succ level ih => rw [cloneTableSubtree_succ]; exact cloneTable_clones ih

/-! ## With enough free frames the copy does not panic -/

/-- `A` returns when there are as many free frames as the tree takes. -/
def ReturnsAt (d : Nat) (A : Nat → K Nat) : Prop :=
  ∀ s F src, PhysWf s F → Source s F d src → treeSize s d src ≤ F.ncard → ∃ c t, (A src).run s = some (c, t)

theorem nonempty_of_treeSize {s : Machine} {F : Set Nat} {d src : Nat} (h : treeSize s d src ≤ F.ncard) :
    F.Nonempty := by
  have hpos : 0 < treeSize s d src := by
    cases d with
    | zero => exact Nat.one_pos
    | succ d => rw [treeSize_succ]; omega
  exact Set.nonempty_of_ncard_ne_zero (by omega)

theorem cloneFrame_returns : ReturnsAt 0 cloneFrame := by
  intro s F src hwf hsrc hsize
  obtain ⟨f, u, halloc⟩ := alloc_returns hwf (nonempty_of_treeSize hsize)
  have ha := alloc_spec hwf halloc
  have hhdm := Machine.regs_hhdm ha.regs
  let v : Machine := { u with owner := fun g => if g = f then some u.acting else u.owner g }
  have hv : v.hhdm_offset = s.hhdm_offset := hhdm
  have hh : HhdmOk v := hwf.hhdm.congr hv
  have hsm : v.maps src := (Machine.maps_congr hv src).mpr (hsrc src (self_mem_within 0 src)).2
  have hfm : v.maps f := (Machine.maps_congr hv f).mpr (hwf.maps ha.mem_free)
  refine ⟨f, { v with mem := fun g j => if g = f ∧ j < 512 then v.mem src j else v.mem g j }, ?_⟩
  rw [cloneFrame, Prog.bind_run halloc, markData, Prog.modify_bind_run, Prog.bind_run (VA.ofPPN_run hh hsm),
    Prog.bind_run (VA.ofPPN_run hh hfm), Prog.bind_run copyFrame_run]
  rfl

theorem CloneLoop.turn_returns {A : Nat → K Nat} {s u : Machine} {F G : Set Nat} {d src dst i n : Nat}
    (hA : ReturnsAt d A) (hspec : ClonesAt d A) (h : CloneLoop s F d src dst i u G) (hi : i < n) (hn : n ≤ 512)
    (hwf : PhysWf s F) (hdst : dst ∈ F) (hsrc : src ∉ F) (hchild : ∀ c, s.edge src i = some c → Source s F d c)
    (hsize : 1 + entriesSize s d src n ≤ F.ncard) :
    ∃ t, (cloneEntry A (s.vaOf src) (s.vaOf dst) i).run u = some ((), t) ∧
      ∃ H, CloneLoop s F d src dst (i + 1) t H := by
  have hhu := Machine.regs_hhdm h.regs
  have hload : (load (s.vaOf src) i).run u = some (s.mem src i, u) := by
    rw [← Machine.vaOf_congr hhu, load_vaOf (by omega), h.other src fun hg => hsrc hg.1]
  have hrun : ∃ t, (cloneEntry A (s.vaOf src) (s.vaOf dst) i).run u = some ((), t) := by
    rw [cloneEntry, Prog.bind_run hload]
    by_cases hp : present (s.mem src i)
    · have hsource := hchild _ (edge_of_present (by omega) hp)
      have hcost := h.cost
      have hmono := entriesSize_mono s d src (show i + 1 ≤ n from hi)
      rw [entriesSize_succ, if_pos hp] at hmono
      have hchildSize := treeSize_congr (h.same hsource)
      obtain ⟨c, v, hcall⟩ := hA u G _ h.wf (h.source hsource) (by omega)
      obtain ⟨H, hc⟩ := hspec u G _ c v h.wf (h.source hsource) hcall
      have hva : s.vaOf dst = v.vaOf dst := by
        rw [Machine.vaOf_congr (Machine.regs_hhdm hc.regs), Machine.vaOf_congr hhu]
      exact ⟨_, by rw [if_pos hp, Prog.bind_run hcall, hva, store_vaOf (by omega)]⟩
    · exact ⟨u, by rw [if_neg hp]; rfl⟩
  obtain ⟨t, ht⟩ := hrun
  exact ⟨t, ht, h.step hspec hwf hdst (by omega) hsrc hchild ht⟩

theorem CloneLoop.returns {A : Nat → K Nat} {s u : Machine} {F G : Set Nat} {d src dst n : Nat}
    (hA : ReturnsAt d A) (hspec : ClonesAt d A) (h : CloneLoop s F d src dst 0 u G) (hn : n ≤ 512)
    (hwf : PhysWf s F) (hdst : dst ∈ F) (hsrc : src ∉ F)
    (hchild : ∀ i c, i < n → s.edge src i = some c → Source s F d c)
    (hsize : 1 + entriesSize s d src n ≤ F.ncard) :
    ∃ t, (Prog.forRange n fun i => cloneEntry A (s.vaOf src) (s.vaOf dst) i).run u = some ((), t) ∧
      ∃ H, CloneLoop s F d src dst n t H := by
  refine Prog.forRange_total (fun i u => ∃ G, CloneLoop s F d src dst i u G) ?_ ⟨G, h⟩
  rintro i hi u ⟨G, h⟩
  exact h.turn_returns hA hspec hi hn hwf hdst hsrc (fun c => hchild i c hi) hsize

theorem cloneTable_returns {A : Nat → K Nat} {d : Nat} (hA : ReturnsAt d A) (hspec : ClonesAt d A) :
    ReturnsAt (d + 1) (cloneTable A) := by
  intro s F src hwf hsrc hsize
  obtain ⟨hnot, hmaps⟩ := hsrc src (self_mem_within _ src)
  obtain ⟨dst, u, halloc⟩ := alloc_returns hwf (nonempty_of_treeSize hsize)
  have ha := alloc_spec hwf halloc
  have hhu := Machine.regs_hhdm ha.regs
  have hh : HhdmOk u := hwf.hhdm.congr hhu
  have hsm : u.maps src := (Machine.maps_congr hhu src).mpr hmaps
  have hdm : u.maps dst := (Machine.maps_congr hhu dst).mpr (hwf.maps ha.mem_free)
  rw [treeSize_succ] at hsize
  obtain ⟨t, hloop, _⟩ := (CloneLoop.start hwf ha).returns (n := 512) hA hspec le_rfl hwf ha.mem_free hnot
    (fun i c _ hc => hsrc.child hc) hsize
  refine ⟨dst, t, ?_⟩
  rw [cloneTable, Prog.bind_run halloc, Prog.bind_run (VA.ofPPN_run hh hsm), Prog.bind_run (VA.ofPPN_run hh hdm),
    clearTable, Prog.bind_run (zero_loop rfl), Machine.vaOf_congr hhu, Machine.vaOf_congr hhu, Prog.bind_run hloop]
  rfl

theorem cloneTableSubtree_returns (level : Nat) : ReturnsAt (level + 1) (cloneTableSubtree level) := by
  induction level with
  | zero => rw [cloneTableSubtree_zero]; exact cloneTable_returns cloneFrame_returns cloneFrame_clones
  | succ level ih => rw [cloneTableSubtree_succ]; exact cloneTable_returns ih (cloneTableSubtree_clones level)

end Kernel
