import Kernel.Vmm.Flags
import Kernel.Vmm.NewPages

/-!
# Frames that are handed out as zeros

What `map` and `map_range` do while `alloc` hands out frames of zeros. A recycled frame
of zeros is the last of its list, so after it every frame is cleared by `alloc`.
-/

namespace Kernel

open Lib

/-- The next frame that `alloc` hands out has no word but zeros. -/
def HandsZeros (s : Machine) : Prop := s.avail ≠ 0 → ∀ i, i < 512 → s.mem (s.frameOf s.avail) i = 0

section

variable {s t u : Machine} {F D : Set Nat} {f : Nat}

theorem handsZeros_iff (h : PhysWf s F) :
    HandsZeros s ↔ ∀ f u, PhysMem.alloc.run s = some (f, u) → ∀ i, i < 512 → u.mem f i = 0 := by
  constructor
  · exact fun hz f u halloc => (alloc_zero h halloc).mpr hz
  · intro hall ha
    obtain ⟨l, hl, hF⟩ := h
    cases l with
    | nil => exact absurd hl.chain ha
    | cons g l => exact (alloc_zero ⟨_, hl, hF⟩ (alloc_avail hl)).mp (hall _ _ (alloc_avail hl)) ha

theorem HandsZeros.alloc (hz : HandsZeros s) (h : PhysWf s F) (halloc : PhysMem.alloc.run s = some (f, u)) :
    u.avail = 0 ∧ ∀ i, i < 512 → u.mem f i = 0 := by
  refine ⟨?_, (alloc_zero h halloc).mpr hz⟩
  by_cases ha : s.avail = 0
  · exact (alloc_cleared h ha halloc).1
  · obtain ⟨l, hl, -⟩ := h
    cases l with
    | nil => exact absurd hl.chain ha
    | cons g l =>
      have hframe : s.frameOf s.avail = g := by
        rw [hl.chain.1]
        exact frameOf_vaOf s g 0 (by omega)
      have hlink := hz ha 0 (by omega)
      rw [hframe] at hlink
      rw [alloc_avail hl, Option.some.injEq, Prod.mk.injEq] at halloc
      rw [← halloc.2]
      show (s.mem g 0).toNat = 0
      rw [hlink]
      rfl

theorem handsZeros_of_avail (ha : s.avail = 0) : HandsZeros s := fun hne => absurd ha hne

end

/-! ## `map` -/

/-- `map` took at most `cost` frames and left the list of recycled frames empty. -/
structure MapCost (F : Set Nat) (cost : Nat) (t : Machine) : Prop where
  avail : t.avail = 0
  free : ∃ F', PhysWf t F' ∧ F.ncard ≤ F'.ncard + cost

section

variable {s t : Machine} {F D : Set Nat} {p n vpn level table f : Nat} {user write : Bool}

theorem mapAt_clean (hwf : PhysWf s F) (hforest : Forest s D p level n table) (htable : table ∈ D)
    (hi : vpnIndex vpn level < n) (hD : ∀ g ∈ D, g ∉ F ∧ s.maps g) (ha : s.avail = 0) : mapClean vpn level table s := by
  induction level generalizing D n table with
  | zero => trivial
  | succ level ih =>
    by_cases hp : present (s.mem table (vpnIndex vpn (level + 1)))
    · have hedge := edge_of_present (vpnIndex_lt vpn _) hp
      have hsub := (hforest.trees _ _ hi hedge).inside
      rw [mapClean, if_pos hp]
      exact ih (ownTree_succ.mp (hforest.child hi hedge)).2 (self_mem_within _ _) (vpnIndex_lt vpn level)
        fun g hg => hD g (hsub hg).1
    · exact mapClean_blank hwf ha (hD table htable).1 hp

theorem mapAt_cost (hwf : PhysWf s F) (hforest : Forest s D p level n table) (htable : table ∈ D)
    (hi : vpnIndex vpn level < n) (hD : ∀ g ∈ D, g ∉ F ∧ s.maps g) (ha : s.avail = 0)
    (hrun : (mapAt vpn f user write level table).run s = some ((), t)) : MapCost F level t := by
  induction level generalizing s F D n table with
  | zero =>
    rw [mapAt_zero hwf.hhdm (hD table htable).2, Option.some.injEq, Prod.mk.injEq] at hrun
    obtain ⟨-, rfl⟩ := hrun
    refine ⟨ha, F, hwf.congr rfl rfl rfl fun g hg => Machine.poke_mem_of_ne ?_, Nat.le_refl _⟩
    rintro rfl
    exact (hD g htable).1 hg
  | succ level ih =>
    have hm := (hD table htable).2
    by_cases hp : present (s.mem table (vpnIndex vpn (level + 1)))
    · have hedge := edge_of_present (vpnIndex_lt vpn _) hp
      have hsub := (hforest.trees _ _ hi hedge).inside
      rw [mapAt_present hwf.hhdm hm hp] at hrun
      obtain ⟨havail, F', hwf', hcard⟩ := ih hwf (ownTree_succ.mp (hforest.child hi hedge)).2 (self_mem_within _ _)
        (vpnIndex_lt vpn level) (fun g hg => hD g (hsub hg).1) ha hrun
      exact ⟨havail, F', hwf', by omega⟩
    · have hF : F.Nonempty := by
        have hrun' := hrun
        rw [mapAt, Prog.bind_run (VA.ofPPN_run hwf.hhdm hm), Prog.bind_run (load_vaOf (vpnIndex_lt vpn (level + 1))),
          if_neg hp, Prog.run_bind] at hrun'
        obtain ⟨child, u, halloc, -⟩ := hrun'
        exact ⟨child, (alloc_spec hwf halloc).mem_free⟩
      obtain ⟨child, v, hv, heq⟩ := mapAt_new vpn f level user write hwf ha hF (hD table htable).1 hm hp
      have hcard := Set.ncard_sdiff_singleton_add_one hv.mem_free hwf.finite
      have hblank : ∀ j, j < 512 → ¬ present (v.mem child j) := fun j hj => by
        rw [hv.blank j hj]
        exact not_present_zero
      rw [heq] at hrun
      obtain ⟨havail, F', hwf', hcost⟩ := ih (n := 512) hv.wf (Forest.blank (D := {child}) (p := p) hblank) rfl
        (vpnIndex_lt vpn level) (fun g hg => by
          obtain rfl : g = child := hg
          exact ⟨fun h => h.2 rfl, (Machine.maps_congr (Machine.regs_hhdm hv.regs) g).mpr (hwf.maps hv.mem_free)⟩)
        hv.avail hrun
      exact ⟨havail, F', hwf', by omega⟩

end

/-! ## The bytes of an address space -/

abbrev Image := Nat → Option Byte

/-- What `map` writes into the tables for the process's own pages. -/
structure OfMap (Q : Word → Prop) : Prop where
  tables : ∀ c, Q (mkEntry c tableFlags)
  leaf : ∀ f, Q (mkEntry f (leafFlags true true))

theorem ofMap_writable : OfMap writable := ⟨writable_mkEntry (by decide), writable_mkEntry (by decide)⟩

theorem ofMap_small : OfMap fun entry => ¬ large entry := ⟨not_large_mkEntry (by decide), not_large_mkEntry (by decide)⟩

/-- From `s` to `t` the space took frames, `cost` of them at most, and now it reads as `M`. -/
structure Holding (s : Machine) (F D : Set Nat) (root : Nat) (t : Machine) (F' : Set Nat) (M : Image) (cost : Nat) :
    Prop where
  space : Space t F' (D ∪ F \ F') s.acting root
  evolves : Evolves s F D t F' (D ∪ F \ F')
  sub : F' ⊆ F
  frames : s.lowerFrames root ∪ F \ F' ⊆ t.lowerFrames root
  zeros : HandsZeros t
  cost : F.ncard ≤ F'.ncard + cost
  bytes : ∀ a, a < 2 ^ 47 → t.userByte root a = M a
  entries : ∀ Q, OfMap Q → LowerEntries Q s root → LowerEntries Q t root

section

variable {s t u : Machine} {F F₁ F₂ D : Set Nat} {root c₁ c₂ : Nat} {M N : Image}

theorem Holding.refl (hz : HandsZeros s) (h : Space s F D s.acting root) :
    Holding s F D root s F (s.userByte root) 0 := by
  have hD : D ∪ F \ F = D := by rw [Set.sdiff_self, Set.union_empty]
  refine ⟨by rw [hD]; exact h, by rw [hD]; exact Evolves.refl s F D, subset_rfl, ?_, hz, Nat.le_refl _, fun _ _ => rfl,
    fun _ _ => id⟩
  rw [Set.sdiff_self, Set.union_empty]

theorem Holding.congr (h : Holding s F D root t F₁ M c₁) (hM : ∀ a, a < 2 ^ 47 → M a = N a) (hc : c₁ ≤ c₂) :
    Holding s F D root t F₁ N c₂ :=
  { h with
    cost := h.cost.trans (Nat.add_le_add_left hc _)
    bytes := fun a ha => (h.bytes a ha).trans (hM a ha) }

theorem Holding.onRoot (h : Holding s F D root t F₁ M c₁) (hr : OnRoot s root) :
    OnRoot t root := hr.congr h.evolves.regs

theorem Holding.acting (h : Holding s F D root t F₁ M c₁) : t.acting = s.acting := Machine.regs_acting h.evolves.regs

theorem Holding.next (h : Holding s F D root t F₁ M c₁) : Space t F₁ (D ∪ F \ F₁) t.acting root := by
  rw [h.acting]
  exact h.space

theorem Holding.trans (h : Holding s F D root u F₁ M c₁) (h' : Holding u F₁ (D ∪ F \ F₁) root t F₂ N c₂) :
    Holding s F D root t F₂ N (c₁ + c₂) := by
  have hset : D ∪ F \ F₁ ∪ F₁ \ F₂ = D ∪ F \ F₂ := by
    rw [Set.union_assoc, Set.sdiff_union_sdiff_cancel h.sub h'.sub]
  have hspace := h'.space
  have hevolves := h'.evolves
  rw [hset] at hspace hevolves
  rw [h.acting] at hspace
  refine ⟨hspace, h.evolves.trans hevolves, h'.sub.trans h.sub, ?_, h'.zeros, ?_, h'.bytes,
    fun Q hQ hs => h'.entries Q hQ (h.entries Q hQ hs)⟩
  · rintro g (hg | hg)
    · exact h'.frames (Or.inl (h.frames (Or.inl hg)))
    · by_cases hg₁ : g ∈ F₁
      · exact h'.frames (Or.inr ⟨hg₁, hg.2⟩)
      · exact h'.frames (Or.inl (h.frames (Or.inr ⟨hg.1, hg₁⟩)))
  · have := h.cost
    have := h'.cost
    omega

end

/-! ## `map_range` -/

/-- The range has a byte in the page of `a`. -/
def touches (start size a : Nat) : Prop :=
  size ≠ 0 ∧ start / FRAME_SIZE ≤ a / FRAME_SIZE ∧ a / FRAME_SIZE ≤ (start + size - 1) / FRAME_SIZE

instance (start size a : Nat) : Decidable (touches start size a) := by unfold touches; infer_instance

/-- The bytes with the pages of a range: zeros where there was no page. -/
def Image.extend (M : Image) (start size : Nat) : Image :=
  fun a => (M a).or (if touches start size a then some 0 else none)

section

variable {s t u : Machine} {F F' D : Set Nat} {root va first stop start size k : Nat} {user write : Bool}

theorem HandsZeros.pageClean (hz : HandsZeros s) (h : Space s F D s.acting root) (hr : OnRoot s root)
    (hva : va < 2 ^ 47) : pageClean va s := by
  intro hnone f u halloc
  have hpage := h.pageFrame halloc
  rw [hr.root h.root_lt]
  exact mapAt_clean hpage.space.wf hpage.space.forest hpage.space.root_mem
    (vpnIndex_lower (by simp only [FRAME_SIZE]; omega)) hpage.space.owned (hz.alloc h.wf halloc).1

theorem userByte_none {a : Nat} (hnone : s.pageEntry root (a / FRAME_SIZE) = none) : s.userByte root a = none := by
  unfold Machine.userByte
  rw [hnone]
  rfl

theorem HandsZeros.mapPage (hz : HandsZeros s) (h : Space s F D s.acting root) (hr : OnRoot s root) (hva : va < 2 ^ 47)
    (hrun : (mapPage true true va).run s = some ((), t)) :
    ∃ F', Holding s F D root t F'
      (fun a => (s.userByte root a).or (if a / FRAME_SIZE = va / FRAME_SIZE then some 0 else none)) 4 := by
  cases he : s.pageEntry root (va / FRAME_SIZE) with
  | some entry =>
    rw [mapPage_some h hr hva he, Option.some.injEq, Prod.mk.injEq] at hrun
    obtain ⟨-, rfl⟩ := hrun
    refine ⟨F, (Holding.refl hz h).congr (fun a ha => ?_) (Nat.zero_le 4)⟩
    split_ifs with hpage
    · obtain ⟨b, hb⟩ : ∃ b, s.userByte root a = some b := by
        rw [Machine.userByte, hpage, he]
        exact ⟨_, rfl⟩
      rw [hb]
      rfl
    · rw [Option.or_none]
  | none =>
    obtain ⟨f, u, F', halloc, hadded⟩ := mapPage_adds h hr hva (hz.pageClean h hr hva) he hrun
    obtain ⟨havail, hzero⟩ := hz.alloc h.wf halloc
    have hpage := h.pageFrame halloc
    have hclean := hz.pageClean h hr hva
    rw [Kernel.pageClean, hr.root h.root_lt] at hclean
    rw [mapPage_none h hr hva he, halloc] at hrun
    obtain ⟨havail', G, hG, hcost⟩ := mapAt_cost hpage.space.wf hpage.space.forest hpage.space.root_mem
      (vpnIndex_lower (by simp only [FRAME_SIZE]; omega)) hpage.space.owned havail hrun
    obtain rfl := hadded.space.wf.unique hG
    have hcard := Set.ncard_sdiff_singleton_add_one hpage.free h.wf.finite
    refine ⟨F', hadded.space, hadded.evolves, ?_, hadded.frames, handsZeros_of_avail havail', by omega, fun a ha => ?_,
      fun Q hQ => hpage.lowerEntries h hva he (hclean he f u halloc) hrun hQ.tables hQ.leaf⟩
    · intro g hg
      rcases hadded.evolves.sub (Or.inl hg) with hF | hD
      · exact hF
      · exact absurd hg (hadded.space.owned g (Or.inl hD)).1
    · rw [hadded.userByte (leafFlags_masked true true) ha]
      split_ifs with hp
      · have hlt : a % FRAME_SIZE < 4096 := by
          simp only [FRAME_SIZE]
          omega
        rw [userByte_none (by rw [hp]; exact he), frameByte_zero.mpr hzero _ hlt]
        rfl
      · rw [Option.or_none]

theorem HandsZeros.mapPage_returns (hz : HandsZeros s) (h : Space s F D s.acting root)
    (hr : OnRoot s root) (hva : va < 2 ^ 47) (hF : 4 ≤ F.ncard) :
    ∃ t, (Kernel.mapPage true true va).run s = some ((), t) := by
  cases he : s.pageEntry root (va / FRAME_SIZE) with
  | some entry => exact ⟨s, mapPage_some h hr hva he⟩
  | none =>
    obtain ⟨f, u, halloc⟩ := alloc_returns h.wf (Set.nonempty_of_ncard_ne_zero (by omega))
    have hpage := h.pageFrame halloc
    have hcard := Set.ncard_sdiff_singleton_add_one hpage.free h.wf.finite
    have hidx := vpnIndex_lower (show va / FRAME_SIZE < 2 ^ 35 by simp only [FRAME_SIZE]; omega)
    have hclean := mapAt_clean hpage.space.wf hpage.space.forest hpage.space.root_mem hidx hpage.space.owned
      (hz.alloc h.wf halloc).1
    have hle := tablesMissing_le (u.marked f) (va / FRAME_SIZE) 3 root
    obtain ⟨t, ht⟩ := mapAt_returns f true true hpage.space.wf hpage.space.forest hpage.space.root_mem hidx
      hpage.space.owned hclean (by omega)
    refine ⟨t, ?_⟩
    rw [mapPage_none h hr hva he, halloc]
    exact ht

/-- After `k` turns of the loop over the pages from `first` on. -/
def PagesIn (s : Machine) (F D : Set Nat) (root first k : Nat) (u : Machine) : Prop :=
  ∃ F', Holding s F D root u F'
    (fun a => (s.userByte root a).or (if first ≤ a / FRAME_SIZE ∧ a / FRAME_SIZE < first + k then some 0 else none))
    (4 * k)

theorem PagesIn.turn (h : PagesIn s F D root first k u) (hr : OnRoot s root)
    (hva : first * FRAME_SIZE + k * FRAME_SIZE < 2 ^ 47)
    (hrun : (mapPage true true (first * FRAME_SIZE + k * FRAME_SIZE)).run u = some ((), t)) :
    PagesIn s F D root first (k + 1) t := by
  obtain ⟨F₁, hu⟩ := h
  obtain ⟨F₂, ht⟩ := hu.zeros.mapPage hu.next (hu.onRoot hr) hva hrun
  refine ⟨F₂, (hu.trans ht).congr (fun a ha => ?_) (by omega)⟩
  have hpage : (first * FRAME_SIZE + k * FRAME_SIZE) / FRAME_SIZE = first + k := by
    simp only [FRAME_SIZE]
    omega
  rw [hu.bytes a ha, hpage, Option.or_assoc]
  congr 1
  grind

theorem mapEnd_eq (hsize : size ≠ 0) (hend : start + size ≤ 2 ^ 47) :
    mapEnd start size = ((start + size - 1) / FRAME_SIZE + 1) * FRAME_SIZE := by
  simp only [mapEnd, add64, sub64, FRAME_SIZE]
  omega

theorem pageCount_mapEnd (hsize : size ≠ 0) (hend : start + size ≤ 2 ^ 47) :
    pageCount (start / FRAME_SIZE * FRAME_SIZE) (mapEnd start size) =
      (start + size - 1) / FRAME_SIZE + 1 - start / FRAME_SIZE := by
  rw [mapEnd_eq hsize hend]
  simp only [pageCount, FRAME_SIZE]
  omega

/-- The pages of a range. -/
def pagesOf (start size : Nat) : Nat := if size = 0 then 0 else (start + size - 1) / FRAME_SIZE + 1 - start / FRAME_SIZE

theorem map_range_eq (user write : Bool) (hsize : size ≠ 0) (hend : start + size ≤ 2 ^ 47) :
    (map_range start size user write).run s = (Prog.forRange (pagesOf start size) fun k =>
      Kernel.mapPage user write (start / FRAME_SIZE * FRAME_SIZE + k * FRAME_SIZE)).run s := by
  have hlast : sub64 (add64 start size) 1 ≥ start := by
    simp only [add64, sub64]
    omega
  have hcount := pageCount_mapEnd hsize hend
  have hstop := mapEnd_eq hsize hend
  unfold map_range pagesOf
  rw [if_neg hsize, if_neg hsize, Prog.assert_bind_run hlast, ← hcount]
  refine Prog.assert_bind_run ?_
  show mapEnd start size ≥ _
  rw [hstop]
  simp only [FRAME_SIZE]
  omega

theorem page_lt (hend : start + size ≤ 2 ^ 47) (hk : k < pagesOf start size) :
    start / FRAME_SIZE * FRAME_SIZE + k * FRAME_SIZE < 2 ^ 47 := by
  unfold pagesOf at hk
  simp only [FRAME_SIZE] at *
  split_ifs at hk <;> omega

theorem pagesIn_extend (h : PagesIn s F D root (start / FRAME_SIZE) (pagesOf start size) t) :
    ∃ F', Holding s F D root t F' (Image.extend (s.userByte root) start size) (4 * pagesOf start size) := by
  obtain ⟨F', h⟩ := h
  refine ⟨F', h.congr (fun a _ => ?_) (Nat.le_refl _)⟩
  unfold Image.extend
  congr 2
  unfold touches pagesOf
  split_ifs with hsize <;> simp only [eq_iff_iff] <;> omega

theorem PagesIn.zero (hz : HandsZeros s) (h : Space s F D s.acting root) : PagesIn s F D root first 0 s :=
  ⟨F, (Holding.refl hz h).congr (fun a _ => by rw [if_neg (by omega), Option.or_none]) (Nat.zero_le _)⟩

theorem HandsZeros.map_range (hz : HandsZeros s) (h : Space s F D s.acting root) (hr : OnRoot s root)
    (hend : start + size ≤ 2 ^ 47) (hrun : (map_range start size true true).run s = some ((), t)) :
    ∃ F', Holding s F D root t F' (Image.extend (s.userByte root) start size) (4 * pagesOf start size) := by
  apply pagesIn_extend
  by_cases hsize : size = 0
  · rw [Kernel.map_range, if_pos hsize, Prog.run_pure] at hrun
    obtain ⟨-, rfl⟩ := hrun
    have hcount : pagesOf start size = 0 := if_pos hsize
    rw [hcount]
    exact PagesIn.zero hz h
  · rw [map_range_eq true true hsize hend] at hrun
    exact Prog.forRange_inv (fun k u => PagesIn s F D root (start / FRAME_SIZE) k u)
      (fun k hk u v hu hstep => hu.turn hr (page_lt hend hk) hstep) (PagesIn.zero hz h) hrun

theorem HandsZeros.map_range_returns (hz : HandsZeros s) (h : Space s F D s.acting root)
    (hr : OnRoot s root) (hend : start + size ≤ 2 ^ 47) (hF : 4 * pagesOf start size ≤ F.ncard) :
    ∃ t, (Kernel.map_range start size true true).run s = some ((), t) := by
  by_cases hsize : size = 0
  · rw [Kernel.map_range, if_pos hsize]
    exact ⟨s, rfl⟩
  · rw [map_range_eq true true hsize hend]
    obtain ⟨t, ht, -⟩ := Prog.forRange_total (fun k u => PagesIn s F D root (start / FRAME_SIZE) k u)
      (fun k hk u hu => by
        obtain ⟨F₁, h₁⟩ := hu
        have hcost := h₁.cost
        obtain ⟨v, hv⟩ := h₁.zeros.mapPage_returns h₁.next (h₁.onRoot hr) (page_lt hend hk) (by omega)
        exact ⟨v, hv, PagesIn.turn ⟨F₁, h₁⟩ hr (page_lt hend hk) hv⟩) (PagesIn.zero hz h)
    exact ⟨t, ht⟩

end

end Kernel
