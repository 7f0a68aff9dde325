import Kernel.Vmm.Paging

/-!
# One entry of the page tables changes (`map`, `unmapPage`)

The walk of any other page finds what it found before, in either half.
-/

namespace Kernel

open Lib

/-- The present entry that the walk of `leafPte` comes to, for any VPN. -/
def leafEntry (vpn : Nat) : K (Option Word) := do
  let s ← get
  let table ← VA.ofPPN (PPN (s.cr3 / FRAME_SIZE))
  match ← leafPteFrom vpn 3 table with
  | none => pure none
  | some (table, index) => do
    let entry ← load table index
    pure (if present entry then some entry else none)

variable {s t : Machine} {F F' : Set Nat} {root v w f last : Nat} {flags : Word}

theorem TableTree.root_eq (h : TableTree s F (PPN.ofPA s.cr3)) : s.root = PPN.ofPA s.cr3 := by
  have hlt := Machine.maps_lt h.wf.hhdm (h.live [] _ (Nat.zero_le _) rfl).2
  rw [PPN.ofPA] at hlt
  exact Nat.mod_eq_of_lt (by omega)

theorem leafEntry_path (hh : HhdmOk s) (hroot : s.root = PPN.ofPA s.cr3)
    (hm : ∀ π g, π <+: tablePath v 3 → walk s.edge (PPN.ofPA s.cr3) π = some g → s.maps g) :
    (leafEntry v).run s = some (s.pageEntry (PPN.ofPA s.cr3) v, s) := by
  have heq : PPN (s.cr3 / FRAME_SIZE) = PPN.ofPA s.cr3 := hroot
  unfold leafEntry
  rw [Prog.bind_run rfl, heq, Prog.bind_run (VA.ofPPN_run hh (hm [] _ List.nil_prefix rfl)),
    Prog.bind_run (leafPteFrom_run hh hm), Machine.pageEntry]
  cases walk s.edge (PPN.ofPA s.cr3) (tablePath v 3) with
  | none => rfl
  | some last =>
    rw [Option.map_some]
    simp only [Option.bind_some]
    rw [Prog.bind_run (load_vaOf (vpnIndex_lt v 0))]
    rfl

theorem leafEntry_run (h : TableTree s F (PPN.ofPA s.cr3)) (v : Nat) :
    (leafEntry v).run s = some (s.pageEntry (PPN.ofPA s.cr3) v, s) :=
  leafEntry_path h.wf.hhdm h.root_eq fun π g hπ hw => (h.way v π g hπ hw).2

/-! ## Pages -/

theorem pagePath_ne (h : w % 2 ^ 36 ≠ v % 2 ^ 36) : pagePath w 3 ≠ pagePath v 3 := by
  intro heq
  simp only [pagePath, tablePath, vpnIndex, List.cons_append, List.nil_append, List.cons.injEq, and_true] at heq
  omega

/-! ## A word of the last table changes -/

/-- Of the tables under `root`, `t` differs from `s` in word `i` of `last` at most. -/
structure WordOnly (s : Machine) (root last i : Nat) (t : Machine) : Prop where
  row : ∀ j, j ≠ i → t.mem last j = s.mem last j
  other : ∀ π g, π.length ≤ 3 → walk s.edge root π = some g → g ≠ last → t.mem g = s.mem g

theorem WordOnly.walks (h : WordOnly s root last (vpnIndex v 0) t) (ht : TableTree s F root)
    (hw : walk s.edge root (tablePath v 3) = some last) {π : List Nat} (hπ : π.length ≤ 3) :
    walk t.edge root π = walk s.edge root π := by
  refine walk_congr_path fun ρ g _ hlt hg => Machine.edge_congr (h.other ρ g (by omega) hg ?_)
  rintro rfl
  have hlen := tablePath_length v 3
  rw [ht.once ρ _ g (by omega) (by omega) hg hw] at hlt
  omega

theorem WordOnly.others (h : WordOnly s root last (vpnIndex v 0) t) (ht : TableTree s F root)
    (hw : walk s.edge root (tablePath v 3) = some last) (hne : pagePath w 3 ≠ pagePath v 3) :
    t.pageEntry root w = s.pageEntry root w := by
  have hlen := fun x => tablePath_length x 3
  rw [Machine.pageEntry, Machine.pageEntry, h.walks ht hw (by rw [hlen])]
  cases hg : walk s.edge root (tablePath w 3) with
  | none => rfl
  | some g =>
    have hsame : t.mem g (vpnIndex w 0) = s.mem g (vpnIndex w 0) := by
      by_cases hgl : g = last
      · subst hgl
        refine h.row _ fun hi => hne ?_
        rw [pagePath, pagePath, ht.once _ _ g (by rw [hlen]) (by rw [hlen]) hg hw, hi]
      · rw [h.other _ g (by rw [hlen]) hg hgl]
    rw [Option.bind_some, Option.bind_some, hsame]

theorem WordOnly.page (h : WordOnly s root last (vpnIndex v 0) t) (ht : TableTree s F root)
    (hw : walk s.edge root (tablePath v 3) = some last) :
    t.pageEntry root v =
      if present (t.mem last (vpnIndex v 0)) then some (t.mem last (vpnIndex v 0)) else none := by
  rw [Machine.pageEntry, h.walks ht hw (by rw [tablePath_length]), hw]
  rfl

theorem WordOnly.tree (h : WordOnly s root last (vpnIndex v 0) t) (ht : TableTree s F root)
    (hw : walk s.edge root (tablePath v 3) = some last) (hwf : PhysWf t F')
    (hfree : ∀ π g, π.length ≤ 3 → walk s.edge root π = some g → g ∉ F')
    (hh : t.hhdm_offset = s.hhdm_offset) : TableTree t F' root where
  wf := hwf
  live π g hπ hg := by
    rw [h.walks ht hw hπ] at hg
    exact ⟨hfree π g hπ hg, (Machine.maps_congr hh g).mpr (ht.live π g hπ hg).2⟩
  once π ρ g hπ hρ hg hg' := by
    rw [h.walks ht hw hπ] at hg
    rw [h.walks ht hw hρ] at hg'
    exact ht.once π ρ g hπ hρ hg hg'

theorem wordOnly_poke (i : Nat) (entry : Word) : WordOnly s root last i (s.poke last i entry) where
  row j hj := by simp [Machine.poke, hj]
  other _ _ _ _ hne := Machine.poke_mem_of_ne hne

theorem TableTree.poke (ht : TableTree s F root) (hw : walk s.edge root (tablePath v 3) = some last) (entry : Word) :
    TableTree (s.poke last (vpnIndex v 0) entry) F root := by
  have hlast := (ht.way v _ last (List.prefix_refl _) hw).1
  refine (wordOnly_poke _ entry).tree ht hw ?_ (fun π g hπ hg => (ht.live π g hπ hg).1) rfl
  exact ht.wf.congr rfl rfl rfl fun g hg => Machine.poke_mem_of_ne fun e => hlast (e ▸ hg)

/-! ## `map` -/

theorem mapAt_over (f : Nat) (user write : Bool) {vpn level table : Nat} (hh : HhdmOk s)
    (hm : ∀ π g, π <+: tablePath vpn level → walk s.edge table π = some g → s.maps g)
    (hw : walk s.edge table (tablePath vpn level) = some last) :
    (mapAt vpn f user write level table).run s =
      some ((), s.poke last (vpnIndex vpn 0) (mkEntry f (leafFlags user write))) := by
  induction level generalizing table with
  | zero =>
    obtain rfl : table = last := Option.some.inj hw
    exact mapAt_zero hh (hm [] table List.nil_prefix rfl)
  | succ level ih =>
    obtain ⟨c, hc, hw⟩ := walk_cons_eq_some.mp hw
    obtain ⟨-, hp, rfl⟩ := Machine.edge_some.mp hc
    rw [mapAt_present hh (hm [] table List.nil_prefix rfl) hp]
    exact ih (fun π g hπ hg => hm (vpnIndex vpn (level + 1) :: π) g ((List.prefix_cons_inj _).mpr hπ)
      ((walk_cons_some hc).mpr hg)) hw

theorem WayMapped.tree (h : WayMapped s F v 3 root f flags t F') (htaken : WayTaken s F v 3 root t F')
    (ht : TableTree s F root) : TableTree t F' root := by
  have hold : ∀ π g, π.length ≤ 3 → walk t.edge root π = some g →
      walk s.edge root π = some g ∨ walk s.edge root π = none ∧ π <+: tablePath v 3 := by
    intro π g hπ hg
    have htree : TreeUpTo (fun _ => False) s F root := ht.upTo
    have hkept := fun c => h.kept htree (g := c) hπ
    have honly := h.only htree (Clear.never s root v flags) (g := g) hπ
    simp only [Machine.through_false] at hkept honly
    cases hs : walk s.edge root π with
    | some c => exact Or.inl ((hkept c hs).symm.trans hg)
    | none => exact Or.inr ⟨rfl, (honly hg).resolve_left (by rw [hs]; simp)⟩
  refine ⟨h.wf, fun π g hπ hg => ?_, fun π ρ g hπ hρ hg hg' => ?_⟩
  · have hmaps := Machine.maps_congr (Machine.regs_hhdm h.regs) g
    rcases hold π g hπ hg with hs | ⟨hnone, hpre⟩
    · obtain ⟨hfree, hm⟩ := ht.live π g hπ hs
      exact ⟨fun hg' => hfree (h.sub hg'), hmaps.mpr hm⟩
    · obtain ⟨hfree, hgone⟩ := htaken.taken π g hpre hnone hg
      exact ⟨hgone, hmaps.mpr (ht.wf.maps hfree)⟩
  · rcases hold π g hπ hg with hs | ⟨hnone, hpre⟩ <;> rcases hold ρ g hρ hg' with hs' | ⟨hnone', hpre'⟩
    · exact ht.once π ρ g hπ hρ hs hs'
    · exact absurd (htaken.taken ρ g hpre' hnone' hg').1 (ht.live π g hπ hs).1
    · exact absurd (htaken.taken π g hpre hnone hg).1 (ht.live ρ g hρ hs').1
    · exact htaken.once π ρ g hpre hpre' hnone hnone' hg hg'

/-- After `map` of VPN `v` to `f`. -/
structure PageMapped (s : Machine) (F : Set Nat) (root v f : Nat) (flags : Word) (t : Machine) (F' : Set Nat) :
    Prop where
  tree : TableTree t F' root
  cr3 : t.cr3 = s.cr3
  page : t.pageEntry root v = some (mkEntry f flags)
  others : ∀ w, pagePath w 3 ≠ pagePath v 3 → t.pageEntry root w = s.pageEntry root w
  sub : F' ⊆ F
  count : (F \ F').ncard ≤ 3

theorem map_page (ht : TableTree s F (PPN.ofPA s.cr3)) (v f : Nat) (user write : Bool)
    (hclean : mapClean v 3 (PPN.ofPA s.cr3) s) (hsize : tablesMissing s v 3 (PPN.ofPA s.cr3) ≤ F.ncard) :
    ∃ t F', (map v f user write).run s = some ((), t) ∧
      PageMapped s F (PPN.ofPA s.cr3) v f (leafFlags user write) t F' := by
  have hway := ht.way v
  have hpresent : present (mkEntry f (leafFlags user write)) :=
    (present_mkEntry f _).mpr (present_leafFlags user write)
  have hrun : (map v f user write).run s = (mapAt v f user write 3 (PPN.ofPA s.cr3)).run s := rfl
  rw [hrun]
  cases hw : walk s.edge (PPN.ofPA s.cr3) (tablePath v 3) with
  | some last =>
    -- Every table is there, and the entry is overwritten.
    have hword : WordOnly s (PPN.ofPA s.cr3) last (vpnIndex v 0) _ :=
      wordOnly_poke (vpnIndex v 0) (mkEntry f (leafFlags user write))
    refine ⟨_, F, mapAt_over f user write ht.wf.hhdm (fun π g hπ hg => (hway π g hπ hg).2) hw,
      ht.poke hw _, rfl, ?_, fun w hne => hword.others ht hw hne, subset_rfl, ?_⟩
    · have hself : (s.poke last (vpnIndex v 0) (mkEntry f (leafFlags user write))).mem last (vpnIndex v 0) =
          mkEntry f (leafFlags user write) := by simp [Machine.poke]
      rw [hword.page ht hw, hself, if_pos hpresent]
    · rw [Set.sdiff_self, Set.ncard_empty]
      exact Nat.zero_le 3
  | none =>
    obtain ⟨t, F', hrun, h, htaken⟩ := mapAt_tables f user write ht.wf hway (by simp [hw]) hclean hsize
    refine ⟨t, F', hrun, h.tree htaken ht, Machine.regs_cr3 h.regs, ?_, fun w hne => h.pageEntry_others ht hne, h.sub,
      Nat.le_trans htaken.count (tablesMissing_le ..)⟩
    obtain ⟨last, hlast, hentry⟩ := h.page
    exact Machine.pageEntry_some.mpr ⟨last, hlast, hpresent, hentry⟩

/-! ## `unmapPage` -/

/-- After `unmapPage` of VPN `v`. -/
structure PageUnmapped (s : Machine) (root v : Nat) (t : Machine) (F' : Set Nat) : Prop where
  tree : TableTree t F' root
  cr3 : t.cr3 = s.cr3
  page : t.pageEntry root v = none
  others : ∀ w, pagePath w 3 ≠ pagePath v 3 → t.pageEntry root w = s.pageEntry root w

/-- The frame can be freed: it is in use, in reach of the direct map, and no table. -/
structure Releasable (s : Machine) (F : Set Nat) (root f : Nat) : Prop where
  used : f ∉ F
  maps : s.maps f
  apart : ∀ π, π.length ≤ 3 → walk s.edge root π ≠ some f

section

variable {va : Nat} {entry : Word}

theorem TableTree.leafPte_run (ht : TableTree s F (PPN.ofPA s.cr3)) (hva : canonical va) :
    (leafPte va).run s = some ((walk s.edge (PPN.ofPA s.cr3) (tablePath (va / FRAME_SIZE) 3)).map
      fun t => (s.vaOf t, vpnIndex (va / FRAME_SIZE) 0), s) := by
  have hway := ht.way (va / FRAME_SIZE)
  rw [← ht.root_eq] at hway ⊢
  exact leafPte_path ht.wf.hhdm hva fun π g hπ hw => (hway π g hπ hw).2

theorem unmapPage_nothing (ht : TableTree s F (PPN.ofPA s.cr3)) (hva : canonical va)
    (hnone : s.pageEntry (PPN.ofPA s.cr3) (va / FRAME_SIZE) = none) : (unmapPage va).run s = some ((), s) := by
  refine unmapPage_absent (vpnIndex_lt _ 0) (ht.leafPte_run hva) fun last hw hp => ?_
  rw [Machine.pageEntry, hw, Option.bind_some, if_pos hp] at hnone
  cases hnone

theorem unmapPage_page (ht : TableTree s F (PPN.ofPA s.cr3)) (hva : canonical va)
    (he : s.pageEntry (PPN.ofPA s.cr3) (va / FRAME_SIZE) = some entry)
    (hf : Releasable s F (PPN.ofPA s.cr3) (entryPpn entry)) :
    ∃ t, (unmapPage va).run s = some ((), t) ∧
      PageUnmapped s (PPN.ofPA s.cr3) (va / FRAME_SIZE) t (insert (entryPpn entry) F) := by
  obtain ⟨last, hw, hp, rfl⟩ := Machine.pageEntry_some.mp he
  have hi := vpnIndex_lt (va / FRAME_SIZE) 0
  have hlen := tablePath_length (va / FRAME_SIZE) 3
  have hleaf := ht.leafPte_run hva
  rw [hw, Option.map_some] at hleaf
  have hrun := unmapPage_found ht.wf.hhdm hi hleaf hp hf.maps
  generalize entryPpn (s.mem last (vpnIndex (va / FRAME_SIZE) 0)) = f at *
  have htable : ∀ π g, π.length ≤ 3 → walk s.edge (PPN.ofPA s.cr3) π = some g → g ≠ f := by
    rintro π g hπ hg rfl
    exact hf.apart π hπ hg
  have hlast := htable _ last (by omega) hw
  have hpoke := (ht.poke hw 0).wf
  -- Freeing the frame writes a link into it, and it is no table.
  have hword : WordOnly s (PPN.ofPA s.cr3) last (vpnIndex (va / FRAME_SIZE) 0)
      ((s.poke last (vpnIndex (va / FRAME_SIZE) 0) 0).freed f) := by
    refine ⟨fun j hj => ?_, fun π g hπ hg hne => ?_⟩
    · exact (congrFun (Machine.poke_mem_of_ne hlast) j).trans ((@wordOnly_poke s 0 _ _ 0).row j hj)
    · exact (Machine.poke_mem_of_ne (htable π g hπ hg)).trans (Machine.poke_mem_of_ne hne)
  refine ⟨_, hrun, hword.tree ht hw (hpoke.freed hf.used hf.maps) (fun π g hπ hg => ?_) rfl, rfl, ?_,
    fun w hne => hword.others ht hw hne⟩
  · rintro (rfl | hg')
    · exact htable π g hπ hg rfl
    · exact (ht.live π g hπ hg).1 hg'
  · have hzero : ((s.poke last (vpnIndex (va / FRAME_SIZE) 0) 0).freed f).mem last (vpnIndex (va / FRAME_SIZE) 0) = 0 :=
      (congrFun (Machine.poke_mem_of_ne hlast) _).trans (by simp [Machine.poke])
    rw [hword.page ht hw, hzero, if_neg not_present_zero]

end

/-! ## Both -/

theorem page_table_updates (ht : TableTree s F (PPN.ofPA s.cr3)) (v : Nat) :
    (∀ ppn user write, ppn < 2 ^ 40 → mapClean v 3 (PPN.ofPA s.cr3) s →
      tablesMissing s v 3 (PPN.ofPA s.cr3) ≤ F.ncard → ∃ t F', (map v ppn user write).run s = some ((), t) ∧
        (∃ entry, (leafEntry v).run t = some (some entry, t) ∧ entryPpn entry = ppn ∧
          entry &&& ~~~addressMask = leafFlags user write) ∧
        (∀ w, w % 2 ^ 36 ≠ v % 2 ^ 36 →
          ∃ found, (leafEntry w).run s = some (found, s) ∧ (leafEntry w).run t = some (found, t)) ∧
        TableTree t F' (PPN.ofPA s.cr3) ∧ F' ⊆ F ∧ (F \ F').ncard ≤ 3) ∧
    ∀ va, canonical va → va / FRAME_SIZE = v →
      ((leafEntry v).run s = some (none, s) → (unmapPage va).run s = some ((), s)) ∧
      ∀ entry, (leafEntry v).run s = some (some entry, s) → Releasable s F (PPN.ofPA s.cr3) (entryPpn entry) →
        ∃ t, (unmapPage va).run s = some ((), t) ∧ (leafEntry v).run t = some (none, t) ∧
          (∀ w, w % 2 ^ 36 ≠ v % 2 ^ 36 →
            ∃ found, (leafEntry w).run s = some (found, s) ∧ (leafEntry w).run t = some (found, t)) ∧
          TableTree t (insert (entryPpn entry) F) (PPN.ofPA s.cr3) := by
  have hfound : ∀ {found : Option Word}, (leafEntry v).run s = some (found, s) →
      s.pageEntry (PPN.ofPA s.cr3) v = found := by
    intro found h
    rw [leafEntry_run ht v] at h
    exact congrArg Prod.fst (Option.some.inj h)
  -- What is kept of the other pages, in terms of the walks.
  have hothers : ∀ {t F'}, TableTree t F' (PPN.ofPA t.cr3) →
      (∀ w, pagePath w 3 ≠ pagePath v 3 → t.pageEntry (PPN.ofPA t.cr3) w = s.pageEntry (PPN.ofPA s.cr3) w) →
      ∀ w, w % 2 ^ 36 ≠ v % 2 ^ 36 →
        ∃ found, (leafEntry w).run s = some (found, s) ∧ (leafEntry w).run t = some (found, t) := by
    intro t F' ht' h w hne
    refine ⟨_, leafEntry_run ht w, ?_⟩
    rw [leafEntry_run ht' w, h w (pagePath_ne hne)]
  refine ⟨fun ppn user write hppn hclean hsize => ?_, ?_⟩
  · obtain ⟨t, F', hrun, h⟩ := map_page ht v ppn user write hclean hsize
    have htree := h.tree
    have hpage := h.page
    have hrest := h.others
    rw [← h.cr3] at htree hpage
    refine ⟨t, F', hrun, ⟨mkEntry ppn (leafFlags user write), ?_, entryPpn_mkEntry hppn (leafFlags_masked user write),
      ?_⟩,
      hothers htree ?_, h.tree, h.sub, h.count⟩
    · rw [leafEntry_run htree v, hpage]
    · have hflags : leafFlags user write &&& ~~~addressMask = leafFlags user write := by
        cases user <;> cases write <;> decide
      have h := flags_mkEntry hppn (leafFlags user write)
      rwa [hflags] at h
    · rw [h.cr3]
      exact hrest
  · rintro va hva rfl
    refine ⟨fun h => unmapPage_nothing ht hva (hfound h), fun entry he hf => ?_⟩
    obtain ⟨t, hrun, h⟩ := unmapPage_page ht hva (hfound he) hf
    have htree := h.tree
    have hpage := h.page
    rw [← h.cr3] at htree hpage
    refine ⟨t, hrun, ?_, hothers htree ?_, h.tree⟩
    · rw [leafEntry_run htree, hpage]
    · rw [h.cr3]
      exact h.others

/-! ## A page that is mapped to the root -/

theorem onePage_tables : TableTree onePage onePageFree 100 := by
  refine ⟨onePage_wf, fun π g hπ hw => ?_, fun π ρ g _ _ hw hw' => ?_⟩
  · obtain ⟨-, rfl⟩ := onePage_walk hw
    simp only [onePageFree, Set.mem_Ico, Machine.maps, onePage, FRAME_SIZE]
    omega
  · obtain ⟨hπ, hg⟩ := onePage_walk hw
    obtain ⟨hρ, hg'⟩ := onePage_walk hw'
    rw [hπ, hρ, show π.length = ρ.length by omega]

/-- Page 1 is mapped to frame 104. -/
def twoPages : Machine := onePage.poke 103 1 (mkEntry 104 (leafFlags true true))

/-- And page 0 to frame 100, the root of the tables. -/
def selfMapped : Machine := twoPages.poke 103 0 (mkEntry 100 (leafFlags true true))

section

variable {π : List Nat}

theorem onePage_last (hv : v < 512) : walk onePage.edge 100 (tablePath v 3) = some 103 := by
  have h3 : vpnIndex v 3 = 0 := by simp only [vpnIndex]; omega
  have h2 : vpnIndex v 2 = 0 := by simp only [vpnIndex]; omega
  have h1 : vpnIndex v 1 = 0 := by simp only [vpnIndex]; omega
  simp [tablePath, h1, h2, h3, walk_cons, onePage_edge]

theorem twoPages_tree : TableTree twoPages onePageFree 100 :=
  onePage_tables.poke (v := 1) (onePage_last (by decide)) _

theorem twoPages_walk (hπ : π.length ≤ 3) : walk twoPages.edge 100 π = walk onePage.edge 100 π :=
  (wordOnly_poke (vpnIndex 1 0) _).walks (v := 1) onePage_tables (onePage_last (by decide)) hπ

theorem twoPages_tables (hv : v < 512) : walk twoPages.edge 100 (tablePath v 3) = some 103 := by
  rw [twoPages_walk (Nat.le_of_eq (tablePath_length v 3))]
  exact onePage_last hv

theorem selfMapped_walk (hπ : π.length ≤ 3) : walk selfMapped.edge 100 π = walk onePage.edge 100 π := by
  rw [← twoPages_walk hπ]
  exact (wordOnly_poke (vpnIndex 0 0) _).walks (v := 0) twoPages_tree (twoPages_tables (by decide)) hπ

theorem selfMapped_tables (hv : v < 512) : walk selfMapped.edge 100 (tablePath v 3) = some 103 := by
  rw [selfMapped_walk (Nat.le_of_eq (tablePath_length v 3))]
  exact onePage_last hv

theorem selfMapped_root : PPN.ofPA selfMapped.cr3 = 100 := by
  show 100 * 4096 / FRAME_SIZE = 100
  rw [FRAME_SIZE]

theorem selfMapped_tree : TableTree selfMapped onePageFree (PPN.ofPA selfMapped.cr3) := by
  rw [selfMapped_root]
  exact twoPages_tree.poke (v := 0) (twoPages_tables (by decide)) _

theorem selfMapped_pages : selfMapped.pageEntry 100 0 = some (mkEntry 100 (leafFlags true true)) ∧
    selfMapped.pageEntry 100 1 = some (mkEntry 104 (leafFlags true true)) :=
  ⟨Machine.pageEntry_some.mpr ⟨103, selfMapped_tables (by decide), by decide, rfl⟩,
    Machine.pageEntry_some.mpr ⟨103, selfMapped_tables (by decide), by decide, rfl⟩⟩

theorem selfMapped_releasable : Releasable selfMapped onePageFree 100 104 := by
  refine ⟨?_, ?_, fun π hπ hw => ?_⟩
  · simp only [onePageFree, Set.mem_Ico]
    omega
  · simp only [Machine.maps, selfMapped, twoPages, onePage, Machine.poke, FRAME_SIZE]
    omega
  · rw [selfMapped_walk hπ] at hw
    have := (onePage_walk hw).2
    omega

end

theorem selfMapped_missing : tablesMissing selfMapped 512 3 100 = 1 ∧ mapClean 512 3 100 selfMapped := by
  have hwords : present (selfMapped.mem 100 (vpnIndex 512 3)) ∧ entryPpn (selfMapped.mem 100 (vpnIndex 512 3)) = 101 ∧
      present (selfMapped.mem 101 (vpnIndex 512 2)) ∧ entryPpn (selfMapped.mem 101 (vpnIndex 512 2)) = 102 ∧
      ¬ present (selfMapped.mem 102 (vpnIndex 512 1)) := by decide
  obtain ⟨h3, h3', h2, h2', h1⟩ := hwords
  have htree := selfMapped_tree
  rw [selfMapped_root] at htree
  have hout : 102 ∉ onePageFree := by
    simp only [onePageFree, Set.mem_Ico]
    omega
  refine ⟨by decide, ?_⟩
  rw [mapClean, if_pos h3, h3', mapClean, if_pos h2, h2']
  exact mapClean_blank htree.wf rfl hout h1

theorem selfMapped_updates :
    (tablesMissing selfMapped 512 3 100 = 1 ∧ ∃ t, (map 512 7 true true).run selfMapped = some ((), t) ∧
      ∃ entry, (leafEntry 512).run t = some (some entry, t) ∧ entryPpn entry = 7) ∧
    ∃ t, (unmapPage 0x1000).run selfMapped = some ((), t) ∧ (leafEntry 1).run t = some (none, t) := by
  obtain ⟨hmap, -⟩ := page_table_updates selfMapped_tree 512
  obtain ⟨-, hunmap⟩ := page_table_updates selfMapped_tree 1
  have hva : 0x1000 / FRAME_SIZE = 1 := by rw [FRAME_SIZE]
  have hppn : entryPpn (mkEntry 104 (leafFlags true true)) = 104 := by decide
  obtain ⟨hmissing, hclean⟩ := selfMapped_missing
  rw [selfMapped_root] at hmap hunmap
  constructor
  · obtain ⟨t, -, hrun, ⟨entry, hentry, hf, -⟩, -⟩ := hmap 7 true true (by decide) hclean
      (by rw [hmissing, onePageFree_ncard]; omega)
    exact ⟨hmissing, t, hrun, entry, hentry, hf⟩
  · have hpage := leafEntry_run selfMapped_tree 1
    rw [selfMapped_root, selfMapped_pages.2] at hpage
    obtain ⟨t, hrun, hnone, -⟩ := (hunmap 0x1000 (by decide) hva).2 _ hpage (by rw [hppn]; exact selfMapped_releasable)
    exact ⟨t, hrun, hnone⟩

/-- Freeing the root writes a link into it, and page 1 is gone with page 0. -/
theorem selfMapped_lost : TableTree selfMapped onePageFree (PPN.ofPA selfMapped.cr3) ∧
    ∃ t entry, (unmapPage 0).run selfMapped = some ((), t) ∧
      (leafEntry 1).run selfMapped = some (some entry, selfMapped) ∧ (leafEntry 1).run t = some (none, t) := by
  have hleaf := selfMapped_tree.leafPte_run (show canonical 0 by decide)
  have hpage := leafEntry_run selfMapped_tree 1
  rw [Nat.zero_div, selfMapped_root, selfMapped_tables (by decide)] at hleaf
  rw [selfMapped_root, selfMapped_pages.2] at hpage
  have hppn : entryPpn (selfMapped.mem 103 (vpnIndex 0 0)) = 100 := by decide
  have hmaps : selfMapped.maps 100 := by
    have hroot := selfMapped_tree.live [] _ (Nat.zero_le _) rfl
    rw [selfMapped_root] at hroot
    exact hroot.2
  have hrun := unmapPage_found selfMapped_tree.wf.hhdm (vpnIndex_lt 0 0) hleaf (by decide) (by rw [hppn]; exact hmaps)
  rw [hppn] at hrun
  let t := (selfMapped.poke 103 (vpnIndex 0 0) 0).freed 100
  have hedge : t.edge 100 (vpnIndex 1 3) = none := edge_zero rfl
  have hroot : PPN.ofPA t.cr3 = 100 := selfMapped_root
  have hnone : t.pageEntry 100 1 = none := by
    rw [Machine.pageEntry, tablePath, walk_cons_none hedge]
    rfl
  have hgone := leafEntry_path (s := t) (v := 1) (selfMapped_tree.wf.hhdm.congr rfl) ?_ ?_
  · rw [hroot, hnone] at hgone
    exact ⟨selfMapped_tree, t, _, hrun, hpage, hgone⟩
  · exact selfMapped_tree.root_eq
  · intro π g hπ hw
    rw [hroot] at hw
    cases π with
    | nil =>
      obtain rfl : 100 = g := Option.some.inj hw
      exact hmaps
    | cons i π =>
      obtain rfl : i = vpnIndex 1 3 := (List.cons_prefix_cons.mp hπ).1
      rw [walk_cons_none hedge] at hw
      cases hw

end Kernel
