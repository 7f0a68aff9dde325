import Kernel.Vmm.Brk

/-!
# What `map` does to each entry

The page is found afterwards, every other walk and every word off its path is
as before, and the frames that were taken are on its path.
-/

namespace Kernel

open Lib

/-- The entries that lead from the table of `level` to a page. -/
def pagePath (vpn level : Nat) : List Nat := tablePath vpn level ++ [vpnIndex vpn 0]

theorem pagePath_succ (vpn level : Nat) :
    pagePath vpn (level + 1) = vpnIndex vpn (level + 1) :: pagePath vpn level := rfl

theorem pagePath_length (vpn level : Nat) : (pagePath vpn level).length = level + 1 := by
  rw [pagePath, List.length_append, tablePath_length]
  rfl

theorem lowerPath_pagePath {vpn : Nat} (hv : vpn < 2 ^ 35) : LowerPath (pagePath vpn 3) := lowerPath_tablePath hv _

theorem walk_pagePath {s : Machine} {root tbl vpn f : Nat} (hw : walk s.edge root (tablePath vpn 3) = some tbl)
    (hedge : s.edge tbl (vpnIndex vpn 0) = some f) : walk s.edge root (pagePath vpn 3) = some f := by
  rw [pagePath, walk_append, hw, Option.bind_some, walk_cons_some hedge]
  rfl

/-- `map` of a page to `f` in the first `n` entries of `table`, walk by walk. `F'` is still free. -/
structure MapEntries (s : Machine) (F : Set Nat) (vpn level n table f : Nat) (flags : Word) (t : Machine)
    (F' : Set Nat) : Prop where
  page : ∃ last, walk t.edge table (tablePath vpn level) = some last ∧ t.mem last (vpnIndex vpn 0) = mkEntry f flags
  kept : ∀ π g, StartsBelow n π → π.length ≤ level + 1 → π ≠ pagePath vpn level → walk s.edge table π = some g →
    walk t.edge table π = some g
  only : ∀ π g, StartsBelow n π → π.length ≤ level + 1 → ¬ π <+: pagePath vpn level → walk t.edge table π = some g →
    walk s.edge table π = some g
  words : ∀ π g i, StartsBelow n π → π.length ≤ level + 1 → walk s.edge table π = some g →
    ¬ π ++ [i] <+: pagePath vpn level → t.mem g i = s.mem g i
  taken : ∀ g ∈ F \ F', ∃ π, π ≠ [] ∧ π <+: tablePath vpn level ∧ walk t.edge table π = some g

theorem startsBelow_of_walk {s : Machine} {table g : Nat} {π : List Nat} (h : walk s.edge table π = some g) :
    StartsBelow 512 π := by
  cases π with
  | nil => simp [StartsBelow]
  | cons i π =>
    obtain ⟨c, hc, -⟩ := walk_cons_eq_some.mp h
    exact startsBelow_cons.mpr (Machine.edge_some.mp hc).1

section

variable {s v t : Machine} {F F₁ F' D : Set Nat} {vpn f p n table level c : Nat} {flags : Word}

theorem MapEntries.lift (h : MapEntries v F₁ vpn level 512 c f flags t F')
    (hedge : t.edge table (vpnIndex vpn (level + 1)) = some c)
    (hrow : ∀ i, i ≠ vpnIndex vpn (level + 1) → t.mem table i = s.mem table i)
    (hrest : ∀ i m, i < n → i ≠ vpnIndex vpn (level + 1) → s.edge table i = some m →
      ∀ g ∈ within s.edge (level + 1) m, t.mem g = s.mem g)
    (hcase : (s.edge table (vpnIndex vpn (level + 1)) = some c ∧ v = s ∧ F₁ = F) ∨
      (s.edge table (vpnIndex vpn (level + 1)) = none ∧ (∀ j, v.edge c j = none) ∧
        ∀ g ∈ F \ F', g = c ∨ g ∈ F₁ \ F')) : MapEntries s F vpn (level + 1) n table f flags t F' := by
  generalize hk : vpnIndex vpn (level + 1) = k at *
  have hrowEdge : ∀ i, i ≠ k → t.edge table i = s.edge table i := by
    intro i hi
    rw [Machine.edge, Machine.edge, hrow i hi]
  -- Beside the table below, walks are as they were.
  have hbeside : ∀ i π, i < n → i ≠ k → π.length ≤ level + 1 →
      walk t.edge table (i :: π) = walk s.edge table (i :: π) := by
    intro i π hi hik hπ
    rw [walk_cons, walk_cons, hrowEdge i hik]
    cases hm : s.edge table i with
    | none => rfl
    | some m => exact walk_congr (d := level + 1) (by omega) fun g hg => Machine.edge_congr (hrest i m hi hik hm g hg)
  have hpath : pagePath vpn (level + 1) = k :: pagePath vpn level := by rw [pagePath_succ, hk]
  have htable : tablePath vpn (level + 1) = k :: tablePath vpn level := by rw [tablePath, hk]
  refine ⟨?_, ?_, ?_, ?_, ?_⟩
  · obtain ⟨last, hlast, hentry⟩ := h.page
    exact ⟨last, by rw [htable, walk_cons_some hedge]; exact hlast, hentry⟩
  · intro π g hn hlen hne hw
    cases π with
    | nil => exact hw
    | cons i π =>
      have hlen' : π.length ≤ level + 1 := by simpa using hlen
      by_cases hik : i = k
      · subst hik
        obtain ⟨m, hm, hw⟩ := walk_cons_eq_some.mp hw
        rcases hcase with ⟨hc, rfl, -⟩ | ⟨hc, -⟩
        · obtain rfl : c = m := Option.some.inj (hc.symm.trans hm)
          rw [walk_cons_some hedge]
          refine h.kept π g (startsBelow_of_walk hw) hlen' ?_ hw
          rintro rfl
          exact hne hpath.symm
        · rw [hc] at hm
          cases hm
      · rw [hbeside i π (startsBelow_cons.mp hn) hik hlen']
        exact hw
  · intro π g hn hlen hne hw
    cases π with
    | nil => exact hw
    | cons i π =>
      have hlen' : π.length ≤ level + 1 := by simpa using hlen
      by_cases hik : i = k
      · subst hik
        rw [walk_cons_some hedge] at hw
        rw [hpath, List.prefix_cons_inj] at hne
        have hold := h.only π g (startsBelow_of_walk hw) hlen' hne hw
        rcases hcase with ⟨hc, rfl, -⟩ | ⟨-, hblank, -⟩
        · rw [walk_cons_some hc]
          exact hold
        · obtain ⟨rfl, -⟩ := walk_of_blank hblank hold
          exact absurd List.nil_prefix hne
      · rw [← hbeside i π (startsBelow_cons.mp hn) hik hlen']
        exact hw
  · intro π g j hn hlen hw hne
    cases π with
    | nil =>
      obtain rfl : table = g := Option.some.inj hw
      refine hrow j fun hjk => hne ?_
      rw [hpath, hjk, List.nil_append, List.cons_prefix_cons]
      exact ⟨rfl, List.nil_prefix⟩
    | cons i π =>
      obtain ⟨m, hm, hw⟩ := walk_cons_eq_some.mp hw
      have hlen' : π.length ≤ level + 1 := by simpa using hlen
      by_cases hik : i = k
      · subst hik
        rcases hcase with ⟨hc, rfl, -⟩ | ⟨hc, -⟩
        · obtain rfl : c = m := Option.some.inj (hc.symm.trans hm)
          rw [hpath, List.cons_append, List.prefix_cons_inj] at hne
          exact h.words π g j (startsBelow_of_walk hw) hlen' hw hne
        · rw [hc] at hm
          cases hm
      · exact congrFun (hrest i m (startsBelow_cons.mp hn) hik hm g ⟨π, hlen', hw⟩) j
  · intro g hg
    have hchild : ∀ g ∈ F₁ \ F', ∃ π, π ≠ [] ∧ π <+: tablePath vpn (level + 1) ∧ walk t.edge table π = some g := by
      intro g hg
      obtain ⟨π, -, hπ, hw⟩ := h.taken g hg
      refine ⟨k :: π, by simp, ?_, by rw [walk_cons_some hedge]; exact hw⟩
      rw [htable, List.prefix_cons_inj]
      exact hπ
    rcases hcase with ⟨-, -, rfl⟩ | ⟨-, -, hfree⟩
    · exact hchild g hg
    · rcases hfree g hg with rfl | hg
      · refine ⟨[k], by simp, ?_, by rw [walk_cons_some hedge]; rfl⟩
        rw [htable, List.cons_prefix_cons]
        exact ⟨rfl, List.nil_prefix⟩
      · exact hchild g hg

theorem nil_or_singleton {π : List Nat} (hlen : π.length ≤ 1) : π = [] ∨ ∃ i, π = [i] := by
  rcases Nat.le_one_iff_eq_zero_or_eq_one.mp hlen with h | h
  · exact Or.inl (List.length_eq_zero_iff.mp h)
  · exact Or.inr (List.length_eq_one_iff.mp h)

theorem mapEntries_zero (hforest : Forest s D p 0 n table) :
    MapEntries s F vpn 0 n table f flags (s.poke table (vpnIndex vpn 0) (mkEntry f flags)) F := by
  have hrow : ∀ i, i ≠ vpnIndex vpn 0 →
      (s.poke table (vpnIndex vpn 0) (mkEntry f flags)).mem table i = s.mem table i := by
    intro i hi
    simp [Machine.poke, hi]
  have hedge : ∀ i, i ≠ vpnIndex vpn 0 →
      (s.poke table (vpnIndex vpn 0) (mkEntry f flags)).edge table i = s.edge table i := by
    intro i hi
    rw [Machine.edge, Machine.edge, hrow i hi]
  have hpath : pagePath vpn 0 = [vpnIndex vpn 0] := rfl
  -- A path of one entry does not depend on the words of the frame it leads to.
  have hone : ∀ (u : Machine) i g, walk u.edge table [i] = some g ↔ u.edge table i = some g := by
    intro u i g
    rw [walk_cons]
    cases u.edge table i <;> rfl
  refine ⟨⟨table, rfl, by simp [Machine.poke]⟩, fun π g _ hlen hne hw => ?_, fun π g _ hlen hne hw => ?_,
    fun π g j hn hlen hw hne => ?_, fun g hg => absurd hg.1 hg.2⟩
  · rcases nil_or_singleton hlen with rfl | ⟨i, rfl⟩
    · exact hw
    · rw [hone, hedge i fun hi => hne (by rw [hpath, hi]), ← hone]
      exact hw
  · rcases nil_or_singleton hlen with rfl | ⟨i, rfl⟩
    · exact hw
    · rw [hone, hedge i fun hi => hne (hi ▸ List.prefix_refl _), ← hone] at hw
      exact hw
  · rcases nil_or_singleton hlen with rfl | ⟨i, rfl⟩
    · obtain rfl : table = g := Option.some.inj hw
      exact hrow j fun hj => hne (hj ▸ List.prefix_refl _)
    · have hg := (hforest.walk_mem (startsBelow_cons.mp hn) (by simp) hw).2
      exact congrFun (Machine.poke_mem_of_ne hg) j

end

theorem mapAt_entries {vpn f p level : Nat} {user write : Bool} :
    ∀ {s t : Machine} {F F' D : Set Nat} {n table : Nat}, PhysWf s F → Forest s D p level n table → table ∈ D →
      vpnIndex vpn level < n → (∀ g ∈ D, g ∉ F ∧ s.maps g) → f ∉ F → f ∉ D → f < 2 ^ 40 → s.owner f = some p →
      mapClean vpn level table s → (mapAt vpn f user write level table).run s = some ((), t) → PhysWf t F' →
      MapEntries s F vpn level n table f (leafFlags user write) t F' := by
  induction level with
  | zero =>
    intro s t F F' D n table hwf hforest htable hi hD hfF hfD hf40 hown hclean hrun hwf'
    rw [mapAt_zero hwf.hhdm (hD table htable).2, Option.some.injEq, Prod.mk.injEq] at hrun
    obtain ⟨-, rfl⟩ := hrun
    have hF : PhysWf (s.poke table (vpnIndex vpn 0) (mkEntry f (leafFlags user write))) F :=
      hwf.congr rfl rfl rfl fun g hg => Machine.poke_mem_of_ne fun e => (hD table htable).1 (e ▸ hg)
    obtain rfl := hF.unique hwf'
    exact mapEntries_zero hforest
  | succ level ih =>
    intro s t F F' D n table hwf hforest htable hi hD hfF hfD hf40 hown hclean hrun hwf'
    have hm := (hD table htable).2
    have hi' := vpnIndex_lt vpn (level + 1)
    by_cases hp : present (s.mem table (vpnIndex vpn (level + 1)))
    · have hedge := edge_of_present hi' hp
      rw [mapAt_present hwf.hhdm hm hp] at hrun
      rw [mapClean, if_pos hp] at hclean
      have hsub := (hforest.trees _ _ hi hedge).inside
      have hchild := (ownTree_succ.mp (hforest.child hi hedge)).2
      generalize entryPpn (s.mem table (vpnIndex vpn (level + 1))) = c at *
      have hDc : ∀ g ∈ within s.edge (level + 1) c, g ∉ F ∧ s.maps g := fun g hg => hD g (hsub hg).1
      have hfc : f ∉ within s.edge (level + 1) c := fun hg => hfD (hsub hg).1
      have hbelow := ih hwf hchild (self_mem_within _ c) (vpnIndex_lt vpn level) hDc hfF hfc hf40 hown hclean hrun hwf'
      obtain ⟨F'', h⟩ := mapAt_spec hwf hchild (self_mem_within _ c) (vpnIndex_lt vpn level) hDc hfF hfc hf40 hown
        hclean hrun
      have hrow : t.mem table = s.mem table := h.other table fun hg => hg.elim (fun hg => (hsub hg).2 rfl) fun hg =>
        (hD table htable).1 hg.1
      refine hbelow.lift (by rw [Machine.edge_congr hrow]; exact hedge) (fun i _ => congrFun hrow i) ?_
        (Or.inl ⟨hedge, rfl, rfl⟩)
      rintro i m him hik hm' g hg
      refine h.other g fun hg' => hg'.elim ?_ fun hg' => ?_
      · exact Set.disjoint_left.mp (hforest.apart i _ m c him hi hik hm' hedge) hg
      · exact (hD g ((hforest.trees i m him hm').inside hg).1).1 hg'.1
    · obtain ⟨child, v, ha, hclean, hrun⟩ := mapAt_adds hwf (hD table htable).1 hm hp hclean hrun
      have hforest' : Forest v {child} p level 512 child := Forest.blank ha.blank
      have hD' := ha.owned hwf
      have hfc : f ∉ ({child} : Set Nat) := fun h => hfF (h ▸ ha.mem_free)
      have hown' : v.owner f = some p := by rw [ha.owner]; exact hown
      have hlevel := vpnIndex_lt vpn level
      have hbelow := ih ha.wf hforest' rfl hlevel hD' (fun hg => hfF hg.1) hfc hf40 hown' hclean hrun hwf'
      obtain ⟨F'', h⟩ := mapAt_spec ha.wf hforest' rfl hlevel hD' (fun hg => hfF hg.1) hfc hf40 hown' hclean hrun
      obtain rfl := h.wf.unique hwf'
      have hfree : ∀ g, g ∉ F → g ∉ {child} ∪ (F \ {child}) \ F'' := by
        rintro g hg (rfl | hg')
        · exact hg ha.mem_free
        · exact hg hg'.1.1
      have htable' := h.other table (hfree table (hD table htable).1)
      refine hbelow.lift ?_ (fun i hik => ?_) ?_ (Or.inr ⟨Machine.edge_none.mpr fun _ => hp, ?_, fun g hg => ?_⟩)
      · exact edge_mkEntry hi' ha.small present_tableFlags tableFlags_masked (by rw [htable']; exact ha.entry)
      · rw [htable']
        exact ha.row i hik
      · intro i m him hik hm' g hg
        obtain ⟨hgD, hgt⟩ := (hforest.trees i m him hm').inside hg
        have hgF := (hD g hgD).1
        rw [h.other g (hfree g hgF), ha.other g hgt fun e => hgF (e ▸ ha.mem_free)]
      · exact fun j => Machine.edge_none.mpr fun hj => ha.blank j hj
      · by_cases hgc : g = child
        · exact Or.inl hgc
        · exact Or.inr ⟨⟨hg.1, hgc⟩, hg.2⟩

/-! ## A page of the address space -/

theorem pagePath_inj {v w : Nat} (hv : v < 2 ^ 35) (hw : w < 2 ^ 35) (h : pagePath v 3 = pagePath w 3) : v = w := by
  unfold pagePath tablePath tablePath tablePath tablePath at h
  simp only [List.cons_append, List.nil_append, List.cons.injEq, and_true, vpnIndex] at h
  omega

theorem pageEntry_walk_path {s : Machine} {root vpn : Nat} {entry : Word} (h : s.pageEntry root vpn = some entry) :
    walk s.edge root (pagePath vpn 3) = some (entryPpn entry) := Machine.pageEntry_walk h

theorem pageEntry_of_walk {s : Machine} {root vpn f : Nat} (h : walk s.edge root (pagePath vpn 3) = some f) :
    ∃ entry, s.pageEntry root vpn = some entry := by
  rw [pagePath, walk_append, Option.bind_eq_some_iff] at h
  obtain ⟨table, hw, h⟩ := h
  obtain ⟨c, hc, -⟩ := walk_cons_eq_some.mp h
  exact ⟨_, Machine.pageEntry_some.mpr ⟨table, hw, (Machine.edge_some.mp hc).2.1, rfl⟩⟩

theorem Space.frames_inj {s : Machine} {F D : Set Nat} {p root v w : Nat} (h : Space s F D p root) {e e' : Word}
    (hv : v < 2 ^ 35) (hw : w < 2 ^ 35)
    (he : s.pageEntry root v = some e) (he' : s.pageEntry root w = some e') (hframe : entryPpn e = entryPpn e') :
    v = w := by
  have hwalk := pageEntry_walk_path he
  have hwalk' := pageEntry_walk_path he'
  rw [← hframe] at hwalk'
  exact pagePath_inj hv hw (h.forest.paths_inj (lowerPath_tablePath hv _) (lowerPath_tablePath hw _)
    (by rw [pagePath_length]) (by rw [pagePath_length]) hwalk hwalk')

section

variable {s t : Machine} {F F' : Set Nat} {vpn f root : Nat} {flags : Word}

theorem MapEntries.entry (h : MapEntries s F vpn 3 256 root f flags t F') (hp : present flags) :
    t.pageEntry root vpn = some (mkEntry f flags) := by
  obtain ⟨last, hlast, hentry⟩ := h.page
  exact Machine.pageEntry_some.mpr ⟨last, hlast, (present_mkEntry f flags).mpr hp, hentry⟩

theorem MapEntries.others (h : MapEntries s F vpn 3 256 root f flags t F') {w : Nat} (hv : vpn < 2 ^ 35)
    (hw : w < 2 ^ 35) (hne : w ≠ vpn) : t.pageEntry root w = s.pageEntry root w := by
  have hpath : pagePath w 3 ≠ pagePath vpn 3 := fun e => hne (pagePath_inj hw hv e)
  have hprefix : ¬ pagePath w 3 <+: pagePath vpn 3 :=
    fun hpre => hpath (hpre.eq_of_length (by rw [pagePath_length, pagePath_length]))
  have hlow := lowerPath_initial hw (List.prefix_refl _)
  have hlen := tablePath_length w 3
  have hforth : ∀ entry, s.pageEntry root w = some entry → t.pageEntry root w = some entry := by
    intro entry he
    obtain ⟨table, hwalk, hpres, hword⟩ := Machine.pageEntry_some.mp he
    refine Machine.pageEntry_some.mpr ⟨table, ?_, hpres, ?_⟩
    · refine h.kept _ _ hlow (by omega) (fun e => ?_) hwalk
      have := congrArg List.length e
      rw [hlen, pagePath_length] at this
      omega
    · rw [← hword]
      exact h.words _ _ _ hlow (by omega) hwalk hprefix
  cases hs : s.pageEntry root w with
  | some entry => exact hforth entry hs
  | none =>
    cases ht : t.pageEntry root w with
    | none => rfl
    | some entry =>
      have hback := h.only _ _ (lowerPath_tablePath hw _) (by simp [hlen]) hprefix (pageEntry_walk_path ht)
      obtain ⟨entry', he⟩ := pageEntry_of_walk hback
      rw [hs] at he
      cases he

theorem MapEntries.pages (h : MapEntries s F vpn 3 256 root f flags t F') {g : Nat} (hg : g ∈ s.lowerPages root) :
    t.mem g = s.mem g := by
  obtain ⟨π, hπ, hlen, hw⟩ := hg
  funext i
  refine h.words π g i hπ (by omega) hw fun hpre => ?_
  have := hpre.length_le
  rw [List.length_append, pagePath_length, hlen, List.length_singleton] at this
  omega

end

/-! ## What `mapPage` does -/

/-- The tables and pages of the lower half, with the root. -/
def Machine.lowerFrames (s : Machine) (root : Nat) : Set Nat := s.lowerTables root ∪ s.lowerPages root

theorem Machine.mem_lowerFrames {s : Machine} {root g : Nat} :
    g ∈ s.lowerFrames root ↔ ∃ π, LowerPath π ∧ π.length ≤ 4 ∧ walk s.edge root π = some g := by
  constructor
  · rintro (⟨π, hπ, hlen, hw⟩ | ⟨π, hπ, hlen, hw⟩)
    · exact ⟨π, hπ, by omega, hw⟩
    · exact ⟨π, hπ, by omega, hw⟩
  · rintro ⟨π, hπ, hlen, hw⟩
    rcases Nat.lt_or_eq_of_le hlen with hlt | heq
    · exact Or.inl ⟨π, hπ, by omega, hw⟩
    · exact Or.inr ⟨π, hπ, heq, hw⟩

/-- Page `vpn` is new, on frame `f`, with the words of `f` in `w`; `F'` is still free. -/
structure PageAdded (s : Machine) (F D : Set Nat) (root vpn f : Nat) (flags : Word) (w t : Machine) (F' : Set Nat) :
    Prop where
  space : Space t F' (D ∪ F \ F') s.acting root
  evolves : Evolves s F D t F' (D ∪ F \ F')
  entry : t.pageEntry root vpn = some (mkEntry f flags)
  others : ∀ v, v < 2 ^ 35 → v ≠ vpn → t.pageEntry root v = s.pageEntry root v
  pages : ∀ g ∈ s.lowerPages root, t.mem g = s.mem g
  content : t.mem f = w.mem f
  frames : s.lowerFrames root ∪ F \ F' ⊆ t.lowerFrames root
  small : f < 2 ^ 40

theorem PageFrame.adds {s w t : Machine} {F D : Set Nat} {root va f : Nat} {user write : Bool}
    (hf : PageFrame s F D root f w) (h : Space s F D s.acting root) (hva : va < 2 ^ 47)
    (hnone : s.pageEntry root (va / FRAME_SIZE) = none) (hclean : mapClean (va / FRAME_SIZE) 3 root w)
    (hrun : (mapAt (va / FRAME_SIZE) f user write 3 root).run w = some ((), t)) :
    ∃ F', PageAdded s F D root (va / FRAME_SIZE) f (leafFlags user write) w t F' := by
  have hv : va / FRAME_SIZE < 2 ^ 35 := by
    simp only [FRAME_SIZE]; omega
  obtain ⟨F', hm⟩ := hf.mapAt_spec hva hclean hrun
  obtain ⟨hspace, hevolves⟩ := hf.mapped hm
  have hentries := mapAt_entries hf.space.wf hf.space.forest hf.space.root_mem (vpnIndex_lower hv) hf.space.owned
    (fun hg => hg.2 rfl) hf.off hf.small hf.owner hclean hrun hm.wf
  -- The frame of the page was free, so no table of the space changed before `map`.
  have hsame : ∀ g ∈ s.lowerTables root, w.mem g = s.mem g := by
    intro g hg
    refine (hf.other g ?_).1
    rintro rfl
    exact hf.off (h.tables hg)
  refine ⟨F', hspace, hevolves, hentries.entry (present_leafFlags user write), fun v hv' hne => ?_,
    fun g hg => ?_, ?_, ?_, hf.small⟩
  · rw [hentries.others hv hv' hne]
    exact pageEntry_congr hv' hsame
  · rw [hentries.pages (by rw [lowerPages_congr hsame]; exact hg)]
    refine (hf.other g ?_).1
    rintro rfl
    exact hf.off (h.pages hg)
  · exact hm.other f fun hg => hg.elim hf.off fun hg => hg.1.2 rfl
  · rintro g (hg | hg)
    · obtain ⟨π, hπ, hlen, hw⟩ := Machine.mem_lowerFrames.mp hg
      refine Machine.mem_lowerFrames.mpr ⟨π, hπ, hlen, hentries.kept π g hπ (by omega) ?_ ?_⟩
      · rintro rfl
        obtain ⟨entry, he⟩ := pageEntry_of_walk hw
        rw [hnone] at he
        cases he
      · rw [lower_walk_congr hπ hlen hsame]
        exact hw
    · by_cases hgf : g = f
      · have hpage := Machine.page_mem hv (hentries.entry (present_leafFlags user write))
        rw [entryPpn_mkEntry hf.small (leafFlags_masked user write)] at hpage
        rw [hgf]
        exact Or.inr hpage
      · obtain ⟨π, -, hπ, hw⟩ := hentries.taken g ⟨⟨hg.1, hgf⟩, hg.2⟩
        have hlen := hπ.length_le
        rw [tablePath_length] at hlen
        exact Or.inl ⟨π, lowerPath_initial hv hπ, hlen, hw⟩

theorem mapPage_adds {s t : Machine} {F D : Set Nat} {root va : Nat} {user write : Bool} {x : Unit}
    (h : Space s F D s.acting root) (hr : OnRoot s root) (hva : va < 2 ^ 47) (hclean : pageClean va s)
    (hnone : s.pageEntry root (va / FRAME_SIZE) = none) (hrun : (mapPage user write va).run s = some (x, t)) :
    ∃ f u F', PhysMem.alloc.run s = some (f, u) ∧
      PageAdded s F D root (va / FRAME_SIZE) f (leafFlags user write) u t F' := by
  rw [pageClean, hr.root h.root_lt] at hclean
  rw [mapPage_none h hr hva hnone, Option.bind_eq_some_iff] at hrun
  obtain ⟨⟨f, u⟩, halloc, hrun⟩ := hrun
  obtain ⟨F', hadded⟩ := (h.pageFrame halloc).adds h hva hnone (hclean hnone f u halloc) hrun
  exact ⟨f, u, F', halloc, { hadded with content := hadded.content }⟩

end Kernel
