import Kernel.Vmm.Tree

/-!
# The lower half of an address space

A page of the lower half is translated through four tables, as `leafPte` walks
them. A process reads and writes what its pages lead to.
-/

namespace Kernel

open Lib

/-! ## Paths -/

/-- The entries that lead from the table of `level` to the last table of a page. -/
def tablePath (vpn : Nat) : Nat → List Nat
  | 0 => []
  | level + 1 => vpnIndex vpn (level + 1) :: tablePath vpn level

def StartsBelow (n : Nat) (π : List Nat) : Prop := ∀ i ∈ π.head?, i < n

/-- The path starts in the lower half. -/
abbrev LowerPath (π : List Nat) : Prop := StartsBelow 256 π

theorem startsBelow_cons {n i : Nat} {π : List Nat} : StartsBelow n (i :: π) ↔ i < n := by
  simp [StartsBelow]

theorem vpnIndex_lt (vpn level : Nat) : vpnIndex vpn level < 512 := Nat.mod_lt _ (by omega)

theorem vpnIndex_lower {vpn : Nat} (h : vpn < 2 ^ 35) : vpnIndex vpn 3 < 256 := by
  simp only [vpnIndex]; omega

theorem tablePath_length (vpn level : Nat) : (tablePath vpn level).length = level := by
  induction level with
  | zero => rfl
  | succ level ih => rw [tablePath, List.length_cons, ih]

theorem lowerPath_tablePath {vpn : Nat} (hv : vpn < 2 ^ 35) (ρ : List Nat) : LowerPath (tablePath vpn 3 ++ ρ) := by
  rw [tablePath, List.cons_append, LowerPath, startsBelow_cons]
  exact vpnIndex_lower hv

theorem lowerPath_initial {vpn : Nat} (hv : vpn < 2 ^ 35) {π : List Nat} (h : π <+: tablePath vpn 3) :
    LowerPath π := by
  cases π with
  | nil => simp [LowerPath, StartsBelow]
  | cons i π =>
    rw [tablePath, List.cons_prefix_cons] at h
    rw [LowerPath, startsBelow_cons, h.1]
    exact vpnIndex_lower hv

/-- The tables that translate the lower half. -/
def Machine.lowerTables (s : Machine) (root : Nat) : Set Nat :=
  {g | ∃ π, LowerPath π ∧ π.length ≤ 3 ∧ walk s.edge root π = some g}

def Machine.lowerPages (s : Machine) (root : Nat) : Set Nat :=
  {g | ∃ π, LowerPath π ∧ π.length = 4 ∧ walk s.edge root π = some g}

/-- The present entry for a page in its last table. -/
def Machine.pageEntry (s : Machine) (root vpn : Nat) : Option Word :=
  (walk s.edge root (tablePath vpn 3)).bind fun table =>
    if present (s.mem table (vpnIndex vpn 0)) then some (s.mem table (vpnIndex vpn 0)) else none

theorem Machine.pageEntry_some {s : Machine} {root vpn : Nat} {entry : Word} :
    s.pageEntry root vpn = some entry ↔ ∃ table, walk s.edge root (tablePath vpn 3) = some table ∧
      present entry ∧ s.mem table (vpnIndex vpn 0) = entry := by
  simp only [pageEntry, Option.bind_eq_some_iff]
  refine exists_congr fun table => and_congr_right fun _ => ?_
  constructor
  · intro h
    split_ifs at h with hp
    obtain rfl := Option.some.inj h
    exact ⟨hp, rfl⟩
  · rintro ⟨hp, rfl⟩
    rw [if_pos hp]

theorem Machine.pageEntry_walk {s : Machine} {root vpn : Nat} {entry : Word}
    (h : s.pageEntry root vpn = some entry) :
    walk s.edge root (tablePath vpn 3 ++ [vpnIndex vpn 0]) = some (entryPpn entry) := by
  obtain ⟨table, hw, hp, rfl⟩ := pageEntry_some.mp h
  rw [walk_append, hw, Option.bind_some, walk_cons_some (edge_of_present (vpnIndex_lt vpn 0) hp)]
  rfl

/-! ## `leafPte` finds the entry -/

theorem leafPteFrom_run {s : Machine} {vpn level table : Nat} (hh : HhdmOk s)
    (hm : ∀ π g, π <+: tablePath vpn level → walk s.edge table π = some g → s.maps g) :
    (leafPteFrom vpn level (s.vaOf table)).run s =
      some ((walk s.edge table (tablePath vpn level)).map fun t => (s.vaOf t, vpnIndex vpn 0), s) := by
  induction level generalizing table with
  | zero => rfl
  | succ level ih =>
    rw [leafPteFrom, Prog.bind_run (load_vaOf (vpnIndex_lt vpn _)), tablePath]
    by_cases hp : present (s.mem table (vpnIndex vpn (level + 1)))
    · have hedge := edge_of_present (vpnIndex_lt vpn _) hp
      have hchild := hm [vpnIndex vpn (level + 1)] (entryPpn (s.mem table (vpnIndex vpn (level + 1))))
        (List.prefix_cons_iff.mpr (Or.inr ⟨[], rfl, List.nil_prefix⟩)) ((walk_cons_some hedge).mpr rfl)
      rw [if_pos hp, Prog.bind_run (VA.ofPPN_run hh hchild), walk_cons, hedge, Option.bind_some]
      refine ih fun π g hπ hw => hm (vpnIndex vpn (level + 1) :: π) g ?_ ((walk_cons_some hedge).mpr hw)
      exact (List.prefix_cons_inj _).mpr hπ
    · rw [if_neg hp, walk_cons_none (Machine.edge_none.mpr fun _ => hp)]
      rfl

def Machine.root (s : Machine) : Nat := PPN (s.cr3 / FRAME_SIZE)

/-- The tables of the lower half are direct-mapped. -/
def Machine.TablesMapped (s : Machine) (root : Nat) : Prop :=
  ∀ g ∈ s.lowerTables root, s.maps g

theorem leafPte_path {s : Machine} {va : Nat} (hh : HhdmOk s) (hva : canonical va)
    (hm : ∀ π g, π <+: tablePath (va / FRAME_SIZE) 3 → walk s.edge s.root π = some g → s.maps g) :
    (leafPte va).run s = some ((walk s.edge s.root (tablePath (va / FRAME_SIZE) 3)).map
      fun t => (s.vaOf t, vpnIndex (va / FRAME_SIZE) 0), s) := by
  have hroot : s.maps s.root := hm [] s.root List.nil_prefix rfl
  rw [leafPte, VA, Prog.bind_run (Prog.assert_bind_run hva), Prog.bind_run rfl, ← Machine.root,
    Prog.bind_run (VA.ofPPN_run hh hroot)]
  exact leafPteFrom_run hh hm

theorem isMapped_path {s : Machine} {va : Nat} (hh : HhdmOk s) (hva : canonical va)
    (hm : ∀ π g, π <+: tablePath (va / FRAME_SIZE) 3 → walk s.edge s.root π = some g → s.maps g) :
    (isMapped va).run s = some ((s.pageEntry s.root (va / FRAME_SIZE)).isSome, s) := by
  rw [isMapped, Prog.bind_run (leafPte_path hh hva hm), Machine.pageEntry]
  cases walk s.edge s.root (tablePath (va / FRAME_SIZE) 3) with
  | none => rfl
  | some t =>
    rw [Option.map_some]
    simp only [Option.bind_some]
    rw [Prog.bind_run (load_vaOf (vpnIndex_lt _ 0))]
    split_ifs with hp <;> simp [hp]

theorem Machine.TablesMapped.path {s : Machine} {root va : Nat} (hva : va < 2 ^ 47) (h : s.TablesMapped root) :
    ∀ π g, π <+: tablePath (va / FRAME_SIZE) 3 → walk s.edge root π = some g → s.maps g := by
  have hv : va / FRAME_SIZE < 2 ^ 35 := by
    simp only [FRAME_SIZE]; omega
  refine fun π g hπ hw => h g ⟨π, lowerPath_initial hv hπ, ?_, hw⟩
  rw [← tablePath_length (va / FRAME_SIZE) 3]
  exact hπ.length_le

theorem leafPte_run {s : Machine} {va : Nat} (hh : HhdmOk s) (hva : va < 2 ^ 47) (hm : s.TablesMapped s.root) :
    (leafPte va).run s = some ((walk s.edge s.root (tablePath (va / FRAME_SIZE) 3)).map
      fun t => (s.vaOf t, vpnIndex (va / FRAME_SIZE) 0), s) :=
  leafPte_path hh (Or.inl hva) (hm.path hva)

theorem isMapped_run {s : Machine} {va : Nat} (hh : HhdmOk s) (hva : va < 2 ^ 47) (hm : s.TablesMapped s.root) :
    (isMapped va).run s = some ((s.pageEntry s.root (va / FRAME_SIZE)).isSome, s) :=
  isMapped_path hh (Or.inl hva) (hm.path hva)

/-! ## Paths through a forest -/

section

variable {t : Machine} {D : Set Nat} {p d n root : Nat}

theorem Forest.walk_mem (h : Forest t D p d n root) {i : Nat} {π : List Nat} {f : Nat} (hi : i < n)
    (hπ : π.length ≤ d) (hw : walk t.edge root (i :: π) = some f) : f ∈ D \ {root} := by
  obtain ⟨c, hc, hw⟩ := walk_cons_eq_some.mp hw
  exact (h.trees i c hi hc).inside ⟨π, hπ, hw⟩

theorem Forest.walk_inj (h : Forest t D p d n root) {i j : Nat} {π ρ : List Nat} {f : Nat} (hi : i < n) (hj : j < n)
    (hπ : π.length ≤ d) (hρ : ρ.length ≤ d) (hw : walk t.edge root (i :: π) = some f)
    (hw' : walk t.edge root (j :: ρ) = some f) : i :: π = j :: ρ := by
  obtain ⟨c, hc, hw⟩ := walk_cons_eq_some.mp hw
  obtain ⟨c', hc', hw'⟩ := walk_cons_eq_some.mp hw'
  by_cases hij : i = j
  · subst hij
    obtain rfl : c = c' := Option.some.inj (hc.symm.trans hc')
    rw [(h.trees i c hi hc).tree π ρ f hπ hρ hw hw']
  · have := Set.disjoint_left.mp (h.apart i j c c' hi hj hij hc hc')
    exact absurd ⟨ρ, hρ, hw'⟩ (this ⟨π, hπ, hw⟩)

theorem Forest.walk_leaf (h : Forest t D p d n root) {i : Nat} {π : List Nat} {f : Nat} (hi : i < n)
    (hπ : π.length = d) (hw : walk t.edge root (i :: π) = some f) : t.owner f = some p := by
  obtain ⟨c, hc, hw⟩ := walk_cons_eq_some.mp hw
  exact (h.trees i c hi hc).leaves π f hπ hw

theorem Forest.congr_walk {s t : Machine} (h : Forest s D p d n root)
    (hw : ∀ π, StartsBelow n π → π.length ≤ d + 1 → walk t.edge root π = walk s.edge root π)
    (hown : ∀ g ∈ D, t.owner g = s.owner g) : Forest t D p d n root := by
  have hedge : ∀ i, i < n → t.edge root i = s.edge root i := by
    intro i hi
    have := hw [i] (startsBelow_cons.mpr hi) (by simp)
    simpa [walk] using this
  have hbelow : ∀ i c, i < n → s.edge root i = some c → ∀ π, π.length ≤ d → walk t.edge c π = walk s.edge c π := by
    intro i c hi hc π hπ
    have := hw (i :: π) (startsBelow_cons.mpr hi) (by simpa using hπ)
    rwa [walk_cons, walk_cons, hedge i hi, hc] at this
  have hwithin : ∀ i c, i < n → s.edge root i = some c → within t.edge d c = within s.edge d c := by
    intro i c hi hc
    ext g
    refine exists_congr fun π => and_congr_right fun hπ => ?_
    rw [hbelow i c hi hc π hπ]
  refine ⟨fun i c hi hc => ?_, fun i j c c' hi hj hij hc hc' => ?_⟩
  · rw [hedge i hi] at hc
    exact (h.trees i c hi hc).congr_walk (hbelow i c hi hc) fun g hg => hown g hg.1
  · rw [hedge i hi] at hc
    rw [hedge j hj] at hc'
    rw [hwithin i c hi hc, hwithin j c' hj hc']
    exact h.apart i j c c' hi hj hij hc hc'

theorem Forest.paths_inj (h : Forest t D p d n root) {π ρ : List Nat} {f : Nat} (hπ : StartsBelow n π)
    (hρ : StartsBelow n ρ) (hlπ : π.length ≤ d + 1) (hlρ : ρ.length ≤ d + 1) (hw : walk t.edge root π = some f)
    (hw' : walk t.edge root ρ = some f) : π = ρ := by
  cases π with
  | nil =>
    cases ρ with
    | nil => rfl
    | cons j ρ =>
      have hmem := h.walk_mem (startsBelow_cons.mp hρ) (by simpa using hlρ) hw'
      exact absurd (Option.some.inj hw).symm hmem.2
  | cons i π =>
    cases ρ with
    | nil =>
      have hmem := h.walk_mem (startsBelow_cons.mp hπ) (by simpa using hlπ) hw
      exact absurd (Option.some.inj hw').symm hmem.2
    | cons j ρ =>
      exact h.walk_inj (startsBelow_cons.mp hπ) (startsBelow_cons.mp hρ) (by simpa using hlπ) (by simpa using hlρ)
        hw hw'

theorem Forest.paths_mem (h : Forest t D p d n root) (hroot : root ∈ D) {π : List Nat} {f : Nat}
    (hπ : StartsBelow n π) (hl : π.length ≤ d + 1) (hw : walk t.edge root π = some f) : f ∈ D := by
  cases π with
  | nil => rw [← Option.some.inj hw]; exact hroot
  | cons i π => exact (h.walk_mem (startsBelow_cons.mp hπ) (by simpa using hl) hw).1

end

/-! ## What a process can do -/

/-- What the process reads in word `j` of a page, if the page is there. -/
def Machine.userLoad (s : Machine) (root vpn j : Nat) : Option Word :=
  (s.pageEntry root vpn).map fun entry => s.mem (entryPpn entry) j

/-- The process writes word `j` of a page. Without the page there is a fault and nothing changes. -/
def Machine.userStore (s : Machine) (root vpn j : Nat) (w : Word) : Machine :=
  match s.pageEntry root vpn with
  | some entry => s.poke (entryPpn entry) j w
  | none => s

theorem Machine.page_mem {s : Machine} {root vpn : Nat} {entry : Word} (hv : vpn < 2 ^ 35)
    (h : s.pageEntry root vpn = some entry) : entryPpn entry ∈ s.lowerPages root :=
  ⟨_, lowerPath_tablePath hv _, by simp [tablePath_length], pageEntry_walk h⟩

theorem lower_walk_congr {s t : Machine} {root : Nat} {π : List Nat} (hπ : LowerPath π) (hlen : π.length ≤ 4)
    (h : ∀ g ∈ s.lowerTables root, t.mem g = s.mem g) : walk t.edge root π = walk s.edge root π := by
  refine walk_congr_path fun ρ g hρ hlt hw => Machine.edge_congr (h g ⟨ρ, ?_, by omega, hw⟩)
  cases ρ with
  | nil => simp [LowerPath, StartsBelow]
  | cons i ρ =>
    obtain ⟨τ, rfl⟩ := hρ
    exact hπ

theorem lowerTables_congr {s t : Machine} {root : Nat} (h : ∀ g ∈ s.lowerTables root, t.mem g = s.mem g) :
    t.lowerTables root = s.lowerTables root := by
  ext g
  refine exists_congr fun π => and_congr_right fun hπ => and_congr_right fun hlen => ?_
  rw [lower_walk_congr hπ (by omega) h]

theorem lowerPages_congr {s t : Machine} {root : Nat} (h : ∀ g ∈ s.lowerTables root, t.mem g = s.mem g) :
    t.lowerPages root = s.lowerPages root := by
  ext g
  refine exists_congr fun π => and_congr_right fun hπ => and_congr_right fun hlen => ?_
  rw [lower_walk_congr hπ (by omega) h]

theorem pageEntry_congr {s t : Machine} {root vpn : Nat} (hv : vpn < 2 ^ 35)
    (h : ∀ g ∈ s.lowerTables root, t.mem g = s.mem g) : t.pageEntry root vpn = s.pageEntry root vpn := by
  have hlen := tablePath_length vpn 3
  have hlower := lowerPath_initial hv (List.prefix_refl _)
  have hwalk := lower_walk_congr hlower (by omega) h
  rw [Machine.pageEntry, Machine.pageEntry, hwalk]
  cases hw : walk s.edge root (tablePath vpn 3) with
  | none => rfl
  | some table =>
    rw [Option.bind_some, Option.bind_some, h table ⟨_, hlower, by omega, hw⟩]

theorem userStore_other {s : Machine} {root vpn j g : Nat} {w : Word} (hv : vpn < 2 ^ 35)
    (hg : g ∉ s.lowerPages root) : (s.userStore root vpn j w).mem g = s.mem g := by
  rw [Machine.userStore]
  cases he : s.pageEntry root vpn with
  | none => rfl
  | some entry =>
    refine Machine.poke_mem_of_ne ?_
    rintro rfl
    exact hg (Machine.page_mem hv he)

/-! ## Two address spaces -/

/-- No page of either space is a page of the other or a table of the two. -/
structure Machine.Separate (s : Machine) (a b : Nat) : Prop where
  left : Disjoint (s.lowerPages a) (s.lowerTables a ∪ s.lowerTables b)
  right : Disjoint (s.lowerPages b) (s.lowerTables a ∪ s.lowerTables b)
  pages : Disjoint (s.lowerPages a) (s.lowerPages b)

/-- One store by a process on one of the roots. -/
def UserStep (roots : Set Nat) (s t : Machine) : Prop :=
  ∃ root ∈ roots, ∃ vpn < 2 ^ 35, ∃ j w, t = s.userStore root vpn j w

theorem Machine.Separate.tables {s u : Machine} {a b : Nat} (h : s.Separate a b)
    (hrun : Relation.ReflTransGen (UserStep {a, b}) s u) :
    ∀ g ∈ s.lowerTables a ∪ s.lowerTables b, u.mem g = s.mem g := by
  induction hrun with
  | refl => exact fun _ _ => rfl
  | @tail u v _ hstep ih =>
    intro g hg
    obtain ⟨root, hroot, vpn, hv, j, w, rfl⟩ := hstep
    refine (userStore_other hv fun hpage => ?_).trans (ih g hg)
    rcases hroot with rfl | rfl
    · rw [lowerPages_congr fun m hm => ih m (Or.inl hm)] at hpage
      exact Set.disjoint_left.mp h.left hpage hg
    · rw [lowerPages_congr fun m hm => ih m (Or.inr hm)] at hpage
      exact Set.disjoint_left.mp h.right hpage hg

theorem Machine.Separate.symm {s : Machine} {a b : Nat} (h : s.Separate a b) : s.Separate b a :=
  ⟨by rw [Set.union_comm]; exact h.right, by rw [Set.union_comm]; exact h.left, h.pages.symm⟩

theorem Machine.Separate.load_store {s u : Machine} {a b : Nat} (h : s.Separate a b)
    (hrun : Relation.ReflTransGen (UserStep {a, b}) s u) {vpn vpn' j j' : Nat} {w : Word} (hv : vpn < 2 ^ 35)
    (hv' : vpn' < 2 ^ 35) : (u.userStore a vpn j w).userLoad b vpn' j' = u.userLoad b vpn' j' := by
  have htables := h.tables hrun
  have ha : u.lowerPages a = s.lowerPages a := lowerPages_congr fun m hm => htables m (Or.inl hm)
  have hb : u.lowerPages b = s.lowerPages b := lowerPages_congr fun m hm => htables m (Or.inr hm)
  have htb : u.lowerTables b = s.lowerTables b := lowerTables_congr fun m hm => htables m (Or.inr hm)
  have hentry : (u.userStore a vpn j w).pageEntry b vpn' = u.pageEntry b vpn' := by
    refine pageEntry_congr hv' fun g hg => userStore_other hv ?_
    rw [ha]
    rw [htb] at hg
    exact fun hpage => Set.disjoint_left.mp h.left hpage (Or.inr hg)
  rw [Machine.userLoad, Machine.userLoad, hentry]
  cases he : u.pageEntry b vpn' with
  | none => rfl
  | some entry =>
    have hpage := Machine.page_mem hv' he
    rw [hb] at hpage
    rw [Option.map_some, Option.map_some, userStore_other hv]
    rw [ha]
    exact fun hpage' => Set.disjoint_left.mp h.pages hpage' hpage

/-! ## The address space of a process -/

/-- The lower half under `root` is a tree of frames of `D` that belongs to `p`, and `F` is free. -/
structure Space (s : Machine) (F D : Set Nat) (p root : Nat) : Prop where
  wf : PhysWf s F
  owned : ∀ g ∈ D, g ∉ F ∧ s.maps g
  root_mem : root ∈ D
  forest : Forest s D p 3 256 root

/-- From `s` to `t` frames moved between `F` and `D`, and no other frame changed. -/
structure Evolves (s : Machine) (F D : Set Nat) (t : Machine) (F' D' : Set Nat) : Prop where
  sub : F' ∪ D' ⊆ F ∪ D
  other : ∀ g, g ∉ F ∪ D → t.mem g = s.mem g ∧ t.owner g = s.owner g
  regs : t.regs = s.regs

theorem Evolves.refl (s : Machine) (F D : Set Nat) : Evolves s F D s F D :=
  ⟨subset_rfl, fun _ _ => ⟨rfl, rfl⟩, rfl⟩

theorem Evolves.trans {s t u : Machine} {F D F' D' F'' D'' : Set Nat} (h : Evolves s F D t F' D')
    (h' : Evolves t F' D' u F'' D'') : Evolves s F D u F'' D'' where
  sub := h'.sub.trans h.sub
  other g hg := by
    obtain ⟨hm, ho⟩ := h.other g hg
    obtain ⟨hm', ho'⟩ := h'.other g fun hg' => hg (h.sub hg')
    exact ⟨hm'.trans hm, ho'.trans ho⟩
  regs := h'.regs.trans h.regs

theorem Space.root_lt {s : Machine} {F D : Set Nat} {p root : Nat} (h : Space s F D p root) : root < 2 ^ 35 :=
  Machine.maps_lt h.wf.hhdm (h.owned root h.root_mem).2

theorem Space.tables {s : Machine} {F D : Set Nat} {p root : Nat} (h : Space s F D p root) :
    s.lowerTables root ⊆ D := by
  rintro g ⟨π, hπ, hlen, hw⟩
  exact h.forest.paths_mem h.root_mem hπ (by omega) hw

theorem Space.pages {s : Machine} {F D : Set Nat} {p root : Nat} (h : Space s F D p root) :
    s.lowerPages root ⊆ D := by
  rintro g ⟨π, hπ, hlen, hw⟩
  exact h.forest.paths_mem h.root_mem hπ (by omega) hw

def OnRoot (s : Machine) (root : Nat) : Prop := s.cr3 = root * FRAME_SIZE

theorem OnRoot.ofPA {s : Machine} {root : Nat} (h : OnRoot s root) : PPN.ofPA s.cr3 = root := by
  rw [PPN.ofPA, h]
  simp only [FRAME_SIZE]; omega

theorem OnRoot.root {s : Machine} {root : Nat} (h : OnRoot s root) (hr : root < 2 ^ 35) : s.root = root := by
  rw [Machine.root, h, PPN]
  simp only [FRAME_SIZE]; omega

theorem OnRoot.congr {s t : Machine} {root : Nat} (h : OnRoot s root) (hr : t.regs = s.regs) : OnRoot t root :=
  (Machine.regs_cr3 hr).trans h

theorem Space.tablesMapped {s : Machine} {F D : Set Nat} {p root : Nat} (h : Space s F D p root)
    (hr : OnRoot s root) : s.TablesMapped s.root := by
  intro g hg
  rw [hr.root h.root_lt] at hg
  exact (h.owned g (h.tables hg)).2

theorem Space.leafPte_run {s : Machine} {F D : Set Nat} {p root va : Nat} (h : Space s F D p root)
    (hr : OnRoot s root) (hva : va < 2 ^ 47) :
    (leafPte va).run s = some ((walk s.edge root (tablePath (va / FRAME_SIZE) 3)).map
      fun t => (s.vaOf t, vpnIndex (va / FRAME_SIZE) 0), s) := by
  rw [Kernel.leafPte_run h.wf.hhdm hva (h.tablesMapped hr), hr.root h.root_lt]

theorem Space.isMapped_run {s : Machine} {F D : Set Nat} {p root va : Nat} (h : Space s F D p root)
    (hr : OnRoot s root) (hva : va < 2 ^ 47) :
    (isMapped va).run s = some ((s.pageEntry root (va / FRAME_SIZE)).isSome, s) := by
  rw [Kernel.isMapped_run h.wf.hhdm hva (h.tablesMapped hr), hr.root h.root_lt]

end Kernel
